import ModelText.Grammar.Error
import ModelText.Grammar.Token

/-!
# Phrases

A phrase recognises part of a model text. What it recognises depends on the text alone: its `result`
is a value and the rest of the text, or nothing. Beside it, a `Reading` carries a `note`, which adds
to what is known of the furthest place where a rule failed and of the rules that failed there
(`Expected`). The notes are for the message of a text that does not parse; no result ever depends on
one.

A named rule (`Phrase.rule`) that fails enters itself in place of everything that failed inside it
at the same position, unless that is exactly one rule, which then says more than the enclosing one.

Sequencing is that of a monad, `orElse` tries one phrase after another on the same text, and
`Phrase.many` repeats a phrase, as often as it goes, with blanks in between.
-/

namespace ModelText.Grammar

/-! ### What was expected -/

/-- The furthest position at which rules failed, by the length of the text left there, and the
rules that failed there, oldest first. -/
structure Expected where
  remaining : Nat
  rules : List Rule
deriving Repr

namespace Expected

/-- How many rules are known to have failed where `remaining` characters are left. -/
def countAt (e : Expected) (remaining : Nat) : Nat :=
  if e.remaining = remaining then e.rules.length else 0

/-- Enters a rule that failed where `remaining` characters are left. When it began, `before` rules
were known to have failed there. -/
def enter (e : Expected) (before remaining : Nat) (rule : Rule) : Expected :=
  if e.countAt remaining = before + 1 then e
  else if remaining < e.remaining then ⟨remaining, [rule]⟩
  else if remaining = e.remaining then ⟨remaining, e.rules.take before ++ [rule]⟩
  else e

/-- The expected rules as a message lists them: each once, in the order of the grammar. -/
def listed (e : Expected) : List Rule :=
  (e.rules.mergeSort fun a b => a.rank ≤ b.rank).eraseDups

end Expected

/-! ### Readings -/

/-- What a phrase makes of a text. -/
structure Reading (α : Type) where
  result : Option (α × List Char)
  note : Expected → Expected

/-- Recognises something at the front of a text. -/
def Phrase (α : Type) : Type := List Char → Reading α

namespace Phrase

variable {α β : Type}

/-- Recognises the empty text. -/
def pure (a : α) : Phrase α := fun cs =>
  ⟨some (a, cs), id⟩

/-- Recognises one phrase, and another one right after it. -/
def bind (p : Phrase α) (f : α → Phrase β) : Phrase β := fun cs =>
  let first := p cs
  match first.result with
  | none => ⟨none, first.note⟩
  | some (a, rest) =>
    let second := f a rest
    ⟨second.result, second.note ∘ first.note⟩

instance : Monad Phrase where
  pure := Phrase.pure
  bind := Phrase.bind

/-- Recognises the first of two phrases or, if that fails, the second one. -/
def orElse (p q : Phrase α) : Phrase α := fun cs =>
  let first := p cs
  match first.result with
  | some _ => first
  | none =>
    let second := q cs
    ⟨second.result, second.note ∘ first.note⟩

@[simp] theorem result_pure (a : α) (cs : List Char) :
    ((Pure.pure a : Phrase α) cs).result = some (a, cs) := rfl

/-- What a phrase finds does not depend on what it records on the way, here or in the lemmas below. -/
theorem result_bind (p : Phrase α) (f : α → Phrase β) (cs : List Char) :
    ((p >>= f) cs).result = (p cs).result.bind fun (a, rest) => (f a rest).result := by
  show (Phrase.bind p f cs).result = _
  unfold Phrase.bind
  cases h : (p cs).result <;> simp [h]

theorem result_orElse (p q : Phrase α) (cs : List Char) :
    (orElse p q cs).result = (p cs).result.or (q cs).result := by
  unfold orElse
  cases h : (p cs).result <;> simp [h]

/-- The text at this point. -/
def here : Phrase (List Char) := fun cs =>
  ⟨some (cs, cs), id⟩

/-- A phrase that nothing is. -/
def never : Phrase α := fun _ =>
  ⟨none, id⟩

/-- A token, without a note. -/
def lexeme (l : Lexeme) : Phrase (List Char) := fun cs =>
  ⟨l cs, id⟩

/-- A fixed token. -/
def token (text : String) : Phrase (List Char) :=
  lexeme (exactly text.toList)

/-- Blanks and comments. -/
def blanks : Phrase Unit := fun cs =>
  ⟨some ((), skip cs), id⟩

/-- A named rule, which is entered where it fails. -/
def rule (r : Rule) (p : Phrase α) : Phrase α := fun cs =>
  let reading := p cs
  match reading.result with
  | some _ => reading
  | none =>
    ⟨none, fun e => (reading.note e).enter (e.countAt cs.length) cs.length r⟩

@[simp] theorem result_rule (r : Rule) (p : Phrase α) (cs : List Char) :
    (rule r p cs).result = (p cs).result := by
  unfold rule
  cases h : (p cs).result <;> simp [h]

/-- Tries a phrase, whose failure leaves the text as it is. -/
def optional (p : Phrase α) : Phrase (Option α) :=
  orElse (p >>= fun a => Pure.pure (some a)) (Pure.pure none)

/-- A phrase as often as it goes, `limit` times at most. -/
def upTo (p : Phrase α) : Nat → Phrase (List α)
  | 0 => Pure.pure []
  | limit + 1 => do
    match ← optional p with
    | none => return []
    | some a =>
      let more ← upTo p limit
      return a :: more

/-- A phrase as often as it goes, with blanks in between. It goes no more often than the text has
characters. -/
def many (p : Phrase α) : Phrase (List α) := fun cs =>
  (do
    match ← optional p with
    | none => return []
    | some a =>
      let more ← upTo (do blanks; p) cs.length
      return a :: more : Phrase (List α)) cs

end Phrase

end ModelText.Grammar
