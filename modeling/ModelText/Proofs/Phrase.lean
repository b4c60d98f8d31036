import ModelText.Proofs.Tree

/-!
# What phrases recognise

The results of the phrase combinators, apart from their notes: sequences, choices and repetitions.
`Phrase.Chain` is what a repetition has gone through. That a repetition stops where it should is
shown by the next token, which cannot begin another round.

A list between brackets is the one larger form that occurs twice, and its parts are given only by
what holds of them: `Phrase.Sound` if what a phrase returns has the tokens that the text begins with,
`Phrase.Complete` if the text's tokens decide what the phrase returns.
-/

namespace ModelText.Grammar

namespace Phrase

variable {α β : Type}

/-! ### Results -/

/-- One phrase and then another: the second starts where the first has stopped. -/
theorem result_bind_eq_some {p : Phrase α} {f : α → Phrase β} {cs rest : List Char} {b : β} :
    ((p >>= f) cs).result = some (b, rest) ↔
      ∃ a mid, (p cs).result = some (a, mid) ∧ (f a mid).result = some (b, rest) := by
  -- What the two phrases record on the way does not matter to what they find.
  rw [result_bind, Option.bind_eq_some_iff]
  exact Prod.exists

/-- If the first phrase finds nothing, neither do the two. -/
theorem result_bind_eq_none {p : Phrase α} {f : α → Phrase β} {cs : List Char}
    (h : (p cs).result = none) : ((p >>= f) cs).result = none := by
  rw [result_bind, h]
  rfl

/-- Once it is known what the first phrase finds, the second is left. -/
theorem result_bind_of_eq {p : Phrase α} {f : α → Phrase β} {cs mid : List Char} {a : α}
    (h : (p cs).result = some (a, mid)) : ((p >>= f) cs).result = (f a mid).result := by
  rw [result_bind, h]
  rfl

/-- A phrase that looks where it is takes nothing. -/
@[simp] theorem result_here (cs : List Char) : (here cs).result = some (cs, cs) := rfl

/-- The phrase that never matches finds nothing. -/
@[simp] theorem result_never (cs : List Char) : ((never : Phrase α) cs).result = none := rfl

/-- Blanks always match, and take the whole gap. -/
@[simp] theorem result_blanks (cs : List Char) : (blanks cs).result = some ((), skip cs) := rfl

/-- A lexeme finds what its lexer does. -/
@[simp] theorem result_lexeme (l : Lexeme) (cs : List Char) : (lexeme l cs).result = l cs := rfl

/-- A fixed token is found where the text begins with it. -/
theorem result_token_eq_some {text : String} {cs w rest : List Char} :
    (token text cs).result = some (w, rest) ↔ w = text.toList ∧ cs = text.toList ++ rest := by
  rw [token, result_lexeme, exactly_eq_some_iff]

/-- In particular in front of any rest. -/
theorem result_token_append (text : String) (rest : List Char) :
    (token text (text.toList ++ rest)).result = some (text.toList, rest) :=
  result_token_eq_some.mpr ⟨rfl, rfl⟩

/-- Where the text does not begin with the token, it is not found. -/
theorem result_token_eq_none {text : String} {cs : List Char}
    (h : ∀ rest, cs ≠ text.toList ++ rest) : (token text cs).result = none := by
  -- Had it been found, the text would begin with it.
  rw [Option.eq_none_iff_forall_ne_some]
  rintro ⟨w, rest⟩ hw
  exact h rest (result_token_eq_some.mp hw).2

/-- Of two alternatives the first that matches is taken. The second is tried only if the first finds
nothing, and is not tried again if what follows fails. -/
theorem result_orElse_eq_some {p q : Phrase α} {cs rest : List Char} {a : α} :
    (orElse p q cs).result = some (a, rest) ↔
      (p cs).result = some (a, rest) ∨ (p cs).result = none ∧ (q cs).result = some (a, rest) := by
  -- Whether the first alternative matches decides it.
  rw [result_orElse]
  cases (p cs).result <;> simp

/-- If the first alternative finds nothing, the second decides. -/
theorem result_orElse_of_none {p q : Phrase α} {cs : List Char} (h : (p cs).result = none) :
    (orElse p q cs).result = (q cs).result := by
  rw [result_orElse, h, Option.none_or]

/-- An optional phrase always matches, if need be without taking anything. -/
theorem result_optional (p : Phrase α) (cs : List Char) :
    (optional p cs).result =
      match (p cs).result with
      | some (a, rest) => some (some a, rest)
      | none => some (none, cs) := by
  rw [optional, result_orElse, result_bind]
  cases (p cs).result <;> rfl

/-! ### Repetition -/

/-- A phrase recognised several times in a row, with a gap before each time. -/
inductive Chain (p : Phrase α) : List Char → List α → List Char → Prop
  | nil (cs : List Char) : Chain p cs [] cs
  | cons {cs mid rest : List Char} {a : α} {as : List α} :
      (p (skip cs)).result = some (a, mid) → Chain p mid as rest → Chain p cs (a :: as) rest

/-- One round of a repetition: it goes over the blanks and tries the phrase, and gives the blanks back if
that finds nothing. -/
theorem result_upTo_succ (p : Phrase α) (limit : Nat) (cs : List Char) :
    (upTo (do blanks; p) (limit + 1) cs).result =
      match (p (skip cs)).result with
      | none => some ([], cs)
      | some (a, mid) =>
        ((upTo (do blanks; p) limit) mid).result.map fun (as, rest) => (a :: as, rest) := by
  rw [upTo, result_bind, result_optional, result_bind_of_eq (result_blanks cs)]
  -- Where the phrase finds nothing, the blanks that it has gone over are given back.
  cases (p (skip cs)).result with
  | none => rfl
  | some found =>
    simp only [Option.bind_some]
    rw [result_bind]
    cases (upTo (do blanks; p) limit found.2).result <;> rfl

/-- What a bounded repetition finds is a chain of rounds. -/
theorem chain_of_upTo {p : Phrase α} {limit : Nat} {cs rest : List Char} {as : List α}
    (h : (upTo (do blanks; p) limit cs).result = some (as, rest)) : Chain p cs as rest := by
  -- By induction on the limit, one round at a time.
  induction limit generalizing cs as with
  | zero =>
    cases h
    exact .nil _
  | succ limit ih =>
    rw [result_upTo_succ] at h
    split at h
    · cases h
      exact .nil _
    · next a mid hp =>
      obtain ⟨⟨as, rest⟩, hmore, e⟩ := Option.map_eq_some_iff.mp h
      cases e
      exact .cons hp (ih hmore)

/-- A chain of rounds is found in full if the bound allows for them and the phrase does not match once
more behind them. -/
theorem upTo_of_chain {p : Phrase α} {limit : Nat} {cs rest : List Char} {as : List α}
    (h : Chain p cs as rest) (hstop : (p (skip rest)).result = none) (hlimit : as.length ≤ limit) :
    (upTo (do blanks; p) limit cs).result = some (as, rest) := by
  -- By induction on the rounds: the limit is not reached before the last of them.
  induction h generalizing limit with
  | nil cs =>
    cases limit with
    | zero => rfl
    | succ limit => rw [result_upTo_succ, hstop]
  | cons hp _ ih =>
    obtain _ | limit := limit
    · simp at hlimit
    · rw [result_upTo_succ, hp]
      simp only
      rw [ih hstop (Nat.le_of_succ_le_succ hlimit)]
      rfl

/-- A repetition tries the phrase where it stands, without blanks before it, and then goes on in rounds.
There are at most as many of these as there are characters. -/
theorem result_many (p : Phrase α) (cs : List Char) :
    (many p cs).result =
      match (p cs).result with
      | none => some ([], cs)
      | some (a, mid) =>
        ((upTo (do blanks; p) cs.length) mid).result.map fun (as, rest) => (a :: as, rest) := by
  rw [many, result_bind, result_optional]
  -- The first try decides whether there are any rounds.
  cases (p cs).result with
  | none => rfl
  | some found =>
    simp only [Option.bind_some]
    rw [result_bind]
    cases (upTo (do blanks; p) cs.length found.2).result <;> rfl

/-- What a repetition returns is what it has gone through. Where it goes through nothing it stays
after the gap in front. -/
theorem chain_or_of_many {p : Phrase α} {cs rest : List Char} {as : List α}
    (h : (many p (skip cs)).result = some (as, rest)) :
    Chain p cs as rest ∨ as = [] ∧ rest = skip cs := by
  rw [result_many] at h
  split at h
  · cases h
    exact .inr ⟨rfl, rfl⟩
  · next a mid hp =>
    obtain ⟨⟨as, rest⟩, hmore, e⟩ := Option.map_eq_some_iff.mp h
    cases e
    exact .inl (.cons hp (chain_of_upTo hmore))

/-- Up to a gap, what a repetition returns is always what it has gone through. -/
theorem chain_of_many {p : Phrase α} {cs rest : List Char} {as : List α}
    (h : (many p (skip cs)).result = some (as, rest)) :
    ∃ rest', Chain p cs as rest' ∧ skip rest' = skip rest := by
  rcases chain_or_of_many h with hchain | ⟨rfl, rfl⟩
  · exact ⟨rest, hchain, rfl⟩
  · exact ⟨cs, .nil cs, (skip_skip cs).symm⟩

/-- A repetition goes on as long as it can. -/
theorem many_of_chain {p : Phrase α} {cs rest : List Char} {as : List α} (h : Chain p cs as rest)
    (hstop : (p (skip rest)).result = none) (hlength : as.length ≤ (skip cs).length + 1) :
    ∃ rest', (many p (skip cs)).result = some (as, rest') ∧ skip rest' = skip rest := by
  -- The first round is read apart from the others, which the length of the text limits.
  cases h with
  | nil => exact ⟨skip cs, by rw [result_many, hstop], skip_skip cs⟩
  | @cons _ mid _ a as hp hmore =>
    refine ⟨rest, ?_, rfl⟩
    rw [result_many, hp]
    simp only
    rw [upTo_of_chain hmore hstop (Nat.le_of_succ_le_succ hlength)]
    rfl

/-! ### Lists between brackets -/

/-- The next token ends a value: a comma or a closing bracket. -/
def Closes (rest : List Char) : Prop :=
  ∃ c r, skip rest = c :: r ∧ (c = ',' ∨ c = ']' ∨ c = '\x7d')

/-- What the phrase returns, the text begins with, if a value can end there. -/
def Sound (p : Phrase α) (tok : α → List Token) : Prop :=
  ∀ ⦃cs a rest⦄, (p (skip cs)).result = some (a, rest) → Closes rest → Scans cs (tok a) rest

/-- Where the text begins with the tokens of `b`, the phrase returns something that stands for `b`.
-/
def Complete (p : Phrase α) (erase : α → β) (tok : β → List Token) (b : β) : Prop :=
  ∀ ⦃cs rest⦄, Scans cs (tok b) rest → ∃ a, erase a = b ∧ (p (skip cs)).result = some (a, rest)

/-- A phrase after a comma. -/
def afterComma (p : Phrase α) : Phrase α := do
  let _ ← token ","
  blanks
  p

/-- A part that comes after a comma. -/
theorem result_afterComma_eq_some {p : Phrase α} {cs rest : List Char} {a : α} :
    (afterComma p cs).result = some (a, rest) ↔
      ∃ mid, cs = ',' :: mid ∧ (p (skip mid)).result = some (a, rest) := by
  rw [afterComma, result_bind_eq_some]
  constructor
  · rintro ⟨w, mid, hw, h⟩
    rw [result_bind_of_eq (result_blanks mid)] at h
    exact ⟨mid, (result_token_eq_some.mp hw).2, h⟩
  · rintro ⟨mid, rfl, h⟩
    refine ⟨_, mid, result_token_append "," mid, ?_⟩
    rwa [result_bind_of_eq (result_blanks mid)]

/-- Without a comma there is none. -/
theorem result_afterComma_eq_none {p : Phrase α} {cs : List Char} (h : ∀ mid, cs ≠ ',' :: mid) :
    (afterComma p cs).result = none := by
  rw [Option.eq_none_iff_forall_ne_some]
  rintro ⟨a, rest⟩ ha
  obtain ⟨mid, hcs, -⟩ := result_afterComma_eq_some.mp ha
  exact h mid hcs

/-- Parts with commas between them: a first one, and a repetition of the others. -/
theorem result_commaSeparated_eq_some {p : Phrase α} {cs rest : List Char} {as : List α} :
    (commaSeparated p cs).result = some (as, rest) ↔
      ∃ a mid more, (p cs).result = some (a, mid) ∧
        (many (afterComma p) (skip mid)).result = some (more, rest) ∧ as = a :: more := by
  rw [commaSeparated, result_bind_eq_some]
  constructor
  · rintro ⟨a, mid, ha, h⟩
    rw [result_bind_of_eq (result_blanks mid)] at h
    obtain ⟨more, rest', hmore, h⟩ := result_bind_eq_some.mp h
    cases h
    exact ⟨a, mid, more, ha, hmore, rfl⟩
  · rintro ⟨a, mid, more, ha, hmore, rfl⟩
    refine ⟨a, mid, ha, ?_⟩
    rw [result_bind_of_eq (result_blanks mid)]
    exact result_bind_eq_some.mpr ⟨more, rest, hmore, rfl⟩

/-- The characters that brackets come as. -/
structure Brackets (opening closing : String) (o c : Char) : Prop where
  opening : opening.toList = [o]
  closing : closing.toList = [c]
  opens : o ∈ marks
  closes : c = ']' ∨ c = '\x7d'

variable {opening closing : String} {o c : Char}

/-- The closing bracket is a mark of the grammar. -/
theorem Brackets.mem_marks (h : Brackets opening closing o c) : c ∈ marks := by
  rcases h.closes with rfl | rfl <;> decide

/-- It is not the comma, so the list and its end cannot be mixed up. -/
theorem Brackets.ne_comma (h : Brackets opening closing o c) : c ≠ ',' := by
  rcases h.closes with rfl | rfl <;> decide

/-- What stands between brackets: nothing, or parts with commas between them. -/
theorem bracketed_cases (hb : Brackets opening closing o c) {p : Phrase α} {cs rest : List Char}
    {as : List α} (h : (bracketed opening closing p cs).result = some (as, rest)) :
    ∃ mid, cs = o :: mid ∧
      (as = [] ∧ skip mid = c :: rest ∨
        ∃ a more mid' rest', as = a :: more ∧ (p (skip mid)).result = some (a, mid') ∧
          (many (afterComma p) (skip mid')).result = some (more, rest') ∧
          skip rest' = c :: rest) := by
  rcases result_orElse_eq_some.mp h with h | ⟨-, h⟩
  · -- Nothing between the brackets.
    obtain ⟨w, mid, hw, h⟩ := result_bind_eq_some.mp h
    rw [result_bind_of_eq (result_blanks mid)] at h
    obtain ⟨v, rest', hv, h⟩ := result_bind_eq_some.mp h
    cases h
    obtain ⟨-, hcs⟩ := result_token_eq_some.mp hw
    obtain ⟨-, hmid⟩ := result_token_eq_some.mp hv
    rw [hb.opening] at hcs
    rw [hb.closing] at hmid
    exact ⟨mid, hcs, .inl ⟨rfl, hmid⟩⟩
  · -- A first part and others, each after a comma.
    obtain ⟨w, mid, hw, h⟩ := result_bind_eq_some.mp h
    rw [result_bind_of_eq (result_blanks mid)] at h
    obtain ⟨all, rest', hall, h⟩ := result_bind_eq_some.mp h
    rw [result_bind_of_eq (result_blanks rest')] at h
    obtain ⟨v, rest'', hv, h⟩ := result_bind_eq_some.mp h
    cases h
    obtain ⟨-, hcs⟩ := result_token_eq_some.mp hw
    obtain ⟨-, hrest⟩ := result_token_eq_some.mp hv
    rw [hb.opening] at hcs
    rw [hb.closing] at hrest
    obtain ⟨a, mid', more, ha, hmore, rfl⟩ := result_commaSeparated_eq_some.mp hall
    exact ⟨mid, hcs, .inr ⟨a, more, mid', rest', rfl, ha, hmore, hrest⟩⟩

/-- A bracket that closes at once makes the empty list. -/
theorem bracketed_nil (hb : Brackets opening closing o c) (p : Phrase α) {mid rest : List Char}
    (h : skip mid = c :: rest) :
    (bracketed opening closing p (o :: mid)).result = some ([], rest) := by
  -- The empty list is the first alternative, so nothing has to be said of the second.
  refine result_orElse_eq_some.mpr (.inl ?_)
  refine result_bind_eq_some.mpr ⟨_, mid, result_token_eq_some.mpr ⟨rfl, ?_⟩, ?_⟩
  · rw [hb.opening]
    rfl
  · rw [result_bind_of_eq (result_blanks mid)]
    refine result_bind_eq_some.mpr ⟨_, rest, result_token_eq_some.mpr ⟨rfl, ?_⟩, rfl⟩
    rw [hb.closing, h]
    rfl

/-- Otherwise the first part comes behind the opening bracket, and the others each behind a comma. That
the text does not go on with the closing bracket has to be said, because the empty list is tried first. -/
theorem bracketed_cons (hb : Brackets opening closing o c) {p : Phrase α}
    {mid mid' rest rest' : List Char} {a : α} {more : List α}
    (hne : ∀ r, skip mid ≠ c :: r) (ha : (p (skip mid)).result = some (a, mid'))
    (hmore : (many (afterComma p) (skip mid')).result = some (more, rest'))
    (hrest : skip rest' = c :: rest) :
    (bracketed opening closing p (o :: mid)).result = some (a :: more, rest) := by
  have hopen : (token opening (o :: mid)).result = some ([o], mid) := by
    refine result_token_eq_some.mpr ⟨hb.opening.symm, ?_⟩
    rw [hb.opening]
    rfl
  -- The first part does not begin like the end of the list, so the list is not taken for an empty
  -- one.
  have hclose : (token closing (skip mid)).result = none := by
    refine result_token_eq_none fun r h => ?_
    rw [hb.closing] at h
    exact hne r h
  rw [bracketed, result_orElse_of_none]
  · rw [result_bind_of_eq hopen, result_bind_of_eq (result_blanks mid)]
    refine result_bind_eq_some.mpr ⟨a :: more, rest', ?_, ?_⟩
    · exact result_commaSeparated_eq_some.mpr ⟨a, mid', more, ha, hmore, rfl⟩
    · rw [result_bind_of_eq (result_blanks rest')]
      refine result_bind_eq_some.mpr ⟨_, rest, result_token_eq_some.mpr ⟨rfl, ?_⟩, rfl⟩
      rw [hb.closing, hrest]
      rfl
  · rw [result_bind_of_eq hopen, result_bind_of_eq (result_blanks mid)]
    exact result_bind_eq_none hclose

/-- Brackets open with their opening character. -/
theorem bracketed_eq_none (hb : Brackets opening closing o c) (p : Phrase α) {cs : List Char}
    (h : ∀ mid, cs ≠ o :: mid) : (bracketed opening closing p cs).result = none := by
  rw [Option.eq_none_iff_forall_ne_some]
  rintro ⟨as, rest⟩ has
  obtain ⟨mid, hcs, -⟩ := bracketed_cases hb has
  exact h mid hcs

/-- If a part is read soundly, the rounds of a list spell the tokens of its parts up to the closing
bracket. -/
theorem scans_of_chain (hb : Brackets opening closing o c) {p : Phrase α} {tok : α → List Token}
    (hp : Sound p tok) {cs mid rest : List Char} {as : List α}
    (h : Chain (afterComma p) cs as mid) (hmid : skip mid = c :: rest) :
    Scans cs (Tree.moreTokens c (as.map tok)) rest ∧ Closes cs := by
  -- By induction on the rounds. Where one ends a comma or the closing bracket follows, and so the
  -- part before it has ended soundly.
  induction h with
  | nil cs =>
    refine ⟨⟨rest, Token.at_mark_iff.mpr ⟨hb.mem_marks, hmid⟩, rfl⟩, c, rest, hmid, ?_⟩
    exact .inr hb.closes
  | @cons cs mid' mid a as ha _ ih =>
    obtain ⟨mid'', hcs, ha⟩ := result_afterComma_eq_some.mp ha
    obtain ⟨hmore, hclose⟩ := ih hmid
    refine ⟨?_, ',', mid'', hcs, .inl rfl⟩
    rw [List.map_cons, Tree.moreTokens, scans_cons]
    refine ⟨mid'', Token.at_mark_iff.mpr ⟨by decide, hcs⟩, ?_⟩
    exact scans_append.mpr ⟨mid', hp ha hclose, hmore⟩

/-- A list between brackets is read soundly if its parts are. -/
theorem bracketed_sound (hb : Brackets opening closing o c) {p : Phrase α} {tok : α → List Token}
    (hp : Sound p tok) {cs rest : List Char} {as : List α}
    (h : (bracketed opening closing p (skip cs)).result = some (as, rest)) :
    Scans cs (.mark o :: Tree.listTokens c (as.map tok)) rest := by
  obtain ⟨mid, hcs, h⟩ := bracketed_cases hb h
  refine ⟨mid, Token.at_mark_iff.mpr ⟨hb.opens, hcs⟩, ?_⟩
  rcases h with ⟨rfl, hmid⟩ | ⟨a, more, mid', rest', rfl, ha, hmore, hrest⟩
  · exact ⟨rest, Token.at_mark_iff.mpr ⟨hb.mem_marks, hmid⟩, rfl⟩
  · obtain ⟨rest'', hchain, hskip⟩ := chain_of_many hmore
    obtain ⟨hmore, hclose⟩ := scans_of_chain hb hp hchain (hskip.trans hrest)
    exact scans_append.mpr ⟨mid', hp ha hclose, hmore⟩

/-- Conversely, if every part is found where its tokens are, then so are the rounds of the list. -/
theorem chain_of_scans {p : Phrase α} {erase : α → β} {tok : β → List Token}
    {cs rest : List Char} {bs : List β}
    (hp : ∀ b ∈ bs, Complete p erase tok b) (h : Scans cs (Tree.moreTokens c (bs.map tok)) rest) :
    ∃ as mid, as.map erase = bs ∧ Chain (afterComma p) cs as mid ∧ skip mid = c :: rest := by
  -- By induction on the parts: the comma and the part after it are one round.
  induction bs generalizing cs with
  | nil =>
    obtain ⟨mid, hmid, rfl⟩ := h
    exact ⟨[], cs, rfl, .nil cs, (Token.at_mark_iff.mp hmid).2⟩
  | cons b bs ih =>
    obtain ⟨mid, hcomma, h⟩ := h
    obtain ⟨mid', hb', h⟩ := scans_append.mp h
    obtain ⟨hpb, hpbs⟩ := List.forall_mem_cons.mp hp
    obtain ⟨a, ha, hread⟩ := hpb hb'
    obtain ⟨as, last, has, hchain, hlast⟩ := ih hpbs h
    refine ⟨a :: as, last, by rw [List.map_cons, ha, has], .cons ?_ hchain, hlast⟩
    exact result_afterComma_eq_some.mpr ⟨mid, (Token.at_mark_iff.mp hcomma).2, hread⟩

/-- A list has more tokens than parts, as each part brings its comma and the bracket is left over. So the
number of characters bounds the rounds. -/
theorem length_le_moreTokens (close : Char) (ts : List (List Token)) :
    ts.length < (Tree.moreTokens close ts).length := by
  -- By induction on the parts.
  induction ts with
  | nil => exact Nat.one_pos
  | cons t ts ih =>
    simp only [Tree.moreTokens, List.length_cons, List.length_append]
    omega

/-- A list between brackets is read completely if its parts are, and none of them begins like the
end of the list. -/
theorem bracketed_complete (hb : Brackets opening closing o c) {p : Phrase α} {erase : α → β}
    {tok : β → List Token} {bs : List β} (hp : ∀ b ∈ bs, Complete p erase tok b)
    (hfirst : ∀ b ∈ bs, ∀ {cs rest}, Scans cs (tok b) rest → ∀ r, skip cs ≠ c :: r)
    {cs rest : List Char} (h : Scans cs (.mark o :: Tree.listTokens c (bs.map tok)) rest) :
    ∃ as, as.map erase = bs ∧
      (bracketed opening closing p (skip cs)).result = some (as, rest) := by
  obtain ⟨mid, hopen, h⟩ := h
  rw [(Token.at_mark_iff.mp hopen).2]
  cases bs with
  | nil =>
    obtain ⟨_, hmid, rfl⟩ := h
    exact ⟨[], rfl, bracketed_nil hb p (Token.at_mark_iff.mp hmid).2⟩
  | cons b bs =>
    obtain ⟨hpb, hpbs⟩ := List.forall_mem_cons.mp hp
    obtain ⟨mid', hb', h⟩ := scans_append.mp h
    obtain ⟨a, ha, hread⟩ := hpb hb'
    obtain ⟨as, last, has, hchain, hlast⟩ := chain_of_scans hpbs h
    -- After the last part there is no comma, and before that the limit of the repetition is not
    -- reached, since each part takes a token at least.
    have hstop : (afterComma p (skip last)).result = none := by
      refine result_afterComma_eq_none fun r hr => ?_
      rw [hlast] at hr
      exact hb.ne_comma (List.cons.inj hr).1
    have hlength : as.length ≤ (skip mid').length + 1 := by
      have hlt := length_le_moreTokens c (bs.map tok)
      have hle := Scans.length_le
        ((scans_iff_of_skip_eq (Tree.moreTokens_ne_nil _ _) (skip_skip mid')).mpr h)
      have heq := congrArg List.length has
      simp only [List.length_map] at hlt heq
      omega
    obtain ⟨rest', hmany, hskip⟩ := many_of_chain hchain hstop hlength
    refine ⟨a :: as, by rw [List.map_cons, ha, has], ?_⟩
    exact bracketed_cons hb (hfirst b List.mem_cons_self hb') hread hmany (hskip.trans hlast)

end Phrase

end ModelText.Grammar
