import Mathlib.Data.List.Induction
import ModelText.Proofs.Spelling

/-!
# Texts as sequences of tokens

The lexical grammar of model text. A text is a sequence of tokens with gaps around them (`Lexes`). A
gap is any run of blanks and complete comments (`Gap`), and at each place the token is one that no
longer token of any class begins with (`Token.At`).

The lexemes and `skip` are what the reader has in its place: `Token.At` says the same as the lexeme
of the class (`Token.at_name_iff` and so on), and a gap in front of a token is what `skip` skips
(`Gap.skip_eq`).
-/

namespace ModelText.Grammar

/-! ### Tokens -/

/-- A token: the header of a section, the path of an import with the mark of an import after it, a
name, a literal or a punctuation mark. -/
inductive Token where
  | header (name : List Char)
  | importPath (path : List Char)
  | name (text : List Char)
  | string (raw : List Char)
  | number (raw : List Char)
  | word (raw : List Char)
  | mark (c : Char)
deriving DecidableEq

/-- The literals that are words. -/
def literalWords : List (List Char) :=
  ["true".toList, "false".toList, "null".toList]

/-- The punctuation marks. -/
def marks : List Char :=
  ['\x7b', '\x7d', '[', ']', ':', ',', ';']

/-- The characters of a token. -/
inductive Token.Spelled : Token → List Char → Prop
  | header {n : List Char} : Path.isWord n → Spelled (.header n) ('#' :: '#' :: '#' :: n)
  | importPath {p : List Char} : IsName p → Spelled (.importPath p) (p ++ [':', ':', '*'])
  | name {n : List Char} : IsName n → Spelled (.name n) n
  | string {w : List Char} : IsString w → Spelled (.string w) w
  | number {w : List Char} : IsNumber w → Spelled (.number w) w
  | word {w : List Char} : w ∈ literalWords → Spelled (.word w) w
  | mark {c : Char} : c ∈ marks → Spelled (.mark c) [c]

/-- **Maximal munch.** The text `cs` begins with the token, `rest` follows it, and no token of any
class goes on beyond it. -/
def Token.At (t : Token) (cs rest : List Char) : Prop :=
  ∃ w, t.Spelled w ∧ cs = w ++ rest ∧
    ∀ t' more rest', rest = more ++ rest' → Token.Spelled t' (w ++ more) → more = []

/-! ### Gaps -/

/-- `cs` is `rest` after a run of blanks and complete comments. A line comment goes on up to the end
of its line, a block comment up to the first mark that closes it. -/
inductive Gap : List Char → List Char → Prop
  | none (cs : List Char) : Gap cs cs
  | blank {c : Char} {cs rest : List Char} : isBlank c → Gap cs rest → Gap (c :: cs) rest
  | line {body cs rest : List Char} : (∀ c ∈ body, c ≠ '\n') → (∀ c ∈ cs.head?, c = '\n') →
      Gap cs rest → Gap ('/' :: '/' :: (body ++ cs)) rest
  | block {body cs rest : List Char} : ¬ ['*', '/'] <:+: body ++ ['*'] → Gap cs rest →
      Gap ('/' :: '*' :: (body ++ '*' :: '/' :: cs)) rest

/-- The text is the sequence of tokens, with gaps around them. -/
inductive Lexes : List Char → List Token → Prop
  | done {cs : List Char} : Gap cs [] → Lexes cs []
  | token {cs mid rest : List Char} {t : Token} {ts : List Token} : Gap cs mid → t.At mid rest →
      Lexes rest ts → Lexes cs (t :: ts)

/-! ### Gaps are skipped -/

/-- Two gaps in a row are one. -/
theorem Gap.trans {a b c : List Char} (h : Gap a b) (k : Gap b c) : Gap a c := by
  -- By induction on the first gap.
  induction h with
  | none => exact k
  | blank hc _ ih => exact .blank hc (ih k)
  | line hbody hend _ ih => exact .line hbody hend (ih k)
  | block hbody _ ih => exact .block hbody (ih k)

/-- Skipping goes over blanks and a comment and then starts again. -/
theorem skip_eq_of_afterComment {cs rest : List Char}
    (h : afterComment (cs.dropWhile isBlank) = some rest) : skip cs = skip rest := by
  rw [skip]
  split
  · next heq => rw [h] at heq; cases heq; rfl
  · next heq => rw [h] at heq; cases heq

/-- It stops after the blanks if there is no comment. -/
theorem skip_eq_dropWhile {cs : List Char} (h : afterComment (cs.dropWhile isBlank) = none) :
    skip cs = cs.dropWhile isBlank := by
  rw [skip]
  split
  · next heq => rw [h] at heq; cases heq
  · rfl

/-- Blanks in front make no difference to what is left after them. -/
theorem skip_cons_of_isBlank {c : Char} (hc : isBlank c) (cs : List Char) :
    skip (c :: cs) = skip cs := by
  have hdrop : (c :: cs).dropWhile isBlank = cs.dropWhile isBlank :=
    List.dropWhile_cons_of_pos hc
  cases h : afterComment (cs.dropWhile isBlank) with
  | none => rw [skip_eq_dropWhile h, skip_eq_dropWhile (by rw [hdrop, h]), hdrop]
  | some rest => rw [skip_eq_of_afterComment h, skip_eq_of_afterComment (by rw [hdrop, h])]

/-- A block comment ends at the first mark that closes it. -/
theorem afterBlock_sound {cs rest : List Char} (h : afterBlock cs = some rest) :
    ∃ body, cs = body ++ '*' :: '/' :: rest ∧ ¬ ['*', '/'] <:+: body ++ ['*'] := by
  fun_induction afterBlock cs with
  | case1 => simp at h
  | case2 rest' =>
    cases h
    exact ⟨[], rfl, fun h => absurd h.length_le (by decide)⟩
  | case3 c cs hclose ih =>
    obtain ⟨body, rfl, hbody⟩ := ih h
    refine ⟨c :: body, rfl, ?_⟩
    -- The mark would have to begin at the first character, and then the block ends there.
    rw [List.cons_append, List.infix_cons_iff]
    rintro (hfront | hinside)
    · obtain ⟨t, ht⟩ := hfront
      obtain ⟨rfl, ht⟩ := List.cons.inj ht
      cases body with
      | nil => simp at ht
      | cons d ds =>
        have hd : '/' = d := (List.cons.inj (List.cons.inj ht).2).1
        subst hd
        exact hclose (ds ++ '*' :: '/' :: rest) rfl rfl
    · exact hbody hinside

/-- Where the body has no closing mark, the search goes on up to the one behind it. -/
theorem afterBlock_append {body : List Char} (h : ¬ ['*', '/'] <:+: body ++ ['*'])
    (rest : List Char) : afterBlock (body ++ '*' :: '/' :: rest) = some rest := by
  -- By induction on the body: no mark begins at its first character, so the search goes on.
  induction body with
  | nil => rfl
  | cons c cs ih =>
    rw [List.cons_append, List.infix_cons_iff, not_or] at h
    rw [List.cons_append, afterBlock]
    · exact ih h.2
    · intro r hc hr
      refine h.1 ?_
      rw [hc]
      cases cs with
      | nil => simp at hr
      | cons d ds =>
        rw [List.cons_append] at hr
        rw [(List.cons.inj hr).1]
        exact ⟨ds ++ ['*'], rfl⟩

/-- Blanks are a gap. -/
theorem gap_dropWhile (cs : List Char) : Gap cs (cs.dropWhile isBlank) := by
  -- By induction on the text, blank by blank.
  induction cs with
  | nil => exact .none []
  | cons c cs ih =>
    rw [List.dropWhile_cons]
    split
    · next hc => exact .blank hc ih
    · exact .none _

/-- A line comment stops at the end of its line or of the text. -/
theorem head?_dropWhile_ne (cs : List Char) :
    ∀ c ∈ (cs.dropWhile (· != '\n')).head?, c = '\n' := by
  intro c hc
  have h := List.head?_dropWhile_not (· != '\n') cs
  rw [Option.mem_def] at hc
  rw [hc] at h
  simpa using h

theorem ne_of_mem_takeWhile (cs : List Char) : ∀ c ∈ cs.takeWhile (· != '\n'), c ≠ '\n' :=
  fun c hc => by simpa using List.all_eq_true.mp List.all_takeWhile c hc

/-- A comment is a gap. -/
theorem gap_of_afterComment {cs rest : List Char} (h : afterComment cs = some rest) :
    Gap cs rest := by
  unfold afterComment at h
  split at h
  · next rest' =>
    cases h
    -- The line comment goes on up to the end of its line.
    have hgap := Gap.line (ne_of_mem_takeWhile rest') (head?_dropWhile_ne rest') (.none _)
    rwa [List.takeWhile_append_dropWhile] at hgap
  · obtain ⟨body, rfl, hbody⟩ := afterBlock_sound h
    exact .block hbody (.none _)
  · simp at h

/-- What `skip` skips is a gap. -/
theorem gap_skip (cs : List Char) : Gap cs (skip cs) := by
  fun_induction skip cs with
  | case1 cs rest h ih => exact (gap_dropWhile cs).trans ((gap_of_afterComment h).trans ih)
  | case2 cs h => exact gap_dropWhile cs

/-- What is left after a line without its end. -/
theorem dropWhile_line {body cs : List Char} (hbody : ∀ c ∈ body, c ≠ '\n')
    (hend : ∀ c ∈ cs.head?, c = '\n') : (body ++ cs).dropWhile (· != '\n') = cs := by
  rw [List.dropWhile_append_of_pos (by simpa using hbody)]
  cases cs with
  | nil => rfl
  | cons c cs => simp [hend c rfl]

/-- A gap in front makes no difference to what is left after blanks and comments. -/
theorem Gap.skip_eq {cs rest : List Char} (h : Gap cs rest) : skip cs = skip rest := by
  -- By induction on the gap: blanks and comments are skipped one after another, as `skip` does it.
  induction h with
  | none => rfl
  | blank hc _ ih => rw [skip_cons_of_isBlank hc, ih]
  | @line body cs rest hbody hend _ ih =>
    rw [← ih]
    refine skip_eq_of_afterComment ?_
    rw [List.dropWhile_cons_of_neg (by decide), afterComment, dropWhile_line hbody hend]
  | @block body cs rest hbody _ ih =>
    rw [← ih]
    refine skip_eq_of_afterComment ?_
    rw [List.dropWhile_cons_of_neg (by decide), afterComment, afterBlock_append hbody]

/-- After skipping there is nothing left to skip. -/
@[simp] theorem skip_skip (cs : List Char) : skip (skip cs) = skip cs :=
  ((gap_skip cs).skip_eq).symm

@[simp] theorem skip_nil : skip [] = [] := by
  rw [skip_eq_dropWhile rfl]
  rfl

/-! ### How tokens begin -/

/-- The classes of tokens that can be told apart by their first character. -/
inductive TokenClass where
  | header
  | name
  | string
  | number
  | mark
deriving DecidableEq

/-- The class of the tokens that begin with a character, if any does. -/
def classOf? (c : Char) : Option TokenClass :=
  if c = '#' then some .header
  else if Path.isInitial c then some .name
  else if c = '"' then some .string
  else if c = '-' ∨ c.isDigit then some .number
  else if c ∈ marks then some .mark
  else none

/-- The class of a token. -/
def Token.class : Token → TokenClass
  | .header _ => .header
  | .importPath _ | .name _ | .word _ => .name
  | .string _ => .string
  | .number _ => .number
  | .mark _ => .mark

/-- No digit begins a name. -/
theorem not_isInitial_of_isDigit {c : Char} (h : c.isDigit) : ¬ Path.isInitial c := by
  have hdigit : c.val ≤ '9'.val := of_decide_eq_true (Bool.and_eq_true_iff.mp h).2
  intro hinitial
  rcases Bool.or_eq_true_iff.mp hinitial with halpha | hunderscore
  · -- Letters of either case come after the digits.
    rcases Bool.or_eq_true_iff.mp halpha with hupper | hlower
    · have hge : 'A'.val ≤ c.val := (of_decide_eq_true hupper).1
      exact absurd (UInt32.le_trans hge hdigit) (by decide)
    · have hge : 'a'.val ≤ c.val := of_decide_eq_true (Bool.and_eq_true_iff.mp hlower).1
      exact absurd (UInt32.le_trans hge hdigit) (by decide)
  · obtain rfl := beq_iff_eq.mp hunderscore
    exact absurd h (by decide)

/-- Letters and underscores begin names. -/
theorem classOf?_of_isInitial {c : Char} (h : Path.isInitial c) : classOf? c = some .name := by
  have hc : c ≠ '#' := by
    rintro rfl
    exact absurd h (by decide)
  rw [classOf?, if_neg hc, if_pos h]

/-- Digits and the minus sign begin numbers. -/
theorem classOf?_of_isDigit {c : Char} (h : c = '-' ∨ c.isDigit) : classOf? c = some .number := by
  rcases h with rfl | h
  · rfl
  · have hc : c ≠ '#' ∧ c ≠ '"' := by
      constructor <;> rintro rfl <;> exact absurd h (by decide)
    rw [classOf?, if_neg hc.1, if_neg (not_isInitial_of_isDigit h), if_neg hc.2, if_pos (.inr h)]

theorem IsName.exists_initial {w : List Char} (h : IsName w) :
    ∃ c cs, w = c :: cs ∧ Path.isInitial c := by
  obtain ⟨c, cs, rfl, hc, -⟩ := isName_iff.mp h
  exact ⟨c, cs, rfl, hc⟩

theorem IsWhole.exists_digit {w : List Char} (h : IsWhole w) : ∃ c cs, w = c :: cs ∧ c.isDigit := by
  rcases h with rfl | ⟨h, -⟩
  · exact ⟨'0', [], rfl, rfl⟩
  · obtain _ | ⟨c, cs⟩ := w
    · exact absurd rfl h.1
    · exact ⟨c, cs, rfl, h.2 c List.mem_cons_self⟩

/-- A number begins with a minus sign or a digit. -/
theorem IsNumber.exists_first {w : List Char} (h : IsNumber w) :
    ∃ c cs, w = c :: cs ∧ (c = '-' ∨ c.isDigit) := by
  obtain ⟨p, hp, rfl⟩ := h
  unfold NumberParts.text
  -- The minus sign comes first, and the first digit if there is none.
  cases p.negative with
  | true => exact ⟨'-', _, rfl, .inl rfl⟩
  | false =>
    obtain ⟨c, cs, hwhole, hc⟩ := hp.whole.exists_digit
    rw [hwhole]
    exact ⟨c, _, rfl, .inr hc⟩

/-- The literal words are spelled like names. The context tells which of the two is meant. -/
theorem isName_of_mem_literalWords {w : List Char} (h : w ∈ literalWords) : IsName w := by
  refine .word ?_
  simp only [literalWords, List.mem_cons, List.not_mem_nil, or_false] at h
  rcases h with rfl | rfl | rfl <;> decide

/-- The first character of a token tells its class. -/
theorem Token.Spelled.exists_first {t : Token} {w : List Char} (h : t.Spelled w) :
    ∃ c cs, w = c :: cs ∧ classOf? c = some t.class := by
  -- One case for each sort of token.
  cases h with
  | header => exact ⟨_, _, rfl, rfl⟩
  | importPath hp =>
    obtain ⟨c, cs, rfl, hc⟩ := hp.exists_initial
    exact ⟨c, _, rfl, classOf?_of_isInitial hc⟩
  | name hn =>
    obtain ⟨c, cs, rfl, hc⟩ := hn.exists_initial
    exact ⟨c, _, rfl, classOf?_of_isInitial hc⟩
  | string hw =>
    obtain ⟨body, -, rfl⟩ := hw
    exact ⟨'"', _, rfl, rfl⟩
  | number hw =>
    obtain ⟨c, cs, rfl, hc⟩ := hw.exists_first
    exact ⟨c, cs, rfl, classOf?_of_isDigit hc⟩
  | word hw =>
    obtain ⟨c, cs, rfl, hc⟩ := (isName_of_mem_literalWords hw).exists_initial
    exact ⟨c, _, rfl, classOf?_of_isInitial hc⟩
  | @mark c hc =>
    refine ⟨c, [], rfl, ?_⟩
    simp only [marks, List.mem_cons, List.not_mem_nil, or_false] at hc
    rcases hc with rfl | rfl | rfl | rfl | rfl | rfl | rfl <;> rfl

/-- Two tokens of which one goes on beyond the other are of one class. -/
theorem Token.Spelled.class_eq {t t' : Token} {w more : List Char} (h : t.Spelled w)
    (h' : t'.Spelled (w ++ more)) : t'.class = t.class := by
  obtain ⟨c, cs, rfl, hc⟩ := h.exists_first
  obtain ⟨d, ds, heq, hd⟩ := h'.exists_first
  obtain ⟨rfl, -⟩ := List.cons.inj heq
  rw [hc] at hd
  exact (Option.some.inj hd).symm

/-- Blanks begin no token. -/
theorem classOf?_of_isBlank {c : Char} (h : isBlank c) : classOf? c = none := by
  simp only [isBlank, Bool.or_eq_true, beq_iff_eq] at h
  rcases h with ((rfl | rfl) | rfl) | rfl <;> decide

/-- No token begins in a gap. -/
theorem skip_cons_of_classOf? {c : Char} {k : TokenClass} (h : classOf? c = some k)
    (cs : List Char) : skip (c :: cs) = c :: cs := by
  -- Blanks have no class, and neither has the slash that begins a comment.
  have hblank : ¬ isBlank c := fun hc => by
    rw [classOf?_of_isBlank hc] at h
    cases h
  have hdrop : (c :: cs).dropWhile isBlank = c :: cs := List.dropWhile_cons_of_neg hblank
  rw [skip_eq_dropWhile, hdrop]
  rw [hdrop]
  have hslash : c ≠ '/' := by
    rintro rfl
    cases h
  unfold afterComment
  split
  · next heq => exact absurd (List.cons.inj heq).1 hslash
  · next heq => exact absurd (List.cons.inj heq).1 hslash
  · rfl

/-- The class of a token can be told from the first character of the text. -/
theorem Token.At.classOf?_eq {t : Token} {c : Char} {cs rest : List Char}
    (h : t.At (c :: cs) rest) : classOf? c = some t.class := by
  obtain ⟨w, hw, heq, -⟩ := h
  obtain ⟨d, ds, rfl, hd⟩ := hw.exists_first
  rw [(List.cons.inj heq).1, hd]

/-- Where a token is, there is nothing to skip. -/
theorem Token.At.skip_eq {t : Token} {cs rest : List Char} (h : t.At cs rest) : skip cs = cs := by
  obtain ⟨w, hw, rfl, -⟩ := h
  obtain ⟨c, cs, rfl, hc⟩ := hw.exists_first
  exact skip_cons_of_classOf? hc _

/-! ### Tokens and lexemes -/

/-- In a name there are inner characters and colons. -/
theorem IsNameTail.inner_or_colon {w : List Char} (h : IsNameTail w) :
    ∀ c ∈ w, Path.isInner c ∨ c = ':' := by
  -- By induction on the tail, one character or one separator at a time.
  induction h with
  | nil => simp
  | inner hc _ ih => exact List.forall_mem_cons.mpr ⟨.inl hc, ih⟩
  | join hc _ ih =>
    refine List.forall_mem_cons.mpr ⟨.inr rfl, List.forall_mem_cons.mpr ⟨.inr rfl, ?_⟩⟩
    exact List.forall_mem_cons.mpr ⟨.inl (isInner_of_isInitial hc), ih⟩

/-- The last character of a name is not a colon. -/
theorem IsNameTail.isInner_of_getLast? {w : List Char} (h : IsNameTail w) :
    ∀ c ∈ w.getLast?, Path.isInner c := by
  induction h with
  | nil => simp
  | @inner c cs hc _ ih =>
    cases cs with
    | nil => simpa using hc
    | cons d ds => rwa [List.getLast?_cons_cons]
  -- A separator is not the last of a tail, since the beginning of an identifier follows it.
  | @join c cs hc _ ih =>
    rw [List.getLast?_cons_cons, List.getLast?_cons_cons]
    cases cs with
    | nil => simpa using isInner_of_isInitial hc
    | cons d ds => rwa [List.getLast?_cons_cons]

/-- A name ends in the last character of an identifier. -/
theorem IsName.isInner_of_append {w v : List Char} {c : Char} (h : IsName (w ++ v ++ [c])) :
    Path.isInner c := by
  obtain ⟨d, ds, heq, hd, hds⟩ := isName_iff.mp h
  -- The last character of the name is its first one or the last one of its tail.
  cases ds using List.reverseRecOn with
  | nil =>
    have hc : c = d := by
      have hlast := congrArg List.getLast? heq
      simpa using hlast
    exact hc ▸ isInner_of_isInitial hd
  | append_singleton ds e =>
    have hc : c = e := by
      have hlast := congrArg List.getLast? heq
      simpa [List.getLast?_cons] using hlast
    exact hds.isInner_of_getLast? c (by simp [hc])

/-- There is no star, so an import path is never a name. -/
theorem IsName.star_notMem {w : List Char} (h : IsName w) : '*' ∉ w := by
  obtain ⟨c, cs, rfl, hc, hcs⟩ := isName_iff.mp h
  intro hmem
  rcases List.mem_cons.mp hmem with rfl | hmem
  · exact absurd hc (by decide)
  · rcases hcs.inner_or_colon _ hmem with h | h <;> exact absurd h (by decide)

/-- No longer name goes on into the mark of an import. -/
theorem IsName.eq_nil_of_mark {p u v r : List Char} (hu : IsName (p ++ u))
    (h : u ++ v = ':' :: ':' :: '*' :: r) : u = [] := by
  -- A name that is longer by one or two characters would end in a colon, and one that is longer
  -- still would have the star in it.
  match u, h with
  | [], _ => rfl
  | [c], h =>
    obtain ⟨rfl, -⟩ := List.cons.inj h
    exact absurd (IsName.isInner_of_append (v := []) (by simpa using hu)) (by decide)
  | [c, d], h =>
    simp only [List.cons_append, List.cons.injEq] at h
    obtain ⟨rfl, rfl, -⟩ := h
    exact absurd (IsName.isInner_of_append (v := [':']) (by simpa using hu)) (by decide)
  | c :: d :: e :: u, h =>
    simp only [List.cons_append, List.cons.injEq] at h
    obtain ⟨-, -, rfl, -⟩ := h
    exact absurd hu.star_notMem (by simp)

/-- Only a token of the same class can go on beyond a token. -/
theorem Token.at_of_class {t : Token} {w rest : List Char} (hw : t.Spelled w)
    (hmax : ∀ t' more rest', rest = more ++ rest' → t'.class = t.class →
      Token.Spelled t' (w ++ more) → more = []) : t.At (w ++ rest) rest :=
  ⟨w, hw, rfl, fun t' more rest' hrest h => hmax t' more rest' hrest (hw.class_eq h) h⟩

/-- A header is met where its mark is and an identifier directly behind it. -/
theorem Token.at_header_iff {n cs rest : List Char} :
    (Token.header n).At cs rest ↔
      ∃ mid, cs = '#' :: '#' :: '#' :: mid ∧ identifier mid = some (n, rest) := by
  constructor
  · rintro ⟨_, hw, rfl, hmax⟩
    cases hw with
    | header hn =>
      refine ⟨_, rfl, munches_identifier.eq_some_iff.mpr ⟨rfl, hn, ?_⟩⟩
      intro more rest' hrest hmore
      exact hmax _ more rest' hrest (.header hmore)
  · rintro ⟨mid, rfl, h⟩
    obtain ⟨rfl, hn, hmax⟩ := munches_identifier.eq_some_iff.mp h
    -- Only another header can be longer, and its identifier would be longer too.
    refine Token.at_of_class (.header hn) fun t' more rest' hrest hclass h' => ?_
    obtain ⟨n', rfl⟩ : ∃ n', t' = .header n' := by
      cases t' <;> simp [Token.class] at hclass
      exact ⟨_, rfl⟩
    generalize hv : '#' :: '#' :: '#' :: n ++ more = v at h'
    cases h' with
    | header hn' =>
      simp only [List.cons_append, List.cons.injEq, true_and] at hv
      exact hmax more rest' hrest (hv ▸ hn')

/-- Strings and numbers are the only tokens of their class, so the longest token is the longest string or
number. -/
theorem Token.exists_string_of_class {t : Token} (h : t.class = .string) :
    ∃ raw, t = .string raw := by
  cases t <;> simp [Token.class] at h
  exact ⟨_, rfl⟩

theorem Token.exists_number_of_class {t : Token} (h : t.class = .number) :
    ∃ raw, t = .number raw := by
  cases t <;> simp [Token.class] at h
  exact ⟨_, rfl⟩

/-- A string token is spelled as the string itself. -/
theorem Token.spelled_string_iff {raw w : List Char} :
    (Token.string raw).Spelled w ↔ w = raw ∧ IsString w := by
  constructor
  · rintro ⟨⟩
    exact ⟨rfl, ‹_›⟩
  · rintro ⟨rfl, h⟩
    exact .string h

theorem Token.spelled_number_iff {raw w : List Char} :
    (Token.number raw).Spelled w ↔ w = raw ∧ IsNumber w := by
  constructor
  · rintro ⟨⟩
    exact ⟨rfl, ‹_›⟩
  · rintro ⟨rfl, h⟩
    exact .number h

/-- Where the tokens of a class are the spellings that a lexeme looks for, they stand where the lexeme
finds them. -/
theorem Token.at_iff_of_munches {token : List Char → Token} {l : Lexeme} {L : List Char → Prop}
    (hl : l.Munches L) (hspelled : ∀ {raw w}, (token raw).Spelled w ↔ w = raw ∧ L w)
    (hclass : ∀ {t raw}, t.class = (token raw).class → ∃ raw', t = token raw')
    {raw cs rest : List Char} : (token raw).At cs rest ↔ l cs = some (raw, rest) := by
  rw [hl.eq_some_iff]
  constructor
  · -- No longer token of any sort begins here, so no longer one of this sort does.
    rintro ⟨w, hw, rfl, hmax⟩
    obtain ⟨rfl, hraw⟩ := hspelled.mp hw
    refine ⟨rfl, hraw, ?_⟩
    intro more rest' hrest hmore
    exact hmax _ more rest' hrest (hspelled.mpr ⟨rfl, hmore⟩)
  · -- Conversely a longer token would be of the same class, and so of the same sort.
    rintro ⟨rfl, hraw, hmax⟩
    refine Token.at_of_class (hspelled.mpr ⟨rfl, hraw⟩) ?_
    intro t' more rest' hrest hsame hmore
    obtain ⟨raw', rfl⟩ := hclass hsame
    exact hmax more rest' hrest (hspelled.mp hmore).2

/-- A string token is met where the lexer finds a string. -/
theorem Token.at_string_iff {raw cs rest : List Char} :
    (Token.string raw).At cs rest ↔ stringLiteral cs = some (raw, rest) :=
  at_iff_of_munches munches_stringLiteral spelled_string_iff exists_string_of_class

/-- A number token is met where the lexer finds a number. -/
theorem Token.at_number_iff {raw cs rest : List Char} :
    (Token.number raw).At cs rest ↔ numberLiteral cs = some (raw, rest) :=
  at_iff_of_munches munches_numberLiteral spelled_number_iff exists_number_of_class

/-- A mark is met where its character is: no longer token begins with it. -/
theorem Token.at_mark_iff {c : Char} {cs rest : List Char} :
    (Token.mark c).At cs rest ↔ c ∈ marks ∧ cs = c :: rest := by
  constructor
  · rintro ⟨_, hw, rfl, -⟩
    cases hw with
    | mark hc => exact ⟨hc, rfl⟩
  · rintro ⟨hc, rfl⟩
    -- A longer token of the same class would be a mark, and that has one character.
    refine Token.at_of_class (w := [c]) (.mark hc) fun t' more rest' hrest hclass h => ?_
    generalize hv : [c] ++ more = v at h
    cases h <;> try cases hclass
    exact (List.cons.inj hv).2

/-- A name at the front of a text is the longest one, and is not the path of an import. -/
theorem Token.at_name_iff {n cs rest : List Char} :
    (Token.name n).At cs rest ↔
      qualifiedName cs = some (n, rest) ∧ ∀ r, rest ≠ ':' :: ':' :: '*' :: r := by
  rw [munches_qualifiedName.eq_some_iff]
  constructor
  · rintro ⟨_, hw, rfl, hmax⟩
    cases hw with
    | name hn =>
      refine ⟨⟨rfl, hn, fun more rest' hrest h => hmax _ more rest' hrest (.name h)⟩, ?_⟩
      -- The path of an import would go on beyond the name.
      rintro r rfl
      exact absurd (hmax _ [':', ':', '*'] r rfl (.importPath hn)) (by simp)
  · rintro ⟨⟨rfl, hn, hmax⟩, hmark⟩
    refine Token.at_of_class (.name hn) fun t' more rest' hrest hclass h => ?_
    generalize hv : n ++ more = v at h
    cases h with
    | name h => exact hmax more rest' hrest (hv ▸ h)
    | word h => exact hmax more rest' hrest (hv ▸ isName_of_mem_literalWords h)
    | @importPath p hp =>
      -- The path of an import that begins with the name is longer or shorter than the name. If it
      -- is longer, then the name was not the longest. If it is shorter, then the name ends in the
      -- mark.
      rcases List.append_eq_append_iff.mp hv with ⟨u, rfl, rfl⟩ | ⟨u, rfl, hu⟩
      · obtain rfl := hmax u ([':', ':', '*'] ++ rest') (by rw [hrest, List.append_assoc]) hp
        exact absurd hrest (hmark rest')
      · obtain rfl := hn.eq_nil_of_mark hu.symm
        rw [List.nil_append] at hu
        subst hu
        exact absurd hrest (hmark rest')
    | _ => cases hclass

/-- A name is a token where neither another character of a name nor a separator follows. -/
theorem IsName.at_name {w rest : List Char} (hw : IsName w)
    (hrest : ∀ c ∈ rest.head?, ¬ Path.isInner c ∧ c ≠ ':') : (Token.name w).At (w ++ rest) rest := by
  refine Token.at_name_iff.mpr ⟨munches_qualifiedName.eq_some_iff.mpr ⟨rfl, hw, ?_⟩, ?_⟩
  · rintro more rest' rfl hmore
    cases more with
    | nil => rfl
    | cons c more =>
      obtain ⟨hinner, hcolon⟩ := hrest c rfl
      -- All characters of a longer name, and so the one that follows, are inner ones or colons.
      obtain ⟨d, ds, heq, hd, hds⟩ := isName_iff.mp hmore
      have hmem : c ∈ d :: ds := heq ▸ by simp
      rcases List.mem_cons.mp hmem with rfl | hmem
      · exact absurd (isInner_of_isInitial hd) hinner
      · rcases hds.inner_or_colon c hmem with h | h
        · exact absurd h hinner
        · exact absurd h hcolon
  · rintro r rfl
    exact (hrest ':' rfl).2 rfl

/-- An import path is a qualified name with a star behind it. -/
theorem importPath_eq_some_iff {p cs rest : List Char} :
    importPath cs = some (p, rest) ↔ qualifiedName cs = some (p, ':' :: ':' :: '*' :: rest) := by
  unfold importPath
  split
  · next heq =>
    rw [heq]
    simp
  · next hne =>
    constructor
    · simp
    · intro h
      exact absurd h (hne p rest)

/-- The path of an import is the longest name in front of the mark of an import. -/
theorem Token.at_importPath_iff {p cs rest : List Char} :
    (Token.importPath p).At cs rest ↔ Grammar.importPath cs = some (p, rest) := by
  rw [importPath_eq_some_iff, munches_qualifiedName.eq_some_iff]
  constructor
  · rintro ⟨_, hw, rfl, -⟩
    cases hw with
    | importPath hp =>
      refine ⟨by simp, hp, fun more rest' hrest h => ?_⟩
      exact h.eq_nil_of_mark hrest.symm
  · rintro ⟨rfl, hp, -⟩
    have heq : p ++ ':' :: ':' :: '*' :: rest = p ++ [':', ':', '*'] ++ rest := by simp
    rw [heq]
    refine Token.at_of_class (.importPath hp) fun t' more rest' hrest hclass h => ?_
    -- The star keeps anything but another path from being longer.
    have hstar : '*' ∈ p ++ [':', ':', '*'] ++ more := by simp
    generalize hv : p ++ [':', ':', '*'] ++ more = v at h hstar
    cases h with
    | name h => exact absurd hstar h.star_notMem
    | word h => exact absurd hstar (isName_of_mem_literalWords h).star_notMem
    | @importPath p' hp' =>
      cases more using List.reverseRecOn with
      | nil => rfl
      | append_singleton more c =>
        -- The mark of the longer path would end it, so the shorter path's star lies in its name.
        have hlast : p ++ [':', ':', '*'] ++ more = p' ++ [':', ':'] := by
          have happend : (p ++ [':', ':', '*'] ++ more) ++ [c] = (p' ++ [':', ':']) ++ ['*'] := by
            simpa using hv
          exact (List.append_inj' happend rfl).1
        have hmem : '*' ∈ p' ++ [':', ':'] := hlast ▸ by simp
        simp only [List.mem_append, List.mem_cons, Char.reduceEq, List.not_mem_nil, or_false] at hmem
        exact absurd hmem hp'.star_notMem
    | _ => cases hclass

/-- A literal word is spelled like a name, so it ends where the name does. -/
theorem Token.at_word_iff {w cs rest : List Char} :
    (Token.word w).At cs rest ↔ w ∈ literalWords ∧ (Token.name w).At cs rest := by
  constructor
  · rintro ⟨_, hw, rfl, hmax⟩
    cases hw with
    | word hw => exact ⟨hw, w, .name (isName_of_mem_literalWords hw), rfl, hmax⟩
  · rintro ⟨hw, _, h, rfl, hmax⟩
    cases h with
    | name _ => exact ⟨w, .word hw, rfl, hmax⟩

/-! ### Characters of tokens -/

/-- A character of a name, of a number, or of one of the marks that belong to a header or to the path
of an import. None of them is in a gap. -/
def isSolid (c : Char) : Bool :=
  Path.isInner c || ['#', ':', '*', '-', '+', '.'].contains c

/-- Inner characters are solid. -/
theorem isSolid_of_isInner {c : Char} (h : Path.isInner c) : isSolid c := by
  rw [isSolid, h, Bool.true_or]

theorem isSolid_of_isDigit {c : Char} (h : c.isDigit) : isSolid c :=
  isSolid_of_isInner (by simp [Path.isInner, Char.isAlphanum, h])

/-- Names are made of solid characters. -/
theorem IsName.solid {w : List Char} (h : IsName w) : ∀ c ∈ w, isSolid c := by
  obtain ⟨c, cs, rfl, hc, hcs⟩ := isName_iff.mp h
  refine List.forall_mem_cons.mpr ⟨isSolid_of_isInner (isInner_of_isInitial hc), fun d hd => ?_⟩
  rcases hcs.inner_or_colon d hd with hd | rfl
  · exact isSolid_of_isInner hd
  · rfl

theorem IsDigits.solid {ds : List Char} (h : IsDigits ds) : ∀ c ∈ ds, isSolid c :=
  fun c hc => isSolid_of_isDigit (h.2 c hc)

/-- So are numbers, signs and points included. -/
theorem IsNumber.solid {w : List Char} (h : IsNumber w) : ∀ c ∈ w, isSolid c := by
  obtain ⟨p, hp, rfl⟩ := h
  simp only [NumberParts.text, List.forall_mem_append]
  -- Part by part: the sign, the digits before the point, those after it, and the exponent.
  refine ⟨?_, ?_, ?_, ?_⟩
  · cases p.negative <;> simp [isSolid]
  · rcases hp.whole with hwhole | ⟨hwhole, -⟩
    · simp [hwhole, isSolid, Path.isInner]
    · exact hwhole.solid
  · cases hf : p.fraction with
    | none => simp
    | some ds => exact List.forall_mem_cons.mpr ⟨rfl, (hp.fraction ds hf).solid⟩
  · cases he : p.exponent with
    | none => simp
    | some e =>
      obtain ⟨hmark, hsign, hds⟩ := hp.exponent e he
      simp only [Option.map_some, Option.getD_some, Exponent.text, List.cons_append,
        List.forall_mem_cons, List.forall_mem_append]
      refine ⟨?_, ?_, hds.solid⟩
      · simp only [Json.Reader.isExponentMark, Bool.or_eq_true, beq_iff_eq] at hmark
        rcases hmark with h | h <;> rw [h] <;> rfl
      · rcases hsign with h | h | h <;> simp [h, isSolid]

/-- Only strings and punctuation marks have characters that are not solid. -/
theorem Token.Spelled.solid {t : Token} {w : List Char} (h : t.Spelled w)
    (hstring : t.class ≠ .string) (hmark : t.class ≠ .mark) : ∀ c ∈ w, isSolid c := by
  cases h with
  | header hn =>
    simp only [List.forall_mem_cons]
    exact ⟨rfl, rfl, rfl, (IsName.word hn).solid⟩
  | importPath hp =>
    refine List.forall_mem_append.mpr ⟨hp.solid, ?_⟩
    simp only [List.forall_mem_cons]
    exact ⟨rfl, rfl, rfl, fun c hc => absurd hc List.not_mem_nil⟩
  | name hn => exact hn.solid
  | string _ => exact absurd rfl hstring
  | number hn => exact hn.solid
  | word hw => exact (isName_of_mem_literalWords hw).solid
  | mark _ => exact absurd rfl hmark

/-- The marks are a class of their own. -/
theorem Token.exists_mark_of_class {t : Token} (h : t.class = .mark) : ∃ c, t = .mark c := by
  cases t <;> simp [Token.class] at h
  exact ⟨_, rfl⟩

/-- What one token has beyond another is solid: strings and punctuation marks have nothing. -/
theorem Token.Spelled.solid_of_append {t t' : Token} {w more : List Char} (h : t.Spelled w)
    (h' : t'.Spelled (w ++ more)) : ∀ c ∈ more, isSolid c := by
  have hclass := h.class_eq h'
  -- Strings end at their quote and marks have one character, so only tokens of other classes can go
  -- on, and all their characters are solid.
  by_cases hstring : t.class = .string
  · obtain ⟨raw, rfl⟩ := Token.exists_string_of_class hstring
    obtain ⟨raw', rfl⟩ := Token.exists_string_of_class (hclass.trans hstring)
    cases h with
    | string hw =>
      generalize hv : _ ++ more = v at h'
      cases h' with
      | string hw' =>
        obtain rfl := hw.eq_nil_of_append (hv ▸ hw')
        simp
  · by_cases hmark : t.class = .mark
    · obtain ⟨c, rfl⟩ := Token.exists_mark_of_class hmark
      obtain ⟨c', rfl⟩ := Token.exists_mark_of_class (hclass.trans hmark)
      cases h with
      | mark _ =>
        generalize hv : [c] ++ more = v at h'
        cases h' with
        | mark _ =>
          obtain rfl : more = [] := (List.cons.inj hv).2
          simp
    · intro d hd
      rw [← hclass] at hstring hmark
      exact h'.solid hstring hmark d (List.mem_append_right _ hd)

/-- A text that does not go on with the characters of a name or a number. -/
def Breaks (rest : List Char) : Prop :=
  ∀ c ∈ rest.head?, ¬ isSolid c

theorem breaks_nil : Breaks [] := by
  simp [Breaks]

/-- A character that is not solid breaks whatever token comes before it. -/
theorem breaks_cons {c : Char} (h : ¬ isSolid c) (rest : List Char) : Breaks (c :: rest) := by
  rintro _ ⟨⟩
  exact h

/-- A token that is spelled out is the one at that place, if the text breaks after it. -/
theorem Token.Spelled.at_of_breaks {t : Token} {w rest : List Char} (h : t.Spelled w)
    (hrest : Breaks rest) : t.At (w ++ rest) rest := by
  refine ⟨w, h, rfl, fun t' more rest' heq h' => ?_⟩
  -- A longer token would take a solid character from what follows.
  obtain _ | ⟨c, more⟩ := more
  · rfl
  · refine absurd (h.solid_of_append h' c List.mem_cons_self) (hrest c ?_)
    rw [heq]
    rfl

end ModelText.Grammar
