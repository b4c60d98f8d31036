import Mathlib.Data.List.TakeDrop
import ModelText.Grammar.Token

/-!
# How tokens are spelled

The spellings of each class of tokens, said without reference to how they are found: names are
identifiers joined by separators (`IsName`), string literals are runs of plain characters and
escapes between quotes (`IsStringBody`), and number literals are put together from their parts
(`NumberParts`).

A lexeme finds the longest spelling of its class at the front of a text (`Lexeme.Munches`): whatever
it finds is one, and if a text begins with one, then the lexeme finds that one or an extension of it.
-/

namespace ModelText.Grammar

/-- **Longest match.** The lexeme finds members of the class `L`, and where a text begins with a
member it finds that member or one that goes on from there. -/
structure Lexeme.Munches (l : Lexeme) (L : List Char → Prop) : Prop where
  sound : ∀ {cs w rest}, l cs = some (w, rest) → cs = w ++ rest ∧ L w
  longest : ∀ {w}, L w → ∀ rest, ∃ more rest', l (w ++ rest) = some (w ++ more, rest') ∧
    rest = more ++ rest'

/-- What a lexeme finds is the member of its class that no member extends. -/
theorem Lexeme.Munches.eq_some_iff {l : Lexeme} {L : List Char → Prop} (h : l.Munches L)
    {cs w rest : List Char} :
    l cs = some (w, rest) ↔
      cs = w ++ rest ∧ L w ∧ ∀ more rest', rest = more ++ rest' → L (w ++ more) → more = [] := by
  constructor
  · intro hl
    obtain ⟨rfl, hw⟩ := h.sound hl
    refine ⟨rfl, hw, ?_⟩
    rintro more rest' rfl hmore
    -- The lexeme finds the longer spelling or one beyond it, and it has found `w`.
    obtain ⟨more', rest'', hl', -⟩ := h.longest hmore rest'
    rw [List.append_assoc] at hl'
    have heq : (more = [] ∧ more' = []) ∧ more ++ rest' = rest'' := by
      simpa [hl] using hl'
    exact heq.1.1
  · rintro ⟨rfl, hw, hmax⟩
    -- What is found beyond `w` is a spelling, and there is none longer than `w`.
    obtain ⟨more, rest', hl, hrest⟩ := h.longest hw rest
    obtain ⟨-, hmore⟩ := h.sound hl
    obtain rfl := hmax more rest' hrest hmore
    rw [List.nil_append] at hrest
    rw [hl, List.append_nil, hrest]

/-! ### Fixed texts -/

/-- What is left after a fixed text is what stands behind it, and there is nothing to find where the text
begins otherwise. -/
theorem afterExactly_eq_some_iff {w cs rest : List Char} :
    afterExactly w cs = some rest ↔ cs = w ++ rest := by
  induction w generalizing cs with
  | nil => simp [afterExactly]
  | cons d ws ih =>
    cases cs with
    | nil => simp [afterExactly]
    | cons c cs =>
      simp only [afterExactly, List.cons_append, List.cons.injEq]
      split
      · next h => rw [ih]; simp [h]
      · next h => simp [h]

/-- A fixed text is found exactly where it stands at the front. -/
theorem exactly_eq_some_iff {text cs w rest : List Char} :
    exactly text cs = some (w, rest) ↔ w = text ∧ cs = text ++ rest := by
  unfold exactly
  rw [Option.map_eq_some_iff]
  constructor
  · rintro ⟨a, ha, e⟩
    cases e
    exact ⟨rfl, afterExactly_eq_some_iff.mp ha⟩
  · rintro ⟨rfl, h⟩
    exact ⟨rest, afterExactly_eq_some_iff.mpr h, rfl⟩

/-! ### Names -/

/-- Identifiers joined by separators. -/
inductive IsName : List Char → Prop
  | word {w : List Char} : Path.isWord w → IsName w
  | join {w rest : List Char} : Path.isWord w → IsName rest → IsName (w ++ ':' :: ':' :: rest)

/-- What can follow the first character of a name, character by character. -/
inductive IsNameTail : List Char → Prop
  | nil : IsNameTail []
  | inner {c : Char} {cs : List Char} : Path.isInner c → IsNameTail cs → IsNameTail (c :: cs)
  | join {c : Char} {cs : List Char} : Path.isInitial c → IsNameTail cs →
      IsNameTail (':' :: ':' :: c :: cs)

/-- What can begin a word can also go on with it. -/
theorem isInner_of_isInitial {c : Char} (h : Path.isInitial c) : Path.isInner c := by
  simp only [Path.isInitial, Path.isInner, Bool.or_eq_true, Char.isAlphanum] at h ⊢
  rcases h with h | h
  · exact .inl (.inl h)
  · exact .inr h

/-- Words and separators have no character in common, so a word ends where a separator begins. -/
theorem ne_colon_of_isInner {c : Char} (h : Path.isInner c) : c ≠ ':' := by
  rintro rfl
  exact absurd h (by decide)

/-- The tail of a name may begin with the rest of a word. -/
theorem IsNameTail.append_inner {ws cs : List Char} (hw : ws.all Path.isInner)
    (h : IsNameTail cs) : IsNameTail (ws ++ cs) := by
  induction ws with
  | nil => exact h
  | cons c ws ih =>
    simp only [List.all_cons, Bool.and_eq_true] at hw
    exact .inner hw.1 (ih hw.2)

/-- The two readings of a name agree: identifiers joined by separators, and one character that can
begin a name with a tail after it. -/
theorem isName_iff {w : List Char} :
    IsName w ↔ ∃ c cs, w = c :: cs ∧ Path.isInitial c ∧ IsNameTail cs := by
  constructor
  · intro h
    -- A word after a separator adds its separator and its characters to the tail of the name.
    induction h with
    | @word w hw =>
      obtain _ | ⟨c, cs⟩ := w
      · simp at hw
      · simp only [Path.isWord_cons, Bool.and_eq_true] at hw
        refine ⟨c, cs, rfl, hw.1, ?_⟩
        simpa using IsNameTail.append_inner hw.2 .nil
    | @join w rest hw _ ih =>
      obtain ⟨d, ds, rfl, hd, hds⟩ := ih
      obtain _ | ⟨c, cs⟩ := w
      · simp at hw
      · simp only [Path.isWord_cons, Bool.and_eq_true] at hw
        exact ⟨c, _, rfl, hw.1, .append_inner hw.2 (.join hd hds)⟩
  · rintro ⟨c, cs, rfl, hc, h⟩
    -- The tail is split at its first separator, so the word before it grows along the induction.
    suffices ∀ {w}, Path.isWord w → IsName (w ++ cs) by
      exact this (w := [c]) (by simp [hc])
    intro w hw
    induction h generalizing w with
    | nil => simpa using IsName.word hw
    | @inner d cs hd _ ih =>
      have grown : Path.isWord (w ++ [d]) := by
        obtain _ | ⟨c, cs⟩ := w
        · simp at hw
        · simp_all
      simpa using ih grown
    | @join d cs hd _ ih =>
      exact .join hw (by simpa using ih (w := [d]) (by simp [hd]))

/-- The reader takes a character of a word, whatever follows it. -/
theorem nameTail_inner {c : Char} (cs : List Char) (h : Path.isInner c) :
    nameTail (c :: cs) = (c :: (nameTail cs).1, (nameTail cs).2) := by
  rw [nameTail, if_pos h]
  intro d rest hc _
  exact ne_colon_of_isInner h hc

/-- The reader takes a separator together with the first character of the word behind it. Without such a
character it would leave the separator. -/
theorem nameTail_join {c : Char} (cs : List Char) (h : Path.isInitial c) :
    nameTail (':' :: ':' :: c :: cs) =
      (':' :: ':' :: c :: (nameTail cs).1, (nameTail cs).2) := by
  rw [nameTail, if_pos h]

/-- What the reader of tails takes is a tail, and nothing is lost. -/
theorem nameTail_sound (cs : List Char) :
    cs = (nameTail cs).1 ++ (nameTail cs).2 ∧ IsNameTail (nameTail cs).1 := by
  fun_induction nameTail cs with
  | case1 => exact ⟨rfl, .nil⟩
  | case2 c rest hc more rest' heq ih =>
    rw [heq] at ih
    exact ⟨by simpa using ih.1, .join hc ih.2⟩
  | case3 => exact ⟨rfl, .nil⟩
  | case4 c rest _ hc more rest' heq ih =>
    rw [heq] at ih
    exact ⟨by simpa using ih.1, .inner hc ih.2⟩
  | case5 => exact ⟨rfl, .nil⟩

/-- The reader does not stop inside a tail: it takes all of it, and more where the text goes on like one.
-/
theorem nameTail_longest {w : List Char} (h : IsNameTail w) (rest : List Char) :
    ∃ more rest', nameTail (w ++ rest) = (w ++ more, rest') ∧ rest = more ++ rest' := by
  -- By induction on the tail: the reader takes each of its steps, and then goes on where it ends.
  induction h with
  | nil => exact ⟨_, _, rfl, (nameTail_sound rest).1⟩
  | @inner c cs hc _ ih =>
    obtain ⟨more, rest', heq, hrest⟩ := ih
    exact ⟨more, rest', by rw [List.cons_append, nameTail_inner _ hc, heq]; rfl, hrest⟩
  | @join c cs hc _ ih =>
    obtain ⟨more, rest', heq, hrest⟩ := ih
    refine ⟨more, rest', ?_, hrest⟩
    simp only [List.cons_append]
    rw [nameTail_join _ hc, heq]

/-- Words end where their characters end, so the longest match is found by running over them. -/
theorem munches_identifier : Lexeme.Munches identifier (Path.isWord · = true) where
  sound {cs w rest} h := by
    unfold identifier at h
    split at h
    · simp at h
    · split at h
      · next c cs hc =>
        cases h
        refine ⟨by simp, ?_⟩
        simp [hc, List.all_takeWhile]
      · simp at h
  -- A longer run of inner characters begins with any shorter one.
  longest {w} hw rest := by
    obtain _ | ⟨c, cs⟩ := w
    · simp at hw
    · simp only [Path.isWord_cons, Bool.and_eq_true, List.all_eq_true] at hw
      refine ⟨rest.takeWhile Path.isInner, rest.dropWhile Path.isInner, ?_, by simp⟩
      simp only [identifier, List.cons_append, if_pos hw.1, List.takeWhile_append_of_pos hw.2,
        List.dropWhile_append_of_pos hw.2]

/-- Names go on over separators. A separator that no word follows is left where it is. -/
theorem munches_qualifiedName : Lexeme.Munches qualifiedName IsName where
  sound {cs w rest} h := by
    unfold qualifiedName at h
    split at h
    · simp at h
    · split at h
      · next c cs hc =>
        cases h
        obtain ⟨happend, htail⟩ := nameTail_sound cs
        exact ⟨by rw [List.cons_append, ← happend], isName_iff.mpr ⟨c, _, rfl, hc, htail⟩⟩
      · simp at h
  -- The first character is the same for all spellings, the tail decides.
  longest {w} hw rest := by
    obtain ⟨c, cs, rfl, hc, htail⟩ := isName_iff.mp hw
    obtain ⟨more, rest', heq, hrest⟩ := nameTail_longest htail rest
    refine ⟨more, rest', ?_, hrest⟩
    rw [List.cons_append, qualifiedName, if_pos hc, heq]
    rfl

/-! ### String literals -/

/-- What stands between the quotes of a string literal: plain characters, escapes of one letter and
escapes by number. -/
inductive IsStringBody : List Char → Prop
  | nil : IsStringBody []
  | plain {c : Char} {cs : List Char} : c ≠ '"' → c ≠ '\\' → IsStringBody cs →
      IsStringBody (c :: cs)
  | letter {e : Char} {cs : List Char} : (Json.Reader.shortEscape? e).isSome → IsStringBody cs →
      IsStringBody ('\\' :: e :: cs)
  | number {a b c d : Char} {cs : List Char} : (Json.Reader.hexValues? a b c d).isSome →
      IsStringBody cs → IsStringBody ('\\' :: 'u' :: a :: b :: c :: d :: cs)

/-- A string literal, quotes included. -/
def IsString (w : List Char) : Prop :=
  ∃ body, IsStringBody body ∧ w = '"' :: body ++ ['"']

/-- Where the reader of strings comes to an end, it has taken a body and the quote that closes it. -/
theorem stringTail_sound {cs w rest : List Char} (h : stringTail cs = some (w, rest)) :
    cs = w ++ rest ∧ ∃ body, IsStringBody body ∧ w = body ++ ['"'] := by
  fun_induction stringTail cs generalizing w rest with
  | case1 => simp at h
  | case2 rest =>
    cases h
    exact ⟨rfl, [], .nil, rfl⟩
  -- An escape by number, an escape of one letter, and a plain character each add what they stand
  -- for to the body of the rest.
  | case3 a b c d rest hhex ih =>
    obtain ⟨⟨more, rest'⟩, hmore, e⟩ := Option.map_eq_some_iff.mp h
    cases e
    obtain ⟨rfl, body, hbody, rfl⟩ := ih hmore
    exact ⟨rfl, _, .number hhex hbody, rfl⟩
  | case4 => simp at h
  | case5 c rest _ hshort ih =>
    obtain ⟨⟨more, rest'⟩, hmore, e⟩ := Option.map_eq_some_iff.mp h
    cases e
    obtain ⟨rfl, body, hbody, rfl⟩ := ih hmore
    exact ⟨rfl, _, .letter hshort hbody, rfl⟩
  | case6 => simp at h
  | case7 => simp at h
  | case8 c rest hquote _ hescape hend ih =>
    obtain ⟨⟨more, rest'⟩, hmore, e⟩ := Option.map_eq_some_iff.mp h
    cases e
    obtain ⟨rfl, body, hbody, rfl⟩ := ih hmore
    -- A backslash does not get here: something follows it, if only the closing quote.
    refine ⟨rfl, _, .plain (fun hc => hquote hc) ?_ hbody, rfl⟩
    rintro rfl
    cases body with
    | nil => exact hescape '"' rest rfl rfl
    | cons d ds => exact hescape d (ds ++ ['"'] ++ rest) rfl rfl

/-- The reader of strings runs over a body to the quote behind it and looks no further. -/
theorem stringTail_append {body : List Char} (h : IsStringBody body) (rest : List Char) :
    stringTail (body ++ '"' :: rest) = some (body ++ ['"'], rest) := by
  induction h with
  | nil => rfl
  | @plain c cs hquote hescape _ ih =>
    rw [List.cons_append, stringTail]
    · rw [ih]
      rfl
    all_goals simp_all
  | @letter e cs he _ ih =>
    -- The letter of an escape by number stands for no character by itself.
    have hu : e ≠ 'u' := by
      rintro rfl
      simp [Json.Reader.shortEscape?] at he
    rw [List.cons_append, List.cons_append, stringTail]
    · rw [if_pos he, ih]
      rfl
    · simp_all
  | @number a b c d cs hhex _ ih =>
    simp only [List.cons_append]
    rw [stringTail, if_pos hhex, ih]
    rfl

/-- A string literal is found whatever follows it. -/
theorem stringLiteral_append {w : List Char} (h : IsString w) (rest : List Char) :
    stringLiteral (w ++ rest) = some (w, rest) := by
  obtain ⟨body, hbody, rfl⟩ := h
  simp only [List.cons_append, List.append_assoc, List.nil_append, stringLiteral]
  rw [stringTail_append hbody]
  rfl

/-- No string literal goes on beyond another. -/
theorem IsString.eq_nil_of_append {w more : List Char} (h : IsString w)
    (h' : IsString (w ++ more)) : more = [] := by
  have hlonger := stringLiteral_append h' []
  rw [List.append_nil, stringLiteral_append h more] at hlonger
  exact (Prod.mk.inj (Option.some.inj hlonger)).2

/-- Strings end at their closing quote, so the longest match is the only one. -/
theorem munches_stringLiteral : Lexeme.Munches stringLiteral IsString where
  sound {cs w rest} h := by
    unfold stringLiteral at h
    split at h
    · obtain ⟨⟨more, rest'⟩, hmore, e⟩ := Option.map_eq_some_iff.mp h
      cases e
      obtain ⟨rfl, body, hbody, rfl⟩ := stringTail_sound hmore
      exact ⟨rfl, body, hbody, rfl⟩
    · simp at h
  longest {w} hw rest :=
    ⟨[], rest, by rw [stringLiteral_append hw, List.append_nil], rfl⟩

/-! ### Number literals -/

/-- One lexeme right after another. -/
def Lexeme.andThen (l k : Lexeme) : Lexeme := fun cs =>
  (l cs).bind fun (w, rest) => (k rest).map fun (u, rest) => (w ++ u, rest)

/-- One spelling right after another. -/
def Sequence (L K : List Char → Prop) (w : List Char) : Prop :=
  ∃ u v, L u ∧ K v ∧ w = u ++ v

/-- Longest matches in sequence are the longest match of the sequence, if what a first spelling can
be extended by never begins like a second one. -/
theorem Lexeme.Munches.andThen {l k : Lexeme} {L K : List Char → Prop} (hl : l.Munches L)
    (hk : k.Munches K)
    (hcut : ∀ {u c more}, L u → L (u ++ c :: more) → ∀ {v}, ¬ K (c :: v)) :
    (l.andThen k).Munches (Sequence L K) where
  sound {cs w rest} h := by
    obtain ⟨⟨u, mid⟩, hu, h⟩ := Option.bind_eq_some_iff.mp h
    obtain ⟨⟨v, rest'⟩, hv, e⟩ := Option.map_eq_some_iff.mp h
    cases e
    obtain ⟨rfl, hLu⟩ := hl.sound hu
    obtain ⟨rfl, hKv⟩ := hk.sound hv
    exact ⟨by simp, u, v, hLu, hKv, rfl⟩
  longest {w} hw rest := by
    obtain ⟨u, v, hu, hv, rfl⟩ := hw
    obtain ⟨more, mid, hlu, hmid⟩ := hl.longest hu (v ++ rest)
    cases more with
    | nil =>
      -- The first spelling stands as it is, and the second one may go on.
      rw [List.nil_append] at hmid
      obtain ⟨more, rest', hkv, hrest⟩ := hk.longest hv rest
      refine ⟨more, rest', ?_, hrest⟩
      rw [List.append_assoc, Lexeme.andThen, hlu, Option.bind_some, ← hmid]
      simp [hkv]
    | cons c more =>
      cases v with
      | cons d v =>
        -- The first spelling would go on into the second one.
        rw [List.cons_append, List.cons_append, List.cons.injEq] at hmid
        obtain ⟨rfl, -⟩ := hmid
        exact absurd hv (hcut hu (hl.sound hlu).2)
      | nil =>
        -- The second spelling is empty, so both together go on where the first one does.
        obtain ⟨more', rest', hkv, hrest⟩ := hk.longest hv mid
        rw [List.nil_append] at hmid hkv
        refine ⟨c :: more ++ more', rest', ?_, by rw [hmid, hrest, List.append_assoc]⟩
        rw [List.append_nil, Lexeme.andThen]
        rw [List.nil_append] at hlu
        rw [hlu, Option.bind_some]
        simp [hkv]

/-- A nonempty run of digits. -/
def IsDigits (ds : List Char) : Prop :=
  ds ≠ [] ∧ ∀ d ∈ ds, d.isDigit

/-- A run of digits goes on with the digits that follow it. -/
theorem IsDigits.span_append {ds : List Char} (h : IsDigits ds) (rest : List Char) :
    (ds ++ rest).span Char.isDigit =
      (ds ++ rest.takeWhile Char.isDigit, rest.dropWhile Char.isDigit) := by
  rw [List.span_eq_takeWhile_dropWhile, List.takeWhile_append_of_pos h.2,
    List.dropWhile_append_of_pos h.2]

/-- The exponent of a number literal: its mark, its sign if it has one, and its digits. -/
structure Exponent where
  mark : Char
  sign : List Char
  digits : List Char

/-- The parts of a number literal: whether it has a minus sign, the digits before the point, those
after it if there is one, and the exponent if there is one. -/
structure NumberParts where
  negative : Bool
  whole : List Char
  fraction : Option (List Char)
  exponent : Option Exponent

/-- Zero alone, or digits that do not begin with zero. -/
def IsWhole (ds : List Char) : Prop :=
  ds = ['0'] ∨ IsDigits ds ∧ ds.head? ≠ some '0'

/-- An exponent that is spelled as one. -/
structure Exponent.Valid (e : Exponent) : Prop where
  mark : Json.Reader.isExponentMark e.mark
  sign : e.sign = [] ∨ e.sign = ['+'] ∨ e.sign = ['-']
  digits : IsDigits e.digits

/-- Parts of which each is spelled as it has to be. -/
structure NumberParts.Valid (p : NumberParts) : Prop where
  whole : IsWhole p.whole
  fraction : ∀ ds ∈ p.fraction, IsDigits ds
  exponent : ∀ e ∈ p.exponent, e.Valid

/-- The characters of an exponent. -/
def Exponent.text (e : Exponent) : List Char :=
  e.mark :: e.sign ++ e.digits

/-- The characters of a literal with the given parts. -/
def NumberParts.text (p : NumberParts) : List Char :=
  (if p.negative then ['-'] else []) ++
    (p.whole ++ ((p.fraction.map ('.' :: ·)).getD [] ++ (p.exponent.map Exponent.text).getD []))

/-- A number literal. -/
def IsNumber (w : List Char) : Prop :=
  ∃ p : NumberParts, p.Valid ∧ p.text = w

/-- No sign, or a minus sign. -/
def IsMinus (w : List Char) : Prop :=
  w = [] ∨ w = ['-']

/-- Nothing, or a point with digits after it. -/
def IsFraction (w : List Char) : Prop :=
  w = [] ∨ ∃ ds, IsDigits ds ∧ w = '.' :: ds

/-- Nothing, or an exponent. -/
def IsExponent (w : List Char) : Prop :=
  w = [] ∨ ∃ e : Exponent, e.Valid ∧ w = e.text

/-- A spelling of the sign says whether there is one. -/
theorem IsMinus.exists_sign {w : List Char} (h : IsMinus w) :
    ∃ negative : Bool, (if negative then ['-'] else []) = w := by
  rcases h with rfl | rfl
  · exact ⟨false, rfl⟩
  · exact ⟨true, rfl⟩

/-- A spelling of the fraction says which digits it has, if there is one. -/
theorem IsFraction.exists_digits {w : List Char} (h : IsFraction w) :
    ∃ f : Option (List Char), (∀ ds ∈ f, IsDigits ds) ∧ (f.map ('.' :: ·)).getD [] = w := by
  rcases h with rfl | ⟨ds, hds, rfl⟩
  · exact ⟨none, by simp, rfl⟩
  · exact ⟨some ds, by simpa using hds, rfl⟩

/-- A spelling of the exponent says of which parts it consists, if there is one. -/
theorem IsExponent.exists_parts {w : List Char} (h : IsExponent w) :
    ∃ e : Option Exponent, (∀ x ∈ e, x.Valid) ∧ (e.map Exponent.text).getD [] = w := by
  rcases h with rfl | ⟨e, he, rfl⟩
  · exact ⟨none, by simp, rfl⟩
  · exact ⟨some e, by simpa using he, rfl⟩

/-- A number literal is a sign, an integer part, a fraction and an exponent in sequence, and all but the
second can be empty. In this form the longest matches of the parts can be put together. -/
theorem isNumber_iff {w : List Char} :
    IsNumber w ↔ Sequence IsMinus (Sequence IsWhole (Sequence IsFraction IsExponent)) w := by
  constructor
  · rintro ⟨p, hp, rfl⟩
    -- The parts in order are the four spellings in sequence.
    refine ⟨_, _, ?_, ⟨_, _, hp.whole, ⟨_, _, ?_, ?_, rfl⟩, rfl⟩, rfl⟩
    · cases p.negative <;> simp [IsMinus]
    · cases h : p.fraction with
      | none => exact .inl rfl
      | some ds => exact .inr ⟨ds, hp.fraction ds h, rfl⟩
    · cases h : p.exponent with
      | none => exact .inl rfl
      | some e => exact .inr ⟨e, hp.exponent e h, rfl⟩
  · rintro ⟨_, _, hminus, ⟨whole, _, hwhole, ⟨_, _, hfraction, hexponent, rfl⟩, rfl⟩, rfl⟩
    -- Each spelling comes from a part, which may be missing.
    obtain ⟨negative, hn⟩ := hminus.exists_sign
    obtain ⟨fraction, hf, hft⟩ := hfraction.exists_digits
    obtain ⟨exponent, he, het⟩ := hexponent.exists_parts
    refine ⟨⟨negative, whole, fraction, exponent⟩, ⟨hwhole, hf, he⟩, ?_⟩
    rw [NumberParts.text, hn, hft, het]

/-- A part that may be missing, as a lexeme that always succeeds. -/
def Lexeme.total (part : List Char → List Char × List Char) : Lexeme :=
  fun cs => some (part cs)

/-- A sign is one character, so it is never extended. -/
theorem munches_minusPart : (Lexeme.total minusPart).Munches IsMinus where
  sound {cs w rest} h := by
    simp only [Lexeme.total, minusPart, Option.some.injEq] at h
    split at h <;> cases h
    · exact ⟨rfl, .inr rfl⟩
    · exact ⟨rfl, .inl rfl⟩
  longest {w} hw rest := by
    rcases hw with rfl | rfl
    · simp only [Lexeme.total, minusPart, List.nil_append]
      split
      · exact ⟨_, _, rfl, rfl⟩
      · exact ⟨_, _, rfl, rfl⟩
    · exact ⟨[], rest, rfl, rfl⟩

/-- An integer part that begins with zero ends there. Any other goes on over all digits. -/
theorem munches_wholePart : Lexeme.Munches wholePart IsWhole where
  sound {cs w rest} h := by
    unfold wholePart at h
    split at h
    · cases h
      exact ⟨rfl, .inl rfl⟩
    · next c rest hzero =>
      split at h
      · next hc =>
        -- All digits from the first one on, which is not zero.
        rw [List.span_eq_takeWhile_dropWhile] at h
        cases h
        refine ⟨by simp, .inr ⟨⟨by simp [hc], ?_⟩, ?_⟩⟩
        · exact List.all_eq_true.mp List.all_takeWhile
        · rw [List.takeWhile_cons_of_pos hc, List.head?_cons, ne_eq, Option.some.injEq]
          exact hzero
      · simp at h
    · simp at h
  longest {w} hw rest := by
    rcases hw with rfl | ⟨hw, hzero⟩
    · exact ⟨[], rest, rfl, rfl⟩
    · -- Digits that do not begin with zero go on with all digits that follow.
      refine ⟨rest.takeWhile Char.isDigit, rest.dropWhile Char.isDigit, ?_, by simp⟩
      obtain _ | ⟨c, cs⟩ := w
      · exact absurd rfl hw.1
      · rw [List.cons_append, wholePart, if_pos (hw.2 c List.mem_cons_self)]
        · rw [← List.cons_append, hw.span_append]
        · simpa using hzero

/-- A point is taken only together with a digit behind it. -/
theorem munches_fractionPart : (Lexeme.total fractionPart).Munches IsFraction where
  sound {cs w rest} h := by
    simp only [Lexeme.total, fractionPart, Option.some.injEq] at h
    split at h
    · next c rest =>
      split at h
      · next hc =>
        rw [List.span_eq_takeWhile_dropWhile] at h
        cases h
        refine ⟨by simp, .inr ⟨_, ⟨by simp [hc], ?_⟩, rfl⟩⟩
        exact List.all_eq_true.mp List.all_takeWhile
      · cases h
        exact ⟨rfl, .inl rfl⟩
    · cases h
      exact ⟨rfl, .inl rfl⟩
  -- If there is no fraction, then what is found is one more. If there is one, it goes on with all
  -- digits that follow.
  longest {w} hw rest := by
    rcases hw with rfl | ⟨ds, hds, rfl⟩
    · simp only [Lexeme.total, fractionPart, List.nil_append]
      split
      · split
        · exact ⟨_, _, rfl, by simp⟩
        · exact ⟨_, _, rfl, rfl⟩
      · exact ⟨_, _, rfl, rfl⟩
    · refine ⟨rest.takeWhile Char.isDigit, rest.dropWhile Char.isDigit, ?_, by simp⟩
      obtain _ | ⟨c, cs⟩ := ds
      · exact absurd rfl hds.1
      · have hc := hds.2 c List.mem_cons_self
        simp only [Lexeme.total, List.cons_append, fractionPart, if_pos hc]
        rw [← List.cons_append, hds.span_append]
        rfl

/-- A sign is found in front of digits, also if it is missing. -/
theorem signPart_append {sign ds : List Char} (h : sign = [] ∨ sign = ['+'] ∨ sign = ['-'])
    (hds : IsDigits ds) (rest : List Char) :
    signPart (sign ++ (ds ++ rest)) = (sign, ds ++ rest) := by
  rcases h with rfl | rfl | rfl
  · -- Without a sign the first character is a digit, so it is not taken for a sign.
    obtain _ | ⟨c, cs⟩ := ds
    · exact absurd rfl hds.1
    · have hc := hds.2 c List.mem_cons_self
      rw [List.nil_append, List.cons_append, signPart]
      all_goals
        rintro rest h
        rw [(List.cons.inj h).1] at hc
        exact absurd hc (by decide)
  · rfl
  · rfl

/-- What is taken for a sign is one of the three spellings. -/
theorem signPart_sound (cs : List Char) :
    cs = (signPart cs).1 ++ (signPart cs).2 ∧
      ((signPart cs).1 = [] ∨ (signPart cs).1 = ['+'] ∨ (signPart cs).1 = ['-']) := by
  unfold signPart
  split <;> simp

/-- An exponent is found, and it goes on over the digits that follow it. -/
theorem exponentPart_append {e : Exponent} (he : e.Valid) (rest : List Char) :
    exponentPart (e.text ++ rest) =
      (e.text ++ rest.takeWhile Char.isDigit, rest.dropWhile Char.isDigit) := by
  simp only [Exponent.text, List.cons_append, List.append_assoc, exponentPart, if_pos he.mark,
    signPart_append he.sign he.digits, he.digits.span_append]
  -- There are digits, so the mark and the sign are not given back.
  split
  · next heq => simp [he.digits.1] at heq
  · next heq =>
    cases heq
    simp

/-- What is taken for an exponent is one. A mark without digits behind it is left in the text. -/
theorem exponentPart_sound (cs : List Char) :
    cs = (exponentPart cs).1 ++ (exponentPart cs).2 ∧ IsExponent (exponentPart cs).1 := by
  unfold exponentPart
  split
  · next c rest =>
    split
    · next hc =>
      -- Without digits after the mark there is no exponent at all.
      obtain ⟨hsign, hsigns⟩ := signPart_sound rest
      simp only [List.span_eq_takeWhile_dropWhile]
      split
      · exact ⟨rfl, .inl rfl⟩
      · next ds rest' hnil heq =>
        obtain ⟨rfl, rfl⟩ := Prod.mk.inj heq
        refine ⟨?_, .inr ⟨⟨c, _, _⟩, ⟨hc, hsigns, ⟨?_, ?_⟩⟩, rfl⟩⟩
        · rw [List.append_assoc, List.takeWhile_append_dropWhile, List.cons_append, ← hsign]
        · exact hnil
        · exact List.all_eq_true.mp List.all_takeWhile
    · exact ⟨rfl, .inl rfl⟩
  · exact ⟨rfl, .inl rfl⟩

/-- An exponent is taken as a whole or not at all, and it goes on over all digits. -/
theorem munches_exponentPart : (Lexeme.total exponentPart).Munches IsExponent where
  sound {cs w rest} h := by
    obtain ⟨hcs, hw⟩ := exponentPart_sound cs
    simp only [Lexeme.total, Option.some.injEq] at h
    rw [h] at hcs hw
    exact ⟨hcs, hw⟩
  longest {w} hw rest := by
    rcases hw with rfl | ⟨e, he, rfl⟩
    · exact ⟨_, _, rfl, (exponentPart_sound rest).1⟩
    · refine ⟨rest.takeWhile Char.isDigit, rest.dropWhile Char.isDigit, ?_, by simp⟩
      rw [Lexeme.total, exponentPart_append he]

/-- The lexeme for numbers reads the four parts one after another, and only the integer part can be
missing from the text. -/
theorem numberLiteral_eq :
    numberLiteral = (Lexeme.total minusPart).andThen (Lexeme.andThen wholePart
      ((Lexeme.total fractionPart).andThen (Lexeme.total exponentPart))) := by
  funext cs
  simp only [numberLiteral, Lexeme.andThen, Lexeme.total, Option.bind_some]
  cases h : wholePart (minusPart cs).2 with
  | none => rfl
  | some found => simp

/-- The digit that extends a run of digits begins no fraction and no exponent. -/
theorem isDigit_of_isWhole_append {u more : List Char} {c : Char} (hu : IsWhole u)
    (h : IsWhole (u ++ c :: more)) : c.isDigit := by
  rcases h with h | ⟨h, -⟩
  · -- Zero alone has only one character.
    rcases hu with rfl | ⟨hu, -⟩
    · simp at h
    · obtain _ | ⟨d, ds⟩ := u
      · exact absurd rfl hu.1
      · simp at h
  · exact h.2 c (by simp)

/-- An exponent begins with its mark, which is no digit. -/
theorem not_isExponent_of_isDigit {c : Char} (hc : c.isDigit) (v : List Char) :
    ¬ IsExponent (c :: v) := by
  rintro (h | ⟨e, he, h⟩)
  · simp at h
  · simp only [Exponent.text, List.cons_append, List.cons.injEq] at h
    obtain ⟨rfl, -⟩ := h
    have := he.mark
    simp only [Json.Reader.isExponentMark, Bool.or_eq_true, beq_iff_eq] at this
    rcases this with h | h <;> rw [h] at hc <;> exact absurd hc (by decide)

/-- A sign that could be longer is missing, and what it is missing is the minus sign. -/
theorem eq_minus_of_isMinus_append {u more : List Char} {c : Char} (hu : IsMinus u)
    (h : IsMinus (u ++ c :: more)) : c = '-' := by
  rcases h with h | h
  · simp at h
  · rcases hu with rfl | rfl
    · exact (List.cons.inj h).1
    · simp at h

/-- An integer part has no sign of its own. -/
theorem not_isWhole_minus (v : List Char) : ¬ IsWhole ('-' :: v) := by
  rintro (h | ⟨h, -⟩)
  · simp at h
  · exact absurd (h.2 _ List.mem_cons_self) (by decide)

/-- What a fraction can be extended by is a point or another digit. -/
theorem fraction_cut {u more : List Char} {c : Char} (hu : IsFraction u)
    (h : IsFraction (u ++ c :: more)) (v : List Char) : ¬ IsExponent (c :: v) := by
  rcases h with h | ⟨ds, hds, h⟩
  · simp at h
  · rcases hu with rfl | ⟨ds', -, rfl⟩
    · -- The point that begins the fraction is no exponent mark.
      obtain ⟨rfl, -⟩ := List.cons.inj h
      rintro (h | ⟨e, he, h⟩)
      · simp at h
      · obtain ⟨h, -⟩ := List.cons.inj h
        exact absurd (h ▸ he.mark) (by decide)
    · obtain ⟨-, rfl⟩ := List.cons.inj h
      exact not_isExponent_of_isDigit (hds.2 c (by simp)) v

/-- What an integer part can be extended by is a digit, and neither a fraction nor an exponent begins with
one. -/
theorem whole_cut {u more : List Char} {c : Char} (hu : IsWhole u)
    (h : IsWhole (u ++ c :: more)) (v : List Char) :
    ¬ Sequence IsFraction IsExponent (c :: v) := by
  have hc := isDigit_of_isWhole_append hu h
  rintro ⟨f, e, rfl | ⟨ds, -, rfl⟩, he, h⟩
  · exact not_isExponent_of_isDigit hc v (h ▸ he)
  · obtain ⟨rfl, -⟩ := List.cons.inj h
    exact absurd hc (by decide)

/-- What a missing sign can be extended by is the minus sign, with which nothing behind it begins. -/
theorem minus_cut {u more : List Char} {c : Char} (hu : IsMinus u)
    (h : IsMinus (u ++ c :: more)) (v : List Char) :
    ¬ Sequence IsWhole (Sequence IsFraction IsExponent) (c :: v) := by
  -- No integer part begins with a minus sign.
  obtain rfl := eq_minus_of_isMinus_append hu h
  rintro ⟨w, r, hw, -, h⟩
  obtain _ | ⟨d, ds⟩ := w
  · rcases hw with hw | ⟨hw, -⟩
    · simp at hw
    · exact absurd rfl hw.1
  · obtain ⟨rfl, -⟩ := List.cons.inj h
    exact not_isWhole_minus ds hw

/-- **Numbers.** The longest match of each part gives the longest number literal. This needs that the
parts cannot be confused: what one of them can be extended by never begins the next one. -/
theorem munches_numberLiteral : Lexeme.Munches numberLiteral IsNumber := by
  have hlanguage : IsNumber = Sequence IsMinus (Sequence IsWhole (Sequence IsFraction IsExponent)) :=
    funext fun w => propext isNumber_iff
  rw [hlanguage, numberLiteral_eq]
  -- From the inside out: no part goes on with what may come after it.
  refine munches_minusPart.andThen ?_ fun hu h => minus_cut hu h _
  refine munches_wholePart.andThen ?_ fun hu h => whole_cut hu h _
  exact munches_fractionPart.andThen munches_exponentPart fun hu h => fraction_cut hu h _

end ModelText.Grammar
