import Mathlib.Data.List.TakeWhile
import ModelText.Json.Reader
import ModelText.Proofs.Lexical

/-!
# What literals mean

The spelling of a literal does not say that it means anything: a string must not hold a control
character, a surrogate stands only in a pair, and a number must not be too large. What a literal
means if it means anything is said here by relations between spelling and meaning (`StringMeans`,
`NumberMeans`, `WordMeans`), and each is what the JSON reader makes of a literal that the grammar
lets through (`read_string_eq_ok`, `read_number_eq_ok`, `read_word_eq_ok`).
-/

namespace ModelText.Grammar

open Json.Reader

/-! ### Strings -/

/-- What follows a backslash, and the character that it stands for: a letter, four hexadecimal digits
that are no surrogate, or the two halves of a surrogate pair. -/
inductive Escape : List Char → Char → Prop
  | letter {e c : Char} : shortEscape? e = some c → Escape [e] c
  | number {a b c d : Char} {n : Nat} : hexValues? a b c d = some n →
      ¬ (0xd800 ≤ n ∧ n ≤ 0xdfff) → Escape ['u', a, b, c, d] (Char.ofNat n)
  | pair {a b c d a' b' c' d' : Char} {high low : Nat} : hexValues? a b c d = some high →
      0xd800 ≤ high ∧ high ≤ 0xdbff → hexValues? a' b' c' d' = some low →
      0xdc00 ≤ low ∧ low ≤ 0xdfff → Escape ['u', a, b, c, d, '\\', 'u', a', b', c', d']
        (Char.ofNat (0x10000 + (high - 0xd800) * 0x400 + (low - 0xdc00)))

/-- What stands between the quotes of a string literal, and the characters that it stands for. -/
inductive Unescapes : List Char → List Char → Prop
  | nil : Unescapes [] []
  | plain {c : Char} {cs ds : List Char} : c ≠ '"' → c ≠ '\\' → 0x20 ≤ c.toNat →
      Unescapes cs ds → Unescapes (c :: cs) (c :: ds)
  | escape {esc : List Char} {c : Char} {cs ds : List Char} : Escape esc c → Unescapes cs ds →
      Unescapes ('\\' :: (esc ++ cs)) (c :: ds)

/-- The string that a string literal means. -/
def StringMeans (raw : List Char) (s : String) : Prop :=
  ∃ body, raw = '"' :: (body ++ ['"']) ∧ Unescapes body s.toList

/-- Four hexadecimal digits are read as their number. -/
theorem hexEscape_append {a b c d : Char} {n : Nat} (h : hexValues? a b c d = some n)
    (rest : List Char) : hexEscape (a :: b :: c :: d :: rest) = .ok (n, rest) := by
  simp only [hexEscape, h]

/-- Nothing but four hexadecimal digits is read as a number. -/
theorem hexEscape_eq_ok {cs rest : List Char} {n : Nat} (h : hexEscape cs = .ok (n, rest)) :
    ∃ a b c d, cs = a :: b :: c :: d :: rest ∧ hexValues? a b c d = some n := by
  unfold hexEscape at h
  dsimp only at h
  split at h
  · split at h
    · next hn =>
      cases h
      exact ⟨_, _, _, _, rfl, hn⟩
    · split at h <;> simp at h
  · split at h <;> simp at h

/-- A high surrogate is completed only by the escape of a low one right behind it, and together they are
one character beyond the basic plane. -/
theorem trailingSurrogate_eq_ok {high : Nat} {cs rest : List Char} {c : Char}
    (h : trailingSurrogate high cs = .ok (c, rest)) :
    ∃ x y z w low, cs = '\\' :: 'u' :: x :: y :: z :: w :: rest ∧ hexValues? x y z w = some low ∧
      (0xdc00 ≤ low ∧ low ≤ 0xdfff) ∧
      c = Char.ofNat (0x10000 + (high - 0xd800) * 0x400 + (low - 0xdc00)) := by
  unfold trailingSurrogate at h
  split at h
  · simp at h
  · simp at h
  · -- A backslash and a `u` are there, so it is left to look at the number behind them.
    obtain ⟨⟨low, rest'⟩, hlow, hc⟩ := bind_eq_ok.mp h
    obtain ⟨x, y, z, w, rfl, hhex⟩ := hexEscape_eq_ok hlow
    dsimp only at hc
    split at hc
    · next hrange =>
      simp only [Except.ok.injEq, Prod.mk.injEq] at hc
      obtain ⟨rfl, rfl⟩ := hc
      exact ⟨x, y, z, w, low, rfl, hhex, hrange, rfl⟩
    · simp at hc
  · simp at h
  · simp at h

/-- Each kind of escape is read whatever follows it, since it says itself how long it is. -/
theorem escaped_append {esc : List Char} {c : Char} (h : Escape esc c) (rest : List Char) :
    escaped (esc ++ rest) = .ok (c, rest) := by
  cases h with
  | @letter e c he =>
    have hu : e ≠ 'u' := by
      rintro rfl
      cases he
    -- The letters of the table are read in the last case of `escaped`, which is not that of a `u`.
    rw [List.singleton_append, escaped]
    · rw [he]
    · exact hu
  -- Neither of the two ranges of surrogates is met.
  | number hhex hrange =>
    refine bind_eq_ok.mpr ⟨_, hexEscape_append hhex rest, ?_⟩
    dsimp only
    rw [if_neg (by omega), if_neg (by omega)]
  -- The first half is in the range of the high surrogates, and the second one in that of the low ones.
  | pair hhex hhigh hhex' hrange =>
    refine bind_eq_ok.mpr ⟨_, hexEscape_append hhex _, ?_⟩
    dsimp only
    rw [if_neg (by omega), if_pos hhigh]
    refine bind_eq_ok.mpr ⟨_, hexEscape_append hhex' rest, ?_⟩
    dsimp only
    rw [if_pos hrange]

/-- An escape is read as the character that it stands for. -/
theorem escaped_eq_ok {cs rest : List Char} {c : Char} :
    escaped cs = .ok (c, rest) ↔ ∃ esc, Escape esc c ∧ cs = esc ++ rest := by
  constructor
  · intro h
    unfold escaped at h
    split at h
    · simp at h
    · obtain ⟨⟨n, rest'⟩, hn, hc⟩ := bind_eq_ok.mp h
      obtain ⟨x, y, z, w, rfl, hhex⟩ := hexEscape_eq_ok hn
      dsimp only at hc
      -- A low surrogate cannot come first, a high one asks for the other half, and the rest are
      -- numbers of characters.
      split at hc
      · simp at hc
      · next hlow =>
        split at hc
        · next hhigh =>
          obtain ⟨x', y', z', w', low, rfl, hhex', hrange, hpair⟩ := trailingSurrogate_eq_ok hc
          rw [hpair]
          exact ⟨_, .pair hhex hhigh hhex' hrange, rfl⟩
        · next hhigh =>
          cases hc
          exact ⟨_, .number hhex (by omega), rfl⟩
    · split at h
      · next he =>
        cases h
        exact ⟨_, .letter he, rfl⟩
      · simp at h
  · rintro ⟨esc, hesc, rfl⟩
    exact escaped_append hesc rest

/-- What is read up to a quote is a body with the characters that it stands for. -/
theorem stringBody_eq_ok {fuel : Nat} {cs rest ds : List Char}
    (h : stringBody fuel cs = .ok (ds, rest)) :
    ∃ body, Unescapes body ds ∧ cs = body ++ '"' :: rest := by
  -- By induction on the fuel, which only bounds the characters that are read.
  induction fuel generalizing cs ds with
  | zero => simp [stringBody, fail] at h
  | succ fuel ih =>
    unfold stringBody at h
    split at h
    · simp at h
    · cases h
      exact ⟨[], .nil, rfl⟩
    · -- Behind a backslash stands an escape, and behind the escape the rest of the body.
      obtain ⟨⟨c, mid⟩, hc, h⟩ := bind_eq_ok.mp h
      obtain ⟨⟨s, rest'⟩, hs, e⟩ := bind_eq_ok.mp h
      cases e
      obtain ⟨esc, hesc, rfl⟩ := escaped_eq_ok.mp hc
      obtain ⟨body, hbody, rfl⟩ := ih hs
      exact ⟨_, .escape hesc hbody, by simp⟩
    · next c cs hquote hescape =>
      split at h
      · simp at h
      · next hcontrol =>
        obtain ⟨⟨s, rest'⟩, hs, e⟩ := bind_eq_ok.mp h
        cases e
        obtain ⟨body, hbody, rfl⟩ := ih hs
        exact ⟨_, .plain hquote hescape (by omega) hbody, rfl⟩

/-- A body is read up to the quote behind it. More fuel than it has characters is enough. -/
theorem stringBody_append {body ds : List Char} (h : Unescapes body ds) (rest : List Char)
    {fuel : Nat} (hfuel : body.length < fuel) :
    stringBody fuel (body ++ '"' :: rest) = .ok (ds, rest) := by
  -- By induction on what the body stands for. Each step costs one unit of fuel and takes at least
  -- one character.
  induction h generalizing fuel with
  | nil =>
    obtain _ | fuel := fuel
    · simp at hfuel
    · rfl
  | @plain c cs ds hquote hescape hcontrol _ ih =>
    obtain _ | fuel := fuel
    · simp at hfuel
    · rw [List.cons_append, stringBody]
      · rw [if_neg (Nat.not_lt.mpr hcontrol), ih (Nat.lt_of_succ_lt_succ hfuel)]
        rfl
      · exact hquote
      · exact hescape
  | @escape esc c cs ds hesc _ ih =>
    obtain _ | fuel := fuel
    · simp at hfuel
    · have hlength : cs.length < fuel := by
        simp only [List.length_cons, List.length_append] at hfuel
        omega
      rw [List.cons_append, List.append_assoc, stringBody, escaped_append hesc]
      show (stringBody fuel (cs ++ '"' :: rest) >>= _) = _
      rw [ih hlength]
      rfl

/-- A quote that is not escaped ends a string literal, so only white space of the literal itself
could follow it, and there is none. -/
theorem string_eq_ok {body : List Char} {s : String} :
    (∃ rest, string (body ++ ['"']) = .ok (s, rest) ∧ finish rest = .ok ()) ↔
      Unescapes body s.toList := by
  constructor
  · rintro ⟨rest, hread, hfinish⟩
    obtain ⟨⟨ds, rest'⟩, hds, e⟩ := bind_eq_ok.mp hread
    cases e
    obtain ⟨body', hbody', heq⟩ := stringBody_eq_ok hds
    -- What is left must be white space. The text ends with a quote, which is none.
    have hrest : rest = [] := by
      by_contra hne
      have hlast : some '"' = some (rest.getLast hne) := by
        have hends := congrArg List.getLast? heq
        simpa [List.getLast?_append, List.getLast?_cons, List.getLast?_eq_some_getLast hne]
          using hends
      have hspace : ∀ c ∈ rest, isSpace c := by
        unfold finish at hfinish
        split at hfinish
        · next hskip => exact List.dropWhile_eq_nil_iff.mp hskip
        · simp at hfinish
      have hquote := hspace _ (List.getLast_mem hne)
      rw [← Option.some.inj hlast] at hquote
      exact absurd hquote (by decide)
    subst hrest
    obtain ⟨rfl, -⟩ := List.append_inj' heq rfl
    rwa [String.toList_ofList]
  · intro h
    refine ⟨[], ?_, rfl⟩
    have hfuel : body.length < (body ++ ['"']).length + 1 := by
      rw [List.length_append]
      exact Nat.lt_succ_of_lt (Nat.lt_succ_self _)
    refine bind_eq_ok.mpr ⟨(s.toList, []), stringBody_append h [] hfuel, ?_⟩
    simp [pure, Except.pure]

/-- A reader has read a text as a whole if it leaves nothing but white space. -/
theorem wholly_eq_ok {α : Type} {reader : Json.Reader α} {text : List Char} {a : α} :
    wholly reader text = .ok a ↔ ∃ rest, reader text = .ok (a, rest) ∧ finish rest = .ok () := by
  unfold wholly
  split
  · next h => simp [h]
  · next h =>
    split
    · next hfinish => simp [h, hfinish]
    · next hfinish => simp [h, hfinish]

/-- The body of a literal is what stands between its first and its last character, so it is the only one.
-/
theorem stringMeans_iff {body : List Char} {s : String} :
    StringMeans ('"' :: (body ++ ['"'])) s ↔ Unescapes body s.toList := by
  constructor
  · rintro ⟨body', heq, h⟩
    obtain ⟨rfl, -⟩ := List.append_inj' (List.cons.inj heq).2 rfl
    exact h
  · exact fun h => ⟨body, rfl, h⟩

/-- The name of a member is what its literal means. -/
theorem readString_eq_ok {raw : List Char} (h : IsString raw) {s : String} :
    Json.readString raw = .ok s ↔ StringMeans raw s := by
  obtain ⟨body, -, rfl⟩ := h
  rw [List.cons_append, stringMeans_iff, ← string_eq_ok, Json.readString, wholly_eq_ok]
  rfl

/-- **String literals.** A string literal is read as the string that it means. -/
theorem read_string_eq_ok {raw : List Char} (h : IsString raw) {j : Json} :
    Json.read raw = .ok j ↔ ∃ s, StringMeans raw s ∧ j = .string s := by
  obtain ⟨body, -, rfl⟩ := h
  simp only [List.cons_append, stringMeans_iff, ← string_eq_ok, Json.read, wholly_eq_ok]
  constructor
  · rintro ⟨rest, hread, hfinish⟩
    obtain ⟨⟨s, rest'⟩, hs, e⟩ := bind_eq_ok.mp hread
    cases e
    exact ⟨s, ⟨rest, hs, hfinish⟩, rfl⟩
  · rintro ⟨s, ⟨rest, hs, hfinish⟩, rfl⟩
    exact ⟨rest, bind_eq_ok.mpr ⟨(s, rest), hs, rfl⟩, hfinish⟩

/-! ### Numbers -/

/-- The exponent that the parts of a literal give. -/
def Exponent.value (e : Exponent) : Int :=
  if e.sign = ['-'] then -(natOfDigits e.digits : Int) else natOfDigits e.digits

/-- The number that the parts of a literal mean, unless it is too large: an integer without a point
and an exponent, and a real number otherwise. -/
def NumberParts.value? (p : NumberParts) : Option Json.Number :=
  match p.fraction, p.exponent with
  | none, none => integer? p.negative (natOfDigits p.whole)
  | fraction, exponent =>
    real? p.negative p.whole (fraction.getD []) ((exponent.map Exponent.value).getD 0)

/-- The number that a number literal means. -/
def NumberMeans (raw : List Char) (n : Json.Number) : Prop :=
  ∃ p : NumberParts, p.Valid ∧ p.text = raw ∧ p.value? = some n

/-- What follows a run of digits does not go on with one. -/
def EndsDigits (rest : List Char) : Prop :=
  ∀ c ∈ rest.head?, ¬ c.isDigit

/-- A run of digits is cut off where it ends. -/
theorem EndsDigits.span_append {ds rest : List Char} (hds : ∀ d ∈ ds, d.isDigit)
    (hrest : EndsDigits rest) : (ds ++ rest).span Char.isDigit = (ds, rest) := by
  have hdrop : rest.dropWhile Char.isDigit = rest := by
    cases rest with
    | nil => rfl
    | cons c rest => exact List.dropWhile_cons_of_neg (hrest c rfl)
  have htake : rest.takeWhile Char.isDigit = [] := by
    cases rest with
    | nil => rfl
    | cons c rest => exact List.takeWhile_cons_of_neg (hrest c rfl)
  rw [List.span_eq_takeWhile_dropWhile, List.takeWhile_append_of_pos hds,
    List.dropWhile_append_of_pos hds, hdrop, htake, List.append_nil]

/-- The integer part of a literal is read up to where its digits end. -/
theorem wholeDigits_append {whole rest : List Char} (hw : IsWhole whole) (hrest : EndsDigits rest) :
    wholeDigits (whole ++ rest) = .ok (whole, rest) := by
  -- A zero is the only digit of its number, so the two cases of the grammar are those of the
  -- reader.
  rcases hw with rfl | ⟨hw, hzero⟩
  · cases rest with
    | nil => rfl
    | cons c rest =>
      show (if c.isDigit then _ else _) = _
      rw [if_neg (hrest c rfl)]
      rfl
  · obtain _ | ⟨d, ds⟩ := whole
    · exact absurd rfl hw.1
    · have hd : d.isDigit := hw.2 d List.mem_cons_self
      have hd0 : d ≠ '0' := fun h => hzero (by rw [h]; rfl)
      rw [List.cons_append, wholeDigits]
      · rw [if_pos hd, ← List.cons_append, hrest.span_append hw.2]
      · exact hd0

/-- So are the digits behind a point. -/
theorem fractionDigits_append {ds rest : List Char} (hds : IsDigits ds) (hrest : EndsDigits rest) :
    fractionDigits (ds ++ rest) = .ok (ds, rest) := by
  obtain _ | ⟨d, ds⟩ := ds
  · exact absurd rfl hds.1
  · have hd : d.isDigit := hds.2 d List.mem_cons_self
    rw [List.cons_append, fractionDigits, if_pos hd, ← List.cons_append,
      hrest.span_append hds.2]

/-- And so are the digits of an exponent. -/
theorem exponentDigits_append {ds rest : List Char} (hds : IsDigits ds) (hrest : EndsDigits rest) :
    exponentDigits (ds ++ rest) = .ok (ds, rest) :=
  fractionDigits_append hds hrest

/-- The sign of an exponent matters only if it is a minus sign. -/
theorem exponentSign_append {sign ds : List Char} (hsign : sign = [] ∨ sign = ['+'] ∨ sign = ['-'])
    (hds : IsDigits ds) (tail : List Char) :
    exponentSign (sign ++ (ds ++ tail)) = (decide (sign = ['-']), ds ++ tail) := by
  rcases hsign with rfl | rfl | rfl
  · obtain _ | ⟨d, ds⟩ := ds
    · exact absurd rfl hds.1
    · have hd : d.isDigit := hds.2 d List.mem_cons_self
      rw [List.nil_append, List.cons_append, exponentSign]
      · rfl
      -- Without a sign the digits come first, and neither sign is a digit.
      all_goals
        intro _ h
        obtain ⟨rfl, -⟩ := List.cons.inj h
        exact absurd hd (by decide)
  · rfl
  · rfl

/-- A literal has a value, or it is refused as too large where it ends. -/
theorem inRange_eq_ok {v : Option Json.Number} {rest stop rest' : List Char} {n : Json.Number} :
    inRange v rest stop = .ok (n, rest') ↔ v = some n ∧ rest' = rest := by
  cases v <;> simp [inRange, fail, eq_comm]

/-- What breaks a text begins with no digit, no point and no mark of an exponent. -/
theorem Breaks.endsDigits {tail : List Char} (h : Breaks tail) : EndsDigits tail :=
  fun c hc hdigit => h c hc (isSolid_of_isDigit hdigit)

/-- A point would go on with a number. -/
theorem Breaks.ne_point {c : Char} {tail : List Char} (h : Breaks (c :: tail)) : c ≠ '.' := by
  rintro rfl
  exact h '.' rfl rfl

/-- So would the mark of an exponent. -/
theorem Breaks.not_isExponentMark {c : Char} {tail : List Char} (h : Breaks (c :: tail)) :
    ¬ isExponentMark c := by
  intro hmark
  simp only [isExponentMark, Bool.or_eq_true, beq_iff_eq] at hmark
  rcases hmark with rfl | rfl <;> exact h _ rfl rfl

/-- With an exponent a literal means a real number, with the fraction that has been read before it. -/
theorem exponentPart_eq_ok {e : Exponent} (he : e.Valid) (negative : Bool)
    (whole fraction : List Char) {tail : List Char} (htail : EndsDigits tail) {n : Json.Number}
    {rest : List Char} :
    Json.Reader.exponentPart negative whole fraction (e.sign ++ e.digits ++ tail) = .ok (n, rest) ↔
      real? negative whole fraction e.value = some n ∧ rest = tail := by
  unfold Json.Reader.exponentPart
  rw [List.append_assoc, exponentSign_append he.sign he.digits]
  dsimp only
  rw [exponentDigits_append he.digits htail]
  simp only [bind, Except.bind, Exponent.value, decide_eq_true_eq]
  exact inRange_eq_ok

/-- The mark of an exponent is small or large. -/
theorem Exponent.Valid.mark_eq {e : Exponent} (he : e.Valid) : e.mark = 'e' ∨ e.mark = 'E' := by
  have h := he.mark
  simpa [isExponentMark] using h

/-- Digits end where an exponent begins, and if there is none where the literal does. -/
theorem endsDigits_exponent {e : Option Exponent} (he : ∀ x ∈ e, x.Valid) {tail : List Char}
    (htail : Breaks tail) : EndsDigits ((e.map Exponent.text).getD [] ++ tail) := by
  cases e with
  | none => exact htail.endsDigits
  | some x =>
    rintro c hc
    obtain rfl : c = x.mark := (Option.some.inj hc).symm
    rcases (he x rfl).mark_eq with h | h <;> rw [h] <;> decide

/-- A number ends where the text breaks. -/
theorem number_eq_ok {p : NumberParts} (hp : p.Valid) {tail : List Char} (htail : Breaks tail)
    {n : Json.Number} {rest : List Char} :
    number p.negative (p.whole ++ ((p.fraction.map ('.' :: ·)).getD [] ++
      ((p.exponent.map Exponent.text).getD [] ++ tail))) = .ok (n, rest) ↔
        p.value? = some n ∧ rest = tail := by
  obtain ⟨negative, whole, fraction, exponent⟩ := p
  obtain ⟨hwhole, hfraction, hexponent⟩ := hp
  dsimp only at hwhole hfraction hexponent ⊢
  -- Each run of digits ends where the reader takes it to end, since the next part begins with a
  -- point or with a mark.
  have hends := endsDigits_exponent hexponent htail
  unfold number
  -- Whether there is a point and whether there is a mark decides between an integer and a real number, so
  -- there are four cases.
  cases fraction with
  | none =>
    simp only [Option.map_none, Option.getD_none, List.nil_append]
    rw [wholeDigits_append hwhole hends]
    cases exponent with
    | none =>
      cases tail with
      | nil => exact inRange_eq_ok
      | cons c tail =>
        have hpoint := htail.ne_point
        simp only [Option.map_none, Option.getD_none, List.nil_append, bind, Except.bind,
          htail.not_isExponentMark]
        exact inRange_eq_ok
    | some e =>
      have he := hexponent e rfl
      have hmark : e.mark ≠ '.' := by rcases he.mark_eq with h | h <;> rw [h] <;> decide
      simp only [Option.map_some, Option.getD_some, Exponent.text, List.cons_append, bind,
        Except.bind, he.mark, if_true]
      exact exponentPart_eq_ok he negative whole [] htail.endsDigits
  | some ds =>
    have hds := hfraction ds rfl
    have hpoint : EndsDigits ('.' :: ds ++ ((exponent.map Exponent.text).getD [] ++ tail)) := by
      rintro c hc
      obtain rfl : c = '.' := (Option.some.inj hc).symm
      decide
    simp only [Option.map_some, Option.getD_some]
    rw [wholeDigits_append hwhole hpoint]
    simp only [List.cons_append, bind, Except.bind]
    rw [fractionDigits_append hds hends]
    cases exponent with
    | none =>
      cases tail with
      | nil => exact inRange_eq_ok
      | cons c tail =>
        simp only [Option.map_none, Option.getD_none, List.nil_append, htail.not_isExponentMark]
        exact inRange_eq_ok
    | some e =>
      have he := hexponent e rfl
      simp only [Option.map_some, Option.getD_some, Exponent.text, List.cons_append, he.mark,
        if_true]
      exact exponentPart_eq_ok he negative whole ds htail.endsDigits

/-- A value that begins with a digit is read as a number. -/
theorem valueWith_digit {array object : Json.Reader Json} {c : Char} (hc : c.isDigit)
    (cs : List Char) : valueWith array object (c :: cs) = (do
      let (n, rest) ← number false (c :: cs)
      return (.number n, rest)) := by
  have hspace : ¬ isSpace c := by
    intro h
    simp only [isSpace, Bool.or_eq_true, beq_iff_eq] at h
    rcases h with ((rfl | rfl) | rfl) | rfl <;> exact absurd hc (by decide)
  have hskip : skipSpace (c :: cs) = c :: cs := List.dropWhile_cons_of_neg hspace
  unfold valueWith
  rw [hskip]
  -- Every other case of the reader begins with a character that is no digit.
  split
  case h_9 heq =>
    obtain ⟨rfl, rfl⟩ := List.cons.inj heq
    rw [if_pos hc]
  case h_1 heq => cases heq
  all_goals
    next heq =>
      obtain ⟨rfl, -⟩ := List.cons.inj heq
      exact absurd hc (by decide)

/-- The reader takes the sign of a number by a case of its own and any digit by another. Both go on to
`number`. -/
theorem valueWith_number {array object : Json.Reader Json} {p : NumberParts} (hp : p.Valid)
    (tail : List Char) : valueWith array object (p.text ++ tail) = (do
      let (n, rest) ← number p.negative (p.whole ++ ((p.fraction.map ('.' :: ·)).getD [] ++
        ((p.exponent.map Exponent.text).getD [] ++ tail)))
      return (.number n, rest)) := by
  unfold NumberParts.text
  simp only [List.append_assoc]
  cases p.negative with
  | true => rfl
  | false =>
    obtain ⟨c, cs, hwhole, hc⟩ := hp.whole.exists_digit
    rw [hwhole]
    exact valueWith_digit hc _

/-- A literal that consists of valid parts is read as a whole, as the number that its parts mean. -/
theorem read_text_eq_ok {p : NumberParts} (hp : p.Valid) {j : Json} :
    Json.read p.text = .ok j ↔ ∃ n, p.value? = some n ∧ j = .number n := by
  have hread : valueWith (array (value 126)) (object (value 126)) (p.text ++ []) = _ :=
    valueWith_number hp []
  have hnumber : ∀ {n rest}, _ ↔ p.value? = some n ∧ rest = [] := number_eq_ok hp breaks_nil
  rw [List.append_nil] at hread
  rw [Json.read, wholly_eq_ok]
  constructor
  · rintro ⟨rest, h, -⟩
    rw [maxNesting, value, hread] at h
    obtain ⟨⟨n, rest'⟩, hn, e⟩ := bind_eq_ok.mp h
    cases e
    exact ⟨n, (hnumber.mp hn).1, rfl⟩
  · rintro ⟨n, hn, rfl⟩
    refine ⟨[], ?_, rfl⟩
    rw [maxNesting, value, hread]
    exact bind_eq_ok.mpr ⟨(n, []), hnumber.mpr ⟨hn, rfl⟩, rfl⟩

/-- **Number literals.** A number literal is read as the number that it means. -/
theorem read_number_eq_ok {raw : List Char} (h : IsNumber raw) {j : Json} :
    Json.read raw = .ok j ↔ ∃ n, NumberMeans raw n ∧ j = .number n := by
  constructor
  · intro hread
    obtain ⟨p, hp, rfl⟩ := h
    -- The parts of a literal are not looked for: its spelling provides them.
    obtain ⟨n, hn, rfl⟩ := (read_text_eq_ok hp).mp hread
    exact ⟨n, ⟨p, hp, rfl, hn⟩, rfl⟩
  · rintro ⟨n, ⟨p, hp, rfl, hn⟩, rfl⟩
    exact (read_text_eq_ok hp).mpr ⟨n, hn, rfl⟩

/-! ### Words -/

/-- The value that a literal word means. -/
inductive WordMeans : List Char → Json → Prop
  | true : WordMeans "true".toList (.bool true)
  | false : WordMeans "false".toList (.bool false)
  | null : WordMeans "null".toList .null

/-- There are meanings for the literal words only. -/
theorem WordMeans.mem_literalWords {w : List Char} {j : Json} (h : WordMeans w j) :
    w ∈ literalWords := by
  rcases h with _ | _ | _ <;> decide

/-- **Literal words.** A literal word is read as the value that it means. -/
theorem read_word_eq_ok {raw : List Char} (h : raw ∈ literalWords) {j : Json} :
    Json.read raw = .ok j ↔ WordMeans raw j := by
  constructor
  · intro hread
    simp only [literalWords, List.mem_cons, List.not_mem_nil, or_false] at h
    rcases h with rfl | rfl | rfl
    · cases (show Json.read "true".toList = .ok (.bool Bool.true) from rfl).symm.trans hread
      exact .true
    · cases (show Json.read "false".toList = .ok (.bool Bool.false) from rfl).symm.trans hread
      exact .false
    · cases (show Json.read "null".toList = .ok .null from rfl).symm.trans hread
      exact .null
  · rintro (_ | _ | _) <;> rfl

end ModelText.Grammar
