import ModelText.Proofs.Printing

/-!
# Scalars in a JSON text

What the JSON reader takes off the front of a text for a number, a string or a word is spelled as a
token, and the value that it returns is what the spelling means (`number_sound`, `string_sound`,
`word_eq_ok`). The reader does not look for the longest match, but where it succeeds with what follows
it can only have taken one.
-/

namespace ModelText.Grammar

open Json.Reader

/-! ### Digits -/

/-- Digits are taken as long as there are any, and here the first is known to be one. -/
theorem digits_sound {c : Char} {cs ds rest : List Char} (hc : c.isDigit)
    (h : (c :: cs).span Char.isDigit = (ds, rest)) :
    IsDigits ds ∧ ds.head? = some c ∧ c :: cs = ds ++ rest := by
  rw [List.span_eq_takeWhile_dropWhile, List.takeWhile_cons_of_pos hc,
    List.dropWhile_cons_of_pos hc] at h
  obtain ⟨rfl, rfl⟩ := Prod.mk.inj h
  refine ⟨⟨List.cons_ne_nil _ _, List.forall_mem_cons.mpr ⟨hc, ?_⟩⟩, rfl, ?_⟩
  · exact fun d hd => List.all_eq_true.mp List.all_takeWhile d hd
  · rw [List.cons_append, List.takeWhile_append_dropWhile]

/-- The digits before the point are a zero alone, or begin with another digit. -/
theorem wholeDigits_sound {cs ds rest : List Char} (h : wholeDigits cs = .ok (ds, rest)) :
    IsWhole ds ∧ cs = ds ++ rest := by
  -- The cases of the reader: no character, a zero that must stand alone, and any other digit.
  unfold wholeDigits at h
  split at h
  · cases h
  · split at h
    · split at h
      · cases h
      · cases h
        exact ⟨.inl rfl, rfl⟩
    · cases h
      exact ⟨.inl rfl, rfl⟩
  · next c cs hzero =>
    split at h
    · next hc =>
      obtain ⟨hds, hhead, hcs⟩ := digits_sound hc (Except.ok.inj h)
      refine ⟨.inr ⟨hds, ?_⟩, hcs⟩
      rw [hhead]
      exact fun h => hzero (Option.some.inj h)
    · cases h

/-- Those behind it may begin with any. -/
theorem fractionDigits_sound {cs ds rest : List Char} (h : fractionDigits cs = .ok (ds, rest)) :
    IsDigits ds ∧ cs = ds ++ rest := by
  unfold fractionDigits at h
  split at h
  · cases h
  · split at h
    · next hc =>
      obtain ⟨hds, -, hcs⟩ := digits_sound hc (Except.ok.inj h)
      exact ⟨hds, hcs⟩
    · cases h

/-- So may those of the exponent. -/
theorem exponentDigits_sound {cs ds rest : List Char} (h : exponentDigits cs = .ok (ds, rest)) :
    IsDigits ds ∧ cs = ds ++ rest :=
  fractionDigits_sound h

/-- The sign of an exponent may be left out. It tells the direction. -/
theorem exponentSign_sound {cs rest : List Char} {down : Bool}
    (h : exponentSign cs = (down, rest)) : ∃ sign, (sign = [] ∨ sign = ['+'] ∨ sign = ['-']) ∧
      cs = sign ++ rest ∧ (down ↔ sign = ['-']) := by
  unfold exponentSign at h
  split at h <;> cases h
  · exact ⟨['+'], by simp, rfl, by decide⟩
  · exact ⟨['-'], by simp, rfl, by decide⟩
  · exact ⟨[], by simp, rfl, by decide⟩

/-! ### Numbers -/

/-- What is read from an exponent on is the real number that the parts spell, if it is in range. -/
theorem exponentPart_reader_sound {mark : Char} (hmark : isExponentMark mark) {negative : Bool}
    {whole fraction cs rest : List Char} {n : Json.Number}
    (h : Json.Reader.exponentPart negative whole fraction cs = .ok (n, rest)) :
    ∃ e : Exponent, e.Valid ∧ mark :: cs = e.text ++ rest ∧
      real? negative whole fraction e.value = some n := by
  unfold Json.Reader.exponentPart at h
  cases hsign : exponentSign cs with
  | mk down mid =>
    obtain ⟨sign, hform, rfl, hdown⟩ := exponentSign_sound hsign
    rw [hsign] at h
    obtain ⟨⟨ds, rest'⟩, hds, h⟩ := bind_eq_ok.mp h
    obtain ⟨hdigits, rfl⟩ := exponentDigits_sound hds
    obtain ⟨hreal, rfl⟩ := inRange_eq_ok.mp h
    refine ⟨⟨mark, sign, ds⟩, ⟨hmark, hform, hdigits⟩, by simp [Exponent.text], ?_⟩
    rw [Exponent.value]
    dsimp only
    rw [if_congr hdown.symm rfl rfl]
    exact hreal

/-- The number that is read is what its parts mean. -/
theorem number_sound {negative : Bool} {cs rest : List Char} {n : Json.Number}
    (hnumber : number negative cs = .ok (n, rest)) :
    ∃ p : NumberParts, p.Valid ∧ p.negative = negative ∧ p.value? = some n ∧
      cs = p.whole ++ ((p.fraction.map ('.' :: ·)).getD [] ++
        ((p.exponent.map Exponent.text).getD [] ++ rest)) := by
  obtain ⟨⟨whole, mid⟩, hdigits, h⟩ := bind_eq_ok.mp hnumber
  obtain ⟨hwhole, rfl⟩ := wholeDigits_sound hdigits
  clear hdigits hnumber
  dsimp only at h
  have hinteger : NumberParts.Valid ⟨negative, whole, none, none⟩ := ⟨hwhole, nofun, nofun⟩
  split at h
  · -- A point, and the digits after it.
    next mid' =>
    obtain ⟨⟨ds, mid⟩, hdigits, hmore⟩ := bind_eq_ok.mp h
    obtain ⟨hds, rfl⟩ := fractionDigits_sound hdigits
    clear hdigits h
    dsimp only at hmore
    have hfraction : ∀ x ∈ some ds, IsDigits x := by
      rintro _ ⟨⟩
      exact hds
    have hpointed : inRange (real? negative whole ds 0) mid mid = .ok (n, rest) →
        ∃ p : NumberParts, p.Valid ∧ p.negative = negative ∧ p.value? = some n ∧
          whole ++ '.' :: (ds ++ mid) = p.whole ++ ((p.fraction.map ('.' :: ·)).getD [] ++
            ((p.exponent.map Exponent.text).getD [] ++ rest)) := by
      intro hrange
      obtain ⟨hn, rfl⟩ := inRange_eq_ok.mp hrange
      exact ⟨⟨negative, whole, some ds, none⟩, ⟨hwhole, hfraction, nofun⟩, rfl, hn, rfl⟩
    split at hmore
    · next c mid =>
      split at hmore
      · next hmark =>
        obtain ⟨e, he, hmid, hn⟩ := exponentPart_reader_sound hmark hmore
        refine ⟨⟨negative, whole, some ds, some e⟩, ⟨hwhole, hfraction, ?_⟩, rfl, hn, ?_⟩
        · rintro _ ⟨⟩
          exact he
        · rw [hmid]
          rfl
      · exact hpointed hmore
    · exact hpointed hmore
  · next c mid =>
    split at h
    · next hmark =>
      obtain ⟨e, he, hmid, hn⟩ := exponentPart_reader_sound hmark h
      refine ⟨⟨negative, whole, none, some e⟩, ⟨hwhole, nofun, ?_⟩, rfl, hn, ?_⟩
      · rintro _ ⟨⟩
        exact he
      · rw [hmid]
        rfl
    · obtain ⟨hn, rfl⟩ := inRange_eq_ok.mp h
      exact ⟨⟨negative, whole, none, none⟩, hinteger, rfl, hn, rfl⟩
  · obtain ⟨hn, rfl⟩ := inRange_eq_ok.mp h
    exact ⟨⟨negative, whole, none, none⟩, hinteger, rfl, hn, rfl⟩

/-! ### Strings and words -/

/-- The string that is read is what a literal means. -/
theorem string_sound {cs rest : List Char} {s : String} (h : string cs = .ok (s, rest)) :
    ∃ raw, StringMeans raw s ∧ '"' :: cs = raw ++ rest := by
  obtain ⟨⟨ds, mid⟩, hds, hs⟩ := bind_eq_ok.mp h
  cases hs
  obtain ⟨body, hbody, rfl⟩ := stringBody_eq_ok hds
  refine ⟨'"' :: (body ++ ['"']), ⟨body, rfl, ?_⟩, by simp⟩
  rwa [String.toList_ofList]

/-- A string is read from its quote to its quote, whatever follows it. -/
theorem string_append {raw : List Char} {s : String} (h : StringMeans raw s) (rest : List Char) :
    ∃ cs, raw ++ rest = '"' :: cs ∧ string cs = .ok (s, rest) := by
  obtain ⟨body, rfl, hbody⟩ := h
  -- The bound on the characters of the body is what the reader is given for its fuel.
  refine ⟨body ++ '"' :: rest, by simp, bind_eq_ok.mpr ⟨(s.toList, rest), ?_, ?_⟩⟩
  · exact stringBody_append hbody rest (by simp only [List.length_append]; omega)
  · simp [pure, Except.pure]

/-- A word is read where the text begins with it. -/
theorem word_eq_ok {ws cs rest : List Char} :
    word ws cs = .ok ((), rest) ↔ cs = ws ++ rest := by
  -- By induction on the word, one character of the text for each of its own.
  induction ws generalizing cs with
  | nil => simp [word]
  | cons w ws ih =>
    cases cs with
    | nil => simp [word]
    | cons c cs =>
      rw [word, List.cons_append, List.cons.injEq]
      split
      · next hc => rw [ih, and_iff_right hc]
      · next hc => exact iff_of_false (fail_ne_ok _ _ _ _) fun h => hc h.1

end ModelText.Grammar
