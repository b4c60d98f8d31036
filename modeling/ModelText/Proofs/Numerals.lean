import ModelText.Json.Printer
import ModelText.Proofs.Literals
import ModelText.Proofs.Shortest

/-!
# Written numbers

The text of a number is a number literal that means the number (`numberMeans_text`). An integer is
its digits, which the reader puts together again. A real number is a decimal in one of five layouts.
Whatever the layout, its digits are those of the decimal with zeros in front or behind, and the point
and the exponent together say how far they are shifted, so the reader arrives at the same decimal
(`real?_eq`), and a decimal that is written for a magnitude rounds to it.
-/

namespace ModelText.Grammar

open Json (digits signedDigits pointed decimalText realText)
open Json.Reader (natOfDigits real? integer? maxDigits)
open Binary64 (ofRank? decimalRank shortest)

/-! ### Digits -/

/-- The number that digits spell is the one of the library. -/
theorem natOfDigits_eq (ds : List Char) : natOfDigits ds = Nat.ofDigitChars 10 ds 0 :=
  Nat.ofDigitChars_eq_foldl.symm

/-- The digits of a number spell it. -/
theorem natOfDigits_digits (n : Nat) : natOfDigits (digits n) = n := by
  rw [natOfDigits_eq, digits, Nat.ofDigitChars_ten_toDigits]

/-- Zeros behind the digits multiply by powers of ten. -/
theorem natOfDigits_append_zeros (ds : List Char) (k : Nat) :
    natOfDigits (ds ++ List.replicate k '0') = natOfDigits ds * 10 ^ k := by
  rw [natOfDigits_eq, natOfDigits_eq, Nat.ofDigitChars_append, Nat.ofDigitChars_replicate_zero,
    Nat.mul_comm]

/-- Zeros in front of the digits do not count. -/
theorem natOfDigits_zeros_append (k : Nat) (ds : List Char) :
    natOfDigits (List.replicate k '0' ++ ds) = natOfDigits ds := by
  rw [natOfDigits_eq, natOfDigits_eq, Nat.ofDigitChars_append, Nat.ofDigitChars_replicate_zero,
    Nat.mul_zero]

/-- They are digits, and at least one. -/
theorem isDigits_digits (n : Nat) : IsDigits (digits n) :=
  ⟨Nat.toDigits_ne_nil, fun _ h => Nat.isDigit_of_mem_toDigits (by decide) (by decide) h⟩

theorem isDigits_zero : IsDigits ['0'] :=
  isDigits_digits 0

/-- Only the digit zero is written as one. -/
theorem digitChar_ne_zero {n : Nat} (hpos : 0 < n) (h : n < 10) : Nat.digitChar n ≠ '0' := by
  have hall : ∀ m : Fin 10, 0 < m.val → Nat.digitChar m.val ≠ '0' := by decide
  exact hall ⟨n, h⟩ hpos

/-- A number does not begin with a zero, except for zero itself. -/
theorem head?_digits {n : Nat} (hpos : 0 < n) : (digits n).head? ≠ some '0' := by
  -- By induction on the number without its last digit, as long as there is more than one.
  induction n using Nat.strongRecOn with
  | ind n ih =>
    rw [digits, Nat.toDigits_eq_if (by decide)]
    split
    · next h =>
      intro heq
      exact digitChar_ne_zero hpos h (Option.some.inj heq)
    · next h =>
      have hdiv : 0 < n / 10 := by omega
      have hfirst := ih (n / 10) (by omega) hdiv
      rw [digits] at hfirst
      obtain ⟨c, cs, heq⟩ := List.exists_cons_of_ne_nil (Nat.toDigits_ne_nil (n := n / 10) (b := 10))
      rw [heq] at hfirst ⊢
      exact hfirst

/-- So its digits may stand before a point. -/
theorem isWhole_digits (n : Nat) : IsWhole (digits n) := by
  -- Zero is the exception, and may stand there alone.
  rcases Nat.eq_zero_or_pos n with rfl | hpos
  · exact .inl rfl
  · exact .inr ⟨isDigits_digits n, head?_digits hpos⟩

/-- Digits of an integer part remain one when some of them at the end are left out. -/
theorem isWhole_take {ds : List Char} (hds : IsDigits ds) (hzero : ds.head? ≠ some '0') {k : Nat}
    (hk : 0 < k) : IsWhole (ds.take k) := by
  obtain ⟨hne, hall⟩ := hds
  obtain _ | ⟨c, cs⟩ := ds
  · exact absurd rfl hne
  · obtain _ | k := k
    · omega
    · refine .inr ⟨⟨by simp, fun d hd => hall d (List.mem_of_mem_take hd)⟩, ?_⟩
      rwa [List.take_succ_cons]

/-- Zeros may follow the digits before a point. -/
theorem isWhole_append_zeros {ds : List Char} (hds : IsDigits ds) (hzero : ds.head? ≠ some '0')
    (k : Nat) : IsWhole (ds ++ List.replicate k '0') := by
  obtain ⟨hne, hall⟩ := hds
  refine .inr ⟨⟨by simp [hne], fun d hd => ?_⟩, ?_⟩
  · rcases List.mem_append.mp hd with hd | hd
    · exact hall d hd
    · rw [List.eq_of_mem_replicate hd]
      rfl
  · obtain _ | ⟨c, cs⟩ := ds
    · exact absurd rfl hne
    · exact hzero

/-- Zeros may come first behind it. -/
theorem isDigits_zeros_append (k : Nat) {ds : List Char} (hds : IsDigits ds) :
    IsDigits (List.replicate k '0' ++ ds) := by
  refine ⟨by simp [hds.1], fun d hd => ?_⟩
  rcases List.mem_append.mp hd with hd | hd
  · rw [List.eq_of_mem_replicate hd]
    rfl
  · exact hds.2 d hd

/-- Digits are left if not all of them are dropped. -/
theorem isDigits_drop {ds : List Char} (hds : IsDigits ds) {k : Nat} (hk : k < ds.length) :
    IsDigits (ds.drop k) := by
  refine ⟨fun hnil => ?_, fun d hd => hds.2 d (List.mem_of_mem_drop hd)⟩
  rw [List.drop_eq_nil_iff] at hnil
  omega

/-! ### Real literals -/

/-- The zeros at the beginning can be split off. -/
theorem exists_zeros_append (ds : List Char) :
    ∃ k, ds = List.replicate k '0' ++ ds.dropWhile (· == '0') := by
  refine ⟨(ds.takeWhile (· == '0')).length, ?_⟩
  have hzeros : ds.takeWhile (· == '0') = List.replicate (ds.takeWhile (· == '0')).length '0' := by
    refine List.eq_replicate_of_mem ?_
    intro c hc
    have h := List.all_eq_true.mp List.all_takeWhile c hc
    exact beq_iff_eq.mp h
  rw [← hzeros, List.takeWhile_append_dropWhile]

/-- The zeros at the beginning do not count. -/
theorem natOfDigits_dropWhile (ds : List Char) :
    natOfDigits (ds.dropWhile (· == '0')) = natOfDigits ds := by
  obtain ⟨k, hk⟩ := exists_zeros_append ds
  conv_rhs => rw [hk]
  rw [natOfDigits_zeros_append]

/-- The zeros at the end can be split off as well. -/
theorem exists_append_zeros (ds : List Char) :
    ∃ k, ds = (ds.reverse.dropWhile (· == '0')).reverse ++ List.replicate k '0' := by
  -- They are the zeros at the beginning of the digits from behind.
  obtain ⟨k, hk⟩ := exists_zeros_append ds.reverse
  have hreverse := congrArg List.reverse hk
  rw [List.reverse_reverse, List.reverse_append, List.reverse_replicate] at hreverse
  exact ⟨k, hreverse⟩

/-- Dropping from a text with more behind it leaves no less. -/
theorem length_dropWhile_append_le (p : Char → Bool) (cs ds : List Char) :
    (cs.dropWhile p).length ≤ ((cs ++ ds).dropWhile p).length := by
  rw [List.dropWhile_append]
  split
  · next h => rw [List.isEmpty_iff.mp h]; exact Nat.zero_le _
  · rw [List.length_append]; exact Nat.le_add_right _ _

/-- **Real literals.** A real literal with few enough significant digits is read as the number that
its digits, shifted by the point and the exponent, round to. -/
theorem real?_eq {whole fraction ds : List Char} {zeros : Nat}
    (h : whole ++ fraction = List.replicate zeros '0' ++ ds) (hlength : ds.length ≤ maxDigits)
    (negative : Bool) (e : Int) :
    real? negative whole fraction e =
      (ofRank? negative (decimalRank (natOfDigits ds) (e - fraction.length))).map .real := by
  -- The reader drops the zeros at the end of the fraction and those in front of all digits.
  obtain ⟨k, hk⟩ := exists_append_zeros fraction
  unfold real?
  dsimp only
  generalize (fraction.reverse.dropWhile (· == '0')).reverse = kept at hk ⊢
  subst hk
  have hsignificant : ((whole ++ kept).dropWhile (· == '0')).length ≤ maxDigits := by
    calc ((whole ++ kept).dropWhile (· == '0')).length
        ≤ ((whole ++ kept ++ List.replicate k '0').dropWhile (· == '0')).length :=
          length_dropWhile_append_le _ _ _
      _ = (ds.dropWhile (· == '0')).length := by
          rw [List.append_assoc, h, List.dropWhile_append_of_pos]
          intro c hc
          rw [List.eq_of_mem_replicate hc]
          rfl
      _ ≤ ds.length := length_dropWhile_le _ _
      _ ≤ maxDigits := hlength
  -- Each zero that is dropped takes a power of ten from the digits and one from the exponent.
  have hvalue : natOfDigits ds = natOfDigits (whole ++ kept) * 10 ^ k := by
    rw [← natOfDigits_append_zeros, List.append_assoc, h, natOfDigits_zeros_append]
  have hexponent : e - (kept ++ List.replicate k '0').length = e - kept.length - (k : Int) := by
    rw [List.length_append, List.length_replicate]
    omega
  rw [if_pos hsignificant, natOfDigits_dropWhile, Binary64.ofDecimal_eq, hvalue, hexponent,
    Binary64.decimalRank_mul_pow]

/-! ### Decimals -/

/-- An exponent as it is written. -/
def exponentOf (e : Int) : Exponent :=
  ⟨'e', [if e < 0 then '-' else '+'], digits e.natAbs⟩

/-- An exponent is written with its sign always. -/
theorem text_exponentOf (e : Int) : (exponentOf e).text = 'e' :: signedDigits e := rfl

/-- What is written for an exponent is a valid one. -/
theorem valid_exponentOf (e : Int) : (exponentOf e).Valid where
  mark := rfl
  sign := by
    unfold exponentOf
    split
    · exact .inr (.inr rfl)
    · exact .inr (.inl rfl)
  digits := isDigits_digits _

/-- It has the value that it is written for. -/
theorem value_exponentOf (e : Int) : (exponentOf e).value = e := by
  unfold Exponent.value exponentOf
  dsimp only
  rw [natOfDigits_digits]
  -- The sign that is written is read back.
  by_cases h : e < 0
  · rw [if_pos h, if_pos rfl]
    omega
  · rw [if_neg h, if_neg (by decide)]
    omega

/-- The parts of a real literal with few enough significant digits mean the number that the digits,
shifted by the point and the exponent, round to. -/
theorem NumberParts.value?_eq {p : NumberParts} {ds : List Char} {k : Nat} {e : Int}
    (hreal : p.fraction.isSome ∨ p.exponent.isSome)
    (h : p.whole ++ p.fraction.getD [] = List.replicate k '0' ++ ds)
    (hlength : ds.length ≤ maxDigits)
    (he : (p.exponent.map Exponent.value).getD 0 - (p.fraction.getD []).length = e) :
    p.value? = (ofRank? p.negative (decimalRank (natOfDigits ds) e)).map .real := by
  -- With a point or an exponent the literal is not read as an integer.
  have hvalue : p.value? = real? p.negative p.whole (p.fraction.getD [])
      ((p.exponent.map Exponent.value).getD 0) := by
    unfold NumberParts.value?
    split
    · next hfraction hexponent => simp [hfraction, hexponent] at hreal
    · rfl
  rw [hvalue, real?_eq h hlength, he]

/-- A literal with the characters of `cs` after its sign means what `n * 10 ^ e` rounds to. -/
def DecimalMeans (negative : Bool) (cs : List Char) (n : Nat) (e : Int) : Prop :=
  ∃ p : NumberParts, p.Valid ∧ p.text = (if negative then ['-'] else []) ++ cs ∧
    p.value? = (ofRank? negative (decimalRank n e)).map .real

section Layouts

variable {ds : List Char} (hdigits : IsDigits ds) (hzero : ds.head? ≠ some '0')
include hdigits hzero

/-- One digit and an exponent. -/
theorem decimalMeans_single (hlength : ds.length ≤ maxDigits) (negative : Bool) (e : Int) :
    DecimalMeans negative (ds ++ 'e' :: signedDigits e) (natOfDigits ds) e := by
  have hexponent := valid_exponentOf e
  refine ⟨⟨negative, ds, none, some (exponentOf e)⟩,
    ⟨.inr ⟨hdigits, hzero⟩, by simp, by simpa using hexponent⟩, ?_, ?_⟩
  · simp [NumberParts.text, text_exponentOf]
  · refine NumberParts.value?_eq (k := 0) (.inr rfl) (by simp) hlength ?_
    simp only [Option.map_some, Option.getD_some, Option.getD_none, value_exponentOf,
      List.length_nil]
    omega

/-- A point after the first digit, and an exponent. -/
theorem decimalMeans_scientific (hmore : 1 < ds.length) (hlength : ds.length ≤ maxDigits)
    (negative : Bool) (e : Int) :
    DecimalMeans negative (pointed ds 1 ++ 'e' :: signedDigits (e + ds.length - 1))
      (natOfDigits ds) e := by
  have hexponent := valid_exponentOf (e + ds.length - 1)
  have hfraction : IsDigits (ds.drop 1) := isDigits_drop hdigits hmore
  refine ⟨⟨negative, ds.take 1, some (ds.drop 1), some (exponentOf (e + ds.length - 1))⟩,
    ⟨isWhole_take hdigits hzero (by decide), by simpa using hfraction, by simpa using hexponent⟩,
    ?_, ?_⟩
  · simp [NumberParts.text, text_exponentOf, pointed]
  · refine NumberParts.value?_eq (k := 0) (.inl rfl) (List.take_append_drop 1 ds) hlength ?_
    simp only [Option.map_some, Option.getD_some, value_exponentOf, List.length_drop]
    omega

/-- Zeros for the power of ten, and a zero after the point. -/
theorem decimalMeans_integer {zeros : Nat} (hlength : ds.length + zeros < maxDigits)
    (negative : Bool) :
    DecimalMeans negative (ds ++ List.replicate zeros '0' ++ ['.', '0']) (natOfDigits ds) zeros := by
  have hwhole : IsWhole (ds ++ List.replicate zeros '0') := isWhole_append_zeros hdigits hzero zeros
  refine ⟨⟨negative, ds ++ List.replicate zeros '0', some ['0'], none⟩,
    ⟨hwhole, by simpa using isDigits_zero, by simp⟩, ?_, ?_⟩
  · simp [NumberParts.text]
  · -- The reader takes the zero after the point for one more digit.
    have hshift : decimalRank (natOfDigits (ds ++ List.replicate (zeros + 1) '0')) (-1) =
        decimalRank (natOfDigits ds) zeros := by
      have hexponent : (-1 : Int) = zeros - (zeros + 1 : Nat) := by omega
      rw [natOfDigits_append_zeros, hexponent, Binary64.decimalRank_mul_pow]
    rw [← hshift]
    refine NumberParts.value?_eq (k := 0) (.inl rfl) ?_ ?_ rfl
    · simp [List.replicate_succ']
    · rw [List.length_append, List.length_replicate]
      omega

/-- A point among the digits. -/
theorem decimalMeans_pointed {whole : Nat} (hpos : 0 < whole) (hwhole : whole < ds.length)
    (hlength : ds.length ≤ maxDigits) (negative : Bool) :
    DecimalMeans negative (pointed ds whole) (natOfDigits ds) (whole - ds.length) := by
  have hfraction : IsDigits (ds.drop whole) := isDigits_drop hdigits hwhole
  refine ⟨⟨negative, ds.take whole, some (ds.drop whole), none⟩,
    ⟨isWhole_take hdigits hzero hpos, by simpa using hfraction, by simp⟩, ?_, ?_⟩
  · simp [NumberParts.text, pointed]
  · refine NumberParts.value?_eq (k := 0) (.inl rfl) (by simp) hlength ?_
    simp only [Option.map_none, Option.getD_some, Option.getD_none, List.length_drop]
    omega

omit hzero in
/-- Zeros between the point and the digits. -/
theorem decimalMeans_fraction (zeros : Nat) (hlength : ds.length ≤ maxDigits) (negative : Bool) :
    DecimalMeans negative (['0', '.'] ++ List.replicate zeros '0' ++ ds) (natOfDigits ds)
      (-(zeros + ds.length)) := by
  have hfraction : IsDigits (List.replicate zeros '0' ++ ds) := isDigits_zeros_append zeros hdigits
  refine ⟨⟨negative, ['0'], some (List.replicate zeros '0' ++ ds), none⟩,
    ⟨.inl rfl, by simpa using hfraction, by simp⟩, ?_, ?_⟩
  · simp [NumberParts.text]
  · -- The zero before the point is one more of the zeros in front.
    refine NumberParts.value?_eq (k := zeros + 1) (.inl rfl) ?_ hlength ?_
    · simp [List.replicate_succ]
    · simp only [Option.map_none, Option.getD_some, Option.getD_none, List.length_append,
        List.length_replicate]
      omega

end Layouts

/-- The text of a decimal is a literal that means what the decimal rounds to. -/
theorem decimalMeans_decimalText {d : Decimal} (hpos : 0 < d.digits)
    (hlength : (digits d.digits).length ≤ maxDigits) (negative : Bool) :
    DecimalMeans negative (decimalText d) d.digits d.exponent := by
  obtain ⟨n, e⟩ := d
  dsimp only at hpos hlength ⊢
  have hdigits := isDigits_digits n
  have hzero := head?_digits hpos
  have hvalue := natOfDigits_digits n
  have hone : 0 < (digits n).length := List.length_pos_iff.mpr hdigits.1
  unfold decimalText
  dsimp only
  -- From here on the digits matter, not the number that they are the digits of.
  generalize digits n = ds at *
  rw [← hvalue]
  by_cases hscientific : e + ds.length - 1 < -5 ∨ 15 < e + ds.length - 1
  · rw [if_pos hscientific]
    by_cases hsingle : ds.length = 1
    · have hexponent : e + ds.length - 1 = e := by omega
      rw [if_pos hsingle, hexponent]
      exact decimalMeans_single hdigits hzero hlength negative e
    · rw [if_neg hsingle]
      exact decimalMeans_scientific hdigits hzero (by omega) hlength negative e
  · rw [if_neg hscientific]
    by_cases hinteger : 0 ≤ e
    · rw [if_pos hinteger]
      obtain ⟨zeros, rfl⟩ := Int.eq_ofNat_of_zero_le hinteger
      rw [Int.toNat_natCast]
      have hshort : ds.length + zeros < maxDigits := by
        rw [maxDigits]
        omega
      exact decimalMeans_integer hdigits hzero hshort negative
    · rw [if_neg hinteger]
      by_cases hpoint : 0 ≤ e + ds.length - 1
      · rw [if_pos hpoint]
        have hexponent : e = ((e + ds.length - 1).toNat + 1 : Nat) - ds.length := by omega
        have hmeans := decimalMeans_pointed hdigits hzero (Nat.succ_pos (e + ds.length - 1).toNat)
          (by omega) hlength negative
        rwa [← hexponent] at hmeans
      · rw [if_neg hpoint]
        have hexponent : e = -((-(e + ds.length - 1) - 1).toNat + ds.length) := by omega
        have hmeans :=
          decimalMeans_fraction hdigits (-(e + ds.length - 1) - 1).toNat hlength negative
        rwa [← hexponent] at hmeans

/-! ### Numbers -/

/-- The text of a real number means it. The shortest decimal of zero has no digits to round. -/
theorem numberMeans_realText (x : Binary64) : NumberMeans (realText x) (.real x) := by
  obtain ⟨negative, rank, finite⟩ := x
  -- Zero has no shortest digits and is written as such.
  rcases Nat.eq_zero_or_pos rank with rfl | hpos
  · have hshortest : decimalText (shortest 0) = ['0', '.', '0'] := by
      simp [shortest, decimalText, digits]
    refine ⟨⟨negative, ['0'], some ['0'], none⟩,
      ⟨.inl rfl, by simpa using isDigits_zero, by simp⟩, ?_, ?_⟩
    · simp [NumberParts.text, realText, hshortest]
    · cases negative <;> rfl
  · have hlength : (digits (shortest rank).digits).length ≤ maxDigits :=
      (Nat.length_toDigits_le_iff (by decide) (by decide)).mpr
        (Binary64.digits_shortest_lt hpos finite)
    obtain ⟨p, hp, htext, hvalue⟩ :=
      decimalMeans_decimalText (Binary64.digits_shortest_pos hpos) hlength negative
    refine ⟨p, hp, htext, ?_⟩
    rw [hvalue, Binary64.decimalRank_shortest hpos, ofRank?, dif_pos finite]
    rfl

/-- **Numbers.** The text of a number is a literal that means the number. -/
theorem numberMeans_text (n : Json.Number) : NumberMeans n.text n := by
  cases n with
  | natural n bound =>
    refine ⟨⟨false, digits n, none, none⟩, ⟨isWhole_digits n, by simp, by simp⟩, ?_, ?_⟩
    · simp [NumberParts.text, Json.Number.text]
    · simp [NumberParts.value?, natOfDigits_digits, integer?, bound]
  | negative magnitude bounds =>
    refine ⟨⟨true, digits magnitude, none, none⟩, ⟨isWhole_digits magnitude, by simp, by simp⟩,
      ?_, ?_⟩
    · simp [NumberParts.text, Json.Number.text]
    · simp [NumberParts.value?, natOfDigits_digits, integer?, bounds]
  | real x => exact numberMeans_realText x

/-- What means a number is spelled as one. -/
theorem NumberMeans.isNumber {raw : List Char} {n : Json.Number} (h : NumberMeans raw n) :
    IsNumber raw := by
  obtain ⟨p, hp, htext, -⟩ := h
  exact ⟨p, hp, htext⟩

end ModelText.Grammar
