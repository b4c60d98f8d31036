import Mathlib.Algebra.Group.Nat.Defs
import ModelText.Json.Binary64

/-!
# Rounding to a finite number

Facts on `nearest`, which rounds a fraction to a rank. It depends on the fraction and not on how the
fraction is written (`nearest_congr`), and the units of a rank round to that rank
(`nearest_units_mul`). So the rank of a decimal number does not change when zeros are moved between
its digits and its exponent (`decimalRank_mul_pow`). The exponents for which the reader does not work
out a rank are those for which the rank is zero or beyond the finite ones, so it always gives the
number of that rank (`ofDecimal_eq`).
-/

namespace ModelText.Binary64

/-! ### Units -/

theorem units_of_lt {rank : Nat} (h : rank < 2 ^ 52) : units rank = rank := by
  have hshift : rank / 2 ^ 52 - 1 = 0 := by rw [Nat.div_eq_of_lt h]
  simp only [units, Nat.pow_eq, hshift, Nat.zero_mul, Nat.sub_zero, Nat.pow_zero, Nat.mul_one]

theorem units_add {shift fraction : Nat} (h : fraction < 2 ^ 52) :
    units ((shift + 1) * 2 ^ 52 + fraction) = (2 ^ 52 + fraction) * 2 ^ shift := by
  have hshift : ((shift + 1) * 2 ^ 52 + fraction) / 2 ^ 52 - 1 = shift := by
    rw [Nat.mul_comm, Nat.mul_add_div (Nat.two_pow_pos 52), Nat.div_eq_of_lt h]
    rfl
  have hrest : (shift + 1) * 2 ^ 52 + fraction - shift * 2 ^ 52 = 2 ^ 52 + fraction := by
    rw [Nat.add_mul]
    omega
  simp only [units, Nat.pow_eq, hshift, hrest]

/-- A rank is that of a magnitude below the normal ones, or a shift and the fraction of a
significand. -/
theorem rank_cases (rank : Nat) :
    rank < 2 ^ 52 ∨
      ∃ shift fraction, fraction < 2 ^ 52 ∧ rank = (shift + 1) * 2 ^ 52 + fraction := by
  rcases Nat.lt_or_ge rank (2 ^ 52) with h | h
  · exact .inl h
  · refine .inr ⟨rank / 2 ^ 52 - 1, rank % 2 ^ 52, Nat.mod_lt _ (Nat.two_pow_pos 52), ?_⟩
    have hpos : 1 ≤ rank / 2 ^ 52 := Nat.div_pos h (Nat.two_pow_pos 52)
    rw [Nat.sub_add_cancel hpos, Nat.mul_comm]
    exact (Nat.div_add_mod rank (2 ^ 52)).symm

theorem units_lt_succ (rank : Nat) : units rank < units (rank + 1) := by
  rcases rank_cases rank with h | ⟨shift, fraction, h, rfl⟩
  · rw [units_of_lt h]
    -- The next rank may be the first of the normal ones.
    rcases Nat.lt_or_ge (rank + 1) (2 ^ 52) with h' | h'
    · rw [units_of_lt h']
      exact Nat.lt_succ_self rank
    · have hrank : rank + 1 = (0 + 1) * 2 ^ 52 + 0 := by omega
      rw [hrank, units_add (Nat.two_pow_pos 52)]
      omega
  · rw [units_add h]
    -- The next rank has the next fraction, or the next shift and no fraction.
    rcases Nat.lt_or_ge (fraction + 1) (2 ^ 52) with h' | h'
    · rw [Nat.add_assoc, units_add h']
      exact Nat.mul_lt_mul_of_pos_right (by omega) (Nat.two_pow_pos shift)
    · have hrank : (shift + 1) * 2 ^ 52 + fraction + 1 = (shift + 1 + 1) * 2 ^ 52 + 0 := by
        rw [Nat.add_mul (shift + 1) 1]
        omega
      have hnext : (2 ^ 52 + 0) * 2 ^ (shift + 1) = 2 ^ 53 * 2 ^ shift := by
        rw [Nat.add_zero, ← Nat.pow_add, ← Nat.pow_add]
        exact congrArg (2 ^ ·) (by omega)
      rw [hrank, units_add (Nat.two_pow_pos 52), hnext]
      exact Nat.mul_lt_mul_of_pos_right (by omega) (Nat.two_pow_pos shift)

theorem rankBelow_units (rank : Nat) : rankBelow (units rank) = rank := by
  rcases rank_cases rank with h | ⟨shift, fraction, h, rfl⟩
  · rw [units_of_lt h]
    have hlog : Nat.log2 rank - 52 = 0 := by
      rcases Nat.eq_zero_or_pos rank with rfl | hpos
      · rw [Nat.log2_zero]
      · have hlt := (Nat.log2_lt (Nat.ne_of_gt hpos)).mpr h
        omega
    simp only [rankBelow, Nat.pow_eq, hlog, Nat.zero_mul, Nat.pow_zero, Nat.div_one, Nat.zero_add]
  · rw [units_add h]
    have hpos := Nat.two_pow_pos shift
    -- A normal magnitude has 53 significant bits, so its logarithm gives the shift.
    have hlog : Nat.log2 ((2 ^ 52 + fraction) * 2 ^ shift) = 52 + shift := by
      have hne : (2 ^ 52 + fraction) * 2 ^ shift ≠ 0 :=
        Nat.mul_ne_zero (by omega) (Nat.ne_of_gt hpos)
      refine (Nat.log2_eq_iff hne).mpr ⟨?_, ?_⟩
      · rw [Nat.pow_add]
        exact Nat.mul_le_mul_right _ (Nat.le_add_right _ _)
      · rw [Nat.add_right_comm, Nat.pow_add]
        exact Nat.mul_lt_mul_of_pos_right (by omega) hpos
    simp only [rankBelow, Nat.pow_eq, hlog, Nat.add_sub_cancel_left,
      Nat.mul_div_cancel _ hpos]
    rw [Nat.add_mul]
    omega

theorem units_zero : units 0 = 0 :=
  units_of_lt (Nat.two_pow_pos 52)

/-- A magnitude of enough bits is beyond the finite ones. -/
theorem infiniteRank_le_rankBelow {n : Nat} (h : 2098 ≤ Nat.log2 n) :
    infiniteRank ≤ rankBelow n := by
  have hn : n ≠ 0 := by
    rintro rfl
    rw [Nat.log2_zero] at h
    omega
  have hdiv : 2 ^ 52 ≤ n / 2 ^ (Nat.log2 n - 52) := by
    rw [Nat.le_div_iff_mul_le (Nat.two_pow_pos _), ← Nat.pow_add, Nat.add_sub_cancel' (by omega)]
    exact Nat.log2_self_le hn
  have hmul : 2046 * 2 ^ 52 ≤ (Nat.log2 n - 52) * 2 ^ 52 := Nat.mul_le_mul_right _ (by omega)
  simp only [infiniteRank, rankBelow, Nat.pow_eq]
  omega

/-! ### Rounding -/

/-- Rounding depends on the value of a fraction only. -/
theorem nearest_congr {num den num' den' : Nat} (hden : 0 < den) (hden' : 0 < den')
    (h : num * den' = num' * den) : nearest num den = nearest num' den' := by
  have hdiv : num / den = num' / den' := by
    rw [← Nat.mul_div_mul_right num den hden', h, Nat.mul_comm den den',
      Nat.mul_div_mul_right num' den' hden]
  -- The fraction is compared with the middle of two ranks by products, which scale with it.
  have hcompare : ∀ m, (2 * num < den * m ↔ 2 * num' < den' * m) ∧
      (den * m < 2 * num ↔ den' * m < 2 * num') := by
    intro m
    have hscale : 2 * num * den' = 2 * num' * den := by rw [Nat.mul_assoc, h, Nat.mul_assoc]
    have hmiddle : den * m * den' = den' * m * den := by
      rw [Nat.mul_right_comm, Nat.mul_comm den den', Nat.mul_right_comm]
    constructor
    · rw [← Nat.mul_lt_mul_right hden', hscale, hmiddle, Nat.mul_lt_mul_right hden]
    · rw [← Nat.mul_lt_mul_right hden', hscale, hmiddle, Nat.mul_lt_mul_right hden]
  unfold nearest
  simp only [hdiv, hcompare]

/-- The units of a rank round to it. -/
theorem nearest_units_mul (rank : Nat) {den : Nat} (hden : 0 < den) :
    nearest (units rank * den) den = rank := by
  have hlt : 2 * (units rank * den) < den * (units rank + units (rank + 1)) := by
    rw [← Nat.mul_assoc, Nat.mul_comm]
    exact Nat.mul_lt_mul_of_pos_left (by have := units_lt_succ rank; omega) hden
  unfold nearest
  simp only [Nat.mul_div_cancel _ hden, rankBelow_units, hlt, if_true]

theorem rankBelow_le_nearest (num den : Nat) : rankBelow (num / den) ≤ nearest num den := by
  unfold nearest
  dsimp only
  split
  · exact Nat.le_refl _
  · split
    · exact Nat.le_succ _
    · split
      · exact Nat.le_refl _
      · exact Nat.le_succ _

/-- Less than half of the smallest positive magnitude rounds to zero. -/
theorem nearest_eq_zero {num den : Nat} (h : 2 * num < den) : nearest num den = 0 := by
  have hdiv : num / den = 0 := Nat.div_eq_of_lt (by omega)
  have hlow : rankBelow 0 = 0 := units_zero ▸ rankBelow_units 0
  have hone : units (0 + 1) = 1 := units_of_lt (by decide)
  unfold nearest
  simp only [hdiv, hlow, units_zero, hone, Nat.zero_add, Nat.mul_one, h, if_true]

/-! ### Decimal numbers -/

/-- Zeros may stand among the digits or in the exponent. -/
theorem decimalRank_mul_pow (n k : Nat) (e : Int) :
    decimalRank (n * 10 ^ k) (e - k) = decimalRank n e := by
  unfold decimalRank
  -- As a variable the scale is not evaluated.
  generalize Nat.pow 2 1074 = scale
  simp only [Nat.pow_eq]
  refine nearest_congr (Nat.pow_pos (by decide)) (Nat.pow_pos (by decide)) ?_
  have hexp : k + (e - k).toNat + (-e).toNat = e.toNat + (-(e - k)).toNat := by omega
  calc n * 10 ^ k * 10 ^ (e - k).toNat * scale * 10 ^ (-e).toNat
      = n * scale * 10 ^ (k + (e - k).toNat + (-e).toNat) := by
        rw [Nat.pow_add, Nat.pow_add]
        ac_rfl
    _ = n * 10 ^ e.toNat * scale * 10 ^ (-(e - k)).toNat := by
        rw [hexp, Nat.pow_add]
        ac_rfl

theorem decimalRank_zero (e : Int) : decimalRank 0 e = 0 := by
  unfold decimalRank
  generalize Nat.pow 2 1074 = scale
  rw [Nat.zero_mul, Nat.zero_mul]
  exact nearest_eq_zero (Nat.pow_pos (by decide))

theorem ofRank?_zero (negative : Bool) : ofRank? negative 0 = some (zero negative) := rfl

/-- A positive number times a large power of ten is beyond the finite ones. -/
theorem infiniteRank_le_decimalRank {n : Nat} (hn : n ≠ 0) {e : Int} (he : 310 < e) :
    infiniteRank ≤ decimalRank n e := by
  have hlarge : 2 ^ 1024 ≤ n * 10 ^ e.toNat := by
    calc 2 ^ 1024 ≤ 10 ^ 311 := by decide +kernel
      _ ≤ 10 ^ e.toNat := Nat.pow_le_pow_right (by decide) (by omega)
      _ ≤ n * 10 ^ e.toNat := Nat.le_mul_of_pos_left _ (Nat.pos_of_ne_zero hn)
  have hnum : 2 ^ 2098 ≤ n * 10 ^ e.toNat * Nat.pow 2 1074 := by
    calc 2 ^ 2098 = 2 ^ 1024 * Nat.pow 2 1074 := by decide +kernel
      _ ≤ n * 10 ^ e.toNat * Nat.pow 2 1074 := Nat.mul_le_mul_right _ hlarge
  have hone : Nat.pow 2 1074 ≠ 0 := by decide +kernel
  have hne : n * 10 ^ e.toNat * Nat.pow 2 1074 ≠ 0 :=
    Nat.mul_ne_zero (Nat.mul_ne_zero hn (Nat.ne_of_gt (Nat.pow_pos (by decide)))) hone
  have hden : Nat.pow 10 (-e).toNat = 1 := by
    rw [show (-e).toNat = 0 by omega]
  have hlog : ∀ k, 2 ^ k ≤ n * 10 ^ e.toNat * Nat.pow 2 1074 →
      k ≤ Nat.log2 (n * 10 ^ e.toNat * Nat.pow 2 1074) := fun _ => (Nat.le_log2 hne).mpr
  refine Nat.le_trans (infiniteRank_le_rankBelow ?_) (rankBelow_le_nearest _ _)
  rw [hden, Nat.div_one]
  exact hlog 2098 hnum

/-- A binary digit takes less than a third of a decimal one. -/
theorem lt_pow_log2 (n : Nat) : n < 10 ^ (Nat.log2 n / 3 + 1) := by
  calc n < 2 ^ (Nat.log2 n + 1) := Nat.lt_log2_self
    _ ≤ 2 ^ (3 * (Nat.log2 n / 3 + 1)) := Nat.pow_le_pow_right (by decide) (by omega)
    _ = 8 ^ (Nat.log2 n / 3 + 1) := by rw [Nat.pow_mul]
    _ ≤ 10 ^ (Nat.log2 n / 3 + 1) := Nat.pow_le_pow_left (by decide) _

/-- A number so small that its exponent shows it rounds to zero. -/
theorem decimalRank_eq_zero {n : Nat} {e : Int}
    (he : e + (Nat.log2 n / 3 + 1 : Nat) < -330) : decimalRank n e = 0 := by
  have hnum : Nat.pow 10 e.toNat = 1 := by
    rw [show e.toNat = 0 by omega]
  -- The power of ten is named, so that only this comparison evaluates it.
  obtain ⟨k, hk, hhalf⟩ : ∃ k ≤ 331, 2 * Nat.pow 2 1074 < 10 ^ k :=
    ⟨331, Nat.le_refl _, by decide +kernel⟩
  unfold decimalRank
  rw [hnum, Nat.mul_one]
  refine nearest_eq_zero ?_
  generalize Nat.pow 2 1074 = scale at hhalf ⊢
  calc 2 * (n * scale) = n * (2 * scale) := by ac_rfl
    _ < 10 ^ (Nat.log2 n / 3 + 1) * 10 ^ k :=
      Nat.mul_lt_mul_of_lt_of_lt (lt_pow_log2 n) hhalf
    _ = 10 ^ (Nat.log2 n / 3 + 1 + k) := (Nat.pow_add _ _ _).symm
    _ ≤ 10 ^ (-e).toNat := Nat.pow_le_pow_right (by decide) (by omega)

/-- **Reading decimals.** The number that a decimal is read as is the one of its rank. -/
theorem ofDecimal_eq (negative : Bool) (n : Nat) (e : Int) :
    ofDecimal negative n e = ofRank? negative (decimalRank n e) := by
  unfold ofDecimal
  split
  · next hn => rw [hn, decimalRank_zero, ofRank?_zero]
  · next hn =>
    split
    · next he =>
      rw [ofRank?, dif_neg (Nat.not_lt.mpr (infiniteRank_le_decimalRank hn he))]
    · split
      · next he => rw [decimalRank_eq_zero he, ofRank?_zero]
      · rfl

end ModelText.Binary64
