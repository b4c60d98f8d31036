import ModelText.Json.Reader
import ModelText.Json.Shortest
import ModelText.Proofs.Rounding

/-!
# The shortest decimal reads back

The decimal that is written for a magnitude rounds to it (`decimalRank_shortest`). For a point of a
grid that is how the search finds it, and the exact decimal has the units of the magnitude for its
value. No decimal has more digits than the reader takes as they stand (`digits_shortest_lt`): a point
of a grid because the grid begins near the leading digit, the exact decimal because the powers of two
in its units end it with zeros, which are dropped.
-/

namespace ModelText

namespace Decimal

/-- Dropping zeros at the end of the digits does not change the rank. -/
theorem decimalRank_trim (fuel : Nat) (d : Decimal) :
    Binary64.decimalRank (trim fuel d).digits (trim fuel d).exponent =
      Binary64.decimalRank d.digits d.exponent := by
  induction fuel generalizing d with
  | zero => rfl
  | succ fuel ih =>
    rw [trim]
    split
    · next h =>
      have hdigits : d.digits / 10 * 10 ^ 1 = d.digits := by omega
      have hexponent : d.exponent + 1 - (1 : Nat) = d.exponent := by omega
      have hsame := Binary64.decimalRank_mul_pow (d.digits / 10) 1 (d.exponent + 1)
      rw [hdigits, hexponent] at hsame
      rw [ih, hsame]
    · rfl

/-- Trimming makes digits fewer, if anything. -/
theorem trim_digits_le (fuel : Nat) (d : Decimal) : (trim fuel d).digits ≤ d.digits := by
  -- By induction on the fuel.
  induction fuel generalizing d with
  | zero => exact Nat.le_refl _
  | succ fuel ih =>
    rw [trim]
    split
    · exact Nat.le_trans (ih _) (Nat.div_le_self _ _)
    · exact Nat.le_refl _

/-- As many zeros as there are at the end of the digits are dropped, if the fuel lasts. -/
theorem trim_digits_mul_le {k fuel : Nat} {d : Decimal} (hd : d.digits ≠ 0) (hfuel : k ≤ fuel)
    (hdvd : 10 ^ k ∣ d.digits) : (trim fuel d).digits * 10 ^ k ≤ d.digits := by
  -- By induction on the zeros, each of which costs one unit of fuel.
  induction k generalizing fuel d with
  | zero =>
    rw [Nat.pow_zero, Nat.mul_one]
    exact trim_digits_le fuel d
  | succ k ih =>
    obtain _ | fuel := fuel
    · omega
    · obtain ⟨m, hm⟩ := hdvd
      have hten : d.digits = 10 * (10 ^ k * m) := by
        rw [hm, Nat.pow_succ, Nat.mul_comm (10 ^ k) 10, Nat.mul_assoc]
      have hdiv : d.digits / 10 = 10 ^ k * m := by omega
      have hle : (trim fuel ⟨d.digits / 10, d.exponent + 1⟩).digits * 10 ^ k ≤ d.digits / 10 :=
        ih (by dsimp only; omega) (by omega) ⟨m, hdiv⟩
      rw [trim, if_pos ⟨hd, by omega⟩, Nat.pow_succ, ← Nat.mul_assoc]
      omega

end Decimal

namespace Binary64

open Json.Reader (maxDigits)

/-! ### Grids -/

/-- A decimal that is found on a grid is read back as the number, and has the digits that the grid allows.
-/
theorem onGrid_eq_some {rank n : Nat} {d : Decimal} (h : onGrid rank n = some d) :
    decimalRank d.digits d.exponent = rank ∧
      d.digits ≤ (scaled rank (n - leadingPower rank)).1 /
        (scaled rank (n - leadingPower rank)).2 + 1 := by
  unfold onGrid at h
  dsimp only at h
  -- Whichever neighbour is tried first, the one that is found has been read back.
  split at h
  all_goals
    split at h
    · next hreads =>
      cases h
      exact ⟨beq_iff_eq.mp hreads, by dsimp only; omega⟩
    · split at h
      · next hreads =>
        cases h
        exact ⟨beq_iff_eq.mp hreads, by dsimp only; omega⟩
      · cases h

/-- The first digit of a number is never further down than that of the least one. -/
theorem le_leadingPower (rank : Nat) : -325 ≤ leadingPower rank := by
  unfold leadingPower
  dsimp only
  split
  · omega
  · split <;> omega

/-- Ranks below those of a shift have units below its powers of two. -/
theorem units_lt {rank shift : Nat} (h : rank < (shift + 1) * 2 ^ 52) :
    units rank < 2 ^ 52 * 2 ^ shift := by
  -- Below the normal ranks the units are the rank. Above them the significand fits under the next
  -- power of two, and the shift is a smaller one.
  rcases rank_cases rank with hrank | ⟨shift', fraction, hfraction, rfl⟩
  · rw [units_of_lt hrank]
    calc rank < 2 ^ 52 := hrank
      _ ≤ 2 ^ 52 * 2 ^ shift := Nat.le_mul_of_pos_right _ (Nat.two_pow_pos shift)
  · rw [units_add hfraction]
    have hshift : shift' + 1 ≤ shift := by omega
    have hdouble : 2 ^ 53 = 2 ^ 52 * 2 := by decide
    calc (2 ^ 52 + fraction) * 2 ^ shift' < 2 ^ 53 * 2 ^ shift' :=
          Nat.mul_lt_mul_of_pos_right (by omega) (Nat.two_pow_pos shift')
      _ = 2 ^ 52 * 2 ^ (shift' + 1) := by
          rw [hdouble, Nat.mul_assoc, Nat.pow_succ 2 shift', Nat.mul_comm (2 ^ shift') 2]
      _ ≤ 2 ^ 52 * 2 ^ shift := Nat.mul_le_mul_left _ (Nat.pow_le_pow_right (by decide) hshift)

/-- A magnitude below `bound` has at most so many digits before the point of a grid. -/
theorem scaled_div_lt {rank bound places : Nat} {scale : Int}
    (h : units rank < bound * Nat.pow 2 1074) (hscale : scale.toNat ≤ places) :
    (scaled rank scale).1 / (scaled rank scale).2 < bound * 10 ^ places := by
  have hone : 0 < Nat.pow 2 1074 := by decide +kernel
  unfold scaled
  dsimp only
  -- Only the sign of the scale and the bound matter from here on.
  generalize Nat.pow 2 1074 = one at *
  simp only [Nat.pow_eq]
  have hden : 0 < one * 10 ^ (-scale).toNat := Nat.mul_pos hone (Nat.pow_pos (by decide))
  rw [Nat.div_lt_iff_lt_mul hden]
  calc units rank * 10 ^ scale.toNat
      < bound * one * 10 ^ scale.toNat :=
        Nat.mul_lt_mul_of_pos_right h (Nat.pow_pos (by decide))
    _ ≤ bound * one * 10 ^ places :=
        Nat.mul_le_mul_left _ (Nat.pow_le_pow_right (by decide) hscale)
    _ = bound * 10 ^ places * one := Nat.mul_right_comm _ _ _
    _ ≤ bound * 10 ^ places * (one * 10 ^ (-scale).toNat) :=
        Nat.mul_le_mul_left _ (Nat.le_mul_of_pos_right _ (Nat.pow_pos (by decide)))

/-- A grid of up to 17 digits has its numbers below the bound on what the reader takes. -/
theorem digits_onGrid_lt {rank n : Nat} {d : Decimal} (h : rank < infiniteRank) (hn : n < 17)
    (hd : onGrid rank n = some d) : d.digits < 10 ^ maxDigits := by
  obtain ⟨-, hle⟩ := onGrid_eq_some hd
  have hpower := le_leadingPower rank
  have hscale : (n - leadingPower rank : Int).toNat ≤ 341 := by omega
  have hinfinite : infiniteRank = (2046 + 1) * 2 ^ 52 := by decide
  have htop : 2 ^ 52 * 2 ^ 2046 ≤ 2 ^ 1024 * Nat.pow 2 1074 := by decide +kernel
  have hbound : 2 ^ 1024 * 10 ^ 341 + 1 ≤ 10 ^ maxDigits := by decide +kernel
  have hunits := Nat.lt_of_lt_of_le (units_lt (hinfinite ▸ h)) htop
  have hdiv := scaled_div_lt hunits hscale
  exact Nat.lt_of_le_of_lt hle (Nat.lt_of_lt_of_le (Nat.add_lt_add_right hdiv 1) hbound)

/-! ### The exact decimal -/

/-- The exact decimal is read back as the number. -/
theorem decimalRank_exact (rank : Nat) :
    decimalRank (exact rank).digits (exact rank).exponent = rank := by
  have hnum : Nat.pow 10 (-1074 : Int).toNat = 1 := by decide +kernel
  -- A power of ten is one of five and one of two, and the one of two is the unit.
  have hden : Nat.pow 10 (- -1074 : Int).toNat = Nat.pow 5 1074 * Nat.pow 2 1074 := by
    decide +kernel
  have hpos : 0 < Nat.pow 5 1074 * Nat.pow 2 1074 := by decide +kernel
  unfold decimalRank exact
  dsimp only
  rw [hnum, hden, Nat.mul_one, Nat.mul_assoc]
  exact nearest_units_mul rank hpos

/-- A number that is not zero has units. -/
theorem units_pos {rank : Nat} (h : 0 < rank) : 0 < units rank := by
  have hlt := units_lt_succ (rank - 1)
  rw [Nat.sub_add_cancel h] at hlt
  omega

/-- What is left of the digits of an exact decimal when zeros at their end have been dropped: `five`
is the power of five in them, `fuel` a bound on the zeros. -/
theorem trimmed_lt {rank shift five limit fuel t : Nat} (h : rank < (shift + 1) * 2 ^ 52)
    (hfive : 0 < five) (hdvd : 5 ^ fuel ∣ five) (hsmall : 2 ^ 53 * five ≤ limit)
    (hlarge : 2 ^ 52 * 2 ^ shift * five ≤ limit * 10 ^ fuel)
    (htrim : ∀ k ≤ fuel, 10 ^ k ∣ units rank * five → t * 10 ^ k ≤ units rank * five) :
    t < limit := by
  have hunits := units_lt h
  rcases rank_cases rank with hrank | ⟨zeros, fraction, hfraction, rfl⟩
  · have hle := htrim 0 (Nat.zero_le _) (Nat.one_dvd _)
    rw [units_of_lt hrank, Nat.pow_zero, Nat.mul_one] at hle
    calc t ≤ rank * five := hle
      _ < 2 ^ 53 * five := Nat.mul_lt_mul_of_pos_right (by omega) hfive
      _ ≤ limit := hsmall
  · rw [units_add hfraction] at htrim hunits
    have hten : ∀ k ≤ zeros, k ≤ fuel → 10 ^ k ∣ (2 ^ 52 + fraction) * 2 ^ zeros * five := by
      intro k hzeros hk
      rw [show 10 = 2 * 5 from rfl, Nat.mul_pow]
      exact Nat.mul_dvd_mul (Nat.dvd_mul_left_of_dvd (Nat.pow_dvd_pow 2 hzeros) _)
        (Nat.dvd_trans (Nat.pow_dvd_pow 5 hk) hdvd)
    rcases Nat.le_total zeros fuel with hzeros | hzeros
    · -- All powers of two in the units become zeros at the end.
      have hle := htrim zeros hzeros (hten zeros (Nat.le_refl _) hzeros)
      have hsignificand : (2 ^ 52 + fraction) * five < 2 ^ 53 * five :=
        Nat.mul_lt_mul_of_pos_right (by omega) hfive
      refine Nat.lt_of_lt_of_le (Nat.lt_of_le_of_lt ?_ hsignificand) hsmall
      refine Nat.le_of_mul_le_mul_right ?_ (Nat.two_pow_pos zeros)
      calc t * 2 ^ zeros ≤ t * 10 ^ zeros :=
            Nat.mul_le_mul_left _ (Nat.pow_le_pow_left (by decide) _)
        _ ≤ (2 ^ 52 + fraction) * 2 ^ zeros * five := hle
        _ = (2 ^ 52 + fraction) * five * 2 ^ zeros := Nat.mul_right_comm _ _ _
    · -- There are more powers of two than fuel, which makes up for them.
      have hle := htrim fuel (Nat.le_refl _) (hten fuel hzeros (Nat.le_refl _))
      refine Nat.lt_of_mul_lt_mul_right (a := 10 ^ fuel) ?_
      calc t * 10 ^ fuel ≤ (2 ^ 52 + fraction) * 2 ^ zeros * five := hle
        _ < 2 ^ 52 * 2 ^ shift * five := Nat.mul_lt_mul_of_pos_right hunits hfive
        _ ≤ limit * 10 ^ fuel := hlarge

/-- The exact decimal without the zeros at its end is below the bound on what the reader takes. -/
theorem digits_trim_exact_lt {rank : Nat} (hpos : 0 < rank) (h : rank < infiniteRank) :
    (Decimal.trim 800 (exact rank)).digits < 10 ^ maxDigits := by
  have hinfinite : infiniteRank = (2046 + 1) * 2 ^ 52 := by decide
  have hfive : 0 < Nat.pow 5 1074 := by decide +kernel
  have hdvd : 5 ^ 800 ∣ Nat.pow 5 1074 := by decide +kernel
  have hsmall : 2 ^ 53 * Nat.pow 5 1074 ≤ 10 ^ maxDigits := by decide +kernel
  have hlarge : 2 ^ 52 * 2 ^ 2046 * Nat.pow 5 1074 ≤ 10 ^ maxDigits * 10 ^ 800 := by decide +kernel
  have hne : (exact rank).digits ≠ 0 := by
    unfold exact
    dsimp only
    exact Nat.mul_ne_zero (Nat.ne_of_gt (units_pos hpos)) (Nat.ne_of_gt hfive)
  have htrim := fun k (hk : k ≤ 800) => Decimal.trim_digits_mul_le (k := k) hne hk
  generalize (Decimal.trim 800 (exact rank)).digits = t at htrim ⊢
  unfold exact at htrim
  dsimp only at htrim
  exact trimmed_lt (hinfinite ▸ h) hfive hdvd hsmall hlarge htrim

/-! ### The shortest decimal -/

/-- The shortest decimal is the first that a grid gives, or else the exact one, trimmed. -/
theorem shortest_cases {rank : Nat} (h : 0 < rank) :
    (∃ n < 17, ∃ d, onGrid rank n = some d ∧ shortest rank = Decimal.trim 800 d) ∨
      shortest rank = Decimal.trim 800 (exact rank) := by
  unfold shortest
  rw [if_neg (Nat.ne_of_gt h)]
  cases hfind : (List.range 17).findSome? (onGrid rank) with
  | none => exact .inr rfl
  | some d =>
    obtain ⟨n, hn, hd⟩ := List.exists_of_findSome?_eq_some hfind
    exact .inl ⟨n, List.mem_range.mp hn, d, hd, rfl⟩

/-- **Reading back.** The decimal that is written for a magnitude rounds to it. -/
theorem decimalRank_shortest {rank : Nat} (h : 0 < rank) :
    decimalRank (shortest rank).digits (shortest rank).exponent = rank := by
  rcases shortest_cases h with ⟨n, -, d, hd, heq⟩ | heq
  · rw [heq, Decimal.decimalRank_trim]
    exact (onGrid_eq_some hd).1
  · rw [heq, Decimal.decimalRank_trim, decimalRank_exact]

/-- It has no more digits than a number is allowed. -/
theorem digits_shortest_lt {rank : Nat} (hpos : 0 < rank) (h : rank < infiniteRank) :
    (shortest rank).digits < 10 ^ maxDigits := by
  rcases shortest_cases hpos with ⟨n, hn, d, hd, heq⟩ | heq
  · rw [heq]
    exact Nat.lt_of_le_of_lt (Decimal.trim_digits_le 800 d) (digits_onGrid_lt h hn hd)
  · rw [heq]
    exact digits_trim_exact_lt hpos h

/-- It has a digit that is not zero. -/
theorem digits_shortest_pos {rank : Nat} (h : 0 < rank) : 0 < (shortest rank).digits := by
  -- Without digits the decimal would be read as zero.
  refine Nat.pos_of_ne_zero fun hzero => ?_
  have hrank := decimalRank_shortest h
  rw [hzero, decimalRank_zero] at hrank
  omega

end Binary64

end ModelText
