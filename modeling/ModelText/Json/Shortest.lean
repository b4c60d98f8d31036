import ModelText.Json.Binary64

/-!
# The shortest decimal of a number

Many decimals round to the same number. The one that is written has the fewest digits, and of those
with the fewest the one nearest to the number; of two that are equally near, the one with an even
last digit.

The search goes over decimal grids, from one significant digit up (`onGrid`). If any point of a grid
rounds to the number then one of the number's two neighbours on the grid does, so only these are
tried. Trying a point means to round it back, so whatever is found reads as the number it was found
for. The exact decimal stands behind the search for a definition without gaps.
-/

namespace ModelText

/-- A decimal number `digits * 10 ^ exponent`. -/
structure Decimal where
  digits : Nat
  exponent : Int
deriving DecidableEq, Repr

namespace Decimal

/-- The same number without zeros at the end of its digits, with at most `fuel` of them dropped. -/
def trim : Nat → Decimal → Decimal
  | 0, d => d
  | fuel + 1, d =>
    if d.digits ≠ 0 ∧ d.digits % 10 = 0 then trim fuel ⟨d.digits / 10, d.exponent + 1⟩ else d

end Decimal

namespace Binary64

/-- The numerator and denominator of a magnitude that is multiplied by `10 ^ scale`. -/
def scaled (rank : Nat) (scale : Int) : Nat × Nat :=
  (units rank * Nat.pow 10 scale.toNat, Nat.pow 2 1074 * Nat.pow 10 (-scale).toNat)

/-- The largest `e` with `10 ^ e` at most the magnitude: an estimate that is never too high,
raised as long as it is too low. -/
def leadingPower (rank : Nat) : Int :=
  let estimate : Int := ((Nat.log2 (units rank) : Int) - 1074) * 30103 / 100000 - 1
  let fits (e : Int) : Bool :=
    let (num, den) := scaled rank (-e)
    den ≤ num
  if fits (estimate + 2) then estimate + 2
  else if fits (estimate + 1) then estimate + 1
  else estimate

/-- The decimal with `n + 1` significant digits that reads as the magnitude and is nearest to it, if
there is one. -/
def onGrid (rank : Nat) (n : Nat) : Option Decimal :=
  let scale : Int := n - leadingPower rank
  let (num, den) := scaled rank scale
  let low := num / den
  let reads (digits : Nat) : Bool := decimalRank digits (-scale) == rank
  let lowNearer : Bool :=
    2 * (num % den) < den || (2 * (num % den) == den && low % 2 == 0)
  let first := if lowNearer then low else low + 1
  let second := if lowNearer then low + 1 else low
  if reads first then some ⟨first, -scale⟩
  else if reads second then some ⟨second, -scale⟩
  else none

/-- The magnitude written out in full. -/
def exact (rank : Nat) : Decimal :=
  ⟨units rank * Nat.pow 5 1074, -1074⟩

/-- The decimal with the fewest digits that reads as the magnitude, and the nearest of those. -/
def shortest (rank : Nat) : Decimal :=
  if rank = 0 then ⟨0, 0⟩
  else Decimal.trim 800 (((List.range 17).findSome? (onGrid rank)).getD (exact rank))

end Binary64

end ModelText
