/-!
# Finite binary floating-point numbers

A number of this format is a sign and a magnitude. The finite magnitudes, in ascending order from
zero, are numbered without gaps (`Binary64.rank`), and every one of them is a whole multiple of the
smallest positive one, `2 ^ -1074`. That multiple is `units rank`: it equals the rank up to `2 ^ 53`
and then doubles its step every `2 ^ 52` ranks.

Rounding is therefore a question about natural numbers: which rank has units nearest to a given
fraction (`nearest`, ties to the even rank), and the even rank is the one with the even
significand. A decimal number is rounded once, from its exact value (`ofDecimal`).
-/

namespace ModelText

namespace Binary64

/-- The rank that the first infinite magnitude would have. -/
def infiniteRank : Nat := 2047 * Nat.pow 2 52

/-- The magnitude of a rank in multiples of `2 ^ -1074`. -/
def units (rank : Nat) : Nat :=
  let shift := rank / Nat.pow 2 52 - 1
  (rank - shift * Nat.pow 2 52) * Nat.pow 2 shift

/-- The largest rank whose units are at most `n`. -/
def rankBelow (n : Nat) : Nat :=
  let shift := Nat.log2 n - 52
  shift * Nat.pow 2 52 + n / Nat.pow 2 shift

/-- The rank with units nearest to `num / den`; halfway, the even one of the two neighbours. -/
def nearest (num den : Nat) : Nat :=
  let low := rankBelow (num / den)
  let twice := 2 * num
  let middle := den * (units low + units (low + 1))
  if twice < middle then low
  else if middle < twice then low + 1
  else if low % 2 = 0 then low
  else low + 1

end Binary64

/-- A finite number: its sign, which zero has too, and the rank of its magnitude. -/
structure Binary64 where
  negative : Bool
  rank : Nat
  finite : rank < Binary64.infiniteRank
deriving DecidableEq, Repr

namespace Binary64

/-- Zero, with a sign. -/
def zero (negative : Bool) : Binary64 :=
  ⟨negative, 0, by decide⟩

/-- The number with a sign and a rank, unless the rank is beyond the finite ones. -/
def ofRank? (negative : Bool) (rank : Nat) : Option Binary64 :=
  if finite : rank < infiniteRank then some ⟨negative, rank, finite⟩ else none

/-- The rank nearest to `digits * 10 ^ exponent`. -/
def decimalRank (digits : Nat) (exponent : Int) : Nat :=
  nearest (digits * Nat.pow 10 exponent.toNat * Nat.pow 2 1074) (Nat.pow 10 (-exponent).toNat)

/-- The number nearest to `digits * 10 ^ exponent`, or `none` if that is beyond the finite ones.
Exponents that decide the answer alone are not worked out. -/
def ofDecimal (negative : Bool) (digits : Nat) (exponent : Int) : Option Binary64 :=
  if digits = 0 then some (zero negative)
  else if 310 < exponent then none
  else if exponent + (Nat.log2 digits / 3 + 1 : Nat) < -330 then some (zero negative)
  else ofRank? negative (decimalRank digits exponent)

/-- Whether two numbers are equal in value: the two zeros are. -/
def sameValue (x y : Binary64) : Bool :=
  x.rank == y.rank && (x.negative == y.negative || x.rank == 0)

end Binary64

end ModelText
