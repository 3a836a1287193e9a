/-!
# Shortest decimals

A binary floating-point number stands for the reals that round to it.  Among the decimals in that
interval `Binary.shortest` picks one with the fewest digits, and among those the nearest.

A grid is the set of multiples of a power of ten.  If any point of a grid lies in the interval, then
one of the two neighbours of the number itself does; so it is enough to look at those two, on finer
and finer grids.  Seventeen digits always suffice for a number of 53 bits.
-/

namespace StackCode

/-- The decimal number `digits * 10 ^ exponent`. -/
structure Decimal where
  digits : Nat
  exponent : Int
deriving DecidableEq

/-- A positive number `significand * 2 ^ exponent` in a binary format. -/
structure Binary where
  significand : Nat
  exponent : Int
  /-- The next smaller number of the format is only half as far away as the next larger one. -/
  isNarrowBelow : Bool
deriving DecidableEq

namespace Binary

/-! Lengths are measured in quarters of the distance to the next larger number, so that the number
and both ends of its interval are whole. -/

def quarters (x : Binary) : Nat := 4 * x.significand

/-- The lower end of the interval. -/
def lowQuarters (x : Binary) : Nat := x.quarters - if x.isNarrowBelow then 1 else 2

/-- The upper end of the interval. -/
def highQuarters (x : Binary) : Nat := x.quarters + 2

/-- A tie rounds to the even significand, which so owns both ends of its interval. -/
def ownsEnds (x : Binary) : Bool := x.significand % 2 == 0

/-- The ratio of `10 ^ k` to a quarter, as a pair of numerator and denominator. -/
def gridStep (x : Binary) (k : Int) : Nat × Nat :=
  let q := x.exponent - 2
  (Nat.pow 10 k.toNat * Nat.pow 2 (-q).toNat, Nat.pow 10 (-k).toNat * Nat.pow 2 q.toNat)

/-- Whether `d * 10 ^ k` rounds to the number. -/
def owns (x : Binary) (d : Nat) (k : Int) : Bool :=
  let (num, den) := x.gridStep k
  let low := x.lowQuarters * den
  let high := x.highQuarters * den
  if x.ownsEnds then low ≤ d * num && d * num ≤ high else low < d * num && d * num < high

/-- The largest multiple of `10 ^ k` that is not above the number, as a factor. -/
def floorOn (x : Binary) (k : Int) : Nat :=
  let (num, den) := x.gridStep k
  x.quarters * den / num

/-- Whether the number lies nearer to `d * 10 ^ k`, just below it, than to the next multiple. -/
def isNearerBelow (x : Binary) (d : Nat) (k : Int) : Bool :=
  let (num, den) := x.gridStep k
  2 * (x.quarters * den - d * num) < num

/-- The neighbour of the number among the multiples of `10 ^ k` that rounds to it; of two the
nearer, and of two equally near the larger. -/
def onGrid? (x : Binary) (k : Int) : Option Decimal :=
  let d := x.floorOn k
  let below := x.owns d k
  let above := x.owns (d + 1) k
  if below && (!above || x.isNearerBelow d k) then some ⟨d, k⟩
  else if above then some ⟨d + 1, k⟩
  else none

/-- The power of ten of the leading digit.  Scaling by a power of ten that makes every number of
the format at least one turns this into a count of digits. -/
def leadingPower (x : Binary) : Int :=
  let scaled := x.significand * Nat.pow 10 400 * Nat.pow 2 x.exponent.toNat
  let whole := scaled / Nat.pow 2 (-x.exponent).toNat
  ((Nat.toDigits 10 whole).length : Int) - 401

/-- A decimal with the fewest digits that rounds to the number. -/
def shortest (x : Binary) : Decimal :=
  let lead := x.leadingPower
  let found := (List.range 17).findSome? fun (n : Nat) => x.onGrid? (lead - n)
  found.getD ⟨x.floorOn (lead - 16), lead - 16⟩

end Binary

end StackCode
