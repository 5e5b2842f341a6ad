/-!
# Shortest decimals

The decimal that stands for a binary number of double precision: of the decimals that read back as
the number, those with the fewest digits, and of these the nearest to it.

A positive number is `m * 2 ^ q`; the reals that read back as it form an interval around it, which
reaches halfway to each neighbour and includes its ends exactly when `m` is even. For each count of
digits from 1 on, the two multiples of the power of ten around the number are tried; when one lies
in the interval, so does one of these two, and seventeen digits are always enough. All comparisons
are between natural numbers: both sides are scaled by the powers of two and ten that have negative
exponents.
-/
namespace LogicSchematic

/-- A decimal `0.d₁d₂… * 10 ^ point`, with its digits as characters. -/
structure Decimal where
  digits : List Char
  point : Int
  deriving DecidableEq, Repr

/-- What the 64 bits of a number of double precision say of its size. -/
inductive Magnitude where
  | notANumber
  | infinite
  | zero
  /-- The number `m * 2 ^ q`, with `m` positive. -/
  | finite (m : Nat) (q : Int)
  deriving DecidableEq, Repr

/-- The leading bit of a significand, which the 64 bits of a number do not show: 2 to the
power 52. -/
def hiddenBit : Nat := 0x10000000000000

namespace Magnitude

/-- The size of the number with the given bits; the first bit, the sign, does not matter. -/
def ofBits (bits : UInt64) : Magnitude :=
  let fraction : Nat := bits.toNat % hiddenBit
  let exponent : Nat := bits.toNat / hiddenBit % 2048
  if exponent = 2047 then if fraction = 0 then .infinite else .notANumber
  else if exponent = 0 then if fraction = 0 then .zero else .finite fraction (-1074)
  else .finite (hiddenBit + fraction) ((exponent : Int) - 1075)

end Magnitude

/-- How a number halfway between two decimals of equal length is written. -/
inductive Tie where
  /-- As the larger one. -/
  | up
  /-- As the one with the even last digit. -/
  | toEven
  deriving DecidableEq, Repr

namespace Decimal

/-- `b ^ e`, or 1 for a negative exponent. -/
def powUp (b : Nat) (e : Int) : Nat := Nat.pow b e.toNat

/-- The number of decimal digits of a natural number. -/
def digitCount (n : Nat) : Nat := (Nat.toDigits 10 n).length

/-- The exponent of the first digit of the number `num / den`, which is positive. -/
def leadingExponent (num den : Nat) : Int :=
  if den ≤ num then digitCount (num / den) - 1
  else
    let length := digitCount (den / num)
    if den = num * Nat.pow 10 (length - 1) then 1 - length else -length

/-- A number in quarters of its last binary place, with the ends of its interval. -/
structure Quarters where
  low : Nat
  value : Nat
  high : Nat
  /-- The exponent of two of a quarter. -/
  exponent : Int
  /-- Whether the ends read back as the number. -/
  closed : Bool

/-- The quarters of `m * 2 ^ q`. Below a power of two the next number is only half as far. -/
def quarters (m : Nat) (q : Int) : Quarters where
  low := if m = hiddenBit ∧ q ≠ -1074 then 4 * m - 1 else 4 * m - 2
  value := 4 * m
  high := 4 * m + 2
  exponent := q - 2
  closed := m % 2 = 0

/-- The multiple of `10 ^ k` that stands for a number, if one does: the nearest one that reads back
as it. -/
def nearestOnGrid? (tie : Tie) (x : Quarters) (k : Int) : Option Nat :=
  let gridUnit := powUp 10 k * powUp 2 (-x.exponent)
  let quarter := powUp 2 x.exponent * powUp 10 (-k)
  let inside (c : Nat) : Bool :=
    if x.closed then x.low * quarter ≤ c * gridUnit ∧ c * gridUnit ≤ x.high * quarter
    else x.low * quarter < c * gridUnit ∧ c * gridUnit < x.high * quarter
  let below := x.value * quarter / gridUnit
  let above := below + 1
  let gapBelow := x.value * quarter - below * gridUnit
  let gapAbove := above * gridUnit - x.value * quarter
  if inside below then
    if inside above then
      if gapBelow < gapAbove then some below
      else if gapAbove < gapBelow then some above
      else
        match tie with
        | .up => some above
        | .toEven => some (if below % 2 = 0 then below else above)
    else some below
  else if inside above then some above
  else none

/-- Drops the zeros at the end of a list of digits. -/
def dropZeros (digits : List Char) : List Char :=
  (digits.reverse.dropWhile (· = '0')).reverse

/-- The decimal `c * 10 ^ k`. -/
def ofMultiple (c : Nat) (k : Int) : Decimal :=
  let digits := Nat.toDigits 10 c
  ⟨dropZeros digits, digits.length + k⟩

/-- The shortest decimal that reads back as `m * 2 ^ q`. -/
def shortest (tie : Tie) (m : Nat) (q : Int) : Decimal :=
  let x := quarters m q
  let first := leadingExponent (m * powUp 2 q) (powUp 2 (-q))
  let found := (List.range 17).findSome? fun (more : Nat) =>
    let k := first - (more : Int)
    (nearestOnGrid? tie x k).map (ofMultiple · k)
  found.getD (ofMultiple (m * powUp 2 q) 0)

end Decimal

end LogicSchematic
