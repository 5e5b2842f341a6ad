import LogicSchematic.Json.Reader

/-!
# Numbers in JSON

What a numeral stands for. As a natural number it is written without sign, point and exponent, and
fits 64 bits. As a floating-point number, its leading digits are taken, as many as fit 64 bits, and
scaled by a power of ten; what is too large is refused and what is too small is zero.
-/
namespace LogicSchematic.Json.Numeral

/-- The numbers below which a significand stays. -/
def significandLimit : Nat := UInt64.size

/-- Appends digits to a number as long as it stays below the limit; the number, how many digits were
appended, and how many were not. -/
def appendDigits (n : Nat) : List Nat → Nat × Nat × Nat
  | [] => (n, 0, 0)
  | d :: ds =>
    if 10 * n + d < significandLimit then
      let (m, taken, left) := appendDigits (10 * n + d) ds
      (m, taken + 1, left)
    else (n, 0, ds.length + 1)

/-- The number that digits stand for. -/
def ofDigits (ds : List Nat) : Nat := ds.foldl (10 * · + ·) 0

/-- The natural number of 64 bits that a numeral stands for. -/
def nat? (n : Numeral) : Option Nat :=
  if n.negative ∨ n.fraction ≠ none ∨ n.exponent ≠ none then none
  else
    let value := ofDigits n.whole
    if value < UInt64.size then some value else none

/-- The power of ten nearest to `10 ^ k`, for `k` up to 308. -/
def powerOfTen (k : Nat) : Float := Float.ofScientific 1 false k

/-- `x * 10 ^ k`, in steps of which each is rounded; none when that is too large. -/
def scale? (x : Float) (k : Int) : Option Float :=
  if x == 0 then some x
  else if 308 < k then none
  else if 0 ≤ k then
    let y := x * powerOfTen k.toNat
    if y.isInf then none else some y
  else if -308 ≤ k then some (x / powerOfTen (-k).toNat)
  else if -616 ≤ k then some (x / powerOfTen 308 / powerOfTen (-k - 308).toNat)
  else some 0

/-- The floating-point number that a numeral stands for; none when it is too large. -/
def float? (n : Numeral) : Option Float := do
  let (whole, _, dropped) := appendDigits 0 n.whole
  let (significand, taken, _) := appendDigits whole (n.fraction.getD [])
  let exponent : Int := match n.exponent with
    | some (negative, ds) => if negative then -(ofDigits ds : Int) else ofDigits ds
    | none => 0
  let size ← scale? (Float.ofNat significand) (exponent + dropped - taken)
  return if n.negative then -size else size

end LogicSchematic.Json.Numeral
