import LogicSchematic.Decimal.Shortest

/-!
# Texts of numbers

Numbers are written with their shortest digits, in one of two forms. The plain form never has an
exponent, and a whole number has no point. The form used in JSON has one digit at least on each side
of the point, takes an exponent when the point would stand too far away, and has no text for what is
not a finite number.
-/
namespace LogicSchematic

namespace Decimal

/-- The digits before the point; at least one. -/
def wholePart (d : Decimal) : String :=
  if d.point ≤ 0 then "0"
  else
    let count := d.point.toNat
    String.ofList (d.digits.take count ++ List.replicate (count - d.digits.length) '0')

/-- The digits after the point; none for a whole number. -/
def fraction (d : Decimal) : String :=
  String.ofList (List.replicate (-d.point).toNat '0' ++ d.digits.drop d.point.toNat)

/-- The text without exponent; a whole number has no point. -/
def plainText (d : Decimal) : String :=
  if d.fraction = "" then d.wholePart else d.wholePart ++ "." ++ d.fraction

/-- The text without exponent, always with a point. -/
def pointedText (d : Decimal) : String :=
  d.wholePart ++ "." ++ (if d.fraction = "" then "0" else d.fraction)

/-- The text with one digit before the point and a signed exponent. -/
def scientificText (d : Decimal) : String :=
  let mantissa : Decimal := { d with point := 1 }
  let exponent := d.point - 1
  let sign := if exponent < 0 then "-" else "+"
  mantissa.plainText ++ "e" ++ sign ++ Nat.repr exponent.natAbs

/-- The text in JSON: without exponent when the point stands within sixteen places after the first
digit or five before it. -/
def jsonText (d : Decimal) : String :=
  if -5 < d.point ∧ d.point ≤ 16 then d.pointedText else d.scientificText

end Decimal

/-- Puts the sign of a number in front of the text of its size. -/
def signed (bits : UInt64) (text : String) : String :=
  if bits >>> 63 = 1 then "-" ++ text else text

/-- The plain text of a number. -/
def plainNumber (x : Float) : String :=
  match Magnitude.ofBits x.toBits with
  | .notANumber => "NaN"
  | .infinite => signed x.toBits "inf"
  | .zero => signed x.toBits "0"
  | .finite m q => signed x.toBits (Decimal.shortest .up m q).plainText

/-- The text of a number in JSON. -/
def jsonNumber (x : Float) : String :=
  match Magnitude.ofBits x.toBits with
  | .notANumber => "null"
  | .infinite => "null"
  | .zero => signed x.toBits "0.0"
  | .finite m q => signed x.toBits (Decimal.shortest .toEven m q).jsonText

end LogicSchematic
