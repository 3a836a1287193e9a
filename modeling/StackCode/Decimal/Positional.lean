import StackCode.Decimal.Shortest

/-!
# Floats in positional notation

A float is written with the fewest digits that read back, without an exponent however large or
small it is, and without a fraction when it is whole.
-/

namespace StackCode

namespace Decimal

def zeros (n : Nat) : String := String.ofList (List.replicate n '0')

/-- The same number without zeros at the end of its digits. -/
def trim (d : Decimal) : Decimal :=
  let ds := Nat.toDigits 10 d.digits
  let kept := (ds.reverse.dropWhile (· == '0')).reverse
  ⟨d.digits / Nat.pow 10 (ds.length - kept.length), d.exponent + (ds.length - kept.length : Nat)⟩

/-- All digits of a decimal, with a point where the fraction starts. -/
def positional (d : Decimal) : String :=
  let d := d.trim
  let ds := Nat.toDigits 10 d.digits
  if 0 ≤ d.exponent then
    String.ofList ds ++ zeros d.exponent.toNat
  else
    let places := (-d.exponent).toNat
    if places < ds.length then
      let whole := ds.length - places
      String.ofList (ds.take whole) ++ "." ++ String.ofList (ds.drop whole)
    else
      "0." ++ zeros (places - ds.length) ++ String.ofList ds

end Decimal

/-- The text of a float of 64 bits: one bit of sign, 11 of exponent and 52 of fraction. -/
def floatText (bits : UInt64) : String :=
  let n : Nat := bits.toNat
  let sign := if n / Nat.pow 2 63 = 1 then "-" else ""
  let power : Nat := n / Nat.pow 2 52 % Nat.pow 2 11
  let fraction : Nat := n % Nat.pow 2 52
  if power = 2047 then
    if fraction = 0 then sign ++ "inf" else "NaN"
  else if power = 0 then
    if fraction = 0 then sign ++ "0"
    else sign ++ (Binary.shortest ⟨fraction, -1074, false⟩).positional
  else
    let narrow := fraction = 0 && 1 < power
    sign ++ (Binary.shortest ⟨Nat.pow 2 52 + fraction, (power : Int) - 1075, narrow⟩).positional

end StackCode
