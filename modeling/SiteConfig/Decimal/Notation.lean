import SiteConfig.Decimal.Shortest
/-!
# The text of a floating-point number

A number is written with the digits of its shortest decimal. It is written
in full, with at least one digit on each side of the point, while its
leading digit stands between five places after the point and sixteen
before it, and with an exponent otherwise.
-/

namespace SiteConfig

namespace Decimal

/-- The power of ten of the leading digit. -/
def magnitude (digitCount : Nat) (exponent : Int) : Int := exponent + digitCount - 1

/-- The powers of ten at which a number is written in full. -/
def isPlain (magnitude : Int) : Bool := -5 ≤ magnitude && magnitude ≤ 15

/-- Digits written in full: zeros come after them if they end before the
point, and before them if they start after it. -/
def plain (digits : List Char) (exponent : Int) : List Char :=
  if 0 ≤ exponent then digits ++ List.replicate exponent.toNat '0' ++ ['.', '0']
  else
    let fraction := (-exponent).toNat
    let padded := List.replicate (fraction + 1 - digits.length) '0' ++ digits
    padded.take (padded.length - fraction) ++ '.' :: padded.drop (padded.length - fraction)

/-- One digit, the others after a point if there are any, and the power of
ten with its sign. -/
def scientific (digits : List Char) (magnitude : Int) : List Char :=
  digits.take 1 ++ (if digits.length ≤ 1 then [] else '.' :: digits.drop 1) ++
    ['e', if magnitude < 0 then '-' else '+'] ++ Nat.toDigits 10 magnitude.natAbs

/-- The text of a decimal. -/
def text (d : Decimal) : List Char :=
  let digits := Nat.toDigits 10 d.digits
  let m := magnitude digits.length d.exponent
  if isPlain m then plain digits d.exponent else scientific digits m

/-! The two ends of the range in which a number is written in full, and the
numbers next to them. -/

example : Decimal.text ⟨1, -5⟩ = "0.00001".toList := by decide
example : Decimal.text ⟨1, -6⟩ = "1e-6".toList := by decide
example : Decimal.text ⟨15, 14⟩ = "1500000000000000.0".toList := by decide
example : Decimal.text ⟨15, 15⟩ = "1.5e+16".toList := by decide

/-! A fraction that needs no zeros, and a whole number. -/

example : Decimal.text ⟨125, -1⟩ = "12.5".toList := by decide
example : Decimal.text ⟨1, 0⟩ = "1.0".toList := by decide

end Decimal

namespace Binary64

/-- The text of a number. Zero has one digit on each side of the point. -/
def text (x : Binary64) : List Char :=
  (if x.negative then ['-'] else []) ++
    if x.significand = 0 then ['0', '.', '0'] else x.shortest.text

end Binary64

end SiteConfig
