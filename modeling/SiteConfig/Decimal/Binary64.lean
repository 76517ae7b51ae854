/-!
# Floating-point numbers

The finite numbers of the 64-bit binary format: a sign, a significand of
at most 53 bits, and a power of two. Each number has one such form, save
that zero has two signs. `nearest?` reads a decimal, which is seldom
such a number itself, as the number nearest to it.

All arithmetic is on natural numbers and so is exact.
-/

namespace SiteConfig

/-- The number `± significand · 2 ^ exponent`. -/
structure Binary64 where
  negative : Bool
  significand : Nat
  exponent : Int
  /-- The significand has at most 53 bits. -/
  significand_lt : significand < Nat.pow 2 53
  le_exponent : -1074 ≤ exponent
  exponent_le : exponent ≤ 971
  /-- It has fewer than 53 bits only at the least exponent. -/
  normal : exponent = -1074 ∨ Nat.pow 2 52 ≤ significand
deriving DecidableEq

namespace Binary64

/-- The number of these parts, if they are in range and in normal form. -/
def ofParts? (negative : Bool) (significand : Nat) (exponent : Int) : Option Binary64 :=
  if h : significand < Nat.pow 2 53 ∧ -1074 ≤ exponent ∧ exponent ≤ 971 ∧
      (exponent = -1074 ∨ Nat.pow 2 52 ≤ significand) then
    some ⟨negative, significand, exponent, h.1, h.2.1, h.2.2.1, h.2.2.2⟩
  else none

/-- Zero, of either sign. -/
def zero (negative : Bool) : Binary64 :=
  ⟨negative, 0, -1074, by decide, by decide, by decide, .inl rfl⟩

/-- The integer nearest to a quotient, an even one where two are. -/
def roundDiv (num den : Nat) : Nat :=
  let q := num / den
  let r := 2 * (num % den)
  if r < den ∨ (r = den ∧ q % 2 = 0) then q else q + 1

/-- The power of two at which a positive quotient has 53 bits before the
point, or the least of the format if that is greater. The logarithms
place the quotient between two powers of two, and the comparison decides
which. -/
def scale (num den : Nat) : Int :=
  let e : Int := num.log2 - den.log2
  let e := if num * Nat.pow 2 (-e).toNat < den * Nat.pow 2 e.toNat then e - 1 else e
  max (e - 52) (-1074)

/-- The number nearest to a positive quotient. A significand that rounds up
to 54 bits is the next power of two. -/
def ofQuotient? (negative : Bool) (num den : Nat) : Option Binary64 :=
  let q := scale num den
  let m := roundDiv (num * Nat.pow 2 (-q).toNat) (den * Nat.pow 2 q.toNat)
  if m = Nat.pow 2 53 then ofParts? negative (Nat.pow 2 52) (q + 1) else ofParts? negative m q

/-- The number of decimal digits of a positive number. -/
def digitCount (n : Nat) : Nat := (Nat.toDigits 10 n).length

/-- The number nearest to `± n · 10 ^ e`, the one of even significand where
two are, and none if the decimal is beyond the greatest. A decimal with
over 310 digits before the point is beyond it, and one below
`10 ^ -330` is nearest to zero, whatever its digits. -/
def nearest? (negative : Bool) (n : Nat) (e : Int) : Option Binary64 :=
  if n = 0 then some (zero negative)
  else if 310 < digitCount n + e then none
  else if digitCount n + e < -330 then some (zero negative)
  else ofQuotient? negative (n * Nat.pow 10 e.toNat) (Nat.pow 10 (-e).toNat)

end Binary64

end SiteConfig
