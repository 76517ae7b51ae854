/-!
# Byte strings

A configuration file is a sequence of bytes and is edited as one, whether
or not it is text in any encoding. This module holds the classes of bytes
that matter to a declaration, and the replacement of a range.

Letters, digits and blanks are those of ASCII. A byte outside ASCII is
none of them.
-/

namespace SiteConfig

/-- The contents of a file, or a part of them. -/
abbrev Bytes := List UInt8

namespace Bytes

/-- The byte of an ASCII character. -/
def ascii (c : Char) : UInt8 := c.toNat.toUInt8

/-- The byte that ends a line. -/
def lineFeed : UInt8 := ascii '\n'

/-- The byte that comes before a line feed where lines end in two. -/
def carriageReturn : UInt8 := ascii '\r'

/-- A blank is a space or a tab. -/
def isBlank (b : UInt8) : Bool := b == ascii ' ' || b == ascii '\t'

/-- A word byte is an ASCII letter, a digit or an underscore. -/
def isWord (b : UInt8) : Bool :=
  (ascii 'a' ≤ b && b ≤ ascii 'z') || (ascii 'A' ≤ b && b ≤ ascii 'Z') ||
    (ascii '0' ≤ b && b ≤ ascii '9') || b == ascii '_'

/-- A quote is single or double. -/
def isQuote (b : UInt8) : Bool := b == ascii '\'' || b == ascii '"'

/-- The small letter of a capital, and any other byte itself. -/
def toLower (b : UInt8) : UInt8 :=
  if ascii 'A' ≤ b && b ≤ ascii 'Z' then b + 32 else b

/-- The capital of a small letter, and any other byte itself. -/
def toUpper (b : UInt8) : UInt8 :=
  if ascii 'a' ≤ b && b ≤ ascii 'z' then b - 32 else b

/-- What is left when the blanks in front are skipped. -/
def skipBlanks (text : Bytes) : Bytes := text.dropWhile isBlank

/-- The text with the range from `start` up to `stop` replaced. -/
def splice (text : Bytes) (start stop : Nat) (new : Bytes) : Bytes :=
  text.take start ++ new ++ text.drop stop

/-- **Replacing a range by itself changes nothing.** -/
theorem splice_self {text : Bytes} {start stop : Nat} (h : start ≤ stop) :
    text.splice start stop ((text.take stop).drop start) = text := by
  have ht : text.take start = (text.take stop).take start := by
    rw [List.take_take, Nat.min_eq_left h]
  rw [splice, ht, List.take_append_drop, List.take_append_drop]

end Bytes

end SiteConfig
