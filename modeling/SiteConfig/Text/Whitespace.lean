/-!
# White space

The characters with the Unicode property `White_Space`, and what is left
of a string when they are taken off both ends.
-/

namespace SiteConfig

namespace Text

/-- The twenty-five characters with the property. They include the line and
paragraph separators and the fixed-width spaces, and exclude the
zero-width ones. -/
def isWhitespace (c : Char) : Bool :=
  let n := c.toNat
  (0x09 ≤ n && n ≤ 0x0D) || n == 0x20 || n == 0x85 || n == 0xA0 || n == 0x1680 ||
    (0x2000 ≤ n && n ≤ 0x200A) || n == 0x2028 || n == 0x2029 || n == 0x202F || n == 0x205F ||
    n == 0x3000

/-- A string without the white space at its ends. -/
def trim (s : String) : String :=
  String.ofList (((s.toList.dropWhile isWhitespace).reverse.dropWhile isWhitespace).reverse)

end Text

end SiteConfig
