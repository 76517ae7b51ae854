import SiteConfig.Kind
import SiteConfig.Pattern
/-!
# The patterns of declarations

A declaration is found by the pattern of its kind (`Declaration.pattern`).
Both patterns match from the start of a line and take nothing of the next
one. Group 1 is the name and group 2 the value.

All classes are of ASCII, and `.` is any byte but a line feed.
-/

namespace SiteConfig

namespace Pattern

/-- One character. -/
def char (c : Char) : Pattern := byte (.of [c])

/-- The characters of a word, one after another. -/
def chars (s : String) : Pattern := all (s.toList.map char)

/-- `[ \t]*` -/
def blanks : Pattern := star true (byte (.of [' ', '\t']))

/-- `['"]` -/
def quote : Pattern := byte (.of ['\'', '"'])

/-- `\w+` -/
def word : Pattern := plus (byte .word)

/-- `[^'\\\n]|\\.`, with `q` for the quote. -/
def quotedPart (q : Char) : Pattern :=
  alt (byte (.except [q, '\\', '\n'])) (seq (char '\\') (byte (.except ['\n'])))

/-- `'(?:[^'\\\n]|\\.)*'`, with `q` for the quote. -/
def quoted (q : Char) : Pattern := all [char q, star true (quotedPart q), char q]

/-- `'(?:[^'\\\n]|\\.)*'|"(?:[^"\\\n]|\\.)*"|.*?`, a quoted literal if one can
be taken, and otherwise as little as can be. -/
def value : Pattern :=
  alt (quoted '\'') (alt (quoted '"') (star false (byte (.except ['\n']))))

end Pattern

namespace Declaration

open Pattern

/-- The pattern of a kind, with the value in place of `VALUE`. -/
def pattern : Kind → Pattern
  /- `(?mi-u)^[ \t]*define[ \t]*\([ \t]*['"](\w+)['"][ \t]*,[ \t]*(VALUE)[ \t]*\)[ \t]*;` -/
  | .const => ignoringCase <| all [lineStart, blanks, chars "define", blanks, char '(', blanks,
      quote, group 1 word, quote, blanks, char ',', blanks, group 2 value, blanks, char ')',
      blanks, char ';']
  /- `(?m-u)^[ \t]*\$(\w+)[ \t]*=[ \t]*(VALUE)[ \t]*;` -/
  | .var => all [lineStart, blanks, char '$', group 1 word, blanks, char '=', blanks,
      group 2 value, blanks, char ';']

end Declaration

end SiteConfig
