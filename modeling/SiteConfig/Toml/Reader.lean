/-!
# Readers

A reader takes something from the front of a text, or takes nothing and
fails. The readers of TOML are put together from those given here.
Repetition stops at a round that takes nothing, so it always ends.
-/

namespace SiteConfig

namespace Toml

/-- Reads an `α` from the front of a text. -/
abbrev Reader := StateT (List Char) Option

namespace Reader

/-- Reads a character of a class. -/
def char (p : Char → Bool) : Reader Char
  | [] => none
  | c :: text => if p c then some (c, text) else none

/-- Reads exactly these characters. -/
def exactly (s : String) : Reader Unit := s.toList.forM fun c => discard (char (· == c))

/-- Reads the characters of a class there are, which may be none. -/
def span (p : Char → Bool) : Reader (List Char) :=
  fun text => some (text.takeWhile p, text.dropWhile p)

/-- Reads the characters of a class there are, at least one. -/
def span1 (p : Char → Bool) : Reader (List Char) := do
  let cs ← span p
  if cs.isEmpty then failure else pure cs

/-- Reads nothing, at the end of the text. -/
def atEnd : Reader Unit
  | [] => some ((), [])
  | _ :: _ => none

/-- The results of a reader, used over and over until it fails, and what it
leaves. -/
def roundsFrom {α : Type} (r : Reader α) (text : List Char) : List α × List Char :=
  match r text with
  | none => ([], text)
  | some (a, rest) =>
    if rest.length < text.length then
      let (as, rest') := roundsFrom r rest
      (a :: as, rest')
    else ([], text)
termination_by text.length

/-- Reads as often as possible. -/
def many {α : Type} (r : Reader α) : Reader (List α) := fun text => some (roundsFrom r text)

/-- Reads one or more, with separators between them. -/
def separated1 {α : Type} (r : Reader α) (separator : Reader Unit) : Reader (List α) := do
  let a ← r
  let as ← many (separator *> r)
  pure (a :: as)

/-- Reads any number, with separators between them. -/
def separated {α : Type} (r : Reader α) (separator : Reader Unit) : Reader (List α) :=
  separated1 r separator <|> pure []

/-- Passes a result on if it satisfies a condition. -/
def require {α : Type} (p : α → Bool) (r : Reader α) : Reader α := do
  let a ← r
  if p a then pure a else failure

/-- Reads something in full: nothing may be left. -/
def readAll {α : Type} (r : Reader α) (text : List Char) : Option α :=
  match r text with
  | some (a, []) => some a
  | _ => none

end Reader

/-! ## Blanks, line breaks and comments -/

/-- A character that may stand in a comment or a string: not a control
character, other than a tab. -/
def isPrintable (c : Char) : Bool := c == '\t' || (' ' ≤ c && c != '\x7f')

/-- A space or a tab. -/
def isBlank (c : Char) : Bool := c == ' ' || c == '\t'

open Reader

/-- Skips blanks. -/
def blanks : Reader Unit := discard (span isBlank)

/-- Reads a line break, which is a line feed with or without a carriage
return in front, and counts as a line feed. -/
def newline : Reader Char := (exactly "\n" <|> exactly "\r\n") *> pure '\n'

/-- Skips a comment up to the end of its line. -/
def comment : Reader Unit := exactly "#" *> discard (span isPrintable)

/-- Skips what may come after a statement on its line, and the line break. -/
def lineEnd : Reader Unit := do
  blanks
  discard (optional comment)
  discard newline <|> atEnd

/-- Skips what may come between the items of an array. -/
def gap : Reader Unit :=
  discard (many (discard (span1 isBlank) <|> discard newline <|> comment))

end Toml

end SiteConfig
