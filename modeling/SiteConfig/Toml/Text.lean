import SiteConfig.Toml.Reader
/-!
# TOML strings

A string is basic, with escapes, or literal, without; and each is on one
line between single marks or on several between triple ones.
-/

namespace SiteConfig

namespace Toml

open Reader

/-- The value of a hexadecimal digit. -/
def hexValue? (c : Char) : Option Nat :=
  if '0' ≤ c ∧ c ≤ '9' then some (c.toNat - '0'.toNat)
  else if 'a' ≤ c ∧ c ≤ 'f' then some (c.toNat - 'a'.toNat + 10)
  else if 'A' ≤ c ∧ c ≤ 'F' then some (c.toNat - 'A'.toNat + 10)
  else none

/-- Reads the character whose code is given by so many hexadecimal digits. A
surrogate is no character. -/
def codePoint (digits : Nat) : Reader Char := fun text => do
  let code ← text.take digits |>.mapM hexValue?
  let n := code.foldl (fun n d => n * 16 + d) 0
  if code.length = digits ∧ n.isValidChar then pure (Char.ofNat n, text.drop digits) else none

/-- Reads an escape. -/
def escape : Reader Char := do
  exactly "\\"
  match ← char fun _ => true with
  | 'b' => pure '\x08'
  | 't' => pure '\t'
  | 'n' => pure '\n'
  | 'f' => pure '\x0c'
  | 'r' => pure '\r'
  | '"' => pure '"'
  | '\\' => pure '\\'
  | 'u' => codePoint 4
  | 'U' => codePoint 8
  | _ => failure

/-- Reads a character of a basic string that stands for itself. -/
def basicChar : Reader Char := char fun c => isPrintable c && c != '"' && c != '\\'

/-- Reads a character of a literal string. -/
def literalChar : Reader Char := char fun c => isPrintable c && c != '\''

/-- Reads a basic string on one line. -/
def basicString : Reader String := do
  exactly "\""
  let cs ← many (basicChar <|> escape)
  exactly "\""
  pure (String.ofList cs)

/-- Reads a literal string on one line. -/
def literalString : Reader String := do
  exactly "'"
  let cs ← many literalChar
  exactly "'"
  pure (String.ofList cs)

/-! ## Strings on several lines -/

/-- Skips a backslash at the end of a line, with all blanks and line breaks
that follow. -/
def continuation : Reader Unit := do
  exactly "\\"
  blanks
  discard newline
  discard (many (discard (span1 isBlank) <|> discard newline))

/-- Reads one or two marks that are not followed by a third. -/
def innerMarks (mark : Char) : Reader (List Char) :=
  require (fun marks => marks.length ≤ 2) (span1 (· == mark))

/-- Reads the three marks at the end of a string. Up to two marks in front of
them belong to the string. -/
def closingMarks (mark : Char) : Reader (List Char) := fun text =>
  let count := min (text.takeWhile (· == mark)).length 5
  if 3 ≤ count then some (List.replicate (count - 3) mark, text.drop count) else none

/-- Reads a string of pieces between triple marks. A line break directly after
the first three is not part of it. -/
def blockString (mark : Char) (piece : Reader (List Char)) : Reader String := do
  exactly (String.ofList [mark, mark, mark])
  discard (optional newline)
  let pieces ← many (piece <|> innerMarks mark)
  let last ← closingMarks mark
  pure (String.ofList (pieces.flatten ++ last))

/-- Reads a basic string on several lines. -/
def basicBlock : Reader String :=
  blockString '"' <|
    (fun _ => []) <$> continuation <|> (fun c => [c]) <$> (basicChar <|> escape <|> newline)

/-- Reads a literal string on several lines. -/
def literalBlock : Reader String :=
  blockString '\'' ((fun c => [c]) <$> (literalChar <|> newline))

/-- Reads a string. -/
def string : Reader String := basicBlock <|> basicString <|> literalBlock <|> literalString

end Toml

end SiteConfig
