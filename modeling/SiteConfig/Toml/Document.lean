import SiteConfig.Toml.Moment
import SiteConfig.Toml.Table
import SiteConfig.Toml.Text
/-!
# TOML documents

The grammar of version 1.0 of the format, down from the document to its
keys and values. Arrays and inline tables may be nested to a depth of 79,
and a key may have 79 words.
-/

namespace SiteConfig

namespace Toml

open Reader

/-- The greatest depth of nesting, and the greatest number of words in a
key. -/
def nestingLimit : Nat := 79

/-! ## Keys -/

/-- A character of a word without quotes. -/
def isBareKeyChar (c : Char) : Bool := c.isAlphanum || c == '_' || c == '-'

/-- Reads a word of a key. -/
def keyWord : Reader String :=
  basicString <|> literalString <|> String.ofList <$> span1 isBareKeyChar

/-- Reads a key, with the blanks about it. -/
def key : Reader Key := do
  let words ← separated1 (blanks *> keyWord <* blanks) (exactly ".")
  match words.getLast? with
  | some last => if words.length ≤ nestingLimit then pure ⟨words.dropLast, last⟩ else failure
  | none => failure

/-! ## Values -/

/-- Reads a truth value. -/
def flag : Reader Bool := exactly "true" *> pure true <|> exactly "false" *> pure false

/-- Reads a value that has no others in it. -/
def scalar : Reader Node :=
  Node.text <$> string <|> Node.flag <$> flag <|> moment *> pure .moment <|>
    number *> pure .number

/-- Reads an array. A comma may follow the last item. -/
def array (item : Reader Node) : Reader Node := do
  exactly "["
  let items ← separated (gap *> item <* gap) (exactly ",")
  if !items.isEmpty then discard (optional (exactly ","))
  gap
  exactly "]"
  pure (.array items)

/-- Reads an inline table. -/
def inlineTable (item : Reader Node) : Reader Node := do
  exactly "\x7b"
  let pairs ← separated
    (do
      let k ← key
      exactly "="
      blanks
      let n ← item
      blanks
      pure (k, n))
    (exactly ",")
  blanks
  exactly "\x7d"
  match Table.ofPairs? pairs with
  | some t => pure t.node
  | none => failure

/-- Reads a value with nesting of up to a given depth. -/
def value : Nat → Reader Node
  | 0 => scalar
  | depth + 1 => scalar <|> array (value depth) <|> inlineTable (value depth)

/-! ## Statements -/

/-- Reads a header. -/
def header : Reader Statement :=
  Statement.element <$> (exactly "[[" *> key <* exactly "]]") <|>
    Statement.table <$> (exactly "[" *> key <* exactly "]")

/-- Reads a key and its value. -/
def pair : Reader Statement := do
  let k ← key
  exactly "="
  blanks
  let n ← value nestingLimit
  pure (.pair k n)

/-- Reads a line, or the lines of one statement. -/
def line : Reader (Option Statement) :=
  blanks *> (newline *> pure none <|> comment *> lineEnd *> pure none <|>
    some <$> (header <|> pair) <* lineEnd)

/-- Reads a document. A byte order mark in front of it is skipped. -/
def document : Reader (List Statement) := do
  discard (optional (exactly "\uFEFF"))
  let statements ← many line
  blanks
  pure (statements.filterMap id)

/-- The table of a document, if it is one. -/
def parse? (s : String) : Option Table :=
  (readAll document s.toList).bind Table.ofStatements?

end Toml

end SiteConfig
