import SiteConfig.Value
import SiteConfig.Decimal.Notation
/-!
# Literals

The expression that denotes a value in a configuration file. A literal is
written on one line unless a string in it has line breaks. Lists and maps
are both written as arrays, a list with its positions as keys, so an
empty map is written like an empty list.
-/

namespace SiteConfig

namespace Value

/-- A string between single quotes, with a backslash before each single
quote and each backslash in it. -/
def quoted (cs : List Char) : List Char :=
  '\'' :: cs.flatMap (fun c => if c = '\\' ∨ c = '\'' then ['\\', c] else [c]) ++ ['\'']

/-- The decimal digits of an integer, after its sign if it is negative. -/
def integer (n : Int) : List Char :=
  (if n < 0 then ['-'] else []) ++ Nat.toDigits 10 n.natAbs

/-- An array of entries that are already written. -/
def array (entries : List (List Char)) : List Char :=
  "array (".toList ++ [','].intercalate entries ++ " )".toList

/-- An entry of an array, with a blank in front of it. -/
def entry (key value : List Char) : List Char :=
  ' ' :: key ++ " => ".toList ++ value

mutual

/-- The literal of a value. -/
def literal : Value → List Char
  | .null => "NULL".toList
  | .bool true => "true".toList
  | .bool false => "false".toList
  | .int n => integer n
  | .float x => x.text
  | .string s => quoted s.toList
  | .list items => array (itemEntries 0 items)
  | .map members => array (memberEntries members)

/-- The entries of list items, whose keys count up from `i`. -/
def itemEntries (i : Nat) : List Value → List (List Char)
  | [] => []
  | v :: items => entry (Nat.toDigits 10 i) v.literal :: itemEntries (i + 1) items

/-- The entries of map members. -/
def memberEntries : List (String × Value) → List (List Char)
  | [] => []
  | (k, v) :: members => entry (quoted k.toList) v.literal :: memberEntries members

end

/-- The text written for a value: its literal, or with `raw` the string
itself if the value is one, which is then taken for an expression. -/
def render (v : Value) (raw : Bool) : String :=
  match v, raw with
  | .string s, true => s
  | v, _ => String.ofList v.literal

end Value

end SiteConfig
