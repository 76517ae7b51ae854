import SiteConfig.Decimal.Binary64
import SiteConfig.Toml.Reader
/-!
# TOML numbers

An integer fits in 64 bits with its sign. A decimal number may be too
small for the floating-point format, and is then zero, but not too great;
a negative one may be either. Underscores may stand between digits.
-/

namespace SiteConfig

namespace Toml

open Reader

/-- Reads a sign; true means minus. -/
def sign : Reader Bool := do
  match ← optional (char fun c => c == '+' || c == '-') with
  | some '-' => pure true
  | _ => pure false

/-- Reads the digits after the first, with an underscore in front of any. -/
def moreDigits (p : Char → Bool) : Reader (List Char) :=
  many (char p <|> exactly "_" *> char p)

/-- Reads digits of a class. -/
def digits (p : Char → Bool) : Reader (List Char) := List.cons <$> char p <*> moreDigits p

/-- Reads decimal digits that do not start with a zero, or a zero alone. -/
def wholeDigits : Reader (List Char) :=
  List.cons <$> char (fun c => '1' ≤ c && c ≤ '9') <*> moreDigits Char.isDigit <|>
    List.singleton <$> char (· == '0')

/-- The number that digits spell in a base up to sixteen. -/
def valueOf (base : Nat) (ds : List Char) : Nat :=
  ds.foldl (fun n c =>
    let d := if c.isDigit then c.toNat - '0'.toNat else c.toLower.toNat - 'a'.toNat + 10
    n * base + d) 0

/-- Reads a decimal integer. -/
def decimalInteger : Reader Unit := do
  let negative ← sign
  let n := valueOf 10 (← wholeDigits)
  if n < Nat.pow 2 63 ∨ (negative ∧ n = Nat.pow 2 63) then pure () else failure

/-- Reads an integer of another base, after its mark. -/
def basedInteger (mark : String) (base : Nat) (p : Char → Bool) : Reader Unit := do
  exactly mark
  let n := valueOf base (← digits p)
  if n < Nat.pow 2 63 then pure () else failure

/-- A hexadecimal digit. -/
def isHexDigit (c : Char) : Bool :=
  c.isDigit || ('a' ≤ c && c ≤ 'f') || ('A' ≤ c && c ≤ 'F')

/-- Reads an integer. -/
def integer : Reader Unit :=
  basedInteger "0x" 16 isHexDigit <|> basedInteger "0o" 8 (fun c => '0' ≤ c && c ≤ '7') <|>
    basedInteger "0b" 2 (fun c => c == '0' || c == '1') <|> decimalInteger

/-- Reads a power of ten after its mark. -/
def powerOfTen : Reader Int := do
  discard (char fun c => c == 'e' || c == 'E')
  let negative ← sign
  let n : Int := valueOf 10 (← digits Char.isDigit)
  pure (if negative then -n else n)

/-- Reads a decimal number with a fraction, a power of ten, or both. -/
def decimalFloat : Reader Unit := do
  let negative ← sign
  let whole ← wholeDigits
  let fraction ← optional (exactly "." *> digits Char.isDigit)
  let power ← optional powerOfTen
  if fraction.isNone && power.isNone then failure
  let fraction := fraction.getD []
  let n := valueOf 10 (whole ++ fraction)
  let e := power.getD 0 - fraction.length
  if negative || (Binary64.nearest? false n e).isSome then pure () else failure

/-- Reads an infinity or what is not a number. -/
def specialFloat : Reader Unit := do
  discard sign
  exactly "inf" <|> exactly "nan"

/-- Reads a number. -/
def number : Reader Unit := decimalFloat <|> specialFloat <|> integer

end Toml

end SiteConfig
