import SiteConfig.Declaration
/-!
# The declaration on a line

A line declares a constant if it starts with a call of `define` whose
first argument is a quoted word, and a variable if it starts with a dollar
sign, a word and an equals sign. Blanks may stand between any two of
these. What follows holds the value and then a terminator: the closing
parenthesis of the call and a semicolon, or only the semicolon.

The value is the quoted literal at its start, if there is one and a
terminator follows it directly. Otherwise it is the shortest text that a
terminator follows directly, whatever that text is. The rest of the line
after the terminator plays no part.

Every reader here takes the text it is to read from and returns the text
it leaves. None of them goes back: what a pattern finds by trying one way
after another is read here from left to right, and what declarations are
is said in terms of these readers.
-/

namespace SiteConfig

namespace Line

open Bytes

/-- Reads one given byte. -/
def byte? (b : UInt8) : Bytes → Option Bytes
  | [] => none
  | c :: text => if c = b then some text else none

/-- Reads a quote of either sort. -/
def quote? : Bytes → Option Bytes
  | [] => none
  | c :: text => if isQuote c then some text else none

/-- Reads all the word bytes there are, at least one. -/
def word? (text : Bytes) : Option (Bytes × Bytes) :=
  let word := text.takeWhile isWord
  if word = [] then none else some (word, text.dropWhile isWord)

/-- Reads a keyword given in small letters, in letters of either case. -/
def keyword? : Bytes → Bytes → Option Bytes
  | [], text => some text
  | _ :: _, [] => none
  | b :: keyword, c :: text => if toLower c = b then keyword? keyword text else none

/-- The keyword of a constant. -/
def defineKeyword : Bytes := "define".toList.map ascii

/-! ## Head and terminator -/

/-- Reads a declaration up to its value: the name, and the text from the
value on. The quotes about the name of a constant need not match. -/
def head? : Kind → Bytes → Option (Bytes × Bytes)
  | .const, line => do
    let text ← keyword? defineKeyword (skipBlanks line)
    let text ← byte? (ascii '(') (skipBlanks text)
    let text ← quote? (skipBlanks text)
    let (name, text) ← word? text
    let text ← quote? text
    let text ← byte? (ascii ',') (skipBlanks text)
    pure (name, skipBlanks text)
  | .var, line => do
    let text ← byte? (ascii '$') (skipBlanks line)
    let (name, text) ← word? text
    let text ← byte? (ascii '=') (skipBlanks text)
    pure (name, skipBlanks text)

/-- Reads the end of a declaration, with the blanks in it. -/
def terminator? : Kind → Bytes → Option Bytes
  | .const, text => do
    let text ← byte? (ascii ')') (skipBlanks text)
    byte? (ascii ';') (skipBlanks text)
  | .var, text => byte? (ascii ';') (skipBlanks text)

/-! ## Value -/

/-- Reads a quoted literal from after its first quote up to and with its
last. A backslash takes the byte after it with it. -/
def closing? (quote : UInt8) : Bytes → Option (Bytes × Bytes)
  | [] => none
  | b :: text =>
    if b = quote then some ([b], text)
    else if b = ascii '\\' then
      match text with
      | [] => none
      | c :: text => (closing? quote text).map fun (literal, rest) => (b :: c :: literal, rest)
    else (closing? quote text).map fun (literal, rest) => (b :: literal, rest)

/-- Reads a quoted literal. -/
def literal? : Bytes → Option (Bytes × Bytes)
  | [] => none
  | b :: text =>
    if isQuote b then (closing? b text).map fun (literal, rest) => (b :: literal, rest) else none

/-- Reads the shortest text with a terminator directly after it, and the
terminator. -/
def shortest? (k : Kind) : Bytes → Option (Bytes × Bytes)
  | [] => none
  | b :: text =>
    match terminator? k (b :: text) with
    | some rest => some ([], rest)
    | none => (shortest? k text).map fun (value, rest) => (b :: value, rest)

/-- Reads a value and the terminator after it. -/
def value? (k : Kind) (text : Bytes) : Option (Bytes × Bytes) :=
  match (do
    let (literal, rest) ← literal? text
    let rest ← terminator? k rest
    pure (literal, rest)) with
  | some found => some found
  | none => shortest? k text

/-! ## The whole declaration -/

/-- A declaration on its line, which starts where the line does. -/
structure Parts where
  name : Bytes
  value : Bytes
  /-- Where the value starts. -/
  valueStart : Nat
  /-- Where the declaration ends, directly after its semicolon. -/
  stop : Nat
deriving DecidableEq

/-- Reads the declaration of one kind on a line. -/
def parts? (k : Kind) (line : Bytes) : Option Parts := do
  let (name, text) ← head? k line
  let (value, rest) ← value? k text
  pure ⟨name, value, line.length - text.length, line.length - rest.length⟩

end Line

/-- The declaration of one kind on a line that starts at `offset`. -/
def Declaration.ofLine? (k : Kind) (offset : Nat) (line : Bytes) : Option Declaration :=
  (Line.parts? k line).map fun p =>
    { kind := k
      name := Bytes.decode p.name
      value := Bytes.decode p.value
      source := Bytes.decode (line.take p.stop)
      span := ⟨offset, offset + p.stop⟩
      valueSpan := ⟨offset + p.valueStart, offset + p.valueStart + p.value.length⟩ }

end SiteConfig
