import SiteConfig.Text.Bytes
/-!
# Patterns

Regular expressions over bytes. A pattern is tried at one place of a text
(`Pattern.matchAt`), and its matches in a text are found from left to right,
each from where the last one ended (`Pattern.findAll`).

Where a pattern can match in several ways, the way that it names first is
taken: the left one of two alternatives, and one repetition more before one
less, or the other way round if the repetition is lazy. It is given up for
the next way only when what has to follow does not match. So a pattern is
run with its continuation, which says what becomes of the text after it.
-/

namespace SiteConfig

/-! ## Classes of bytes -/

/-- A set of bytes, given by ranges with both their ends. -/
structure ByteClass where
  ranges : List (UInt8 × UInt8)
  /-- Whether the bytes outside the ranges are meant. -/
  negated : Bool := false
  /-- Whether a letter in the ranges stands for both its cases. -/
  ignoreCase : Bool := false

namespace ByteClass

open Bytes

/-- Whether a byte is in one of the ranges. -/
def inRanges (s : ByteClass) (b : UInt8) : Bool := s.ranges.any fun r => r.1 ≤ b && b ≤ r.2

/-- Whether a byte is in the class. The other case of a letter is added
before the class is negated. -/
def contains (s : ByteClass) (b : UInt8) : Bool :=
  (s.inRanges b || s.ignoreCase && (s.inRanges (toLower b) || s.inRanges (toUpper b))) != s.negated

/-- The same class with both cases of the letters in its ranges. -/
def ignoringCase (s : ByteClass) : ByteClass := { s with ignoreCase := true }

/-- The bytes of some characters. -/
def of (cs : List Char) : ByteClass := { ranges := cs.map fun c => (ascii c, ascii c) }

/-- All bytes but those of some characters. -/
def except (cs : List Char) : ByteClass := { of cs with negated := true }

/-- The bytes of words. -/
def word : ByteClass where
  ranges := [(ascii 'a', ascii 'z'), (ascii 'A', ascii 'Z'), (ascii '0', ascii '9'),
    (ascii '_', ascii '_')]

end ByteClass

/-! ## Patterns as data -/

/-- A pattern. -/
inductive Pattern where
  /-- Matches everywhere and takes nothing. -/
  | empty
  /-- Matches where a line starts, and takes nothing. -/
  | lineStart
  /-- Takes one byte of a class. -/
  | byte (s : ByteClass)
  /-- One pattern and then another. -/
  | seq (p q : Pattern)
  /-- One pattern or else another. -/
  | alt (p q : Pattern)
  /-- Any number of repetitions, as many as can be if `greedy` and otherwise as
  few as can be. -/
  | star (greedy : Bool) (p : Pattern)
  /-- A pattern of which a match keeps what it took, under a number. -/
  | group (n : Nat) (p : Pattern)

namespace Pattern

/-- Patterns one after another. -/
def all : List Pattern → Pattern
  | [] => empty
  | p :: ps => seq p (all ps)

/-- As many repetitions as can be, but at least one. -/
def plus (p : Pattern) : Pattern := seq p (star true p)

/-- The same pattern for letters of either case. -/
def ignoringCase : Pattern → Pattern
  | empty => empty
  | lineStart => lineStart
  | byte s => byte s.ignoringCase
  | seq p q => seq p.ignoringCase q.ignoringCase
  | alt p q => alt p.ignoringCase q.ignoringCase
  | star greedy p => star greedy p.ignoringCase
  | group n p => group n p.ignoringCase

end Pattern

/-! ## Running a pattern -/

/-- A part of a text, and where it starts there. -/
structure Excerpt where
  start : Nat
  bytes : Bytes
deriving DecidableEq

/-- Where an excerpt ends. -/
def Excerpt.stop (e : Excerpt) : Nat := e.start + e.bytes.length

/-- A place in a text. -/
structure Cursor where
  offset : Nat
  /-- The byte in front of the place, unless the text starts there. -/
  before : Option UInt8
  /-- The text from the place on. -/
  rest : Bytes
deriving DecidableEq

namespace Cursor

/-- The start of a text. -/
def start (text : Bytes) : Cursor := ⟨0, none, text⟩

/-- Whether a line starts here: at the start of the text, or after a line feed
whatever stands before that. -/
def atLineStart (c : Cursor) : Bool := c.before.all (· == Bytes.lineFeed)

/-- The text from one place to a later one. -/
def upTo (c c' : Cursor) : Excerpt := ⟨c.offset, c.rest.take (c'.offset - c.offset)⟩

end Cursor

/-- What the groups of a pattern took, the last of them first. -/
abbrev Captures := List (Nat × Excerpt)

/-- What the group of a number took last. -/
def Captures.group? (groups : Captures) (n : Nat) : Option Excerpt := groups.lookup n

/-- What is made of the place where a pattern ends, and of the groups up to
there. -/
abbrev Continuation (α : Type) := Cursor → Captures → Option α

namespace Pattern

variable {α : Type}

/-- Runs `body` any number of times, at most `n`, and then goes on with `k`. If
`greedy`, one more time is tried before none, and otherwise after it. A
repetition that takes nothing is not made; in the patterns of declarations there
is none. -/
def repeated (greedy : Bool) (body : Cursor → Captures → Continuation α → Option α)
    (k : Continuation α) : Nat → Continuation α
  | 0, c, groups => k c groups
  | n + 1, c, groups =>
    let more := fun _ : Unit => body c groups fun c' groups' =>
      if c.offset < c'.offset then repeated greedy body k n c' groups' else none
    if greedy then more () <|> k c groups else k c groups <|> more ()

/-- Runs a pattern at a place, and then goes on with `k`. -/
def run : Pattern → Cursor → Captures → Continuation α → Option α
  | empty, c, groups, k => k c groups
  | lineStart, c, groups, k => if c.atLineStart then k c groups else none
  | byte s, c, groups, k =>
    match c.rest with
    | [] => none
    | b :: rest => if s.contains b then k ⟨c.offset + 1, some b, rest⟩ groups else none
  | seq p q, c, groups, k => p.run c groups fun c' groups' => q.run c' groups' k
  | alt p q, c, groups, k => p.run c groups k <|> q.run c groups k
  -- each repetition takes a byte, so that there are no more of them than bytes
  | star greedy p, c, groups, k => repeated greedy p.run k c.rest.length c groups
  | group n p, c, groups, k => p.run c groups fun c' groups' => k c' ((n, c.upTo c') :: groups')

/-- The match at a place: what its groups took, of which group 0 is all of it,
and where it ends. -/
def matchAt (p : Pattern) (c : Cursor) : Option (Captures × Cursor) :=
  (group 0 p).run c [] fun finish groups => some (groups, finish)

/-! ## All matches -/

/-- The match at a place, except for an empty one at the offset `last`. -/
def matchUnless (p : Pattern) (last : Option Nat) (c : Cursor) : Option (Captures × Cursor) :=
  (p.matchAt c).filter fun m => !(m.2.offset == c.offset && last == some c.offset)

/-- The first match in a text that starts at an offset, behind a byte. -/
def findIn? (p : Pattern) (last : Option Nat) (offset : Nat) (before : Option UInt8) :
    Bytes → Option (Captures × Cursor)
  | [] => p.matchUnless last ⟨offset, before, []⟩
  | b :: rest =>
    p.matchUnless last ⟨offset, before, b :: rest⟩ <|> p.findIn? last (offset + 1) (some b) rest

/-- The first match from a place on. -/
def find? (p : Pattern) (last : Option Nat) (c : Cursor) : Option (Captures × Cursor) :=
  p.findIn? last c.offset c.before c.rest

/-- At most `n` matches from a place on, each the first from where the one
before it ended. If `last` is where that was, no empty match is found there. -/
def findFrom (p : Pattern) : Nat → Option Nat → Cursor → List Captures
  | 0, _, _ => []
  | n + 1, last, c =>
    match p.find? last c with
    | none => []
    | some (groups, finish) => groups :: p.findFrom n (some finish.offset) finish

/-- All matches in a text, of which there is at most one for each offset. -/
def findAll (p : Pattern) (text : Bytes) : List Captures :=
  p.findFrom (text.length + 1) none (.start text)

end Pattern

end SiteConfig
