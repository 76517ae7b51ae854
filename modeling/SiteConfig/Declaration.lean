import SiteConfig.Declaration.Pattern
import SiteConfig.Text.Utf8
/-!
# Declarations

A declaration as it stands in a text: what it declares, how it is written,
and where. Its texts are decoded from the bytes at its spans, and the
spans count bytes. The declarations of a kind are the matches of its
pattern in the text (`Declaration.allOf`).
-/

namespace SiteConfig

/-- A range of offsets, from `start` up to but without `stop`. -/
structure Span where
  start : Nat
  stop : Nat
deriving DecidableEq

namespace Span

/-- The part of a text that lies in a span. -/
def slice (s : Span) (text : Bytes) : Bytes := (text.drop s.start).take (s.stop - s.start)

/-- A span counted from another offset. -/
def relativeTo (s : Span) (origin : Nat) : Span := ⟨s.start - origin, s.stop - origin⟩

end Span

/-- A declaration in a text. -/
structure Declaration where
  kind : Kind
  name : String
  /-- The value as it is written. It is not evaluated. -/
  value : String
  /-- The whole declaration as it is written, with the blanks in front and
  the semicolon. -/
  source : String
  /-- Where `source` stands in the text. -/
  span : Span
  /-- Where `value` stands in the text. -/
  valueSpan : Span
deriving DecidableEq

namespace Declaration

/-- What a declaration is found under. -/
def key (d : Declaration) : Kind × String := (d.kind, d.name)

/-- Where the value stands in `source`. -/
def valueSpanInSource (d : Declaration) : Span := d.valueSpan.relativeTo d.span.start

/-- What a match of the pattern of a kind declares. -/
def ofCaptures? (k : Kind) (groups : Captures) : Option Declaration := do
  let whole ← groups.group? 0
  let name ← groups.group? 1
  let value ← groups.group? 2
  pure
    { kind := k
      name := Bytes.decode name.bytes
      value := Bytes.decode value.bytes
      source := Bytes.decode whole.bytes
      span := ⟨whole.start, whole.stop⟩
      valueSpan := ⟨value.start, value.stop⟩ }

/-- The declarations of one kind in a text, in order, found in one pass over
the whole text. -/
def allOf (k : Kind) (text : Bytes) : List Declaration :=
  ((pattern k).findAll text).filterMap (ofCaptures? k)

end Declaration

end SiteConfig
