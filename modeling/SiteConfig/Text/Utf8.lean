import SiteConfig.Text.Bytes
/-!
# UTF-8

`encode` writes a string in UTF-8, and `decode` reads any bytes. Where
they are not UTF-8 it puts the replacement character U+FFFD once for each
longest run of bytes that starts a character and cannot be completed, and
once for each byte that starts none. Bytes that are UTF-8 come back as
they were written, which is how `utf8?` recognises them.
-/

namespace SiteConfig

namespace Bytes

/-- The bytes of a list of characters. -/
def ofChars (cs : List Char) : Bytes := cs.flatMap String.utf8EncodeChar

/-- The bytes of a string. -/
def encode (s : String) : Bytes := ofChars s.toList

/-- What stands in place of bytes that cannot be read. -/
def replacement : Char := '\uFFFD'

/-- A character of which the first bytes have been read: the bits so far,
the number of bytes still to come, and the bounds of the next one. -/
structure Pending where
  bits : Nat
  missing : Nat
  low : UInt8
  high : UInt8

/-- What the first byte of a character says about the rest. -/
inductive Lead where
  /-- The byte is a character of its own. -/
  | single (c : Char)
  /-- More bytes follow. -/
  | several (p : Pending)
  /-- No character starts with this byte. -/
  | stray

/-- The bounds on the second byte leave out the longer spellings of a short
character, the surrogates, and what lies beyond the last character. -/
def lead (b : UInt8) : Lead :=
  if b < 0x80 then .single (Char.ofNat b.toNat)
  else if b < 0xC2 then .stray
  else if b < 0xE0 then .several ⟨b.toNat - 0xC0, 1, 0x80, 0xBF⟩
  else if b = 0xE0 then .several ⟨0, 2, 0xA0, 0xBF⟩
  else if b = 0xED then .several ⟨0xD, 2, 0x80, 0x9F⟩
  else if b < 0xF0 then .several ⟨b.toNat - 0xE0, 2, 0x80, 0xBF⟩
  else if b = 0xF0 then .several ⟨0, 3, 0x90, 0xBF⟩
  else if b < 0xF4 then .several ⟨b.toNat - 0xF0, 3, 0x80, 0xBF⟩
  else if b = 0xF4 then .several ⟨4, 3, 0x80, 0x8F⟩
  else .stray

/-- Reads on from a character that may be pending. A byte that does not
continue it ends it with a replacement and is read afresh. -/
def decodeFrom : Option Pending → Bytes → List Char
  | none, [] => []
  | some _, [] => [replacement]
  | none, b :: text =>
    match lead b with
    | .single c => c :: decodeFrom none text
    | .several p => decodeFrom (some p) text
    | .stray => replacement :: decodeFrom none text
  | some p, b :: text =>
    if p.low ≤ b ∧ b ≤ p.high then
      let bits := p.bits * 64 + (b.toNat - 0x80)
      if p.missing ≤ 1 then Char.ofNat bits :: decodeFrom none text
      else decodeFrom (some ⟨bits, p.missing - 1, 0x80, 0xBF⟩) text
    else match lead b with
      | .single c => replacement :: c :: decodeFrom none text
      | .several q => replacement :: decodeFrom (some q) text
      | .stray => replacement :: replacement :: decodeFrom none text

/-- The text that the bytes spell, with replacements where they spell
none. -/
def decode (text : Bytes) : String := String.ofList (decodeFrom none text)

/-- The text of bytes that are UTF-8, and nothing for others. -/
def utf8? (text : Bytes) : Option String :=
  if encode (decode text) = text then some (decode text) else none

end Bytes

end SiteConfig
