import SiteConfig.Text.Utf8
/-!
# Reading UTF-8 back

**What is written is read back** (`decode_encode`): the bytes of a string
decode to that string, without replacements. It follows that `utf8?` finds
the text of exactly the bytes that are UTF-8 (`utf8?_eq_some_iff`).

The proof takes one character at a time. Its first byte leaves a pending
character, each byte after it adds six bits, and the last one completes
it.
-/

namespace SiteConfig

namespace Bytes

/-- What the first byte says, by its number. -/
theorem lead_eq (b : UInt8) : lead b =
    if b.toNat < 0x80 then .single (Char.ofNat b.toNat)
    else if b.toNat < 0xC2 then .stray
    else if b.toNat < 0xE0 then .several ⟨b.toNat - 0xC0, 1, 0x80, 0xBF⟩
    else if b.toNat = 0xE0 then .several ⟨0, 2, 0xA0, 0xBF⟩
    else if b.toNat = 0xED then .several ⟨0xD, 2, 0x80, 0x9F⟩
    else if b.toNat < 0xF0 then .several ⟨b.toNat - 0xE0, 2, 0x80, 0xBF⟩
    else if b.toNat = 0xF0 then .several ⟨0, 3, 0x90, 0xBF⟩
    else if b.toNat < 0xF4 then .several ⟨b.toNat - 0xF0, 3, 0x80, 0xBF⟩
    else if b.toNat = 0xF4 then .several ⟨4, 3, 0x80, 0x8F⟩
    else .stray := by
  simp only [lead, UInt8.lt_iff_toNat_lt, ← UInt8.toNat_inj]
  rfl

/-- A number below 256 is the number of its byte. -/
theorem toNat_ofNat_of_lt {n : Nat} (h : n < 256) : (UInt8.ofNat n).toNat = n := by
  simp [Nat.mod_eq_of_lt h]

/-- The last byte of a pending character completes it. -/
theorem decodeFrom_last {bits n : Nat} {low high : UInt8} {text : Bytes}
    (h : n < 256) (hl : low.toNat ≤ n) (hh : n ≤ high.toNat) :
    decodeFrom (some ⟨bits, 1, low, high⟩) (UInt8.ofNat n :: text) =
      Char.ofNat (bits * 64 + (n - 0x80)) :: decodeFrom none text := by
  have hn := toNat_ofNat_of_lt h
  simp [decodeFrom, UInt8.le_iff_toNat_le, hn, hl, hh]

/-- A byte of a pending character that is not its last adds six bits. -/
theorem decodeFrom_next {bits missing n : Nat} {low high : UInt8} {text : Bytes}
    (h : n < 256) (hl : low.toNat ≤ n) (hh : n ≤ high.toNat) :
    decodeFrom (some ⟨bits, missing + 2, low, high⟩) (UInt8.ofNat n :: text) =
      decodeFrom (some ⟨bits * 64 + (n - 0x80), missing + 1, 0x80, 0xBF⟩) text := by
  have hn := toNat_ofNat_of_lt h
  simp [decodeFrom, UInt8.le_iff_toNat_le, hn, hl, hh]

/-- The first of several bytes leaves a pending character. -/
theorem decodeFrom_several {n : Nat} {p : Pending} {text : Bytes}
    (h : lead (UInt8.ofNat n) = .several p) :
    decodeFrom none (UInt8.ofNat n :: text) = decodeFrom (some p) text := by
  rw [decodeFrom, h]

/-- The bytes of a character are read as that character, whatever follows. -/
theorem decodeFrom_encodeChar (c : Char) (text : Bytes) :
    decodeFrom none (String.utf8EncodeChar c ++ text) = c :: decodeFrom none text := by
  have hv : c.toNat < 0xD800 ∨ 0xDFFF < c.toNat ∧ c.toNat < 0x110000 := c.valid
  have hc : Char.ofNat c.toNat = c := Char.ofNat_toNat c
  have key : ∀ m, m = c.toNat → Char.ofNat m = c := fun m hm => by rw [hm, hc]
  have hn : c.val.toNat = c.toNat := rfl
  unfold String.utf8EncodeChar
  simp only [hn]
  generalize c.toNat = n at *
  -- one byte
  split
  · simp only [List.cons_append, List.nil_append, decodeFrom, lead_eq]
    rw [toNat_ofNat_of_lt (by omega), if_pos (by omega)]
    simp [hc]
  -- two bytes
  split
  · simp only [List.cons_append, List.nil_append]
    have hl : lead (UInt8.ofNat (n / 64 % 32 + 192)) = .several ⟨n / 64 % 32, 1, 0x80, 0xBF⟩ := by
      rw [lead_eq, toNat_ofNat_of_lt (by omega), if_neg (by omega), if_neg (by omega),
        if_pos (by omega), Nat.add_sub_cancel]
    rw [decodeFrom_several hl, decodeFrom_last (by omega) (by simp) (by simp; omega),
      key _ (by omega)]
  -- three bytes; the bounds on the second depend on the first
  split
  · simp only [List.cons_append, List.nil_append]
    have hl : ∃ low high : UInt8, low.toNat ≤ n / 64 % 64 + 128 ∧ n / 64 % 64 + 128 ≤ high.toNat ∧
        lead (UInt8.ofNat (n / 4096 % 16 + 224)) = .several ⟨n / 4096 % 16, 2, low, high⟩ := by
      by_cases h0 : n / 4096 = 0
      · exact ⟨0xA0, 0xBF, by simp; omega, by simp; omega, by simp [h0]; rfl⟩
      by_cases hd : n / 4096 = 13
      · exact ⟨0x80, 0x9F, by simp, by simp; omega, by simp [hd]; rfl⟩
      refine ⟨0x80, 0xBF, by simp, by simp; omega, ?_⟩
      rw [lead_eq, toNat_ofNat_of_lt (by omega), if_neg (by omega), if_neg (by omega),
        if_neg (by omega), if_neg (by omega), if_neg (by omega), if_pos (by omega),
        Nat.add_sub_cancel]
    obtain ⟨low, high, h1, h2, hl⟩ := hl
    rw [decodeFrom_several hl, decodeFrom_next (by omega) h1 h2,
      decodeFrom_last (by omega) (by simp) (by simp; omega), key _ (by omega)]
  -- four bytes
  · simp only [List.cons_append, List.nil_append]
    have hl : ∃ low high : UInt8, low.toNat ≤ n / 4096 % 64 + 128 ∧
        n / 4096 % 64 + 128 ≤ high.toNat ∧
        lead (UInt8.ofNat (n / 262144 % 8 + 240)) = .several ⟨n / 262144 % 8, 3, low, high⟩ := by
      by_cases h0 : n / 262144 = 0
      · exact ⟨0x90, 0xBF, by simp; omega, by simp; omega, by simp [h0]; rfl⟩
      by_cases hd : n / 262144 = 4
      · exact ⟨0x80, 0x8F, by simp, by simp; omega, by simp [hd]; rfl⟩
      refine ⟨0x80, 0xBF, by simp, by simp; omega, ?_⟩
      rw [lead_eq, toNat_ofNat_of_lt (by omega), if_neg (by omega), if_neg (by omega),
        if_neg (by omega), if_neg (by omega), if_neg (by omega), if_neg (by omega),
        if_neg (by omega), if_pos (by omega), Nat.add_sub_cancel]
    obtain ⟨low, high, h1, h2, hl⟩ := hl
    rw [decodeFrom_several hl, decodeFrom_next (by omega) h1 h2,
      decodeFrom_next (by omega) (by simp) (by simp; omega),
      decodeFrom_last (by omega) (by simp) (by simp; omega), key _ (by omega)]

/-- The bytes of characters are read as those characters. -/
theorem decodeFrom_ofChars (cs : List Char) : decodeFrom none (ofChars cs) = cs := by
  induction cs with
  | nil => rfl
  | cons c cs ih =>
    rw [ofChars, List.flatMap_cons, decodeFrom_encodeChar]
    rw [ofChars] at ih
    rw [ih]

/-- **What is written is read back.** -/
theorem decode_encode (s : String) : decode (encode s) = s := by
  rw [decode, encode, decodeFrom_ofChars, String.ofList_toList]

/-- **The bytes with a text are those that some string is written as**, and
their text is that string. -/
theorem utf8?_eq_some_iff {text : Bytes} {s : String} : utf8? text = some s ↔ text = encode s := by
  unfold utf8?
  constructor
  · intro h
    split at h
    · next he => cases h; exact he.symm
    · cases h
  · rintro rfl
    rw [decode_encode, if_pos rfl]

end Bytes

end SiteConfig
