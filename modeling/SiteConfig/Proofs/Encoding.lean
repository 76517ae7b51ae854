import SiteConfig.Text.Utf8.RoundTrip
/-!
# ASCII in UTF-8

A character of ASCII is one byte of its own, and every byte of another
character is beyond ASCII. So a byte of ASCII in a text stands for its
character (`ascii_mem_ofChars`), and a text that is cut in front of one is
cut between two characters (`exists_chars_of_ofChars_eq`). A text of ASCII
occurs in another where its bytes do (`infix_of_infix_ofChars`). Reading
bytes makes no line feed of other bytes (`newline_not_mem_decode`).
-/

namespace SiteConfig

namespace Bytes

variable {c d : Char} {cs ns : List Char} {b : UInt8} {text : Bytes}

/-! ## The bytes of a character -/

theorem utf8EncodeChar_of_lt (h : c.toNat < 128) : String.utf8EncodeChar c = [ascii c] := by
  have hn : c.val.toNat < 128 := h
  simp only [String.utf8EncodeChar]
  rw [if_pos (by omega)]
  rfl

/-- A character has a first byte, and all the bytes after it are beyond ASCII. -/
theorem exists_utf8EncodeChar_eq_cons (c : Char) :
    ∃ b bs, String.utf8EncodeChar c = b :: bs ∧ (128 ≤ c.toNat → 0x80 ≤ b) ∧
      ∀ b' ∈ bs, 0x80 ≤ b' := by
  have hn : c.val.toNat = c.toNat := rfl
  have hv : c.toNat < 0x110000 := by
    rcases (c.valid : c.toNat < 0xD800 ∨ 0xDFFF < c.toNat ∧ c.toNat < 0x110000) with h | h <;> omega
  have hle : ∀ m, 128 ≤ m → m < 256 → (0x80 : UInt8) ≤ UInt8.ofNat m := by
    intro m h₁ h₂
    rw [UInt8.le_iff_toNat_le, toNat_ofNat_of_lt h₂]
    exact h₁
  simp only [String.utf8EncodeChar, hn]
  split
  · exact ⟨_, _, rfl, fun h => by omega, by simp⟩
  split
  · refine ⟨_, _, rfl, fun _ => hle _ (by omega) (by omega), ?_⟩
    simp only [List.mem_cons, List.not_mem_nil, or_false, forall_eq]
    exact hle _ (by omega) (by omega)
  split
  · refine ⟨_, _, rfl, fun _ => hle _ (by omega) (by omega), ?_⟩
    simp only [List.mem_cons, List.not_mem_nil, or_false, forall_eq_or_imp, forall_eq]
    exact ⟨hle _ (by omega) (by omega), hle _ (by omega) (by omega)⟩
  · refine ⟨_, _, rfl, fun _ => hle _ (by omega) (by omega), ?_⟩
    simp only [List.mem_cons, List.not_mem_nil, or_false, forall_eq_or_imp, forall_eq]
    exact ⟨hle _ (by omega) (by omega), hle _ (by omega) (by omega), hle _ (by omega) (by omega)⟩

theorem le_of_mem_utf8EncodeChar (h : 128 ≤ c.toNat) (hb : b ∈ String.utf8EncodeChar c) :
    0x80 ≤ b := by
  obtain ⟨b', bs, he, hfirst, hrest⟩ := exists_utf8EncodeChar_eq_cons c
  rw [he, List.mem_cons] at hb
  rcases hb with rfl | hb
  · exact hfirst h
  · exact hrest b hb

/-- The byte of a character of ASCII is within ASCII. -/
theorem ascii_lt (h : c.toNat < 128) : ascii c < 0x80 := by
  rw [UInt8.lt_iff_toNat_lt]
  change (UInt8.ofNat c.toNat).toNat < 128
  rwa [toNat_ofNat_of_lt (by omega)]

theorem ascii_ne_of_le (h : c.toNat < 128) (hb : 0x80 ≤ b) : b ≠ ascii c := by
  rintro rfl
  exact absurd (ascii_lt h) (UInt8.not_lt.2 hb)

theorem ascii_inj (hc : c.toNat < 128) (hd : d.toNat < 128) : ascii c = ascii d ↔ c = d := by
  refine ⟨fun h => ?_, fun h => h ▸ rfl⟩
  have hn : (UInt8.ofNat c.toNat).toNat = (UInt8.ofNat d.toNat).toNat := congrArg UInt8.toNat h
  rw [toNat_ofNat_of_lt (by omega), toNat_ofNat_of_lt (by omega)] at hn
  exact Char.toNat_inj.1 hn

/-- A byte of ASCII is that of a character. -/
theorem exists_ascii_eq (h : b < 0x80) : ∃ c : Char, c.toNat < 128 ∧ ascii c = b := by
  have hb : b.toNat < 128 := UInt8.lt_iff_toNat_lt.1 h
  have hc : (Char.ofNat b.toNat).toNat = b.toNat :=
    (by decide : ∀ n < 128, (Char.ofNat n).toNat = n) _ hb
  refine ⟨Char.ofNat b.toNat, by omega, ?_⟩
  rw [ascii, hc]
  exact UInt8.ofNat_toNat

/-! ## The bytes of a text -/

@[simp] theorem ofChars_nil : ofChars [] = [] := rfl

@[simp] theorem ofChars_cons : ofChars (c :: cs) = String.utf8EncodeChar c ++ ofChars cs := rfl

@[simp] theorem ofChars_append {cs' : List Char} :
    ofChars (cs ++ cs') = ofChars cs ++ ofChars cs' := by
  simp [ofChars]

theorem ofChars_ascii_cons (h : c.toNat < 128) : ofChars (c :: cs) = ascii c :: ofChars cs := by
  rw [ofChars_cons, utf8EncodeChar_of_lt h]
  rfl

theorem ofChars_eq_nil_iff : ofChars cs = [] ↔ cs = [] := by
  cases cs with
  | nil => simp
  | cons c cs =>
    obtain ⟨b, bs, he, -⟩ := exists_utf8EncodeChar_eq_cons c
    simp [he]

theorem encode_append (s t : String) : encode (s ++ t) = encode s ++ encode t := by
  simp [encode]

/-- A character of ASCII is in a text where its byte is. -/
theorem ascii_mem_ofChars (h : c.toNat < 128) : ascii c ∈ ofChars cs ↔ c ∈ cs := by
  induction cs with
  | nil => simp
  | cons d cs ih =>
    rw [ofChars_cons, List.mem_append, ih, List.mem_cons]
    by_cases hd : d.toNat < 128
    · rw [utf8EncodeChar_of_lt hd, List.mem_singleton, ascii_inj h hd]
    · have hne : c ≠ d := by rintro rfl; exact hd h
      have hno : ascii c ∉ String.utf8EncodeChar d := fun hm =>
        ascii_ne_of_le h (le_of_mem_utf8EncodeChar (by omega) hm) rfl
      simp [hne, hno]

/-- **A byte of ASCII stands between characters.** What comes before it is the
bytes of characters, and so is what comes after it. -/
theorem exists_chars_of_ofChars_eq {a r : Bytes} (hb : b < 0x80) (h : ofChars cs = a ++ b :: r) :
    ∃ cs₁ c cs₂, cs = cs₁ ++ c :: cs₂ ∧ ofChars cs₁ = a ∧ c.toNat < 128 ∧ ascii c = b ∧
      ofChars cs₂ = r := by
  induction cs generalizing a with
  | nil => simp at h
  | cons d cs ih =>
    by_cases hd : d.toNat < 128
    · rw [ofChars_ascii_cons hd] at h
      cases a with
      | nil =>
        obtain ⟨hb', hr⟩ := List.cons.inj h
        exact ⟨[], d, cs, rfl, rfl, hd, hb', hr⟩
      | cons x a =>
        rw [List.cons_append, List.cons.injEq] at h
        obtain ⟨rfl, h⟩ := h
        obtain ⟨cs₁, c, cs₂, rfl, rfl, hc, hcb, hr⟩ := ih h
        exact ⟨d :: cs₁, c, cs₂, rfl, ofChars_ascii_cons hd, hc, hcb, hr⟩
    · rw [ofChars_cons, List.append_eq_append_iff] at h
      rcases h with ⟨a', rfl, h⟩ | ⟨r', he, h⟩
      · obtain ⟨cs₁, c, cs₂, rfl, rfl, hc, hcb, hr⟩ := ih h
        exact ⟨d :: cs₁, c, cs₂, rfl, rfl, hc, hcb, hr⟩
      · -- the byte would be one of a character beyond ASCII
        cases r' with
        | nil =>
          obtain ⟨cs₁, c, cs₂, rfl, hcs₁, hc, hcb, hr⟩ := ih (a := []) h.symm
          refine ⟨d :: cs₁, c, cs₂, rfl, ?_, hc, hcb, hr⟩
          rw [ofChars_cons, hcs₁, he, List.append_nil, List.append_nil]
        | cons x r' =>
          obtain ⟨rfl, -⟩ := List.cons.inj h
          have hx := le_of_mem_utf8EncodeChar (c := d) (b := b) (by omega) (by rw [he]; simp)
          exact absurd hb (UInt8.not_lt.2 hx)

theorem prefix_of_prefix_ofChars (h : ∀ c ∈ ns, c.toNat < 128) (hp : ofChars ns <+: ofChars cs) :
    ns <+: cs := by
  induction ns generalizing cs with
  | nil => exact List.nil_prefix
  | cons n ns ih =>
    rw [List.forall_mem_cons] at h
    rw [ofChars_ascii_cons h.1] at hp
    obtain ⟨r, hr⟩ := hp
    obtain ⟨cs₁, c, cs₂, rfl, hcs₁, hc, hcn, hcs₂⟩ :=
      exists_chars_of_ofChars_eq (a := []) (ascii_lt h.1) hr.symm
    obtain rfl := ofChars_eq_nil_iff.1 hcs₁
    obtain rfl := (ascii_inj hc h.1).1 hcn
    exact List.prefix_cons_inj c |>.2 (ih h.2 ⟨r, hcs₂.symm⟩)

/-- **A text of ASCII occurs among the characters** where its bytes occur among
theirs. -/
theorem infix_of_infix_ofChars (h : ∀ c ∈ ns, c.toNat < 128) (hi : ofChars ns <:+: ofChars cs) :
    ns <:+: cs := by
  cases ns with
  | nil => exact List.nil_infix
  | cons n ns =>
    rw [List.forall_mem_cons] at h
    rw [ofChars_ascii_cons h.1] at hi
    obtain ⟨a, r, hr⟩ := hi
    rw [List.append_assoc] at hr
    obtain ⟨cs₁, c, cs₂, rfl, -, hc, hcn, hcs₂⟩ :=
      exists_chars_of_ofChars_eq (ascii_lt h.1) hr.symm
    obtain rfl := (ascii_inj hc h.1).1 hcn
    have hp : ns <+: cs₂ := prefix_of_prefix_ofChars h.2 ⟨r, hcs₂.symm⟩
    exact (List.prefix_cons_inj c |>.2 hp).isInfix.trans (List.suffix_append cs₁ _).isInfix

/-- Bytes of ASCII are the bytes of characters. -/
theorem exists_ofChars_eq (h : ∀ b ∈ text, b < 0x80) : ∃ cs, ofChars cs = text := by
  induction text with
  | nil => exact ⟨[], rfl⟩
  | cons b text ih =>
    obtain ⟨cs, rfl⟩ := ih fun x hx => h x (List.mem_cons_of_mem b hx)
    obtain ⟨c, hc, rfl⟩ := exists_ascii_eq (h b List.mem_cons_self)
    exact ⟨c :: cs, ofChars_ascii_cons hc⟩

/-! ## Reading -/

@[simp] theorem decode_ofChars (cs : List Char) : decode (ofChars cs) = String.ofList cs := by
  rw [decode, decodeFrom_ofChars]

/-- Bytes of ASCII are those of the text they spell. -/
theorem encode_decode_of_ascii (h : ∀ b ∈ text, b < 0x80) : encode (decode text) = text := by
  obtain ⟨cs, rfl⟩ := exists_ofChars_eq h
  simp [encode]

/-- The bits so far, or the least byte that may come next, place a pending
character beyond ASCII. -/
structure Pending.BeyondAscii (p : Pending) : Prop where
  last : p.missing ≤ 1 → 2 ≤ p.bits
  next : 1 ≤ p.bits ∨ 0x90 ≤ p.low

theorem Pending.beyondAscii_of_lead {p : Pending} (h : lead b = .several p) : p.BeyondAscii := by
  rw [lead_eq] at h
  split at h
  · cases h
  split at h
  · cases h
  split at h
  · obtain rfl := Lead.several.inj h
    exact ⟨fun _ => by dsimp only; omega, .inl (by dsimp only; omega)⟩
  split at h
  · obtain rfl := Lead.several.inj h
    exact ⟨fun hm => absurd hm (by decide), .inr (by decide)⟩
  split at h
  · obtain rfl := Lead.several.inj h
    exact ⟨fun hm => absurd hm (by decide), .inl (by decide)⟩
  split at h
  · obtain rfl := Lead.several.inj h
    exact ⟨fun hm => absurd hm (by dsimp only; omega), .inl (by dsimp only; omega)⟩
  split at h
  · obtain rfl := Lead.several.inj h
    exact ⟨fun hm => absurd hm (by decide), .inr (by decide)⟩
  split at h
  · obtain rfl := Lead.several.inj h
    exact ⟨fun hm => absurd hm (by dsimp only; omega), .inl (by dsimp only; omega)⟩
  split at h
  · obtain rfl := Lead.several.inj h
    exact ⟨fun hm => absurd hm (by decide), .inl (by decide)⟩
  · cases h

/-- The next byte adds bits enough. -/
theorem Pending.BeyondAscii.le_bits {p : Pending} (h : p.BeyondAscii) (hb : p.low ≤ b) :
    2 ≤ p.bits * 64 + (b.toNat - 0x80) := by
  rcases h.next with h | h
  · omega
  · have : 0x90 ≤ b.toNat := UInt8.le_iff_toNat_le.1 (UInt8.le_trans h hb)
    omega

theorem Pending.BeyondAscii.ofNat_ne_newline {p : Pending} (h : p.BeyondAscii)
    (hm : p.missing ≤ 1) (n : Nat) : Char.ofNat (p.bits * 64 + n) ≠ '\n' := by
  intro he
  have := h.last hm
  by_cases hvalid : (p.bits * 64 + n).isValidChar
  · have hof : Char.ofNat (p.bits * 64 + n) = Char.ofNatAux (p.bits * 64 + n) hvalid :=
      dif_pos hvalid
    have hn : p.bits * 64 + n = 10 := congrArg Char.toNat (hof.symm.trans he)
    omega
  · have hof : Char.ofNat (p.bits * 64 + n) = '\x00' := dif_neg hvalid
    exact absurd (hof.symm.trans he) (by decide)

/-- A byte that is a character of its own is a line feed only as itself. -/
theorem ne_newline_of_lead (h : lead b = .single c) (hb : b ≠ lineFeed) : c ≠ '\n' := by
  rintro rfl
  have hlt : b < 0x80 := by
    by_cases hlt : b < 0x80
    · exact hlt
    · rw [lead, if_neg hlt] at h
      repeat' split at h
      all_goals cases h
  obtain ⟨d, hd, rfl⟩ := exists_ascii_eq hlt
  have hdec : decodeFrom none (ofChars [d]) = [d] := decodeFrom_ofChars [d]
  rw [ofChars_ascii_cons hd, decodeFrom, h, List.cons.injEq] at hdec
  exact hb (hdec.1 ▸ rfl)

/-- **Bytes without a line feed spell none.** -/
theorem newline_not_mem_decodeFrom (p : Option Pending) (hp : ∀ q ∈ p, q.BeyondAscii)
    (h : lineFeed ∉ text) : '\n' ∉ decodeFrom p text := by
  have hrep : '\n' ≠ replacement := by decide
  -- the cases are those of the decoder; what is pending in one stays beyond ASCII in the next
  fun_induction decodeFrom p text with
  | case1 => simp
  | case2 q => simpa using hrep
  | case3 b text c hl ih =>
    rw [List.mem_cons, not_or] at h ⊢
    exact ⟨(ne_newline_of_lead hl (Ne.symm h.1)).symm, ih (by simp) h.2⟩
  | case4 b text q hl ih =>
    rw [List.mem_cons, not_or] at h
    exact ih (by simpa using Pending.beyondAscii_of_lead hl) h.2
  | case5 b text hl ih =>
    rw [List.mem_cons, not_or] at h ⊢
    exact ⟨hrep, ih (by simp) h.2⟩
  | case6 q b text hb bits hm ih =>
    rw [List.mem_cons, not_or] at h ⊢
    exact ⟨((hp q rfl).ofNat_ne_newline hm _).symm, ih (by simp) h.2⟩
  | case7 q b text hb bits hm ih =>
    rw [List.mem_cons, not_or] at h
    have hbits := (hp q rfl).le_bits hb.1
    refine ih (fun q' hq' => ?_) h.2
    obtain rfl := Option.mem_some_iff.1 hq'
    exact ⟨fun _ => hbits, .inl (Nat.le_of_succ_le hbits)⟩
  | case8 q b text hb c hl ih =>
    simp only [List.mem_cons, not_or] at h ⊢
    exact ⟨hrep, (ne_newline_of_lead hl (Ne.symm h.1)).symm, ih (by simp) h.2⟩
  | case9 q b text hb q' hl ih =>
    rw [List.mem_cons, not_or] at h ⊢
    exact ⟨hrep, ih (by simpa using Pending.beyondAscii_of_lead hl) h.2⟩
  | case10 q b text hb hl ih =>
    simp only [List.mem_cons, not_or] at h ⊢
    exact ⟨hrep, hrep, ih (by simp) h.2⟩

theorem newline_not_mem_decode (h : lineFeed ∉ text) : '\n' ∉ (decode text).toList := by
  rw [decode, String.toList_ofList]
  exact newline_not_mem_decodeFrom none (by simp) h

end Bytes

end SiteConfig
