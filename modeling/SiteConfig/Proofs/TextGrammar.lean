import SiteConfig.Proofs.Encoding
import SiteConfig.Proofs.Grammar
/-!
# Names, literals and terminators as text

The parts of a declaration as a caller sees them, who gives names and
values as text: names (`IsName`), text without blanks at its ends
(`Trimmed`), quoted literals (`IsLiteral`) and terminators
(`HasTerminator`). `ReadsBack` is what comes of these for a value. Their
marks are characters of ASCII, so a text has one of these properties where
its bytes have the property of the same name.
-/

namespace SiteConfig

namespace Text

open Bytes

/-- A space or a tab. -/
def IsBlank (c : Char) : Prop := c = ' ' ∨ c = '\t'

/-- ASCII letters, digits and underscores, at least one. -/
def IsName (s : String) : Prop := s ≠ "" ∧ ∀ c ∈ s.toList, c.isAlphanum ∨ c = '_'

/-- Neither end of the text is a blank. -/
structure Trimmed (cs : List Char) : Prop where
  first : ∀ c, cs.head? = some c → ¬ IsBlank c
  last : ∀ c, cs.getLast? = some c → ¬ IsBlank c

/-- A quote, characters of which a backslash takes the next one with it, and
the same quote where it first stands alone. -/
def IsLiteral (cs : List Char) : Prop :=
  ∃ q rest, (q = '\'' ∨ q = '"') ∧ cs = q :: rest ∧ Line.Closes '\\' q rest

/-- The end of a declaration, without blanks in front. -/
def IsTerminator : Kind → List Char → Prop
  | .const, cs => ∃ blanks, (∀ c ∈ blanks, IsBlank c) ∧ cs = ')' :: (blanks ++ [';'])
  | .var, cs => cs = [';']

/-- A terminator stands somewhere in the text. -/
def HasTerminator (k : Kind) (cs : List Char) : Prop := ∃ t, IsTerminator k t ∧ t <:+: cs

/-- What a text needs to be read back from where it is written as a value:
it is trimmed, on one line, and one literal or without a terminator. -/
structure ReadsBack (k : Kind) (cs : List Char) : Prop where
  oneLine : '\n' ∉ cs
  trimmed : Trimmed cs
  whole : IsLiteral cs ∨ ¬ HasTerminator k cs

variable {k : Kind} {c q : Char} {b : UInt8} {cs : List Char}

/-! ## Classes of characters and of bytes -/

/-- A class of bytes of ASCII holds all bytes of a text where the class of
their characters holds all its characters. -/
theorem forall_mem_ofChars_iff {p : UInt8 → Prop} {P : Char → Prop} (hp : ∀ b, p b → b < 0x80)
    (hP : ∀ c, P c → c.toNat < 128) (h : ∀ c : Char, c.toNat < 128 → (p (ascii c) ↔ P c)) :
    (∀ b ∈ ofChars cs, p b) ↔ ∀ c ∈ cs, P c := by
  induction cs with
  | nil => simp
  | cons c cs ih =>
    rw [ofChars_cons, List.forall_mem_append, ih, List.forall_mem_cons]
    refine and_congr_left fun _ => ?_
    by_cases hc : c.toNat < 128
    · rw [utf8EncodeChar_of_lt hc, List.forall_mem_singleton, h c hc]
    · refine ⟨fun hall => ?_, fun hPc => absurd (hP c hPc) hc⟩
      obtain ⟨x, xs, he, hx, -⟩ := exists_utf8EncodeChar_eq_cons c
      have hpx := hp x (hall x (by simp [he]))
      exact absurd hpx (UInt8.not_lt.2 (hx (by omega)))

theorem IsBlank.lt (h : IsBlank c) : c.toNat < 128 := by rcases h with rfl | rfl <;> decide

theorem lt_of_isBlank (h : Bytes.isBlank b) : b < 0x80 := by
  rcases Line.isBlank_iff.1 h with rfl | rfl <;> decide

theorem isBlank_ascii_iff (h : c.toNat < 128) : Bytes.isBlank (ascii c) ↔ IsBlank c := by
  rw [Line.isBlank_iff, ascii_inj h (by decide), ascii_inj h (by decide)]
  rfl

theorem allBlank_ofChars_iff : AllBlank (ofChars cs) ↔ ∀ c ∈ cs, IsBlank c :=
  forall_mem_ofChars_iff (fun _ => lt_of_isBlank) (fun _ => IsBlank.lt)
    (fun _ => isBlank_ascii_iff)

theorem lt_of_isWord (h : Bytes.isWord b) : b < 0x80 := by
  simp only [Bytes.isWord, Bool.or_eq_true, Bool.and_eq_true, decide_eq_true_eq, beq_iff_eq] at h
  rcases h with ((⟨-, h⟩ | ⟨-, h⟩) | ⟨-, h⟩) | rfl
  · exact UInt8.lt_of_le_of_lt h (by decide)
  · exact UInt8.lt_of_le_of_lt h (by decide)
  · exact UInt8.lt_of_le_of_lt h (by decide)
  · decide

theorem isWord_ascii_iff (h : c.toNat < 128) :
    Bytes.isWord (ascii c) ↔ c.isAlphanum ∨ c = '_' := by
  have key : ∀ n < 128, Bytes.isWord (ascii (Char.ofNat n)) =
      ((Char.ofNat n).isAlphanum || Char.ofNat n == '_') := by decide
  have hc := key c.toNat h
  rw [Char.ofNat_toNat] at hc
  rw [hc, Bool.or_eq_true, beq_iff_eq]

theorem toNat_lt_of_isAlphanum (h : c.isAlphanum ∨ c = '_') : c.toNat < 128 := by
  rcases h with h | rfl
  · have h : ((decide (c.val ≥ 'A'.val ∧ c.val ≤ 'Z'.val) ||
        (decide (c.val ≥ 'a'.val) && decide (c.val ≤ 'z'.val))) ||
        (decide (c.val ≥ '0'.val) && decide (c.val ≤ '9'.val))) = true := h
    simp only [Bool.or_eq_true, Bool.and_eq_true, decide_eq_true_eq, UInt32.le_iff_toNat_le] at h
    have hz : ('z' : Char).val.toNat = 122 := rfl
    have hZ : ('Z' : Char).val.toNat = 90 := rfl
    have h9 : ('9' : Char).val.toNat = 57 := rfl
    change c.val.toNat < 128
    omega
  · decide

/-- **A name is a word**, in bytes. -/
theorem isWord_encode_iff {s : String} : Line.IsWord (encode s) ↔ IsName s := by
  refine and_congr (not_congr ?_) (forall_mem_ofChars_iff (fun _ => lt_of_isWord)
    (fun _ => toNat_lt_of_isAlphanum) (fun _ => isWord_ascii_iff))
  rw [encode, ofChars_eq_nil_iff, String.toList_eq_nil_iff]

/-- A word is the name it spells. -/
theorem encode_decode_of_isWord {word : Bytes} (h : Line.IsWord word) :
    encode (decode word) = word := encode_decode_of_ascii fun b hb => lt_of_isWord (h.2 b hb)

/-! ## The ends of a text -/

/-- The first byte of a character is a blank where the character is one. -/
theorem isBlank_of_utf8EncodeChar_eq_cons {bs : Bytes} (h : String.utf8EncodeChar c = b :: bs) :
    Bytes.isBlank b ↔ IsBlank c := by
  by_cases hc : c.toNat < 128
  · rw [utf8EncodeChar_of_lt hc] at h
    cases h
    exact isBlank_ascii_iff hc
  · refine ⟨fun hb => ?_, fun hb => absurd hb.lt hc⟩
    have hle := le_of_mem_utf8EncodeChar (c := c) (b := b) (by omega) (by simp [h])
    exact absurd (lt_of_isBlank hb) (UInt8.not_lt.2 hle)

/-- What is left of a text without the blanks in front is text. -/
theorem exists_skipBlanks_ofChars (cs : List Char) :
    ∃ cs', skipBlanks (ofChars cs) = ofChars cs' := by
  induction cs with
  | nil => exact ⟨[], rfl⟩
  | cons c cs ih =>
    by_cases hc : IsBlank c
    · obtain ⟨cs', h⟩ := ih
      refine ⟨cs', ?_⟩
      rw [ofChars_ascii_cons hc.lt, skipBlanks_cons_of_isBlank ((isBlank_ascii_iff hc.lt).2 hc), h]
    · obtain ⟨b, bs, he, -⟩ := exists_utf8EncodeChar_eq_cons c
      refine ⟨c :: cs, ?_⟩
      rw [ofChars_cons, he]
      exact skipBlanks_cons_of_not_isBlank fun hb =>
        hc ((isBlank_of_utf8EncodeChar_eq_cons he).1 hb)

/-- No blank stands at the start of a text where no byte of one does. -/
theorem skipBlanks_ofChars_eq_self_iff :
    skipBlanks (ofChars cs) = ofChars cs ↔ ∀ c, cs.head? = some c → ¬ IsBlank c := by
  rw [skipBlanks_eq_self_iff]
  cases cs with
  | nil => simp
  | cons c cs =>
    obtain ⟨b, bs, he, -⟩ := exists_utf8EncodeChar_eq_cons c
    rw [ofChars_cons, he]
    simp only [List.cons_append, List.head?_cons, Option.some.injEq, forall_eq']
    exact not_congr (isBlank_of_utf8EncodeChar_eq_cons he)

/-- Nor at the end. -/
theorem endsPlain_ofChars_iff :
    EndsPlain (ofChars cs) ↔ ∀ c, cs.getLast? = some c → ¬ IsBlank c := by
  rcases List.eq_nil_or_concat cs with rfl | ⟨cs, c, rfl⟩
  · simp [endsPlain_nil]
  · rw [List.concat_eq_append, ofChars_append, ofChars_cons, ofChars_nil, List.append_nil]
    by_cases hc : c.toNat < 128
    · simp [EndsPlain, utf8EncodeChar_of_lt hc, ← isBlank_ascii_iff hc]
    · have hne : String.utf8EncodeChar c ≠ [] := by
        obtain ⟨x, xs, he, -⟩ := exists_utf8EncodeChar_eq_cons c
        simp [he]
      refine iff_of_true (fun b hb hblank => ?_) ?_
      · rw [List.getLast?_append, List.getLast?_eq_some_getLast hne, Option.some_or,
          Option.some.injEq] at hb
        have hle := le_of_mem_utf8EncodeChar (by omega) (List.getLast_mem hne)
        exact absurd (lt_of_isBlank hblank) (UInt8.not_lt.2 (hb ▸ hle))
      · simpa using fun h : IsBlank c => hc h.lt

/-! ## Literals -/

/-- **Where a text closes, its bytes close.** A character other than the quote
and the backslash is plain, all its bytes included. A backslash takes with
it the first byte of the next character, and the others are plain. -/
theorem closes_ofChars_iff (hq : q.toNat < 128) (hqs : q ≠ '\\') : ∀ cs : List Char,
    Line.Closes (ascii '\\') (ascii q) (ofChars cs) ↔ Line.Closes '\\' q cs
  | [] => by
    refine iff_of_false ?_ ?_ <;> intro h <;> cases h
  | c :: cs => by
    have hbytes : ascii q ≠ ascii '\\' := fun h => hqs ((ascii_inj hq (by decide)).1 h)
    have hplain : ∀ {b}, (0x80 : UInt8) ≤ b → b ≠ ascii q ∧ b ≠ ascii '\\' := fun h =>
      ⟨ascii_ne_of_le hq h, ascii_ne_of_le (by decide) h⟩
    by_cases hcq : c = q
    · subst hcq
      rw [ofChars_ascii_cons hq, Line.closes_quote_cons_iff hbytes, ofChars_eq_nil_iff,
        Line.closes_quote_cons_iff hqs]
    by_cases hcs : c = '\\'
    · subst hcs
      rw [ofChars_ascii_cons (by decide), Line.closes_escape_cons_iff hbytes,
        Line.closes_escape_cons_iff hqs]
      cases cs with
      | nil => simp
      | cons d cs =>
        -- the backslash takes `b`, and the bytes `bs` are beyond ASCII
        obtain ⟨b, bs, he, -, hbs⟩ := exists_utf8EncodeChar_eq_cons d
        have hstrip := Line.closes_append_iff (l := ofChars cs) fun x hx => hplain (hbs x hx)
        simp only [ofChars_cons, he, List.cons_append, List.cons.injEq, exists_and_left,
          and_assoc, exists_eq_left', hstrip, closes_ofChars_iff hq hqs cs]
    · rw [ofChars_cons, Line.closes_append_iff fun x hx => ?_, closes_ofChars_iff hq hqs cs,
        Line.closes_cons_iff hcq hcs]
      by_cases hc : c.toNat < 128
      · rw [utf8EncodeChar_of_lt hc, List.mem_singleton] at hx
        subst hx
        exact ⟨fun h => hcq ((ascii_inj hc hq).1 h),
          fun h => hcs ((ascii_inj hc (by decide)).1 h)⟩
      · exact hplain (le_of_mem_utf8EncodeChar (by omega) hx)
  termination_by cs => cs.length

/-- **A text is a literal where its bytes are one.** -/
theorem isLiteral_ofChars_iff : Line.IsLiteral (ofChars cs) ↔ IsLiteral cs := by
  constructor
  · rintro ⟨b, rest, hb, he, hc⟩
    have hb' : b = ascii '\'' ∨ b = ascii '"' := by simpa [isQuote] using hb
    have hlt : b < 0x80 := by rcases hb' with rfl | rfl <;> decide
    obtain ⟨cs₁, q, cs₂, rfl, h₁, hq, rfl, rfl⟩ := exists_chars_of_ofChars_eq (a := []) hlt he
    rw [ofChars_eq_nil_iff] at h₁
    subst h₁
    have hquote : q = '\'' ∨ q = '"' :=
      hb'.imp (ascii_inj hq (by decide)).1 (ascii_inj hq (by decide)).1
    have hqs : q ≠ '\\' := by rcases hquote with rfl | rfl <;> decide
    exact ⟨q, cs₂, hquote, rfl, (closes_ofChars_iff hq hqs cs₂).1 hc⟩
  · rintro ⟨q, rest, hquote, rfl, hc⟩
    have hq : q.toNat < 128 := by rcases hquote with rfl | rfl <;> decide
    have hqs : q ≠ '\\' := by rcases hquote with rfl | rfl <;> decide
    have hb : isQuote (ascii q) := by rcases hquote with rfl | rfl <;> decide
    exact ⟨ascii q, ofChars rest, hb, ofChars_ascii_cons hq, (closes_ofChars_iff hq hqs rest).2 hc⟩

/-! ## Terminators -/

theorem isTerminator_ofChars {t : List Char} (h : IsTerminator k t) :
    Line.IsTerminator k (ofChars t) := by
  cases k with
  | const =>
    obtain ⟨blanks, hb, rfl⟩ := h
    rw [ofChars_ascii_cons (by decide), ofChars_append]
    exact (Line.IsTerminator.const allBlank_nil (allBlank_ofChars_iff.2 hb) :)
  | var =>
    obtain rfl : t = [';'] := h
    exact (Line.IsTerminator.var allBlank_nil :)

/-- A terminator starts with a character of ASCII. -/
theorem exists_cons_of_isTerminator {t : Bytes} (h : Line.IsTerminator k t) :
    ∃ b t', t = b :: t' ∧ b < 0x80 := by
  obtain ⟨b, t', rfl, hb⟩ := h.exists_cons
  refine ⟨b, t', rfl, ?_⟩
  rcases hb with hb | rfl | rfl
  · exact lt_of_isBlank hb
  · decide
  · decide

/-- **A text has a terminator in it where its bytes have one.** -/
theorem hasTerminator_ofChars_iff : Line.HasTerminator k (ofChars cs) ↔ HasTerminator k cs := by
  constructor
  · rintro ⟨t, ht, a, b, he⟩
    cases ht with
    | @const b₁ b₂ h₁ h₂ =>
      have he' : ofChars cs = a ++ b₁ ++ ascii ')' :: (b₂ ++ ascii ';' :: b) := by rw [← he]; simp
      obtain ⟨cs₁, c, cs₂, rfl, -, hc, hcb, h₃⟩ := exists_chars_of_ofChars_eq (by decide) he'
      obtain rfl := (ascii_inj hc (by decide)).1 hcb
      obtain ⟨blanks, d, cs₄, rfl, rfl, hd, hdb, -⟩ := exists_chars_of_ofChars_eq (by decide) h₃
      obtain rfl := (ascii_inj hd (by decide)).1 hdb
      exact ⟨_, ⟨blanks, allBlank_ofChars_iff.1 h₂, rfl⟩, cs₁, cs₄, by simp⟩
    | @var b₁ h₁ =>
      have he' : ofChars cs = a ++ b₁ ++ ascii ';' :: b := by rw [← he]; simp
      obtain ⟨cs₁, c, cs₂, rfl, -, hc, hcb, -⟩ := exists_chars_of_ofChars_eq (by decide) he'
      obtain rfl := (ascii_inj hc (by decide)).1 hcb
      exact ⟨[';'], rfl, cs₁, cs₂, by simp⟩
  · rintro ⟨t, ht, a, b, rfl⟩
    exact ⟨ofChars t, isTerminator_ofChars ht, ofChars a, ofChars b, by simp⟩

end Text

end SiteConfig
