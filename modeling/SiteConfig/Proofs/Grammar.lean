import SiteConfig.Declaration.Line
/-!
# The grammar of a declaration

The parts of a declaration as sets of texts, and what the readers make of
them. A head is what stands before the value (`IsHead`), a terminator is
what ends the declaration (`IsTerminator`), and a literal is a quoted text
up to its own last quote (`IsLiteral`). Each reader reads exactly a text of
its set: `head?_eq_some_iff`, `terminator?_eq_some_iff` and
`literal?_eq_some_iff`.
-/

namespace SiteConfig

namespace Bytes

/-- Only blanks, or nothing. -/
def AllBlank (text : Bytes) : Prop := ∀ b ∈ text, isBlank b

variable {b : UInt8} {text blanks : Bytes}

@[simp] theorem allBlank_nil : AllBlank [] := by simp [AllBlank]

@[simp] theorem allBlank_cons : AllBlank (b :: text) ↔ isBlank b ∧ AllBlank text := by
  simp [AllBlank]

@[simp] theorem allBlank_append {a : Bytes} :
    AllBlank (a ++ text) ↔ AllBlank a ∧ AllBlank text := by
  simp [AllBlank, or_imp, forall_and]

/-! ## Skipping blanks -/

theorem skipBlanks_cons_of_isBlank (h : isBlank b) : skipBlanks (b :: text) = skipBlanks text := by
  simp [skipBlanks, h]

theorem skipBlanks_cons_of_not_isBlank (h : ¬ isBlank b) : skipBlanks (b :: text) = b :: text := by
  simp [skipBlanks, h]

/-- Blanks in front are skipped. -/
theorem skipBlanks_append (h : AllBlank blanks) :
    skipBlanks (blanks ++ text) = skipBlanks text := by
  induction blanks with
  | nil => rfl
  | cons b blanks ih =>
    rw [allBlank_cons] at h
    rw [List.cons_append, skipBlanks_cons_of_isBlank h.1, ih h.2]

/-- A text with a byte that is not blank keeps what follows that byte. -/
theorem skipBlanks_append_of_not_allBlank {a : Bytes} (h : ¬ AllBlank a) :
    skipBlanks (a ++ text) = skipBlanks a ++ text := by
  induction a with
  | nil => simp at h
  | cons b a ih =>
    by_cases hb : isBlank b
    · have ha : ¬ AllBlank a := fun ha => h (allBlank_cons.2 ⟨hb, ha⟩)
      rw [List.cons_append, skipBlanks_cons_of_isBlank hb, skipBlanks_cons_of_isBlank hb, ih ha]
    · rw [List.cons_append, skipBlanks_cons_of_not_isBlank hb, skipBlanks_cons_of_not_isBlank hb,
        List.cons_append]

/-- What is skipped is blank. -/
theorem exists_blanks (text : Bytes) :
    ∃ blanks, AllBlank blanks ∧ text = blanks ++ skipBlanks text := by
  induction text with
  | nil => exact ⟨[], allBlank_nil, rfl⟩
  | cons b text ih =>
    by_cases hb : isBlank b
    · obtain ⟨blanks, hall, he⟩ := ih
      refine ⟨b :: blanks, allBlank_cons.2 ⟨hb, hall⟩, ?_⟩
      rw [skipBlanks_cons_of_isBlank hb, List.cons_append, ← he]
    · exact ⟨[], allBlank_nil, by rw [skipBlanks_cons_of_not_isBlank hb]; rfl⟩

/-- What is left does not start with a blank. -/
theorem not_isBlank_of_skipBlanks_eq_cons (h : skipBlanks text = b :: blanks) : ¬ isBlank b := by
  induction text with
  | nil => simp [skipBlanks] at h
  | cons c text ih =>
    by_cases hc : isBlank c
    · exact ih (skipBlanks_cons_of_isBlank hc ▸ h)
    · rw [skipBlanks_cons_of_not_isBlank hc] at h
      cases h
      exact hc

/-- Skipping twice is skipping once. -/
@[simp] theorem skipBlanks_skipBlanks (text : Bytes) :
    skipBlanks (skipBlanks text) = skipBlanks text := by
  cases h : skipBlanks text with
  | nil => rfl
  | cons b rest => exact skipBlanks_cons_of_not_isBlank (not_isBlank_of_skipBlanks_eq_cons h)

theorem skipBlanks_suffix (text : Bytes) : skipBlanks text <:+ text :=
  List.dropWhile_suffix isBlank

/-- A text is left whole where it does not start with a blank. -/
theorem skipBlanks_eq_self_iff :
    skipBlanks text = text ↔ ∀ b, text.head? = some b → ¬ isBlank b := by
  cases text with
  | nil => simp [skipBlanks]
  | cons c text =>
    simp only [List.head?_cons, Option.some.injEq, forall_eq']
    refine ⟨fun h => not_isBlank_of_skipBlanks_eq_cons h, skipBlanks_cons_of_not_isBlank⟩

/-! ## Blanks at the end -/

/-- A text that does not end in a blank. -/
def EndsPlain (text : Bytes) : Prop := ∀ b, text.getLast? = some b → ¬ isBlank b

theorem endsPlain_nil : EndsPlain [] := by simp [EndsPlain]

/-- A suffix of a text ends as the text does. -/
theorem EndsPlain.of_suffix {a : Bytes} (h : EndsPlain text) (ha : a <:+ text) : EndsPlain a := by
  obtain ⟨c, rfl⟩ := ha
  intro b hb
  exact h b (by simp [List.getLast?_append, hb])

theorem EndsPlain.not_allBlank (h : EndsPlain text) (hne : text ≠ []) : ¬ AllBlank text := by
  intro hall
  have hb := List.getLast?_eq_some_getLast hne
  exact h _ hb (hall _ (List.getLast_mem hne))

end Bytes

namespace Line

open Bytes

variable {k : Kind} {b q : UInt8} {name text rest line : Bytes}

/-! ## The small readers -/

theorem byte?_eq_some_iff : byte? b text = some rest ↔ text = b :: rest := by
  cases text with
  | nil => simp [byte?]
  | cons c text =>
    rw [byte?]
    by_cases h : c = b <;> simp [h]

@[simp] theorem byte?_cons_self : byte? b (b :: text) = some text := byte?_eq_some_iff.2 rfl

theorem byte?_cons_of_ne {c : UInt8} (h : c ≠ b) : byte? b (c :: text) = none := by simp [byte?, h]

theorem quote?_eq_some_iff : quote? text = some rest ↔ ∃ q, isQuote q ∧ text = q :: rest := by
  cases text with
  | nil => simp [quote?]
  | cons c text =>
    rw [quote?]
    constructor
    · intro h
      split at h
      · next hc => exact ⟨c, hc, by simpa using h⟩
      · cases h
    · rintro ⟨q, hq, he⟩
      obtain ⟨rfl, rfl⟩ := List.cons.inj he
      rw [if_pos hq]

/-- A word, which has at least one byte. -/
def IsWord (word : Bytes) : Prop := word ≠ [] ∧ ∀ b ∈ word, isWord b

/-- A word is read up to the first byte that is not of a word. -/
theorem word?_append {word : Bytes} (h : IsWord word) (hb : ¬ isWord b) :
    word? (word ++ b :: text) = some (word, b :: text) := by
  have htake : (word ++ b :: text).takeWhile isWord = word := by
    rw [List.takeWhile_append_of_pos h.2]
    simp [hb]
  have hdrop : (word ++ b :: text).dropWhile isWord = b :: text := by
    rw [List.dropWhile_append_of_pos h.2]
    simp [hb]
  rw [word?, htake, hdrop, if_neg h.1]

theorem isWord_of_word?_eq_some {word : Bytes} (h : word? text = some (word, rest)) :
    IsWord word ∧ text = word ++ rest := by
  by_cases hne : text.takeWhile isWord = []
  · simp [word?, hne] at h
  · simp only [word?, hne, if_false, Option.some.injEq, Prod.mk.injEq] at h
    obtain ⟨rfl, rfl⟩ := h
    exact ⟨⟨hne, fun b hb => List.all_eq_true.1 List.all_takeWhile b hb⟩,
      List.takeWhile_append_dropWhile.symm⟩

theorem word?_suffix {found : Bytes × Bytes} (h : word? text = some found) : found.2 <:+ text :=
  (isWord_of_word?_eq_some h).2 ▸ List.suffix_append _ _

theorem keyword?_eq_some_iff {keyword : Bytes} :
    keyword? keyword text = some rest ↔
      ∃ word, word.map toLower = keyword ∧ text = word ++ rest := by
  induction keyword generalizing text with
  | nil => simp [keyword?]
  | cons b keyword ih =>
    cases text with
    | nil =>
      constructor
      · intro h; cases h
      · rintro ⟨word, hw, he⟩
        obtain ⟨rfl, -⟩ := List.append_eq_nil_iff.1 he.symm
        cases hw
    | cons c text =>
      rw [keyword?]
      constructor
      · intro h
        split at h
        · next hc =>
          obtain ⟨word, hw, rfl⟩ := ih.1 h
          exact ⟨c :: word, by simp [hc, hw], rfl⟩
        · cases h
      · rintro ⟨word, hw, he⟩
        obtain ⟨c', word, rfl, hc, hw'⟩ := List.map_eq_cons_iff.1 hw
        obtain ⟨rfl, rfl⟩ := List.cons.inj he
        rw [if_pos hc]
        exact ih.2 ⟨word, hw', rfl⟩

/-! ## Bytes that mark -/

theorem not_isWord_of_isQuote (h : isQuote q) : ¬ isWord q := by
  simp only [isQuote, Bool.or_eq_true, beq_iff_eq] at h
  rcases h with rfl | rfl <;> decide

theorem not_isBlank_of_isQuote (h : isQuote q) : ¬ isBlank q := by
  simp only [isQuote, Bool.or_eq_true, beq_iff_eq] at h
  rcases h with rfl | rfl <;> decide

theorem isBlank_iff : isBlank b ↔ b = ascii ' ' ∨ b = ascii '\t' := by simp [isBlank]

theorem not_isWord_of_isBlank (h : isBlank b) : ¬ isWord b := by
  rcases isBlank_iff.1 h with rfl | rfl <;> decide

/-! ## Heads -/

/-- The texts of a declaration of `name` up to its value. Blanks may stand in
all the places where they may be skipped, the last of them before the
value. -/
inductive IsHead : Kind → Bytes → Bytes → Prop
  | const {name keyword : Bytes} {q q' : UInt8} {b₁ b₂ b₃ b₄ b₅ : Bytes} :
      IsWord name → keyword.map toLower = defineKeyword → isQuote q → isQuote q' →
      AllBlank b₁ → AllBlank b₂ → AllBlank b₃ → AllBlank b₄ → AllBlank b₅ →
      IsHead .const name (b₁ ++ (keyword ++ (b₂ ++ ascii '(' ::
        (b₃ ++ q :: (name ++ q' :: (b₄ ++ ascii ',' :: b₅))))))
  | var {name b₁ b₂ b₃ : Bytes} :
      IsWord name → AllBlank b₁ → AllBlank b₂ → AllBlank b₃ →
      IsHead .var name (b₁ ++ ascii '$' :: (name ++ (b₂ ++ ascii '=' :: b₃)))

namespace IsHead

theorem isWord {head : Bytes} (h : IsHead k name head) : IsWord name := by
  cases h <;> assumption

/-- Blanks may follow a head. -/
theorem append_blanks {head blanks : Bytes} (h : IsHead k name head) (hb : AllBlank blanks) :
    IsHead k name (head ++ blanks) := by
  cases h with
  | const hn hk hq hq' h₁ h₂ h₃ h₄ h₅ =>
    simpa using const hn hk hq hq' h₁ h₂ h₃ h₄ (allBlank_append.2 ⟨h₅, hb⟩)
  | var hn h₁ h₂ h₃ => simpa using var hn h₁ h₂ (allBlank_append.2 ⟨h₃, hb⟩)

/-- Blanks may stand in front of a head. -/
theorem blanks_append {head blanks : Bytes} (h : IsHead k name head) (hb : AllBlank blanks) :
    IsHead k name (blanks ++ head) := by
  cases h with
  | const hn hk hq hq' h₁ h₂ h₃ h₄ h₅ =>
    rw [← List.append_assoc]
    exact const hn hk hq hq' (allBlank_append.2 ⟨hb, h₁⟩) h₂ h₃ h₄ h₅
  | var hn h₁ h₂ h₃ =>
    rw [← List.append_assoc]
    exact var hn (allBlank_append.2 ⟨hb, h₁⟩) h₂ h₃

/-- A head lies on one line. -/
theorem lineFeed_not_mem {head : Bytes} (h : IsHead k name head) : lineFeed ∉ head := by
  have hblank : ∀ {bs : Bytes}, AllBlank bs → lineFeed ∉ bs := fun hbs hm =>
    absurd (hbs _ hm) (by decide)
  have hword : lineFeed ∉ name := fun hm => absurd (h.isWord.2 _ hm) (by decide)
  cases h with
  | @const name keyword q q' b₁ b₂ b₃ b₄ b₅ hn hk hq hq' h₁ h₂ h₃ h₄ h₅ =>
    have hkey : lineFeed ∉ keyword := fun hm =>
      absurd (hk ▸ List.mem_map_of_mem hm : toLower lineFeed ∈ defineKeyword) (by decide)
    have hquote : ∀ {c}, isQuote c → lineFeed ≠ c := by
      rintro c hc rfl
      exact absurd hc (by decide)
    simp only [List.mem_append, List.mem_cons, hblank h₁, hkey, hblank h₂, hblank h₃, hquote hq,
      hword, hquote hq', hblank h₄, hblank h₅, or_false, false_or, not_or]
    decide
  | var hn h₁ h₂ h₃ =>
    simp only [List.mem_append, List.mem_cons, hblank h₁, hword, hblank h₂, hblank h₃, or_false,
      false_or, not_or]
    decide

end IsHead

/-- The first letter of the keyword of a constant is no blank. -/
theorem skipBlanks_keyword {keyword : Bytes} (h : keyword.map toLower = defineKeyword) :
    skipBlanks (keyword ++ text) = keyword ++ text := by
  obtain ⟨c, keyword, rfl, hc, -⟩ := List.map_eq_cons_iff.1 h
  refine skipBlanks_cons_of_not_isBlank fun hb => ?_
  rcases isBlank_iff.1 hb with rfl | rfl <;> exact absurd hc (by decide)

/-- A word is read up to blanks and a byte that marks. -/
theorem word?_append_blanks {word blanks : Bytes} (h : IsWord word) (hb : AllBlank blanks)
    (hm : ¬ Bytes.isWord b) :
    word? (word ++ (blanks ++ b :: text)) = some (word, blanks ++ b :: text) := by
  cases blanks with
  | nil => exact word?_append h hm
  | cons c blanks => exact word?_append h (not_isWord_of_isBlank (allBlank_cons.1 hb).1)

/-- **A head is read whole**, whatever follows it. -/
theorem head?_append {head : Bytes} (h : IsHead k name head) (text : Bytes) :
    head? k (head ++ text) = some (name, skipBlanks text) := by
  cases h with
  | @const name keyword q q' b₁ b₂ b₃ b₄ b₅ hn hk hq hq' h₁ h₂ h₃ h₄ h₅ =>
    have hkey : ∀ t, keyword? defineKeyword (keyword ++ t) = some t := fun t =>
      keyword?_eq_some_iff.2 ⟨keyword, hk, rfl⟩
    have hquote : ∀ t {c}, isQuote c → quote? (c :: t) = some t := fun t c hc =>
      quote?_eq_some_iff.2 ⟨c, hc, rfl⟩
    simp only [head?, List.append_assoc, List.cons_append, skipBlanks_append h₁,
      skipBlanks_keyword hk, hkey, Option.bind_eq_bind, Option.bind_some, skipBlanks_append h₂,
      skipBlanks_cons_of_not_isBlank (b := ascii '(') (by decide), byte?_cons_self,
      skipBlanks_append h₃, skipBlanks_cons_of_not_isBlank (not_isBlank_of_isQuote hq),
      hquote _ hq, word?_append hn (not_isWord_of_isQuote hq'), hquote _ hq',
      skipBlanks_append h₄, skipBlanks_cons_of_not_isBlank (b := ascii ',') (by decide),
      skipBlanks_append h₅]
    rfl
  | @var name b₁ b₂ b₃ hn h₁ h₂ h₃ =>
    simp only [head?, List.append_assoc, List.cons_append, skipBlanks_append h₁,
      skipBlanks_cons_of_not_isBlank (b := ascii '$') (by decide), byte?_cons_self,
      Option.bind_eq_bind, Option.bind_some,
      word?_append_blanks hn h₂ (b := ascii '=') (by decide), skipBlanks_append h₂,
      skipBlanks_cons_of_not_isBlank (b := ascii '=') (by decide), skipBlanks_append h₃]
    rfl

/-- What is read is a head, with all the blanks after it. -/
theorem exists_isHead_of_head?_eq_some (h : head? k line = some (name, text)) :
    ∃ head, IsHead k name head ∧ line = head ++ text ∧ skipBlanks text = text := by
  cases k with
  | const =>
    simp only [head?, Option.bind_eq_bind, Option.bind_eq_some_iff, Option.pure_def,
      Option.some.injEq, Prod.mk.injEq, Prod.exists] at h
    obtain ⟨t₁, hk, t₂, hp, t₃, ho, n, t₄, hw, t₅, hs, t₆, hc, rfl, rfl⟩ := h
    obtain ⟨keyword, hkey, ht₁⟩ := keyword?_eq_some_iff.1 hk
    obtain ⟨hn, rfl⟩ := isWord_of_word?_eq_some hw
    obtain ⟨q, hq, ht₃⟩ := quote?_eq_some_iff.1 ho
    obtain ⟨q', hq', rfl⟩ := quote?_eq_some_iff.1 hs
    rw [byte?_eq_some_iff] at hp hc
    obtain ⟨b₁, h₁, he₁⟩ := exists_blanks line
    obtain ⟨b₂, h₂, he₂⟩ := exists_blanks t₁
    obtain ⟨b₃, h₃, he₃⟩ := exists_blanks t₂
    obtain ⟨b₄, h₄, he₄⟩ := exists_blanks t₅
    obtain ⟨b₅, h₅, he₅⟩ := exists_blanks t₆
    -- each reader gives back its own part of the line, and the blanks in front of it are skipped
    refine ⟨_, .const hn hkey hq hq' h₁ h₂ h₃ h₄ h₅, ?_, skipBlanks_skipBlanks t₆⟩
    rw [he₁, ht₁, he₂, hp, he₃, ht₃, he₄, hc]
    simpa using he₅
  | var =>
    simp only [head?, Option.bind_eq_bind, Option.bind_eq_some_iff, Option.pure_def,
      Option.some.injEq, Prod.mk.injEq, Prod.exists] at h
    obtain ⟨t₁, hd, n, t₂, hw, t₃, he, rfl, rfl⟩ := h
    obtain ⟨hn, rfl⟩ := isWord_of_word?_eq_some hw
    rw [byte?_eq_some_iff] at hd he
    obtain ⟨b₁, h₁, he₁⟩ := exists_blanks line
    obtain ⟨b₂, h₂, he₂⟩ := exists_blanks t₂
    obtain ⟨b₃, h₃, he₃⟩ := exists_blanks t₃
    refine ⟨_, .var hn h₁ h₂ h₃, ?_, skipBlanks_skipBlanks t₃⟩
    rw [he₁, hd, he₂, he]
    simpa using he₃

/-- **A head is read exactly**, with the blanks after it. -/
theorem head?_eq_some_iff : head? k line = some (name, text) ↔
    ∃ head, IsHead k name head ∧ line = head ++ text ∧ skipBlanks text = text := by
  constructor
  · exact exists_isHead_of_head?_eq_some
  · rintro ⟨head, h, rfl, ht⟩
    rw [head?_append h, ht]

/-- The heads of the two kinds differ in their first mark. -/
theorem head?_append_of_ne {k' : Kind} {head : Bytes} (h : IsHead k name head) (hk : k' ≠ k)
    (text : Bytes) : head? k' (head ++ text) = none := by
  cases h with
  | @const name keyword q q' b₁ b₂ b₃ b₄ b₅ hn hkey hq hq' h₁ h₂ h₃ h₄ h₅ =>
    obtain rfl : k' = .var := by cases k' <;> simp_all
    obtain ⟨c, keyword, rfl, hc, -⟩ := List.map_eq_cons_iff.1 hkey
    have hc : c ≠ ascii '$' := by rintro rfl; exact absurd hc (by decide)
    rw [head?, List.append_assoc, skipBlanks_append h₁, List.append_assoc,
      skipBlanks_keyword hkey, List.cons_append, byte?_cons_of_ne hc]
    rfl
  | @var name b₁ b₂ b₃ hn h₁ h₂ h₃ =>
    obtain rfl : k' = .const := by cases k' <;> simp_all
    simp only [head?, List.append_assoc, List.cons_append, skipBlanks_append h₁,
      skipBlanks_cons_of_not_isBlank (b := ascii '$') (by decide)]
    rfl

/-! ## Terminators -/

/-- The ends of a declaration, with blanks in all the places where they may
be skipped. -/
inductive IsTerminator : Kind → Bytes → Prop
  | const {b₁ b₂ : Bytes} : AllBlank b₁ → AllBlank b₂ →
      IsTerminator .const (b₁ ++ ascii ')' :: (b₂ ++ [ascii ';']))
  | var {b₁ : Bytes} : AllBlank b₁ → IsTerminator .var (b₁ ++ [ascii ';'])

/-- A terminator stands somewhere in the text. -/
def HasTerminator (k : Kind) (text : Bytes) : Prop := ∃ t, IsTerminator k t ∧ t <:+: text

namespace IsTerminator

variable {t : Bytes}

/-- Blanks in front of a terminator belong to it. -/
theorem blanks_append {blanks : Bytes} (h : IsTerminator k t) (hb : AllBlank blanks) :
    IsTerminator k (blanks ++ t) := by
  cases h with
  | const h₁ h₂ => simpa using const (allBlank_append.2 ⟨hb, h₁⟩) h₂
  | var h₁ => simpa using var (allBlank_append.2 ⟨hb, h₁⟩)

/-- Nor does a terminator need the blanks in front. -/
theorem skipBlanks (h : IsTerminator k t) : IsTerminator k (Bytes.skipBlanks t) := by
  cases h with
  | @const b₁ b₂ h₁ h₂ =>
    rw [skipBlanks_append h₁, skipBlanks_cons_of_not_isBlank (by decide)]
    exact (const allBlank_nil h₂ : IsTerminator .const ([] ++ _))
  | @var b₁ h₁ =>
    rw [skipBlanks_append h₁, skipBlanks_cons_of_not_isBlank (by decide)]
    exact (var allBlank_nil : IsTerminator .var ([] ++ _))

theorem ne_nil (h : IsTerminator k t) : t ≠ [] := by cases h <;> simp

/-- A terminator lies on one line. -/
theorem lineFeed_not_mem (h : IsTerminator k t) : lineFeed ∉ t := by
  have hblank : ∀ {bs : Bytes}, AllBlank bs → lineFeed ∉ bs := fun hbs hm =>
    absurd (hbs _ hm) (by decide)
  cases h with
  | const h₁ h₂ =>
    simp only [List.mem_append, List.mem_cons, hblank h₁, hblank h₂, List.not_mem_nil, or_false,
      false_or, not_or]
    decide
  | var h₁ =>
    simp only [List.mem_append, List.mem_cons, hblank h₁, List.not_mem_nil, or_false, false_or]
    decide

/-- A terminator has one semicolon. -/
theorem count_semicolon (h : IsTerminator k t) : t.count (ascii ';') = 1 := by
  have hblank : ∀ {bs : Bytes}, AllBlank bs → bs.count (ascii ';') = 0 := fun hbs =>
    List.count_eq_zero.2 fun hm => absurd (hbs _ hm) (by decide)
  cases h with
  | const h₁ h₂ => simp [List.count_append, List.count_cons, hblank h₁, hblank h₂]; decide
  | var h₁ => simp [List.count_append, hblank h₁]

/-- A terminator is not only blanks. -/
theorem not_allBlank (h : IsTerminator k t) : ¬ AllBlank t := fun hall => by
  have hcount := h.count_semicolon
  have hsemicolon : ascii ';' ∈ t := List.count_pos_iff.1 (by omega)
  exact absurd (hall _ hsemicolon) (by decide)

/-- A terminator is made of blanks, a parenthesis and a semicolon. -/
theorem mem_cases (h : IsTerminator k t) (hb : b ∈ t) :
    isBlank b ∨ b = ascii ')' ∨ b = ascii ';' := by
  cases h with
  | const h₁ h₂ =>
    simp only [List.mem_append, List.mem_cons, List.not_mem_nil, or_false] at hb
    rcases hb with hb | rfl | hb | rfl
    · exact .inl (h₁ b hb)
    · exact .inr (.inl rfl)
    · exact .inl (h₂ b hb)
    · exact .inr (.inr rfl)
  | var h₁ =>
    rw [List.mem_append, List.mem_singleton] at hb
    rcases hb with hb | rfl
    · exact .inl (h₁ b hb)
    · exact .inr (.inr rfl)

/-- A terminator starts with a blank, a parenthesis or a semicolon. -/
theorem exists_cons (h : IsTerminator k t) :
    ∃ b t', t = b :: t' ∧ (isBlank b ∨ b = ascii ')' ∨ b = ascii ';') := by
  obtain ⟨b, t', rfl⟩ := List.exists_cons_of_ne_nil h.ne_nil
  exact ⟨b, t', rfl, h.mem_cases List.mem_cons_self⟩

end IsTerminator

/-- **A terminator is read exactly.** -/
theorem terminator?_eq_some_iff :
    terminator? k text = some rest ↔ ∃ t, IsTerminator k t ∧ text = t ++ rest := by
  cases k with
  | const =>
    rw [terminator?, Option.bind_eq_bind, Option.bind_eq_some_iff]
    constructor
    · rintro ⟨t, hp, hs⟩
      rw [byte?_eq_some_iff] at hp hs
      obtain ⟨b₁, h₁, he₁⟩ := exists_blanks text
      obtain ⟨b₂, h₂, he₂⟩ := exists_blanks t
      refine ⟨_, .const h₁ h₂, ?_⟩
      rw [he₁, hp, he₂, hs]
      simp
    · rintro ⟨t, h, rfl⟩
      cases h with
      | @const b₁ b₂ h₁ h₂ =>
        refine ⟨b₂ ++ (ascii ';' :: rest), ?_, ?_⟩
        · rw [List.append_assoc, skipBlanks_append h₁, byte?_eq_some_iff]
          simpa using skipBlanks_cons_of_not_isBlank (b := ascii ')') (by decide)
        · rw [skipBlanks_append h₂, byte?_eq_some_iff]
          exact skipBlanks_cons_of_not_isBlank (by decide)
  | var =>
    rw [terminator?, byte?_eq_some_iff]
    constructor
    · intro h
      obtain ⟨b₁, h₁, he₁⟩ := exists_blanks text
      exact ⟨_, .var h₁, by rw [he₁, h]; simp⟩
    · rintro ⟨t, h, rfl⟩
      cases h with
      | @var b₁ h₁ =>
        rw [List.append_assoc, skipBlanks_append h₁]
        exact skipBlanks_cons_of_not_isBlank (by decide)

theorem terminator?_append {t : Bytes} (h : IsTerminator k t) (rest : Bytes) :
    terminator? k (t ++ rest) = some rest := terminator?_eq_some_iff.2 ⟨t, h, rfl⟩

/-! ## Literals -/

/-- Texts up to and with the first `quote` that no `escape` stands before.
An escape takes with it what comes after it. -/
inductive Closes {α : Type} (escape quote : α) : List α → Prop
  | quote : Closes escape quote [quote]
  | escaped {a : α} {l : List α} : Closes escape quote l → Closes escape quote (escape :: a :: l)
  | plain {a : α} {l : List α} : a ≠ quote → a ≠ escape → Closes escape quote l →
      Closes escape quote (a :: l)

/-- Quoted texts up to the quote that closes them. -/
def IsLiteral (text : Bytes) : Prop :=
  ∃ q rest, isQuote q ∧ text = q :: rest ∧ Closes (ascii '\\') q rest

/-- Plain text in front does not change where a text closes. -/
theorem closes_cons_iff {α : Type} {escape quote x : α} {l : List α} (hq : x ≠ quote)
    (he : x ≠ escape) : Closes escape quote (x :: l) ↔ Closes escape quote l := by
  constructor
  · intro h
    cases h with
    | quote => exact absurd rfl hq
    | escaped _ => exact absurd rfl he
    | plain _ _ h => exact h
  · exact Closes.plain hq he

theorem closes_quote_cons_iff {α : Type} {escape quote : α} {l : List α} (h : quote ≠ escape) :
    Closes escape quote (quote :: l) ↔ l = [] := by
  constructor
  · intro hc
    cases hc with
    | quote => rfl
    | escaped _ => exact absurd rfl h
    | plain hq _ _ => exact absurd rfl hq
  · rintro rfl
    exact .quote

theorem closes_escape_cons_iff {α : Type} {escape quote : α} {l : List α} (h : quote ≠ escape) :
    Closes escape quote (escape :: l) ↔ ∃ a l', l = a :: l' ∧ Closes escape quote l' := by
  constructor
  · intro hc
    cases hc with
    | quote => exact absurd rfl h
    | escaped hc => exact ⟨_, _, rfl, hc⟩
    | plain _ he _ => exact absurd rfl he
  · rintro ⟨a, l', rfl, hc⟩
    exact .escaped hc

theorem closes_append_iff {α : Type} {escape quote : α} {a l : List α}
    (h : ∀ x ∈ a, x ≠ quote ∧ x ≠ escape) :
    Closes escape quote (a ++ l) ↔ Closes escape quote l := by
  induction a with
  | nil => rfl
  | cons x a ih =>
    obtain ⟨hq, he⟩ := h x List.mem_cons_self
    rw [List.cons_append, closes_cons_iff hq he]
    exact ih fun y hy => h y (List.mem_cons_of_mem x hy)

theorem Closes.getLast?_eq {α : Type} {escape quote : α} {l : List α}
    (h : Closes escape quote l) : l.getLast? = some quote := by
  induction h with
  | quote => rfl
  | escaped _ ih => simp [List.getLast?_cons, ih]
  | plain _ _ _ ih => simp [List.getLast?_cons, ih]

theorem closing?_quote_cons : closing? q (q :: text) = some ([q], text) := by
  cases text <;> simp [closing?]

theorem closing?_plain_cons (hq : b ≠ q) (he : b ≠ ascii '\\') :
    closing? q (b :: text) = (closing? q text).map fun (l, rest) => (b :: l, rest) := by
  cases text <;> simp [closing?, hq, he]

/-- **A literal is read up to its closing quote.** -/
theorem closing?_eq_some_iff {l : Bytes} (hq : q ≠ ascii '\\') :
    closing? q text = some (l, rest) ↔ Closes (ascii '\\') q l ∧ text = l ++ rest := by
  constructor
  -- the reader has one case for each way in which a text can go on to its quote
  · intro h
    fun_induction closing? q text generalizing l with
    | case1 => cases h
    | case2 text =>
      simp only [Option.some.injEq, Prod.mk.injEq] at h
      obtain ⟨rfl, rfl⟩ := h
      exact ⟨.quote, rfl⟩
    | case3 => cases h
    | case4 c text hb ih =>
      obtain ⟨⟨l, r⟩, hl, heq⟩ := Option.map_eq_some_iff.1 h
      simp only [Prod.mk.injEq] at heq
      obtain ⟨rfl, rfl⟩ := heq
      obtain ⟨hc, rfl⟩ := ih hl
      exact ⟨.escaped hc, rfl⟩
    | case5 b text hb he ih =>
      obtain ⟨⟨l, r⟩, hl, heq⟩ := Option.map_eq_some_iff.1 h
      simp only [Prod.mk.injEq] at heq
      obtain ⟨rfl, rfl⟩ := heq
      obtain ⟨hc, rfl⟩ := ih hl
      exact ⟨.plain hb he hc, rfl⟩
  · rintro ⟨h, rfl⟩
    induction h with
    | quote => exact closing?_quote_cons
    | escaped _ ih => simp [closing?, hq.symm, ih]
    | plain hb he _ ih => rw [List.cons_append, closing?_plain_cons hb he, ih]; rfl

theorem closing?_suffix {found : Bytes × Bytes} (hq : q ≠ ascii '\\')
    (h : closing? q text = some found) : found.2 <:+ text :=
  ((closing?_eq_some_iff hq).1 h).2 ▸ List.suffix_append _ _

theorem literal?_eq_some_iff {l : Bytes} :
    literal? text = some (l, rest) ↔ IsLiteral l ∧ text = l ++ rest := by
  have hne : ∀ {q}, isQuote q → q ≠ ascii '\\' := by rintro q hq rfl; exact absurd hq (by decide)
  cases text with
  | nil =>
    simp only [literal?, reduceCtorEq, false_iff, not_and]
    rintro ⟨q, l, -, rfl, -⟩ h
    cases h
  | cons b text =>
    rw [literal?]
    constructor
    · intro h
      split at h
      · next hb =>
        obtain ⟨⟨l, r⟩, hl, heq⟩ := Option.map_eq_some_iff.1 h
        simp only [Prod.mk.injEq] at heq
        obtain ⟨rfl, rfl⟩ := heq
        obtain ⟨hc, rfl⟩ := (closing?_eq_some_iff (hne hb)).1 hl
        exact ⟨⟨b, l, hb, rfl, hc⟩, rfl⟩
      · cases h
    · rintro ⟨⟨q, l, hq, rfl, hc⟩, he⟩
      rw [List.cons_append, List.cons.injEq] at he
      obtain ⟨rfl, rfl⟩ := he
      rw [if_pos hq, (closing?_eq_some_iff (hne hq)).2 ⟨hc, rfl⟩]
      rfl

/-- A literal ends in a quote. -/
theorem IsLiteral.exists_getLast? {l : Bytes} (h : IsLiteral l) :
    ∃ q, isQuote q ∧ l.getLast? = some q := by
  obtain ⟨q, rest, hq, rfl, hc⟩ := h
  exact ⟨q, hq, by simp [List.getLast?_cons, hc.getLast?_eq]⟩

end Line

end SiteConfig
