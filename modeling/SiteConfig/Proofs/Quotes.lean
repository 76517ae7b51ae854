import SiteConfig.Proofs.Canonical
import SiteConfig.Proofs.Literal
/-!
# Quotes in a canonical form

What is written for a value has a single quote where a string begins or
ends, and behind a backslash within a string. A string begins behind a
blank, and ends in front of a blank, a comma or a semicolon. So in the
canonical form of a declaration no single quote stands between two letters
(`setsOffQuotes_canonical`), and a text in which one does is not found there
(`not_infix_encode_canonical`).
-/

namespace SiteConfig

open Bytes

namespace Text

variable {a b cs : List Char}

/-! ## Quotes that are set off -/

/-- A character that may follow a string. -/
def IsBreak (c : Char) : Prop := c = ' ' ∨ c = ',' ∨ c = ';'

instance : DecidablePred IsBreak := fun c =>
  inferInstanceAs (Decidable (c = ' ' ∨ c = ',' ∨ c = ';'))

/-- Each single quote with a character on either side has a blank or a
backslash in front of it, or a break behind it. -/
def SetsOffQuotes (cs : List Char) : Prop :=
  ∀ x y, [x, '\'', y] <:+: cs → x = ' ' ∨ x = '\\' ∨ IsBreak y

/-- A blank or a break parts two texts. -/
def Apart (a b : List Char) : Prop :=
  a.getLast? = some ' ' ∨ ∃ c, b.head? = some c ∧ IsBreak c

theorem setsOffQuotes_of_not_mem (h : '\'' ∉ cs) : SetsOffQuotes cs := fun _ _ hi =>
  absurd (hi.subset (by simp)) h

/-- **Quotes stay set off** where texts are put together that are apart. -/
theorem SetsOffQuotes.append (ha : SetsOffQuotes a) (hb : SetsOffQuotes b) (h : Apart a b) :
    SetsOffQuotes (a ++ b) := by
  intro x y hi
  rcases List.infix_append_iff.1 hi with hi | hi | ⟨l₁, l₂, he, h₁, h₂⟩
  · exact ha x y hi
  · exact hb x y hi
  obtain ⟨⟨a', rfl⟩, ⟨b', rfl⟩⟩ := And.intro h₁ h₂
  -- what stands at the seam is the character before the quote, the quote, or the one after it
  rcases List.cons_eq_append_iff.1 he with ⟨rfl, rfl⟩ | ⟨m, rfl, hq⟩
  · exact hb x y h₂.isInfix
  rcases List.cons_eq_append_iff.1 hq with ⟨rfl, rfl⟩ | ⟨m, rfl, hy⟩
  · rcases h with hlast | ⟨c, hhead, hc⟩
    · exact .inl (by simpa using hlast)
    · obtain rfl : '\'' = c := by simpa using hhead
      exact absurd hc (by decide)
  rcases List.cons_eq_append_iff.1 hy with ⟨rfl, rfl⟩ | ⟨m, rfl, hnil⟩
  · rcases h with hlast | ⟨c, hhead, hc⟩
    · simp at hlast
    · obtain rfl : y = c := by simpa using hhead
      exact .inr (.inr hc)
  · obtain ⟨rfl, -⟩ := List.append_eq_nil_iff.1 hnil.symm
    exact ha x y h₁.isInfix

end Text

namespace Value

open Text

variable {cs : List Char}

/-! ## Literals -/

/-- A quote that is escaped stands behind a backslash. -/
theorem not_prefix_escaped (y : Char) : ¬ ['\'', y] <+: escaped cs ++ ['\''] := by
  cases cs with
  | nil => simp [escaped]
  | cons c cs =>
    by_cases hc : c = '\\' ∨ c = '\''
    · rw [escaped_cons_of_mark hc]
      simp
    · rw [escaped_cons_of_plain hc]
      simp only [not_or] at hc
      simp [Ne.symm hc.2]

theorem setsOffQuotes_escaped : SetsOffQuotes (escaped cs ++ ['\'']) := by
  intro x y hi
  induction cs with
  | nil => simpa [escaped] using hi.length_le
  | cons c cs ih =>
    by_cases hc : c = '\\' ∨ c = '\''
    · rw [escaped_cons_of_mark hc, List.cons_append, List.cons_append, List.infix_cons_iff,
        List.infix_cons_iff] at hi
      rcases hi with hp | hp | hi
      · exact .inr (.inl (List.cons_prefix_cons.1 hp).1)
      · exact absurd (List.cons_prefix_cons.1 hp).2 (not_prefix_escaped y)
      · exact ih hi
    · rw [escaped_cons_of_plain hc, List.cons_append, List.infix_cons_iff] at hi
      rcases hi with hp | hi
      · exact absurd (List.cons_prefix_cons.1 hp).2 (not_prefix_escaped y)
      · exact ih hi

/-- **A quoted string sets its quotes off.** -/
theorem setsOffQuotes_quoted : SetsOffQuotes (quoted cs) := by
  intro x y hi
  rw [quoted_eq, List.infix_cons_iff] at hi
  rcases hi with hp | hi
  · exact absurd (List.cons_prefix_cons.1 hp).2 (not_prefix_escaped y)
  · exact setsOffQuotes_escaped x y hi

theorem setsOffQuotes_of_numeral (h : ∀ c ∈ cs, IsNumeral c) : SetsOffQuotes cs :=
  setsOffQuotes_of_not_mem fun hm => absurd (h _ hm) (by decide)

theorem setsOffQuotes_entry {key value : List Char} (hk : SetsOffQuotes key)
    (hv : SetsOffQuotes value) : SetsOffQuotes (entry key value) := by
  have harrow : SetsOffQuotes " => ".toList := setsOffQuotes_of_not_mem (by decide)
  have hblank : SetsOffQuotes [' '] := setsOffQuotes_of_not_mem (by decide)
  have hkey : SetsOffQuotes ([' '] ++ key) := hblank.append hk (.inl rfl)
  have hboth : SetsOffQuotes ([' '] ++ key ++ " => ".toList) :=
    hkey.append harrow (.inr ⟨' ', rfl, .inl rfl⟩)
  exact hboth.append hv (.inl (by simp [List.getLast?_cons]))

/-- The entries of an array, which all begin with a blank, up to its end. -/
theorem setsOffQuotes_intercalate {entries : List (List Char)}
    (h : ∀ e ∈ entries, SetsOffQuotes e ∧ e.head? = some ' ') :
    SetsOffQuotes ([','].intercalate entries ++ [' ', ')']) ∧
      ([','].intercalate entries ++ [' ', ')']).head? = some ' ' := by
  have hclose : SetsOffQuotes [' ', ')'] := setsOffQuotes_of_not_mem (by decide)
  have hcomma : SetsOffQuotes [','] := setsOffQuotes_of_not_mem (by decide)
  induction entries with
  | nil => exact ⟨hclose, rfl⟩
  | cons e entries ih =>
    obtain ⟨⟨he, hblank⟩, h⟩ := List.forall_mem_cons.1 h
    cases entries with
    | nil =>
      rw [List.intercalate_singleton]
      exact ⟨he.append hclose (.inr ⟨' ', rfl, .inl rfl⟩), by simp [hblank]⟩
    | cons next entries =>
      obtain ⟨hrest, hhead⟩ := ih h
      have htail := hcomma.append hrest (.inr ⟨' ', hhead, .inl rfl⟩)
      rw [List.intercalate_cons_cons, List.append_assoc, List.append_assoc]
      exact ⟨he.append htail (.inr ⟨',', rfl, .inr (.inl rfl)⟩), by simp [hblank]⟩

theorem setsOffQuotes_array {entries : List (List Char)}
    (h : ∀ e ∈ entries, SetsOffQuotes e ∧ e.head? = some ' ') : SetsOffQuotes (array entries) := by
  obtain ⟨hrest, hhead⟩ := setsOffQuotes_intercalate h
  have hopen : SetsOffQuotes ['a', 'r', 'r', 'a', 'y', ' ', '('] :=
    setsOffQuotes_of_not_mem (by decide)
  rw [array_eq, List.append_assoc]
  exact hopen.append hrest (.inr ⟨' ', hhead, .inl rfl⟩)

mutual

/-- **A literal sets its quotes off.** -/
theorem setsOffQuotes_literal : ∀ v : Value, SetsOffQuotes v.literal
  | .null | .bool true | .bool false => setsOffQuotes_of_not_mem (by decide)
  | .int n => setsOffQuotes_of_numeral isNumeral_of_mem_integer
  | .float x => setsOffQuotes_of_numeral isNumeral_of_mem_float
  | .string s => setsOffQuotes_quoted
  | .list items => setsOffQuotes_array (setsOffQuotes_itemEntries 0 items)
  | .map members => setsOffQuotes_array (setsOffQuotes_memberEntries members)

theorem setsOffQuotes_itemEntries (i : Nat) : ∀ items : List Value,
    ∀ e ∈ itemEntries i items, SetsOffQuotes e ∧ e.head? = some ' '
  | [] => by simp [itemEntries]
  | v :: items => by
    rw [itemEntries, List.forall_mem_cons]
    exact ⟨⟨setsOffQuotes_entry (setsOffQuotes_of_numeral isNumeral_of_mem_toDigits)
      (setsOffQuotes_literal v), rfl⟩, setsOffQuotes_itemEntries (i + 1) items⟩

theorem setsOffQuotes_memberEntries : ∀ members : List (String × Value),
    ∀ e ∈ memberEntries members, SetsOffQuotes e ∧ e.head? = some ' '
  | [] => by simp [memberEntries]
  | (key, v) :: members => by
    rw [memberEntries, List.forall_mem_cons]
    exact ⟨⟨setsOffQuotes_entry setsOffQuotes_quoted (setsOffQuotes_literal v), rfl⟩,
      setsOffQuotes_memberEntries members⟩

end

end Value

/-! ## Declarations -/

namespace Declaration

open Text

variable {k : Kind} {name : String}

/-- A name is written between quotes as it is. -/
theorem quoted_name (hn : IsName name) :
    Value.quoted name.toList = '\'' :: (name.toList ++ ['\'']) := by
  have hplain : ∀ cs : List Char, (∀ c ∈ cs, c.isAlphanum ∨ c = '_') → Value.escaped cs = cs := by
    intro cs h
    induction cs with
    | nil => rfl
    | cons c cs ih =>
      rw [List.forall_mem_cons] at h
      have hc : ¬ (c = '\\' ∨ c = '\'') := by
        rintro (rfl | rfl) <;> exact absurd h.1 (by decide)
      rw [Value.escaped_cons_of_plain hc, ih h.2]
  rw [Value.quoted_eq, hplain _ hn.2]

/-- **The canonical form of a literal sets its quotes off.** -/
theorem setsOffQuotes_canonical (hn : IsName name) (v : Value) :
    SetsOffQuotes (canonical k name (v.render false)).toList := by
  have hliteral := v.setsOffQuotes_literal
  have hplain : ∀ {cs}, '\'' ∉ cs → SetsOffQuotes cs := setsOffQuotes_of_not_mem
  cases k with
  | const =>
    have hform : (canonical .const name (v.render false)).toList =
        "define( ".toList ++ Value.quoted name.toList ++ ", ".toList ++ v.literal ++
          " );".toList := by
      simp [canonical, quoted_name hn, Value.toList_render]
    have hopen : SetsOffQuotes "define( ".toList := hplain (by decide)
    have hcomma : SetsOffQuotes ", ".toList := hplain (by decide)
    have hclose : SetsOffQuotes " );".toList := hplain (by decide)
    have hquoted : SetsOffQuotes (Value.quoted name.toList) := Value.setsOffQuotes_quoted
    have hname := hopen.append hquoted (.inl rfl)
    have hhead := hname.append hcomma (.inr ⟨',', rfl, .inr (.inl rfl)⟩)
    have hvalue := hhead.append hliteral (.inl (by simp [List.getLast?_cons]))
    rw [hform]
    exact hvalue.append hclose (.inr ⟨' ', rfl, .inl rfl⟩)
  | var =>
    have hname : '\'' ∉ name.toList := fun h => absurd (hn.2 _ h) (by decide)
    have hhead : SetsOffQuotes ("$".toList ++ name.toList ++ " = ".toList) :=
      hplain (by simp [hname])
    have hclose : SetsOffQuotes ";".toList := hplain (by decide)
    have hform : (canonical .var name (v.render false)).toList =
        "$".toList ++ name.toList ++ " = ".toList ++ v.literal ++ ";".toList := by
      simp [canonical, Value.toList_render]
    have hvalue := hhead.append hliteral (.inl (by simp [List.getLast?_cons]))
    rw [hform]
    exact hvalue.append hclose (.inr ⟨';', rfl, .inr (.inr rfl)⟩)

/-- **A text with a quote that is not set off** is not found in the canonical
form of a literal. -/
theorem not_infix_encode_canonical {needle : String} (hn : IsName name) (v : Value)
    (hascii : ∀ c ∈ needle.toList, c.toNat < 128) (hneedle : ¬ SetsOffQuotes needle.toList) :
    ¬ encode needle <:+: encode (canonical k name (v.render false)) := fun hi =>
  hneedle fun x y hxy => setsOffQuotes_canonical hn v x y
    (hxy.trans (infix_of_infix_ofChars hascii hi))

end Declaration

end SiteConfig
