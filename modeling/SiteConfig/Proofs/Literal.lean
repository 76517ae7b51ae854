import SiteConfig.Proofs.TextGrammar
import SiteConfig.Value.Literal
/-!
# What a literal has from its strings

A literal has line breaks and terminators only from the strings in its
value: a number has neither, and in an array what stands between the
entries neither makes a terminator nor breaks one. Escaping keeps both as
they are.

So a caller can tell from the value whether a declaration that holds its
literal is read back (`Value.readsBack_iff`).
-/

namespace SiteConfig

namespace Text

variable {k : Kind} {c : Char} {a b cs : List Char}

/-! ## Terminators in a text -/

/-- The first character that is not a blank is a semicolon. -/
def SemicolonNext (cs : List Char) : Prop :=
  ∃ blanks rest, (∀ c ∈ blanks, IsBlank c) ∧ cs = blanks ++ ';' :: rest

theorem not_semicolonNext_nil : ¬ SemicolonNext [] := by
  rintro ⟨blanks, rest, -, h⟩
  simp at h

theorem semicolonNext_cons_iff :
    SemicolonNext (c :: cs) ↔ c = ';' ∨ IsBlank c ∧ SemicolonNext cs := by
  constructor
  · rintro ⟨blanks, rest, hblank, h⟩
    cases blanks with
    | nil => exact .inl (List.cons.inj h).1
    | cons blank blanks =>
      rw [List.cons_append, List.cons.injEq] at h
      obtain ⟨rfl, rfl⟩ := h
      rw [List.forall_mem_cons] at hblank
      exact .inr ⟨hblank.1, blanks, rest, hblank.2, rfl⟩
  · rintro (rfl | ⟨hc, blanks, rest, hblank, rfl⟩)
    · exact ⟨[], cs, by simp, rfl⟩
    · exact ⟨c :: blanks, rest, List.forall_mem_cons.2 ⟨hc, hblank⟩, rfl⟩

theorem semicolonNext_append (h : ¬ SemicolonNext b) :
    SemicolonNext (a ++ b) ↔ SemicolonNext a := by
  induction a with
  | nil => simp [h, not_semicolonNext_nil]
  | cons c a ih => rw [List.cons_append, semicolonNext_cons_iff, semicolonNext_cons_iff, ih]

theorem hasTerminator_var_iff : HasTerminator .var cs ↔ ';' ∈ cs := by
  simp only [HasTerminator, IsTerminator, exists_eq_left]
  constructor
  · exact fun h => h.subset List.mem_cons_self
  · intro h
    obtain ⟨before, after, rfl⟩ := List.append_of_mem h
    exact ⟨before, after, by simp⟩

theorem not_hasTerminator_nil : ¬ HasTerminator k [] := by
  rintro ⟨t, ht, hi⟩
  rw [List.infix_nil.1 hi] at ht
  cases k with
  | const =>
    obtain ⟨blanks, -, h⟩ := ht
    cases h
  | var => cases ht

theorem hasTerminator_const_cons_iff : HasTerminator .const (c :: cs) ↔
    (c = ')' ∧ SemicolonNext cs) ∨ HasTerminator .const cs := by
  constructor
  · rintro ⟨t, ht, hi⟩
    rcases List.infix_cons_iff.1 hi with ⟨rest, hp⟩ | hi
    · obtain ⟨blanks, hblank, rfl⟩ := ht
      rw [List.cons_append, List.cons.injEq] at hp
      exact .inl ⟨hp.1.symm, blanks, rest, hblank, by simp [← hp.2]⟩
    · exact .inr ⟨t, ht, hi⟩
  · rintro (⟨rfl, blanks, rest, hblank, rfl⟩ | ⟨t, ht, hi⟩)
    · exact ⟨_, ⟨blanks, hblank, rfl⟩, [], rest, by simp⟩
    · exact ⟨t, ht, List.infix_cons hi⟩

/-- A terminator has a semicolon. -/
theorem HasTerminator.semicolon_mem (h : HasTerminator k cs) : ';' ∈ cs := by
  obtain ⟨t, ht, hi⟩ := h
  refine hi.subset ?_
  cases k with
  | const =>
    obtain ⟨blanks, -, rfl⟩ := ht
    simp
  | var => simp [show t = [';'] from ht]

/-- No character but a parenthesis or a semicolon starts a terminator. -/
theorem hasTerminator_cons_of_ne (hp : c ≠ ')') (hs : c ≠ ';') :
    HasTerminator k (c :: cs) ↔ HasTerminator k cs := by
  cases k with
  | const => simp [hasTerminator_const_cons_iff, hp]
  | var => simp [hasTerminator_var_iff, hs.symm]

/-- A terminator does not stand across the seam of two texts if the second
does not start with its semicolon. -/
theorem hasTerminator_append_iff (h : ¬ SemicolonNext b) :
    HasTerminator k (a ++ b) ↔ HasTerminator k a ∨ HasTerminator k b := by
  cases k with
  | const =>
    induction a with
    | nil => simp [not_hasTerminator_nil]
    | cons c a ih =>
      rw [List.cons_append, hasTerminator_const_cons_iff, hasTerminator_const_cons_iff, ih,
        semicolonNext_append h, or_assoc]
  | var => simp [hasTerminator_var_iff]

end Text

namespace Value

open Text

variable {k : Kind} {cs : List Char}

/-! ## Strings in a value -/

mutual

/-- The strings and map keys that occur in a value, at any depth. -/
def strings : Value → List String
  | .null | .bool _ | .int _ | .float _ => []
  | .string s => [s]
  | .list items => itemStrings items
  | .map members => memberStrings members

/-- The strings in the items of a list. -/
def itemStrings : List Value → List String
  | [] => []
  | v :: items => v.strings ++ itemStrings items

/-- The strings in the members of a map, with their keys. -/
def memberStrings : List (String × Value) → List String
  | [] => []
  | (key, v) :: members => key :: v.strings ++ memberStrings members

end

/-- A value whose literal is read back where a declaration holds it: a string
on one line, or anything else in which no string has a line break or a
terminator. -/
def ReadsBack (k : Kind) : Value → Prop
  | .string s => '\n' ∉ s.toList
  | v => ∀ s ∈ v.strings, '\n' ∉ s.toList ∧ ¬ HasTerminator k s.toList

/-- A property that a literal has where one of its strings has it. -/
structure Inherited (P : List Char → Prop) : Prop where
  nil : ¬ P []
  cons : ∀ {c cs}, c ≠ ')' → c ≠ ';' → c ≠ '\n' → (P (c :: cs) ↔ P cs)
  append : ∀ {a b}, ¬ SemicolonNext b → (P (a ++ b) ↔ P a ∨ P b)
  close : ¬ P [')']
  quoted : ∀ cs, P (quoted cs) ↔ P cs

/-! ## Numbers -/

/-- The characters that numbers are written with. -/
def IsNumeral (c : Char) : Prop := c.isDigit ∨ c = '-' ∨ c = '.' ∨ c = 'e' ∨ c = '+'

instance : DecidablePred IsNumeral := fun c =>
  inferInstanceAs (Decidable (c.isDigit ∨ c = '-' ∨ c = '.' ∨ c = 'e' ∨ c = '+'))

theorem IsNumeral.ne {c d : Char} (hc : IsNumeral c) (hd : ¬ IsNumeral d) : c ≠ d := fun h =>
  hd (h ▸ hc)

theorem isNumeral_of_mem_toDigits {n : Nat} : ∀ c ∈ Nat.toDigits 10 n, IsNumeral c := fun _ h =>
  .inl (Nat.isDigit_of_mem_toDigits (by decide) (by decide) h)

theorem isNumeral_of_mem_integer {n : Int} : ∀ c ∈ integer n, IsNumeral c := by
  rw [integer, List.forall_mem_append]
  refine ⟨?_, isNumeral_of_mem_toDigits⟩
  split
  · simp [IsNumeral]
  · simp

theorem isNumeral_of_mem_plain {digits : List Char} {e : Int} (h : ∀ c ∈ digits, IsNumeral c) :
    ∀ c ∈ Decimal.plain digits e, IsNumeral c := by
  have hzeros : ∀ n, ∀ c ∈ List.replicate n '0', IsNumeral c := fun n c hc =>
    (List.eq_of_mem_replicate hc) ▸ by decide
  unfold Decimal.plain
  split
  · rw [List.forall_mem_append, List.forall_mem_append]
    exact ⟨⟨h, hzeros _⟩, by simp [IsNumeral]⟩
  · have hpadded := List.forall_mem_append.2 ⟨hzeros ((-e).toNat + 1 - digits.length), h⟩
    rw [List.forall_mem_append, List.forall_mem_cons]
    exact ⟨fun c hc => hpadded c (List.mem_of_mem_take hc), by decide,
      fun c hc => hpadded c (List.mem_of_mem_drop hc)⟩

theorem isNumeral_of_mem_scientific {digits : List Char} {m : Int}
    (h : ∀ c ∈ digits, IsNumeral c) : ∀ c ∈ Decimal.scientific digits m, IsNumeral c := by
  have hexp : IsNumeral (if m < 0 then '-' else '+') := by split <;> decide
  have hfraction : ∀ c ∈ (if digits.length ≤ 1 then [] else '.' :: digits.drop 1), IsNumeral c := by
    split
    · simp
    · exact List.forall_mem_cons.2 ⟨by decide, fun c hc => h c (List.mem_of_mem_drop hc)⟩
  rw [Decimal.scientific, List.forall_mem_append, List.forall_mem_append, List.forall_mem_append]
  exact ⟨⟨⟨fun c hc => h c (List.mem_of_mem_take hc), hfraction⟩,
    List.forall_mem_cons.2 ⟨by decide, List.forall_mem_singleton.2 hexp⟩⟩,
    isNumeral_of_mem_toDigits⟩

theorem isNumeral_of_mem_float {x : Binary64} : ∀ c ∈ x.text, IsNumeral c := by
  have hdigits : ∀ d : Decimal, ∀ c ∈ d.text, IsNumeral c := by
    intro d
    simp only [Decimal.text]
    split
    · exact isNumeral_of_mem_plain isNumeral_of_mem_toDigits
    · exact isNumeral_of_mem_scientific isNumeral_of_mem_toDigits
  rw [Binary64.text, List.forall_mem_append]
  constructor
  · split
    · simp [IsNumeral]
    · simp
  · split
    · simp [IsNumeral]
    · exact hdigits x.shortest

theorem integer_ne_nil {n : Int} : integer n ≠ [] := by
  simp [integer, Nat.toDigits_ne_nil]

theorem float_ne_nil {x : Binary64} : x.text ≠ [] := by
  have hdigits : ∀ d : Decimal, d.text ≠ [] := by
    intro d
    simp only [Decimal.text, Decimal.plain, Decimal.scientific]
    split
    · split <;> simp
    · simp
  refine List.append_ne_nil_of_right_ne_nil _ ?_
  split
  · simp
  · exact hdigits x.shortest

/-- The characters of an array. -/
theorem array_eq (entries : List (List Char)) : array entries =
    ['a', 'r', 'r', 'a', 'y', ' ', '('] ++ [','].intercalate entries ++ [' ', ')'] := rfl

/-! ## Inheritance -/

namespace Inherited

variable {P : List Char → Prop} (hP : Inherited P)

include hP

theorem not_of_numeral (h : ∀ c ∈ cs, IsNumeral c) : ¬ P cs := by
  induction cs with
  | nil => exact hP.nil
  | cons c cs ih =>
    rw [List.forall_mem_cons] at h
    rw [hP.cons (h.1.ne (by decide)) (h.1.ne (by decide)) (h.1.ne (by decide))]
    exact ih h.2

theorem entry_iff {key value : List Char} : P (entry key value) ↔ P key ∨ P value := by
  have harrow : ¬ SemicolonNext (" => ".toList ++ value) := by
    simp [semicolonNext_cons_iff, IsBlank]
  have hvalue : P (" => ".toList ++ value) ↔ P value := by
    simp [hP.cons]
  rw [entry, List.cons_append, List.cons_append, hP.cons (by decide) (by decide) (by decide),
    List.append_assoc, hP.append harrow, hvalue]

theorem intercalate_iff {entries : List (List Char)} :
    P ([','].intercalate entries) ↔ ∃ e ∈ entries, P e := by
  induction entries with
  | nil => simpa using hP.nil
  | cons e entries ih =>
    cases entries with
    | nil => simp
    | cons next entries =>
      have hcomma : ¬ SemicolonNext (',' :: [','].intercalate (next :: entries)) := by
        simp [semicolonNext_cons_iff, IsBlank]
      -- the comma is neither a part of a terminator nor a line break
      rw [List.intercalate_cons_cons, List.append_assoc, List.singleton_append, hP.append hcomma,
        hP.cons (by decide) (by decide) (by decide), ih]
      simp

theorem array_iff {entries : List (List Char)} : P (array entries) ↔ ∃ e ∈ entries, P e := by
  have hclose : ¬ SemicolonNext [' ', ')'] := by
    simp [semicolonNext_cons_iff, IsBlank, not_semicolonNext_nil]
  have hend : ¬ P [' ', ')'] := by
    simpa [hP.cons] using hP.close
  rw [array_eq, hP.append hclose, or_iff_left hend]
  simp only [List.cons_append, List.nil_append]
  iterate 7 rw [hP.cons (by decide) (by decide) (by decide)]
  exact hP.intercalate_iff

mutual

/-- **What is inherited** is in the literal where it is in a string. -/
theorem literal_iff : ∀ v : Value, P v.literal ↔ ∃ s ∈ v.strings, P s.toList
  | .null => by simpa [literal, strings, hP.cons] using hP.nil
  | .bool true => by simpa [literal, strings, hP.cons] using hP.nil
  | .bool false => by simpa [literal, strings, hP.cons] using hP.nil
  | .int n => by simpa [literal, strings] using hP.not_of_numeral isNumeral_of_mem_integer
  | .float x => by simpa [literal, strings] using hP.not_of_numeral isNumeral_of_mem_float
  | .string s => by simp [literal, strings, hP.quoted]
  | .list items => by rw [literal, hP.array_iff, strings, itemEntries_iff 0 items]
  | .map members => by rw [literal, hP.array_iff, strings, memberEntries_iff members]

theorem itemEntries_iff (i : Nat) : ∀ items : List Value,
    (∃ e ∈ itemEntries i items, P e) ↔ ∃ s ∈ itemStrings items, P s.toList
  | [] => by simp [itemEntries, itemStrings]
  | v :: items => by
    have hkey : ¬ P (Nat.toDigits 10 i) := hP.not_of_numeral isNumeral_of_mem_toDigits
    simp only [itemEntries, itemStrings, List.mem_cons, List.mem_append, or_and_right, exists_or,
      exists_eq_left, hP.entry_iff, literal_iff v, itemEntries_iff (i + 1) items, hkey, false_or]

theorem memberEntries_iff : ∀ members : List (String × Value),
    (∃ e ∈ memberEntries members, P e) ↔ ∃ s ∈ memberStrings members, P s.toList
  | [] => by simp [memberEntries, memberStrings]
  | (key, v) :: members => by
    simp only [memberEntries, memberStrings, List.mem_cons, List.mem_append, List.cons_append,
      or_and_right, exists_or, exists_eq_left, hP.entry_iff, hP.quoted, literal_iff v,
      memberEntries_iff members, or_assoc]

end

end Inherited

/-! ## Escaping -/

/-- A string as it stands between the quotes. -/
def escaped (cs : List Char) : List Char :=
  cs.flatMap fun c => if c = '\\' ∨ c = '\'' then ['\\', c] else [c]

theorem quoted_eq (cs : List Char) : quoted cs = '\'' :: (escaped cs ++ ['\'']) := rfl

theorem escaped_cons_of_mark {c : Char} (h : c = '\\' ∨ c = '\'') :
    escaped (c :: cs) = '\\' :: c :: escaped cs := by
  simp [escaped, h]

theorem escaped_cons_of_plain {c : Char} (h : ¬ (c = '\\' ∨ c = '\'')) :
    escaped (c :: cs) = c :: escaped cs := by
  simp [escaped, h]

/-- Only backslashes are added. -/
theorem mem_escaped_iff {c : Char} (h : c ≠ '\\') : c ∈ escaped cs ↔ c ∈ cs := by
  induction cs with
  | nil => rfl
  | cons d cs ih =>
    by_cases hd : d = '\\' ∨ d = '\''
    · rw [escaped_cons_of_mark hd, List.mem_cons, List.mem_cons, List.mem_cons, ih, or_iff_right h]
    · rw [escaped_cons_of_plain hd, List.mem_cons, List.mem_cons, ih]

theorem semicolonNext_escaped_iff : SemicolonNext (escaped cs ++ ['\'']) ↔ SemicolonNext cs := by
  induction cs with
  | nil => simp [escaped, semicolonNext_cons_iff, not_semicolonNext_nil]
  | cons c cs ih =>
    by_cases hc : c = '\\' ∨ c = '\''
    · rw [escaped_cons_of_mark hc]
      rcases hc with rfl | rfl <;> simp [semicolonNext_cons_iff, IsBlank]
    · rw [escaped_cons_of_plain hc, List.cons_append, semicolonNext_cons_iff,
        semicolonNext_cons_iff, ih]

/-- **Escaping keeps terminators** and makes none: the backslashes it adds
stand in front of characters that no terminator has. -/
theorem hasTerminator_quoted_iff : HasTerminator k (quoted cs) ↔ HasTerminator k cs := by
  rw [quoted_eq, hasTerminator_cons_of_ne (by decide) (by decide)]
  cases k with
  | var => simp [hasTerminator_var_iff, mem_escaped_iff]
  | const =>
    induction cs with
    | nil => simp [escaped, hasTerminator_const_cons_iff, not_hasTerminator_nil]
    | cons c cs ih =>
      by_cases hc : c = '\\' ∨ c = '\''
      · have hp : c ≠ ')' ∧ c ≠ ';' := by rcases hc with rfl | rfl <;> decide
        rw [escaped_cons_of_mark hc, List.cons_append, List.cons_append,
          hasTerminator_cons_of_ne (by decide) (by decide), hasTerminator_cons_of_ne hp.1 hp.2,
          hasTerminator_cons_of_ne hp.1 hp.2, ih]
      · rw [escaped_cons_of_plain hc, List.cons_append, hasTerminator_const_cons_iff,
          hasTerminator_const_cons_iff, semicolonNext_escaped_iff, ih]

/-- **A quoted string is one literal.** -/
theorem isLiteral_quoted (cs : List Char) : IsLiteral (quoted cs) := by
  refine ⟨'\'', escaped cs ++ ['\''], .inl rfl, quoted_eq cs, ?_⟩
  induction cs with
  | nil => exact .quote
  | cons c cs ih =>
    by_cases hc : c = '\\' ∨ c = '\''
    · rw [escaped_cons_of_mark hc]
      exact .escaped ih
    · rw [escaped_cons_of_plain hc]
      exact .plain (fun h => hc (.inr h)) (fun h => hc (.inl h)) ih

/-! ## Line breaks and terminators -/

theorem inherited_lineBreak : Inherited ('\n' ∈ ·) where
  nil := List.not_mem_nil
  cons _ _ h := by simp [Ne.symm h]
  append _ := List.mem_append
  close := by decide
  quoted cs := by simp [quoted_eq, mem_escaped_iff]

theorem inherited_hasTerminator : Inherited (HasTerminator k) where
  nil := not_hasTerminator_nil
  cons hp hs _ := hasTerminator_cons_of_ne hp hs
  append := hasTerminator_append_iff
  close h := by simpa using h.semicolon_mem
  quoted _ := hasTerminator_quoted_iff

/-! ## Ends -/

/-- What the literal of a value that is no string starts and ends with. -/
structure Bare (cs : List Char) : Prop where
  ne_nil : cs ≠ []
  first : ∀ c, cs.head? = some c → ¬ IsBlank c ∧ c ≠ '\'' ∧ c ≠ '"'
  last : ∀ c, cs.getLast? = some c → ¬ IsBlank c

theorem Bare.trimmed (h : Bare cs) : Trimmed cs := ⟨fun c hc => (h.first c hc).1, h.last⟩

theorem Bare.not_isLiteral (h : Bare cs) : ¬ IsLiteral cs := by
  rintro ⟨q, rest, hq, rfl, -⟩
  obtain ⟨-, hsingle, hdouble⟩ := h.first q rfl
  exact hq.elim hsingle hdouble

theorem bare_of_numeral (hne : cs ≠ []) (h : ∀ c ∈ cs, IsNumeral c) : Bare cs := by
  have hblank : ∀ c ∈ cs, ¬ IsBlank c := fun c hc hb =>
    hb.elim ((h c hc).ne (by decide)) ((h c hc).ne (by decide))
  refine ⟨hne, fun c hc => ?_, fun c hc => hblank c (List.mem_of_getLast? hc)⟩
  have hmem := List.mem_of_head? hc
  exact ⟨hblank c hmem, (h c hmem).ne (by decide), (h c hmem).ne (by decide)⟩

theorem bare_array (entries : List (List Char)) : Bare (array entries) := by
  rw [array_eq]
  refine ⟨by simp, fun c hc => ?_, fun c hc => ?_⟩
  · obtain rfl : 'a' = c := by simpa using hc
    simp [IsBlank]
  · rw [List.getLast?_append] at hc
    obtain rfl : ')' = c := by simpa using hc
    simp [IsBlank]

/-- **A literal is one quoted string**, or starts with no quote. -/
theorem literal_cases : ∀ v : Value, (∃ s, v = .string s) ∨ Bare v.literal
  | .null => .inr ⟨by decide, by simp [literal, IsBlank], by simp [literal, IsBlank]⟩
  | .bool true => .inr ⟨by decide, by simp [literal, IsBlank], by simp [literal, IsBlank]⟩
  | .bool false => .inr ⟨by decide, by simp [literal, IsBlank], by simp [literal, IsBlank]⟩
  | .int _ => .inr (bare_of_numeral integer_ne_nil isNumeral_of_mem_integer)
  | .float _ => .inr (bare_of_numeral float_ne_nil isNumeral_of_mem_float)
  | .string s => .inl ⟨s, rfl⟩
  | .list _ => .inr (bare_array _)
  | .map _ => .inr (bare_array _)

theorem trimmed_quoted (cs : List Char) : Trimmed (quoted cs) := by
  refine ⟨fun c hc => ?_, fun c hc => ?_⟩
  · obtain rfl : '\'' = c := by simpa [quoted_eq] using hc
    simp [IsBlank]
  · rw [quoted_eq, ← List.cons_append, List.getLast?_concat, Option.some.injEq] at hc
    subst hc
    simp [IsBlank]

theorem trimmed_literal (v : Value) : Trimmed v.literal := by
  rcases literal_cases v with ⟨s, rfl⟩ | h
  · exact trimmed_quoted s.toList
  · exact h.trimmed

theorem readsBack_string_iff {s : String} : (string s).ReadsBack k ↔ '\n' ∉ s.toList := Iff.rfl

theorem readsBack_iff_of_ne {v : Value} (h : ∀ s, v ≠ .string s) :
    v.ReadsBack k ↔ ∀ s ∈ v.strings, '\n' ∉ s.toList ∧ ¬ HasTerminator k s.toList := by
  cases v with
  | string s => exact absurd rfl (h s)
  | _ => rfl

/-- **Which values are read back** shows in their literals. -/
theorem readsBack_iff {v : Value} : v.ReadsBack k ↔ Text.ReadsBack k v.literal := by
  have hbreak := inherited_lineBreak.literal_iff v
  have hterm := (inherited_hasTerminator (k := k)).literal_iff v
  rcases literal_cases v with ⟨s, rfl⟩ | h
  · have hlit : IsLiteral (string s).literal := isLiteral_quoted s.toList
    have hs : '\n' ∉ (string s).literal ↔ '\n' ∉ s.toList := by simp [hbreak, strings]
    rw [readsBack_string_iff, ← hs]
    exact ⟨fun hone => ⟨hone, trimmed_literal _, .inl hlit⟩, fun hr => hr.oneLine⟩
  · have hne : ∀ s, v ≠ .string s := by
      rintro s rfl
      exact h.not_isLiteral (isLiteral_quoted s.toList)
    rw [readsBack_iff_of_ne hne]
    constructor
    · intro hs
      refine ⟨mt hbreak.1 ?_, h.trimmed, .inr (mt hterm.1 ?_)⟩
      · rintro ⟨s, hmem, hin⟩
        exact (hs s hmem).1 hin
      · rintro ⟨s, hmem, hin⟩
        exact (hs s hmem).2 hin
    · intro hr s hmem
      have hno := hr.whole.resolve_left h.not_isLiteral
      exact ⟨fun hin => hr.oneLine (hbreak.2 ⟨s, hmem, hin⟩),
        fun hin => hno (hterm.2 ⟨s, hmem, hin⟩)⟩

/-- Without options a value is written as its literal. -/
theorem toList_render (v : Value) : (v.render false).toList = v.literal := by
  cases v <;> simp [render]

end Value

end SiteConfig
