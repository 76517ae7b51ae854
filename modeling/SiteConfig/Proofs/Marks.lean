import Mathlib.Data.List.Basic
import SiteConfig.Proofs.Frame
import SiteConfig.Proofs.Occurrence
/-!
# The marks of a head

A head has two marks, one that opens it and one that closes it. The keyword
comes before the first, the name comes between them, and no other mark does
(`IsHead.exists_marks`). So a head cannot start in front of another one, as
long as there is more than blanks between the two starts
(`IsHead.allBlank_of_append`), and it cannot end in one before the second mark
(`IsHead.closingMark_mem`).

Hence a declaration that is written after other text declares its name
exactly if only blanks stand in front of it, or if that text starts with a
head of the same name and kind (`isSome_lastValue?_append_canonical_iff`).
-/

namespace SiteConfig

open Bytes

namespace Line

variable {k k' : Kind} {name name' head head' x c z : Bytes} {b : UInt8}

/-! ## Marks -/

/-- The mark in front of the name: the parenthesis of a call, or the dollar
sign of a variable. -/
def openingMark : Kind → UInt8
  | .const => ascii '('
  | .var => ascii '$'

/-- The mark behind the name, in front of the value. -/
def closingMark : Kind → UInt8
  | .const => ascii ','
  | .var => ascii '='

/-- A mark of a head of either kind. -/
def IsMark (b : UInt8) : Prop := ∃ k, b = openingMark k ∨ b = closingMark k

/-- The keyword in front of the opening mark. -/
def keywordOf : Kind → Bytes
  | .const => defineKeyword
  | .var => []

theorem isMark_openingMark (k : Kind) : IsMark (openingMark k) := ⟨k, .inl rfl⟩

theorem isMark_closingMark (k : Kind) : IsMark (closingMark k) := ⟨k, .inr rfl⟩

theorem isMark_iff : IsMark b ↔ b = ascii '(' ∨ b = ascii ',' ∨ b = ascii '$' ∨ b = ascii '=' := by
  constructor
  · rintro ⟨k, rfl | rfl⟩ <;> cases k <;> decide
  · rintro (rfl | rfl | rfl | rfl)
    · exact isMark_openingMark .const
    · exact isMark_closingMark .const
    · exact isMark_openingMark .var
    · exact isMark_closingMark .var

instance : DecidablePred IsMark := fun _ => decidable_of_iff' _ isMark_iff

theorem openingMark_ne_closingMark : openingMark k ≠ closingMark k' := by
  cases k <;> cases k' <;> decide

theorem openingMark_inj : openingMark k = openingMark k' ↔ k = k' := by
  cases k <;> cases k' <;> decide

theorem not_isMark_of_isBlank (h : isBlank b) : ¬ IsMark b := by
  rcases isBlank_iff.1 h with rfl | rfl <;> decide

theorem not_isMark_of_isQuote (h : isQuote b) : ¬ IsMark b := by
  simp only [isQuote, Bool.or_eq_true, beq_iff_eq] at h
  rcases h with rfl | rfl <;> decide

theorem not_isMark_of_isWord (h : Bytes.isWord b) : ¬ IsMark b := by
  intro hm
  rcases isMark_iff.1 hm with rfl | rfl | rfl | rfl <;> exact absurd h (by decide)

/-- The number of bytes that are not blank. -/
def weight (text : Bytes) : Nat := text.countP fun b => !isBlank b

@[simp] theorem weight_append (a b : Bytes) : weight (a ++ b) = weight a + weight b :=
  List.countP_append

theorem weight_eq_zero_iff : weight x = 0 ↔ AllBlank x := by
  simp [weight, AllBlank]

/-- Letters of the keyword are neither blanks nor marks. -/
theorem plain_of_mem_keyword {keyword : Bytes} (h : keyword.map toLower = defineKeyword)
    (hb : b ∈ keyword) : ¬ isBlank b ∧ ¬ IsMark b := by
  have hletter : toLower b ∈ defineKeyword := h ▸ List.mem_map_of_mem hb
  constructor
  · intro hblank
    rcases isBlank_iff.1 hblank with rfl | rfl <;> exact absurd hletter (by decide)
  · intro hm
    rcases isMark_iff.1 hm with rfl | rfl | rfl | rfl <;> exact absurd hletter (by decide)

theorem weight_keyword {keyword : Bytes} (h : keyword.map toLower = defineKeyword) :
    weight keyword = defineKeyword.length := by
  rw [weight, List.countP_eq_length.2 fun b hb => by simpa using (plain_of_mem_keyword h hb).1,
    ← h, List.length_map]

/-! ## Where the marks are -/

/-- **The marks of a head.** What is in front of the first has the letters of
the keyword and nothing else that is not blank. -/
theorem IsHead.exists_marks (h : IsHead k name head) : ∃ lead mid blanks,
    head = lead ++ openingMark k :: (mid ++ closingMark k :: blanks) ∧
      (∀ b ∈ lead, ¬ IsMark b) ∧ (∀ b ∈ mid, ¬ IsMark b) ∧ AllBlank blanks ∧
      weight lead = (keywordOf k).length := by
  have hblank : ∀ {bs : Bytes}, AllBlank bs → ∀ b ∈ bs, ¬ IsMark b := fun hbs b hb =>
    not_isMark_of_isBlank (hbs b hb)
  have hword : ∀ b ∈ name, ¬ IsMark b := fun b hb => not_isMark_of_isWord (h.isWord.2 b hb)
  cases h with
  | @const name keyword q q' b₁ b₂ b₃ b₄ b₅ hn hkey hq hq' h₁ h₂ h₃ h₄ h₅ =>
    refine ⟨b₁ ++ (keyword ++ b₂), b₃ ++ q :: (name ++ q' :: b₄), b₅, ?_, ?_, ?_, h₅, ?_⟩
    · simp [openingMark, closingMark]
    · simp only [List.forall_mem_append]
      exact ⟨hblank h₁, fun b hb => (plain_of_mem_keyword hkey hb).2, hblank h₂⟩
    · simp only [List.forall_mem_append, List.forall_mem_cons]
      exact ⟨hblank h₃, not_isMark_of_isQuote hq, hword, not_isMark_of_isQuote hq', hblank h₄⟩
    · rw [weight_append, weight_append, weight_keyword hkey, weight_eq_zero_iff.2 h₁,
        weight_eq_zero_iff.2 h₂, keywordOf, Nat.zero_add, Nat.add_zero]
  | @var name b₁ b₂ b₃ hn h₁ h₂ h₃ =>
    refine ⟨b₁, name ++ b₂, b₃, ?_, hblank h₁, ?_, h₃, weight_eq_zero_iff.2 h₁⟩
    · simp [openingMark, closingMark]
    · simp only [List.forall_mem_append]
      exact ⟨hword, hblank h₂⟩

/-- **No head starts in front of another**, nor in front of another keyword
and opening mark. -/
theorem IsHead.allBlank_of_append (h : IsHead k name (x ++ (c ++ openingMark k :: z)))
    (hc : (keywordOf k).length ≤ weight c) : AllBlank x := by
  obtain ⟨lead, mid, blanks, heq, hlead, hmid, hblanks, hweight⟩ := h.exists_marks
  have hrest : openingMark k ∉ mid ++ closingMark k :: blanks := by
    rw [List.mem_append, List.mem_cons, not_or, not_or]
    exact ⟨fun hm => hmid _ hm (isMark_openingMark k), openingMark_ne_closingMark,
      fun hm => not_isMark_of_isBlank (hblanks _ hm) (isMark_openingMark k)⟩
  have hfront : openingMark k ∉ lead := fun hm => hlead _ hm (isMark_openingMark k)
  rw [← List.append_assoc] at heq
  obtain ⟨hfirst, -⟩ := (List.append_cons_inj_of_notMem hfront hrest).1 heq.symm
  -- the letters in front of the mark are those of the keyword, and `c` has them all
  rw [hfirst, weight_append] at hweight
  exact weight_eq_zero_iff.1 (by omega)

/-- **A head ends with its closing mark** and blanks. -/
theorem IsHead.closingMark_mem (h : IsHead k name (x ++ c)) (hc : ¬ AllBlank c) :
    closingMark k ∈ c := by
  obtain ⟨lead, mid, blanks, heq, -, -, hblanks, -⟩ := h.exists_marks
  have hassoc : x ++ c = (lead ++ openingMark k :: mid) ++ closingMark k :: blanks := by simp [heq]
  rcases List.append_eq_append_iff.1 hassoc with ⟨a, -, rfl⟩ | ⟨a, -, ha⟩
  · simp
  · rcases List.cons_eq_append_iff.1 ha with ⟨-, rfl⟩ | ⟨a, -, rfl⟩
    · simp
    · exact absurd (allBlank_append.1 hblanks).2 hc

end Line

namespace Declaration

open Line

variable {k : Kind} {name value : String} {line x t : Bytes} {n : Bytes}

/-! ## A canonical form behind other text -/

/-- The canonical form starts with the keyword and the opening mark. -/
theorem opening_prefix_canonical :
    keywordOf k ++ [openingMark k] <+: encode (canonical k name value) := by
  rw [encode_canonical]
  refine List.IsPrefix.trans ?_ (List.prefix_append _ _)
  cases k with
  | const =>
    rw [canonicalHead, encode_append, encode_append, List.append_assoc]
    exact List.IsPrefix.trans (by decide) (List.prefix_append _ _)
  | var =>
    rw [canonicalHead, encode_append, encode_append, List.append_assoc]
    exact List.prefix_append _ _

/-- What a line declares is read from its head and its value. -/
theorem lastValue?_singleton : lastValue? k name [line] =
    (head? k line).bind fun (n, text) =>
      if decode n = name then (value? k text).map fun (v, _) => decode v else none := by
  rw [lastValue?, last?_singleton, ofLine?, parts?]
  cases head? k line with
  | none => rfl
  | some found =>
    obtain ⟨n, text⟩ := found
    cases hv : value? k text with
    | none => simp [hv]
    | some read => by_cases hn : decode n = name <;> simp [hv, hn, Option.filter_some]

theorem isSome_lastValue?_singleton_iff :
    (lastValue? k name [line]).isSome ↔ nameOnLine? k line = some name := by
  rw [lastValue?, last?_singleton, ofLine?, nameOnLine?]
  cases parts? k line with
  | none => simp
  | some p => by_cases hn : decode p.name = name <;> simp [hn, Option.filter_some]

/-- **A declaration behind other text** is one of its name where that text is
blank or starts with a head of the name. -/
theorem allBlank_or_head?_of_append (h : head? k (x ++ encode (canonical k name value)) =
    some (n, t)) : AllBlank x ∨ ∃ r, head? k x = some (n, r) := by
  obtain ⟨head, hhead, hsplit, -⟩ := head?_eq_some_iff.1 h
  rcases List.append_eq_append_iff.1 hsplit with ⟨c, rfl, hc⟩ | ⟨c, rfl, -⟩
  · -- the head goes on into the declaration, at least up to its opening mark if at all
    have hopening : keywordOf k ++ [openingMark k] <+: encode (canonical k name value) :=
      opening_prefix_canonical
    rcases List.prefix_or_prefix_of_prefix ⟨t, hc.symm⟩ hopening with hshort | ⟨z, rfl⟩
    · have hblank : AllBlank c := by
        refine Classical.byContradiction fun hc => ?_
        have hmem := hshort.subset (hhead.closingMark_mem hc)
        revert hmem
        cases k <;> decide
      obtain rfl : c = [] := by
        cases c with
        | nil => rfl
        | cons b c =>
          have hb := (allBlank_cons.1 hblank).1
          cases k <;> rw [(List.cons_prefix_cons.1 hshort).1] at hb <;> exact absurd hb (by decide)
      rw [List.append_nil] at hhead
      exact .inr ⟨[], by simpa [skipBlanks] using head?_append hhead []⟩
    · rw [List.append_assoc] at hhead
      refine .inl (hhead.allBlank_of_append ?_)
      cases k <;> decide
  · exact .inr ⟨_, head?_append hhead c⟩

/-- **A declaration behind other text declares its name** where that text is
blank or starts with a head of the name. -/
theorem isSome_lastValue?_append_canonical_iff (hn : Text.IsName name) (value : String) :
    (lastValue? k name [x ++ encode (canonical k name value)]).isSome ↔
      AllBlank x ∨ ∃ r, head? k x = some (encode name, r) := by
  rw [isSome_lastValue?_singleton_iff]
  constructor
  · intro h
    obtain ⟨p, hp, rfl⟩ := Option.map_eq_some_iff.1 h
    obtain ⟨head, t, rest, hhead, -, hline, -⟩ := exists_of_parts?_eq_some hp
    have hread := head?_append hhead (p.value ++ (t ++ rest))
    rw [← hline] at hread
    rw [Text.encode_decode_of_isWord hhead.isWord]
    exact allBlank_or_head?_of_append hread
  · have hdeclared : ∀ {head a : Bytes}, IsHead k (encode name) head →
        nameOnLine? k (head ++ (a ++ (encode value ++ canonicalTail k))) = some name := by
      intro head a hhead
      rw [nameOnLine?_head hhead ⟨_, isTerminator_canonicalTail, a ++ encode value, [], by simp⟩,
        if_pos rfl]
    rintro (hblank | ⟨r, hr⟩)
    · rw [encode_canonical, ← List.append_assoc]
      exact hdeclared (a := []) ((isHead_canonicalHead hn).blanks_append hblank)
    · obtain ⟨head, hhead, rfl, -⟩ := head?_eq_some_iff.1 hr
      rw [encode_canonical, List.append_assoc, ← List.append_assoc r]
      exact hdeclared hhead

end Declaration

end SiteConfig
