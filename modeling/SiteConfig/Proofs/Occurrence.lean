import SiteConfig.Proofs.Containment
import SiteConfig.Text.Search
/-!
# Where a text first occurs

A text without line feeds occurs in another where it occurs in one of the
lines (`infix_iff_exists_mem_lines`). It occurs first at the end of `a` if
it stands there and does not occur in `a` with all but its own last byte
after it (`indexOf?_append_eq_some_iff`): an earlier occurrence would end
by then.
-/

namespace SiteConfig

namespace Bytes

variable {needle text a b l m : Bytes}

/-! ## Lines of two texts in a row -/

/-- The last line of a text. -/
def lastLine (text : Bytes) : Bytes := (lines text).getLast (lines_ne_nil text)

theorem exists_lines_eq_concat (text : Bytes) :
    ∃ before, lines text = before ++ [lastLine text] :=
  ⟨(lines text).dropLast, (List.dropLast_concat_getLast (lines_ne_nil text)).symm⟩

theorem lastLine_eq {before : List Bytes} (h : lines text = before ++ [l]) : lastLine text = l := by
  simp [lastLine, h]

/-- **The last line of a text runs on** into the first line of the text after
it. -/
theorem lines_append_eq {before after : List Bytes} (ha : lines a = before ++ [l])
    (hb : lines b = m :: after) : lines (a ++ b) = before ++ (l ++ m) :: after := by
  have hbefore : ∀ line ∈ before, lineFeed ∉ line := fun line h =>
    lineFeed_not_mem_of_mem_lines (ha ▸ List.mem_append_left [l] h)
  have hl : lineFeed ∉ l :=
    lineFeed_not_mem_of_mem_lines (ha ▸ List.mem_append_right before List.mem_cons_self)
  have htext : a ++ b = between before [] (l ++ b) := by
    rw [eq_between_of_lines ha]
    simp [between]
  rw [htext, lines_between hbefore (List.forall_mem_nil _), lines_append_of_not_mem hl hb,
    List.append_nil]

/-- A text without line feeds that starts another starts its first line. -/
theorem prefix_of_lines_eq_cons {after : List Bytes} (h : lineFeed ∉ needle)
    (hp : needle <+: text) (hlines : lines text = m :: after) : needle <+: m := by
  obtain ⟨r, rfl⟩ := hp
  obtain ⟨line, rest, hr⟩ := List.exists_cons_of_ne_nil (lines_ne_nil r)
  rw [lines_append_of_not_mem h hr, List.cons.injEq] at hlines
  exact hlines.1 ▸ List.prefix_append needle line

/-! ## Occurrences in lines -/

/-- A line feed parts the occurrences of a text without one. -/
theorem infix_append_lineFeed_iff (hne : needle ≠ []) (h : lineFeed ∉ needle) :
    needle <:+: a ++ lineFeed :: b ↔ needle <:+: a ∨ needle <:+: b := by
  have hstart : ∀ {x}, x ≠ [] → x <:+: needle → ¬ x <+: lineFeed :: b := by
    intro x hx hin hp
    obtain ⟨c, x, rfl⟩ := List.exists_cons_of_ne_nil hx
    obtain ⟨rfl, -⟩ := List.cons_prefix_cons.1 hp
    exact h (hin.subset List.mem_cons_self)
  rw [List.infix_append_iff, List.infix_cons_iff,
    or_iff_right (hstart hne List.infix_rfl)]
  refine ⟨?_, fun h => h.imp_right .inl⟩
  rintro (ha | hb | ⟨l₁, l₂, rfl, h₁, h₂⟩)
  · exact .inl ha
  · exact .inr hb
  · by_cases hnil : l₂ = []
    · subst hnil
      rw [List.append_nil]
      exact .inl h₁.isInfix
    · exact absurd h₂ (hstart hnil (List.suffix_append l₁ l₂).isInfix)

theorem infix_intercalate_iff (hne : needle ≠ []) (h : lineFeed ∉ needle) {ls : List Bytes} :
    needle <:+: [lineFeed].intercalate ls ↔ ∃ line ∈ ls, needle <:+: line := by
  induction ls with
  | nil => simpa using hne
  | cons line ls ih =>
    cases ls with
    | nil => simp
    | cons next ls =>
      rw [List.intercalate_cons_cons, List.append_assoc, List.singleton_append,
        infix_append_lineFeed_iff hne h, ih]
      simp

/-- **A text without line feeds occurs where it occurs in a line.** -/
theorem infix_iff_exists_mem_lines (hne : needle ≠ []) (h : lineFeed ∉ needle) :
    needle <:+: text ↔ ∃ line ∈ lines text, needle <:+: line := by
  rw [← infix_intercalate_iff hne h, intercalate_lines]

theorem not_infix_of_mem_lines (hne : needle ≠ []) (h : lineFeed ∉ needle)
    (hno : ¬ needle <:+: text) (hl : l ∈ lines text) : ¬ needle <:+: l := fun hi =>
  hno ((infix_iff_exists_mem_lines hne h).2 ⟨l, hl, hi⟩)

/-- Blanks in front do not matter to a text that does not start with one. -/
theorem infix_blanks_append_iff {blanks : Bytes} (hne : needle ≠ [])
    (hb : skipBlanks needle = needle) (hall : AllBlank blanks) :
    needle <:+: blanks ++ text ↔ needle <:+: text := by
  induction blanks with
  | nil => rfl
  | cons c blanks ih =>
    rw [allBlank_cons] at hall
    have hno : ¬ needle <+: c :: (blanks ++ text) := by
      intro hp
      obtain ⟨d, needle, rfl⟩ := List.exists_cons_of_ne_nil hne
      obtain ⟨rfl, -⟩ := List.cons_prefix_cons.1 hp
      exact not_isBlank_of_skipBlanks_eq_cons hb hall.1
    rw [List.cons_append, List.infix_cons_iff, or_iff_right hno, ih hall.2]

/-! ## The first occurrence -/

/-- **A text occurs first at the end of `a`** if it starts what comes after,
and no part of it is needed for an occurrence in `a`. -/
theorem indexOf?_append_eq_some_iff (hne : needle ≠ []) :
    indexOf? needle (a ++ b) = some a.length ↔
      needle <+: b ∧ ¬ needle <:+: a ++ needle.dropLast := by
  have hlen : needle.dropLast.length + 1 = needle.length := by
    have := List.length_pos_iff.2 hne
    rw [List.length_dropLast]
    omega
  rw [indexOf?_eq_some_iff, List.drop_left, and_assoc, and_iff_right (by simp)]
  refine and_congr_right fun hp => ?_
  have hwithin : a ++ needle.dropLast <+: a ++ b :=
    List.prefix_append_right_inj a |>.2 ((List.dropLast_prefix needle).trans hp)
  constructor
  · rintro hmin ⟨s, u, he⟩
    -- such an occurrence ends before the whole text, so it starts within `a`
    have hs := congrArg List.length he
    simp only [List.length_append] at hs
    refine hmin s.length (by omega) ?_
    obtain ⟨r, hr⟩ := hwithin
    rw [← hr, ← he, List.append_assoc, List.append_assoc, List.drop_left]
    exact List.prefix_append needle _
  · intro hno q hq hocc
    refine hno ?_
    have hfront : (a ++ b).take q ++ needle <+: a ++ b := by
      obtain ⟨r, hr⟩ := hocc
      exact ⟨r, by rw [List.append_assoc, hr, List.take_append_drop]⟩
    have hle : ((a ++ b).take q ++ needle).length ≤ (a ++ needle.dropLast).length := by
      simp only [List.length_append, List.length_take]
      omega
    exact (List.suffix_append _ needle).isInfix.trans
      (List.prefix_of_prefix_length_le hfront hwithin hle).isInfix

/-- Where a text is found it stands, and it does not occur before. -/
theorem starts_of_indexOf? {p : Nat} (hne : needle ≠ []) (h : indexOf? needle text = some p) :
    needle <+: text.drop p ∧ ¬ needle <:+: text.take p ++ needle.dropLast := by
  have hle : p ≤ text.length := (indexOf?_eq_some_iff.1 h).1.1
  refine (indexOf?_append_eq_some_iff hne).1 ?_
  rw [List.take_append_drop, List.length_take_of_le hle, h]

end Bytes

end SiteConfig
