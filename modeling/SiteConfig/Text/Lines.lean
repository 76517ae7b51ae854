import SiteConfig.Text.Bytes
/-!
# Lines

A text is divided into lines at its line feeds. The lines and the line
feeds make up the text (`intercalate_lines`), no line has a line feed in
it (`lineFeed_not_mem_of_mem_lines`), and dividing a text at any one line
feed divides its lines there (`lines_append`).
-/

namespace SiteConfig

namespace Bytes

/-- The lines of a text, without the line feeds between them. There is one
more line than there are line feeds, so the empty text has one line. -/
def lines : Bytes → List Bytes
  | [] => [[]]
  | b :: text =>
    if b = lineFeed then [] :: lines text
    else match lines text with
      | [] => [[b]]
      | line :: rest => (b :: line) :: rest

/-- Lines with the offsets at which they start, the first at `offset`. -/
def located (offset : Nat) : List Bytes → List (Nat × Bytes)
  | [] => []
  | line :: rest => (offset, line) :: located (offset + line.length + 1) rest

/-- The length of the line break at the start of a text: two for a carriage
return with its line feed, one for a line feed, and none otherwise. -/
def lineBreakLength : Bytes → Nat
  | [] => 0
  | [b] => if b = lineFeed then 1 else 0
  | b :: c :: _ =>
    if b = lineFeed then 1
    else if b = carriageReturn ∧ c = lineFeed then 2
    else 0

/-! ## What lines are -/

/-- There is at least one line. -/
theorem lines_ne_nil (text : Bytes) : lines text ≠ [] := by
  cases text with
  | nil => simp [lines]
  | cons b text =>
    rw [lines]
    split
    · simp
    · split <;> simp

/-- A line feed in front is an empty line in front. -/
theorem lines_lineFeed_cons (text : Bytes) : lines (lineFeed :: text) = [] :: lines text := by
  simp [lines]

/-- Any other byte in front belongs to the first line. -/
theorem lines_cons {b : UInt8} {text line : Bytes} {rest : List Bytes} (hb : b ≠ lineFeed)
    (h : lines text = line :: rest) : lines (b :: text) = (b :: line) :: rest := by
  simp [lines, hb, h]

/-- A text without line feeds is one line. -/
theorem lines_eq_singleton {line : Bytes} (h : lineFeed ∉ line) : lines line = [line] := by
  induction line with
  | nil => rfl
  | cons b line ih =>
    simp only [List.mem_cons, not_or] at h
    exact lines_cons (Ne.symm h.1) (ih h.2)

/-- **Two texts with a line feed between them have the lines of both.** -/
theorem lines_append (a b : Bytes) : lines (a ++ lineFeed :: b) = lines a ++ lines b := by
  induction a with
  | nil => exact lines_lineFeed_cons b
  | cons c a ih =>
    by_cases hc : c = lineFeed
    · subst hc
      rw [List.cons_append, lines_lineFeed_cons, lines_lineFeed_cons, ih, List.cons_append]
    · obtain ⟨line, rest, h⟩ := List.exists_cons_of_ne_nil (lines_ne_nil a)
      rw [List.cons_append, lines_cons hc h, lines_cons hc (by rw [ih, h, List.cons_append]),
        List.cons_append]

/-- No line has a line feed in it. -/
theorem lineFeed_not_mem_of_mem_lines {text line : Bytes} (h : line ∈ lines text) :
    lineFeed ∉ line := by
  induction text generalizing line with
  | nil => simp_all [lines]
  | cons b text ih =>
    by_cases hb : b = lineFeed
    · subst hb
      rw [lines_lineFeed_cons, List.mem_cons] at h
      rcases h with rfl | h
      · simp
      · exact ih h
    · obtain ⟨first, rest, he⟩ := List.exists_cons_of_ne_nil (lines_ne_nil text)
      rw [lines_cons hb he, List.mem_cons] at h
      rcases h with rfl | h
      · rw [List.mem_cons, not_or]
        exact ⟨Ne.symm hb, ih (by simp [he])⟩
      · exact ih (by simp [he, h])

/-- **The lines make up the text**, with a line feed between each two. -/
theorem intercalate_lines (text : Bytes) : [lineFeed].intercalate (lines text) = text := by
  induction text with
  | nil => rfl
  | cons b text ih =>
    obtain ⟨first, rest, he⟩ := List.exists_cons_of_ne_nil (lines_ne_nil text)
    rw [he] at ih
    by_cases hb : b = lineFeed
    · subst hb
      rw [lines_lineFeed_cons, he, ← ih]
      simp [List.intercalate]
    · rw [lines_cons hb he]
      cases rest with
      | nil => simpa [List.intercalate] using ih
      | cons second rest => simpa [List.intercalate] using ih

/-- What holds of a text on one line, and of a further line in front of a text of
which it holds, holds of all texts. -/
@[elab_as_elim]
theorem line_induction {motive : Bytes → Prop} (line : ∀ a, lineFeed ∉ a → motive a)
    (append : ∀ a b, lineFeed ∉ a → motive b → motive (a ++ lineFeed :: b)) (text : Bytes) :
    motive text := by
  suffices h : ∀ a, lineFeed ∉ a → motive (a ++ text) from h [] List.not_mem_nil
  induction text with
  | nil => exact fun a ha => line _ (by rwa [List.append_nil])
  | cons c text ih =>
    intro a ha
    by_cases hc : c = lineFeed
    · subst hc
      exact append a text ha (ih [] List.not_mem_nil)
    · rw [List.append_cons]
      exact ih _ (by simp [ha, Ne.symm hc])

/-! ## Where lines start -/

/-- The length of lines with a line feed after each of them. -/
def extent : List Bytes → Nat
  | [] => 0
  | line :: rest => line.length + 1 + extent rest

/-- To locate lines does not change them. -/
theorem map_snd_located (offset : Nat) (lines : List Bytes) :
    (located offset lines).map (·.2) = lines := by
  induction lines generalizing offset with
  | nil => rfl
  | cons line lines ih => rw [located, List.map_cons, ih]

/-- Lines located one after another. -/
theorem located_append (offset : Nat) (a b : List Bytes) :
    located offset (a ++ b) = located offset a ++ located (offset + extent a) b := by
  induction a generalizing offset with
  | nil => simp [located, extent]
  | cons line a ih => simp [located, extent, ih, Nat.add_assoc]

/-- The lines of a text and their line feeds are one longer than the text. -/
theorem extent_lines (text : Bytes) : extent (lines text) = text.length + 1 := by
  induction text with
  | nil => rfl
  | cons b text ih =>
    obtain ⟨first, rest, he⟩ := List.exists_cons_of_ne_nil (lines_ne_nil text)
    by_cases hb : b = lineFeed
    · subst hb
      rw [lines_lineFeed_cons, extent, ih, List.length_nil, List.length_cons]
      omega
    · rw [he, extent] at ih
      rw [lines_cons hb he, extent, List.length_cons, List.length_cons]
      omega

/-- There are no more lines than bytes in them and after them. -/
theorem length_le_extent (ls : List Bytes) : ls.length ≤ extent ls := by
  induction ls with
  | nil => exact Nat.le_refl 0
  | cons line ls ih =>
    rw [List.length_cons, extent]
    omega

/-- **The lines after a line feed start where they would alone**, counted
from after the line feed. -/
theorem located_lines_append (offset : Nat) (a b : Bytes) :
    located offset (lines (a ++ lineFeed :: b)) =
      located offset (lines a) ++ located (offset + a.length + 1) (lines b) := by
  rw [lines_append, located_append, extent_lines, Nat.add_assoc]

end Bytes

end SiteConfig
