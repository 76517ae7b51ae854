import SiteConfig.Proofs.ReadBack
/-!
# Other declarations after an update

An update rewrites one line, so all that it can declare anew are the lines
that begin within the new value, after its line breaks. A value without a
line break leaves all other names as they are. A string with line breaks
does so exactly if no line that begins within it declares another name than
before that no later line declares (`lookup_update_iff`): quoting does not
hide such a line.
-/

namespace SiteConfig

open Bytes Line Declaration

namespace Bytes

variable {a b : Bytes}

/-- Bytes without a line feed belong to the first line of what follows. -/
theorem lines_append_of_not_mem (h : lineFeed ∉ a) {line : Bytes} {rest : List Bytes}
    (hb : lines b = line :: rest) : lines (a ++ b) = (a ++ line) :: rest := by
  induction a with
  | nil => exact hb
  | cons c a ih =>
    rw [List.mem_cons, not_or] at h
    exact lines_cons (Ne.symm h.1) (ih h.2)

/-- The lines that begin within a text, after its line feeds. -/
def laterLines (text : Bytes) : List Bytes := (lines text).tail

/-- What is left of the line of a text. -/
def restOfLine (text : Bytes) : Bytes := text.takeWhile (· ≠ lineFeed)

theorem laterLines_eq_nil (h : lineFeed ∉ a) : laterLines a = [] := by
  rw [laterLines, lines_eq_singleton h, List.tail_cons]

end Bytes

namespace Place

variable {k k' : Kind} {name name' : String} {text : Bytes} {normalize : Bool} {x : Bytes}
variable (p : Place k name text)

/-! ## Another name -/

/-- Another name is found before the line or after it. -/
theorem lastValue?_of_ne (h : (k', name') ≠ (k, name)) : lastValue? k' name' (lines text) =
    (lastValue? k' name' p.after).or (lastValue? k' name' p.before) := by
  rw [p.lines_eq, lastValue?_append, lastValue?_cons, lastValue?_line_of_ne h _ p.isHead,
    Option.or_none]

/-- **Another name in the rewritten text** is found before the line, after it,
or on a line that begins within the new value. -/
theorem lastValue?_rewritten_of_ne (h : (k', name') ≠ (k, name)) :
    lastValue? k' name' (lines (p.rewritten normalize x)) =
      (lastValue? k' name' p.after).or
        ((lastValue? k' name' (laterLines (p.newLine normalize x))).or
          (lastValue? k' name' p.before)) := by
  have hhead := p.isHead_newHead normalize
  -- the first of the lines still starts with the head, and so declares no other name
  obtain ⟨line, rest, hlines⟩ :=
    List.exists_cons_of_ne_nil (lines_ne_nil (x ++ (p.newTail normalize ++ p.rest)))
  have hnew : lines (p.newLine normalize x) = (p.newHead normalize ++ line) :: rest :=
    lines_append_of_not_mem hhead.lineFeed_not_mem hlines
  have hnone : lastValue? k' name' [p.newHead normalize ++ line] = none :=
    lastValue?_line_of_ne h line hhead
  rw [p.lines_rewritten, laterLines, hnew, List.tail_cons, List.cons_append, lastValue?_append,
    lastValue?_cons, lastValue?_append, hnone, Option.or_none, Option.or_assoc]

/-- **A value on one line leaves another name as it is.** -/
theorem lastValue?_rewritten_of_not_mem (h : (k', name') ≠ (k, name)) (hx : lineFeed ∉ x) :
    lastValue? k' name' (lines (p.rewritten normalize x)) = lastValue? k' name' (lines text) := by
  rw [p.lastValue?_rewritten_of_ne h, p.lastValue?_of_ne h,
    laterLines_eq_nil (p.lineFeed_not_mem_newLine hx), lastValue?_nil, Option.none_or]

/-- What is found second does not show if something is found first, or if it
is what is found without it. -/
theorem or_or_eq_or_iff {α : Type} {a b c : Option α} :
    a.or (b.or c) = a.or c ↔ ∀ x, b = some x → a.isSome ∨ a.or c = some x := by
  cases a with
  | some y => simp
  | none => cases b <;> simp [eq_comm]

/-- **All other names stay as they are** if and only if what a line declares
that begins within the new value does not show. -/
theorem forall_lastValue?_rewritten_iff :
    (∀ k' name', (k', name') ≠ (k, name) →
        lastValue? k' name' (lines (p.rewritten normalize x)) = lastValue? k' name' (lines text)) ↔
      ∀ k' name' y, (k', name') ≠ (k, name) →
        lastValue? k' name' (laterLines (p.newLine normalize x)) = some y →
        (lastValue? k' name' p.after).isSome ∨ lastValue? k' name' (lines text) = some y := by
  constructor
  · intro hsame k' name' y h hy
    have hlast := hsame k' name' h
    rw [p.lastValue?_rewritten_of_ne h, p.lastValue?_of_ne h] at hlast
    rw [p.lastValue?_of_ne h]
    exact or_or_eq_or_iff.1 hlast y hy
  · intro hlater k' name' h
    rw [p.lastValue?_rewritten_of_ne h, p.lastValue?_of_ne h]
    refine or_or_eq_or_iff.2 fun y hy => ?_
    rw [← p.lastValue?_of_ne h]
    exact hlater k' name' y h hy

/-! ## What follows the declaration -/

theorem restOfLine_drop : restOfLine (text.drop p.declaration.span.stop) = p.rest := by
  have hrest : ∀ b ∈ p.rest, decide (b ≠ lineFeed) = true := fun b hb =>
    decide_eq_true fun h => p.lineFeed_not_mem_rest (h ▸ hb)
  rw [drop_declaration, restOfLine, between, List.flatMap_nil, List.nil_append,
    List.takeWhile_append_of_pos hrest]
  cases p.after with
  | nil => simp
  | cons line after => simp

theorem laterLines_drop : laterLines (text.drop p.declaration.span.stop) = p.after := by
  have hlines := lines_between (List.forall_mem_nil _) p.lineFeed_not_mem_after p.rest
  rw [drop_declaration, laterLines, hlines, lines_eq_singleton p.lineFeed_not_mem_rest]
  rfl

end Place

namespace Editor

variable {k : Kind} {name : String} {text : Bytes} {o : UpdateOptions}

/-- **What an update leaves as it is.** A string without line breaks leaves all
other names as they are. One with line breaks does if and only if another
name that a line declares that begins within the new declaration is declared
further down too, or had that value before. -/
theorem lookup_update_iff (e : Editor) (s : String) {d : Declaration} (hraw : o.raw = false)
    (hd : (Catalog.scan text).get? k name = some d) :
    ∃ contents, (e.update k name (.string s) o (.file text)).storage = .file contents ∧
      ((∀ k' name', (k', name') ≠ (k, name) →
          ((Catalog.scan contents).get? k' name').map (·.value) =
            ((Catalog.scan text).get? k' name').map (·.value)) ↔
        ∀ k' name' x, (k', name') ≠ (k, name) →
          lastValue? k' name' (laterLines
            (newSource text d name ((Value.string s).render false) o.normalize ++
              restOfLine (text.drop d.span.stop))) = some x →
          (lastValue? k' name' (laterLines (text.drop d.span.stop))).isSome ∨
            ((Catalog.scan text).get? k' name').map (·.value) = some x) ∧
      ('\n' ∉ s.toList → ∀ k' name', (k', name') ≠ (k, name) →
        ((Catalog.scan contents).get? k' name').map (·.value) =
          ((Catalog.scan text).get? k' name').map (·.value)) := by
  obtain ⟨p, rfl⟩ := Place.exists_of_get? hd
  have hstorage := (p.update_file e (.string s) o).1
  rw [hraw] at hstorage
  have hline : newSource text p.declaration name ((Value.string s).render false) o.normalize ++
      p.rest = p.newLine o.normalize (encode ((Value.string s).render false)) := by
    simp only [p.newSource_declaration, Place.newLine, List.append_assoc]
  simp only [hstorage, p.restOfLine_drop, p.laterLines_drop, hline, map_value_get?_scan]
  refine ⟨_, rfl, p.forall_lastValue?_rewritten_iff, fun hs k' name' h => ?_⟩
  have hx : lineFeed ∉ encode ((Value.string s).render false) := by
    rw [lineFeed_not_mem_encode_iff, Value.toList_render, Value.literal, Value.quoted_eq]
    simp [Value.mem_escaped_iff, hs]
  exact p.lastValue?_rewritten_of_not_mem h hx

/-- A string that looks like a declaration declares nothing on one line. -/
theorem lookup_update_declaration :
    (Catalog.scan (encode "$a = 1;")).get? .var "a" =
        some ⟨.var, "a", "1", "$a = 1;", ⟨0, 7⟩, ⟨5, 6⟩⟩ ∧
      ∃ contents, (update ⟨.default⟩ .var "a" (.string "$b = 2;") {}
          (.file (encode "$a = 1;"))).storage = .file contents ∧
        ∀ k' name', (k', name') ≠ (.var, "a") →
          ((Catalog.scan contents).get? k' name').map (·.value) =
            ((Catalog.scan (encode "$a = 1;")).get? k' name').map (·.value) := by
  have hd : (Catalog.scan (encode "$a = 1;")).get? .var "a" =
      some ⟨.var, "a", "1", "$a = 1;", ⟨0, 7⟩, ⟨5, 6⟩⟩ := by decide
  obtain ⟨contents, hcontents, -, hother⟩ :=
    lookup_update_iff (o := {}) ⟨.default⟩ "$b = 2;" rfl hd
  exact ⟨hd, contents, hcontents, hother (by decide)⟩

/-- Not every string leaves all other names as they are. After a line break
in it the same text is a declaration. -/
theorem not_forall_lookup_update : ¬ ∀ (e : Editor) (k k' : Kind) (name name' s : String)
    (o : UpdateOptions) (text contents : Bytes), o.raw = false →
    ((Catalog.scan text).get? k name).isSome →
    (e.update k name (.string s) o (.file text)).storage = .file contents →
    (k', name') ≠ (k, name) →
    ((Catalog.scan contents).get? k' name').map (·.value) =
      ((Catalog.scan text).get? k' name').map (·.value) := by
  intro h
  have hother := h ⟨.default⟩ .var .var "a" "b" "x\n$b = 2;" {} (encode "$a = 1;")
    (encode "$a = 'x\n$b = 2;';") rfl (by decide) (by decide) (by decide)
  revert hother
  decide +kernel

end Editor

end SiteConfig
