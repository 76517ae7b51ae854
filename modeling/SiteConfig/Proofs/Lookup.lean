import SiteConfig.Catalog
import SiteConfig.Proofs.Passes
/-!
# Looking a name up line by line

A scan finds a name where the last line that declares it does
(`get?_scan`). So the lookup of two runs of lines is that of the second,
and of the first where the second has none (`last?_append`).

`between` is the text with given lines before and after a part of it, and
`lines_between` are its lines.
-/

namespace SiteConfig

namespace Declaration

open Bytes

variable {k : Kind} {name : String} {offset : Nat} {line : Bytes} {a b : List Bytes}

/-- The declaration of a name on the last of the lines that declares it. The
first line starts at `offset`. -/
def last? (k : Kind) (name : String) (offset : Nat) (lines : List Bytes) : Option Declaration :=
  ((located offset lines).filterMap fun (o, line) => ofLine? k o line).reverse.find? (·.name = name)

/-- The value text of a name on the last of the lines that declares it. -/
def lastValue? (k : Kind) (name : String) (lines : List Bytes) : Option String :=
  (last? k name 0 lines).map (·.value)

/-! ## One line after another -/

/-- **The later lines come first in a lookup.** -/
theorem last?_append : last? k name offset (a ++ b) =
    (last? k name (offset + extent a) b).or (last? k name offset a) := by
  rw [last?, located_append, List.filterMap_append, List.reverse_append, List.find?_append]
  rfl

theorem last?_singleton : last? k name offset [line] =
    (ofLine? k offset line).filter (·.name = name) := by
  cases h : ofLine? k offset line with
  | none => simp [last?, located, h]
  | some d => by_cases hd : d.name = name <;> simp [last?, located, h, hd, Option.filter_some]

theorem last?_cons : last? k name offset (line :: b) =
    (last? k name (offset + line.length + 1) b).or
      ((ofLine? k offset line).filter (·.name = name)) := by
  rw [← last?_singleton]
  exact last?_append (a := [line])

/-- What a line declares does not depend on where it starts. -/
theorem map_value_ofLine? (o o' : Nat) (line : Bytes) :
    ((ofLine? k o line).filter (·.name = name)).map (·.value) =
      ((ofLine? k o' line).filter (·.name = name)).map (·.value) := by
  unfold ofLine?
  cases Line.parts? k line with
  | none => rfl
  | some p =>
    by_cases hp : decode p.name = name <;> simp [hp, Option.filter_some]

theorem map_value_last? (offset : Nat) (lines : List Bytes) :
    (last? k name offset lines).map (·.value) = lastValue? k name lines := by
  unfold lastValue?
  suffices h : ∀ o o', (last? k name o lines).map (·.value) = (last? k name o' lines).map (·.value)
    from h offset 0
  induction lines with
  | nil => intro o o'; rfl
  | cons line lines ih =>
    intro o o'
    rw [last?_cons, last?_cons, Option.map_or, Option.map_or, ih, map_value_ofLine? o o' line]

@[simp] theorem lastValue?_nil : lastValue? k name [] = none := rfl

/-- An empty line declares nothing. -/
@[simp] theorem lastValue?_singleton_nil : lastValue? k name [[]] = none := by cases k <;> rfl

theorem lastValue?_append :
    lastValue? k name (a ++ b) = (lastValue? k name b).or (lastValue? k name a) := by
  rw [lastValue?, last?_append, Option.map_or, map_value_last?, map_value_last?]

theorem lastValue?_cons : lastValue? k name (line :: b) =
    (lastValue? k name b).or (lastValue? k name [line]) := lastValue?_append (a := [line])

theorem last?_eq_none_iff : last? k name offset b = none ↔ lastValue? k name b = none := by
  rw [← map_value_last? offset, Option.map_eq_none_iff]

/-! ## The lookup of a scan -/

theorem kind_of_ofLine? {d : Declaration} (h : ofLine? k offset line = some d) : d.kind = k := by
  obtain ⟨p, -, rfl⟩ := Option.map_eq_some_iff.1 h
  rfl

theorem kind_of_mem_allOf {d : Declaration} {text : Bytes} (h : d ∈ allOf k text) : d.kind = k := by
  rw [allOf_eq_lines] at h
  obtain ⟨⟨o, line⟩, -, hd⟩ := List.mem_filterMap.1 h
  exact kind_of_ofLine? hd

/-- Among declarations of one kind, a name of another is not found. -/
theorem find?_key {k' : Kind} {ds : List Declaration} (h : ∀ d ∈ ds, d.kind = k') :
    ds.find? (·.key = (k, name)) = if k' = k then ds.find? (·.name = name) else none := by
  induction ds with
  | nil => simp
  | cons d ds ih =>
    have hd : d.kind = k' := h d List.mem_cons_self
    rw [List.find?_cons, List.find?_cons, ih fun e he => h e (List.mem_cons_of_mem d he)]
    by_cases hk : k' = k <;> by_cases hn : d.name = name <;> simp [key, hd, hk, hn]

/-- **A scan finds what the last line that declares a name declares.** -/
theorem get?_scan (text : Bytes) (k : Kind) (name : String) :
    (Catalog.scan text).get? k name = last? k name 0 (lines text) := by
  have hmem : ∀ k', ∀ d ∈ (allOf k' text).reverse, d.kind = k' := fun k' d hd =>
    kind_of_mem_allOf (List.mem_reverse.1 hd)
  have hall : Kind.all.flatMap (allOf · text) = allOf .const text ++ allOf .var text := by
    simp [Kind.all]
  rw [Catalog.scan, Catalog.get?_ofList, hall, List.reverse_append, List.find?_append,
    find?_key (hmem .var), find?_key (hmem .const)]
  cases k <;> simp [last?, allOf_eq_lines]

theorem map_value_get?_scan (text : Bytes) (k : Kind) (name : String) :
    ((Catalog.scan text).get? k name).map (·.value) = lastValue? k name (lines text) := by
  rw [get?_scan, lastValue?]

/-- **A name is found on one line**, and no line after it declares the name. -/
theorem exists_line_of_last?_eq_some {d : Declaration} {lines : List Bytes}
    (h : last? k name offset lines = some d) :
    ∃ before line after, lines = before ++ line :: after ∧
      ofLine? k (offset + extent before) line = some d ∧ d.name = name ∧
      lastValue? k name after = none := by
  induction lines generalizing offset with
  | nil => cases h
  | cons line lines ih =>
    rw [last?_cons, Option.or_eq_some_iff] at h
    rcases h with h | ⟨hnone, h⟩
    · obtain ⟨before, line', after, rfl, hd, hn, hlast⟩ := ih h
      refine ⟨line :: before, line', after, rfl, ?_, hn, hlast⟩
      rw [extent, ← hd]
      congr 1
      omega
    · obtain ⟨hd, hn⟩ := Option.filter_eq_some_iff.1 h
      exact ⟨[], line, lines, rfl, hd, of_decide_eq_true hn, last?_eq_none_iff.1 hnone⟩

end Declaration

/-! ## Finding by lookup -/

namespace Catalog

/-- A name that is looked up is found where it is held. -/
theorem lookup_eq_found_iff {c : Catalog} {k : Kind} {name : String} {d : Declaration} :
    c.lookup k name = .found d ↔ c.get? k name = some d := by
  have hfind : c.get? k name = (c.declarations.filter (·.kind = k)).find? (·.name = name) := by
    rw [get?, List.find?_filter]
    congr 1
    funext e
    simp [Declaration.key]
  rw [hfind, lookup, ofKind?, isEmpty]
  cases hc : c.declarations with
  | nil => simp
  | cons e ds =>
    simp only [List.isEmpty_cons, Bool.false_eq_true, if_false]
    cases (e :: ds).filter (·.kind = k) with
    | nil => simp
    | cons e' ds' =>
      simp only
      cases (e' :: ds').find? (·.name = name) <;> simp

end Catalog

/-- Joined lists are the first of them, and the separator before each other one. -/
theorem intercalate_singleton_cons {α : Type} (x : α) (l : List α) (ls : List (List α)) :
    [x].intercalate (l :: ls) = l ++ ls.flatMap (x :: ·) := by
  induction ls generalizing l with
  | nil => simp
  | cons next ls ih =>
    rw [List.intercalate_cons_cons, ih, List.flatMap_cons, List.append_assoc,
      List.singleton_append, List.cons_append]

/-! ## A text between lines -/

namespace Bytes

variable {before after : List Bytes} {x y : Bytes}

/-- The text in which `x` stands between the lines `before` and `after`. -/
def between (before after : List Bytes) (x : Bytes) : Bytes :=
  before.flatMap (· ++ [lineFeed]) ++ (x ++ after.flatMap (lineFeed :: ·))

theorem length_flatMap_lines (lines : List Bytes) :
    (lines.flatMap (· ++ [lineFeed])).length = extent lines := by
  induction lines with
  | nil => rfl
  | cons line lines ih =>
    rw [List.flatMap_cons, List.length_append, ih, extent, List.length_append,
      List.length_singleton]

/-- Lines joined are one of them between the others. -/
theorem intercalate_eq_between (before after : List Bytes) (line : Bytes) :
    [lineFeed].intercalate (before ++ line :: after) = between before after line := by
  induction before with
  | nil => exact intercalate_singleton_cons lineFeed line after
  | cons first before ih =>
    rw [List.cons_append, List.intercalate_cons_of_ne_nil (by simp), ih]
    simp [between]

theorem eq_between_of_lines {text line : Bytes} (h : lines text = before ++ line :: after) :
    text = between before after line := by
  rw [← intercalate_lines text, h, intercalate_eq_between]

/-- **The lines of a text between lines** are these lines and its own. -/
theorem lines_between (hb : ∀ line ∈ before, lineFeed ∉ line) (ha : ∀ line ∈ after, lineFeed ∉ line)
    (x : Bytes) : lines (between before after x) = before ++ (lines x ++ after) := by
  have hafter : lines (x ++ after.flatMap (lineFeed :: ·)) = lines x ++ after := by
    induction after generalizing x with
    | nil => simp
    | cons line after ih =>
      rw [List.forall_mem_cons] at ha
      rw [List.flatMap_cons, List.cons_append, lines_append, ih ha.2, lines_eq_singleton ha.1]
      rfl
  unfold between
  induction before with
  | nil => simpa using hafter
  | cons line before ih =>
    rw [List.forall_mem_cons] at hb
    have hassoc : (line :: before).flatMap (· ++ [lineFeed]) ++
        (x ++ after.flatMap (lineFeed :: ·)) =
        line ++ lineFeed :: (before.flatMap (· ++ [lineFeed]) ++
          (x ++ after.flatMap (lineFeed :: ·))) := by simp
    rw [hassoc, lines_append, ih hb.2, lines_eq_singleton hb.1]
    rfl

theorem between_inj : between before after x = between before after y ↔ x = y := by
  simp [between]

/-- Replacing a range in what stands between lines. -/
theorem splice_between {i j : Nat} (hij : i ≤ j) (hj : j ≤ x.length) (new : Bytes) :
    (between before after x).splice (extent before + i) (extent before + j) new =
      between before after (x.splice i j new) := by
  have hi : i ≤ x.length := Nat.le_trans hij hj
  simp only [between, splice, ← length_flatMap_lines, List.take_length_add_append,
    List.drop_length_add_append, List.take_append_of_le_length hi,
    List.drop_append_of_le_length hj, List.append_assoc]

/-- What stands at a range between lines. -/
theorem slice_between {i j : Nat} (hij : i ≤ j) (hj : j ≤ x.length) :
    Span.slice ⟨extent before + i, extent before + j⟩ (between before after x) =
      Span.slice ⟨i, j⟩ x := by
  have hi : i ≤ x.length := Nat.le_trans hij hj
  simp only [between, Span.slice, ← length_flatMap_lines, List.drop_length_add_append,
    List.drop_append_of_le_length hi, Nat.add_sub_add_left]
  exact List.take_append_of_le_length (by rw [List.length_drop]; omega)

/-- What stands from an offset on. -/
theorem drop_between {i : Nat} (hi : i ≤ x.length) :
    (between before after x).drop (extent before + i) =
      x.drop i ++ after.flatMap (lineFeed :: ·) := by
  simp only [between, ← length_flatMap_lines, List.drop_length_add_append,
    List.drop_append_of_le_length hi]

end Bytes

end SiteConfig
