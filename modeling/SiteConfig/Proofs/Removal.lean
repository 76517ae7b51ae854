import Mathlib.Logic.Function.Iterate
import SiteConfig.Proofs.Commutation
/-!
# Removal after removal

A name may be declared on several lines, of which the last one counts. Its
removal takes that line away and leaves the lines before as they are, where they
are, so the line before it that declares the name counts next
(`Editor.remove_file`). Each removal takes away one of them, from the last to
the first, and when none is left a removal changes nothing
(`Editor.remove_run`).

A declaration that is to be removed must have nothing but the end of its line
after it. What follows the lines that stay plays no part in whether theirs do
(`Bytes.atLineEnd_drop_iff`).
-/

namespace SiteConfig

open Bytes Line Declaration

namespace Bytes

variable {u v w line : Bytes} {before ls : List Bytes} {i o offset : Nat}

/-- A line ends within its lines. -/
theorem add_length_lt_of_mem_located (h : (o, line) ∈ located offset ls) :
    o + line.length < offset + extent ls := by
  induction ls generalizing offset with
  | nil => cases h
  | cons first ls ih =>
    rw [located, List.mem_cons] at h
    rw [extent]
    rcases h with h | h
    · obtain ⟨rfl, rfl⟩ := Prod.mk.inj h
      omega
    · have hlt := ih h
      omega

/-- Up to a line feed, it does not matter what comes after it. -/
theorem atLineEnd_append_iff (h : [lineFeed] <:+ u) :
    AtLineEnd (u ++ v) ↔ AtLineEnd (u ++ w) := by
  obtain ⟨a, rfl⟩ := h
  match a with
  | [] => simp [AtLineEnd]
  | [b] => simp [AtLineEnd]
  | b :: c :: a => simp [AtLineEnd]

/-- Whether lines end at an offset within some lines depends on them alone. -/
theorem atLineEnd_drop_iff (hi : i < extent before) :
    AtLineEnd ((before.flatMap (· ++ [lineFeed]) ++ v).drop i) ↔
      AtLineEnd ((before.flatMap (· ++ [lineFeed]) ++ w).drop i) := by
  rcases List.eq_nil_or_concat before with rfl | ⟨first, line, rfl⟩
  · cases hi
  have hlines : (first.concat line).flatMap (· ++ [lineFeed]) =
      (first.flatMap (· ++ [lineFeed]) ++ line) ++ [lineFeed] := by simp
  rw [← length_flatMap_lines, hlines, List.length_append, List.length_singleton] at hi
  have hle : i ≤ (first.flatMap (· ++ [lineFeed]) ++ line).length := by omega
  rw [hlines, List.append_assoc _ [lineFeed], List.append_assoc _ [lineFeed],
    List.drop_append_of_le_length hle, List.drop_append_of_le_length hle, ← List.append_assoc,
    ← List.append_assoc]
  exact atLineEnd_append_iff (List.suffix_append _ _)

end Bytes

/-! ## The declarations of one name -/

namespace Declaration

variable {k : Kind} {name : String} {offset : Nat} {a b : List Bytes} {d : Declaration}

/-- The declarations of a name on some lines, the first of which starts at
`offset`. -/
def occurrencesFrom (k : Kind) (name : String) (offset : Nat) (lines : List Bytes) :
    List Declaration :=
  ((located offset lines).filterMap fun (o, line) => ofLine? k o line).filter (·.name = name)

/-- The declarations of a name in a text, one for each line that declares it. -/
def occurrences (k : Kind) (name : String) (text : Bytes) : List Declaration :=
  (allOf k text).filter (·.name = name)

theorem occurrences_eq (k : Kind) (name : String) (text : Bytes) :
    occurrences k name text = occurrencesFrom k name 0 (lines text) := by
  rw [occurrences, allOf_eq_lines, occurrencesFrom]

theorem occurrencesFrom_append : occurrencesFrom k name offset (a ++ b) =
    occurrencesFrom k name offset a ++ occurrencesFrom k name (offset + extent a) b := by
  rw [occurrencesFrom, located_append, List.filterMap_append, List.filter_append]
  rfl

theorem getLast?_occurrencesFrom :
    (occurrencesFrom k name offset b).getLast? = last? k name offset b := List.getLast?_filter

/-- **A scan finds the last one.** -/
theorem getLast?_occurrences (k : Kind) (name : String) (text : Bytes) :
    (occurrences k name text).getLast? = (Catalog.scan text).get? k name := by
  rw [get?_scan, occurrences_eq, getLast?_occurrencesFrom]

theorem occurrencesFrom_eq_nil_iff :
    occurrencesFrom k name offset b = [] ↔ lastValue? k name b = none := by
  rw [← last?_eq_none_iff, ← getLast?_occurrencesFrom, List.getLast?_eq_none_iff]

/-- A declaration ends within its lines. -/
theorem stop_lt_of_mem_occurrencesFrom (h : d ∈ occurrencesFrom k name offset b) :
    d.span.stop < offset + extent b := by
  obtain ⟨⟨o, line⟩, hmem, hd⟩ := List.mem_filterMap.1 (List.mem_filter.1 h).1
  have hlt := add_length_lt_of_mem_located hmem
  obtain ⟨q, hq, rfl⟩ := Option.map_eq_some_iff.1 hd
  obtain ⟨head, t, rest, -, -, rfl, -, -, -, hstop⟩ := exists_of_parts?_eq_some hq
  simp only [List.length_append] at hlt
  dsimp only
  omega

/-- Every declaration of a name in a text has nothing but the end of its line
after it. -/
def EndsLines (k : Kind) (name : String) (text : Bytes) : Prop :=
  ∀ d ∈ occurrences k name text, AtLineEnd (text.drop d.span.stop)

end Declaration

/-! ## The text without the last of them -/

namespace Place

variable {k : Kind} {name : String} {text : Bytes} (p : Place k name text)

/-- The declaration at a place is the last one, and the others are before it. -/
theorem occurrences_eq : occurrences k name text =
    occurrencesFrom k name 0 p.before ++ [p.declaration] := by
  have hline : occurrencesFrom k name (0 + extent p.before) [p.line] = [p.declaration] := by
    rw [Nat.zero_add]
    change ([(p.offset, p.line)].filterMap fun (o, line) => ofLine? k o line).filter _ = _
    simp only [List.filterMap_cons, List.filterMap_nil, p.ofLine?_line]
    simp [declaration]
  have hafter : occurrencesFrom k name (0 + extent p.before + extent [p.line]) p.after = [] :=
    occurrencesFrom_eq_nil_iff.2 p.lastValue?_after
  calc occurrences k name text
    _ = occurrencesFrom k name 0 (p.before ++ ([p.line] ++ p.after)) := by
      rw [Declaration.occurrences_eq, p.lines_eq]
      rfl
    _ = occurrencesFrom k name 0 p.before ++ [p.declaration] := by
      rw [occurrencesFrom_append, occurrencesFrom_append, hline, hafter, List.append_nil]

/-- The line of a declaration is not empty, so that a removal changes it. -/
theorem newLines_remove_ne : Edit.remove.newLines p ≠ [p.line] := by
  have hline : p.line ≠ [] := by simp [line, p.isTerminator.ne_nil]
  rw [Edit.newLines]
  split
  · simpa using hline.symm
  · simp

/-- The text starts with the lines before the declaration, and does so after a
removal. -/
theorem exists_removed_eq_append : ∃ rest, Edit.remove.edited p =
    p.before.flatMap (· ++ [lineFeed]) ++ rest := by
  have hne : Edit.remove.newLines p ++ p.after ≠ [] := Edit.newLines_append_after_ne_nil
  obtain ⟨line, after, hlines⟩ := List.exists_cons_of_ne_nil hne
  rw [Edit.edited, hlines, intercalate_eq_between]
  exact ⟨_, rfl⟩

variable (h : Edit.remove.Fits text p.declaration)
include h

/-- The others are left, where they were. -/
theorem occurrences_removed :
    occurrences k name (Edit.remove.edited p) = occurrencesFrom k name 0 p.before := by
  have hafter : lastValue? k name (Edit.remove.newLines p ++ p.after) = none := by
    rw [lastValue?_append, p.lastValue?_after, Edit.lastValue?_newLines_remove]
    rfl
  rw [Declaration.occurrences_eq, Edit.lines_edited h, occurrencesFrom_append,
    occurrencesFrom_eq_nil_iff.2 hafter, List.append_nil]

/-- They end their lines as they did. -/
theorem endsLines_removed (hends : EndsLines k name text) :
    EndsLines k name (Edit.remove.edited p) := by
  intro d hd
  rw [p.occurrences_removed h] at hd
  have hstop : d.span.stop < extent p.before := by
    simpa using stop_lt_of_mem_occurrencesFrom hd
  have hend : AtLineEnd (text.drop d.span.stop) := hends d (by
    rw [p.occurrences_eq]
    exact List.mem_append_left _ hd)
  obtain ⟨rest, hrest⟩ := p.exists_removed_eq_append
  rw [p.text_eq, between, atLineEnd_drop_iff hstop] at hend
  rw [hrest]
  exact hend

/-- Another name keeps its value. -/
theorem value_removed_of_ne {k' : Kind} {name' : String} (hne : (k', name') ≠ (k, name)) :
    ((Catalog.scan (Edit.remove.edited p)).get? k' name').map (·.value) =
      ((Catalog.scan text).get? k' name').map (·.value) := by
  rw [map_value_get?_scan, map_value_get?_scan, Edit.lines_edited h, p.lastValue?_of_ne hne,
    lastValue?_append, lastValue?_append, Edit.lastValue?_newLines_remove, Option.or_none]

end Place

/-! ## Removals -/

namespace Editor

variable {k : Kind} {name : String} {text contents : Bytes} {i : Nat}

theorem remove_file_of_eq_none (h : (Catalog.scan text).get? k name = none) :
    (remove k name (.file text)).result = .ok false ∧
      (remove k name (.file text)).storage = .file text := by
  simp only [remove, scanned, Snapshot.read, Storage.read, h]
  exact ⟨rfl, rfl⟩

/-- Where no declaration is left, a removal changes nothing. -/
theorem remove_file_of_eq_nil (h : occurrences k name text = []) :
    (remove k name (.file text)).result = .ok false ∧
      (remove k name (.file text)).storage = .file text := by
  refine remove_file_of_eq_none ?_
  rw [← getLast?_occurrences, h, List.getLast?_nil]

/-- What is left of a text after removals of a name: its declarations but the
last ones, and the values of all other names. -/
structure IsLeft (k : Kind) (name : String) (text : Bytes) (i : Nat) (contents : Bytes) :
    Prop where
  occurrences_eq : occurrences k name contents =
    (occurrences k name text).take ((occurrences k name text).length - i)
  endsLines : EndsLines k name contents
  value_of_ne : ∀ k' name', (k', name') ≠ (k, name) →
    ((Catalog.scan contents).get? k' name').map (·.value) =
      ((Catalog.scan text).get? k' name').map (·.value)

theorem isLeft_zero (h : EndsLines k name text) : IsLeft k name text 0 text where
  occurrences_eq := by rw [Nat.sub_zero, List.take_length]
  endsLines := h
  value_of_ne _ _ _ := rfl

/-- **A removal** takes away the last declaration that is left, if one is, and
says so. -/
theorem remove_file (h : IsLeft k name text i contents) :
    (remove k name (.file contents)).result =
        .ok (decide (i < (occurrences k name text).length)) ∧
      ∃ contents', (remove k name (.file contents)).storage = .file contents' ∧
        IsLeft k name text (i + 1) contents' := by
  cases hget : (Catalog.scan contents).get? k name with
  | none =>
    -- none is left, and none would be left after one removal more
    have hnil : occurrences k name contents = [] := by
      rw [← List.getLast?_eq_none_iff, getLast?_occurrences, hget]
    have hi : ¬ i < (occurrences k name text).length := by
      have hlength := congrArg List.length (h.occurrences_eq.symm.trans hnil)
      rw [List.length_take, List.length_nil] at hlength
      omega
    obtain ⟨hresult, hstorage⟩ := remove_file_of_eq_nil hnil
    refine ⟨by rw [hresult, decide_eq_false hi], contents, hstorage, ?_, h.endsLines, h.value_of_ne⟩
    rw [h.occurrences_eq]
    congr 1
    omega
  | some d =>
    -- the last one that is left has a place, and the others stand before it
    obtain ⟨p, -⟩ := Place.exists_of_get? hget
    have heq := p.occurrences_eq
    have hend : Edit.remove.Fits contents p.declaration := h.endsLines _ (by simp [heq])
    have hi : i < (occurrences k name text).length := by
      have hlength := congrArg List.length (h.occurrences_eq.symm.trans heq)
      rw [List.length_take, List.length_append, List.length_singleton] at hlength
      omega
    obtain ⟨hstorage, hresult⟩ := Edit.apply_file ⟨.default⟩ hend
    refine ⟨?_, _, hstorage, ?_, p.endsLines_removed hend h.endsLines, fun k' name' hne => ?_⟩
    · rw [decide_eq_true hi, ← decide_eq_true p.newLines_remove_ne]
      exact hresult
    · calc occurrences k name (Edit.remove.edited p)
        _ = (occurrences k name contents).dropLast := by
          rw [p.occurrences_removed hend, heq, List.dropLast_concat]
        _ = (occurrences k name text).take ((occurrences k name text).length - (i + 1)) := by
          rw [h.occurrences_eq, List.dropLast_eq_take, List.length_take, List.take_take]
          congr 1
          omega
    · rw [p.value_removed_of_ne hend hne, h.value_of_ne k' name' hne]

/-- The storage after a number of removals of a name. -/
def afterRemovals (k : Kind) (name : String) (i : Nat) (s : Storage) : Storage :=
  (fun s => (remove k name s).storage)^[i] s

/-- **A run of removals** leaves all but as many of the last declarations. -/
theorem exists_isLeft_afterRemovals (h : EndsLines k name text) (i : Nat) :
    ∃ contents, afterRemovals k name i (.file text) = .file contents ∧
      IsLeft k name text i contents := by
  induction i with
  | zero => exact ⟨text, rfl, isLeft_zero h⟩
  | succ i ih =>
    obtain ⟨contents, hstorage, hleft⟩ := ih
    obtain ⟨-, contents', hstorage', hleft'⟩ := remove_file hleft
    refine ⟨contents', ?_, hleft'⟩
    rw [afterRemovals, Function.iterate_succ_apply']
    change (remove k name (afterRemovals k name i (.file text))).storage = _
    rw [hstorage, hstorage']

/-- **Removals take away the declarations of a name from the last to the
first.** If each of them ends its line, the first removal leaves the value of
the last but one, and the values of all other names. As many removals as there
are declarations change the file, and none after them does. -/
theorem remove_run (hne : occurrences k name text ≠ [])
    (hends : ∀ d ∈ occurrences k name text, AtLineEnd (text.drop d.span.stop)) :
    (remove k name (.file text)).result = .ok true ∧
      (∃ contents, (remove k name (.file text)).storage = .file contents ∧
        (∀ k' name', (k', name') ≠ (k, name) →
          ((Catalog.scan contents).get? k' name').map (·.value) =
            ((Catalog.scan text).get? k' name').map (·.value)) ∧
        ((Catalog.scan contents).get? k name).map (·.value) =
          (occurrences k name text).dropLast.getLast?.map (·.value)) ∧
      ∀ i, (remove k name (afterRemovals k name i (.file text))).result =
          .ok (decide (i < (occurrences k name text).length)) ∧
        ((occurrences k name text).length ≤ i →
          (remove k name (afterRemovals k name i (.file text))).storage =
            afterRemovals k name i (.file text)) := by
  have hpos : 0 < (occurrences k name text).length := List.length_pos_iff.2 hne
  obtain ⟨hresult, contents, hstorage, hleft⟩ := remove_file (isLeft_zero hends)
  refine ⟨by rw [hresult, decide_eq_true hpos], ⟨contents, hstorage, hleft.value_of_ne, ?_⟩,
    fun i => ?_⟩
  · rw [← getLast?_occurrences, hleft.occurrences_eq, List.dropLast_eq_take, Nat.zero_add]
  · obtain ⟨contents, hstorage, hleft⟩ := exists_isLeft_afterRemovals hends i
    rw [hstorage]
    refine ⟨(remove_file hleft).1, fun hi => (remove_file_of_eq_nil ?_).2⟩
    rw [hleft.occurrences_eq, Nat.sub_eq_zero_of_le hi, List.take_zero]

/-- Two of three lines declare a name, and each ends in a way of its own. -/
theorem remove_run_two :
    (occurrences .var "a" (encode "$a = 1;\r\n$b = 2;\n$a = 3;")).length = 2 ∧
      (∀ d ∈ occurrences .var "a" (encode "$a = 1;\r\n$b = 2;\n$a = 3;"),
        AtLineEnd ((encode "$a = 1;\r\n$b = 2;\n$a = 3;").drop d.span.stop)) ∧
      ∀ i, (remove .var "a" (afterRemovals .var "a" i
        (.file (encode "$a = 1;\r\n$b = 2;\n$a = 3;")))).result = .ok (decide (i < 2)) := by
  have hlength : (occurrences .var "a" (encode "$a = 1;\r\n$b = 2;\n$a = 3;")).length = 2 := by
    decide +kernel
  have hends : ∀ d ∈ occurrences .var "a" (encode "$a = 1;\r\n$b = 2;\n$a = 3;"),
      AtLineEnd ((encode "$a = 1;\r\n$b = 2;\n$a = 3;").drop d.span.stop) := by
    decide +kernel
  have hne : occurrences .var "a" (encode "$a = 1;\r\n$b = 2;\n$a = 3;") ≠ [] :=
    List.ne_nil_of_length_pos (by omega)
  obtain ⟨-, -, hrun⟩ := remove_run hne hends
  exact ⟨hlength, hends, fun i => hlength ▸ (hrun i).1⟩

end Editor

end SiteConfig
