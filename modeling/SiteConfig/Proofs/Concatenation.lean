import SiteConfig.Proofs.Order
/-!
# The scan of two texts

A pass over a text does not stop at its line feeds. But no match takes one
(`Pattern.matchAt_append`), and after a match the next line is searched as if
there had been none (`Pattern.find?_of_matchAt`), so that the declarations of a
text are those of its lines (`Declaration.allOf_eq_lines`).

So the scan of two texts with a line feed between them is made up of the scans
of both: what the second declares counts, moved to where it stands now, and what
only the first declares stays as it is (`scan_append`). A name keeps the place
in the order that it has in the first text, and the names that only the second
declares come after.
-/

namespace SiteConfig

open Bytes

/-- A span counted from a place further in front. -/
def Span.shift (n : Nat) (s : Span) : Span := ⟨s.start + n, s.stop + n⟩

namespace Declaration

variable {k : Kind} {name : String} {n offset : Nat} {line : Bytes}

/-- A declaration in a text with `n` more bytes in front. -/
def shift (n : Nat) (d : Declaration) : Declaration :=
  { d with span := d.span.shift n, valueSpan := d.valueSpan.shift n }

/-! ## Lines further on -/

/-- A line further on declares the same, further on. -/
theorem ofLine?_add : ofLine? k (offset + n) line = (ofLine? k offset line).map (shift n) := by
  rw [ofLine?, ofLine?, Option.map_map]
  congr 1
  funext p
  simp only [Function.comp_apply, shift, Span.shift, Nat.add_right_comm _ n]

theorem located_add (lines : List Bytes) :
    located (offset + n) lines = (located offset lines).map fun l => (l.1 + n, l.2) := by
  induction lines generalizing offset with
  | nil => rfl
  | cons line lines ih =>
    have hswap : offset + n + line.length + 1 = offset + line.length + 1 + n := by omega
    rw [located, located, hswap, ih, List.map_cons]

/-- Lines further on declare the same, further on. -/
theorem filterMap_located_add (lines : List Bytes) :
    ((located (offset + n) lines).filterMap fun (o, line) => ofLine? k o line) =
      ((located offset lines).filterMap fun (o, line) => ofLine? k o line).map (shift n) := by
  rw [located_add, List.filterMap_map, List.map_filterMap]
  congr 1
  funext l
  exact ofLine?_add

theorem last?_add (lines : List Bytes) :
    last? k name (offset + n) lines = (last? k name offset lines).map (shift n) := by
  rw [last?, last?, filterMap_located_add, ← List.map_reverse, List.find?_map]
  rfl

/-- **Two texts with a line feed between them** declare what both do. -/
theorem allOf_append (a b : Bytes) :
    allOf k (a ++ lineFeed :: b) = allOf k a ++ (allOf k b).map (shift (a.length + 1)) := by
  rw [allOf_eq_lines, located_lines_append, List.filterMap_append, Nat.add_assoc,
    filterMap_located_add, ← allOf_eq_lines, ← allOf_eq_lines]

end Declaration

namespace Catalog

open Declaration

variable {k : Kind} {name : String}

/-! ## Lookup -/

/-- What is found on lookup is what is held. -/
theorem declaration?_lookup (c : Catalog) (k : Kind) (name : String) :
    (c.lookup k name).declaration? = c.get? k name := by
  refine Option.ext fun d => ?_
  rw [← lookup_eq_found_iff]
  cases c.lookup k name <;> simp [Lookup.declaration?]

/-- **A declaration of the second text counts**, and one of the first where
the second has none. -/
theorem get?_scan_append (a b : Bytes) (k : Kind) (name : String) :
    (scan (a ++ lineFeed :: b)).get? k name =
      (((scan b).get? k name).map (shift (a.length + 1))).or ((scan a).get? k name) := by
  rw [get?_scan, get?_scan, get?_scan, lines_append, last?_append, extent_lines, last?_add]

/-! ## Order -/

/-- **The second text adds the names** that the first does not have. -/
theorem names_scan_append (a b : Bytes) (k : Kind) :
    (scan (a ++ lineFeed :: b)).names k =
      (scan a).names k ++ ((scan b).names k).filter (· ∉ (scan a).names k) := by
  rw [names_scan, names_scan, names_scan, lines_append, List.filterMap_append,
    eraseDups_append_eq_filter]

/-- **A scan is made up of the scans of two texts** that a line feed parts.
Look-ups go to the second and then to the first, names come in the order of
the first and then of the second, and all constants before all variables. -/
theorem scan_append (a b : Bytes) :
    (∀ k name, ((scan (a ++ lineFeed :: b)).lookup k name).declaration? =
      (((scan b).lookup k name).declaration?.map (shift (a.length + 1))).or
        ((scan a).lookup k name).declaration?) ∧
    (∀ k, (scan (a ++ lineFeed :: b)).names k =
      (scan a).names k ++ ((scan b).names k).filter (· ∉ (scan a).names k)) ∧
    (scan (a ++ lineFeed :: b)).toList =
      ((scan (a ++ lineFeed :: b)).ofKind? .const).getD [] ++
        ((scan (a ++ lineFeed :: b)).ofKind? .var).getD [] := by
  refine ⟨fun k name => ?_, names_scan_append a b, toList_scan _⟩
  simp only [declaration?_lookup]
  exact get?_scan_append a b k name

end Catalog

end SiteConfig
