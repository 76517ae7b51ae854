import SiteConfig.Proofs.Containment
import SiteConfig.Proofs.Order
/-!
# What an update keeps

An update of a declared name writes a line that starts with a head of the
name and has a terminator after it, whatever value stands between the two.
So the line still declares the name, and no other, and the names of the
whole text are the same in the same order (`Place.names_rewritten`). If the
value has no line break, no other value changes either
(`Editor.scan_update`).
-/

namespace SiteConfig

open Bytes Line Declaration

namespace Line

variable {k k' : Kind} {name text head : Bytes}

/-- A terminator is not lost with the blanks in front of a text. -/
theorem hasTerminator_skipBlanks (h : HasTerminator k text) :
    HasTerminator k (skipBlanks text) := by
  obtain ⟨t, ht, a, b, rfl⟩ := h
  -- the blanks end before the terminator, or within the blanks that it starts with
  by_cases ha : AllBlank a
  · rw [List.append_assoc, skipBlanks_append ha, skipBlanks_append_of_not_allBlank ht.not_allBlank]
    exact ⟨_, ht.skipBlanks, (List.prefix_append _ b).isInfix⟩
  · rw [List.append_assoc, skipBlanks_append_of_not_allBlank ha]
    exact ⟨t, ht, skipBlanks a, b, List.append_assoc ..⟩

/-- **A head declares its name** if a terminator comes somewhere after it. -/
theorem exists_parts?_head (h : IsHead k name head) (ht : HasTerminator k text) :
    ∃ p, parts? k (head ++ text) = some p ∧ p.name = name := by
  obtain ⟨t, ht, a, b, he⟩ := hasTerminator_skipBlanks ht
  obtain ⟨v, r, hv⟩ := exists_value?_append ht a b
  rw [← List.append_assoc, he] at hv
  refine ⟨⟨name, v, (head ++ text).length - (skipBlanks text).length,
    (head ++ text).length - r.length⟩, ?_, rfl⟩
  simp only [parts?, head?_append h, Option.bind_eq_bind, Option.bind_some, hv]
  rfl

end Line

namespace Declaration

variable {k : Kind} {name : String} {head text : Bytes}

/-- It declares no other name, and no name of another kind. -/
theorem nameOnLine?_head (h : IsHead k (encode name) head) (ht : HasTerminator k text)
    (k' : Kind) : nameOnLine? k' (head ++ text) = if k' = k then some name else none := by
  by_cases hk : k' = k
  · subst hk
    obtain ⟨p, hp, hname⟩ := exists_parts?_head h ht
    rw [nameOnLine?, hp, Option.map_some, hname, decode_encode, if_pos rfl]
  · rw [nameOnLine?, parts?, head?_append_of_ne h hk, if_neg hk]
    rfl

end Declaration

namespace Place

variable {k : Kind} {name : String} {text : Bytes} {normalize : Bool} {x : Bytes}
variable (p : Place k name text)

theorem nameOnLine?_line (k' : Kind) :
    nameOnLine? k' p.line = if k' = k then some name else none :=
  nameOnLine?_head p.isHead ⟨p.tail, p.isTerminator, p.value, p.rest, List.append_assoc ..⟩ k'

/-- The rewritten line declares what the line did. -/
theorem nameOnLine?_newLine (normalize : Bool) (x : Bytes) (k' : Kind) :
    nameOnLine? k' (p.newLine normalize x) = nameOnLine? k' p.line := by
  rw [nameOnLine?_line]
  exact nameOnLine?_head (p.isHead_newHead normalize)
    ⟨_, p.isTerminator_newTail normalize, x, p.rest, List.append_assoc ..⟩ k'

/-- **The names stay as they are**, and so does their order. -/
theorem names_rewritten (hx : lineFeed ∉ x) (k' : Kind) :
    (Catalog.scan (p.rewritten normalize x)).names k' = (Catalog.scan text).names k' := by
  rw [Catalog.names_scan, Catalog.names_scan, p.lines_rewritten_of_not_mem hx, p.lines_eq,
    List.filterMap_append, List.filterMap_append, List.filterMap_cons, List.filterMap_cons,
    nameOnLine?_newLine, line]

theorem kinds_rewritten (hx : lineFeed ∉ x) :
    (Catalog.scan (p.rewritten normalize x)).kinds = (Catalog.scan text).kinds := by
  rw [Catalog.kinds_eq, Catalog.kinds_eq, Catalog.keys_scan_eq_names, Catalog.keys_scan_eq_names,
    p.names_rewritten hx, p.names_rewritten hx]

/-- The name is still declared: its line is still there. -/
theorem isSome_get?_rewritten (hx : lineFeed ∉ x) :
    ((Catalog.scan (p.rewritten normalize x)).get? k name).isSome := by
  have hline := p.nameOnLine?_newLine normalize x k
  rw [p.nameOnLine?_line, if_pos rfl] at hline
  have hmem : name ∈ (Catalog.scan (p.rewritten normalize x)).names k := by
    rw [Catalog.names_scan, List.mem_eraseDups, p.lines_rewritten_of_not_mem hx, List.mem_filterMap]
    exact ⟨_, List.mem_append_right _ List.mem_cons_self, hline⟩
  exact Catalog.isSome_get?_iff.2 hmem

/-! ## Two places -/

section

variable {k₁ k₂ : Kind} {n₁ n₂ : String}

/-- The lines between two declarations. -/
theorem exists_lines_between (p : Place k₁ n₁ text) (q : Place k₂ n₂ text)
    (hlt : p.before.length < q.before.length) :
    ∃ mid, q.before = p.before ++ p.line :: mid ∧ p.after = mid ++ q.line :: q.after := by
  have hlines : p.before ++ p.line :: p.after = q.before ++ q.line :: q.after :=
    p.lines_eq.symm.trans q.lines_eq
  rcases List.append_eq_append_iff.1 hlines with ⟨mid, hq, hp⟩ | ⟨mid, hp, -⟩
  · cases mid with
    | nil =>
      rw [hq, List.append_nil] at hlt
      exact absurd hlt (Nat.lt_irrefl _)
    | cons line mid =>
      obtain ⟨rfl, hafter⟩ := List.cons.inj hp
      exact ⟨mid, hq, hafter⟩
  · have hlength := congrArg List.length hp
    rw [List.length_append] at hlength
    omega

/-- One line does not declare two names. -/
theorem length_before_ne (p : Place k₁ n₁ text) (q : Place k₂ n₂ text)
    (hne : (k₁, n₁) ≠ (k₂, n₂)) : p.before.length ≠ q.before.length := by
  intro hlength
  have hlines : p.before ++ p.line :: p.after = q.before ++ q.line :: q.after :=
    p.lines_eq.symm.trans q.lines_eq
  obtain ⟨-, hline⟩ := List.append_inj hlines hlength
  have hnames := p.nameOnLine?_line k₂
  rw [(List.cons.inj hline).1, q.nameOnLine?_line, if_pos rfl] at hnames
  split at hnames
  · next hk => exact hne (by rw [hk, Option.some.inj hnames])
  · cases hnames

end

end Place

namespace Editor

variable {k : Kind} {name : String} {text : Bytes} {o : UpdateOptions}

/-- **What an update keeps.** If its value is written without a line break,
whether as a literal or as it is, an update of a declared name does not
fail. The name is still declared, the kinds and the names are the same in
the same order, and all other names have the values that they had. -/
theorem scan_update (e : Editor) (v : Value) (h : ((Catalog.scan text).get? k name).isSome)
    (hv : '\n' ∉ (v.render o.raw).toList) :
    ∃ changed contents, (e.update k name v o (.file text)).result = .ok changed ∧
      (e.update k name v o (.file text)).storage = .file contents ∧
      ((Catalog.scan contents).get? k name).isSome ∧
      (Catalog.scan contents).kinds = (Catalog.scan text).kinds ∧
      (∀ k', (Catalog.scan contents).names k' = (Catalog.scan text).names k') ∧
      ∀ k' name', (k', name') ≠ (k, name) →
        ((Catalog.scan contents).get? k' name').map (·.value) =
          ((Catalog.scan text).get? k' name').map (·.value) := by
  obtain ⟨d, hd⟩ := Option.isSome_iff_exists.1 h
  obtain ⟨p, -⟩ := Place.exists_of_get? hd
  obtain ⟨hstorage, hresult⟩ := p.update_file e v o
  have hx : lineFeed ∉ encode (v.render o.raw) := lineFeed_not_mem_encode_iff.2 hv
  refine ⟨_, _, hresult, hstorage, p.isSome_get?_rewritten hx, p.kinds_rewritten hx,
    p.names_rewritten hx, fun k' name' hne => ?_⟩
  rw [map_value_get?_scan, map_value_get?_scan]
  exact p.lastValue?_rewritten_of_not_mem hne hx

/-- An expression that ends the declaration early and looks like another one
declares nothing else. -/
theorem scan_update_expression :
    ((Catalog.scan (encode "$a = 1;\n$a = 2; $b = 3;\n$b = 4;")).get? .var "a").isSome ∧
      '\n' ∉ ((Value.string "x; $c = 5").render true).toList ∧
      ∃ contents, (update ⟨.default⟩ .var "a" (.string "x; $c = 5") { raw := true }
          (.file (encode "$a = 1;\n$a = 2; $b = 3;\n$b = 4;"))).storage = .file contents ∧
        (Catalog.scan contents).names .var =
          (Catalog.scan (encode "$a = 1;\n$a = 2; $b = 3;\n$b = 4;")).names .var ∧
        ((Catalog.scan contents).get? .var "b").map (·.value) =
          ((Catalog.scan (encode "$a = 1;\n$a = 2; $b = 3;\n$b = 4;")).get? .var "b").map
            (·.value) := by
  have h : ((Catalog.scan (encode "$a = 1;\n$a = 2; $b = 3;\n$b = 4;")).get? .var "a").isSome := by
    decide +kernel
  have hv : '\n' ∉ ((Value.string "x; $c = 5").render true).toList := by decide
  obtain ⟨-, contents, -, hstorage, -, -, hnames, hother⟩ :=
    scan_update (o := { raw := true }) ⟨.default⟩ (.string "x; $c = 5") h hv
  exact ⟨h, hv, contents, hstorage, hnames .var, hother .var "b" (by decide)⟩

end Editor

end SiteConfig
