import SiteConfig.Proofs.Marks
import SiteConfig.Proofs.Repetition
/-!
# Where an addition goes

An addition puts its declaration at the end of the line on which the anchor
first occurs, in front of the anchor, and then breaks that line off
(`exists_lines_insert`). Where only blanks stand in front of the anchor, the
declaration is read back and all other names stay as they are
(`lastValue?_insert_self` and `lastValue?_insert_of_ne`).

The anchor is found wherever it stands, but a declaration must start its line.
So whether an addition declares its name depends on what is in front of the
anchor, and an addition that does not is made again each time
(`Editor.declares_add_iff`).
-/

namespace SiteConfig

open Bytes Line Declaration

namespace Bytes

/-- **The lines about an insertion**, before it and after. -/
theorem exists_lines_insert (pre post : Bytes) : ∃ before m after,
    lines pre = before ++ [lastLine pre] ∧ lines post = m :: after ∧
      lines (pre ++ post) = before ++ (lastLine pre ++ m) :: after ∧
      ∀ d, lineFeed ∉ d → lines (pre ++ (d ++ [lineFeed, lineFeed]) ++ post) =
        before ++ (lastLine pre ++ d) :: [] :: m :: after := by
  obtain ⟨before, hbefore⟩ := exists_lines_eq_concat pre
  obtain ⟨m, after, hm⟩ := List.exists_cons_of_ne_nil (lines_ne_nil post)
  refine ⟨before, m, after, hbefore, hm, lines_append_eq hbefore hm, fun d hd => ?_⟩
  have hassoc : pre ++ (d ++ [lineFeed, lineFeed]) ++ post =
      (pre ++ d) ++ lineFeed :: (lineFeed :: post) := by simp
  rw [hassoc, lines_append, lines_append_eq hbefore (lines_eq_singleton hd), lines_lineFeed_cons,
    hm, List.append_assoc, List.singleton_append]

end Bytes

/-! ## Behind blanks -/

namespace Line

variable {k : Kind} {text blanks : Bytes}

theorem head?_blanks_append (h : AllBlank blanks) : head? k (blanks ++ text) = head? k text := by
  cases k <;> simp only [head?, skipBlanks_append h]

end Line

namespace Declaration

variable {k k' : Kind} {name name' value : String} {before after : List Bytes} {l m d : Bytes}

/-- Blanks in front of a line do not matter to what it declares. -/
theorem lastValue?_blanks_append (h : AllBlank l) :
    lastValue? k name [l ++ m] = lastValue? k name [m] := by
  rw [lastValue?_singleton, lastValue?_singleton, head?_blanks_append h]

/-- The canonical form of a value to read back declares it. -/
theorem lastValue?_canonical (hn : Text.IsName name) (hv : Text.ReadsBack k value.toList) :
    lastValue? k name [encode (canonical k name value)] = some value := by
  obtain ⟨p, -, -, hvalue, -⟩ := exists_place_canonical hn hv
  have hline := lines_eq_singleton (lineFeed_not_mem_canonical (k := k) hn hv.oneLine)
  rw [← hline, ← map_value_get?_scan, p.get?_scan, Option.map_some, Option.some.injEq]
  exact (congrArg decode hvalue).trans (decode_encode value)

/-- A name is looked up on the lines about an insertion from the last to the
first. -/
theorem lastValue?_insert (l d m : Bytes) :
    lastValue? k name (before ++ (l ++ d) :: [] :: m :: after) =
      (lastValue? k name after).or ((lastValue? k name [m]).or
        ((lastValue? k name [l ++ d]).or (lastValue? k name before))) := by
  rw [lastValue?_append, lastValue?_cons, lastValue?_cons (b := m :: after),
    lastValue?_cons (b := after), lastValue?_singleton_nil, Option.or_none, Option.or_assoc,
    Option.or_assoc]

theorem lastValue?_uninserted (l m : Bytes) :
    lastValue? k name (before ++ (l ++ m) :: after) =
      (lastValue? k name after).or
        ((lastValue? k name [l ++ m]).or (lastValue? k name before)) := by
  rw [lastValue?_append, lastValue?_cons, Option.or_assoc]

/-- **An insertion behind blanks leaves another name as it is.** -/
theorem lastValue?_insert_of_ne (hl : AllBlank l) (hn : Text.IsName name)
    (hne : (k', name') ≠ (k, name)) :
    lastValue? k' name' (before ++ (l ++ encode (canonical k name value)) :: [] :: m :: after) =
      lastValue? k' name' (before ++ (l ++ m) :: after) := by
  have hline : lastValue? k' name' [l ++ encode (canonical k name value)] = none := by
    rw [lastValue?_blanks_append hl, encode_canonical]
    exact Place.lastValue?_line_of_ne hne _ (isHead_canonicalHead hn)
  rw [lastValue?_insert, lastValue?_uninserted, hline, Option.none_or, lastValue?_blanks_append hl]

/-- What the inserted line declares is declared. -/
theorem isSome_lastValue?_insert (h : (lastValue? k name [l ++ d]).isSome) :
    (lastValue? k name (before ++ (l ++ d) :: [] :: m :: after)).isSome := by
  rw [lastValue?_insert]
  simp [Option.isSome_or, h]

/-- A name that is not declared is declared by an insertion if the inserted line
declares it, or the line that is broken off. -/
theorem lastValue?_insert_of_eq_none (hnew : lastValue? k name (before ++ (l ++ m) :: after) = none)
    (hm : lastValue? k name [m] = none) :
    lastValue? k name (before ++ (l ++ d) :: [] :: m :: after) = lastValue? k name [l ++ d] := by
  rw [lastValue?_uninserted, Option.or_eq_none_iff, Option.or_eq_none_iff] at hnew
  rw [lastValue?_insert, hnew.1, hnew.2.2, hm, Option.none_or, Option.none_or, Option.or_none]

/-- **An insertion behind blanks is read back.** -/
theorem lastValue?_insert_self (hl : AllBlank l) (hn : Text.IsName name)
    (hv : Text.ReadsBack k value.toList)
    (hnew : lastValue? k name (before ++ (l ++ m) :: after) = none) :
    lastValue? k name (before ++ (l ++ encode (canonical k name value)) :: [] :: m :: after) =
      some value := by
  have hm : lastValue? k name [m] = none := by
    rw [lastValue?_uninserted, Option.or_eq_none_iff, Option.or_eq_none_iff,
      lastValue?_blanks_append hl] at hnew
    exact hnew.2.1
  rw [lastValue?_insert_of_eq_none hnew hm, lastValue?_blanks_append hl, lastValue?_canonical hn hv]

/-- A name is found on the lines of a text. -/
theorem isSome_get?_scan_iff {text : Bytes} :
    ((Catalog.scan text).get? k name).isSome ↔ (lastValue? k name (lines text)).isSome := by
  rw [← map_value_get?_scan, Option.isSome_map]

theorem get?_scan_eq_none_iff {text : Bytes} :
    (Catalog.scan text).get? k name = none ↔ lastValue? k name (lines text) = none := by
  rw [← map_value_get?_scan, Option.map_eq_none_iff]

end Declaration

/-! ## Additions in front of an anchor -/

/-- A text to search for that lies on one line and starts no declaration. -/
structure IsAnchor (needle : Bytes) : Prop where
  ne_nil : needle ≠ []
  lineFeed_not_mem : lineFeed ∉ needle
  skipBlanks_eq : skipBlanks needle = needle
  head?_eq_none : ∀ k rest, head? k (needle ++ rest) = none

theorem isAnchor_default : IsAnchor (encode Settings.default.anchor) where
  ne_nil := by decide
  lineFeed_not_mem := by decide
  skipBlanks_eq := by decide
  head?_eq_none k rest := by cases k <;> rfl

/-- A line that starts with such a text declares nothing. -/
theorem IsAnchor.lastValue?_eq_none {needle m : Bytes} {k : Kind} {name : String}
    (h : IsAnchor needle) (hm : needle <+: m) : lastValue? k name [m] = none := by
  obtain ⟨rest, rfl⟩ := hm
  rw [lastValue?_singleton, h.head?_eq_none]
  rfl

/-- The options to add in front of a given anchor, which are the default ones for
the default anchor. -/
def AddOptions.inFrontOf (anchor : String) : AddOptions :=
  { AddOptions.ofSettings .default with anchor }

namespace Editor

variable {k : Kind} {name anchor : String} {text : Bytes} {v : Value} {p : Nat}

/-- **An addition of a name that is not declared** inserts it where the anchor
is found. -/
theorem addTo_file (v : Value) (o : AddOptions)
    (h : (Catalog.scan text).get? k name = none) (hp : indexOf? (encode o.anchor) text = some p) :
    (addTo ⟨text⟩ (Catalog.scan text) k name v o (.file text)).result = .ok true ∧
      (addTo ⟨text⟩ (Catalog.scan text) k name v o (.file text)).storage =
        .file (inserted text (encode (canonical k name (v.render o.raw))) p o) := by
  have hne := result_addTo_ne v o h
  simp only [addTo, h, hp, Option.isSome_none, Bool.false_eq_true, if_false,
    Outcome.result_announce, Outcome.storage_announce, Snapshot.result_save,
    Snapshot.storage_save] at hne ⊢
  simpa using hne

theorem add_file_eq (v : Value) (o : AddOptions) : add k name v o (.file text) =
    (addTo ⟨text⟩ (Catalog.scan text) k name v o (.file text)).after
      (.scanned (Catalog.scan text).size) := rfl

/-- A declaration goes in front of the anchor, and an empty line between the two. -/
theorem inserted_inFrontOf (d : Bytes) : inserted text d p (.inFrontOf anchor) =
    text.take p ++ (d ++ [lineFeed, lineFeed]) ++ text.drop p := by
  change text.splice p p (d ++ encode "\n\n") = _
  rfl

theorem add_file (v : Value) (h : (Catalog.scan text).get? k name = none)
    (hp : indexOf? (encode anchor) text = some p) :
    (add k name v (.inFrontOf anchor) (.file text)).result = .ok true ∧
      (add k name v (.inFrontOf anchor) (.file text)).storage =
        .file (text.take p ++
          (encode (canonical k name (v.render false)) ++ [lineFeed, lineFeed]) ++ text.drop p) := by
  obtain ⟨hresult, hstorage⟩ := addTo_file v (.inFrontOf anchor) h hp
  rw [inserted_inFrontOf] at hstorage
  exact ⟨hresult, hstorage⟩

/-- An addition of a name that is declared leaves the file as it is. -/
theorem add_file_of_isSome (v : Value) (o : AddOptions)
    (h : ((Catalog.scan text).get? k name).isSome) :
    (add k name v o (.file text)).result = .ok false ∧
      (add k name v o (.file text)).storage = .file text := by
  rw [add_file_eq, addTo, if_pos h]
  exact ⟨rfl, rfl⟩

/-- An addition at an anchor that does not occur fails, and leaves the file as it
is. -/
theorem add_file_of_indexOf?_eq_none (v : Value) (o : AddOptions)
    (h : (Catalog.scan text).get? k name = none) (hp : indexOf? (encode o.anchor) text = none) :
    (add k name v o (.file text)).result = .error (.anchorNotFound o.anchor) ∧
      (add k name v o (.file text)).storage = .file text := by
  simp only [add_file_eq, addTo, h, hp, Option.isSome_none, Bool.false_eq_true, if_false]
  exact ⟨rfl, rfl⟩

/-- A file declares what a scan of it finds. -/
theorem declares_file_iff :
    (declares k name (.file text)).result = .ok true ↔
      ((Catalog.scan text).get? k name).isSome := by
  have hfind : (declares k name (.file text)).result =
      (find ⟨text⟩ (Catalog.scan text) k name).map (·.isSome) := rfl
  rw [hfind, Option.isSome_iff_exists]
  simp only [← find_eq_some_iff]
  cases find ⟨text⟩ (Catalog.scan text) k name with
  | error e => simp [Except.map]
  | ok found => cases found <;> simp [Except.map]

/-- **What an addition declares.** With the default settings, an addition of a
name that is not declared changes the file, if the value has no line break in
it. The name is declared then, and a second addition changes nothing more, if
and only if on the line of the anchor only blanks stand in front of it, or text
that starts with a head of the name. -/
theorem declares_add_iff (v : Value) (hn : Text.IsName name)
    (hnew : (Catalog.scan text).get? k name = none) (hv : ∀ s ∈ v.strings, '\n' ∉ s.toList)
    (hp : indexOf? (encode Settings.default.anchor) text = some p) :
    (add k name v (.ofSettings .default) (.file text)).result = .ok true ∧
      ∃ contents, (add k name v (.ofSettings .default) (.file text)).storage = .file contents ∧
        ((declares k name (.file contents)).result = .ok true ∧
            (add k name v (.ofSettings .default) (.file contents)).result = .ok false ∧
            (add k name v (.ofSettings .default) (.file contents)).storage = .file contents ↔
          AllBlank (lastLine (text.take p)) ∨
            ∃ rest, head? k (lastLine (text.take p)) = some (encode name, rest)) := by
  obtain ⟨hresult, hstorage⟩ := add_file v hnew hp
  refine ⟨hresult, _, hstorage, ?_⟩
  have hbreak : '\n' ∉ (v.render false).toList := by
    rw [v.toList_render, Value.inherited_lineBreak.literal_iff]
    rintro ⟨s, hs, hmem⟩
    exact hv s hs hmem
  -- the line of the anchor is broken off, and declares nothing
  obtain ⟨before, m, after, -, hm, htext, hadded⟩ := exists_lines_insert (text.take p) (text.drop p)
  rw [List.take_append_drop] at htext
  have hanchor : encode Settings.default.anchor <+: m :=
    prefix_of_lines_eq_cons isAnchor_default.lineFeed_not_mem (indexOf?_eq_some_iff.1 hp).1.2 hm
  have hnone : lastValue? k name [m] = none := isAnchor_default.lastValue?_eq_none hanchor
  rw [get?_scan_eq_none_iff, htext] at hnew
  have hdeclared := isSome_lastValue?_append_canonical_iff (k := k) (x := lastLine (text.take p)) hn
    (v.render false)
  rw [← lastValue?_insert_of_eq_none hnew hnone, ← hadded _ (lineFeed_not_mem_canonical hn hbreak),
    ← isSome_get?_scan_iff] at hdeclared
  rw [← hdeclared, declares_file_iff]
  exact ⟨And.left, fun h => ⟨h, add_file_of_isSome v _ h⟩⟩

/-- An indented anchor has only blanks in front of it. -/
theorem declares_add_indented :
    (Catalog.scan (encode "<?php\n\t/* That's all, stop editing! */")).get? .const "A" = none ∧
      indexOf? (encode Settings.default.anchor)
        (encode "<?php\n\t/* That's all, stop editing! */") = some 7 ∧
      ∃ contents, (add .const "A" (.bool true) (.ofSettings .default)
          (.file (encode "<?php\n\t/* That's all, stop editing! */"))).storage = .file contents ∧
        (declares .const "A" (.file contents)).result = .ok true ∧
        (add .const "A" (.bool true) (.ofSettings .default) (.file contents)).result =
          .ok false := by
  have hnew : (Catalog.scan (encode "<?php\n\t/* That's all, stop editing! */")).get? .const "A" =
      none := by decide +kernel
  have hp : indexOf? (encode Settings.default.anchor)
      (encode "<?php\n\t/* That's all, stop editing! */") = some 7 := by decide +kernel
  have hblank : lastLine ((encode "<?php\n\t/* That's all, stop editing! */").take 7) =
      [ascii '\t'] := by decide +kernel
  obtain ⟨-, contents, hstorage, hiff⟩ := declares_add_iff (.bool true)
    ⟨by decide, by simp⟩ hnew (by simp [Value.strings]) hp
  obtain ⟨hdeclared, hagain, -⟩ := hiff.2 (.inl (by rw [hblank]; simp [isBlank]))
  exact ⟨hnew, hp, contents, hstorage, hdeclared, hagain⟩

/-- Not every addition declares its name. Behind the opening tag of the file its
declaration is none, and a second addition makes it again. -/
theorem not_forall_declares_add : ¬ ∀ (k : Kind) (name : String) (b : Bool)
    (text contents : Bytes), Text.IsName name → (Catalog.scan text).get? k name = none →
    encode Settings.default.anchor <:+: text →
    (add k name (.bool b) (.ofSettings .default) (.file text)).result = .ok true →
    (add k name (.bool b) (.ofSettings .default) (.file text)).storage = .file contents →
    (declares k name (.file contents)).result = .ok true ∧
      (add k name (.bool b) (.ofSettings .default) (.file contents)).result = .ok false ∧
      (add k name (.bool b) (.ofSettings .default) (.file contents)).storage =
        .file contents := by
  intro h
  have hdeclared := (h .const "A" true (encode "<?php /* That's all, stop editing! */")
    (encode "<?php define( 'A', true );\n\n/* That's all, stop editing! */")
    ⟨by decide, by simp⟩ (by decide +kernel)
    ⟨encode "<?php ", encode " */", by decide +kernel⟩ (by decide +kernel)
    (by decide +kernel)).1
  revert hdeclared
  decide +kernel

end Editor

end SiteConfig
