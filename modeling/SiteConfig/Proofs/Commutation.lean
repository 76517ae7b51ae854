import SiteConfig.Proofs.Frame
/-!
# Edits in either order

An update of a declared name, or its removal, puts other lines in place of
the line of the declaration and keeps the rest of the text (`Edit.apply_file`).
What it puts there depends on that line alone, and on whether it is the last
one. No line of it declares another name, so the declaration of another name
keeps its place (`Place.move`). Hence two edits of different names have the
same results and leave the same bytes in either order (`Edit.inTurn_comm`).

A declaration must have nothing but the end of its line after it to be
removed in this way. Otherwise what is left of its line may become a
declaration.
-/

namespace SiteConfig

open Bytes Line Declaration
open Place (exists_lines_between length_before_ne)

namespace Bytes

/-- Lines joined are the lines of what they make up. -/
theorem lines_intercalate {ls : List Bytes} (hne : ls ≠ []) (h : ∀ line ∈ ls, lineFeed ∉ line) :
    lines ([lineFeed].intercalate ls) = ls := by
  obtain ⟨line, rest, rfl⟩ := List.exists_cons_of_ne_nil hne
  rw [List.forall_mem_cons] at h
  rw [← List.nil_append (line :: rest), intercalate_eq_between,
    lines_between (List.forall_mem_nil _) h.2, lines_eq_singleton h.1]
  rfl

@[simp] theorem lineBreakLength_lineFeed_cons (text : Bytes) :
    lineBreakLength (lineFeed :: text) = 1 := by
  cases text <;> simp [lineBreakLength]

@[simp] theorem lineBreakLength_carriageReturn_cons (text : Bytes) :
    lineBreakLength (carriageReturn :: lineFeed :: text) = 2 := by
  simp [lineBreakLength, carriageReturn, lineFeed, ascii]

/-- Whether nothing but a line break or the end of the text comes next. -/
def AtLineEnd (text : Bytes) : Prop :=
  text = [] ∨ [lineFeed] <+: text ∨ [carriageReturn, lineFeed] <+: text

instance (text : Bytes) : Decidable (AtLineEnd text) :=
  inferInstanceAs (Decidable (_ ∨ _ ∨ _))

end Bytes

/-! ## Places in a changed text -/

namespace Place

variable {k : Kind} {name : String} {text text' : Bytes} {before after : List Bytes}
variable (p : Place k name text)

/-- The place of the same declaration in another text that has its line, and
does not declare the name later on. -/
def move (hlines : lines text' = before ++ p.line :: after)
    (hafter : lastValue? k name after = none) : Place k name text' :=
  { p with before, after, lines_eq := hlines, lastValue?_after := hafter }

/-- Where a declaration ends its line, at most a carriage return comes after it,
and then the line is not the last. -/
theorem rest_of_atLineEnd (h : AtLineEnd (text.drop p.declaration.span.stop)) :
    p.rest = [] ∨ p.rest = [carriageReturn] ∧ p.after ≠ [] := by
  have hrest := p.lineFeed_not_mem_rest
  have hdrop : text.drop p.declaration.span.stop = p.rest ++ p.after.flatMap (lineFeed :: ·) :=
    p.drop_declaration
  rw [hdrop] at h
  match hr : p.rest with
  | [] => exact .inl rfl
  | [b] =>
    rw [hr, List.mem_singleton] at hrest
    simp only [AtLineEnd, hr, List.singleton_append, List.cons_prefix_cons, reduceCtorEq, hrest,
      false_and, false_or] at h
    refine .inr ⟨by rw [h.1], fun hafter => ?_⟩
    simp [hafter] at h
  | b :: c :: rest =>
    rw [hr, List.mem_cons, List.mem_cons, not_or, not_or] at hrest
    simp [AtLineEnd, hr, List.cons_prefix_cons, hrest.1, hrest.2.1] at h

end Place

/-! ## Edits -/

/-- An edit of a declaration. -/
inductive Edit where
  | update (v : Value) (o : UpdateOptions)
  | remove

namespace Edit

/-- Does an edit of a name. -/
def apply (e : Editor) (k : Kind) (name : String) : Edit → Storage → Outcome Bool
  | .update v o => e.update k name v o
  | .remove => Editor.remove k name

/-- Whether an edit of a declaration stays within its line: a new value has no
line break, and what is removed has nothing but the end of its line after it. -/
def Fits (text : Bytes) (d : Declaration) : Edit → Prop
  | .update v o => '\n' ∉ (v.render o.raw).toList
  | .remove => AtLineEnd (text.drop d.span.stop)

variable {k k' : Kind} {name name' : String} {text text' : Bytes}

/-- The lines that an edit puts in place of that of a declaration. A line that
is removed leaves an empty one if it was the last. -/
def newLines (p : Place k name text) : Edit → List Bytes
  | .update v o => [p.newLine o.normalize (encode (v.render o.raw))]
  | .remove => if p.after = [] then [[]] else []

/-- The text that an edit leaves. -/
def edited (p : Place k name text) (edit : Edit) : Bytes :=
  [lineFeed].intercalate (p.before ++ (edit.newLines p ++ p.after))

variable {p : Place k name text} {edit : Edit}

theorem lineFeed_not_mem_newLines (h : edit.Fits text p.declaration) :
    ∀ line ∈ edit.newLines p, lineFeed ∉ line := by
  cases edit with
  | update v o =>
    rw [newLines, List.forall_mem_singleton]
    exact p.lineFeed_not_mem_newLine (lineFeed_not_mem_encode_iff.2 h)
  | remove =>
    rw [newLines]
    split <;> simp

/-- There are lines in place of the last one. -/
theorem newLines_append_after_ne_nil : edit.newLines p ++ p.after ≠ [] := by
  cases edit with
  | update v o => simp [newLines]
  | remove =>
    rw [newLines]
    split <;> simp_all

theorem lines_edited (h : edit.Fits text p.declaration) :
    lines (edit.edited p) = p.before ++ (edit.newLines p ++ p.after) := by
  refine lines_intercalate (fun hnil => ?_) fun line hline => ?_
  · exact newLines_append_after_ne_nil (List.append_eq_nil_iff.1 hnil).2
  · rw [List.mem_append, List.mem_append] at hline
    rcases hline with hline | hline | hline
    · exact p.lineFeed_not_mem_before line hline
    · exact lineFeed_not_mem_newLines h line hline
    · exact p.lineFeed_not_mem_after line hline

/-- An edit changes the text where it puts other lines in place of the line. -/
theorem edited_eq_iff (h : edit.Fits text p.declaration) :
    edit.edited p = text ↔ edit.newLines p = [p.line] := by
  constructor
  · intro heq
    have hlines := lines_edited h
    rw [heq, p.lines_eq, ← List.singleton_append] at hlines
    exact (List.append_cancel_right (List.append_cancel_left hlines)).symm
  · intro hline
    calc edit.edited p
      _ = [lineFeed].intercalate (p.before ++ p.line :: p.after) := by
        rw [edited, hline, List.singleton_append]
      _ = [lineFeed].intercalate (lines text) := congrArg _ p.lines_eq.symm
      _ = text := intercalate_lines text

/-- The bytes that a removal leaves. -/
theorem splice_remove (h : remove.Fits text p.declaration) :
    text.splice p.declaration.span.start
        (p.declaration.span.stop + lineBreakLength (text.drop p.declaration.span.stop)) [] =
      remove.edited p := by
  have hdrop : text.drop p.declaration.span.stop = p.rest ++ p.after.flatMap (lineFeed :: ·) :=
    p.drop_declaration
  rw [splice, p.take_declaration, ← List.drop_drop, hdrop, List.append_nil, edited, newLines]
  cases hafter : p.after with
  | nil =>
    have hrest : p.rest = [] := (p.rest_of_atLineEnd h).resolve_right fun h => h.2 hafter
    simp [hrest, intercalate_eq_between, between, lineBreakLength]
  | cons line after =>
    rw [if_neg (List.cons_ne_nil _ _), List.nil_append, intercalate_eq_between, between]
    congr 1
    rcases p.rest_of_atLineEnd h with hrest | ⟨hrest, -⟩
    · simp [hrest]
    · simp [hrest]

/-- **An edit of a declared name** puts other lines in place of its line, and
reports whether they are different. -/
theorem apply_file (e : Editor) (h : edit.Fits text p.declaration) :
    (edit.apply e k name (.file text)).storage = .file (edit.edited p) ∧
      (edit.apply e k name (.file text)).result = .ok (decide (edit.newLines p ≠ [p.line])) := by
  have hchanged : decide (edit.newLines p ≠ [p.line]) = decide (edit.edited p ≠ text) :=
    decide_eq_decide.2 (not_congr (edited_eq_iff h).symm)
  rw [hchanged]
  cases edit with
  | update v o =>
    have hedited : edited p (.update v o) = p.rewritten o.normalize (encode (v.render o.raw)) := by
      rw [edited, newLines, List.singleton_append, intercalate_eq_between, Place.rewritten]
    rw [hedited]
    exact p.update_file e v o
  | remove =>
    have hremove : apply e k name .remove (.file text) =
        ((Snapshot.save ⟨text⟩ (remove.edited p) (.file text)).announce
          (.removed k name)).after (.scanned (Catalog.scan text).size) := by
      simp only [apply, Editor.remove, Editor.scanned, Snapshot.read, Storage.read, p.get?_scan,
        splice_remove h]
    rw [hremove]
    constructor <;> simp

/-! ## Edits of two names -/

/-- What a removal leaves of a line declares nothing. -/
theorem lastValue?_newLines_remove : lastValue? k' name' (remove.newLines p) = none := by
  rw [newLines]
  split <;> simp

/-- Another name is not declared by what an edit puts in the text. -/
theorem lastValue?_newLines_of_ne (hne : (k', name') ≠ (k, name)) :
    lastValue? k' name' (edit.newLines p) = none := by
  cases edit with
  | update v o => exact Place.lastValue?_line_of_ne hne _ (p.isHead_newHead _)
  | remove => exact lastValue?_newLines_remove

variable {before after : List Bytes} {hlines : lines text' = before ++ p.line :: after}
variable {hafter : lastValue? k name after = none}

/-- An edit puts the same lines elsewhere, if the line is the last in both
texts or in neither. -/
theorem newLines_move (h : after = [] ↔ p.after = []) :
    edit.newLines (p.move hlines hafter) = edit.newLines p := by
  cases edit with
  | update v o => rfl
  | remove => exact ite_congr (propext h) (fun _ => rfl) fun _ => rfl

theorem fits_move (h : after = [] ↔ p.after = []) (hfits : edit.Fits text p.declaration) :
    edit.Fits text' (p.move hlines hafter).declaration := by
  cases edit with
  | update v o => exact hfits
  | remove =>
    have hdrop : text'.drop (p.move hlines hafter).declaration.span.stop =
        p.rest ++ after.flatMap (lineFeed :: ·) := (p.move hlines hafter).drop_declaration
    change AtLineEnd _
    rw [hdrop]
    cases after with
    | nil =>
      have hrest : p.rest = [] := (p.rest_of_atLineEnd hfits).resolve_right fun hr => hr.2 (h.1 rfl)
      exact .inl (by rw [hrest]; rfl)
    | cons line after =>
      rw [List.flatMap_cons, List.cons_append]
      rcases p.rest_of_atLineEnd hfits with hrest | ⟨hrest, -⟩
      · exact .inr (.inl (by simp [hrest]))
      · exact .inr (.inr (by simp [hrest]))

/-- What two operations report one after the other, and the storage that they
leave. -/
def inTurn (first second : Storage → Outcome Bool) (s : Storage) :
    Except EditError Bool × Except EditError Bool × Storage :=
  ((first s).result, (second (first s).storage).result, (second (first s).storage).storage)

variable {k₁ k₂ : Kind} {n₁ n₂ : String} {edit₁ edit₂ : Edit}

/-- A name that some lines do not declare is not declared by them after an edit
of another name. -/
theorem lastValue?_edited {q : Place k₂ n₂ text} {mid after : List Bytes}
    (hne : (k₁, n₁) ≠ (k₂, n₂)) (h : lastValue? k₁ n₁ (mid ++ q.line :: after) = none) :
    lastValue? k₁ n₁ (mid ++ (edit₂.newLines q ++ after)) = none := by
  rw [lastValue?_append, lastValue?_cons, Option.or_eq_none_iff, Option.or_eq_none_iff] at h
  rw [lastValue?_append, lastValue?_append, lastValue?_newLines_of_ne hne, h.1.1, h.2]
  rfl

/-- Two edits of names of which one is declared before the other. -/
theorem inTurn_of_length_lt (e : Editor) (p : Place k₁ n₁ text) (q : Place k₂ n₂ text)
    (hne : (k₁, n₁) ≠ (k₂, n₂)) (hp : edit₁.Fits text p.declaration)
    (hq : edit₂.Fits text q.declaration) (hlt : p.before.length < q.before.length) :
    ∃ changed₁ changed₂ contents,
      inTurn (edit₁.apply e k₁ n₁) (edit₂.apply e k₂ n₂) (.file text) =
          (.ok changed₁, .ok changed₂, .file contents) ∧
        inTurn (edit₂.apply e k₂ n₂) (edit₁.apply e k₁ n₁) (.file text) =
          (.ok changed₂, .ok changed₁, .file contents) := by
  obtain ⟨mid, hbefore, hafter⟩ := exists_lines_between p q hlt
  have hpnone : lastValue? k₁ n₁ (mid ++ (edit₂.newLines q ++ q.after)) = none :=
    lastValue?_edited hne (hafter ▸ p.lastValue?_after)
  -- neither edit makes the other line the last one, or undoes that it is
  have hplast : mid ++ (edit₂.newLines q ++ q.after) = [] ↔ p.after = [] := by
    refine iff_of_false (fun hnil => ?_) (by simp [hafter])
    exact newLines_append_after_ne_nil (List.append_eq_nil_iff.1 hnil).2
  have hplines : lines (edit₂.edited q) =
      p.before ++ p.line :: (mid ++ (edit₂.newLines q ++ q.after)) := by
    rw [lines_edited hq, hbefore, List.append_assoc, List.cons_append]
  have hqlines : lines (edit₁.edited p) =
      (p.before ++ (edit₁.newLines p ++ mid)) ++ q.line :: q.after := by
    rw [lines_edited hp, hafter]
    simp only [List.append_assoc]
  let p' := p.move hplines hpnone
  let q' := q.move hqlines q.lastValue?_after
  have hpnew : edit₁.newLines p' = edit₁.newLines p := newLines_move hplast
  have hqnew : edit₂.newLines q' = edit₂.newLines q := newLines_move Iff.rfl
  have hsame : edit₁.edited p' = edit₂.edited q' := by
    refine congrArg ([lineFeed].intercalate ·) ?_
    calc p.before ++ (edit₁.newLines p' ++ (mid ++ (edit₂.newLines q ++ q.after)))
      _ = (p.before ++ (edit₁.newLines p ++ mid)) ++ (edit₂.newLines q' ++ q.after) := by
        simp only [hpnew, hqnew, List.append_assoc]
  obtain ⟨hpstorage, hpresult⟩ := apply_file e hp
  obtain ⟨hqstorage, hqresult⟩ := apply_file e hq
  obtain ⟨hpstorage', hpresult'⟩ := apply_file (p := p') e (fits_move hplast hp)
  obtain ⟨hqstorage', hqresult'⟩ := apply_file (p := q') e (fits_move Iff.rfl hq)
  refine ⟨decide (edit₁.newLines p ≠ [p.line]), decide (edit₂.newLines q ≠ [q.line]),
    edit₂.edited q', ?_, ?_⟩
  · rw [inTurn, hpstorage, hpresult, hqstorage', hqresult', hqnew]
    rfl
  · rw [inTurn, hqstorage, hqresult, hpstorage', hpresult', hpnew, hsame]
    rfl

/-- **Edits of different names commute.** Two names that a file declares are
updated or removed in either order with the same results, and the same bytes
are left. -/
theorem inTurn_comm (e : Editor) {d₁ d₂ : Declaration} (hne : (k₁, n₁) ≠ (k₂, n₂))
    (h₁ : (Catalog.scan text).get? k₁ n₁ = some d₁) (h₂ : (Catalog.scan text).get? k₂ n₂ = some d₂)
    (hfits₁ : edit₁.Fits text d₁) (hfits₂ : edit₂.Fits text d₂) :
    ∃ changed₁ changed₂ contents,
      inTurn (edit₁.apply e k₁ n₁) (edit₂.apply e k₂ n₂) (.file text) =
          (.ok changed₁, .ok changed₂, .file contents) ∧
        inTurn (edit₂.apply e k₂ n₂) (edit₁.apply e k₁ n₁) (.file text) =
          (.ok changed₂, .ok changed₁, .file contents) := by
  obtain ⟨p, rfl⟩ := Place.exists_of_get? h₁
  obtain ⟨q, rfl⟩ := Place.exists_of_get? h₂
  rcases Nat.lt_trichotomy p.before.length q.before.length with hlt | heq | hgt
  · exact inTurn_of_length_lt e p q hne hfits₁ hfits₂ hlt
  · exact absurd heq (length_before_ne p q hne)
  · obtain ⟨changed₂, changed₁, contents, hfirst, hsecond⟩ :=
      inTurn_of_length_lt e q p hne.symm hfits₂ hfits₁ hgt
    exact ⟨changed₁, changed₂, contents, hsecond, hfirst⟩

/-- A removal of the last line and an update of the first. -/
theorem inTurn_comm_last :
    (Catalog.scan (encode "$a = 1;\n$b = 2;")).get? .var "b" =
        some ⟨.var, "b", "2", "$b = 2;", ⟨8, 15⟩, ⟨13, 14⟩⟩ ∧
      ∃ changed₁ changed₂ contents,
        inTurn (apply ⟨.default⟩ .var "a" (.update (.string "x") {}))
            (apply ⟨.default⟩ .var "b" .remove) (.file (encode "$a = 1;\n$b = 2;")) =
          (.ok changed₁, .ok changed₂, .file contents) ∧
        inTurn (apply ⟨.default⟩ .var "b" .remove)
            (apply ⟨.default⟩ .var "a" (.update (.string "x") {}))
            (.file (encode "$a = 1;\n$b = 2;")) =
          (.ok changed₂, .ok changed₁, .file contents) := by
  have ha : (Catalog.scan (encode "$a = 1;\n$b = 2;")).get? .var "a" =
      some ⟨.var, "a", "1", "$a = 1;", ⟨0, 7⟩, ⟨5, 6⟩⟩ := by decide +kernel
  have hb : (Catalog.scan (encode "$a = 1;\n$b = 2;")).get? .var "b" =
      some ⟨.var, "b", "2", "$b = 2;", ⟨8, 15⟩, ⟨13, 14⟩⟩ := by decide +kernel
  exact ⟨hb, inTurn_comm ⟨.default⟩ (by decide) ha hb
    (show '\n' ∉ ((Value.string "x").render false).toList by decide)
    (show AtLineEnd ((encode "$a = 1;\n$b = 2;").drop 15) by decide)⟩

end Edit

end SiteConfig
