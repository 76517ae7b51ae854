import SiteConfig.Proofs.Layout
import SiteConfig.Proofs.Removal
/-!
# Edits as replacements

An update in place cuts the source of a declaration out of the file, replaces
the value in it, counted from where the source starts, and puts the source back.
The spans of a scan lie in the text one within the other, so this is one
replacement of the value where it stands (`Declaration.LiesIn.splice_newSource`).
An update in canonical form replaces the source, and a removal takes it away with
the line break after it.

So each edit of a name replaces one range of the text (`Edit.apply_splice`). It
is that of the last declaration of the name, and what stands outside of it stays:
earlier declarations of the name, and the same bytes elsewhere
(`Editor.edit_last`).
-/

namespace SiteConfig

open Bytes Line Declaration

namespace Bytes

variable {text new : Bytes} {s i j e n : Nat}

/-! ## Replacements -/

theorem slice_eq_drop_take (i j : Nat) (text : Bytes) :
    Span.slice ⟨i, j⟩ text = (text.take j).drop i := List.drop_take.symm

/-- **A replacement within a part of a text** is one in the text. -/
theorem splice_slice_splice (hs : s ≤ i) (hij : i ≤ j) (he : j ≤ e) :
    text.splice s e ((Span.slice ⟨s, e⟩ text).splice (i - s) (j - s) new) =
      text.splice i j new := by
  have hslice : Span.slice ⟨s, e⟩ text = (text.drop s).take (e - s) := rfl
  have hfront : text.take s ++ (Span.slice ⟨s, e⟩ text).take (i - s) = text.take i := by
    rw [hslice, List.take_take, Nat.min_eq_left (by omega), ← List.take_add,
      Nat.add_sub_cancel' hs]
  have hback : (Span.slice ⟨s, e⟩ text).drop (j - s) ++ text.drop e = text.drop j := by
    have hdrop : (text.drop j).drop (e - j) = text.drop e := by
      rw [List.drop_drop, Nat.add_sub_cancel' he]
    have hmid : e - s - (j - s) = e - j := by omega
    rw [hslice, List.drop_take, List.drop_drop, Nat.add_sub_cancel' (Nat.le_trans hs hij), hmid,
      ← hdrop, List.take_append_drop]
  calc text.splice s e ((Span.slice ⟨s, e⟩ text).splice (i - s) (j - s) new)
    _ = (text.take s ++ (Span.slice ⟨s, e⟩ text).take (i - s)) ++ new ++
          ((Span.slice ⟨s, e⟩ text).drop (j - s) ++ text.drop e) := by
      simp only [splice, List.append_assoc]
    _ = text.splice i j new := by rw [hfront, hback, splice]

/-- A replacement leaves the text as it is where it puts back what stands there. -/
theorem splice_eq_self_iff (hij : i ≤ j) (text new : Bytes) :
    text.splice i j new = text ↔ new = Span.slice ⟨i, j⟩ text := by
  have hself : text.splice i j (Span.slice ⟨i, j⟩ text) = text := by
    rw [slice_eq_drop_take]
    exact splice_self hij
  constructor
  · intro h
    have hsame : text.splice i j new = text.splice i j (Span.slice ⟨i, j⟩ text) := h.trans hself.symm
    exact List.append_cancel_left (List.append_cancel_right hsame)
  · rintro rfl
    exact hself

/-- A replacement further on leaves a part of the text as it is. -/
theorem slice_splice (hj : j ≤ n) (hn : n ≤ text.length) :
    Span.slice ⟨i, j⟩ (text.splice n e new) = Span.slice ⟨i, j⟩ text := by
  have htake : (text.splice n e new).take j = text.take j := by
    have hlen : j ≤ (text.take n).length := by
      rw [List.length_take]
      omega
    rw [splice, List.append_assoc, List.take_append_of_le_length hlen, List.take_take,
      Nat.min_eq_left hj]
  rw [slice_eq_drop_take, slice_eq_drop_take, htake]

/-- What comes before a replacement stays in front. -/
theorem exists_splice_eq_append (hs : s ≤ i) (j : Nat) (text new : Bytes) :
    ∃ rest, text.splice i j new = text.take s ++ rest := by
  have htake : text.take i = text.take s ++ (text.take i).drop s := by
    rw [← slice_eq_drop_take, Span.slice, ← List.take_add, Nat.add_sub_cancel' hs]
  refine ⟨(text.take i).drop s ++ (new ++ text.drop j), ?_⟩
  rw [splice, List.append_assoc, ← List.append_assoc (text.take s), ← htake]

/-! ## Line breaks -/

/-- The length of a line break is that of the one that stands there. -/
theorem lineBreakLength_eq (text : Bytes) : lineBreakLength text =
    if [carriageReturn, lineFeed] <+: text then 2 else if [lineFeed] <+: text then 1 else 0 := by
  have hne : carriageReturn ≠ lineFeed := by decide
  match text with
  | [] => simp [lineBreakLength]
  | [b] => simp [lineBreakLength, List.cons_prefix_cons, eq_comm]
  | b :: c :: text =>
    by_cases hb : b = lineFeed
    · simp [lineBreakLength, List.cons_prefix_cons, hb, hne]
    · simp [lineBreakLength, List.cons_prefix_cons, hb, eq_comm]

theorem lineBreakLength_le (text : Bytes) : lineBreakLength text ≤ text.length := by
  rw [lineBreakLength_eq]
  split
  · next h => exact h.length_le
  split
  · next h => exact h.length_le
  · exact Nat.zero_le _

end Bytes

/-! ## The range of an edit -/

/-- **An update in place replaces the value** where it stands in the text. -/
theorem Declaration.LiesIn.splice_newSource {text : Bytes} {d : Declaration} (h : d.LiesIn text)
    (name value : String) :
    text.splice d.span.start d.span.stop (Editor.newSource text d name value false) =
      text.splice d.valueSpan.start d.valueSpan.stop (encode value) :=
  splice_slice_splice h.start_le h.valueStart_le (Nat.le_of_lt h.valueStop_lt)

namespace Edit

variable {k : Kind} {name : String} {text : Bytes} {d : Declaration}

/-- The range that an edit of a declaration replaces. -/
def range (text : Bytes) (d : Declaration) : Edit → Span
  | .update _ o => if o.normalize then d.span else d.valueSpan
  | .remove => ⟨d.span.start, d.span.stop + lineBreakLength (text.drop d.span.stop)⟩

/-- What an edit puts there. -/
def replacement (k : Kind) (name : String) : Edit → String
  | .update v o => if o.normalize then canonical k name (v.render o.raw) else v.render o.raw
  | .remove => ""

/-- The range lies in the text, and does not start before the declaration. -/
theorem range_le (edit : Edit) (h : d.LiesIn text) :
    d.span.start ≤ (edit.range text d).start ∧
      (edit.range text d).start ≤ (edit.range text d).stop ∧
      (edit.range text d).stop ≤ text.length := by
  have hstart := h.start_le
  have hvalue := h.valueStart_le
  have hstop := h.valueStop_lt
  have hle := h.stop_le
  cases edit with
  | update v o =>
    cases hnormalize : o.normalize <;> simp only [range, hnormalize] <;> simp <;> omega
  | remove =>
    have hbreak := lineBreakLength_le (text.drop d.span.stop)
    rw [List.length_drop] at hbreak
    simp only [range]
    omega

/-- **An edit of a declared name replaces one range** of the text, and reports
whether this changes the text. -/
theorem apply_splice (edit : Edit) (e : Editor) (hd : (Catalog.scan text).get? k name = some d)
    (h : d.LiesIn text) :
    (edit.apply e k name (.file text)).storage = .file (text.splice (edit.range text d).start
        (edit.range text d).stop (encode (edit.replacement k name))) ∧
      (edit.apply e k name (.file text)).result = .ok (decide (text.splice
        (edit.range text d).start (edit.range text d).stop
          (encode (edit.replacement k name)) ≠ text)) := by
  cases edit with
  | update v o =>
    have hkind : d.kind = k := congrArg Prod.fst (Catalog.key_of_get?_eq_some hd)
    have hnew : text.splice d.span.start d.span.stop
        (Editor.newSource text d name (v.render o.raw) o.normalize) =
          text.splice (range text d (.update v o)).start (range text d (.update v o)).stop
            (encode (replacement k name (.update v o))) := by
      cases hnormalize : o.normalize with
      | false =>
        simp only [range, replacement, hnormalize]
        exact h.splice_newSource name _
      | true =>
        simp only [range, replacement, hnormalize, Editor.newSource, hkind, if_true]
    simp only [apply, Editor.update, Editor.scanned, Snapshot.read, Storage.read, hd, hnew,
      Outcome.storage_after, Outcome.result_after, Outcome.storage_announce,
      Outcome.result_announce, Snapshot.storage_save, Snapshot.result_save, and_self]
  | remove =>
    have hnil : encode (replacement k name .remove) = [] := rfl
    simp only [apply, Editor.remove, Editor.scanned, Snapshot.read, Storage.read, hd, range, hnil,
      Outcome.storage_after, Outcome.result_after, Outcome.storage_announce,
      Outcome.result_announce, Snapshot.storage_save, Snapshot.result_save, and_self]

/-- It changes the text unless it puts there what stands there. -/
theorem result_apply (edit : Edit) (e : Editor) (hd : (Catalog.scan text).get? k name = some d)
    (h : d.LiesIn text) : (edit.apply e k name (.file text)).result = .ok (decide
      (encode (edit.replacement k name) ≠ (edit.range text d).slice text)) := by
  rw [(edit.apply_splice e hd h).2]
  exact congrArg Except.ok (decide_eq_decide.2 (not_congr
    (splice_eq_self_iff (edit.range_le h).2.1 text _)))

/-- **What an edit leaves of earlier declarations.** They are still declared,
where they were and as they were spelled. -/
theorem earlier_of_apply (edit : Edit) (e : Editor) (p : Place k name text) :
    ∃ contents, (edit.apply e k name (.file text)).storage = .file contents ∧
      occurrencesFrom k name 0 p.before <+: occurrences k name contents ∧
      ∀ d ∈ occurrencesFrom k name 0 p.before,
        d.span.slice contents = d.span.slice text := by
  obtain ⟨hstart, hle, hstop⟩ := edit.range_le p.liesIn
  refine ⟨_, (edit.apply_splice e p.get?_scan p.liesIn).1, ?_, fun d hd => ?_⟩
  · -- the lines before that of the declaration are the first ones of the new text
    obtain ⟨rest, hrest⟩ := exists_splice_eq_append hstart
      (edit.range text p.declaration).stop text (encode (edit.replacement k name))
    have hlines := lines_between p.lineFeed_not_mem_before (List.forall_mem_nil _) rest
    rw [between, List.flatMap_nil, List.append_nil, List.append_nil, ← p.take_declaration,
      ← hrest] at hlines
    rw [occurrences_eq, hlines, occurrencesFrom_append]
    exact List.prefix_append _ _
  · have hbefore := stop_lt_of_mem_occurrencesFrom hd
    rw [Nat.zero_add] at hbefore
    exact slice_splice (Nat.le_trans (Nat.le_of_lt hbefore) hstart) (Nat.le_trans hle hstop)

end Edit

namespace Editor

variable {k : Kind} {name : String} {text : Bytes}

/-- **A removal** leaves what is before the declaration and what is after its line
break. -/
theorem remove_of_get? {d : Declaration} (hd : (Catalog.scan text).get? k name = some d)
    (h : d.LiesIn text) :
    (remove k name (.file text)).storage = .file (text.take d.span.start ++
        text.drop (d.span.stop + lineBreakLength (text.drop d.span.stop))) ∧
      (remove k name (.file text)).result = .ok true := by
  obtain ⟨hstorage, hresult⟩ := Edit.apply_splice .remove ⟨.default⟩ hd h
  have hcut : text.splice d.span.start
      (d.span.stop + lineBreakLength (text.drop d.span.stop)) (encode "") =
        text.take d.span.start ++
          text.drop (d.span.stop + lineBreakLength (text.drop d.span.stop)) := by
    rw [splice, show encode "" = [] from rfl, List.append_nil]
  simp only [Edit.apply, Edit.range, Edit.replacement, hcut] at hstorage hresult
  refine ⟨hstorage, hresult.trans (congrArg Except.ok (decide_eq_true fun hsame => ?_))⟩
  -- a declaration is not empty, so the text is shorter without it
  have hlength := congrArg List.length hsame
  have hstart := h.start_le
  have hvalue := h.valueStart_le
  have hstop := h.valueStop_lt
  have hle := h.stop_le
  rw [List.length_append, List.length_take, List.length_drop] at hlength
  omega

/-- **Edits of a name touch the bytes of its last declaration only.** Its spans
lie in the text, and an update in place replaces the value where it stands,
though it goes by way of the source. It changes nothing if and only if the new
value is spelled like the old one. An update in canonical form replaces the
declaration, and a removal takes it away with one line break, if one follows.
Whatever the edit, the earlier declarations of the name stay. -/
theorem edit_last (e : Editor) (h : ((Catalog.scan text).get? k name).isSome) :
    ∃ earlier d stop, occurrences k name text = earlier ++ [d] ∧
      (Catalog.scan text).get? k name = some d ∧ d.LiesIn text ∧
      stop = d.span.stop + (if [carriageReturn, lineFeed] <+: text.drop d.span.stop then 2
        else if [lineFeed] <+: text.drop d.span.stop then 1 else 0) ∧ stop ≤ text.length ∧
      (∀ value, text.splice d.span.start d.span.stop (newSource text d name value false) =
        text.splice d.valueSpan.start d.valueSpan.stop (encode value)) ∧
      (∀ v o, o.normalize = false →
        (e.update k name v o (.file text)).storage = .file (text.take d.valueSpan.start ++
            encode (v.render o.raw) ++ text.drop d.valueSpan.stop) ∧
          (e.update k name v o (.file text)).result =
            .ok (decide (encode (v.render o.raw) ≠ d.valueSpan.slice text))) ∧
      (∀ v o, o.normalize = true →
        (e.update k name v o (.file text)).storage = .file (text.take d.span.start ++
            encode (canonical k name (v.render o.raw)) ++ text.drop d.span.stop) ∧
          (e.update k name v o (.file text)).result =
            .ok (decide (encode (canonical k name (v.render o.raw)) ≠ d.span.slice text))) ∧
      ((remove k name (.file text)).storage =
          .file (text.take d.span.start ++ text.drop stop) ∧
        (remove k name (.file text)).result = .ok true) ∧
      ∀ edit : Edit, ∃ contents, (edit.apply e k name (.file text)).storage = .file contents ∧
        earlier <+: occurrences k name contents ∧
        ∀ d' ∈ earlier, d'.span.slice contents = d'.span.slice text := by
  obtain ⟨d, hd⟩ := Option.isSome_iff_exists.1 h
  obtain ⟨p, rfl⟩ := Place.exists_of_get? hd
  have hlies := p.liesIn
  have hbreak := lineBreakLength_eq (text.drop p.declaration.span.stop)
  refine ⟨_, p.declaration, _, p.occurrences_eq, hd, hlies, rfl, ?_, hlies.splice_newSource name,
    fun v o hnormalize => ?_, fun v o hnormalize => ?_, ?_, fun edit => edit.earlier_of_apply e p⟩
  · rw [← hbreak]
    exact (Edit.range_le .remove hlies).2.2
  · have hstorage := (Edit.apply_splice (.update v o) e hd hlies).1
    have hresult := Edit.result_apply (.update v o) e hd hlies
    simp only [Edit.apply, Edit.range, Edit.replacement, hnormalize] at hstorage hresult
    exact ⟨hstorage, hresult⟩
  · have hstorage := (Edit.apply_splice (.update v o) e hd hlies).1
    have hresult := Edit.result_apply (.update v o) e hd hlies
    simp only [Edit.apply, Edit.range, Edit.replacement, hnormalize, if_true] at hstorage hresult
    exact ⟨hstorage, hresult⟩
  · rw [← hbreak]
    exact remove_of_get? hd hlies

/-- The last of two declarations is edited, which are spelled alike, and like a
comment between them. What comes after it is not text. -/
theorem edit_last_duplicates : ∃ text, text =
      encode "$a = 1;\n# $a = 1;\n $a = 1;\r\n" ++ [0xFF] ∧
    ((Catalog.scan text).get? .var "a").isSome ∧
    (update ⟨.default⟩ .var "a" (.int 2) {} (.file text)).storage =
      .file (encode "$a = 1;\n# $a = 1;\n $a = 2;\r\n" ++ [0xFF]) ∧
    (remove .var "a" (.file text)).storage =
      .file (encode "$a = 1;\n# $a = 1;\n" ++ [0xFF]) := by
  let text := encode "$a = 1;\n# $a = 1;\n $a = 1;\r\n" ++ [0xFF]
  have hget : (Catalog.scan text).get? .var "a" =
      some ⟨.var, "a", "1", " $a = 1;", ⟨18, 26⟩, ⟨24, 25⟩⟩ := by decide +kernel
  have hsome : ((Catalog.scan text).get? .var "a").isSome := Option.isSome_iff_exists.2 ⟨_, hget⟩
  obtain ⟨earlier, d, stop, -, hd, -, hstop, -, -, hupdate, -, ⟨hremove, -⟩, -⟩ :=
    edit_last ⟨.default⟩ hsome
  obtain rfl := Option.some.inj (hd.symm.trans hget)
  refine ⟨text, rfl, hsome, (hupdate (.int 2) {} rfl).1.trans ?_, hremove.trans ?_⟩
  · decide +kernel
  · rw [hstop]
    decide +kernel

end Editor

end SiteConfig
