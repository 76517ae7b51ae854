import SiteConfig.Editor
import SiteConfig.Proofs.Canonical
/-!
# Rewriting a declaration

An update of a name that the file declares rewrites one line: the head and
the tail of the declaration stay as they are or become canonical, and the
new value stands between them (`Place.update_file`). The lines before and
after stay, and so does the rest of the line (`Place.lines_rewritten`).

Whether the new value is also read back depends on where the rewritten
line is read to end. If the value has no line feed, the line declares the
name again, with some value (`Place.exists_of_rewritten`).
-/

namespace SiteConfig

open Bytes Line Declaration

/-! ## Saving -/

namespace Outcome

variable {α : Type}

@[simp] theorem result_after (e : Event) (o : Outcome α) : (o.after e).result = o.result := rfl

@[simp] theorem storage_after (e : Event) (o : Outcome α) : (o.after e).storage = o.storage := rfl

@[simp] theorem result_announce (e : Event) (o : Outcome Bool) :
    (o.announce e).result = o.result := by
  unfold announce
  split <;> rfl

@[simp] theorem storage_announce (e : Event) (o : Outcome Bool) :
    (o.announce e).storage = o.storage := by
  unfold announce
  split <;> rfl

end Outcome

namespace Snapshot

variable {text new : Bytes}

/-- What was read from a file is replaced by what is saved. -/
@[simp] theorem storage_save : (save ⟨text⟩ new (.file text)).storage = .file new := by
  by_cases h : new = text <;>
    simp [save, h, Outcome.done, Storage.write, Storage.openForWriting, Except.map]

/-- Saving reports a change where there is one. -/
@[simp] theorem result_save :
    (save ⟨text⟩ new (.file text)).result = .ok (decide (new ≠ text)) := by
  by_cases h : new = text <;>
    simp [save, h, Outcome.done, Storage.write, Storage.openForWriting, Except.map]

end Snapshot

/-! ## The rewritten line -/

namespace Place

variable {k : Kind} {name : String} {text : Bytes} (p : Place k name text)

/-- What an update writes in front of the value. -/
def newHead (normalize : Bool) : Bytes := if normalize then canonicalHead k name else p.head

/-- What an update writes after the value. -/
def newTail (normalize : Bool) : Bytes := if normalize then canonicalTail k else p.tail

/-- The line with another value. -/
def newLine (normalize : Bool) (x : Bytes) : Bytes :=
  p.newHead normalize ++ (x ++ (p.newTail normalize ++ p.rest))

/-- The text with another value. -/
def rewritten (normalize : Bool) (x : Bytes) : Bytes :=
  between p.before p.after (p.newLine normalize x)

variable {normalize : Bool} {x v r : Bytes}

theorem isHead_newHead (normalize : Bool) : IsHead k (encode name) (p.newHead normalize) := by
  unfold newHead
  split
  · exact isHead_canonicalHead p.isName
  · exact p.isHead

theorem isTerminator_newTail (normalize : Bool) : IsTerminator k (p.newTail normalize) := by
  unfold newTail
  split
  · exact isTerminator_canonicalTail
  · exact p.isTerminator

theorem lineFeed_not_mem_rest : lineFeed ∉ p.rest := fun h =>
  p.lineFeed_not_mem_line (by simp [line, h])

/-- A value on one line keeps the declaration on its line. -/
theorem lineFeed_not_mem_newLine (hx : lineFeed ∉ x) : lineFeed ∉ p.newLine normalize x := by
  have hhead := (p.isHead_newHead normalize).lineFeed_not_mem
  have htail := (p.isTerminator_newTail normalize).lineFeed_not_mem
  simp [newLine, hx, hhead, htail, p.lineFeed_not_mem_rest]

/-- **The other lines stay.** -/
theorem lines_rewritten : lines (p.rewritten normalize x) =
    p.before ++ (lines (p.newLine normalize x) ++ p.after) :=
  lines_between p.lineFeed_not_mem_before p.lineFeed_not_mem_after _

theorem lines_rewritten_of_not_mem (hx : lineFeed ∉ x) : lines (p.rewritten normalize x) =
    p.before ++ p.newLine normalize x :: p.after := by
  rw [lines_rewritten, lines_eq_singleton (p.lineFeed_not_mem_newLine hx)]
  rfl

/-! ## Updates -/

/-- The new source of the declaration. -/
theorem newSource_declaration (normalize : Bool) (value : String) :
    Editor.newSource text p.declaration name value normalize =
      p.newHead normalize ++ (encode value ++ p.newTail normalize) := by
  cases normalize with
  | true => exact encode_canonical k name value
  | false =>
    have hhead : (p.head ++ (p.value ++ p.tail)).take p.head.length = p.head := List.take_left
    have htail :
        (p.head ++ (p.value ++ p.tail)).drop (p.head.length + p.value.length) = p.tail := by
      rw [← List.append_assoc, ← List.length_append, List.drop_left]
    simp only [Editor.newSource, Bool.false_eq_true, if_false, slice_declaration,
      valueSpanInSource_declaration, splice, hhead, htail, newHead, newTail, List.append_assoc]

/-- **An update of a declared name** rewrites its line. -/
theorem update_file (e : Editor) (v : Value) (o : UpdateOptions) :
    (e.update k name v o (.file text)).storage =
        .file (p.rewritten o.normalize (encode (v.render o.raw))) ∧
      (e.update k name v o (.file text)).result =
        .ok (decide (p.rewritten o.normalize (encode (v.render o.raw)) ≠ text)) := by
  have hnew : text.splice p.declaration.span.start p.declaration.span.stop
      (Editor.newSource text p.declaration name (v.render o.raw) o.normalize) =
      p.rewritten o.normalize (encode (v.render o.raw)) := by
    rw [splice_declaration, newSource_declaration, rewritten, newLine]
    simp only [List.append_assoc]
  have hupdate : e.update k name v o (.file text) =
      (((Snapshot.save ⟨text⟩ (p.rewritten o.normalize (encode (v.render o.raw)))
        (.file text)).announce (.updated k name o.normalize)).after
          (.scanned (Catalog.scan text).size)) := by
    simp only [Editor.update, Editor.scanned, Snapshot.read, Storage.read, p.get?_scan, hnew]
  rw [hupdate]
  constructor <;> simp

/-- An update leaves the file as it is where the rewritten text is the same. -/
theorem update_file_eq_iff (e : Editor) (v : Value) (o : UpdateOptions) :
    ((e.update k name v o (.file text)).result = .ok false ∧
        (e.update k name v o (.file text)).storage = .file text) ↔
      p.rewritten o.normalize (encode (v.render o.raw)) = text := by
  obtain ⟨hstorage, hresult⟩ := p.update_file e v o
  rw [hstorage, hresult]
  simp

/-! ## Reading the rewritten line -/

/-- **The rewritten line declares the name** with the value that is read on
it. -/
theorem exists_of_rewritten (hx : lineFeed ∉ x)
    (hs : skipBlanks (x ++ (p.newTail normalize ++ p.rest)) = x ++ (p.newTail normalize ++ p.rest))
    (hv : value? k (x ++ (p.newTail normalize ++ p.rest)) = some (v, r)) :
    ∃ q : Place k name (p.rewritten normalize x), q.before = p.before ∧ q.after = p.after ∧
      q.head = p.newHead normalize ∧ q.value = v ∧ q.rest = r ∧
      x ++ (p.newTail normalize ++ p.rest) = v ++ (q.tail ++ r) :=
  exists_of_value?_of_skipBlanks _ _ (p.lines_rewritten_of_not_mem hx) (p.isHead_newHead normalize)
    hs hv p.lastValue?_after

end Place

end SiteConfig
