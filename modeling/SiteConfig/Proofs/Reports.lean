import SiteConfig.Proofs.Inspection
import SiteConfig.Proofs.Truthfulness
/-!
# Events that tell of the outcome

An operation reports nothing of storage that it cannot read. Of a file it first
reports the scan, with the number of names that the lines declare
(`Catalog.size_scan`), and an inspection leaves it at that.

An operation that may change the file goes on and ends in one of three ways
(`Ends`). It writes the file and says what it did (`Deed`), or it finds nothing to
do and says why (`Idle`), or it warns that the anchor is missing. Each way has
events of its own, so the events tell the result and the result tells the events,
down to their levels (`Recounts`, `Editor.events_tell`).
-/

namespace SiteConfig

open Bytes Declaration

/-! ## The number of declarations -/

/-- The kinds and names that the lines of a text declare. -/
def Declaration.keysIn (text : Bytes) : Finset (Kind × String) :=
  (Kind.all.flatMap fun k => ((lines text).filterMap (nameOnLine? k)).map (k, ·)).toFinset

namespace Catalog

variable {k : Kind} {name : String} {text : Bytes}

theorem mem_keysIn :
    (k, name) ∈ keysIn text ↔ ∃ line ∈ lines text, nameOnLine? k line = some name := by
  rw [keysIn, List.mem_toFinset, List.mem_flatMap]
  constructor
  · rintro ⟨k', -, hmem⟩
    obtain ⟨name', hname, hkey⟩ := List.mem_map.1 hmem
    obtain ⟨rfl, rfl⟩ := Prod.mk.inj hkey
    exact List.mem_filterMap.1 hname
  · intro h
    exact ⟨k, k.mem_all, List.mem_map_of_mem (List.mem_filterMap.2 h)⟩

theorem toFinset_keys_scan (text : Bytes) : (scan text).keys.toFinset = keysIn text := by
  ext ⟨k, name⟩
  rw [List.mem_toFinset, mem_keys_scan, mem_keysIn]

/-- **A scan has as many declarations as there are different names** of the two
kinds on the lines. -/
theorem size_scan (text : Bytes) : (scan text).size = (keysIn text).card := by
  rw [← toFinset_keys_scan, keys, List.toFinset_card_of_nodup (scan text).nodup, List.length_map,
    size]

theorem get?_scan_eq_none_iff_not_mem :
    (scan text).get? k name = none ↔ (k, name) ∉ keysIn text := by
  rw [get?_eq_none_iff, mem_keys_scan, mem_keysIn]

theorem exists_get?_scan_iff_mem :
    (∃ d, (scan text).get? k name = some d) ↔ (k, name) ∈ keysIn text := by
  rw [← Option.ne_none_iff_exists', ne_eq, get?_scan_eq_none_iff_not_mem, Classical.not_not]

end Catalog

/-! ## Operations that may change a file -/

/-- An operation that may change a file. -/
inductive Mutation where
  | add (v : Value) (o : AddOptions)
  | update (v : Value) (o : UpdateOptions)
  | remove

namespace Mutation

/-- Does the operation on a name. -/
def apply (e : Editor) (k : Kind) (name : String) : Mutation → Storage → Outcome Bool
  | .add v o => Editor.add k name v o
  | .update v o => e.update k name v o
  | .remove => Editor.remove k name

/-- How the operation adds a name that is not declared, if it does that. An update
adds as the editor is set to. -/
def addOptions? (e : Editor) : Mutation → Option AddOptions
  | .add _ o => some o
  | .update _ o => if o.addMissing then some { e.addOptions with raw := o.raw } else none
  | .remove => none

end Mutation

/-- The event of what was done to a name. It was added if it was not declared, and
updated or removed if it was. -/
inductive Deed (e : Editor) (k : Kind) (name : String) (text : Bytes) : Mutation → Event → Prop
  | added {m : Mutation} {o : AddOptions} (hnew : (k, name) ∉ keysIn text)
      (ho : m.addOptions? e = some o) : Deed e k name text m (.added k name o.placement)
  | updated {v : Value} {o : UpdateOptions} (hold : (k, name) ∈ keysIn text) :
      Deed e k name text (.update v o) (.updated k name o.normalize)
  | removed (hold : (k, name) ∈ keysIn text) : Deed e k name text .remove (.removed k name)

/-- The event of an operation that finds nothing to do. -/
inductive Idle (k : Kind) (name : String) (text : Bytes) : Mutation → Event → Prop
  | alreadyDeclared {v : Value} {o : AddOptions} (hold : (k, name) ∈ keysIn text) :
      Idle k name text (.add v o) (.alreadyDeclared k name)
  /-- The file has the new value already. -/
  | unchanged {v : Value} {o : UpdateOptions} (hold : (k, name) ∈ keysIn text) :
      Idle k name text (.update v o) .unchanged
  | notAdded {v : Value} {o : UpdateOptions} (hnew : (k, name) ∉ keysIn text)
      (ho : o.addMissing = false) : Idle k name text (.update v o) (.notAdded k name)
  | nothingToRemove (hnew : (k, name) ∉ keysIn text) :
      Idle k name text .remove (.nothingToRemove k name)

/-- How an operation on a file ends, and what it reports after the scan. -/
inductive Ends (e : Editor) (k : Kind) (name : String) (text : Bytes) (m : Mutation) :
    Outcome Bool → Prop
  | changed {contents : Bytes} {event : Event} (h : Deed e k name text m event) :
      Ends e k name text m ⟨.ok true, .file contents, [.written contents.length, event]⟩
  | idle {event : Event} (h : Idle k name text m event) :
      Ends e k name text m ⟨.ok false, .file text, [event]⟩
  | astray {o : AddOptions} (hnew : (k, name) ∉ keysIn text) (ho : m.addOptions? e = some o) :
      Ends e k name text m
        ⟨.error (.anchorNotFound o.anchor), .file text, [.anchorMissing o.anchor]⟩

variable {e : Editor} {k : Kind} {name : String} {text new : Bytes} {m : Mutation}
variable {event : Event} {out : Outcome Bool}

/-! ### Headlines -/

namespace Event

/-- The level and the text of an event. -/
def headline (event : Event) : Level × String := (event.level, event.message)

@[simp] theorem headline_scanned (n : Nat) :
    headline (.scanned n) = (.debug, "scanned config file") := rfl

@[simp] theorem headline_written (n : Nat) :
    headline (.written n) = (.info, "config file written") := rfl

@[simp] theorem headline_anchorMissing (anchor : String) :
    headline (.anchorMissing anchor) = (.warn, "anchor not found") := rfl

end Event

@[simp] theorem Outcome.events_after (event : Event) (out : Outcome Bool) :
    (out.after event).events = event :: out.events := rfl

/-- What is done is news. -/
theorem Deed.headline_eq (h : Deed e k name text m event) :
    event.headline = (.info, event.message) := by
  cases h <;> rfl

/-- That nothing is done is detail. -/
theorem Idle.headline_eq (h : Idle k name text m event) :
    event.headline = (.debug, event.message) := by
  cases h <;> rfl

/-- A missing anchor is not what leaves nothing to do. -/
theorem not_idle_anchorMissing (anchor : String) :
    ¬ Idle k name text m (.anchorMissing anchor) := by
  rintro ⟨⟩

/-! ### Every operation on a file ends so -/

namespace Editor

/-- A file that is read is scanned, and that is reported first. -/
theorem scanned_file {α : Type} (next : Snapshot → Catalog → Outcome α) (text : Bytes) :
    scanned (.file text) next =
      (next ⟨text⟩ (.scan text)).after (.scanned (keysIn text).card) := by
  rw [← Catalog.size_scan]
  rfl

/-- Other contents are written, and then the operation says what it did. -/
theorem ends_announce_save (h : Deed e k name text m event) (hne : new ≠ text) :
    Ends e k name text m ((Snapshot.save ⟨text⟩ new (.file text)).announce event) := by
  have hsave : Snapshot.save ⟨text⟩ new (.file text) =
      .done true (.file new) [.written new.length] := if_neg hne
  rw [hsave]
  exact .changed h

theorem ends_addTo (v : Value) {o : AddOptions} (hnew : (k, name) ∉ keysIn text)
    (ho : m.addOptions? e = some o) :
    Ends e k name text m (addTo ⟨text⟩ (.scan text) k name v o (.file text)) := by
  have hget := Catalog.get?_scan_eq_none_iff_not_mem.2 hnew
  cases hp : indexOf? (encode o.anchor) text with
  | none =>
    simp only [addTo, hget, hp, Option.isSome_none, Bool.false_eq_true, if_false]
    exact .astray hnew ho
  | some p =>
    -- the result says that the new contents are others
    have hresult := (addTo_file v o hget hp).1
    simp only [addTo, hget, hp, Option.isSome_none, Bool.false_eq_true, if_false,
      Outcome.result_announce, Snapshot.result_save, Except.ok.injEq,
      decide_eq_true_eq] at hresult ⊢
    exact ends_announce_save (.added hnew ho) hresult

/-- Contents that the file has already are not written, and nothing was done. -/
theorem ends_announce_save_self (h : Idle k name text m .unchanged) :
    Ends e k name text m ((Snapshot.save ⟨text⟩ text (.file text)).announce event) := by
  have hsave : Snapshot.save ⟨text⟩ text (.file text) = .done false (.file text) [.unchanged] :=
    if_pos rfl
  rw [hsave]
  exact .idle h

variable (e k name text)

/-- An addition says that the name is declared, or adds it. -/
theorem exists_ends_add (v : Value) (o : AddOptions) : ∃ out,
    add k name v o (.file text) = out.after (.scanned (keysIn text).card) ∧
      Ends e k name text (.add v o) out := by
  refine ⟨_, scanned_file _ text, ?_⟩
  by_cases h : (k, name) ∈ keysIn text
  · obtain ⟨d, hd⟩ := Catalog.exists_get?_scan_iff_mem.2 h
    simp only [addTo, hd, Option.isSome_some, if_true]
    exact .idle (.alreadyDeclared h)
  · exact ends_addTo v h rfl

/-- An update gives a declared name its value, unless it has that value, and adds
a name that is not declared, unless it is told not to. -/
theorem exists_ends_update (v : Value) (o : UpdateOptions) : ∃ out,
    e.update k name v o (.file text) = out.after (.scanned (keysIn text).card) ∧
      Ends e k name text (.update v o) out := by
  refine ⟨_, scanned_file _ text, ?_⟩
  by_cases h : (k, name) ∈ keysIn text
  · obtain ⟨d, hd⟩ := Catalog.exists_get?_scan_iff_mem.2 h
    simp only [hd]
    by_cases hsame : text.splice d.span.start d.span.stop
        (newSource text d name (v.render o.raw) o.normalize) = text
    · rw [hsame]
      exact ends_announce_save_self (.unchanged h)
    · exact ends_announce_save (.updated h) hsame
  · simp only [Catalog.get?_scan_eq_none_iff_not_mem.2 h]
    cases ho : o.addMissing with
    | true => exact ends_addTo v h (by rw [Mutation.addOptions?, ho, if_pos rfl])
    | false => exact .idle (.notAdded h ho)

/-- A removal takes a declared name away, and has nothing to do otherwise. -/
theorem exists_ends_remove : ∃ out,
    remove k name (.file text) = out.after (.scanned (keysIn text).card) ∧
      Ends e k name text .remove out := by
  refine ⟨_, scanned_file _ text, ?_⟩
  by_cases h : (k, name) ∈ keysIn text
  · obtain ⟨d, hd⟩ := Catalog.exists_get?_scan_iff_mem.2 h
    -- the result says that the new contents are others
    have hresult := result_remove_file k name text
    simp only [remove, scanned_file, hd, Outcome.result_after, Outcome.result_announce,
      Snapshot.result_save, Option.isSome_some, Except.ok.injEq, decide_eq_true_eq] at hresult
    simp only [hd]
    exact ends_announce_save (.removed h) hresult
  · simp only [Catalog.get?_scan_eq_none_iff_not_mem.2 h]
    exact .idle (.nothingToRemove h)

/-- **An operation on a file reports the scan, and then how it ends.** -/
theorem exists_ends_apply (m : Mutation) : ∃ out,
    m.apply e k name (.file text) = out.after (.scanned (keysIn text).card) ∧
      Ends e k name text m out := by
  cases m with
  | add v o => exact exists_ends_add e k name text v o
  | update v o => exact exists_ends_update e k name text v o
  | remove => exact exists_ends_remove e k name text

end Editor

/-! ### The end is told by the events -/

/-- What the events of an operation on a file and its result tell of each other. -/
structure Recounts (e : Editor) (k : Kind) (name : String) (text : Bytes) (m : Mutation)
    (out : Outcome Bool) : Prop where
  /-- A change is told by the length of the file after it, and by what was done. -/
  changed_iff : out.result = .ok true ↔ ∃ contents event, out.storage = .file contents ∧
    Deed e k name text m event ∧
    out.events = [.scanned (keysIn text).card, .written contents.length, event]
  /-- The warning is of the anchor that is missing. -/
  astray_iff : ∀ anchor, out.result = .error (.anchorNotFound anchor) ↔
    out.events = [.scanned (keysIn text).card, .anchorMissing anchor]
  idle_iff : out.result = .ok false ↔ ∃ event, Idle k name text m event ∧
    out.events = [.scanned (keysIn text).card, event]
  /-- There is no other result, and so there are no other events. -/
  complete : out.result = .ok true ∨ out.result = .ok false ∨
    ∃ o, m.addOptions? e = some o ∧ out.result = .error (.anchorNotFound o.anchor)
  /-- The levels alone tell the three results apart: two pieces of news are a
  change, a warning is a missing anchor, and nothing but detail is neither. -/
  changed_iff_headlines : out.result = .ok true ↔ ∃ deed, out.events.map Event.headline =
    [(.debug, "scanned config file"), (.info, "config file written"), (.info, deed)]
  astray_iff_headlines : (∃ anchor, out.result = .error (.anchorNotFound anchor)) ↔
    out.events.map Event.headline = [(.debug, "scanned config file"), (.warn, "anchor not found")]
  idle_iff_headlines : out.result = .ok false ↔ ∃ reason, out.events.map Event.headline =
    [(.debug, "scanned config file"), (.debug, reason)]

theorem Ends.recounts (h : Ends e k name text m out) :
    Recounts e k name text m (out.after (.scanned (keysIn text).card)) := by
  cases h with
  | @changed contents event hdeed =>
    exact {
      changed_iff := iff_of_true rfl ⟨contents, event, rfl, hdeed, rfl⟩
      astray_iff := fun anchor => by simp
      idle_iff := by simp
      complete := .inl rfl
      changed_iff_headlines := by simp [hdeed.headline_eq]
      astray_iff_headlines := by simp
      idle_iff_headlines := by simp }
  | @idle event hidle =>
    -- one event comes after the scan, as for a missing anchor, but not that one
    have hne : ∀ anchor, event ≠ .anchorMissing anchor := by
      rintro anchor rfl
      exact not_idle_anchorMissing anchor hidle
    exact {
      changed_iff := by simp
      astray_iff := fun anchor => by simp [hne anchor]
      idle_iff := iff_of_true rfl ⟨event, hidle, rfl⟩
      complete := .inr (.inl rfl)
      changed_iff_headlines := by simp
      astray_iff_headlines := by simp [hidle.headline_eq]
      idle_iff_headlines := by simp [hidle.headline_eq] }
  | @astray o hnew ho =>
    exact {
      changed_iff := by simp
      astray_iff := fun anchor => by simp
      idle_iff := by simp [not_idle_anchorMissing]
      complete := .inr (.inr ⟨o, ho, rfl⟩)
      changed_iff_headlines := by simp
      astray_iff_headlines := by simp
      idle_iff_headlines := by simp }

namespace Editor

/-- Nothing is reported of storage that is not read. -/
theorem events_scanned_of_error {α : Type} {s : Storage} {fault : Fault}
    (h : s.read = .error fault) (next : Snapshot → Catalog → Outcome α) :
    (scanned s next).events = [] := by
  have hread : ∃ cause, Snapshot.read s = .error cause := by
    cases fault <;> simp [Snapshot.read, h]
  obtain ⟨cause, hcause⟩ := hread
  rw [scanned, hcause]
  rfl

/-- **The events of an operation tell what it read and what came of it.** -/
theorem events_tell (e : Editor) (k : Kind) (name : String) (s : Storage) :
    (∀ fault, s.read = .error fault →
      (declares k name s).events = [] ∧ (getValue k name s).events = [] ∧
      ∀ m : Mutation, (m.apply e k name s).events = []) ∧
    ∀ text, s.read = .ok text →
      (declares k name s).events = [.scanned (keysIn text).card] ∧
      (getValue k name s).events = [.scanned (keysIn text).card] ∧
      ∀ m : Mutation, Recounts e k name text m (m.apply e k name s) := by
  constructor
  · intro fault hread
    refine ⟨events_scanned_of_error hread _, events_scanned_of_error hread _, fun m => ?_⟩
    cases m <;> exact events_scanned_of_error hread _
  · intro text hread
    obtain rfl := Storage.read_eq_ok_iff.1 hread
    refine ⟨?_, ?_, fun m => ?_⟩
    · rw [declares, scanned_file]
      rfl
    · rw [getValue, scanned_file]
      rfl
    · obtain ⟨out, happly, hends⟩ := exists_ends_apply e k name text m
      rw [happly]
      exact hends.recounts

/-- A name on two lines counts once, and an update of another one adds it where the
editor is set to add. Of a directory nothing is reported. -/
theorem events_tell_added : ∃ e text,
    e = ⟨{ anchor := "#", separator := "\n", placement := .after }⟩ ∧
    text = encode "#\n$a = 1;\n$a = 2;" ∧
    Storage.directory.read = .error .isDirectory ∧
    (update e .var "b" (.int 3) {} .directory).events = [] ∧
    (Storage.file text).read = .ok text ∧
    (update e .var "b" (.int 3) {} (.file text)).events =
      [.scanned 1, .written 25, .added .var "b" .after] := by
  let e : Editor := ⟨{ anchor := "#", separator := "\n", placement := .after }⟩
  let text := encode "#\n$a = 1;\n$a = 2;"
  have hcard : (keysIn text).card = 1 := by decide +kernel
  have hnew : (.var, "b") ∉ keysIn text := by decide +kernel
  have hfile : (update e .var "b" (.int 3) {} (.file text)).storage =
      .file (encode "#\n$b = 3;\n$a = 1;\n$a = 2;") := by decide +kernel
  have hdirectory := ((events_tell e .var "b" .directory).1 .isDirectory rfl).2.2
  have hrecounts := ((events_tell e .var "b" (.file text)).2 text rfl).2.2 (.update (.int 3) {})
  obtain ⟨contents, event, hstorage, hdeed, hevents⟩ := hrecounts.changed_iff.1 (by decide +kernel)
  obtain rfl := Storage.file.inj (hstorage.symm.trans hfile)
  refine ⟨e, text, rfl, rfl, rfl, hdirectory (.update (.int 3) {}), rfl, hevents.trans ?_⟩
  rw [hcard]
  cases hdeed with
  | added _ ho =>
    obtain rfl := Option.some.inj ho
    rfl
  | updated hold => exact absurd hold hnew

end Editor

end SiteConfig
