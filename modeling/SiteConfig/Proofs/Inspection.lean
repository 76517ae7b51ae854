import SiteConfig.Proofs.History
import SiteConfig.Proofs.Splicing
import SiteConfig.Proofs.Trichotomy
/-!
# What is declared, to all operations

Inspections and edits look at the same scan and take different views of it. To
inspect storage is refused where nothing is there, where it cannot be read, and
where it has no declaration of the kind (`Editor.Refuses`). An edit takes any of
this in a file for the absence of the name.

Both views come down to the lines of the file (`Catalog.mem_keys_scan`), and there
they agree: an inspection finds a name if and only if an addition of it leaves the
file alone, and if and only if a removal of it does not
(`Editor.operations_agree`).
-/

namespace SiteConfig

open Bytes Declaration

/-! ## Lines that declare a name -/

namespace Declaration

variable {k : Kind} {name value : String} {line : Bytes} {ls : List Bytes}

/-- The value that a line declares. -/
def valueOnLine? (k : Kind) (line : Bytes) : Option String :=
  (Line.parts? k line).map fun p => decode p.value

/-- A line alone gives a name the value that is on it. -/
theorem lastValue?_singleton_eq_some_iff : lastValue? k name [line] = some value ↔
    nameOnLine? k line = some name ∧ valueOnLine? k line = some value := by
  rw [lastValue?, last?_singleton, ofLine?, nameOnLine?, valueOnLine?]
  cases Line.parts? k line with
  | none => simp
  | some p => by_cases hn : decode p.name = name <;> simp [hn, Option.filter_some]

theorem lastValue?_eq_none_iff :
    lastValue? k name ls = none ↔ ∀ line ∈ ls, nameOnLine? k line ≠ some name := by
  induction ls with
  | nil => simp
  | cons line ls ih =>
    rw [lastValue?_cons, Option.or_eq_none_iff, ih, List.forall_mem_cons, ne_eq,
      ← isSome_lastValue?_singleton_iff, Option.not_isSome_iff_eq_none]
    exact and_comm

/-- **A value is that of the last line** that declares the name. -/
theorem lastValue?_eq_some_iff : lastValue? k name ls = some value ↔
    ∃ line, IsLast (fun line => nameOnLine? k line = some name) ls line ∧
      valueOnLine? k line = some value := by
  induction ls with
  | nil => simp [IsLast]
  | cons first ls ih =>
    rw [lastValue?_cons, Option.or_eq_some_iff, ih, lastValue?_eq_none_iff,
      lastValue?_singleton_eq_some_iff]
    constructor
    · rintro (⟨line, ⟨before, after, rfl, hname, hafter⟩, hvalue⟩ | ⟨hnone, hname, hvalue⟩)
      · exact ⟨line, ⟨first :: before, after, rfl, hname, hafter⟩, hvalue⟩
      · exact ⟨first, ⟨[], ls, rfl, hname, hnone⟩, hvalue⟩
    · rintro ⟨line, ⟨before, after, hls, hname, hafter⟩, hvalue⟩
      cases before with
      | nil =>
        obtain ⟨rfl, rfl⟩ := List.cons.inj hls
        exact .inr ⟨hafter, hname, hvalue⟩
      | cons first' before =>
        obtain ⟨-, rfl⟩ := List.cons.inj hls
        exact .inl ⟨line, ⟨before, after, rfl, hname, hafter⟩, hvalue⟩

end Declaration

namespace Catalog

variable {k : Kind} {name : String} {text : Bytes}

/-- **The keys of a scan are the names on the lines** of the text. -/
theorem mem_keys_scan :
    (k, name) ∈ (scan text).keys ↔ ∃ line ∈ lines text, nameOnLine? k line = some name := by
  rw [← not_iff_not, ← get?_eq_none_iff, get?_scan_eq_none_iff, lastValue?_eq_none_iff]
  simp

/-- A kind is there where a line declares any name of it. -/
theorem exists_mem_keys_scan_iff :
    (∃ name, (k, name) ∈ (scan text).keys) ↔ ∃ line ∈ lines text, (nameOnLine? k line).isSome := by
  simp only [mem_keys_scan, Option.isSome_iff_exists]
  constructor
  · rintro ⟨name, line, hline, hname⟩
    exact ⟨line, hline, name, hname⟩
  · rintro ⟨line, hline, name, hname⟩
    exact ⟨name, line, hline, hname⟩

theorem keys_scan_eq_nil_iff :
    (scan text).keys = [] ↔ ∀ line ∈ lines text, ∀ k, nameOnLine? k line = none := by
  constructor
  · intro h line hline k
    refine Option.eq_none_iff_forall_ne_some.2 fun name hname => ?_
    have hmem : (k, name) ∈ (scan text).keys := mem_keys_scan.2 ⟨line, hline, hname⟩
    rw [h] at hmem
    cases hmem
  · intro h
    refine List.eq_nil_iff_forall_not_mem.2 fun ⟨k, name⟩ hmem => ?_
    obtain ⟨line, hline, hname⟩ := mem_keys_scan.1 hmem
    rw [h line hline k] at hname
    cases hname

end Catalog

/-! ## Inspections -/

namespace Editor

variable {k : Kind} {name value : String} {s : Storage} {text : Bytes} {cause : EditError}

/-- Why storage cannot be inspected for declarations of a kind. -/
inductive Refuses (k : Kind) : Storage → EditError → Prop where
  | missing : Refuses k .missing .emptyFile
  | danglingLink : Refuses k .danglingLink .emptyFile
  | directory : Refuses k .directory (.readFailure .isDirectory)
  | socket : Refuses k .socket (.readFailure .noDevice)
  | emptyFile : Refuses k (.file []) .emptyFile
  | noDeclarations {text : Bytes} (hne : text ≠ [])
      (hnone : ∀ line ∈ lines text, ∀ k', nameOnLine? k' line = none) :
      Refuses k (.file text) .noDeclarations
  | unknownKind {text : Bytes} (hother : ∃ line ∈ lines text, ∃ k', (nameOnLine? k' line).isSome)
      (hnone : ∀ line ∈ lines text, nameOnLine? k line = none) :
      Refuses k (.file text) (.unknownKind k.name)

theorem find_eq_error_iff {snap : Snapshot} {c : Catalog} :
    find snap c k name = .error cause ↔ snap.isEmpty ∧ cause = .emptyFile ∨
      ¬ snap.isEmpty ∧ (c.lookup k name = .empty ∧ cause = .noDeclarations ∨
        c.lookup k name = .kindAbsent ∧ cause = .unknownKind k.name) := by
  unfold find
  by_cases h : snap.isEmpty
  · simp [h, eq_comm]
  · cases c.lookup k name <;> simp [h, eq_comm]

/-- A kind is absent from a file where another one is there and it is not. -/
theorem lookup_scan_eq_kindAbsent_iff : (Catalog.scan text).lookup k name = .kindAbsent ↔
    (∃ line ∈ lines text, ∃ k', (nameOnLine? k' line).isSome) ∧
      ∀ line ∈ lines text, nameOnLine? k line = none := by
  rw [Catalog.lookup_eq_kindAbsent_iff, ← not_exists, Catalog.exists_mem_keys_scan_iff, ne_eq,
    Catalog.keys_scan_eq_nil_iff]
  simp [Option.isSome_iff_ne_none]

/-- What is found in a file is refused for the reasons that are given. -/
theorem find_scan_eq_error_iff :
    find ⟨text⟩ (Catalog.scan text) k name = .error cause ↔ Refuses k (.file text) cause := by
  have hempty : (Snapshot.mk text).isEmpty ↔ text = [] := List.isEmpty_iff
  rw [find_eq_error_iff, hempty, Catalog.lookup_eq_empty_iff, Catalog.keys_scan_eq_nil_iff,
    lookup_scan_eq_kindAbsent_iff]
  constructor
  · rintro (⟨rfl, rfl⟩ | ⟨hne, ⟨hnone, rfl⟩ | ⟨⟨hother, hnone⟩, rfl⟩⟩)
    · exact .emptyFile
    · exact .noDeclarations hne hnone
    · exact .unknownKind hother hnone
  · intro h
    cases h with
    | emptyFile => exact .inl ⟨rfl, rfl⟩
    | noDeclarations hne hnone => exact .inr ⟨hne, .inl ⟨hnone, rfl⟩⟩
    | unknownKind hother hnone =>
      refine .inr ⟨?_, .inr ⟨⟨hother, hnone⟩, rfl⟩⟩
      rintro rfl
      -- the one line of an empty file declares nothing
      obtain ⟨line, hline, k', hsome⟩ := hother
      obtain rfl : line = [] := List.mem_singleton.1 hline
      cases k' <;> cases hsome

/-- **An inspection is refused for these reasons and no others.** -/
theorem getValue_eq_error_iff : (getValue k name s).result = .error cause ↔ Refuses k s cause := by
  cases s with
  | file text =>
    have hget : (getValue k name (.file text)).result =
        (find ⟨text⟩ (Catalog.scan text) k name).map (·.map (·.value)) := rfl
    rw [hget, ← find_scan_eq_error_iff]
    cases find ⟨text⟩ (Catalog.scan text) k name <;> simp [Except.map]
  | missing | directory | socket | danglingLink =>
    constructor
    · intro h
      obtain rfl := Except.error.inj h
      constructor
    · rintro ⟨⟩
      rfl

/-- A name is declared where it has a value. -/
theorem result_declares (k : Kind) (name : String) (s : Storage) :
    (declares k name s).result = (getValue k name s).result.map (·.isSome) := by
  cases s with
  | file text =>
    have hdeclares : (declares k name (.file text)).result =
        (find ⟨text⟩ (Catalog.scan text) k name).map (·.isSome) := rfl
    have hget : (getValue k name (.file text)).result =
        (find ⟨text⟩ (Catalog.scan text) k name).map (·.map (·.value)) := rfl
    rw [hdeclares, hget]
    cases find ⟨text⟩ (Catalog.scan text) k name with
    | error cause => rfl
    | ok found => cases found <;> rfl
  | missing | directory | socket | danglingLink => rfl

theorem declares_eq_error_iff : (declares k name s).result = .error cause ↔ Refuses k s cause := by
  rw [result_declares, ← getValue_eq_error_iff]
  cases (getValue k name s).result <;> simp [Except.map]

theorem declares_eq_ok_true_iff : (declares k name s).result = .ok true ↔
    ∃ value, (getValue k name s).result = .ok (some value) := by
  rw [result_declares]
  cases (getValue k name s).result with
  | error cause => simp [Except.map]
  | ok found => cases found <;> simp [Except.map]

/-- **The value that is got is that of the last line** of a file that declares the
name. -/
theorem getValue_eq_ok_some_iff : (getValue k name s).result = .ok (some value) ↔
    ∃ text line, s = .file text ∧
      IsLast (fun line => nameOnLine? k line = some name) (lines text) line ∧
      valueOnLine? k line = some value := by
  cases s with
  | file text =>
    rw [getValue_file_eq_some_iff, ← Option.map_eq_some_iff, map_value_get?_scan,
      lastValue?_eq_some_iff]
    simp
  | missing | directory | socket | danglingLink =>
    refine iff_of_false (fun h => by cases h) ?_
    rintro ⟨text, -, hs, -⟩
    cases hs

theorem declares_iff_exists_line : (declares k name s).result = .ok true ↔
    ∃ text, s = .file text ∧ ∃ line ∈ lines text, nameOnLine? k line = some name := by
  cases s with
  | file text =>
    rw [declares_file_iff, Option.isSome_iff_ne_none, ne_eq, Catalog.get?_eq_none_iff,
      Classical.not_not, Catalog.mem_keys_scan]
    simp
  | missing | directory | socket | danglingLink =>
    refine iff_of_false (fun h => by cases h) ?_
    rintro ⟨text, hs, -⟩
    cases hs

/-! ## Edits -/

/-- An addition leaves a file alone where the name is declared, and fails for want
of the anchor only. -/
theorem result_add_file (k : Kind) (name : String) (v : Value) (o : AddOptions) (text : Bytes) :
    ((add k name v o (.file text)).result = .ok false ↔
      ((Catalog.scan text).get? k name).isSome) ∧
    ∀ cause, (add k name v o (.file text)).result = .error cause →
      cause = .anchorNotFound o.anchor := by
  obtain ⟨c, hc⟩ := exists_course k name v o text
  cases c with
  | known =>
    obtain ⟨hsome, hresult, -⟩ := hc
    rw [hresult]
    exact ⟨iff_of_true rfl hsome, fun _ h => by cases h⟩
  | astray =>
    obtain ⟨hnone, -, hresult, -⟩ := hc
    rw [hresult, hnone]
    exact ⟨by simp, fun _ h => (Except.error.inj h).symm⟩
  | placed p =>
    obtain ⟨hnone, -, hresult, -⟩ := hc
    rw [hresult, hnone]
    exact ⟨by simp, fun _ h => by cases h⟩

/-- A removal of a name succeeds where it is declared, and does nothing
elsewhere. -/
theorem result_remove_file (k : Kind) (name : String) (text : Bytes) :
    (remove k name (.file text)).result =
      .ok ((Catalog.scan text).get? k name).isSome := by
  cases hd : (Catalog.scan text).get? k name with
  | none => exact (remove_file_of_eq_none hd).1
  | some d =>
    obtain ⟨p, rfl⟩ := Place.exists_of_get? hd
    exact (remove_of_get? hd p.liesIn).2

/-- An update fails only where it comes to an addition without an anchor. -/
theorem result_update_file (e : Editor) (v : Value) (o : UpdateOptions)
    (h : (e.update k name v o (.file text)).result = .error cause) :
    cause = .anchorNotFound e.settings.anchor := by
  cases hd : (Catalog.scan text).get? k name with
  | some d =>
    obtain ⟨p, -⟩ := Place.exists_of_get? hd
    rw [(p.update_file e v o).2] at h
    cases h
  | none =>
    cases hmissing : o.addMissing with
    | false =>
      rw [((update_file_of_get?_eq_none e v hd).2 hmissing).1] at h
      cases h
    | true =>
      have hadd : (e.update k name v o (.file text)).result =
          (add k name v { e.addOptions with raw := o.raw } (.file text)).result := by
        simp only [update, scanned, Snapshot.read, Storage.read, hd, hmissing, if_true,
          Outcome.result_after, add_file_eq]
      rw [hadd] at h
      exact (result_add_file k name v _ text).2 cause h

/-- **All operations agree on what is declared.** An inspection of any storage is
refused for one of the reasons, or tells whether a line declares the name, and the
value on the last line that does. An edit of any file takes the name to be declared
where an inspection says so, and none of those reasons keeps it from its work. -/
theorem operations_agree (k : Kind) (name : String) :
    (∀ s,
      (∀ cause, (declares k name s).result = .error cause ↔ Refuses k s cause) ∧
      (∀ cause, (getValue k name s).result = .error cause ↔ Refuses k s cause) ∧
      ((declares k name s).result = .ok true ↔
        ∃ value, (getValue k name s).result = .ok (some value)) ∧
      ((declares k name s).result = .ok true ↔
        ∃ text, s = .file text ∧ ∃ line ∈ lines text, nameOnLine? k line = some name) ∧
      ∀ value, (getValue k name s).result = .ok (some value) ↔
        ∃ text line, s = .file text ∧
          IsLast (fun line => nameOnLine? k line = some name) (lines text) line ∧
          valueOnLine? k line = some value) ∧
    ∀ text,
      (∀ v o, (declares k name (.file text)).result = .ok true ↔
        (add k name v o (.file text)).result = .ok false) ∧
      ((declares k name (.file text)).result = .ok true ↔
        (remove k name (.file text)).result = .ok true) ∧
      ((declares k name (.file text)).result ≠ .ok true →
        (remove k name (.file text)).result = .ok false ∧
        ∀ e v o, o.addMissing = false →
          (update e k name v o (.file text)).result = .ok false) ∧
      (∀ v o cause, (add k name v o (.file text)).result = .error cause →
        cause = .anchorNotFound o.anchor) ∧
      (∀ e v o cause, (update e k name v o (.file text)).result = .error cause →
        cause = .anchorNotFound e.settings.anchor) ∧
      ∀ cause, (remove k name (.file text)).result ≠ .error cause := by
  refine ⟨fun s => ⟨fun _ => declares_eq_error_iff, fun _ => getValue_eq_error_iff,
    declares_eq_ok_true_iff, declares_iff_exists_line, fun _ => getValue_eq_ok_some_iff⟩,
    fun text => ⟨fun v o => ?_, ?_, fun hno => ⟨?_, fun e v o hmissing => ?_⟩,
      fun v o => (result_add_file k name v o text).2, fun e v o _ => result_update_file e v o,
      fun cause => ?_⟩⟩
  · rw [declares_file_iff, (result_add_file k name v o text).1]
  · rw [declares_file_iff, result_remove_file, Except.ok.injEq]
  · rw [ne_eq, declares_file_iff, Bool.not_eq_true] at hno
    rw [result_remove_file, hno]
  · rw [ne_eq, declares_file_iff, Option.not_isSome_iff_eq_none] at hno
    exact ((update_file_of_get?_eq_none e v hno).2 hmissing).1
  · rw [result_remove_file]
    simp

/-- A kind of which a file has no declaration is refused to an inspection, and an
edit has nothing to do there. Of the other kind the last value counts. -/
theorem operations_agree_unknownKind :
    (declares .const "a" (.file (encode "$a = 1;\n$a = 2;"))).result =
        .error (.unknownKind "constant") ∧
      (declares .const "a" (.file (encode "$a = 1;\n$a = 2;"))).result ≠ .ok true ∧
      (remove .const "a" (.file (encode "$a = 1;\n$a = 2;"))).result = .ok false ∧
      (update ⟨.default⟩ .const "a" (.int 3) { addMissing := false }
        (.file (encode "$a = 1;\n$a = 2;"))).result = .ok false ∧
      (getValue .var "a" (.file (encode "$a = 1;\n$a = 2;"))).result = .ok (some "2") := by
  have hlines : lines (encode "$a = 1;\n$a = 2;") = [encode "$a = 1;", encode "$a = 2;"] := by
    decide +kernel
  have herror : (declares .const "a" (.file (encode "$a = 1;\n$a = 2;"))).result =
      .error (.unknownKind "constant") := by
    refine (((operations_agree .const "a").1 _).1 _).2 (Refuses.unknownKind ?_ ?_)
    · rw [hlines]
      exact ⟨_, List.mem_cons_self, .var, by decide +kernel⟩
    · rw [hlines, List.forall_mem_cons, List.forall_mem_singleton]
      decide +kernel
  have hno : (declares .const "a" (.file (encode "$a = 1;\n$a = 2;"))).result ≠ .ok true := by
    rw [herror]
    simp
  obtain ⟨hremove, hupdate⟩ := ((operations_agree .const "a").2 _).2.2.1 hno
  refine ⟨herror, hno, hremove, hupdate ⟨.default⟩ (.int 3) _ rfl, ?_⟩
  refine (((operations_agree .var "a").1 _).2.2.2.2 "2").2 ⟨_, encode "$a = 2;", rfl, ?_, ?_⟩
  · rw [hlines]
    exact ⟨[encode "$a = 1;"], [], rfl, by decide +kernel, List.forall_mem_nil _⟩
  · decide +kernel

end Editor

end SiteConfig
