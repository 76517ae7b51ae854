import SiteConfig.Session
import SiteConfig.Proofs.Update
/-!
# Results that tell of the storage

An edit reports a change exactly where the bytes of a file are different
after it, and leaves the storage as it was otherwise (`Truthful`). What makes
an edit truthful is that it saves to the storage from which it read. A
snapshot that is older may be saved over what the file holds by then, or be
left unsaved because it is saved as it was read (`Saves`).

A session has many steps, and the storage may be replaced between any two of
them. Its log has every step with the session before it, and accounts for
what happens to the storage (`Session.accounts_of_log`).
-/

namespace SiteConfig

open Bytes

/-! ## Changes to a file -/

namespace Storage

/-- The bytes of a file, and nothing for other storage. -/
def contents? : Storage → Option Bytes
  | .file contents => some contents
  | _ => none

/-- A file before and after, with different bytes. -/
def Changed (s s' : Storage) : Prop := ∃ old new, s = .file old ∧ s' = .file new ∧ new ≠ old

theorem not_changed_self (s : Storage) : ¬ s.Changed s := by
  rintro ⟨old, new, rfl, h, hne⟩
  exact hne (Storage.file.inj h).symm

/-- Only a file is read. -/
theorem read_eq_ok_iff {s : Storage} {contents : Bytes} :
    s.read = .ok contents ↔ s = .file contents := by
  cases s <;> simp [read]

end Storage

/-- A change is reported exactly where there is one. Where none is reported,
the storage is as it was. -/
structure Truthful (s : Storage) (o : Outcome Bool) : Prop where
  result_iff : o.result = .ok true ↔ s.Changed o.storage
  storage_eq : o.result ≠ .ok true → o.storage = s

namespace Truthful

variable {s : Storage} {o : Outcome Bool} {e : Event}

theorem done (events : List Event) : Truthful s (.done false s events) :=
  ⟨iff_of_false (by simp [Outcome.done]) s.not_changed_self, fun _ => rfl⟩

theorem failed (cause : EditError) (events : List Event) : Truthful s (.failed cause s events) :=
  ⟨iff_of_false (by simp [Outcome.failed]) s.not_changed_self, fun _ => rfl⟩

/-- Events make no difference. -/
theorem after (h : Truthful s o) : Truthful s (o.after e) := ⟨h.result_iff, h.storage_eq⟩

theorem announce (h : Truthful s o) : Truthful s (o.announce e) := by
  constructor
  · rw [Outcome.result_announce, Outcome.storage_announce, h.result_iff]
  · rw [Outcome.result_announce, Outcome.storage_announce]
    exact h.storage_eq

end Truthful

namespace Snapshot

variable {s : Storage} {snap : Snapshot}

/-- A snapshot holds what was read from a file. -/
theorem read_eq_ok_iff : read s = .ok snap ↔ s = .file snap.contents := by
  cases snap with
  | mk contents => cases s <;> simp [read, Storage.read]

/-- **Saving to the file that was read is truthful.** -/
theorem truthful_save (h : read s = .ok snap) (new : Bytes) : Truthful s (snap.save new s) := by
  obtain rfl := read_eq_ok_iff.1 h
  constructor
  · rw [result_save, storage_save]
    simp [Storage.Changed]
  · rw [result_save, storage_save]
    simp

end Snapshot

/-! ## Edits -/

namespace Editor

variable {k : Kind} {name : String} {s : Storage}

/-- What goes on from a scan of the file is truthful if it is for every snapshot
that may have been read. -/
theorem truthful_scanned {next : Snapshot → Catalog → Outcome Bool}
    (h : ∀ snap, Snapshot.read s = .ok snap → Truthful s (next snap (.scan snap.contents))) :
    Truthful s (scanned s next) := by
  unfold scanned
  cases hread : Snapshot.read s with
  | error cause => exact .failed cause []
  | ok snap => exact (h snap hread).after

theorem truthful_addTo {snap : Snapshot} (h : Snapshot.read s = .ok snap) (c : Catalog) (v : Value)
    (o : AddOptions) : Truthful s (addTo snap c k name v o s) := by
  unfold addTo
  split
  · exact .done _
  · split
    · exact .failed _ _
    · exact (Snapshot.truthful_save h _).announce

theorem truthful_add (v : Value) (o : AddOptions) : Truthful s (add k name v o s) :=
  truthful_scanned fun _ hread => truthful_addTo hread _ v o

theorem truthful_update (e : Editor) (v : Value) (o : UpdateOptions) :
    Truthful s (e.update k name v o s) := by
  refine truthful_scanned fun snap hread => ?_
  split
  · split
    · exact truthful_addTo hread _ v _
    · exact .done _
  · exact (Snapshot.truthful_save hread _).announce

theorem truthful_remove : Truthful s (remove k name s) := by
  refine truthful_scanned fun snap hread => ?_
  split
  · exact .done _
  · exact (Snapshot.truthful_save hread _).announce

/-- What only looks at the file leaves the storage as it is. -/
theorem storage_scanned {α : Type} {next : Snapshot → Catalog → Outcome α}
    (h : ∀ snap c, (next snap c).storage = s) : (scanned s next).storage = s := by
  unfold scanned
  split
  · rfl
  · exact h _ _

theorem storage_declares : (declares k name s).storage = s := storage_scanned fun _ _ => rfl

theorem storage_getValue : (getValue k name s).storage = s := storage_scanned fun _ _ => rfl

end Editor

/-! ## Saving a snapshot later on -/

/-- How a snapshot of `read` is saved with `contents`, to storage that may be
any by then. Nothing is done if these are the bytes that were read. Otherwise a
file gets them, and other storage refuses them. -/
structure Saves (read contents : Bytes) (s : Storage) (o : Outcome Bool) : Prop where
  unchanged_iff : o.result = .ok false ∧ o.storage = s ↔ contents = read
  written : contents ≠ read → ∀ old, s = .file old →
    o.result = .ok true ∧ o.storage = .file contents
  refused : contents ≠ read → (∀ old, s ≠ .file old) →
    (∃ fault, o.result = .error (.writeFailure fault)) ∧ o.storage = s

theorem Snapshot.saves (read contents : Bytes) (s : Storage) :
    Saves read contents s (save ⟨read⟩ contents s) := by
  by_cases h : contents = read
  · subst h
    exact ⟨by simp [save, Outcome.done], fun hne => absurd rfl hne, fun hne => absurd rfl hne⟩
  · cases s with
    | file old =>
      have hsave : save ⟨read⟩ contents (.file old) =
        .done true (.file contents) [.written contents.length] := if_neg h
      rw [hsave]
      exact ⟨iff_of_false (by simp [Outcome.done]) h, fun _ _ _ => ⟨rfl, rfl⟩,
        fun _ hno => absurd rfl (hno old)⟩
    | missing | directory | socket | danglingLink =>
      refine ⟨iff_of_false ?_ h, fun _ _ hfile => (by cases hfile), fun _ _ => ?_⟩
      · rw [save, if_neg h]
        rintro ⟨hresult, -⟩
        cases hresult
      · rw [save, if_neg h]
        exact ⟨⟨_, rfl⟩, rfl⟩

/-! ## The log of a session -/

namespace Session

/-- A step of a session, with the session before it. -/
structure Entry where
  before : Session
  step : Step
  answer : Answer

/-- The steps of a run with the sessions before them. -/
def log (s : Session) : List Step → List Entry
  | [] => []
  | step :: steps => ⟨s, step, s.step step⟩ :: log (s.step step).session steps

/-- The log has the answers of the run. -/
theorem map_answer_log (s : Session) (steps : List Step) :
    (s.log steps).map (·.answer) = s.run steps := by
  induction steps generalizing s with
  | nil => rfl
  | cons step steps ih => rw [log, List.map_cons, ih, run]

namespace Step

/-- Whether a step takes a snapshot, or tries to. -/
def takesSnapshot : Step → Bool
  | .snapshot => true
  | _ => false

/-- Whether a step is to change the file. -/
def isEdit : Step → Bool
  | .add .. | .update .. | .remove .. => true
  | _ => false

/-- Whether a step is to leave the storage as it is: it opens an editor, asks
something, or takes a snapshot. -/
def isInspection : Step → Bool
  | .replace _ | .save _ => false
  | step => !step.isEdit

end Step

variable {s : Session} {step : Step} {earlier : List Entry}

/-! ### One step -/

theorem reply_conclude_eq_ok_iff {o : Outcome Bool} {b : Bool} :
    (s.conclude .flag o).reply = .ok (.flag b) ↔ o.result = .ok b := by
  unfold conclude
  cases o.result <;> simp

/-- A step that needs an editor and a kind is refused, or goes on with them. -/
theorem withKind_cases {P : Answer → Prop} {kind : String} {next : Editor → Kind → Answer}
    (hrefused : ∀ cause, P (s.reply (.error cause))) (hnext : ∀ e k, P (next e k)) :
    P (s.withKind kind next) := by
  unfold withKind withEditor
  split
  · exact hrefused _
  · split
    · exact hrefused _
    · exact hnext _ _

theorem withEditor_cases {P : Answer → Prop} {next : Editor → Answer}
    (hrefused : ∀ cause, P (s.reply (.error cause))) (hnext : ∀ e, P (next e)) :
    P (s.withEditor next) := by
  unfold withEditor
  split
  · exact hrefused _
  · exact hnext _

/-- An answer that reports a change exactly where there is one. -/
def TellsOf (s : Session) (a : Answer) : Prop :=
  (a.reply = .ok (.flag true) ↔ s.storage.Changed a.session.storage) ∧
    (a.reply ≠ .ok (.flag true) → a.session.storage = s.storage)

theorem tellsOf_reply_error (cause : Refusal) : s.TellsOf (s.reply (.error cause)) :=
  ⟨iff_of_false (by simp [reply]) s.storage.not_changed_self, fun _ => rfl⟩

theorem tellsOf_conclude {o : Outcome Bool} (h : Truthful s.storage o) :
    s.TellsOf (s.conclude .flag o) := by
  refine ⟨reply_conclude_eq_ok_iff.trans h.result_iff, fun hreply => ?_⟩
  exact h.storage_eq (mt reply_conclude_eq_ok_iff.2 hreply)

/-- **An edit tells of the storage.** -/
theorem tellsOf_step (h : step.isEdit) : s.TellsOf (s.step step) := by
  cases step with
  | add kind name v r =>
    exact withKind_cases tellsOf_reply_error fun _ _ => tellsOf_conclude (Editor.truthful_add v _)
  | update kind name v r =>
    exact withKind_cases tellsOf_reply_error fun e _ =>
      tellsOf_conclude (Editor.truthful_update e v _)
  | remove kind name =>
    exact withKind_cases tellsOf_reply_error fun _ _ => tellsOf_conclude Editor.truthful_remove
  | _ => cases h

/-- **An inspection leaves the storage as it is.** -/
theorem storage_step (h : step.isInspection) : (s.step step).session.storage = s.storage := by
  have hsame : ∀ cause, (s.reply (.error cause)).session.storage = s.storage := fun _ => rfl
  cases step with
  | attach source =>
    simp only [Session.step, attach]
    split
    · rfl
    · split <;> rfl
  | snapshot =>
    simp only [Session.step, takeSnapshot]
    split <;> rfl
  | declares kind name =>
    exact withKind_cases (P := fun a => a.session.storage = s.storage) hsame fun _ _ =>
      Editor.storage_declares
  | getValue kind name =>
    exact withKind_cases (P := fun a => a.session.storage = s.storage) hsame fun _ _ =>
      Editor.storage_getValue
  | scan | settings | addOptions | updateOptions =>
    exact withEditor_cases (P := fun a => a.session.storage = s.storage) hsame fun _ => rfl
  | _ => cases h

/-- A snapshot that is held is saved. -/
theorem step_save {snap : Snapshot} (h : s.snapshot = some snap) (contents : Bytes) :
    s.step (.save contents) = s.conclude .flag (snap.save contents s.storage) := by
  simp only [Session.step, h]

theorem step_save_of_none (h : s.snapshot = none) (contents : Bytes) :
    s.step (.save contents) = s.reply (.error .noSnapshot) := by
  simp only [Session.step, h]

/-- An answer to a save that fails comes with the storage as it was. -/
theorem storage_of_conclude_error {o : Outcome Bool} {read contents : Bytes} {cause : Refusal}
    (h : Saves read contents s.storage o) (hreply : (s.conclude .flag o).reply = .error cause) :
    (s.conclude .flag o).session.storage = s.storage := by
  by_cases hc : contents = read
  · exact (h.unchanged_iff.2 hc).2
  · cases hs : s.storage with
    | file old =>
      have hok : (s.conclude .flag o).reply = .ok (.flag true) :=
        reply_conclude_eq_ok_iff.2 (h.written hc old hs).1
      rw [hok] at hreply
      cases hreply
    | missing | directory | socket | danglingLink =>
      exact ((h.refused hc fun old => by simp [hs]).2).trans hs

/-- **A step that fails leaves the storage as it is.** -/
theorem storage_step_of_error {cause : Refusal} (h : (s.step step).reply = .error cause) :
    (s.step step).session.storage = s.storage := by
  -- a step is an inspection, a replacement, a save or an edit
  cases step with
  | replace => cases h
  | save contents =>
    cases hsnap : s.snapshot with
    | none =>
      rw [step_save_of_none hsnap]
      rfl
    | some snap =>
      rw [step_save hsnap] at h ⊢
      exact storage_of_conclude_error (Snapshot.saves snap.contents contents s.storage) h
  | add | update | remove =>
    refine (tellsOf_step rfl).2 ?_
    rw [h]
    simp
  | _ => exact storage_step rfl

/-- The snapshot after a step is the one before it, or the one that the step
takes. -/
theorem snapshot_step : (s.step step).session.snapshot =
    if step.takesSnapshot then s.storage.contents?.map Snapshot.mk else s.snapshot := by
  have hsame : ∀ cause, (s.reply (.error cause)).session.snapshot = s.snapshot := fun _ => rfl
  cases step with
  | attach source =>
    simp only [Session.step, attach]
    split
    · rfl
    · split <;> rfl
  | snapshot =>
    simp only [Session.step, takeSnapshot, Snapshot.read]
    cases s.storage <;> rfl
  | save contents =>
    simp only [Session.step]
    split <;> rfl
  | replace => rfl
  | scan | settings | addOptions | updateOptions =>
    exact withEditor_cases (P := fun a => a.session.snapshot = s.snapshot) hsame fun _ => rfl
  | _ => exact withKind_cases (P := fun a => a.session.snapshot = s.snapshot) hsame fun _ _ => rfl

/-! ### A whole run -/

/-- What was read when a snapshot was last taken, unless that failed. -/
def lastRead (earlier : List Entry) : Option Bytes :=
  (earlier.reverse.find? (·.step.takesSnapshot)).bind (·.before.storage.contents?)

theorem lastRead_concat (e : Entry) : lastRead (earlier ++ [e]) =
    if e.step.takesSnapshot then e.before.storage.contents? else lastRead earlier := by
  rw [lastRead, List.reverse_concat, List.find?_cons]
  split <;> simp_all [lastRead]

/-- The answers of a log are those of its steps. -/
theorem answer_of_mem_log {steps : List Step} {e : Entry} (h : e ∈ s.log steps) :
    e.answer = e.before.step e.step := by
  induction steps generalizing s with
  | nil => cases h
  | cons step steps ih =>
    rcases List.mem_cons.1 h with rfl | h
    · rfl
    · exact ih h

/-- **A session holds what was last read**, at each step of a run. -/
theorem snapshot_of_log {steps : List Step} {before later : List Entry} {e : Entry}
    (h : s.snapshot = (lastRead earlier).map Snapshot.mk)
    (hlog : s.log steps = before ++ e :: later) :
    e.before.snapshot = (lastRead (earlier ++ before)).map Snapshot.mk := by
  induction steps generalizing s earlier before with
  | nil => simp [log] at hlog
  | cons step steps ih =>
    cases before with
    | nil =>
      obtain ⟨rfl, -⟩ := List.cons.inj hlog
      rw [List.append_nil]
      exact h
    | cons e₀ before =>
      rw [log, List.cons_append, List.cons.injEq] at hlog
      obtain ⟨rfl, hrest⟩ := hlog
      rw [List.append_cons]
      refine ih ?_ hrest
      rw [snapshot_step, lastRead_concat, h]
      split <;> rfl

/-- A snapshot that a step answers with holds the bytes of the file. -/
theorem storage_of_reply_snapshot {snap : Snapshot} (h : step.takesSnapshot)
    (hreply : (s.step step).reply = .ok (.snapshot snap)) : s.storage = .file snap.contents := by
  cases step with
  | snapshot =>
    simp only [Session.step, takeSnapshot] at hreply
    cases hread : Snapshot.read s.storage with
    | error cause => simp [hread, reply] at hreply
    | ok found =>
      simp only [hread, reply, Except.ok.injEq, Reply.snapshot.injEq] at hreply
      exact hreply ▸ Snapshot.read_eq_ok_iff.1 hread
  | _ => cases h

/-- What a log says of a step after the earlier ones. -/
structure Accounts (earlier : List Entry) (e : Entry) : Prop where
  /-- A step that fails leaves the storage as it was. -/
  failed : ∀ cause, e.answer.reply = .error cause → e.answer.session.storage = e.before.storage
  inspected : e.step.isInspection → e.answer.session.storage = e.before.storage
  replaced : ∀ s, e.step = .replace s → e.answer.session.storage = s
  /-- An edit reports a change exactly where there is one. -/
  edited : e.step.isEdit → e.before.TellsOf e.answer
  /-- A snapshot is saved by what was read when it was taken. -/
  saved : ∀ contents, e.step = .save contents → ∀ read, lastRead earlier = some read →
    ∃ o, e.answer = e.before.conclude .flag o ∧ Saves read contents e.before.storage o
  unsaved : ∀ contents, e.step = .save contents → lastRead earlier = none →
    e.answer = e.before.reply (.error .noSnapshot)
  /-- Any snapshot that was taken before would be saved so, also one that was
  dropped since. -/
  recalled : ∀ e' ∈ earlier, e'.step.takesSnapshot →
    ∀ snap, e'.answer.reply = .ok (.snapshot snap) → e'.before.storage = .file snap.contents ∧
      ∀ contents, Saves snap.contents contents e.before.storage
        (snap.save contents e.before.storage)

/-- **A session accounts for its storage**, in a run of any length. -/
theorem accounts_of_log (storage : Storage) (steps : List Step) :
    (Session.log { storage } steps).map (·.answer) = Session.run { storage } steps ∧
      ∀ earlier e later, Session.log { storage } steps = earlier ++ e :: later →
        Accounts earlier e := by
  refine ⟨map_answer_log _ steps, fun earlier e later hlog => ?_⟩
  have hmem : ∀ e' ∈ earlier, e'.answer = e'.before.step e'.step := fun e' he' =>
    answer_of_mem_log (hlog ▸ List.mem_append_left _ he')
  have hanswer : e.answer = e.before.step e.step :=
    answer_of_mem_log (hlog ▸ List.mem_append_right _ List.mem_cons_self)
  have hheld : e.before.snapshot = (lastRead ([] ++ earlier)).map Snapshot.mk :=
    snapshot_of_log rfl hlog
  rw [List.nil_append] at hheld
  constructor
  · intro cause hreply
    rw [hanswer] at hreply ⊢
    exact storage_step_of_error hreply
  · exact fun h => hanswer ▸ storage_step h
  · intro s hstep
    rw [hanswer, hstep]
    rfl
  · exact fun h => hanswer ▸ tellsOf_step h
  · intro contents hstep read hread
    rw [hread, Option.map_some] at hheld
    rw [hanswer, hstep, step_save hheld]
    exact ⟨_, rfl, Snapshot.saves read contents e.before.storage⟩
  · intro contents hstep hread
    rw [hread, Option.map_none] at hheld
    rw [hanswer, hstep, step_save_of_none hheld]
  · intro e' he' hsnapshot snap hreply
    rw [hmem e' he'] at hreply
    exact ⟨storage_of_reply_snapshot hsnapshot hreply, fun _ => Snapshot.saves _ _ _⟩

/-- A snapshot that is saved as it was read is left unsaved, though its file is
gone by then. -/
theorem accounts_of_log_gone : ∃ earlier e,
    Session.log { storage := .file (encode "<?php") }
      [.snapshot, .replace .missing, .save (encode "<?php")] = earlier ++ [e] ∧
      lastRead earlier = some (encode "<?php") ∧
      e.answer.reply = .ok (.flag false) ∧ e.answer.session.storage = .missing := by
  refine ⟨[_, _], _, rfl, rfl, ?_⟩
  have haccounts := (accounts_of_log (.file (encode "<?php"))
    [.snapshot, .replace .missing, .save (encode "<?php")]).2 [_, _] _ [] rfl
  obtain ⟨o, ho, hsaves⟩ := haccounts.saved (encode "<?php") rfl (encode "<?php") rfl
  obtain ⟨hresult, hstorage⟩ := hsaves.unchanged_iff.2 rfl
  rw [ho]
  exact ⟨reply_conclude_eq_ok_iff.2 hresult, hstorage⟩

end Session

end SiteConfig
