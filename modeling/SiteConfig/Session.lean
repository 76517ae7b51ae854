import SiteConfig.Editor
import SiteConfig.Settings.Toml
/-!
# Sessions

A session works on one path. It holds what stands at the path, the editor
that is open on it, if one is, and the last snapshot, if it was taken.
Its steps open editors, use them, take and save snapshots, and replace
the storage as another program would.

A step that needs an editor is refused when none is open. Then it is
refused if it names a kind that there is not. Only then is the file read.
-/

namespace SiteConfig

/-- The state of a session. -/
structure Session where
  storage : Storage
  editor : Option Editor := none
  snapshot : Option Snapshot := none

namespace Session

/-- The path that errors and events speak of. -/
def path : String := "wp-config.php"

/-! ## Steps -/

/-- Where the settings of an editor come from. -/
inductive SettingsSource where
  /-- A TOML document. -/
  | toml (document : String)
  /-- The default settings with changes. -/
  | changes (c : Settings.Changes)

/-- The settings from a source, unless it is a document that gives none. -/
def SettingsSource.settings? : SettingsSource → Option Settings
  | .toml document => Settings.ofToml? document
  | .changes c => some (Settings.default.change c)

/-- The options a caller asks for: where they start from and what changes. -/
structure Request (Changes : Type) where
  /-- Whether they start from the defaults and not from the editor's. -/
  fromDefaults : Bool
  changes : Changes

/-- The options of an addition by an editor. -/
def addOptions (e : Editor) (r : Request AddOptions.Changes) : AddOptions :=
  (if r.fromDefaults then AddOptions.ofSettings .default else e.addOptions).change r.changes

/-- The options of an update by an editor. -/
def updateOptions (e : Editor) (r : Request UpdateOptions.Changes) : UpdateOptions :=
  (if r.fromDefaults then {} else e.updateOptions).change r.changes

/-- A step of a session. Kinds are given by name. -/
inductive Step where
  /-- Close the editor and open another. -/
  | attach (source : SettingsSource)
  /-- Replace the storage from outside. -/
  | replace (s : Storage)
  /-- Drop the snapshot and take another. -/
  | snapshot
  /-- Save the snapshot with new contents. -/
  | save (contents : Bytes)
  | declares (kind name : String)
  | getValue (kind name : String)
  | add (kind name : String) (v : Value) (r : Request AddOptions.Changes)
  | update (kind name : String) (v : Value) (r : Request UpdateOptions.Changes)
  | remove (kind name : String)
  /-- Scan the file; one that cannot be read declares nothing. -/
  | scan
  | settings
  | addOptions (r : Request AddOptions.Changes)
  | updateOptions (r : Request UpdateOptions.Changes)

/-- What a step answers. -/
inductive Reply where
  | nothing
  | flag (b : Bool)
  | value (text : Option String)
  | snapshot (snap : Snapshot)
  | catalog (c : Catalog)
  | settings (s : Settings)
  | addOptions (o : AddOptions)
  | updateOptions (o : UpdateOptions)

/-- Why a step is not done. -/
inductive Refusal where
  | notOpen
  | noSnapshot
  | badSettings
  | failed (e : EditError)

/-- An answer or a refusal, the session after it, and the events. -/
structure Answer where
  reply : Except Refusal Reply
  session : Session
  events : List Event := []

/-! ## Running steps -/

/-- An answer without an effect. -/
def reply (s : Session) (r : Except Refusal Reply) : Answer := ⟨r, s, []⟩

/-- The answer for the outcome of an operation on the storage. -/
def conclude {α : Type} (s : Session) (answer : α → Reply) (o : Outcome α) : Answer :=
  ⟨match o.result with
    | .ok a => .ok (answer a)
    | .error e => .error (.failed e),
    { s with storage := o.storage }, o.events⟩

/-- Goes on with the editor, if one is open. -/
def withEditor (s : Session) (next : Editor → Answer) : Answer :=
  match s.editor with
  | none => s.reply (.error .notOpen)
  | some e => next e

/-- Goes on with the editor and the kind of a name. -/
def withKind (s : Session) (kind : String) (next : Editor → Kind → Answer) : Answer :=
  s.withEditor fun e =>
    match Kind.parse? kind with
    | none => s.reply (.error (.failed (.unknownKind kind)))
    | some k => next e k

/-- Closes the editor and opens another. Settings that cannot be read are
reported before the storage is looked at. -/
def attach (s : Session) (source : SettingsSource) : Answer :=
  let closed := { s with editor := none }
  match source.settings? with
  | none => closed.reply (.error .badSettings)
  | some settings =>
    match Editor.attach settings s.storage with
    | .error e => closed.reply (.error (.failed e))
    | .ok e => reply { s with editor := some e } (.ok (.flag true))

/-- Drops the snapshot and takes another. -/
def takeSnapshot (s : Session) : Answer :=
  match Snapshot.read s.storage with
  | .error e => reply { s with snapshot := none } (.error (.failed e))
  | .ok snap => reply { s with snapshot := some snap } (.ok (.snapshot snap))

/-- The catalog of the storage, which is empty if there is nothing to read. -/
def catalog (s : Session) : Catalog :=
  match s.storage.read with
  | .ok contents => .scan contents
  | .error _ => .empty

/-- Does one step. -/
def step (s : Session) : Step → Answer
  | .attach source => s.attach source
  | .replace storage => reply { s with storage } (.ok .nothing)
  | .snapshot => s.takeSnapshot
  | .save contents =>
    match s.snapshot with
    | none => s.reply (.error .noSnapshot)
    | some snap => s.conclude .flag (snap.save contents s.storage)
  | .declares kind name => s.withKind kind fun _ k =>
    s.conclude .flag (Editor.declares k name s.storage)
  | .getValue kind name => s.withKind kind fun _ k =>
    s.conclude .value (Editor.getValue k name s.storage)
  | .add kind name v r => s.withKind kind fun e k =>
    s.conclude .flag (Editor.add k name v (addOptions e r) s.storage)
  | .update kind name v r => s.withKind kind fun e k =>
    s.conclude .flag (e.update k name v (updateOptions e r) s.storage)
  | .remove kind name => s.withKind kind fun _ k =>
    s.conclude .flag (Editor.remove k name s.storage)
  | .scan => s.withEditor fun _ => s.reply (.ok (.catalog s.catalog))
  | .settings => s.withEditor fun e => s.reply (.ok (.settings e.settings))
  | .addOptions r => s.withEditor fun e => s.reply (.ok (.addOptions (addOptions e r)))
  | .updateOptions r => s.withEditor fun e => s.reply (.ok (.updateOptions (updateOptions e r)))

/-- Does steps one after another, and gives the answer to each. -/
def run (s : Session) : List Step → List Answer
  | [] => []
  | step :: steps =>
    let answer := s.step step
    answer :: run answer.session steps

end Session

end SiteConfig
