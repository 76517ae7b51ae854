import SiteConfig.Editor.Outcome
/-!
# Snapshots

A snapshot is what a file held when it was read. Saving writes new
contents unless they are those of the snapshot. It does not look at what
the file holds by then, so a change made to the file in between is
overwritten, or left alone if the snapshot is saved unchanged.

A save that fails has not touched the file, as only the opening can fail
here (see `Storage.write`).
-/

namespace SiteConfig

/-- The contents of a file when it was read. -/
structure Snapshot where
  contents : Bytes
deriving DecidableEq

namespace Snapshot

/-- Reads a file. One that is not there counts as empty. -/
def read (s : Storage) : Except EditError Snapshot :=
  match s.read with
  | .ok contents => .ok ⟨contents⟩
  | .error .notFound => .error .emptyFile
  | .error fault => .error (.readFailure fault)

/-- Whether the file was empty. -/
def isEmpty (snap : Snapshot) : Bool := snap.contents.isEmpty

/-- Writes `new` to storage unless it is what the snapshot holds. The result
says whether it was written. -/
def save (snap : Snapshot) (new : Bytes) (s : Storage) : Outcome Bool :=
  if new = snap.contents then .done false s [.unchanged]
  else match s.write new with
    | .ok s' => .done true s' [.written new.length]
    | .error fault => .failed (.writeFailure fault) s

end Snapshot

end SiteConfig
