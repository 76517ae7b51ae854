import SiteConfig.Kind
import SiteConfig.Settings
/-!
# Events

What an operation reports as it goes along: what it read, what it wrote,
and what it did or why it did nothing.
-/

namespace SiteConfig

/-- The weight of an event. -/
inductive Level where
  | debug
  | info
  | warn
deriving DecidableEq

/-- The name of a level. -/
def Level.name : Level → String
  | .debug => "DEBUG"
  | .info => "INFO"
  | .warn => "WARN"

/-- A report of an operation on a file. -/
inductive Event where
  /-- The file was read, and has this many declarations. -/
  | scanned (declarations : Nat)
  | alreadyDeclared (k : Kind) (name : String)
  /-- There was nothing to update, and adding was not asked for. -/
  | notAdded (k : Kind) (name : String)
  | nothingToRemove (k : Kind) (name : String)
  | anchorMissing (anchor : String)
  /-- The file has the contents it should have, and is not written. -/
  | unchanged
  /-- The file was written, and has this many bytes. -/
  | written (bytes : Nat)
  | added (k : Kind) (name : String) (placement : Placement)
  | updated (k : Kind) (name : String) (normalize : Bool)
  | removed (k : Kind) (name : String)
deriving DecidableEq

namespace Event

/-- A change to the file is news, an anchor that is missing is a warning,
and all else is detail. -/
def level : Event → Level
  | .written _ | .added .. | .updated .. | .removed .. => .info
  | .anchorMissing _ => .warn
  | _ => .debug

/-- An event in words, without what it is about. -/
def message : Event → String
  | .scanned _ => "scanned config file"
  | .alreadyDeclared .. => "declaration exists, not adding"
  | .notAdded .. => "declaration missing, not adding"
  | .nothingToRemove .. => "declaration missing, nothing to remove"
  | .anchorMissing _ => "anchor not found"
  | .unchanged => "content unchanged, skipping write"
  | .written _ => "config file written"
  | .added .. => "declaration added"
  | .updated .. => "declaration updated"
  | .removed .. => "declaration removed"

end Event

end SiteConfig
