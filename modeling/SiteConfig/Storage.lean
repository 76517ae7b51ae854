import SiteConfig.Text.Bytes
/-!
# Storage

What may stand at the path of a configuration file, and what becomes of
opening, reading and writing it. Writing never creates a file: only one
that is there is replaced.

To write a file is to open it, to lock it, to cut it to nothing, to write
the new contents and to flush them. Here these are one step, which fails if
the file cannot be opened and not otherwise. Left out are the faults after
that: a lock that cannot be had, and a disk that is full or broken, which
leaves the file empty or cut short.
-/

namespace SiteConfig

/-- Why storage cannot be opened, read or written. -/
inductive Fault where
  | notFound
  | noDevice
  | isDirectory
deriving DecidableEq

namespace Fault

/-- The system's words for a fault, with its number. -/
def message : Fault → String
  | .notFound => "No such file or directory (os error 2)"
  | .noDevice => "No such device or address (os error 6)"
  | .isDirectory => "Is a directory (os error 21)"

end Fault

/-- What stands at a path. -/
inductive Storage where
  /-- A regular file. -/
  | file (contents : Bytes)
  /-- Nothing. -/
  | missing
  | directory
  /-- A socket, which cannot be opened. -/
  | socket
  /-- A symbolic link to nothing. -/
  | danglingLink
deriving DecidableEq

namespace Storage

/-- Whether there is anything at the path, at the end of links. -/
def isPresent : Storage → Bool
  | .missing | .danglingLink => false
  | _ => true

/-- Opening for reading; a directory can be opened. -/
def openForReading : Storage → Except Fault Unit
  | .file _ | .directory => .ok ()
  | .missing | .danglingLink => .error .notFound
  | .socket => .error .noDevice

/-- Opening for writing what is there. -/
def openForWriting : Storage → Except Fault Unit
  | .file _ => .ok ()
  | .missing | .danglingLink => .error .notFound
  | .directory => .error .isDirectory
  | .socket => .error .noDevice

/-- Reading all there is. -/
def read : Storage → Except Fault Bytes
  | .file contents => .ok contents
  | .missing | .danglingLink => .error .notFound
  | .directory => .error .isDirectory
  | .socket => .error .noDevice

/-- Writing `new` in place of all there is, in one step. -/
def write (new : Bytes) (s : Storage) : Except Fault Storage :=
  s.openForWriting.map fun _ => .file new

end Storage

end SiteConfig
