import SiteConfig.Storage
/-!
# Errors

Why an editor could not be opened on a file, or could not do as it was
told.
-/

namespace SiteConfig

/-- The cause of a failed operation. -/
inductive EditError where
  /-- There is nothing at the path to open an editor on. -/
  | pathMissing
  | notReadable (fault : Fault)
  | notWritable (fault : Fault)
  /-- The file is empty, or no longer there. -/
  | emptyFile
  | noDeclarations
  /-- The file has no declaration of the kind, or there is no such kind. -/
  | unknownKind (name : String)
  | anchorNotFound (anchor : String)
  | readFailure (fault : Fault)
  | writeFailure (fault : Fault)
deriving DecidableEq

namespace EditError

/-- An error in words, for a file at `path`. -/
def message (path : String) : EditError → String
  | .pathMissing => "config file does not exist: " ++ path
  | .notReadable fault => "config file is not readable: " ++ path ++ ": " ++ fault.message
  | .notWritable fault => "config file is not writable: " ++ path ++ ": " ++ fault.message
  | .emptyFile => "config file is empty: " ++ path
  | .noDeclarations => "no constants or variables found in " ++ path
  | .unknownKind name => "unknown declaration kind: '" ++ name ++ "'"
  | .anchorNotFound anchor => "anchor not found: '" ++ anchor ++ "'"
  | .readFailure fault => "io error reading " ++ path ++ ": " ++ fault.message
  | .writeFailure fault => "io error writing " ++ path ++ ": " ++ fault.message

/-- Whether the error is one of opening an editor. -/
def isOpening : EditError → Bool
  | .pathMissing | .notReadable _ | .notWritable _ => true
  | _ => false

end EditError

end SiteConfig
