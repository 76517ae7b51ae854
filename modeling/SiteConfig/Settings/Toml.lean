import SiteConfig.Settings
import SiteConfig.Toml.Document
/-!
# Settings from TOML

A document gives settings by their names, `anchor`, `separator`,
`placement` and `normalize`. One that is left out has its default, and
other keys are ignored, but a setting of the wrong sort spoils all.
-/

namespace SiteConfig

namespace Settings

open Toml

/-- The setting of a name, or its default. -/
def field? {α : Type} (ms : Members) (name : String) (of? : Node → Option α) (default : α) :
    Option α :=
  match Members.get? name ms with
  | none => some default
  | some n => of? n

/-- A string of a document. -/
def textOf? : Node → Option String
  | .text s => some s
  | _ => none

/-- A truth value of a document. -/
def flagOf? : Node → Option Bool
  | .flag b => some b
  | _ => none

/-- Whether an item is a table or an array with nothing in it. -/
def isVoid : Node → Bool
  | .table _ [] => true
  | .array [] => true
  | _ => false

/-- A placement is given by its name, or by a table with its name for the only
key and nothing in it. -/
def placementOf? : Node → Option Placement
  | .text s => Placement.named? s
  | .table _ [(name, n)] => if isVoid n then Placement.named? name else none
  | _ => none

/-- The settings that a table gives. -/
def ofMembers? (ms : Members) : Option Settings := do
  let anchor ← field? ms "anchor" textOf? default.anchor
  let separator ← field? ms "separator" textOf? default.separator
  let placement ← field? ms "placement" placementOf? default.placement
  let normalize ← field? ms "normalize" flagOf? default.normalize
  pure { anchor, separator, placement, normalize }

/-- The settings that a document gives. -/
def ofToml? (document : String) : Option Settings :=
  (Toml.parse? document).bind fun t => ofMembers? t.members

end Settings

end SiteConfig
