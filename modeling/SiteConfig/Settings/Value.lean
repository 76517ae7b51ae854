import SiteConfig.Kind
import SiteConfig.Settings
import SiteConfig.Value
/-!
# Settings from values

Settings may come as a map, by name and in any order, or as a list, by
position and cut short anywhere. What is left out has its default. In a
map, other names are ignored, but a setting of the wrong sort spoils all.

Where one of several names is asked for, it is given as a string or as a
map with the name for its only key and null under it.
-/

namespace SiteConfig

/-- The name that a value gives. -/
def Value.choice? : Value → Option String
  | .string s => some s
  | .map [(name, .null)] => some name
  | _ => none

/-- The kind that a value names. -/
def Kind.ofValue? (v : Value) : Option Kind := v.choice?.bind Kind.named?

/-- The placement that a value names. -/
def Placement.ofValue? (v : Value) : Option Placement := v.choice?.bind Placement.named?

namespace Settings

/-- A string. -/
def string? : Value → Option String
  | .string s => some s
  | _ => none

/-- A truth value. -/
def bool? : Value → Option Bool
  | .bool b => some b
  | _ => none

/-- A setting that may be left out. -/
def given? {α : Type} (of? : Value → Option α) (default : α) : Option Value → Option α
  | none => some default
  | some v => of? v

/-- The settings made of these values. -/
def ofFields? (anchor separator placement normalize : Option Value) : Option Settings := do
  let anchor ← given? string? default.anchor anchor
  let separator ← given? string? default.separator separator
  let placement ← given? Placement.ofValue? default.placement placement
  let normalize ← given? bool? default.normalize normalize
  pure { anchor, separator, placement, normalize }

/-- The settings that a value gives. -/
def ofValue? : Value → Option Settings
  | .map members =>
    let get (name : String) := (members.find? (·.1 = name)).map (·.2)
    ofFields? (get "anchor") (get "separator") (get "placement") (get "normalize")
  | .list items =>
    if items.length ≤ 4 then ofFields? items[0]? items[1]? items[2]? items[3]? else none
  | _ => none

end Settings

end SiteConfig
