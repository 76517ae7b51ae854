/-!
# Settings and options

What an editor is told once, and what each addition and each update is
told. The options of a call start from the editor's settings or from the
defaults, and a caller may change any of them.
-/

namespace SiteConfig

/-- Where a new declaration goes. -/
inductive Placement where
  /-- The declaration, the separator, the anchor. -/
  | before
  /-- The anchor, the separator, the declaration. -/
  | after
deriving DecidableEq

namespace Placement

/-- The name of a placement. -/
def name : Placement → String
  | .before => "before"
  | .after => "after"

/-- The placement of exactly this name. -/
def named? (s : String) : Option Placement := [before, after].find? (·.name = s)

/-- A placement is read back from its name. -/
theorem named?_name (p : Placement) : named? p.name = some p := by cases p <;> decide

end Placement

/-! ## Settings -/

/-- The settings of an editor. -/
structure Settings where
  /-- The text that marks where declarations are added. -/
  anchor : String := "/* That's all, stop editing!"
  /-- The text between an added declaration and the anchor. -/
  separator : String := "\n\n"
  placement : Placement := .before
  /-- Whether an update puts the whole declaration into canonical form. -/
  normalize : Bool := false
deriving DecidableEq

namespace Settings

/-- The settings of an editor that is told nothing. -/
def default : Settings := {}

/-- Settings to be changed; a field left out stays as it is. -/
structure Changes where
  anchor : Option String := none
  separator : Option String := none
  placement : Option Placement := none
  normalize : Option Bool := none

/-- Settings with changes made to them. -/
def change (s : Settings) (c : Changes) : Settings :=
  { anchor := c.anchor.getD s.anchor
    separator := c.separator.getD s.separator
    placement := c.placement.getD s.placement
    normalize := c.normalize.getD s.normalize }

end Settings

/-! ## Options of an addition -/

/-- The options of an addition. -/
structure AddOptions where
  /-- Whether a string is written as it is and not as a literal. -/
  raw : Bool
  anchor : String
  placement : Placement
  separator : String
deriving DecidableEq

namespace AddOptions

/-- The options that go with settings. -/
def ofSettings (s : Settings) : AddOptions := ⟨false, s.anchor, s.placement, s.separator⟩

/-- Options to be changed; a field left out stays as it is. -/
structure Changes where
  raw : Option Bool := none
  anchor : Option String := none
  placement : Option Placement := none
  separator : Option String := none

/-- Options with changes made to them. -/
def change (o : AddOptions) (c : Changes) : AddOptions :=
  { raw := c.raw.getD o.raw
    anchor := c.anchor.getD o.anchor
    placement := c.placement.getD o.placement
    separator := c.separator.getD o.separator }

end AddOptions

/-! ## Options of an update -/

/-- The options of an update. -/
structure UpdateOptions where
  /-- Whether a string is written as it is and not as a literal. -/
  raw : Bool := false
  /-- Whether the whole declaration is put into canonical form. -/
  normalize : Bool := false
  /-- Whether a declaration that is missing is added. -/
  addMissing : Bool := true
deriving DecidableEq

namespace UpdateOptions

/-- The options that go with settings. -/
def ofSettings (s : Settings) : UpdateOptions := { normalize := s.normalize }

/-- Options to be changed; a field left out stays as it is. -/
structure Changes where
  raw : Option Bool := none
  normalize : Option Bool := none
  addMissing : Option Bool := none

/-- Options with changes made to them. -/
def change (o : UpdateOptions) (c : Changes) : UpdateOptions :=
  { raw := c.raw.getD o.raw
    normalize := c.normalize.getD o.normalize
    addMissing := c.addMissing.getD o.addMissing }

end UpdateOptions

end SiteConfig
