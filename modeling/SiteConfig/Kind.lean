import SiteConfig.Text.Whitespace
/-!
# The two forms of declaration

A configuration file declares constants, by a call of `define`, and
variables, by an assignment. This module names the two forms.
-/

namespace SiteConfig

/-- The form of a declaration. -/
inductive Kind where
  /-- A constant, `define( 'NAME', value );`. -/
  | const
  /-- A variable, `$name = value;`. -/
  | var
deriving DecidableEq

namespace Kind

/-- Both kinds, in the order in which they are searched for. -/
def all : List Kind := [.const, .var]

/-- The name of a kind. -/
def name : Kind → String
  | .const => "constant"
  | .var => "variable"

/-- The kind of exactly this name. -/
def named? (s : String) : Option Kind := all.find? (·.name = s)

/-- Reads the name of a kind, in capitals or small letters of ASCII, with
white space around it or not. -/
def parse? (s : String) : Option Kind := named? (Text.trim s).toLower

/-- The place of a kind in `all`. -/
def index : Kind → Nat
  | .const => 0
  | .var => 1

theorem mem_all (k : Kind) : k ∈ all := by cases k <;> decide

/-- A kind is read back from its name. -/
theorem named?_name (k : Kind) : named? k.name = some k := by cases k <;> decide

end Kind

end SiteConfig
