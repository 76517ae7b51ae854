import SiteConfig.Decimal.Binary64
/-!
# Values

What a caller asks a declaration to hold: a scalar, a list, or a map whose
members keep the order in which they were given.
-/

namespace SiteConfig

/-- A value to be written into a declaration. -/
inductive Value where
  | null
  | bool (b : Bool)
  | int (n : Int)
  | float (x : Binary64)
  | string (s : String)
  | list (items : List Value)
  | map (members : List (String × Value))

end SiteConfig
