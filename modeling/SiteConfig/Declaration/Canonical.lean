import SiteConfig.Kind
/-!
# Canonical form

The one spelling of a declaration that the library writes itself, when a
declaration is added or put into this form.
-/

namespace SiteConfig

namespace Declaration

/-- The declaration of `name` with the value text `value`. Neither is
checked or escaped. -/
def canonical (k : Kind) (name value : String) : String :=
  match k with
  | .const => "define( '" ++ name ++ "', " ++ value ++ " );"
  | .var => "$" ++ name ++ " = " ++ value ++ ";"

end Declaration

end SiteConfig
