/-!
# Version

The version of the library.
-/

namespace SiteConfig

/-- The version of the library. -/
def version : String := "0.1.0"

end SiteConfig
