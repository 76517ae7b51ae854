/-!
# A sample file

A typical configuration file as it is first generated, for demonstrations
and trials.
-/

namespace SiteConfig

namespace Sample

/-- The line with the anchor, above which a site's own declarations go. -/
def anchorLine : String := "/* That's all, stop editing! Happy publishing. */"

/-- The lines of the sample file. -/
def lines : List String := [
  "<?php",
  "/**",
  " * The base configuration for WordPress",
  " */",
  "",
  "// ** Database settings ** //",
  "define( 'DB_NAME', 'wordpress' );",
  "define( 'DB_USER', 'root' );",
  "define( 'DB_PASSWORD', 'secret' );",
  "define( 'DB_HOST', 'localhost' );",
  "define( 'DB_CHARSET', 'utf8mb4' );",
  "",
  "$table_prefix = 'wp_';",
  "",
  "define( 'WP_DEBUG', false );",
  "",
  "/* Add any custom values between this line and the \"stop editing\" line. */",
  "",
  anchorLine,
  "",
  "/** Absolute path to the WordPress directory. */",
  "if ( ! defined( 'ABSPATH' ) ) \x7b",
  "\tdefine( 'ABSPATH', __DIR__ . '/' );",
  "\x7d",
  "",
  "require_once ABSPATH . 'wp-settings.php';"]

/-- The sample file. Every line ends in a line feed. -/
def text : String := String.join (lines.map (· ++ "\n"))

end Sample

end SiteConfig
