import SiteConfig.Sample
import SiteConfig.Session
import SiteConfig.Settings.Value
import SiteConfig.Text.Utf8.RoundTrip
import SiteConfig.Version
import SiteConfig.Proofs.Grammar
import SiteConfig.Proofs.Reading
import SiteConfig.Proofs.Encoding
import SiteConfig.Proofs.TextGrammar
import SiteConfig.Proofs.Matching
import SiteConfig.Proofs.Recognition
import SiteConfig.Proofs.Passes
import SiteConfig.Proofs.Lookup
import SiteConfig.Proofs.Place
import SiteConfig.Proofs.Canonical
import SiteConfig.Proofs.Literal
import SiteConfig.Proofs.Update
import SiteConfig.Proofs.ReadBack
import SiteConfig.Proofs.Repetition
import SiteConfig.Proofs.Containment
import SiteConfig.Proofs.Spelling
import SiteConfig.Proofs.Concatenation
import SiteConfig.Proofs.Frame
import SiteConfig.Proofs.Marks
import SiteConfig.Proofs.Insertion
import SiteConfig.Proofs.Addition
import SiteConfig.Proofs.Succession
import SiteConfig.Proofs.Commutation
import SiteConfig.Proofs.Truthfulness
import SiteConfig.Proofs.Layout
import SiteConfig.Proofs.Boundaries
import SiteConfig.Proofs.Removal
import SiteConfig.Proofs.Respelling
import SiteConfig.Proofs.Splicing
import SiteConfig.Proofs.Reversal
import SiteConfig.Proofs.LineEndings
import SiteConfig.Proofs.Unambiguity
import SiteConfig.Proofs.Buckets
import SiteConfig.Proofs.Equality
import SiteConfig.Proofs.Inspection
import SiteConfig.Proofs.Reports
