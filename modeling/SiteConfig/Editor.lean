import SiteConfig.Catalog
import SiteConfig.Declaration.Canonical
import SiteConfig.Editor.Snapshot
import SiteConfig.Text.Lines
import SiteConfig.Text.Search
import SiteConfig.Value.Literal
/-!
# Editing a configuration file

An editor inspects, adds, updates and removes declarations in one file.
Each operation reads the file anew and scans it, so it sees what others
have written in the meantime. It changes only the bytes at the spans of
the scan, or at the anchor, and writes the file only if that changes its
contents.

To inspect a file that declares nothing, or nothing of the kind asked for,
is an error. To change one is not.
-/

namespace SiteConfig

/-- An editor of a configuration file. -/
structure Editor where
  settings : Settings

namespace Editor

/-- An editor of what is in storage, which must be there and open for reading
and writing. -/
def attach (settings : Settings) (s : Storage) : Except EditError Editor :=
  if s.isPresent then
    match s.openForReading, s.openForWriting with
    | .error fault, _ => .error (.notReadable fault)
    | .ok _, .error fault => .error (.notWritable fault)
    | .ok _, .ok _ => .ok ⟨settings⟩
  else .error .pathMissing

/-- The options with which this editor adds. -/
def addOptions (e : Editor) : AddOptions := .ofSettings e.settings

/-- The options with which this editor updates. -/
def updateOptions (e : Editor) : UpdateOptions := .ofSettings e.settings

/-- Reads and scans the file, reports that, and goes on from there. -/
def scanned {α : Type} (s : Storage) (next : Snapshot → Catalog → Outcome α) : Outcome α :=
  match Snapshot.read s with
  | .error e => .failed e s
  | .ok snap =>
    let c := Catalog.scan snap.contents
    (next snap c).after (.scanned c.size)

/-! ## Inspection -/

/-- The declaration of a kind and name in a file that was read. -/
def find (snap : Snapshot) (c : Catalog) (k : Kind) (name : String) :
    Except EditError (Option Declaration) :=
  if snap.isEmpty then .error .emptyFile
  else match c.lookup k name with
    | .found d => .ok (some d)
    | .missing => .ok none
    | .kindAbsent => .error (.unknownKind k.name)
    | .empty => .error .noDeclarations

/-- Whether the file declares a name. -/
def declares (k : Kind) (name : String) (s : Storage) : Outcome Bool :=
  scanned s fun snap c => ⟨(find snap c k name).map (·.isSome), s, []⟩

/-- The value text of the declaration of a name. -/
def getValue (k : Kind) (name : String) (s : Storage) : Outcome (Option String) :=
  scanned s fun snap c => ⟨(find snap c k name).map (·.map (·.value)), s, []⟩

/-! ## Addition -/

/-- The text with a declaration inserted at offset `p`, where the anchor
starts. -/
def inserted (text declaration : Bytes) (p : Nat) (o : AddOptions) : Bytes :=
  let separator := Bytes.encode o.separator
  match o.placement with
  | .before => text.splice p p (declaration ++ separator)
  | .after =>
    let e := p + (Bytes.encode o.anchor).length
    text.splice e e (separator ++ declaration)

/-- Adds a declaration to a file that was read, at the first occurrence of
the anchor, unless the name is declared already. -/
def addTo (snap : Snapshot) (c : Catalog) (k : Kind) (name : String) (v : Value) (o : AddOptions)
    (s : Storage) : Outcome Bool :=
  if (c.get? k name).isSome then .done false s [.alreadyDeclared k name]
  else match Bytes.indexOf? (Bytes.encode o.anchor) snap.contents with
    | none => .failed (.anchorNotFound o.anchor) s [.anchorMissing o.anchor]
    | some p =>
      let declaration := Bytes.encode (Declaration.canonical k name (v.render o.raw))
      (snap.save (inserted snap.contents declaration p o) s).announce (.added k name o.placement)

/-- Adds a declaration. The result says whether the file changed. -/
def add (k : Kind) (name : String) (v : Value) (o : AddOptions) (s : Storage) : Outcome Bool :=
  scanned s fun snap c => addTo snap c k name v o s

/-! ## Update -/

/-- The source of a declaration with another value, in canonical form or with
all but the value as it was. -/
def newSource (text : Bytes) (d : Declaration) (name value : String) (normalize : Bool) : Bytes :=
  if normalize then Bytes.encode (Declaration.canonical d.kind name value)
  else
    let inner := d.valueSpanInSource
    (d.span.slice text).splice inner.start inner.stop (Bytes.encode value)

/-- Gives a declaration another value, and adds it if it is missing and the
options say so. The result says whether the file changed. -/
def update (e : Editor) (k : Kind) (name : String) (v : Value) (o : UpdateOptions) (s : Storage) :
    Outcome Bool :=
  scanned s fun snap c =>
    match c.get? k name with
    | none =>
      if o.addMissing then addTo snap c k name v { e.addOptions with raw := o.raw } s
      else .done false s [.notAdded k name]
    | some d =>
      let source := newSource snap.contents d name (v.render o.raw) o.normalize
      (snap.save (snap.contents.splice d.span.start d.span.stop source) s).announce
        (.updated k name o.normalize)

/-! ## Removal -/

/-- Removes a declaration and the line break after it. The result says
whether the file changed. -/
def remove (k : Kind) (name : String) (s : Storage) : Outcome Bool :=
  scanned s fun snap c =>
    match c.get? k name with
    | none => .done false s [.nothingToRemove k name]
    | some d =>
      let stop := d.span.stop + Bytes.lineBreakLength (snap.contents.drop d.span.stop)
      (snap.save (snap.contents.splice d.span.start stop []) s).announce (.removed k name)

end Editor

end SiteConfig
