/-!
# TOML tables

The data of a TOML document, and the rules by which keys and headers put
it together. A key is given once. A table is opened by one header at most.
What dotted keys have made has no header, and an inline table is closed to
all that follows it. So each table remembers how it came to be.

Numbers and dates are kept without their values, as no setting is one.
-/

namespace SiteConfig

namespace Toml

/-- How a table came to be. -/
inductive Origin where
  /-- It has a header of its own, or is the whole document. -/
  | header
  /-- A header names a table inside it. -/
  | implied
  /-- A dotted key names it before its last dot. -/
  | dotted
  /-- It is written between braces. -/
  | inline
deriving DecidableEq

/-- An item of a TOML document. -/
inductive Node where
  | text (s : String)
  | flag (b : Bool)
  | number
  /-- A date, a time, or both. -/
  | moment
  | array (items : List Node)
  | table (origin : Origin) (members : List (String × Node))
  /-- An array of tables with headers of their own, the last in front. -/
  | tables (last : List (String × Node)) (earlier : List (List (String × Node)))

/-- The members of a table, in order. -/
abbrev Members := List (String × Node)

/-- A table and how it came to be. -/
structure Table where
  origin : Origin
  members : Members

/-- A key of one or more words: those before the last dot, and the last. -/
structure Key where
  path : List String
  last : String

/-- The member of a name. -/
def Members.get? (name : String) (ms : Members) : Option Node :=
  (ms.find? (·.1 = name)).map (·.2)

/-- Members with the one of a name made anew from what it was, if that can be
done. A new name goes to the end. -/
def Members.alter (name : String) (f : Option Node → Option Node) : Members → Option Members
  | [] => (f none).map fun n => [(name, n)]
  | (other, m) :: rest =>
    if other = name then (f (some m)).map fun n => (other, n) :: rest
    else (alter name f rest).map ((other, m) :: ·)

namespace Table

/-- A table as an item. -/
def node (t : Table) : Node := .table t.origin t.members

/-- The table with the member of a name made anew. -/
def alter (name : String) (f : Option Node → Option Node) (t : Table) : Option Table :=
  (Members.alter name f t.members).map fun members => { t with members }

/-- How a path is followed from table to table. -/
structure Route where
  /-- Which tables it may enter. -/
  enters : Origin → Bool
  /-- What becomes of tables that are not there. -/
  makes : Origin

/-- The path of a header enters all tables but inline ones. -/
def headerRoute : Route := ⟨fun o => o != .inline, .implied⟩

/-- The path of a dotted key enters only tables without a header. -/
def dottedRoute : Route := ⟨fun o => o == .implied || o == .dotted, .dotted⟩

/-- Makes the table at the end of a path anew. Of an array of tables the last
is entered. -/
def changeAt (r : Route) (change : Table → Option Table) : List String → Table → Option Table
  | [], t => change t
  | name :: path, t =>
    t.alter name fun
      | none => (changeAt r change path ⟨r.makes, []⟩).map node
      | some (.table origin members) =>
        if r.enters origin then (changeAt r change path ⟨origin, members⟩).map node else none
      | some (.tables last earlier) =>
        (changeAt r change path ⟨.header, last⟩).map fun t => .tables t.members earlier
      | some _ => none

/-- Puts an item under a key. Where the key is dotted, the table it ends up in
must be one that dotted keys have made. -/
def put (key : Key) (n : Node) : Table → Option Table :=
  changeAt dottedRoute
    (fun t =>
      if key.path ≠ [] ∧ t.origin ≠ .dotted then none
      else t.alter key.last fun
        | none => some n
        | some _ => none)
    key.path

/-- Opens the table of a header. One that was only implied is there already,
and keeps its members. -/
def openTable (key : Key) : Table → Option Table :=
  changeAt headerRoute
    (fun t => t.alter key.last fun
      | none => some (.table .header [])
      | some (.table .implied members) => some (.table .header members)
      | some _ => none)
    key.path

/-- Opens a further table in an array of tables. -/
def openElement (key : Key) : Table → Option Table :=
  changeAt headerRoute
    (fun t => t.alter key.last fun
      | none => some (.tables [] [])
      | some (.tables last earlier) => some (.tables [] (last :: earlier))
      | some _ => none)
    key.path

/-- An inline table of these pairs. -/
def ofPairs? (pairs : List (Key × Node)) : Option Table :=
  pairs.foldlM (fun t (key, n) => t.put key n) ⟨.inline, []⟩

end Table

/-! ## Documents -/

/-- A line of a document that says something. -/
inductive Statement where
  | table (key : Key)
  | element (key : Key)
  | pair (key : Key) (n : Node)

/-- A document as far as it has been read: its table, and the path of the
last header, under which pairs go. -/
structure Draft where
  root : Table := ⟨.header, []⟩
  current : List String := []

/-- A document with a further statement. -/
def Draft.add (d : Draft) : Statement → Option Draft
  | .table key =>
    (d.root.openTable key).map fun root => ⟨root, key.path ++ [key.last]⟩
  | .element key =>
    (d.root.openElement key).map fun root => ⟨root, key.path ++ [key.last]⟩
  | .pair key n =>
    (d.root.changeAt Table.headerRoute (Table.put key n) d.current).map fun root =>
      { d with root }

/-- The table that statements make, if they agree with each other. -/
def Table.ofStatements? (statements : List Statement) : Option Table :=
  (statements.foldlM Draft.add {}).map Draft.root

end Toml

end SiteConfig
