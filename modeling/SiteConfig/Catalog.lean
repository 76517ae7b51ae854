import SiteConfig.Declaration
/-!
# Catalogs

A catalog holds declarations, at most one of each kind and name. A later
declaration of the same kind and name replaces an earlier one and takes
its place in the order, so the order is that of first insertion. It shows
in `ofKind?` and `toList`, and not in equality: two catalogs are equal
when they hold the same declarations.

The main case is `scan`, the catalog of a text, in which the last of
several declarations of a name is the one that counts.
-/

namespace SiteConfig

/-- Declarations of distinct kinds and names, in order of first insertion. -/
structure Catalog where
  declarations : List Declaration
  nodup : (declarations.map Declaration.key).Nodup

namespace Catalog

/-- The catalog without declarations. -/
def empty : Catalog := ⟨[], List.nodup_nil⟩

/-! ## Insertion -/

/-- A list with `d` in the place of the declaration of its key, or at the
end if there is none. -/
def put (d : Declaration) : List Declaration → List Declaration
  | [] => [d]
  | e :: rest => if e.key = d.key then d :: rest else e :: put d rest

/-- Insertion adds a key only if it is new. -/
theorem keys_put (d : Declaration) (ds : List Declaration) :
    (put d ds).map Declaration.key =
      if d.key ∈ ds.map Declaration.key then ds.map Declaration.key
      else ds.map Declaration.key ++ [d.key] := by
  induction ds with
  | nil => simp [put]
  | cons e rest ih =>
    by_cases h : e.key = d.key
    · simp [put, h]
    · have h' : d.key ≠ e.key := fun he => h he.symm
      by_cases hm : d.key ∈ rest.map Declaration.key <;> simp_all [put]

theorem nodup_keys_put {d : Declaration} {ds : List Declaration}
    (h : (ds.map Declaration.key).Nodup) : ((put d ds).map Declaration.key).Nodup := by
  rw [keys_put]
  split
  · exact h
  · next hd => exact List.nodup_append.2 ⟨h, by simp, by simp; grind⟩

/-- The catalog with `d` in it, in place of the declaration of the same kind
and name. -/
def insert (c : Catalog) (d : Declaration) : Catalog :=
  ⟨put d c.declarations, nodup_keys_put c.nodup⟩

/-- The catalog of declarations that are inserted one after another. -/
def ofList (ds : List Declaration) : Catalog := ds.foldl insert empty

/-- The catalog of a text: all its constants, then all its variables. -/
def scan (text : Bytes) : Catalog := ofList (Kind.all.flatMap (Declaration.allOf · text))

/-! ## Contents -/

/-- The number of declarations. -/
def size (c : Catalog) : Nat := c.declarations.length

/-- Whether there are no declarations. -/
def isEmpty (c : Catalog) : Bool := c.declarations.isEmpty

/-- The declaration of a kind and name. -/
def get? (c : Catalog) (k : Kind) (name : String) : Option Declaration :=
  c.declarations.find? (·.key = (k, name))

/-- The declarations of a kind, if there are any. -/
def ofKind? (c : Catalog) (k : Kind) : Option (List Declaration) :=
  match c.declarations.filter (·.kind = k) with
  | [] => none
  | ds => some ds

/-- The kinds of which there are declarations, in order of first insertion. -/
def kinds (c : Catalog) : List Kind := (c.declarations.map (·.kind)).eraseDups

/-- All declarations, kind by kind. -/
def toList (c : Catalog) : List Declaration :=
  c.kinds.flatMap fun k => c.declarations.filter (·.kind = k)

/-- Catalogs are equal when they are of one size and each declaration of the
one is in the other. -/
def sameAs (a b : Catalog) : Bool :=
  a.size = b.size && a.declarations.all fun d => b.get? d.kind d.name = some d

instance : BEq Catalog := ⟨sameAs⟩

/-! ### Contents after insertion -/

/-- The declaration of a key after `d` was put in. -/
theorem find?_put (d : Declaration) (ds : List Declaration) (key : Kind × String) :
    (put d ds).find? (·.key = key) = if d.key = key then some d else ds.find? (·.key = key) := by
  induction ds with
  | nil => by_cases h : d.key = key <;> simp [put, h]
  | cons e rest ih =>
    by_cases he : e.key = d.key <;> by_cases h : d.key = key <;> simp_all [put]
    by_cases h' : e.key = key <;> simp_all

@[simp]
theorem get?_empty (k : Kind) (name : String) : empty.get? k name = none := rfl

/-- **Insertion sets one kind and name** and leaves all others. -/
theorem get?_insert (c : Catalog) (d : Declaration) (k : Kind) (name : String) :
    (c.insert d).get? k name = if d.key = (k, name) then some d else c.get? k name :=
  find?_put d c.declarations (k, name)

/-- **The last of the declarations of a kind and name is the one held.** -/
theorem get?_ofList (ds : List Declaration) (k : Kind) (name : String) :
    (ofList ds).get? k name = ds.reverse.find? (·.key = (k, name)) := by
  suffices h : ∀ c : Catalog, (ds.foldl insert c).get? k name =
      (ds.reverse.find? (·.key = (k, name))).or (c.get? k name) by simp [ofList, h]
  induction ds with
  | nil => simp
  | cons d ds ih =>
    intro c
    rw [List.foldl_cons, ih, get?_insert, List.reverse_cons, List.find?_append, Option.or_assoc]
    by_cases hd : d.key = (k, name) <;> simp [hd]

/-! ## Lookup -/

/-- What a catalog says of a kind and name. -/
inductive Lookup where
  /-- There is a declaration. -/
  | found (d : Declaration)
  /-- There are declarations of the kind, but none of the name. -/
  | missing
  /-- There are declarations, but none of the kind. -/
  | kindAbsent
  /-- There are no declarations. -/
  | empty
deriving DecidableEq

/-- The declaration that was found. -/
def Lookup.declaration? : Lookup → Option Declaration
  | .found d => some d
  | _ => none

/-- Looks a name up, and tells the ways apart in which it can be absent. -/
def lookup (c : Catalog) (k : Kind) (name : String) : Lookup :=
  if c.isEmpty then .empty
  else match c.ofKind? k with
    | none => .kindAbsent
    | some ds =>
      match ds.find? (·.name = name) with
      | none => .missing
      | some d => .found d

end Catalog

end SiteConfig
