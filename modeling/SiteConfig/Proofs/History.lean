import Mathlib.Data.Finset.Card
import SiteConfig.Proofs.Buckets
import SiteConfig.Proofs.Concatenation
/-!
# What a catalog says of its history

All that a catalog answers can be told from the declarations that were inserted
into it. The last one of a kind and name is found (`IsLast`). One that is absent
is so in one of three ways, and which of them depends on the keys alone
(`Catalog.lookup_eq_missing_iff` and its kin). The first of a kind and name gives
the place in the order.

`Catalog.Reflects` lists these answers, and a catalog reflects any history from
which it is made (`Catalog.reflects_ofList`).
-/

namespace SiteConfig

/-- An element of a list that has a property, and none after it does. -/
def IsLast {α : Type} (p : α → Prop) (l : List α) (a : α) : Prop :=
  ∃ before after, l = before ++ a :: after ∧ p a ∧ ∀ b ∈ after, ¬ p b

/-- The last element with a property is the first one from the end. -/
theorem find?_reverse_eq_some_iff {α : Type} {p : α → Prop} [DecidablePred p] {l : List α} {a : α} :
    l.reverse.find? (fun b => p b) = some a ↔ IsLast p l a := by
  rw [List.find?_eq_some_iff_append]
  constructor
  · rintro ⟨ha, after, before, hl, hafter⟩
    refine ⟨before.reverse, after.reverse, ?_, of_decide_eq_true ha, fun b hb => ?_⟩
    · rw [← List.reverse_reverse l, hl]
      simp
    · simpa using hafter b (List.mem_reverse.1 hb)
  · rintro ⟨before, after, rfl, ha, hafter⟩
    refine ⟨decide_eq_true ha, after.reverse, before.reverse, by simp, fun b hb => ?_⟩
    simpa using hafter b (List.mem_reverse.1 hb)

namespace Catalog

open Declaration

variable {c : Catalog} {d : Declaration} {ds : List Declaration} {k : Kind} {name : String}

/-! ## Lookup by keys -/

theorem get?_eq_none_iff : c.get? k name = none ↔ (k, name) ∉ c.keys := by
  rw [get?, List.find?_eq_none, keys, List.mem_map]
  simp

theorem ofKind?_eq_none_iff : c.ofKind? k = none ↔ ∀ name, (k, name) ∉ c.keys := by
  have hnil : c.ofKind? k = none ↔ c.declarations.filter (·.kind = k) = [] := by
    rw [ofKind?]
    cases c.declarations.filter (·.kind = k) <;> simp
  rw [hnil, List.filter_eq_nil_iff]
  simp only [keys, List.mem_map, not_exists, not_and, decide_eq_true_eq]
  constructor
  · intro h name d hd hkey
    exact h d hd (congrArg Prod.fst hkey)
  · intro h d hd hkind
    exact h d.name d hd (Prod.ext hkind rfl)

theorem isEmpty_iff : c.isEmpty ↔ c.keys = [] := by
  rw [isEmpty, List.isEmpty_iff, keys, List.map_eq_nil_iff]

/-- Nothing is found where there is nothing. -/
theorem lookup_eq_empty_iff : c.lookup k name = .empty ↔ c.keys = [] := by
  rw [← isEmpty_iff, lookup]
  by_cases h : c.isEmpty
  · simp [h]
  · rw [if_neg h]
    refine iff_of_false ?_ h
    cases c.ofKind? k with
    | none => simp
    | some ds => cases hfind : ds.find? (·.name = name) <;> simp [hfind]

/-- A kind is absent where there are only names of others. -/
theorem lookup_eq_kindAbsent_iff :
    c.lookup k name = .kindAbsent ↔ c.keys ≠ [] ∧ ∀ name, (k, name) ∉ c.keys := by
  rw [← ofKind?_eq_none_iff, ne_eq, ← isEmpty_iff, lookup]
  by_cases h : c.isEmpty
  · simp [h]
  · cases c.ofKind? k with
    | none => simp [h]
    | some ds => cases hfind : ds.find? (·.name = name) <;> simp [h, hfind]

/-- **A name is missing** where it is none of those of its kind. -/
theorem lookup_eq_missing_iff : c.lookup k name = .missing ↔
    (∃ name, (k, name) ∈ c.keys) ∧ (k, name) ∉ c.keys := by
  have hkind : (∃ name, (k, name) ∈ c.keys) ↔ c.lookup k name ≠ .empty ∧
      c.lookup k name ≠ .kindAbsent := by
    rw [ne_eq, ne_eq, lookup_eq_empty_iff, lookup_eq_kindAbsent_iff]
    constructor
    · rintro ⟨name, h⟩
      exact ⟨List.ne_nil_of_mem h, fun habsent => habsent.2 name h⟩
    · rintro ⟨hne, h⟩
      exact Classical.not_forall_not.1 fun hno => h ⟨hne, hno⟩
  rw [hkind, ← get?_eq_none_iff, ← declaration?_lookup]
  cases c.lookup k name <;> simp [Lookup.declaration?]

/-! ## A history -/

theorem mem_keys_ofList {key : Kind × String} :
    key ∈ (ofList ds).keys ↔ ∃ d ∈ ds, d.key = key := by
  rw [keys_ofList, List.mem_eraseDups, List.mem_map]

/-- A kind is there where one of its declarations was inserted. -/
theorem exists_mem_keys_ofList_iff :
    (∃ name, (k, name) ∈ (ofList ds).keys) ↔ ∃ d ∈ ds, d.kind = k := by
  simp [mem_keys_ofList, key]

theorem keys_ofList_eq_nil_iff : (ofList ds).keys = [] ↔ ds = [] := by
  cases ds with
  | nil => simp [keys_ofList]
  | cons d ds => simp [keys_ofList, List.eraseDups_cons]

theorem get?_ofList_eq_some_iff :
    (ofList ds).get? k name = some d ↔ IsLast (fun e => e.key = (k, name)) ds d := by
  rw [get?_ofList]
  exact find?_reverse_eq_some_iff

/-- As many declarations are held as there are different keys. -/
theorem size_ofList (ds : List Declaration) : (ofList ds).size = (ds.map key).toFinset.card := by
  have hkeys : (ds.map key).toFinset = (ofList ds).keys.toFinset := by
    ext key
    rw [List.mem_toFinset, List.mem_toFinset, keys_ofList, List.mem_eraseDups]
  rw [hkeys, keys, List.toFinset_card_of_nodup (ofList ds).nodup, List.length_map, size]

/-- **The names of a kind** stand in the order in which they were first
inserted. -/
theorem names_ofList (ds : List Declaration) (k : Kind) :
    (ofList ds).names k = ((ds.filter (·.kind = k)).map (·.name)).eraseDups := by
  -- the keys of a kind differ in the name only
  have hkeys : (ds.map key).filter (·.1 = k) =
      ((ds.filter (·.kind = k)).map (·.name)).map (k, ·) := by
    rw [List.filter_map, List.map_map]
    refine List.map_congr_left fun d hd => ?_
    exact Prod.ext (of_decide_eq_true (List.mem_filter.1 hd).2) rfl
  rw [names_eq, keys_ofList, ← eraseDups_filter, hkeys,
    eraseDups_map fun _ _ h => (Prod.mk.inj h).2, List.map_map]
  exact List.map_id' _

theorem kinds_ofList (ds : List Declaration) :
    (ofList ds).kinds = (ds.map (·.kind)).eraseDups := by
  induction ds using List.reverseRecOn with
  | nil => rfl
  | append_singleton ds d ih =>
    rw [ofList, List.foldl_append]
    refine (kinds_insert (ofList ds) d).trans ?_
    rw [ih, List.map_append, List.map_singleton, eraseDups_concat]
    simp only [List.mem_eraseDups]

/-! ## All declarations -/

/-- All declarations are those of each kind, in the order of the kinds. -/
theorem toList_eq (c : Catalog) : c.toList = c.kinds.flatMap fun k => (c.ofKind? k).getD [] := by
  rw [toList]
  refine congrArg (List.flatMap · c.kinds) (funext fun k => ?_)
  exact (ofKind?_getD c k).symm

theorem mem_toList_iff : d ∈ c.toList ↔ d ∈ c.declarations := by
  rw [toList, List.mem_flatMap]
  simp only [List.mem_filter, decide_eq_true_eq]
  constructor
  · rintro ⟨-, -, h, -⟩
    exact h
  · intro h
    exact ⟨d.kind, List.mem_eraseDups.2 (List.mem_map_of_mem h), h, rfl⟩

/-- Declarations kind by kind are all of them in another order. -/
theorem perm_toList (c : Catalog) : c.toList.Perm c.declarations := by
  have hnodup : c.declarations.Nodup := c.nodup.of_map
  refine (List.perm_ext_iff_of_nodup ?_ hnodup).2 fun d => mem_toList_iff
  refine List.nodup_flatMap.2 ⟨fun k _ => hnodup.filter _, ?_⟩
  refine c.nodup_kinds.imp fun {k k'} hne d hd hd' => hne ?_
  have hk := of_decide_eq_true (List.mem_filter.1 hd).2
  have hk' := of_decide_eq_true (List.mem_filter.1 hd').2
  exact hk.symm.trans hk'

/-- The declarations that are listed are those found by their keys. -/
theorem mem_toList_iff_lookup : d ∈ c.toList ↔ ∃ k name, c.lookup k name = .found d := by
  simp only [mem_toList_iff, lookup_eq_found_iff]
  constructor
  · exact fun h => ⟨d.kind, d.name, get?_of_mem h⟩
  · rintro ⟨k, name, h⟩
    exact List.mem_of_find?_eq_some h

/-- **A catalog reflects a history** of declarations. -/
structure Reflects (c : Catalog) (ds : List Declaration) : Prop where
  /-- The last declaration of a kind and name is found. -/
  lookup_eq_found_iff : ∀ k name d,
    c.lookup k name = .found d ↔ IsLast (fun e => e.key = (k, name)) ds d
  lookup_eq_missing_iff : ∀ k name,
    c.lookup k name = .missing ↔ (∃ d ∈ ds, d.kind = k) ∧ ∀ d ∈ ds, d.key ≠ (k, name)
  lookup_eq_kindAbsent_iff : ∀ k name,
    c.lookup k name = .kindAbsent ↔ ds ≠ [] ∧ ∀ d ∈ ds, d.kind ≠ k
  lookup_eq_empty_iff : ∀ k name, c.lookup k name = .empty ↔ ds = []
  get?_eq_some_iff : ∀ k name d, c.get? k name = some d ↔ c.lookup k name = .found d
  size_eq : c.size = (ds.map key).toFinset.card
  isEmpty_iff : c.isEmpty ↔ c.size = 0
  ofKind?_eq_none_iff : ∀ k, c.ofKind? k = none ↔ ∀ d ∈ ds, d.kind ≠ k
  /-- The names of a kind are each listed once, where it was first inserted, and
  with the declaration that is found. -/
  ofKind?_eq_some : ∀ k es, c.ofKind? k = some es →
    es.map (·.name) = ((ds.filter (·.kind = k)).map (·.name)).eraseDups ∧
      ∀ d ∈ es, c.lookup k d.name = .found d
  /-- Insertion into buckets puts the declarations of a kind into one bucket, each
  under its own name, and makes no other bucket. -/
  get?_buckets : ∀ k, Entries.get? k (Buckets.ofList ds) =
    (c.ofKind? k).map (·.map fun d => (d.name, d))
  buckets_eq_nil_iff : Buckets.ofList ds = [] ↔ c.isEmpty
  /-- The kinds stand in the order in which they were first inserted. -/
  toList_eq : c.toList =
    (ds.map (·.kind)).eraseDups.flatMap fun k => (c.ofKind? k).getD []
  toList_eq_buckets : c.toList = (Buckets.ofList ds).flatMap fun e => e.2.map (·.2)
  length_toList : c.toList.length = c.size
  mem_toList_iff : ∀ d, d ∈ c.toList ↔ ∃ k name, c.lookup k name = .found d

/-- **Whatever was inserted, the catalog answers from its history.** -/
theorem reflects_ofList (ds : List Declaration) : (ofList ds).Reflects ds where
  lookup_eq_found_iff k name d := by
    rw [lookup_eq_found_iff, get?_ofList_eq_some_iff]
  lookup_eq_missing_iff k name := by
    rw [lookup_eq_missing_iff, exists_mem_keys_ofList_iff, mem_keys_ofList]
    simp
  lookup_eq_kindAbsent_iff k name := by
    rw [lookup_eq_kindAbsent_iff, ← not_exists, exists_mem_keys_ofList_iff, ne_eq,
      keys_ofList_eq_nil_iff]
    simp
  lookup_eq_empty_iff k name := lookup_eq_empty_iff.trans keys_ofList_eq_nil_iff
  get?_eq_some_iff k name d := lookup_eq_found_iff.symm
  size_eq := size_ofList ds
  isEmpty_iff := by rw [isEmpty, List.isEmpty_iff, size, List.length_eq_zero_iff]
  ofKind?_eq_none_iff k := by
    rw [ofKind?_eq_none_iff, ← not_exists, exists_mem_keys_ofList_iff]
    simp
  ofKind?_eq_some k es h := by
    refine ⟨?_, fun d hd => ?_⟩
    · rw [← names_ofList, names, h, Option.getD_some]
    · obtain ⟨-, rfl⟩ := ofKind?_eq_some_iff.1 h
      obtain ⟨hmem, hkind⟩ := List.mem_filter.1 hd
      rw [lookup_eq_found_iff, ← of_decide_eq_true hkind]
      exact get?_of_mem hmem
  get?_buckets k := by rw [← buckets_ofList, get?_buckets_eq_map]
  buckets_eq_nil_iff := by rw [← buckets_ofList, buckets_eq_nil_iff]
  toList_eq := by rw [toList_eq, kinds_ofList]
  toList_eq_buckets := by rw [← buckets_ofList, toList_eq_flatMap_buckets]
  length_toList := (perm_toList _).length_eq
  mem_toList_iff d := mem_toList_iff_lookup

/-- A second declaration of a name takes the place of the first. -/
example : (ofList [⟨.var, "a", "1", "$a = 1;", ⟨0, 7⟩, ⟨5, 6⟩⟩,
      ⟨.var, "b", "2", "$b = 2;", ⟨8, 15⟩, ⟨13, 14⟩⟩,
      ⟨.var, "a", "3", "$a = 3;", ⟨16, 23⟩, ⟨21, 22⟩⟩]).toList =
    [⟨.var, "a", "3", "$a = 3;", ⟨16, 23⟩, ⟨21, 22⟩⟩,
      ⟨.var, "b", "2", "$b = 2;", ⟨8, 15⟩, ⟨13, 14⟩⟩] := by decide

end Catalog

end SiteConfig
