import Mathlib.Data.List.Induction
import SiteConfig.Proofs.Lookup
/-!
# The order of a catalog

A catalog keeps its keys in the order of first insertion, so the keys of a
list of declarations that is inserted are those of the list without their
repetitions (`keys_ofList`). A scan inserts the constants of a text before
its variables. It follows that the names of a kind stand in the order in
which lines first declare them (`names_scan`), and that all constants come
before all variables (`toList_scan`).
-/

namespace SiteConfig

/-! ## Lists without repetitions -/

section EraseDups

variable {α β : Type} [BEq α] [LawfulBEq α] [BEq β] [LawfulBEq β]

theorem eraseDups_concat (l : List α) (a : α) :
    (l ++ [a]).eraseDups = if a ∈ l then l.eraseDups else l.eraseDups ++ [a] := by
  rw [List.eraseDups_append]
  by_cases h : a ∈ l <;> simp [List.removeAll, h, List.eraseDups_cons]

theorem nodup_eraseDups (l : List α) : l.eraseDups.Nodup := by
  induction l using List.reverseRecOn with
  | nil => exact List.nodup_nil
  | append_singleton l a ih =>
    rw [eraseDups_concat]
    split
    · exact ih
    · next h =>
      refine List.nodup_append.2 ⟨ih, by simp, fun b hb c hc => ?_⟩
      obtain rfl := List.mem_singleton.1 hc
      exact fun he => h (List.mem_eraseDups.1 (he ▸ hb))

/-- Leaving elements out and leaving repetitions out commute. -/
theorem eraseDups_filter (p : α → Bool) (l : List α) :
    (l.filter p).eraseDups = l.eraseDups.filter p := by
  induction l using List.reverseRecOn with
  | nil => rfl
  | append_singleton l a ih =>
    rw [List.filter_append, eraseDups_concat]
    cases hp : p a with
    | false => by_cases h : a ∈ l <;> simp [hp, h, ih]
    | true =>
      have hsingle : [a].filter p = [a] := by simp [hp]
      rw [hsingle, eraseDups_concat, ih]
      by_cases h : a ∈ l <;> simp [hp, h]

/-- A map that keeps elements apart keeps their repetitions. -/
theorem eraseDups_map {f : α → β} (hf : ∀ a b, f a = f b → a = b) (l : List α) :
    (l.map f).eraseDups = l.eraseDups.map f := by
  induction l using List.reverseRecOn with
  | nil => rfl
  | append_singleton l a ih =>
    have hmem : f a ∈ l.map f ↔ a ∈ l := by
      rw [List.mem_map]
      refine ⟨?_, fun h => ⟨a, h, rfl⟩⟩
      rintro ⟨b, hb, he⟩
      exact hf b a he ▸ hb
    rw [List.map_append, List.map_singleton, eraseDups_concat, eraseDups_concat, ih]
    by_cases h : a ∈ l <;> simp [hmem, h]

/-- A second list adds the elements that the first does not have. -/
theorem eraseDups_append_eq_filter (l m : List α) [DecidableEq α] :
    (l ++ m).eraseDups = l.eraseDups ++ m.eraseDups.filter (· ∉ l.eraseDups) := by
  rw [List.eraseDups_append, List.removeAll, eraseDups_filter]
  congr 2
  funext a
  simp [List.mem_eraseDups]

end EraseDups

namespace Catalog

open Declaration

variable {k : Kind} {ds : List Declaration}

/-! ## Keys -/

/-- The keys of a catalog, in order of first insertion. -/
def keys (c : Catalog) : List (Kind × String) := c.declarations.map key

/-- The names of a kind, in order of first insertion. -/
def names (c : Catalog) (k : Kind) : List String := ((c.ofKind? k).getD []).map (·.name)

/-- **A catalog has the keys that were inserted**, each where it came first. -/
theorem keys_ofList (ds : List Declaration) : (ofList ds).keys = (ds.map key).eraseDups := by
  induction ds using List.reverseRecOn with
  | nil => rfl
  | append_singleton ds d ih =>
    have hinsert : (ofList (ds ++ [d])).keys = if d.key ∈ (ofList ds).keys then (ofList ds).keys
        else (ofList ds).keys ++ [d.key] := by
      rw [ofList, List.foldl_append]
      exact keys_put d (ofList ds).declarations
    rw [hinsert, ih, List.map_append, List.map_singleton, eraseDups_concat]
    simp only [List.mem_eraseDups]

theorem ofKind?_getD (c : Catalog) (k : Kind) :
    (c.ofKind? k).getD [] = c.declarations.filter (·.kind = k) := by
  rw [ofKind?]
  split
  · next h => rw [h, Option.getD_none]
  · rfl

/-- The keys of a kind are its names. -/
theorem names_eq (c : Catalog) (k : Kind) :
    c.names k = (c.keys.filter (·.1 = k)).map (·.2) := by
  rw [names, ofKind?_getD, keys, List.filter_map, List.map_map]
  rfl

/-- A name is found where it is among the names. -/
theorem isSome_get?_iff {c : Catalog} {name : String} :
    (c.get? k name).isSome ↔ name ∈ c.names k := by
  have hkey : (k, name) ∈ c.keys ↔ name ∈ c.names k := by
    rw [names_eq, List.mem_map]
    constructor
    · exact fun h => ⟨(k, name), List.mem_filter.2 ⟨h, by simp⟩, rfl⟩
    · rintro ⟨⟨k', name'⟩, h, rfl⟩
      obtain ⟨hmem, hk⟩ := List.mem_filter.1 h
      obtain rfl : k' = k := of_decide_eq_true hk
      exact hmem
  rw [← hkey, get?, List.find?_isSome, keys, List.mem_map]
  simp

theorem kinds_eq (c : Catalog) : c.kinds = (c.keys.map (·.1)).eraseDups := by
  rw [kinds, keys, List.map_map]
  rfl

/-! ## Kinds one after the other -/

/-- Of the declarations of one kind, those of another are none. -/
theorem filter_kind {k' : Kind} (h : ∀ d ∈ ds, d.kind = k') :
    ds.filter (·.kind = k) = if k' = k then ds else [] := by
  by_cases hk : k' = k
  · rw [if_pos hk, List.filter_eq_self]
    exact fun d hd => decide_eq_true ((h d hd).trans hk)
  · rw [if_neg hk, List.filter_eq_nil_iff]
    exact fun d hd hd' => hk ((h d hd).symm.trans (of_decide_eq_true hd'))

/-- Declarations of one kind are of that kind only. -/
theorem eraseDups_map_kind {d : Declaration} (h : ∀ e ∈ d :: ds, e.kind = k) :
    ((d :: ds).map (·.kind)).eraseDups = [k] := by
  rw [List.forall_mem_cons] at h
  have hrest : (ds.map (·.kind)).filter (fun k' => !k' == k) = [] := by
    simpa using h.2
  rw [List.map_cons, List.eraseDups_cons, h.1, hrest, List.eraseDups_nil]

/-- **Kinds that stand one after the other are listed as they stand.** -/
theorem toList_eq_append {c : Catalog} {cs vs : List Declaration}
    (h : c.declarations = cs ++ vs) (hcs : ∀ d ∈ cs, d.kind = .const)
    (hvs : ∀ d ∈ vs, d.kind = .var) : c.toList = cs ++ vs := by
  have hconst : (cs ++ vs).filter (·.kind = .const) = cs := by
    rw [List.filter_append, filter_kind hcs, filter_kind hvs]
    simp
  have hvar : (cs ++ vs).filter (·.kind = .var) = vs := by
    rw [List.filter_append, filter_kind hcs, filter_kind hvs]
    simp
  rw [toList, kinds, h, List.map_append, eraseDups_append_eq_filter]
  cases cs with
  | nil =>
    cases vs with
    | nil => rfl
    | cons v vs =>
      rw [eraseDups_map_kind hvs]
      simpa using hvar
  | cons c cs =>
    rw [eraseDups_map_kind hcs]
    cases vs with
    | nil => simpa using hconst
    | cons v vs =>
      rw [eraseDups_map_kind hvs]
      have hkinds : [Kind.const] ++ [Kind.var].filter (· ∉ [Kind.const]) = [.const, .var] := rfl
      rw [hkinds, List.flatMap_cons, List.flatMap_singleton, hconst, hvar]

end Catalog

/-! ## The order of a scan -/

namespace Declaration

open Bytes

/-- The name that a line declares. -/
def nameOnLine? (k : Kind) (line : Bytes) : Option String :=
  (Line.parts? k line).map fun p => decode p.name

/-- **The names that a text declares** are those on its lines. -/
theorem map_name_allOf (k : Kind) (text : Bytes) :
    (allOf k text).map (·.name) = (lines text).filterMap (nameOnLine? k) := by
  have hline : ∀ p : Nat × Bytes, (ofLine? k p.1 p.2).map (·.name) = nameOnLine? k p.2 := by
    rintro ⟨o, line⟩
    rw [ofLine?, nameOnLine?, Option.map_map]
    rfl
  rw [allOf_eq_lines, List.map_filterMap]
  simp only [hline]
  rw [← map_snd_located 0 (lines text), List.filterMap_map, map_snd_located]
  rfl

theorem map_key_allOf (k : Kind) (text : Bytes) :
    (allOf k text).map key = ((allOf k text).map (·.name)).map (k, ·) := by
  rw [List.map_map]
  refine List.map_congr_left fun d hd => ?_
  rw [key, kind_of_mem_allOf hd]
  rfl

end Declaration

namespace Catalog

open Bytes Declaration

variable {text : Bytes}

/-- The keys of a scan: those of the constants before those of the variables. -/
theorem keys_scan (text : Bytes) : (scan text).keys =
    ((allOf .const text).map key).eraseDups ++ ((allOf .var text).map key).eraseDups := by
  have hall : Kind.all.flatMap (allOf · text) = allOf .const text ++ allOf .var text := by
    simp [Kind.all]
  rw [scan, keys_ofList, hall, List.map_append, eraseDups_append_eq_filter]
  congr 1
  -- the keys of the variables are not among those of the constants
  refine List.filter_eq_self.2 fun p hp => decide_eq_true fun hconst => ?_
  rw [List.mem_eraseDups, map_key_allOf, List.mem_map] at hp hconst
  obtain ⟨_, -, rfl⟩ := hp
  obtain ⟨_, -, hk⟩ := hconst
  cases hk

/-- **The names of a kind in a scan** are those that the lines declare, each
where a line first declares it. -/
theorem names_scan (text : Bytes) (k : Kind) :
    (scan text).names k = ((lines text).filterMap (nameOnLine? k)).eraseDups := by
  have hinj : ∀ (k' : Kind) (a b : String), (k', a) = (k', b) → a = b := fun _ _ _ h =>
    (Prod.mk.inj h).2
  have hown : ∀ k' (l : List String),
      (((l.map (k', ·)).eraseDups.filter (·.1 = k)).map (·.2)) =
        if k' = k then l.eraseDups else [] := by
    intro k' l
    rw [eraseDups_map (hinj k'), List.filter_map]
    by_cases hk : k' = k <;> simp [hk, Function.comp_def]
  rw [names_eq, keys_scan, List.filter_append, List.map_append, map_key_allOf, map_key_allOf, hown,
    hown, ← map_name_allOf]
  cases k <;> simp

/-- So the keys of a scan are told by its names. -/
theorem keys_scan_eq_names (text : Bytes) : (scan text).keys =
    ((scan text).names .const).map (.const, ·) ++ ((scan text).names .var).map (.var, ·) := by
  have hinj : ∀ (k : Kind) (a b : String), (k, a) = (k, b) → a = b := fun _ _ _ h =>
    (Prod.mk.inj h).2
  rw [keys_scan, map_key_allOf, map_key_allOf, eraseDups_map (hinj _), eraseDups_map (hinj _),
    map_name_allOf, map_name_allOf, ← names_scan, ← names_scan]

theorem kind_of_mem_scan {ds : List Declaration} {k : Kind}
    (h : ds.map key = ((allOf k text).map key).eraseDups) : ∀ d ∈ ds, d.kind = k := by
  intro d hd
  have hmem : d.key ∈ (allOf k text).map key := by
    rw [← List.mem_eraseDups, ← h]
    exact List.mem_map_of_mem hd
  rw [map_key_allOf, List.mem_map] at hmem
  obtain ⟨_, -, hkey⟩ := hmem
  exact (congrArg Prod.fst hkey).symm

/-- **All constants come before all variables** in a scan. -/
theorem toList_scan (text : Bytes) : (scan text).toList =
    ((scan text).ofKind? .const).getD [] ++ ((scan text).ofKind? .var).getD [] := by
  obtain ⟨cs, vs, hsplit, hcs, hvs⟩ := List.map_eq_append_iff.1 (keys_scan text)
  have hc := kind_of_mem_scan hcs
  have hv := kind_of_mem_scan hvs
  rw [toList_eq_append hsplit hc hv, ofKind?_getD, ofKind?_getD, hsplit, List.filter_append,
    List.filter_append, filter_kind hc, filter_kind hv, filter_kind hc, filter_kind hv]
  simp

end Catalog

end SiteConfig
