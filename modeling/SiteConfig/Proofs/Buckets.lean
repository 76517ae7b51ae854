import Mathlib.Data.List.Nodup
import SiteConfig.Proofs.Layout
/-!
# Catalogs in buckets

A catalog can be kept with one bucket for each kind, and in it the declarations
of that kind under their names. Insertion finds the bucket of the kind, or opens
one, and sets the name in it. This gives the same catalog as insertion into one
list does (`Catalog.buckets_insert`), and so do any number of insertions
(`Catalog.buckets_ofList`).

A bucket is opened only to put a declaration into it, so that no bucket is empty
and a kind without declarations has none (`Catalog.get?_buckets`). Each
declaration is found in its bucket under its own name
(`Catalog.wellFormed_buckets`). For the buckets of a scan this adds up to what
the edits rely on (`Catalog.scan_layout`).
-/

namespace SiteConfig

/-! ## Entries under keys -/

/-- Values under keys, in the order in which the keys were first set. -/
abbrev Entries (κ α : Type) := List (κ × α)

namespace Entries

variable {κ α : Type} [DecidableEq κ]

/-- The value of a key. -/
def get? (key : κ) (entries : Entries κ α) : Option α :=
  (entries.find? (·.1 = key)).map (·.2)

/-- Sets a key to a value that is made from the one it has, if it has one. A new
key comes last. -/
def set (key : κ) (f : Option α → α) : Entries κ α → Entries κ α
  | [] => [(key, f none)]
  | (other, a) :: rest =>
    if other = key then (other, f (some a)) :: rest else (other, a) :: set key f rest

variable {key : κ} {f : Option α → α}

/-- Where each value is a function of its key, setting a key changes the function
at it. -/
theorem set_map {keys : List κ} (hkeys : keys.Nodup) (g : κ → α) :
    set key f (keys.map fun x => (x, g x)) =
      (if key ∈ keys then keys else keys ++ [key]).map fun x =>
        (x, if x = key then f (if key ∈ keys then some (g key) else none) else g x) := by
  induction keys with
  | nil => simp [set]
  | cons first keys ih =>
    obtain ⟨hfirst, hkeys⟩ := List.nodup_cons.1 hkeys
    by_cases h : first = key
    · subst h
      have hrest : ∀ x ∈ keys, x ≠ first := fun x hx he => hfirst (he ▸ hx)
      simp only [List.map_cons, set, List.mem_cons, true_or, if_true, List.cons.injEq, true_and]
      exact List.map_congr_left fun x hx => by rw [if_neg (hrest x hx)]
    · have hmem : key ∈ first :: keys ↔ key ∈ keys := by simp [Ne.symm h]
      rw [List.map_cons, set, if_neg h, ih hkeys]
      by_cases hin : key ∈ keys <;> simp [hin, h, Ne.symm h]

/-- Values under keys of their own are found by these. -/
theorem get?_map (g : α → κ) (l : List α) :
    get? key (l.map fun a => (g a, a)) = l.find? (g · = key) := by
  rw [get?, List.find?_map, Option.map_map]
  exact Option.map_id'

end Entries

/-! ## Buckets -/

/-- The declarations of each kind under their names. -/
abbrev Buckets := Entries Kind (Entries String Declaration)

namespace Buckets

/-- Sets the name of a declaration in the bucket of its kind, which is opened if
there is none. -/
def insert (b : Buckets) (d : Declaration) : Buckets :=
  Entries.set d.kind (fun bucket => Entries.set d.name (fun _ => d) (bucket.getD [])) b

/-- The buckets of declarations that are inserted one after another. -/
def ofList (ds : List Declaration) : Buckets := ds.foldl insert []

/-- Each kind has at most one bucket and none that is empty, and the declarations
in it are of this kind, each under its own name. -/
structure WellFormed (b : Buckets) : Prop where
  nodup_kinds : (b.map (·.1)).Nodup
  ne_nil : ∀ e ∈ b, e.2 ≠ []
  nodup_names : ∀ e ∈ b, (e.2.map (·.1)).Nodup
  key_eq : ∀ e ∈ b, ∀ f ∈ e.2, f.2.key = (e.1, f.1)

end Buckets

namespace Catalog

open Declaration

variable {c : Catalog} {d : Declaration} {ds : List Declaration} {k : Kind} {name : String}

/-- The declarations of a kind under their names. -/
def bucket (c : Catalog) (k : Kind) : Entries String Declaration :=
  (c.declarations.filter (·.kind = k)).map fun d => (d.name, d)

/-- The catalog in buckets, in the order of the kinds. -/
def buckets (c : Catalog) : Buckets := c.kinds.map fun k => (k, c.bucket k)

theorem nodup_kinds (c : Catalog) : c.kinds.Nodup := nodup_eraseDups _

/-- A kind is listed where its bucket is not empty. -/
theorem mem_kinds_iff_bucket_ne_nil : k ∈ c.kinds ↔ c.bucket k ≠ [] := by
  rw [kinds, List.mem_eraseDups, List.mem_map, bucket, ne_eq, List.map_eq_nil_iff,
    List.filter_eq_nil_iff]
  simp

/-! ### Insertion into buckets -/

/-- What is put into a list is put among the declarations of its kind. -/
theorem filter_put (d : Declaration) (ds : List Declaration) (k : Kind) :
    (put d ds).filter (·.kind = k) =
      if k = d.kind then put d (ds.filter (·.kind = k)) else ds.filter (·.kind = k) := by
  induction ds with
  | nil => by_cases h : k = d.kind <;> simp [put, h, Ne.symm]
  | cons e ds ih =>
    by_cases hkey : e.key = d.key
    · have hkind : e.kind = d.kind := congrArg Prod.fst hkey
      by_cases h : k = d.kind <;> simp [put, hkey, hkind, h, Ne.symm]
    · by_cases he : e.kind = k <;> by_cases h : k = d.kind <;> simp_all [put]

/-- Among declarations of its kind a declaration is put where its name is set. -/
theorem set_map_name (h : ∀ e ∈ ds, e.kind = d.kind) :
    Entries.set d.name (fun _ => d) (ds.map fun e => (e.name, e)) =
      (put d ds).map fun e => (e.name, e) := by
  induction ds with
  | nil => rfl
  | cons e ds ih =>
    rw [List.forall_mem_cons] at h
    have hkey : e.key = d.key ↔ e.name = d.name := by simp [key, h.1]
    by_cases he : e.name = d.name
    · simp [put, Entries.set, hkey, he]
    · simp [put, Entries.set, hkey, he, ih h.2]

/-- **Insertion changes one bucket.** -/
theorem bucket_insert (c : Catalog) (d : Declaration) (k : Kind) : (c.insert d).bucket k =
    if k = d.kind then Entries.set d.name (fun _ => d) (c.bucket k) else c.bucket k := by
  rw [bucket, insert, filter_put]
  by_cases h : k = d.kind
  · have hkind : ∀ e ∈ c.declarations.filter (·.kind = k), e.kind = d.kind := fun e he =>
      h ▸ of_decide_eq_true (List.mem_filter.1 he).2
    rw [if_pos h, if_pos h, bucket, set_map_name hkind]
  · rw [if_neg h, if_neg h, bucket]

/-- A new kind comes last. -/
theorem kinds_insert (c : Catalog) (d : Declaration) : (c.insert d).kinds =
    if d.kind ∈ c.kinds then c.kinds else c.kinds ++ [d.kind] := by
  have hkeys : (c.insert d).keys = if d.key ∈ c.keys then c.keys else c.keys ++ [d.key] :=
    keys_put d c.declarations
  rw [kinds_eq, hkeys, kinds_eq c]
  by_cases hkey : d.key ∈ c.keys
  · have hmem : d.kind ∈ (c.keys.map (·.1)).eraseDups :=
      List.mem_eraseDups.2 (List.mem_map_of_mem hkey)
    rw [if_pos hkey, if_pos hmem]
  · rw [if_neg hkey, List.map_append, List.map_singleton, eraseDups_concat]
    simp only [List.mem_eraseDups]
    rfl

/-- **Insertion into buckets is insertion into the catalog.** -/
theorem buckets_insert (c : Catalog) (d : Declaration) :
    (c.insert d).buckets = c.buckets.insert d := by
  rw [buckets, buckets, Buckets.insert, Entries.set_map c.nodup_kinds, kinds_insert]
  refine List.map_congr_left fun k _ => ?_
  rw [bucket_insert]
  by_cases h : k = d.kind
  · subst h
    by_cases hmem : d.kind ∈ c.kinds
    · simp [hmem]
    · have hnil : c.bucket d.kind = [] := by simpa [mem_kinds_iff_bucket_ne_nil] using hmem
      simp [hmem, hnil]
  · simp [h]

/-- So the buckets of a history are those of its catalog. -/
theorem buckets_ofList (ds : List Declaration) : (ofList ds).buckets = Buckets.ofList ds :=
  (List.foldl_hom buckets fun c d => (buckets_insert c d).symm).symm

/-! ### What is in the buckets -/

/-- **A kind has a bucket if and only if there is a declaration in it.** -/
theorem get?_buckets (c : Catalog) (k : Kind) : Entries.get? k c.buckets =
    if c.bucket k = [] then none else some (c.bucket k) := by
  have hfind : ∀ l : List Kind,
      Entries.get? k (l.map fun x => (x, c.bucket x)) =
        if k ∈ l then some (c.bucket k) else none := by
    intro l
    induction l with
    | nil => rfl
    | cons first l ih =>
      by_cases h : first = k
      · simp [Entries.get?, h]
      · have hrest : Entries.get? k ((first :: l).map fun x => (x, c.bucket x)) =
            Entries.get? k (l.map fun x => (x, c.bucket x)) := by simp [Entries.get?, h]
        rw [hrest, ih]
        simp [Ne.symm h]
  rw [buckets, hfind]
  by_cases h : c.bucket k = [] <;> simp [mem_kinds_iff_bucket_ne_nil, h]

/-- A declaration is found in the bucket of its kind, under its name. -/
theorem get?_bucket (c : Catalog) (k : Kind) (name : String) :
    Entries.get? name (c.bucket k) = c.get? k name := by
  rw [bucket, Entries.get?_map, List.find?_filter, get?]
  congr 1
  funext e
  simp [key]

/-- The bucket of a kind has the declarations of the kind, each under its own
name. -/
theorem get?_buckets_eq_map (c : Catalog) (k : Kind) : Entries.get? k c.buckets =
    (c.ofKind? k).map (·.map fun d => (d.name, d)) := by
  rw [get?_buckets, bucket, ofKind?]
  cases c.declarations.filter (·.kind = k) <;> simp

/-- There is no bucket in the empty catalog only. -/
theorem buckets_eq_nil_iff : c.buckets = [] ↔ c.isEmpty := by
  rw [buckets, List.map_eq_nil_iff, isEmpty, List.isEmpty_iff]
  constructor
  · intro h
    refine List.eq_nil_iff_forall_not_mem.2 fun d hd => ?_
    have hkind : d.kind ∈ c.kinds := List.mem_eraseDups.2 (List.mem_map_of_mem hd)
    rw [h] at hkind
    cases hkind
  · intro h
    rw [kinds, h]
    rfl

/-- The buckets one after the other have all declarations, kind by kind. -/
theorem toList_eq_flatMap_buckets (c : Catalog) :
    c.toList = c.buckets.flatMap fun e => e.2.map (·.2) := by
  rw [toList, buckets, List.flatMap_map]
  refine congrArg (List.flatMap · c.kinds) (funext fun k => ?_)
  rw [bucket, List.map_map]
  exact (List.map_id' _).symm

/-- What stands in the bucket of a kind. -/
theorem mem_bucket_iff {f : String × Declaration} :
    f ∈ c.bucket k ↔ f.2 ∈ c.declarations ∧ f.2.key = (k, f.1) := by
  obtain ⟨name, d⟩ := f
  simp only [bucket, List.mem_map, List.mem_filter, decide_eq_true_eq, Prod.mk.injEq, key]
  constructor
  · rintro ⟨e, ⟨he, hk⟩, hn, rfl⟩
    exact ⟨he, hk, hn⟩
  · rintro ⟨hd, hk, hn⟩
    exact ⟨d, ⟨hd, hk⟩, hn, rfl⟩

theorem mem_buckets_iff {e : Kind × Entries String Declaration} :
    e ∈ c.buckets ↔ e.1 ∈ c.kinds ∧ e.2 = c.bucket e.1 := by
  obtain ⟨k, entries⟩ := e
  simp only [buckets, List.mem_map, Prod.mk.injEq]
  constructor
  · rintro ⟨k, hk, rfl, rfl⟩
    exact ⟨hk, rfl⟩
  · rintro ⟨hk, rfl⟩
    exact ⟨k, hk, rfl, rfl⟩

/-- There is at most one bucket for a kind. -/
theorem nodup_keys_buckets (c : Catalog) : (c.buckets.map (·.1)).Nodup := by
  have hkinds : c.buckets.map (·.1) = c.kinds := by
    rw [buckets, List.map_map]
    exact List.map_id' _
  exact hkinds ▸ c.nodup_kinds

/-- There is at most one declaration in a bucket under a name. -/
theorem nodup_keys_bucket (c : Catalog) (k : Kind) : ((c.bucket k).map (·.1)).Nodup := by
  rw [bucket, List.map_map]
  refine List.Nodup.map_on (fun d hd e he hname => ?_) (c.nodup.of_map.filter _)
  obtain ⟨hd, hkind⟩ := List.mem_filter.1 hd
  obtain ⟨he, hkind'⟩ := List.mem_filter.1 he
  have hkey : d.key = e.key :=
    Prod.ext ((of_decide_eq_true hkind).trans (of_decide_eq_true hkind').symm) hname
  exact List.inj_on_of_nodup_map c.nodup hd he hkey

/-- **The buckets of a catalog are well formed.** -/
theorem wellFormed_buckets (c : Catalog) : c.buckets.WellFormed where
  nodup_kinds := c.nodup_keys_buckets
  ne_nil := by
    intro e he
    obtain ⟨hkind, hbucket⟩ := mem_buckets_iff.1 he
    exact hbucket ▸ mem_kinds_iff_bucket_ne_nil.1 hkind
  nodup_names := by
    intro e he
    exact (mem_buckets_iff.1 he).2 ▸ c.nodup_keys_bucket e.1
  key_eq := by
    intro e he f hf
    rw [(mem_buckets_iff.1 he).2] at hf
    exact (mem_bucket_iff.1 hf).2

/-- **The declarations of a catalog are those in its buckets.** -/
theorem mem_declarations_iff_buckets :
    d ∈ c.declarations ↔ ∃ e ∈ c.buckets, (d.name, d) ∈ e.2 := by
  constructor
  · intro hd
    have hkind : d.kind ∈ c.kinds := List.mem_eraseDups.2 (List.mem_map_of_mem hd)
    exact ⟨(d.kind, c.bucket d.kind), mem_buckets_iff.2 ⟨hkind, rfl⟩, mem_bucket_iff.2 ⟨hd, rfl⟩⟩
  · rintro ⟨e, he, hd⟩
    rw [(mem_buckets_iff.1 he).2] at hd
    exact (mem_bucket_iff.1 hd).1

/-! ### The buckets of a scan -/

/-- **What a scan of any bytes holds.** Each declaration is found under its own
kind and name, and lies in the text. Two of them lie on different lines,
whatever their kinds are. No kind is there without a declaration. So it is in
the buckets to which the declarations were added one by one: they have the
same declarations, each in the bucket of its kind and under its name. -/
theorem scan_layout (text : Bytes) :
    (∀ k name d, (scan text).get? k name = some d → d.key = (k, name)) ∧
    (∀ d ∈ (scan text).declarations, (scan text).get? d.kind d.name = some d ∧ d.LiesIn text) ∧
    (∀ d ∈ (scan text).declarations, ∀ e ∈ (scan text).declarations, d ≠ e →
      d.Precedes text e ∨ e.Precedes text d) ∧
    (∀ k, k ∈ (scan text).kinds ↔ ∃ d ds, (scan text).ofKind? k = some (d :: ds)) ∧
    (∀ k ds, (scan text).ofKind? k = some ds →
      ds ≠ [] ∧ ∀ d ∈ ds, d.kind = k ∧ d ∈ (scan text).declarations) ∧
    (Buckets.ofList (Kind.all.flatMap (allOf · text))).WellFormed ∧
    ∀ d, d ∈ (scan text).declarations ↔
      ∃ e ∈ Buckets.ofList (Kind.all.flatMap (allOf · text)), (d.name, d) ∈ e.2 := by
  refine ⟨fun k name d => key_of_get?_eq_some, fun d hd => ⟨get?_of_mem hd, liesIn_of_mem_scan hd⟩,
    fun d hd e he => precedes_or_precedes_of_mem_scan hd he, fun k => mem_kinds_iff,
    fun k ds hds => ?_, ?_, fun d => ?_⟩
  · obtain ⟨hne, rfl⟩ := ofKind?_eq_some_iff.1 hds
    refine ⟨hne, fun d hd => ?_⟩
    obtain ⟨hmem, hkind⟩ := List.mem_filter.1 hd
    exact ⟨of_decide_eq_true hkind, hmem⟩
  · rw [← buckets_ofList]
    exact wellFormed_buckets (scan text)
  · rw [← buckets_ofList]
    exact mem_declarations_iff_buckets

end Catalog

end SiteConfig
