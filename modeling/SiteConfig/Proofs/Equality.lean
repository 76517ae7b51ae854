import Mathlib.Data.List.Perm.Subperm
import SiteConfig.Proofs.History
/-!
# Equal catalogs

Catalogs are compared by their sizes and by a look-up of each declaration of the
one in the other. That they agree on every look-up then follows, as no key is
held twice (`Entries.same_iff`). It follows in the same way where the catalogs
are kept in buckets, and these are compared bucket by bucket, as no bucket is
empty (`Catalog.same_buckets_iff`).

So a catalog is told up to equality by the last declaration of each kind and name
in its history. The order of a history shows in the order of the catalog only
(`Catalog.beq_ofList_iff`).
-/

namespace SiteConfig

namespace Entries

variable {κ α : Type} [DecidableEq κ] {same : α → α → Prop} {a b : Entries κ α} {key : κ}

/-- As many entries on both sides, and each of the ones is the same as the one
under its key among the others. -/
def Same (same : α → α → Prop) (a b : Entries κ α) : Prop :=
  a.length = b.length ∧ ∀ e ∈ a, ∃ x, get? e.1 b = some x ∧ same e.2 x

theorem get?_eq_none_iff : get? key a = none ↔ key ∉ a.map (·.1) := by
  rw [get?, Option.map_eq_none_iff, List.find?_eq_none, List.mem_map]
  constructor
  · rintro h ⟨e, he, hkey⟩
    exact h e he (decide_eq_true hkey)
  · exact fun h e he hkey => h ⟨e, he, of_decide_eq_true hkey⟩

theorem mem_of_get?_eq_some {x : α} (h : get? key a = some x) : (key, x) ∈ a := by
  obtain ⟨⟨key', x'⟩, hfind, rfl⟩ := Option.map_eq_some_iff.1 h
  have hkey := List.find?_some hfind
  obtain rfl : key' = key := of_decide_eq_true hkey
  exact List.mem_of_find?_eq_some hfind

/-- An entry is found under its key, as no other has that key. -/
theorem get?_of_mem (ha : (a.map (·.1)).Nodup) {e : κ × α} (he : e ∈ a) :
    get? e.1 a = some e.2 := by
  cases h : get? e.1 a with
  | none => exact absurd (List.mem_map_of_mem he) (get?_eq_none_iff.1 h)
  | some x =>
    have hsame := List.inj_on_of_nodup_map ha (mem_of_get?_eq_some h) he rfl
    exact congrArg (fun e : κ × α => some e.2) hsame

theorem eq_none_iff_of_rel {x y : Option α} (h : Option.Rel same x y) : x = none ↔ y = none := by
  cases h <;> simp

/-- **Entries are the same if and only if they are under every key**, where no
key has two. -/
theorem same_iff (ha : (a.map (·.1)).Nodup) (hb : (b.map (·.1)).Nodup) :
    Same same a b ↔ ∀ key, Option.Rel same (get? key a) (get? key b) := by
  constructor
  · rintro ⟨hlength, h⟩ key
    have hsub : a.map (·.1) ⊆ b.map (·.1) := by
      intro key hkey
      obtain ⟨e, he, rfl⟩ := List.mem_map.1 hkey
      obtain ⟨x, hx, -⟩ := h e he
      exact List.mem_map.2 ⟨(e.1, x), mem_of_get?_eq_some hx, rfl⟩
    -- there are no more keys on the other side
    have hkeys : (a.map (·.1)).Perm (b.map (·.1)) :=
      (List.subperm_of_subset ha hsub).perm_of_length_le (by simp [hlength])
    cases hkey : get? key a with
    | none =>
      have hnone : get? key b = none :=
        get?_eq_none_iff.2 fun hmem => get?_eq_none_iff.1 hkey (hkeys.mem_iff.2 hmem)
      rw [hnone]
      exact .none
    | some x =>
      obtain ⟨y, hy, hxy⟩ := h (key, x) (mem_of_get?_eq_some hkey)
      rw [hy]
      exact .some hxy
  · intro h
    have hkeys : (a.map (·.1)).Perm (b.map (·.1)) := by
      refine (List.perm_ext_iff_of_nodup ha hb).2 fun key => not_iff_not.1 ?_
      rw [← get?_eq_none_iff, ← get?_eq_none_iff]
      exact eq_none_iff_of_rel (h key)
    refine ⟨by simpa using hkeys.length_eq, fun e he => ?_⟩
    have hrel := h e.1
    rw [get?_of_mem ha he] at hrel
    generalize get? e.1 b = found at hrel
    cases hrel with
    | some hsame => exact ⟨_, rfl, hsame⟩

theorem rel_eq_iff {x y : Option α} : Option.Rel (· = ·) x y ↔ x = y := by
  constructor
  · rintro (rfl | -) <;> rfl
  · rintro rfl
    cases x with
    | none => exact .none
    | some x => exact .some rfl

end Entries

namespace Catalog

open Declaration

variable {a b c : Catalog} {k : Kind}

/-! ## One list -/

/-- The declarations under their keys. -/
def entries (c : Catalog) : Entries (Kind × String) Declaration :=
  c.declarations.map fun d => (d.key, d)

theorem nodup_keys_entries (c : Catalog) : (c.entries.map (·.1)).Nodup := by
  rw [entries, List.map_map]
  exact c.nodup

theorem get?_entries (c : Catalog) (k : Kind) (name : String) :
    Entries.get? (k, name) c.entries = c.get? k name := Entries.get?_map key c.declarations

/-- The comparison of two catalogs is that of their entries. -/
theorem beq_iff_same : a == b ↔ Entries.Same (· = ·) a.entries b.entries := by
  have hbeq : (a == b) = (decide (a.size = b.size) &&
      a.declarations.all fun d => b.get? d.kind d.name = some d) := rfl
  rw [hbeq, Bool.and_eq_true, decide_eq_true_eq, List.all_eq_true, Entries.Same]
  refine and_congr (by simp [entries, size]) ?_
  rw [entries, List.forall_mem_map]
  refine forall₂_congr fun d _ => ?_
  rw [decide_eq_true_eq, ← get?_entries]
  simp [key]

/-- **Equality is agreement on look-ups.** -/
theorem beq_iff_get? : a == b ↔ ∀ k name, a.get? k name = b.get? k name := by
  rw [beq_iff_same, Entries.same_iff a.nodup_keys_entries b.nodup_keys_entries]
  simp only [Entries.rel_eq_iff, Prod.forall, get?_entries]

/-! ## Bucket by bucket -/

/-- **No bucket is empty**, so a bucket that is not there is the same as an empty
one to both sides. -/
theorem rel_get?_buckets_iff :
    Option.Rel (Entries.Same (· = ·)) (Entries.get? k a.buckets) (Entries.get? k b.buckets) ↔
      Entries.Same (· = ·) (a.bucket k) (b.bucket k) := by
  rw [get?_buckets, get?_buckets]
  by_cases ha : a.bucket k = [] <;> by_cases hb : b.bucket k = []
  · simp [ha, hb, Entries.Same]
  · have hlength : 0 ≠ (b.bucket k).length := fun h => hb (List.length_eq_zero_iff.1 h.symm)
    simp [ha, hb, Entries.Same, hlength]
  · simp [ha, hb, Entries.Same]
  · simp [ha, hb]

/-- Equality bucket by bucket is agreement on look-ups, too. -/
theorem same_buckets_iff : Entries.Same (Entries.Same (· = ·)) a.buckets b.buckets ↔
    ∀ k name, a.get? k name = b.get? k name := by
  rw [Entries.same_iff a.nodup_keys_buckets b.nodup_keys_buckets]
  refine forall_congr' fun k => ?_
  rw [rel_get?_buckets_iff,
    Entries.same_iff (a.nodup_keys_bucket k) (b.nodup_keys_bucket k)]
  simp only [Entries.rel_eq_iff, get?_bucket]

/-! ## Two histories -/

/-- Histories in which the same declarations come last give equal catalogs, and
only such histories do. -/
theorem beq_ofList_iff_isLast {ds es : List Declaration} : ofList ds == ofList es ↔
    ∀ k name d, IsLast (fun e => e.key = (k, name)) ds d ↔
      IsLast (fun e => e.key = (k, name)) es d := by
  rw [beq_iff_get?]
  refine forall₂_congr fun k name => ?_
  rw [Option.ext_iff]
  simp only [get?_ofList_eq_some_iff]

/-- Two variables inserted the other way round are listed the other way round. -/
theorem exists_other_order : ∃ ds es : List Declaration, ds.Perm es ∧
    (∀ k name d, IsLast (fun e => e.key = (k, name)) ds d ↔
      IsLast (fun e => e.key = (k, name)) es d) ∧
    (ofList ds).ofKind? .var ≠ (ofList es).ofKind? .var ∧
    (ofList ds).toList ≠ (ofList es).toList :=
  ⟨[⟨.var, "a", "1", "$a = 1;", ⟨0, 7⟩, ⟨5, 6⟩⟩, ⟨.var, "b", "2", "$b = 2;", ⟨8, 15⟩, ⟨13, 14⟩⟩],
    [⟨.var, "b", "2", "$b = 2;", ⟨8, 15⟩, ⟨13, 14⟩⟩, ⟨.var, "a", "1", "$a = 1;", ⟨0, 7⟩, ⟨5, 6⟩⟩],
    .swap _ _ _, beq_ofList_iff_isLast.1 (by decide), by decide, by decide⟩

/-- **Catalogs of two histories are equal if and only if they agree on every
look-up**, and it is the same for their buckets. So it matters only which
declaration of each kind and name was inserted last. Declarations may be inserted
in any other order in which that one is still the last, and this may show in the
order of the catalog, but not in equality. -/
theorem beq_ofList_iff :
    (∀ ds es : List Declaration,
      (ofList ds == ofList es ↔
        ∀ k name, (ofList ds).get? k name = (ofList es).get? k name) ∧
      (Entries.Same (Entries.Same (· = ·)) (Buckets.ofList ds) (Buckets.ofList es) ↔
        ∀ k name, (ofList ds).get? k name = (ofList es).get? k name) ∧
      (ofList ds == ofList es ↔
        ∀ k name d, IsLast (fun e => e.key = (k, name)) ds d ↔
          IsLast (fun e => e.key = (k, name)) es d)) ∧
    ∃ ds es : List Declaration, ds.Perm es ∧
      (∀ k name d, IsLast (fun e => e.key = (k, name)) ds d ↔
        IsLast (fun e => e.key = (k, name)) es d) ∧
      (ofList ds).ofKind? .var ≠ (ofList es).ofKind? .var ∧
      (ofList ds).toList ≠ (ofList es).toList := by
  refine ⟨fun ds es => ⟨beq_iff_get?, ?_, beq_ofList_iff_isLast⟩, exists_other_order⟩
  rw [← buckets_ofList, ← buckets_ofList]
  exact same_buckets_iff

end Catalog

end SiteConfig
