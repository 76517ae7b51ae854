import Mathlib.Data.List.Nodup
import SiteConfig.Proofs.Frame
/-!
# Where declarations lie

The spans of a scan are sums of lengths, and an edit cuts the text at them
without looking at it. This module says what the edit may rely on. A
declaration that a scan finds lies in the text (`Declaration.LiesIn`): it
starts a line and ends on it, its source is spelled at its span, and its
value at the span within. Two of them lie on different lines
(`Declaration.Precedes`).

All this holds of any bytes (`Catalog.liesIn_of_mem_scan`,
`Catalog.precedes_or_precedes_of_mem_scan`). It is read off the places at which
the declarations are found.
-/

namespace SiteConfig

open Bytes Line Declaration

theorem Bytes.extent_append (a b : List Bytes) : extent (a ++ b) = extent a + extent b := by
  simp only [← length_flatMap_lines, List.flatMap_append, List.length_append]

/-- A terminator ends in its semicolon. -/
theorem Line.IsTerminator.semicolon_suffix {k : Kind} {t : Bytes} (h : IsTerminator k t) :
    [ascii ';'] <:+ t := by
  cases h with
  | @const b₁ b₂ h₁ h₂ => exact ⟨b₁ ++ ascii ')' :: b₂, by simp⟩
  | @var b₁ h₁ => exact List.suffix_append b₁ _

namespace Declaration

/-- A declaration lies in a text. -/
structure LiesIn (text : Bytes) (d : Declaration) : Prop where
  isName : Text.IsName d.name
  start_le : d.span.start ≤ d.valueSpan.start
  valueStart_le : d.valueSpan.start ≤ d.valueSpan.stop
  valueStop_lt : d.valueSpan.stop < d.span.stop
  stop_le : d.span.stop ≤ text.length
  /-- It starts where the text does, or directly after a line feed. -/
  startsLine : d.span.start = 0 ∨ [lineFeed] <:+ text.take d.span.start
  lineFeed_not_mem : lineFeed ∉ d.span.slice text
  semicolon_suffix : [ascii ';'] <:+ d.span.slice text
  /-- Neither end of the value is a blank. -/
  value_first : ∀ b, (d.valueSpan.slice text).head? = some b → ¬ isBlank b
  value_last : ∀ b, (d.valueSpan.slice text).getLast? = some b → ¬ isBlank b
  source_eq : d.source = decode (d.span.slice text)
  value_eq : d.value = decode (d.valueSpan.slice text)
  /-- Counted from the start of the declaration, the value is still found. -/
  slice_source : d.valueSpanInSource.slice (d.span.slice text) = d.valueSpan.slice text

/-- One declaration ends before the other starts, with a line feed in between. -/
def Precedes (text : Bytes) (d e : Declaration) : Prop :=
  d.span.stop < e.span.start ∧ lineFeed ∈ Span.slice ⟨d.span.stop, e.span.start⟩ text

end Declaration

/-! ## At a place -/

namespace Place

variable {k k' : Kind} {name name' : String} {text : Bytes}
variable (p : Place k name text) (q : Place k' name' text)

/-- The declaration starts where the text does, or after the line feed of the
line before. -/
theorem startsLine : p.declaration.span.start = 0 ∨
    [lineFeed] <:+ text.take p.declaration.span.start := by
  rcases List.eq_nil_or_concat p.before with hnil | ⟨before, line, hbefore⟩
  · exact .inl (by rw [declaration, offset, hnil, extent])
  · right
    rw [p.take_declaration, hbefore, List.concat_eq_append, List.flatMap_append,
      List.flatMap_singleton, ← List.append_assoc]
    exact List.suffix_append _ _

/-- **The declaration at a place lies in the text.** -/
theorem liesIn : p.declaration.LiesIn text where
  isName := p.isName
  start_le := Nat.le_add_right _ _
  valueStart_le := Nat.le_add_right _ _
  valueStop_lt := by
    have htail := List.length_pos_iff.2 p.isTerminator.ne_nil
    simp only [declaration]
    omega
  stop_le := by
    have hlen := congrArg List.length p.slice_declaration
    have htail := List.length_pos_iff.2 p.isTerminator.ne_nil
    simp only [Span.slice, List.length_take, List.length_drop, List.length_append] at hlen
    simp only [declaration] at hlen ⊢
    omega
  startsLine := p.startsLine
  lineFeed_not_mem := by
    rw [p.slice_declaration]
    intro hmem
    refine p.lineFeed_not_mem_line ?_
    rw [p.line_eq]
    exact List.mem_append_left _ hmem
  semicolon_suffix := by
    rw [p.slice_declaration, ← List.append_assoc]
    exact p.isTerminator.semicolon_suffix.trans (List.suffix_append _ _)
  value_first := by
    intro b hb
    rw [p.slice_value] at hb
    refine skipBlanks_eq_self_iff.1 p.skipBlanks_eq b ?_
    rw [List.head?_append, hb, Option.some_or]
  value_last := by
    rw [p.slice_value]
    exact endsPlain_of_value? p.value?_eq
  source_eq := by rw [p.slice_declaration, declaration]
  value_eq := by rw [p.slice_value, declaration]
  slice_source := by
    rw [p.slice_declaration, p.slice_value, p.valueSpanInSource_declaration, Span.slice,
      List.drop_left, Nat.add_sub_cancel_left, List.take_left]

/-- **A line feed parts two places**: that of the line of the first one. -/
theorem precedes (h : p.before.length < q.before.length) :
    p.declaration.Precedes text q.declaration := by
  obtain ⟨mid, hbefore, hafter⟩ := p.exists_lines_between q h
  have hdrop : text.drop p.declaration.span.stop =
      p.rest ++ lineFeed :: ((mid ++ q.line :: q.after).flatMap (lineFeed :: ·)).tail := by
    rw [p.drop_declaration, between, hafter]
    cases mid <;> rfl
  have hstart : q.declaration.span.start =
      p.declaration.span.stop + (p.rest.length + 1 + extent mid) := by
    have hline := congrArg List.length p.line_eq
    simp only [List.length_append] at hline
    have hq : q.declaration.span.start = extent (p.before ++ p.line :: mid) := by
      rw [← hbefore]
      rfl
    rw [hq, extent_append, extent, hline]
    simp only [declaration, offset]
    omega
  refine ⟨by omega, ?_⟩
  rw [Span.slice, hstart, Nat.add_sub_cancel_left, hdrop, Nat.add_assoc,
    List.take_length_add_append, Nat.add_comm 1, List.take_succ_cons]
  exact List.mem_append_right _ List.mem_cons_self

end Place

/-! ## In a catalog -/

namespace Catalog

variable {c : Catalog} {k : Kind} {name : String} {d : Declaration}

/-- What is found under a key has that key. -/
theorem key_of_get?_eq_some (h : c.get? k name = some d) : d.key = (k, name) := by
  have hkey := List.find?_some h
  exact of_decide_eq_true hkey

/-- **What is in a catalog is found under its key**, as no other declaration
has that key. -/
theorem get?_of_mem (h : d ∈ c.declarations) : c.get? d.kind d.name = some d := by
  obtain ⟨e, he⟩ : ∃ e, c.get? d.kind d.name = some e :=
    Option.isSome_iff_exists.1 (List.find?_isSome.2 ⟨d, h, by simp [key]⟩)
  have hkey : e.key = d.key := key_of_get?_eq_some he
  rw [he, List.inj_on_of_nodup_map c.nodup (List.mem_of_find?_eq_some he) h hkey]

/-- The declarations of a kind, if there are any. -/
theorem ofKind?_eq_some_iff {ds : List Declaration} :
    c.ofKind? k = some ds ↔ ds ≠ [] ∧ ds = c.declarations.filter (·.kind = k) := by
  rw [ofKind?]
  split
  · next h =>
    rw [h]
    exact iff_of_false (by simp) fun hds => hds.1 hds.2
  · next hne =>
    rw [Option.some.injEq]
    constructor
    · rintro rfl
      exact ⟨hne, rfl⟩
    · exact fun hds => hds.2.symm

/-- A kind is listed where there are declarations of it. -/
theorem mem_kinds_iff : k ∈ c.kinds ↔ ∃ d ds, c.ofKind? k = some (d :: ds) := by
  rw [kinds, List.mem_eraseDups, List.mem_map]
  constructor
  · rintro ⟨d, hd, rfl⟩
    have hmem : d ∈ c.declarations.filter (·.kind = d.kind) :=
      List.mem_filter.2 ⟨hd, decide_eq_true rfl⟩
    obtain ⟨e, ds, hds⟩ := List.exists_cons_of_ne_nil (List.ne_nil_of_mem hmem)
    exact ⟨e, ds, ofKind?_eq_some_iff.2 ⟨List.cons_ne_nil e ds, hds.symm⟩⟩
  · rintro ⟨d, ds, hds⟩
    have hmem : d ∈ c.declarations.filter (·.kind = k) :=
      (ofKind?_eq_some_iff.1 hds).2 ▸ List.mem_cons_self
    exact ⟨d, List.mem_of_mem_filter hmem, of_decide_eq_true (List.mem_filter.1 hmem).2⟩

/-- What a scan finds has a place. -/
theorem exists_place_of_mem_scan {text : Bytes} (h : d ∈ (scan text).declarations) :
    ∃ p : Place d.kind d.name text, p.declaration = d :=
  Place.exists_of_get? (get?_of_mem h)

/-- **What a scan finds lies in the text**, whatever the bytes are. -/
theorem liesIn_of_mem_scan {text : Bytes} (h : d ∈ (scan text).declarations) : d.LiesIn text := by
  obtain ⟨p, hp⟩ := exists_place_of_mem_scan h
  exact hp ▸ p.liesIn

/-- **Two declarations lie on different lines**, whatever their kinds are. -/
theorem precedes_or_precedes_of_mem_scan {text : Bytes} {e : Declaration}
    (hd : d ∈ (scan text).declarations) (he : e ∈ (scan text).declarations) (hne : d ≠ e) :
    d.Precedes text e ∨ e.Precedes text d := by
  obtain ⟨p, hp⟩ := exists_place_of_mem_scan hd
  obtain ⟨q, hq⟩ := exists_place_of_mem_scan he
  have hkey : (d.kind, d.name) ≠ (e.kind, e.name) := fun h =>
    hne (List.inj_on_of_nodup_map (scan text).nodup hd he h)
  rcases Nat.lt_or_gt_of_ne (p.length_before_ne q hkey) with hlt | hgt
  · exact .inl (hp ▸ hq ▸ p.precedes q hlt)
  · exact .inr (hp ▸ hq ▸ q.precedes p hgt)

end Catalog

end SiteConfig
