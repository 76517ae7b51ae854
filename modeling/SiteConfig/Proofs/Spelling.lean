import SiteConfig.Proofs.Lookup
import SiteConfig.Proofs.Reading
import SiteConfig.Proofs.TextGrammar
/-!
# How a declaration is spelled

The grammar of a declaration on its line, without a reader. A head comes
first, with all the blanks after it. Where a terminator stands in what is
left, there is a value: the literal at the start, if a terminator comes
directly after it, and otherwise the shortest text that one comes directly
after (`IsValue`). `Spells` puts the parts together, with the texts and the
spans of the declaration.

The readers accept just this (`value?_eq_some_iff`, `ofLine?_eq_some_iff`),
and a scan of a line finds at most one declaration, the one the line spells
(`mem_scan_line_iff`).
-/

namespace SiteConfig

open Bytes

namespace Line

variable {k : Kind} {text v w r t : Bytes}

/-! ## Where a value may end -/

/-- The text starts with `v`, and a terminator comes directly after it. -/
def EndsAfter (k : Kind) (text v : Bytes) : Prop := ∃ t, IsTerminator k t ∧ v ++ t <+: text

/-- The value at the start of a text. -/
inductive IsValue (k : Kind) (text v : Bytes) : Prop
  /-- It is the literal at the start. -/
  | literal : IsLiteral v → EndsAfter k text v → IsValue k text v
  /-- No literal ends in front of a terminator, and it is the shortest text
  that does. -/
  | shortest : (∀ l, IsLiteral l → ¬ EndsAfter k text l) → EndsAfter k text v →
      (∀ w, EndsAfter k text w → v.length ≤ w.length) → IsValue k text v

theorem endsAfter_append (ht : IsTerminator k t) : EndsAfter k (v ++ (t ++ r)) v :=
  ⟨t, ht, r, by rw [List.append_assoc]⟩

theorem endsAfter_iff : EndsAfter k text v ↔ ∃ t r, IsTerminator k t ∧ text = v ++ (t ++ r) := by
  constructor
  · rintro ⟨t, ht, r, rfl⟩
    exact ⟨t, r, ht, List.append_assoc v t r⟩
  · rintro ⟨t, r, ht, rfl⟩
    exact endsAfter_append ht

/-- Some text ends in front of each terminator. -/
theorem hasTerminator_iff : HasTerminator k text ↔ ∃ v, EndsAfter k text v := by
  constructor
  · rintro ⟨t, ht, a, b, rfl⟩
    exact ⟨a, t, ht, List.prefix_append _ b⟩
  · rintro ⟨v, t, ht, hp⟩
    exact ⟨t, ht, (List.suffix_append v t).isInfix.trans hp.isInfix⟩

/-- One terminator at most starts a text. -/
theorem IsTerminator.unique {t' r' : Bytes} (ht : IsTerminator k t) (ht' : IsTerminator k t')
    (h : t ++ r = t' ++ r') : t = t' := by
  have hread := terminator?_append ht r
  rw [h, terminator?_append ht' r', Option.some.injEq] at hread
  rw [hread] at h
  exact List.append_cancel_right h

/-- And one literal. -/
theorem IsLiteral.unique {l l' s s' : Bytes} (hl : IsLiteral l) (hl' : IsLiteral l')
    (h : l ++ s = l' ++ s') : l = l' := by
  have hread : literal? (l ++ s) = some (l, s) := literal?_eq_some_iff.2 ⟨hl, rfl⟩
  rw [h, literal?_eq_some_iff.2 ⟨hl', rfl⟩, Option.some.injEq, Prod.mk.injEq] at hread
  exact hread.1.symm

/-! ## The value -/

namespace IsValue

theorem endsAfter (h : IsValue k text v) : EndsAfter k text v := by
  cases h <;> assumption

/-- **A text has one value.** -/
theorem unique (hv : IsValue k text v) (hw : IsValue k text w) : v = w := by
  obtain ⟨t, r, -, htext⟩ := endsAfter_iff.1 hv.endsAfter
  obtain ⟨t', r', -, htext'⟩ := endsAfter_iff.1 hw.endsAfter
  have hsplit := htext.symm.trans htext'
  cases hv with
  | literal hlit hend =>
    cases hw with
    | literal hlit' _ => exact hlit.unique hlit' hsplit
    | shortest hno _ _ => exact absurd hend (hno v hlit)
  | shortest hno hend hle =>
    cases hw with
    | literal hlit' hend' => exact absurd hend' (hno w hlit')
    | shortest _ hend' hle' =>
      exact (List.append_inj hsplit (Nat.le_antisymm (hle w hend') (hle' v hend))).1

end IsValue

/-- What is read is the value. -/
theorem isValue_of_value?_eq_some (h : value? k text = some (v, r)) : IsValue k text v := by
  obtain ⟨t, ht, htext⟩ := exists_terminator_of_value? h
  have hend : EndsAfter k text v := endsAfter_iff.2 ⟨t, r, ht, htext⟩
  by_cases hlit : ∃ l, IsLiteral l ∧ EndsAfter k text l
  · obtain ⟨l, hl, hlend⟩ := hlit
    obtain ⟨t', r', ht', rfl⟩ := endsAfter_iff.1 hlend
    rw [value?_literal_append hl ht', Option.some.injEq, Prod.mk.injEq] at h
    obtain ⟨rfl, -⟩ := h
    exact .literal hl hlend
  · have hno : ∀ l, IsLiteral l → ¬ EndsAfter k text l := fun l hl hlend => hlit ⟨l, hl, hlend⟩
    refine .shortest hno hend fun w hw => ?_
    have hshort : value? k text = shortest? k text := by
      refine value?_eq_shortest? fun l s hl he => ?_
      cases hs : terminator? k s with
      | none => rfl
      | some r' =>
        obtain ⟨t', ht', rfl⟩ := terminator?_eq_some_iff.1 hs
        exact absurd (endsAfter_iff.2 ⟨t', r', ht', he⟩) (hno l hl)
    rw [hshort] at h
    obtain ⟨rest, hrest, -, hleast⟩ := shortest?_eq_some_iff.1 h
    -- a shorter text would leave the end of `v` in front of its terminator
    obtain ⟨t', r', ht', hw'⟩ := endsAfter_iff.1 hw
    refine Nat.le_of_not_lt fun hlt => ?_
    obtain ⟨a, rfl⟩ : w <+: v :=
      List.prefix_of_prefix_length_le ⟨_, hw'.symm⟩ ⟨rest, hrest.symm⟩ (Nat.le_of_lt hlt)
    have ha : a ≠ [] := by rintro rfl; simp at hlt
    have hnone := hleast a ha (List.suffix_append w a)
    rw [hrest, List.append_assoc, List.append_cancel_left_eq] at hw'
    rw [hw', terminator?_append ht' r'] at hnone
    cases hnone

/-- **The reader reads exactly the value**, and the terminator after it. -/
theorem value?_eq_some_iff : value? k text = some (v, r) ↔
    IsValue k text v ∧ ∃ t, IsTerminator k t ∧ text = v ++ (t ++ r) := by
  constructor
  · exact fun h => ⟨isValue_of_value?_eq_some h, exists_terminator_of_value? h⟩
  · rintro ⟨hv, t, ht, rfl⟩
    obtain ⟨w, r', hread⟩ := exists_value?_append ht v r
    obtain ⟨t', ht', hsplit⟩ := exists_terminator_of_value? hread
    obtain rfl := hv.unique (isValue_of_value?_eq_some hread)
    rw [List.append_cancel_left_eq] at hsplit
    obtain rfl := ht.unique ht' hsplit
    rw [hread, List.append_cancel_left hsplit]

/-- **There is a value where there is a terminator.** -/
theorem exists_isValue_iff : (∃ v, IsValue k text v) ↔ HasTerminator k text := by
  rw [hasTerminator_iff]
  constructor
  · rintro ⟨v, hv⟩
    exact ⟨v, hv.endsAfter⟩
  · rintro ⟨v, hend⟩
    obtain ⟨t, r, ht, rfl⟩ := endsAfter_iff.1 hend
    obtain ⟨w, r', hread⟩ := exists_value?_append ht v r
    exact ⟨w, isValue_of_value?_eq_some hread⟩

end Line

/-! ## The declaration -/

namespace Declaration

open Line

variable {k : Kind} {d : Declaration} {offset : Nat} {line : Bytes}

/-- A line that starts at `offset` spells a declaration. It starts with the
head, `text` is left of it, and this starts with the value and the tail. -/
structure Spells (offset : Nat) (line : Bytes) (d : Declaration) (head text value tail : Bytes) :
    Prop where
  line_eq : line = head ++ text
  isHead : IsHead d.kind (encode d.name) head
  /-- All the blanks in front of the value belong to the head. -/
  skipBlanks_eq : skipBlanks text = text
  isValue : IsValue d.kind text value
  isTerminator : IsTerminator d.kind tail
  isPrefix : value ++ tail <+: text
  value_eq : d.value = decode value
  source_eq : d.source = decode (head ++ (value ++ tail))
  span_eq : d.span = ⟨offset, offset + (head ++ (value ++ tail)).length⟩
  valueSpan_eq : d.valueSpan = ⟨offset + head.length, offset + (head ++ value).length⟩

/-- A line spells one declaration of a kind at most: its parts are read. -/
theorem Spells.ofLine?_eq {head text value tail : Bytes}
    (h : Spells offset line d head text value tail) : ofLine? d.kind offset line = some d := by
  obtain ⟨rest, hrest⟩ := h.isPrefix
  have htext : text = value ++ (tail ++ rest) := by rw [← hrest, List.append_assoc]
  have hvalue : value? d.kind (value ++ (tail ++ rest)) = some (value, rest) :=
    value?_eq_some_iff.2 ⟨htext ▸ h.isValue, tail, h.isTerminator, rfl⟩
  have hskip : skipBlanks (value ++ (tail ++ rest)) = value ++ (tail ++ rest) :=
    htext ▸ h.skipBlanks_eq
  have hsource : line.take (head.length + (value.length + tail.length)) =
      head ++ (value ++ tail) := by
    have hlen : head.length + (value.length + tail.length) =
        (head ++ (value ++ tail)).length := by simp
    have hline : line = head ++ (value ++ tail) ++ rest := by simp [h.line_eq, htext]
    rw [hlen, hline, List.take_left]
  rw [ofLine?, h.line_eq, htext, parts?_append h.isHead hskip hvalue, ← htext, ← h.line_eq,
    Option.map_some, Option.some.injEq]
  show _ = (⟨d.kind, d.name, d.value, d.source, d.span, d.valueSpan⟩ : Declaration)
  simp only [h.value_eq, h.source_eq, h.span_eq, h.valueSpan_eq, decode_encode, hsource,
    List.length_append, Nat.add_assoc]

/-- What is read on a line is spelled there. -/
theorem exists_spells_of_ofLine?_eq_some (h : ofLine? k offset line = some d) :
    ∃ head text value tail, Spells offset line d head text value tail := by
  obtain ⟨p, hp, rfl⟩ := Option.map_eq_some_iff.1 h
  obtain ⟨head, tail, rest, hhead, htail, hline, hskip, hread, hstart, hstop⟩ :=
    exists_of_parts?_eq_some hp
  have hsource : line.take p.stop = head ++ (p.value ++ tail) := by
    have hlen : p.stop = (head ++ (p.value ++ tail)).length := by simp [hstop, Nat.add_assoc]
    have hline' : line = head ++ (p.value ++ tail) ++ rest := by simp [hline]
    rw [hlen, hline', List.take_left]
  refine ⟨head, p.value ++ (tail ++ rest), p.value, tail, ?_⟩
  exact
    { line_eq := hline
      isHead := by rwa [Text.encode_decode_of_isWord hhead.isWord]
      skipBlanks_eq := hskip
      isValue := isValue_of_value?_eq_some hread
      isTerminator := htail
      isPrefix := ⟨rest, List.append_assoc ..⟩
      value_eq := rfl
      source_eq := by rw [hsource]
      span_eq := by simp [hstop, Nat.add_assoc]
      valueSpan_eq := by simp [hstart, Nat.add_assoc] }

/-- **A line is read as the declaration that it spells.** -/
theorem ofLine?_eq_some_iff : ofLine? k offset line = some d ↔
    d.kind = k ∧ ∃ head text value tail, Spells offset line d head text value tail := by
  constructor
  · exact fun h => ⟨kind_of_ofLine? h, exists_spells_of_ofLine?_eq_some h⟩
  · rintro ⟨rfl, head, text, value, tail, h⟩
    exact h.ofLine?_eq

/-- **A line spells a declaration of a kind** where it starts with a head and
has a terminator somewhere after it. -/
theorem exists_ofLine?_iff : (∃ d, ofLine? k offset line = some d) ↔
    ∃ name head text, IsHead k (encode name) head ∧ line = head ++ text ∧
      skipBlanks text = text ∧ HasTerminator k text := by
  constructor
  · rintro ⟨d, hd⟩
    obtain ⟨rfl, head, text, value, tail, h⟩ := ofLine?_eq_some_iff.1 hd
    exact ⟨d.name, head, text, h.isHead, h.line_eq, h.skipBlanks_eq,
      exists_isValue_iff.1 ⟨value, h.isValue⟩⟩
  · rintro ⟨name, head, text, hhead, rfl, hskip, hterm⟩
    obtain ⟨v, hv⟩ := exists_isValue_iff.2 hterm
    obtain ⟨t, r, ht, rfl⟩ := endsAfter_iff.1 hv.endsAfter
    have hread : value? k (v ++ (t ++ r)) = some (v, r) :=
      value?_eq_some_iff.2 ⟨hv, t, ht, rfl⟩
    exact ⟨_, by rw [ofLine?, parts?_append hhead hskip hread, Option.map_some]⟩

/-- A line does not spell declarations of both kinds. -/
theorem ofLine?_eq_none_of_ne {k' : Kind} (h : ofLine? k offset line = some d) (hk : k' ≠ k)
    (offset' : Nat) : ofLine? k' offset' line = none := by
  obtain ⟨rfl, head, text, value, tail, hd⟩ := ofLine?_eq_some_iff.1 h
  rw [ofLine?, parts?, hd.line_eq, head?_append_of_ne hd.isHead hk]
  rfl

/-! ## The scan of a line -/

theorem allOf_line (h : lineFeed ∉ line) (k : Kind) : allOf k line = (ofLine? k 0 line).toList := by
  rw [allOf_eq_lines, lines_eq_singleton h]
  cases hd : ofLine? k 0 line <;> simp [located, hd]

/-- A scan of a line finds what the line is read as. -/
theorem declarations_scan_line (h : lineFeed ∉ line) : (Catalog.scan line).declarations =
    (ofLine? .const 0 line).toList ++ (ofLine? .var 0 line).toList := by
  have hall : Kind.all.flatMap (allOf · line) =
      (ofLine? .const 0 line).toList ++ (ofLine? .var 0 line).toList := by
    simp [Kind.all, allOf_line h]
  rw [Catalog.scan, hall]
  -- only one of the two is there, and a list of one declaration is its own catalog
  cases hc : ofLine? .const 0 line with
  | none => cases ofLine? .var 0 line <;> rfl
  | some d =>
    rw [ofLine?_eq_none_of_ne hc (by decide)]
    rfl

/-- **A scan accepts exactly the grammar of a line.** It finds what the line
spells; it finds something of a kind if and only if a head of the kind
stands at the start of the line, and a terminator somewhere after it; and
it finds no more than one declaration. -/
theorem mem_scan_line_iff (h : lineFeed ∉ line) :
    (∀ d, d ∈ (Catalog.scan line).declarations ↔
      ∃ head text value tail, Spells 0 line d head text value tail) ∧
    (∀ k, (∃ d ∈ (Catalog.scan line).declarations, d.kind = k) ↔
      ∃ name head text, IsHead k (encode name) head ∧ line = head ++ text ∧
        skipBlanks text = text ∧ HasTerminator k text) ∧
    (Catalog.scan line).size ≤ 1 := by
  have hmem : ∀ d, d ∈ (Catalog.scan line).declarations ↔ ofLine? d.kind 0 line = some d := by
    intro d
    rw [declarations_scan_line h, List.mem_append, Option.mem_toList, Option.mem_toList]
    constructor
    · rintro (hd | hd)
      · rwa [kind_of_ofLine? hd]
      · rwa [kind_of_ofLine? hd]
    · intro hd
      cases hk : d.kind with
      | const => exact .inl (hk ▸ hd)
      | var => exact .inr (hk ▸ hd)
  refine ⟨fun d => ?_, fun k => ?_, ?_⟩
  · rw [hmem, ofLine?_eq_some_iff, eq_self, true_and]
  · refine Iff.trans ?_ (exists_ofLine?_iff : (∃ d, ofLine? k 0 line = some d) ↔ _)
    constructor
    · rintro ⟨d, hd, rfl⟩
      exact ⟨d, (hmem d).1 hd⟩
    · rintro ⟨d, hd⟩
      have hk := kind_of_ofLine? hd
      exact ⟨d, (hmem d).2 (hk ▸ hd), hk⟩
  · rw [Catalog.size, declarations_scan_line h]
    cases hc : ofLine? .const 0 line with
    | none => cases ofLine? .var 0 line <;> simp
    | some d =>
      have hv : ofLine? .var 0 line = none := ofLine?_eq_none_of_ne hc (by decide) 0
      simp [hv]

/-- The quotes about a name need not match, a terminator within a literal ends
nothing, and what comes after the first declaration is none. -/
theorem scan_line_literal : lineFeed ∉ encode "DeFine(\"A', 'x);y' ); $b = 1;" ∧
    (∃ head text value tail, Spells 0 (encode "DeFine(\"A', 'x);y' ); $b = 1;")
      ⟨.const, "A", "'x);y'", "DeFine(\"A', 'x);y' );", ⟨0, 21⟩, ⟨12, 18⟩⟩ head text value tail) ∧
    (Catalog.scan (encode "DeFine(\"A', 'x);y' ); $b = 1;")).size ≤ 1 := by
  have h : lineFeed ∉ encode "DeFine(\"A', 'x);y' ); $b = 1;" := by decide +kernel
  obtain ⟨hspells, -, hsize⟩ := mem_scan_line_iff h
  exact ⟨h, (hspells _).1 (by decide +kernel), hsize⟩

end Declaration

end SiteConfig
