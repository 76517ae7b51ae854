import SiteConfig.Proofs.Lookup
import SiteConfig.Proofs.Reading
import SiteConfig.Proofs.TextGrammar
/-!
# The place of a declaration

A name that a scan finds has a place in the text: a line, made up of a
head, the value, a terminator and a rest, between other lines. A place
knows that its parts are what they are called, and that no later line
declares the name. So the scan finds the name there (`Place.get?_scan`),
and wherever it finds a name there is such a place
(`Place.exists_of_get?`).
-/

namespace SiteConfig

open Bytes Line Declaration

/-- Where the declaration of a name stands that a scan of the text finds. -/
structure Place (k : Kind) (name : String) (text : Bytes) where
  /-- The lines before that of the declaration. -/
  before : List Bytes
  /-- The declaration up to its value. -/
  head : Bytes
  value : Bytes
  /-- The declaration from after its value. -/
  tail : Bytes
  /-- The line from after the declaration. -/
  rest : Bytes
  /-- The lines after that of the declaration. -/
  after : List Bytes
  lines_eq : lines text = before ++ (head ++ (value ++ (tail ++ rest))) :: after
  isHead : IsHead k (encode name) head
  isTerminator : IsTerminator k tail
  skipBlanks_eq : skipBlanks (value ++ (tail ++ rest)) = value ++ (tail ++ rest)
  value?_eq : value? k (value ++ (tail ++ rest)) = some (value, rest)
  lastValue?_after : lastValue? k name after = none

namespace Place

variable {k : Kind} {name : String} {text : Bytes}

/-- The line of the declaration. -/
def line (p : Place k name text) : Bytes := p.head ++ (p.value ++ (p.tail ++ p.rest))

/-- Where the line starts. -/
def offset (p : Place k name text) : Nat := extent p.before

/-- The declaration at a place. -/
def declaration (p : Place k name text) : Declaration :=
  { kind := k
    name := name
    value := decode p.value
    source := decode (p.head ++ (p.value ++ p.tail))
    span := ⟨p.offset, p.offset + (p.head.length + p.value.length + p.tail.length)⟩
    valueSpan := ⟨p.offset + p.head.length, p.offset + p.head.length + p.value.length⟩ }

variable (p : Place k name text)

theorem text_eq : text = between p.before p.after p.line := eq_between_of_lines p.lines_eq

theorem lineFeed_not_mem_before : ∀ line ∈ p.before, lineFeed ∉ line := fun _ h =>
  lineFeed_not_mem_of_mem_lines (by rw [p.lines_eq]; exact List.mem_append_left _ h)

theorem lineFeed_not_mem_line : lineFeed ∉ p.line :=
  lineFeed_not_mem_of_mem_lines (by
    rw [p.lines_eq]
    exact List.mem_append_right _ List.mem_cons_self)

theorem lineFeed_not_mem_after : ∀ line ∈ p.after, lineFeed ∉ line := fun _ h =>
  lineFeed_not_mem_of_mem_lines (by
    rw [p.lines_eq]
    exact List.mem_append_right _ (List.mem_cons_of_mem _ h))

/-- The line declares the name. -/
theorem ofLine?_line : ofLine? k p.offset p.line = some p.declaration := by
  have hsource : p.line.take (p.head.length + p.value.length + p.tail.length) =
      p.head ++ (p.value ++ p.tail) := by
    have hlen : p.head.length + p.value.length + p.tail.length =
        (p.head ++ (p.value ++ p.tail)).length := by simp [Nat.add_assoc]
    have hline : p.line = (p.head ++ (p.value ++ p.tail)) ++ p.rest := by simp [line]
    rw [hlen, hline, List.take_left]
  rw [ofLine?, line, parts?_append p.isHead p.skipBlanks_eq p.value?_eq, ← line, Option.map_some]
  simp only [hsource, decode_encode, declaration]

/-- **A scan finds the declaration at a place.** -/
theorem get?_scan : (Catalog.scan text).get? k name = some p.declaration := by
  have hline : (ofLine? k (0 + extent p.before) p.line).filter (·.name = name) =
      some p.declaration := by
    rw [Nat.zero_add]
    change (ofLine? k p.offset p.line).filter _ = _
    rw [p.ofLine?_line]
    simp [Option.filter_some, declaration]
  rw [Declaration.get?_scan, p.lines_eq, last?_append, last?_cons,
    last?_eq_none_iff.2 p.lastValue?_after, Option.none_or]
  change ((ofLine? k (0 + extent p.before) p.line).filter _).or _ = _
  rw [hline, Option.some_or]

/-- **What a scan finds has a place.** -/
theorem exists_of_get? {d : Declaration} (h : (Catalog.scan text).get? k name = some d) :
    ∃ p : Place k name text, p.declaration = d := by
  rw [Declaration.get?_scan] at h
  obtain ⟨before, line, after, hlines, hd, hn, hafter⟩ := exists_line_of_last?_eq_some h
  obtain ⟨q, hq, hqd⟩ := Option.map_eq_some_iff.1 hd
  obtain ⟨head, t, rest, hhead, ht, rfl, hs, hv, -, -⟩ := exists_of_parts?_eq_some hq
  have hname : encode name = q.name := by
    rw [← hn, ← hqd]
    exact Text.encode_decode_of_isWord hhead.isWord
  let p : Place k name text :=
    { before, head, value := q.value, tail := t, rest, after, lines_eq := hlines,
      isHead := hname ▸ hhead, isTerminator := ht, skipBlanks_eq := hs, value?_eq := hv,
      lastValue?_after := hafter }
  refine ⟨p, Option.some.inj ?_⟩
  rw [← p.get?_scan, Declaration.get?_scan, h]

/-- **Where a value is read after a head, there is a place.** The blanks in
front of the value belong to its head. -/
theorem exists_of_value? (before after : List Bytes) {head y v r : Bytes}
    (hlines : lines text = before ++ (head ++ y) :: after) (hhead : IsHead k (encode name) head)
    (hv : value? k (skipBlanks y) = some (v, r)) (hafter : lastValue? k name after = none) :
    ∃ p : Place k name text, p.before = before ∧ p.after = after ∧ p.value = v ∧ p.rest = r ∧
      ∃ blanks, y = blanks ++ skipBlanks y ∧ p.head = head ++ blanks ∧
        skipBlanks y = v ++ (p.tail ++ r) := by
  obtain ⟨t, ht, hy⟩ := exists_terminator_of_value? hv
  obtain ⟨blanks, hblank, hsplit⟩ := exists_blanks y
  let p : Place k name text :=
    { before, head := head ++ blanks, value := v, tail := t, rest := r, after
      lines_eq := by rw [hlines, List.append_assoc, ← hy, ← hsplit]
      isHead := hhead.append_blanks hblank
      isTerminator := ht
      skipBlanks_eq := by rw [← hy, skipBlanks_skipBlanks]
      value?_eq := by rw [← hy, hv]
      lastValue?_after := hafter }
  exact ⟨p, rfl, rfl, rfl, rfl, blanks, hsplit, rfl, hy⟩

/-- If no blank stands in front of the value, the head is as it was given. -/
theorem exists_of_value?_of_skipBlanks (before after : List Bytes) {head y v r : Bytes}
    (hlines : lines text = before ++ (head ++ y) :: after) (hhead : IsHead k (encode name) head)
    (hs : skipBlanks y = y) (hv : value? k y = some (v, r))
    (hafter : lastValue? k name after = none) :
    ∃ p : Place k name text, p.before = before ∧ p.after = after ∧ p.head = head ∧ p.value = v ∧
      p.rest = r ∧ y = v ++ (p.tail ++ r) := by
  rw [← hs] at hv
  obtain ⟨p, hbefore, hafter, hvalue, hrest, blanks, hblank, hhead', hsplit⟩ :=
    exists_of_value? before after hlines hhead hv hafter
  rw [hs] at hblank hsplit
  obtain rfl : blanks = [] := List.append_left_eq_self.1 hblank.symm
  rw [List.append_nil] at hhead'
  exact ⟨p, hbefore, hafter, hhead', hvalue, hrest, hsplit⟩

theorem lineFeed_not_mem_value : lineFeed ∉ p.value := fun h =>
  p.lineFeed_not_mem_line (by simp [line, h])

/-- A value that is found lies on one line. -/
theorem newline_not_mem_value : '\n' ∉ p.declaration.value.toList :=
  newline_not_mem_decode p.lineFeed_not_mem_value

/-! ## The bytes of the declaration -/

theorem line_eq : p.line = (p.head ++ (p.value ++ p.tail)) ++ p.rest := by simp [line]

theorem span_declaration : p.declaration.span =
    ⟨extent p.before + 0, extent p.before + (p.head ++ (p.value ++ p.tail)).length⟩ := by
  simp [declaration, offset, Nat.add_assoc]

theorem length_le_length_line : (p.head ++ (p.value ++ p.tail)).length ≤ p.line.length := by
  simp [line_eq]

/-- The bytes of the declaration. -/
theorem slice_declaration : p.declaration.span.slice text = p.head ++ (p.value ++ p.tail) := by
  calc p.declaration.span.slice text
    _ = p.declaration.span.slice (between p.before p.after p.line) := congrArg _ p.text_eq
    _ = Span.slice ⟨0, (p.head ++ (p.value ++ p.tail)).length⟩ p.line := by
      rw [span_declaration, slice_between (Nat.zero_le _) p.length_le_length_line]
    _ = p.head ++ (p.value ++ p.tail) := by
      rw [Span.slice, List.drop_zero, Nat.sub_zero, line_eq, List.take_left]

/-- Other bytes in place of the declaration. -/
theorem splice_declaration (source : Bytes) :
    text.splice p.declaration.span.start p.declaration.span.stop source =
      between p.before p.after (source ++ p.rest) := by
  calc text.splice p.declaration.span.start p.declaration.span.stop source
    _ = (between p.before p.after p.line).splice p.declaration.span.start
          p.declaration.span.stop source := congrArg (splice · _ _ source) p.text_eq
    _ = between p.before p.after
          (p.line.splice 0 (p.head ++ (p.value ++ p.tail)).length source) := by
      rw [span_declaration, splice_between (Nat.zero_le _) p.length_le_length_line]
    _ = between p.before p.after (source ++ p.rest) := by
      rw [splice, line_eq, List.take_zero, List.nil_append, List.drop_left]

/-- What follows the declaration: the rest of its line, and the later lines. -/
theorem drop_declaration :
    text.drop p.declaration.span.stop = between [] p.after p.rest := by
  calc text.drop p.declaration.span.stop
    _ = (between p.before p.after p.line).drop p.declaration.span.stop :=
      congrArg (List.drop _) p.text_eq
    _ = p.line.drop (p.head ++ (p.value ++ p.tail)).length ++
          p.after.flatMap (lineFeed :: ·) := by
      rw [span_declaration, drop_between p.length_le_length_line]
    _ = between [] p.after p.rest := by
      rw [line_eq, List.drop_left]
      rfl

/-- What comes before it: the lines before. -/
theorem take_declaration :
    text.take p.declaration.span.start = p.before.flatMap (· ++ [lineFeed]) := by
  calc text.take p.declaration.span.start
    _ = (between p.before p.after p.line).take (extent p.before) :=
      congrArg (List.take _) p.text_eq
    _ = p.before.flatMap (· ++ [lineFeed]) := by
      rw [between, ← length_flatMap_lines, List.take_left]

/-- The bytes of the value. -/
theorem slice_value : p.declaration.valueSpan.slice text = p.value := by
  have hspan : p.declaration.valueSpan = ⟨extent p.before + p.head.length,
      extent p.before + (p.head.length + p.value.length)⟩ := by
    simp only [declaration, offset, Nat.add_assoc]
  have hle : p.head.length + p.value.length ≤ p.line.length := by
    simp only [line, List.length_append]
    omega
  calc p.declaration.valueSpan.slice text
    _ = p.declaration.valueSpan.slice (between p.before p.after p.line) := congrArg _ p.text_eq
    _ = Span.slice ⟨p.head.length, p.head.length + p.value.length⟩ p.line := by
      rw [hspan, slice_between (Nat.le_add_right _ _) hle]
    _ = p.value := by
      rw [Span.slice, line, List.drop_left, Nat.add_sub_cancel_left, List.take_left]

/-- Where the value stands, counted from the start of the declaration. -/
theorem valueSpanInSource_declaration : p.declaration.valueSpanInSource =
    ⟨p.head.length, p.head.length + p.value.length⟩ := by
  simp only [declaration, Declaration.valueSpanInSource, Span.relativeTo, Span.mk.injEq]
  omega

/-! ## The name -/

/-- The name that is found is a word. -/
theorem isName (p : Place k name text) : Text.IsName name :=
  Text.isWord_encode_iff.1 p.isHead.isWord

/-- Another name or kind is not declared on the line. -/
theorem lastValue?_line_of_ne {k' : Kind} {name' : String} (h : (k', name') ≠ (k, name)) (x : Bytes)
    {head : Bytes} (hhead : IsHead k (encode name) head) :
    lastValue? k' name' [head ++ x] = none := by
  rw [lastValue?, last?_singleton, ofLine?, Option.map_eq_none_iff, Option.filter_eq_none_iff]
  intro d hd hn
  obtain ⟨q, hq, rfl⟩ := Option.map_eq_some_iff.1 hd
  by_cases hk : k' = k
  · subst hk
    simp only [parts?, head?_append hhead, Option.bind_eq_bind, Option.bind_some,
      Option.bind_eq_some_iff, Option.pure_def, Option.some.injEq] at hq
    obtain ⟨v, -, rfl⟩ := hq
    have hname : name = name' := by simpa [decode_encode] using hn
    exact h (by rw [hname])
  · rw [parts?, head?_append_of_ne hhead hk] at hq
    cases hq

end Place

end SiteConfig
