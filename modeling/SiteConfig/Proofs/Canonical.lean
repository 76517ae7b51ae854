import SiteConfig.Declaration.Canonical
import SiteConfig.Proofs.Place
/-!
# Reading the canonical form

The canonical form writes a name and a value down as they are, so not all
that is written is a declaration, and not every declaration is of the value
that was written. It is exactly if the name is a name, and the value is
trimmed, on one line, and either one quoted literal or without a terminator
(`lookup_scan_canonical`). Then the text declares nothing else.
-/

namespace SiteConfig

open Bytes Line

namespace Declaration

variable {k : Kind} {name value : String}

/-! ## The parts of the canonical form -/

/-- The canonical form up to the value. -/
def canonicalHead (k : Kind) (name : String) : Bytes :=
  match k with
  | .const => encode ("define( '" ++ name ++ "', ")
  | .var => encode ("$" ++ name ++ " = ")

/-- The canonical form from after the value. -/
def canonicalTail : Kind → Bytes
  | .const => encode " );"
  | .var => encode ";"

theorem encode_canonical (k : Kind) (name value : String) : encode (canonical k name value) =
    canonicalHead k name ++ (encode value ++ canonicalTail k) := by
  cases k <;> simp [canonical, canonicalHead, canonicalTail, encode_append]

theorem isHead_canonicalHead (h : Text.IsName name) :
    IsHead k (encode name) (canonicalHead k name) := by
  have hn : IsWord (encode name) := Text.isWord_encode_iff.2 h
  have hblank : AllBlank [ascii ' '] := by simp [AllBlank, isBlank]
  cases k with
  | const =>
    have hhead : canonicalHead .const name = [] ++ (defineKeyword ++ ([] ++ ascii '(' ::
        ([ascii ' '] ++ ascii '\'' :: (encode name ++ ascii '\'' :: ([] ++ ascii ',' ::
          [ascii ' ']))))) := by
      simp [canonicalHead, encode_append]
      rfl
    rw [hhead]
    exact .const hn (by decide) (by decide) (by decide) allBlank_nil allBlank_nil hblank
      allBlank_nil hblank
  | var =>
    have hhead : canonicalHead .var name = [] ++ ascii '$' :: (encode name ++ ([ascii ' '] ++
        ascii '=' :: [ascii ' '])) := by
      simp [canonicalHead, encode_append]
      rfl
    rw [hhead]
    exact .var hn allBlank_nil hblank hblank

theorem isTerminator_canonicalTail : IsTerminator k (canonicalTail k) := by
  cases k with
  | const =>
    have hblank : AllBlank [ascii ' '] := by simp [AllBlank, isBlank]
    exact (.const hblank allBlank_nil : IsTerminator .const ([ascii ' '] ++ ascii ')' :: ([] ++ _)))
  | var => exact (.var allBlank_nil : IsTerminator .var ([] ++ [ascii ';']))

/-- No quote stands in the canonical form after the value. -/
theorem not_isQuote_of_mem_canonicalTail : ∀ b ∈ canonicalTail k, ¬ isQuote b := by
  intro b hb
  cases k with
  | const =>
    have hmem : b ∈ [ascii ' ', ascii ')', ascii ';'] := hb
    simp only [List.mem_cons, List.not_mem_nil, or_false] at hmem
    rcases hmem with rfl | rfl | rfl <;> decide
  | var =>
    obtain rfl : b = ascii ';' := List.mem_singleton.1 hb
    decide

/-! ## Where the canonical form is a declaration -/

theorem lineFeed_not_mem_encode_iff {s : String} : lineFeed ∉ encode s ↔ '\n' ∉ s.toList :=
  not_congr (ascii_mem_ofChars (by decide))

/-- The canonical form lies on one line if the value does. -/
theorem lineFeed_not_mem_canonical (hn : Text.IsName name) (hv : '\n' ∉ value.toList) :
    lineFeed ∉ encode (canonical k name value) := by
  have hhead := (isHead_canonicalHead (k := k) hn).lineFeed_not_mem
  have htail := (isTerminator_canonicalTail (k := k)).lineFeed_not_mem
  rw [encode_canonical]
  simp [hhead, htail, lineFeed_not_mem_encode_iff.2 hv]

/-- A literal that starts where a value does and runs on beyond it would end
in a quote of what comes after the value. -/
theorem prefix_of_isLiteral {x t l s : Bytes} (ht : ∀ b ∈ t, ¬ isQuote b) (hl : IsLiteral l)
    (h : x ++ t = l ++ s) : l <+: x := by
  rcases List.append_eq_append_iff.1 h with ⟨a, rfl, ha⟩ | ⟨c, rfl, -⟩
  · cases hlast : a.getLast? with
    | none => simp [List.getLast?_eq_none_iff.1 hlast]
    | some b =>
      obtain ⟨q, hq, hlq⟩ := hl.exists_getLast?
      rw [List.getLast?_append, hlast, Option.some_or, Option.some.injEq] at hlq
      have hmem : b ∈ t := by
        rw [ha]
        exact List.mem_append_left s (List.mem_of_getLast? hlast)
      exact absurd (hlq ▸ hq) (ht b hmem)
  · exact List.prefix_append l c

/-- The canonical form from where its value is read. If the value is empty,
the blanks that stand about it belong to the head. -/
theorem exists_skipBlanks_append (h : Text.Trimmed value.toList) :
    ∃ t, IsTerminator k t ∧ (∀ b ∈ t, ¬ isQuote b) ∧
      skipBlanks (encode value ++ canonicalTail k) = encode value ++ t := by
  have htail : IsTerminator k (canonicalTail k) := isTerminator_canonicalTail
  have hquote : ∀ b ∈ canonicalTail k, ¬ isQuote b := not_isQuote_of_mem_canonicalTail
  cases hx : encode value with
  | nil =>
    -- nothing parts the blanks of the head from those of the tail
    obtain ⟨blanks, -, hsplit⟩ := exists_blanks (canonicalTail k)
    refine ⟨skipBlanks (canonicalTail k), htail.skipBlanks, fun b hb => hquote b ?_, rfl⟩
    rw [hsplit]
    exact List.mem_append_right blanks hb
  | cons b x =>
    have hfirst : skipBlanks (encode value) = encode value :=
      Text.skipBlanks_ofChars_eq_self_iff.2 h.first
    have hb : ¬ isBlank b := not_isBlank_of_skipBlanks_eq_cons (hfirst.trans hx)
    exact ⟨canonicalTail k, htail, hquote, skipBlanks_cons_of_not_isBlank hb⟩

/-- **The value is read back** from where it stands. -/
theorem value?_canonical (h : Text.ReadsBack k value.toList) :
    value? k (skipBlanks (encode value ++ canonicalTail k)) = some (encode value, []) := by
  obtain ⟨t, ht, hquote, hskip⟩ := exists_skipBlanks_append (k := k) h.trimmed
  rw [hskip, ← List.append_nil t]
  rcases h.whole with hlit | hno
  · exact value?_literal_append (Text.isLiteral_ofChars_iff.2 hlit) ht []
  · have hno' : ¬ HasTerminator k (encode value) := mt Text.hasTerminator_ofChars_iff.1 hno
    have hplain : EndsPlain (encode value) := Text.endsPlain_ofChars_iff.2 h.trimmed.last
    refine value?_append hplain hno' ht fun l s hl he => prefix_of_isLiteral (s := s) hquote hl ?_
    rwa [List.append_nil] at he

/-- The place of the declaration, which takes up the whole text. -/
theorem exists_place_canonical (hn : Text.IsName name) (hv : Text.ReadsBack k value.toList) :
    ∃ p : Place k name (encode (canonical k name value)),
      p.before = [] ∧ p.after = [] ∧ p.value = encode value ∧ p.rest = [] := by
  have hline := lines_eq_singleton (lineFeed_not_mem_canonical (k := k) hn hv.oneLine)
  rw [encode_canonical] at hline ⊢
  obtain ⟨p, hbefore, hafter, hvalue, hrest, -⟩ := Place.exists_of_value? [] [] hline
    (isHead_canonicalHead hn) (value?_canonical hv) lastValue?_nil
  exact ⟨p, hbefore, hafter, hvalue, hrest⟩

/-- A declaration at the start of a text of one line is all that a scan
finds. -/
theorem declarations_scan {text : Bytes} (p : Place k name text) (hbefore : p.before = [])
    (hafter : p.after = []) : (Catalog.scan text).declarations = [p.declaration] := by
  have hline : located 0 (lines text) = [(0, p.line)] := by
    rw [p.lines_eq, hbefore, hafter]
    rfl
  have hoffset : p.offset = 0 := by rw [Place.offset, hbefore, extent]
  have hown : allOf k text = [p.declaration] := by
    have hof := p.ofLine?_line
    rw [hoffset] at hof
    simp [allOf_eq_lines, hline, hof]
  have hother : ∀ k', k' ≠ k → allOf k' text = [] := by
    intro k' hk
    have hof : ofLine? k' 0 p.line = none := by
      rw [ofLine?, Line.parts?, Place.line, head?_append_of_ne p.isHead hk]
      rfl
    simp [allOf_eq_lines, hline, hof]
  have hall : Kind.all.flatMap (allOf · text) = [p.declaration] := by
    cases k with
    | const => simp [Kind.all, hown, hother .var (by decide)]
    | var => simp [Kind.all, hown, hother .const (by decide)]
  rw [Catalog.scan, hall]
  rfl

/-- The span of a declaration that takes up a text of one line. -/
theorem span_of_whole {text : Bytes} (p : Place k name text) (hbefore : p.before = [])
    (hafter : p.after = []) (hrest : p.rest = []) : p.declaration.span = ⟨0, text.length⟩ := by
  have hlen : text.length = (p.head ++ (p.value ++ p.tail)).length := by
    have htext := congrArg List.length p.text_eq
    rw [htext, hbefore, hafter, p.line_eq, hrest]
    simp [between]
  rw [p.span_declaration, hbefore, hlen, extent, Nat.zero_add, Nat.zero_add]

/-- What is read up to a terminator in a text is text: a terminator starts
with a character of its own. -/
theorem encode_decode_of_skipBlanks {cs : List Char} {v t rest : Bytes} (ht : IsTerminator k t)
    (h : skipBlanks (ofChars cs) = v ++ (t ++ rest)) : encode (decode v) = v := by
  obtain ⟨cs', hcs'⟩ := Text.exists_skipBlanks_ofChars cs
  obtain ⟨b, t', rfl, hlt⟩ := Text.exists_cons_of_isTerminator ht
  rw [hcs', List.cons_append] at h
  obtain ⟨cs₁, c, cs₂, -, rfl, -⟩ := exists_chars_of_ofChars_eq hlt h
  rw [decode_ofChars, encode, String.toList_ofList]

/-- A canonical form on one line is read from where it has its value. -/
theorem skipBlanks_canonical {text : Bytes} (htext : text = encode (canonical k name value))
    (p : Place k name text) (hvalue : '\n' ∉ value.toList) :
    skipBlanks (encode value ++ canonicalTail k) = p.value ++ (p.tail ++ p.rest) := by
  have hsingle : lines text = [canonicalHead k name ++ (encode value ++ canonicalTail k)] := by
    rw [htext, lines_eq_singleton (lineFeed_not_mem_canonical p.isName hvalue), encode_canonical]
  obtain ⟨-, hline⟩ | ⟨-, hnil⟩ := List.singleton_eq_append_iff.1 (hsingle.symm.trans p.lines_eq)
  · have hown := head?_append p.isHead (p.value ++ (p.tail ++ p.rest))
    rw [(List.cons.inj hline).1, head?_append (isHead_canonicalHead p.isName),
      p.skipBlanks_eq] at hown
    exact (Prod.mk.inj (Option.some.inj hown)).2
  · cases hnil

/-- Conversely, a value that is read back is one that can be. -/
theorem readsBack_of_place {text : Bytes} (htext : text = encode (canonical k name value))
    (p : Place k name text) (hp : p.declaration.value = value) : Text.ReadsBack k value.toList := by
  have honeLine : '\n' ∉ value.toList := hp ▸ p.newline_not_mem_value
  have hread := skipBlanks_canonical htext p honeLine
  -- the terminator starts at a character, so the bytes read are those of the text they spell
  have hvalue : p.value = encode value := by
    obtain ⟨cs, hcs⟩ : ∃ cs, canonicalTail k = ofChars cs := by cases k <;> exact ⟨_, rfl⟩
    rw [encode, hcs, ← ofChars_append] at hread
    have hown := encode_decode_of_skipBlanks p.isTerminator hread
    exact hown.symm.trans (congrArg encode hp)
  have hfirst : skipBlanks (encode value) = encode value := by
    have hskip := skipBlanks_eq_self_iff.1 p.skipBlanks_eq
    rw [hvalue] at hskip
    exact skipBlanks_eq_self_iff.2 fun b hb => hskip b (by simp [List.head?_append, hb])
  have hlast := endsPlain_of_value? p.value?_eq
  have hwhole := isLiteral_or_not_hasTerminator p.value?_eq
  rw [hvalue] at hlast hwhole
  exact
    { oneLine := honeLine
      trimmed := ⟨Text.skipBlanks_ofChars_eq_self_iff.1 hfirst, Text.endsPlain_ofChars_iff.1 hlast⟩
      whole := hwhole.imp Text.isLiteral_ofChars_iff.1 (mt Text.hasTerminator_ofChars_iff.2) }

/-! ## The exact condition -/

/-- The text is one declaration of the name and the value, and nothing else. -/
def DeclaresOnly (text : Bytes) (k : Kind) (name value : String) : Prop :=
  ∃ d, (Catalog.scan text).declarations = [d] ∧ d.key = (k, name) ∧ d.value = value ∧
    d.span = ⟨0, text.length⟩

/-- What a text declares is found in it. -/
theorem DeclaresOnly.exists_lookup {text : Bytes} (h : DeclaresOnly text k name value) :
    ∃ d, (Catalog.scan text).lookup k name = .found d ∧ d.value = value := by
  obtain ⟨d, hd, hkey, hvalue, -⟩ := h
  refine ⟨d, Catalog.lookup_eq_found_iff.2 ?_, hvalue⟩
  rw [Catalog.get?, hd, List.find?_cons_of_pos (by simpa using hkey)]

theorem declaresOnly_canonical (hn : Text.IsName name) (hv : Text.ReadsBack k value.toList) :
    DeclaresOnly (encode (canonical k name value)) k name value := by
  obtain ⟨p, hbefore, hafter, hvalue, hrest⟩ := exists_place_canonical hn hv
  refine ⟨p.declaration, declarations_scan p hbefore hafter, rfl, ?_,
    span_of_whole p hbefore hafter hrest⟩
  rw [Place.declaration, hvalue, decode_encode]

/-- **The canonical form is read back** if and only if the name is a name and
the value is one to read back. The declaration is then the only one, and
takes up the whole text. -/
theorem lookup_scan_canonical_iff (k : Kind) (name value : String) :
    ((∃ d, (Catalog.scan (encode (canonical k name value))).lookup k name = .found d ∧
        d.value = value) ↔
      Text.IsName name ∧ Text.ReadsBack k value.toList) ∧
    (Text.IsName name ∧ Text.ReadsBack k value.toList ↔
      DeclaresOnly (encode (canonical k name value)) k name value) := by
  have hfound : (∃ d, (Catalog.scan (encode (canonical k name value))).lookup k name = .found d ∧
      d.value = value) → Text.IsName name ∧ Text.ReadsBack k value.toList := by
    rintro ⟨d, hd, hvalue⟩
    obtain ⟨p, rfl⟩ := Place.exists_of_get? (Catalog.lookup_eq_found_iff.1 hd)
    exact ⟨p.isName, readsBack_of_place rfl p hvalue⟩
  have honly : Text.IsName name ∧ Text.ReadsBack k value.toList →
      DeclaresOnly (encode (canonical k name value)) k name value := fun h =>
    declaresOnly_canonical h.1 h.2
  exact ⟨⟨hfound, fun h => (honly h).exists_lookup⟩, ⟨honly, fun h => hfound h.exists_lookup⟩⟩

end Declaration

end SiteConfig
