import SiteConfig.Proofs.Insertion
import SiteConfig.Proofs.Layout
/-!
# Boundaries of characters

A file is cut and put together as bytes, at the offsets of the scan or at one
where an anchor was found. In a file of UTF-8 each of these lies between two
characters (`Bytes.IsBoundary`): a declaration starts its line, its value stands
between marks of ASCII, and what is searched for starts with the first byte of a
character, as no byte within one is.

So the texts of a scan are the bytes that it found, without replacements, and
every edit leaves a file of UTF-8 (`Editor.utf8_scan_edit`).
-/

namespace SiteConfig

open Bytes Line Declaration

namespace Bytes

variable {a b text needle new : Bytes} {x : UInt8} {i j : Nat}

/-! ## Whole characters -/

/-- The bytes of a string. -/
def IsUtf8 (text : Bytes) : Prop := ∃ s, text = encode s

theorem isSome_utf8?_iff : (utf8? text).isSome ↔ IsUtf8 text := by
  simp only [Option.isSome_iff_exists, utf8?_eq_some_iff, IsUtf8]

instance (text : Bytes) : Decidable (IsUtf8 text) := decidable_of_iff _ isSome_utf8?_iff

theorem isUtf8_encode (s : String) : IsUtf8 (encode s) := ⟨s, rfl⟩

theorem isUtf8_ofChars (cs : List Char) : IsUtf8 (ofChars cs) :=
  ⟨String.ofList cs, by rw [encode, String.toList_ofList]⟩

theorem isUtf8_nil : IsUtf8 [] := isUtf8_ofChars []

theorem isUtf8_of_ascii (h : ∀ x ∈ text, x < 0x80) : IsUtf8 text :=
  ⟨decode text, (encode_decode_of_ascii h).symm⟩

theorem IsUtf8.encode_decode (h : IsUtf8 text) : encode (decode text) = text := by
  obtain ⟨s, rfl⟩ := h
  rw [decode_encode]

theorem IsUtf8.append (ha : IsUtf8 a) (hb : IsUtf8 b) : IsUtf8 (a ++ b) := by
  obtain ⟨s, rfl⟩ := ha
  obtain ⟨t, rfl⟩ := hb
  exact ⟨s ++ t, (encode_append s t).symm⟩

theorem decodeFrom_ofChars_append (cs : List Char) (text : Bytes) :
    decodeFrom none (ofChars cs ++ text) = cs ++ decodeFrom none text := by
  induction cs with
  | nil => rfl
  | cons c cs ih =>
    rw [ofChars_cons, List.append_assoc, decodeFrom_encodeChar, ih, List.cons_append]

/-- **After whole characters, whole characters follow.** -/
theorem IsUtf8.of_append (ha : IsUtf8 a) (h : IsUtf8 (a ++ b)) : IsUtf8 b := by
  obtain ⟨s, rfl⟩ := ha
  obtain ⟨t, ht⟩ := h
  have hchars : t.toList = s.toList ++ decodeFrom none b := by
    calc t.toList
      _ = decodeFrom none (encode t) := (decodeFrom_ofChars _).symm
      _ = decodeFrom none (encode s ++ b) := by rw [ht]
      _ = s.toList ++ decodeFrom none b := decodeFrom_ofChars_append _ _
  have hb : encode s ++ b = encode s ++ ofChars (decodeFrom none b) := by
    rw [ht, encode, hchars, ofChars_append]
    rfl
  rw [List.append_cancel_left hb]
  exact isUtf8_ofChars _

/-- A byte of ASCII stands between whole characters. -/
theorem isUtf8_append_cons_iff (hx : x < 0x80) : IsUtf8 (a ++ x :: b) ↔ IsUtf8 a ∧ IsUtf8 b := by
  constructor
  · rintro ⟨s, hs⟩
    obtain ⟨cs₁, c, cs₂, -, rfl, -, -, rfl⟩ := exists_chars_of_ofChars_eq hx hs.symm
    exact ⟨isUtf8_ofChars cs₁, isUtf8_ofChars cs₂⟩
  · rintro ⟨ha, hb⟩
    have hone : IsUtf8 [x] := isUtf8_of_ascii (by simpa using hx)
    exact ha.append (hone.append hb)

theorem isUtf8_cons_iff (hx : x < 0x80) : IsUtf8 (x :: b) ↔ IsUtf8 b :=
  (isUtf8_append_cons_iff (a := []) hx).trans (and_iff_right isUtf8_nil)

/-! ## First bytes -/

/-- Whole characters start with a first byte. -/
theorem IsUtf8.isUTF8FirstByte (h : IsUtf8 (x :: b)) : x.IsUTF8FirstByte := by
  obtain ⟨s, hs⟩ := h
  rw [encode] at hs
  cases hcs : s.toList with
  | nil => simp [hcs] at hs
  | cons c cs =>
    obtain ⟨y, ys, hc, -⟩ := exists_utf8EncodeChar_eq_cons c
    have hfirst := UInt8.isUTF8FirstByte_getElem_zero_utf8EncodeChar (c := c)
    rw [hcs, ofChars_cons, hc, List.cons_append, List.cons.injEq] at hs
    simpa only [hc, List.getElem_cons_zero, ← hs.1] using hfirst

/-- **Before a first byte, characters are whole**: it is no later byte of one. -/
theorem IsUtf8.of_append_cons (hx : x.IsUTF8FirstByte) (h : IsUtf8 (a ++ x :: b)) : IsUtf8 a := by
  obtain ⟨s, hs⟩ := h
  rw [encode] at hs
  generalize s.toList = cs at hs
  induction cs generalizing a with
  | nil => simp at hs
  | cons c cs ih =>
    have hchar : IsUtf8 (String.utf8EncodeChar c) := by simpa using isUtf8_ofChars [c]
    rw [ofChars_cons, List.append_eq_append_iff] at hs
    rcases hs with ⟨r, hc, hr⟩ | ⟨a', rfl, hs⟩
    · -- the byte is the first one after the character, or one of its own
      cases r with
      | nil => rwa [hc, List.append_nil] at hchar
      | cons y r =>
        obtain ⟨rfl, -⟩ := List.cons.inj hr
        have hi : a.length < (String.utf8EncodeChar c).length := by simp [hc]
        have hget : (String.utf8EncodeChar c)[a.length] = x := by simp [hc]
        rw [← hget, UInt8.isUTF8FirstByte_getElem_utf8EncodeChar, List.length_eq_zero_iff] at hx
        exact hx ▸ isUtf8_nil
    · exact hchar.append (ih hs.symm)

/-! ## Boundaries -/

/-- An offset in a text that parts no character. -/
structure IsBoundary (text : Bytes) (i : Nat) : Prop where
  le : i ≤ text.length
  take : IsUtf8 (text.take i)
  drop : IsUtf8 (text.drop i)

theorem isBoundary_of_eq_append (htext : text = a ++ b) (hi : a.length = i) (ha : IsUtf8 a)
    (hb : IsUtf8 b) : IsBoundary text i := by
  subst htext hi
  exact ⟨by simp, by rwa [List.take_left], by rwa [List.drop_left]⟩

/-- A boundary is counted on from another. -/
theorem IsBoundary.add (hi : IsBoundary text i) (hj : IsBoundary (text.drop i) j) :
    IsBoundary text (i + j) where
  le := by
    have hle := hi.le
    have hle' := hj.le
    rw [List.length_drop] at hle'
    omega
  take := by
    rw [List.take_add]
    exact hi.take.append hj.take
  drop := by
    rw [← List.drop_drop]
    exact hj.drop

/-- **Between boundaries, characters are whole.** -/
theorem IsBoundary.slice (hi : IsBoundary text i) (hj : IsBoundary text j) (h : i ≤ j) :
    IsUtf8 (Span.slice ⟨i, j⟩ text) := by
  refine hi.take.of_append ?_
  rw [Span.slice, ← List.take_add, Nat.add_sub_cancel' h]
  exact hj.take

/-- **Whole characters between boundaries** leave the text one of whole
characters. -/
theorem IsBoundary.splice (hi : IsBoundary text i) (hj : IsBoundary text j) (hnew : IsUtf8 new) :
    IsUtf8 (text.splice i j new) :=
  (hi.take.append hnew).append hj.drop

/-- A line break ends on a boundary. -/
theorem isBoundary_lineBreakLength (h : IsUtf8 text) :
    IsBoundary text (lineBreakLength text) := by
  have hnone : IsBoundary text 0 := ⟨Nat.zero_le _, isUtf8_nil, h⟩
  have hlf : ∀ {rest}, IsUtf8 (lineFeed :: rest) → IsUtf8 rest := (isUtf8_cons_iff (by decide)).1
  unfold lineBreakLength
  split
  · exact hnone
  · split
    · exact ⟨by simp, h, isUtf8_nil⟩
    · exact hnone
  · next b c rest =>
    split
    · next hb =>
      subst hb
      exact isBoundary_of_eq_append (a := [lineFeed]) rfl rfl (by decide) (hlf h)
    split
    · next hb =>
      obtain ⟨rfl, rfl⟩ := hb
      have hrest : IsUtf8 rest := hlf ((isUtf8_cons_iff (by decide)).1 h)
      exact isBoundary_of_eq_append (a := [carriageReturn, lineFeed]) rfl rfl (by decide) hrest
    · exact hnone

/-- **A text is found on boundaries**: where an occurrence starts, and where it
ends. -/
theorem isBoundary_of_indexOf? (h : IsUtf8 text) (hneedle : IsUtf8 needle)
    (hi : indexOf? needle text = some i) :
    IsBoundary text i ∧ IsBoundary text (i + needle.length) := by
  obtain ⟨⟨hle, rest, hrest⟩, hleast⟩ := indexOf?_eq_some_iff.1 hi
  have htext : text = text.take i ++ (needle ++ rest) := by rw [hrest, List.take_append_drop]
  have htake : IsUtf8 (text.take i) := by
    cases needle with
    | nil =>
      -- nothing is found where the text starts
      have hzero : ¬ 0 < i := fun hpos => hleast 0 hpos List.nil_prefix
      obtain rfl : i = 0 := by omega
      exact isUtf8_nil
    | cons x needle =>
      rw [htext] at h
      exact h.of_append_cons hneedle.isUTF8FirstByte
  have hdrop : IsUtf8 (text.drop i) := htake.of_append (by rwa [List.take_append_drop])
  have hstart : IsBoundary text i := ⟨hle, htake, hdrop⟩
  refine ⟨hstart, hstart.add ?_⟩
  exact isBoundary_of_eq_append hrest.symm rfl hneedle (hneedle.of_append (hrest ▸ hdrop))

end Bytes

/-! ## Marks of ASCII -/

namespace Line

variable {k : Kind} {b : UInt8} {name head t blanks : Bytes}

theorem lt_of_isQuote (h : isQuote b) : b < 0x80 := by
  simp only [isQuote, Bool.or_eq_true, beq_iff_eq] at h
  rcases h with rfl | rfl <;> decide

theorem lt_of_toLower_mem (h : toLower b ∈ defineKeyword) : b < 0x80 := by
  rw [toLower] at h
  split at h
  · next hcapital =>
    rw [Bool.and_eq_true, decide_eq_true_iff, decide_eq_true_iff] at hcapital
    exact UInt8.lt_of_le_of_lt hcapital.2 (by decide)
  · have hkeyword : defineKeyword.all (· < 0x80) = true := rfl
    exact of_decide_eq_true (List.all_eq_true.1 hkeyword b h)

theorem lt_of_mem_allBlank (h : AllBlank blanks) : ∀ b ∈ blanks, b < 0x80 := fun b hb =>
  Text.lt_of_isBlank (h b hb)

/-- **A head is of ASCII.** -/
theorem IsHead.lt_of_mem (h : IsHead k name head) : ∀ b ∈ head, b < 0x80 := by
  have hword : ∀ b ∈ name, b < 0x80 := fun b hb => Text.lt_of_isWord (h.isWord.2 b hb)
  cases h with
  | @const name keyword q q' b₁ b₂ b₃ b₄ b₅ hn hk hq hq' h₁ h₂ h₃ h₄ h₅ =>
    have hkeyword : ∀ b ∈ keyword, b < 0x80 := fun b hb =>
      lt_of_toLower_mem (hk ▸ List.mem_map_of_mem hb)
    simp only [List.forall_mem_append, List.forall_mem_cons]
    exact ⟨lt_of_mem_allBlank h₁, hkeyword, lt_of_mem_allBlank h₂, by decide,
      lt_of_mem_allBlank h₃, lt_of_isQuote hq, hword, lt_of_isQuote hq', lt_of_mem_allBlank h₄,
      by decide, lt_of_mem_allBlank h₅⟩
  | var hn h₁ h₂ h₃ =>
    simp only [List.forall_mem_append, List.forall_mem_cons]
    exact ⟨lt_of_mem_allBlank h₁, by decide, hword, lt_of_mem_allBlank h₂, by decide,
      lt_of_mem_allBlank h₃⟩

/-- **A terminator is of ASCII.** -/
theorem IsTerminator.lt_of_mem (h : IsTerminator k t) : ∀ b ∈ t, b < 0x80 := by
  intro b hb
  rcases h.mem_cases hb with hblank | rfl | rfl
  · exact Text.lt_of_isBlank hblank
  · decide
  · decide

theorem IsHead.isUtf8 (h : IsHead k name head) : IsUtf8 head := isUtf8_of_ascii h.lt_of_mem

theorem IsTerminator.isUtf8 (h : IsTerminator k t) : IsUtf8 t := isUtf8_of_ascii h.lt_of_mem

end Line

/-! ## Declarations -/

/-- A declaration parts no character of a text, and its texts are the bytes that
stand at its spans. -/
structure Declaration.IsWholeIn (text : Bytes) (d : Declaration) : Prop where
  start : IsBoundary text d.span.start
  stop : IsBoundary text d.span.stop
  valueStart : IsBoundary text d.valueSpan.start
  valueStop : IsBoundary text d.valueSpan.stop
  encode_source : encode d.source = d.span.slice text
  encode_value : encode d.value = d.valueSpan.slice text
  slice_source : d.valueSpanInSource.slice (encode d.source) = encode d.value

namespace Place

variable {k : Kind} {name : String} {text x : Bytes} (p : Place k name text)

/-- The text is made up of the declaration and what is about it. -/
theorem text_eq_append : text = text.take p.declaration.span.start ++
    (p.head ++ (p.value ++ (p.tail ++ text.drop p.declaration.span.stop))) := by
  calc text
    _ = between p.before p.after p.line := p.text_eq
    _ = _ := by simp [take_declaration, drop_declaration, between, line]

theorem length_take_declaration :
    (text.take p.declaration.span.start).length = p.declaration.span.start := by
  rw [take_declaration, length_flatMap_lines]
  rfl

/-- A line starts on a boundary. -/
theorem isUtf8_take (h : IsUtf8 text) : IsUtf8 (text.take p.declaration.span.start) := by
  rcases p.startsLine with hzero | ⟨lines, hlines⟩
  · rw [hzero]
    exact isUtf8_nil
  · rw [← List.take_append_drop p.declaration.span.start text, ← hlines, List.append_assoc] at h
    have hbefore := ((isUtf8_append_cons_iff (by decide)).1 h).1
    rw [← hlines]
    exact hbefore.append (by decide)

/-- What stands about the marks of ASCII is whole. -/
theorem isUtf8_value_and_drop (h : IsUtf8 text) :
    IsUtf8 p.value ∧ IsUtf8 (text.drop p.declaration.span.stop) := by
  have hvalue : IsUtf8 (p.value ++ (p.tail ++ text.drop p.declaration.span.stop)) :=
    p.isHead.isUtf8.of_append ((p.isUtf8_take h).of_append (p.text_eq_append ▸ h))
  obtain ⟨b, tail, htail, hb⟩ := Text.exists_cons_of_isTerminator p.isTerminator
  have hparts : IsUtf8 p.value ∧ IsUtf8 (tail ++ text.drop p.declaration.span.stop) := by
    rw [htail] at hvalue
    exact (isUtf8_append_cons_iff hb).1 hvalue
  have htail' : IsUtf8 (p.tail ++ text.drop p.declaration.span.stop) := by
    rw [htail]
    exact (isUtf8_cons_iff hb).2 hparts.2
  exact ⟨hparts.1, p.isTerminator.isUtf8.of_append htail'⟩

/-- **The declaration at a place parts no character**, so its texts can be read. -/
theorem isWholeIn (h : IsUtf8 text) : p.declaration.IsWholeIn text := by
  have hlies := p.liesIn
  have htake := p.isUtf8_take h
  obtain ⟨hvalue, hdrop⟩ := p.isUtf8_value_and_drop h
  have hhead := p.isHead.isUtf8
  have htail := p.isTerminator.isUtf8
  -- the four ends part what comes before the declaration, head, value, tail and what comes after
  have hstart : IsBoundary text p.declaration.span.start :=
    isBoundary_of_eq_append p.text_eq_append p.length_take_declaration htake
      (hhead.append (hvalue.append (htail.append hdrop)))
  have hvalueStart : IsBoundary text p.declaration.valueSpan.start := by
    refine isBoundary_of_eq_append (a := text.take p.declaration.span.start ++ p.head)
      (by simpa using p.text_eq_append) ?_ (htake.append hhead)
      (hvalue.append (htail.append hdrop))
    rw [List.length_append, p.length_take_declaration]
    rfl
  have hvalueStop : IsBoundary text p.declaration.valueSpan.stop := by
    refine isBoundary_of_eq_append (a := text.take p.declaration.span.start ++ p.head ++ p.value)
      (by simpa using p.text_eq_append) ?_ ((htake.append hhead).append hvalue)
      (htail.append hdrop)
    rw [List.length_append, List.length_append, p.length_take_declaration]
    rfl
  have hstop : IsBoundary text p.declaration.span.stop := by
    refine isBoundary_of_eq_append (a := text.take p.declaration.span.start ++
      (p.head ++ p.value ++ p.tail)) (by simpa using p.text_eq_append) ?_
      (htake.append ((hhead.append hvalue).append htail)) hdrop
    rw [List.length_append, List.length_append, List.length_append, p.length_take_declaration]
    rfl
  have hle : p.declaration.span.start ≤ p.declaration.span.stop :=
    Nat.le_trans hlies.start_le (Nat.le_trans hlies.valueStart_le (Nat.le_of_lt hlies.valueStop_lt))
  have hsource : encode p.declaration.source = p.declaration.span.slice text := by
    rw [hlies.source_eq]
    exact (hstart.slice hstop hle).encode_decode
  have hencode : encode p.declaration.value = p.declaration.valueSpan.slice text := by
    rw [hlies.value_eq]
    exact (hvalueStart.slice hvalueStop hlies.valueStart_le).encode_decode
  refine ⟨hstart, hstop, hvalueStart, hvalueStop, hsource, hencode, ?_⟩
  rw [hsource, hencode]
  exact hlies.slice_source

/-- A rewritten declaration parts no character either. -/
theorem isUtf8_rewritten (h : IsUtf8 text) (hx : IsUtf8 x) (normalize : Bool) :
    IsUtf8 (p.rewritten normalize x) := by
  have hsource : IsUtf8 (p.newHead normalize ++ (x ++ p.newTail normalize)) :=
    (p.isHead_newHead normalize).isUtf8.append
      (hx.append (p.isTerminator_newTail normalize).isUtf8)
  have hsplice := (p.isWholeIn h).start.splice (p.isWholeIn h).stop hsource
  rw [splice_declaration] at hsplice
  simpa only [rewritten, newLine, List.append_assoc] using hsplice

end Place

/-! ## Edits -/

/-- Storage holds a file of UTF-8. -/
def Storage.HoldsUtf8 (s : Storage) : Prop := ∃ contents, s = .file contents ∧ IsUtf8 contents

namespace Editor

variable {k : Kind} {name : String} {text d : Bytes} {i : Nat}

/-- An insertion beside an anchor parts no character. -/
theorem isUtf8_inserted {o : AddOptions} (h : IsUtf8 text) (hd : IsUtf8 d)
    (hi : indexOf? (encode o.anchor) text = some i) : IsUtf8 (inserted text d i o) := by
  obtain ⟨hstart, hstop⟩ := isBoundary_of_indexOf? h (isUtf8_encode o.anchor) hi
  have hseparator : IsUtf8 (encode o.separator) := isUtf8_encode o.separator
  rw [inserted]
  cases o.placement with
  | before => exact hstart.splice hstart (hd.append hseparator)
  | after => exact hstop.splice hstop (hseparator.append hd)

theorem holdsUtf8_addTo (h : IsUtf8 text) (c : Catalog) (v : Value) (o : AddOptions) :
    (addTo ⟨text⟩ c k name v o (.file text)).storage.HoldsUtf8 := by
  unfold addTo
  split
  · exact ⟨text, rfl, h⟩
  split
  · exact ⟨text, rfl, h⟩
  · next i hi =>
    rw [Outcome.storage_announce, Snapshot.storage_save]
    exact ⟨_, rfl, isUtf8_inserted h (isUtf8_encode _) hi⟩

theorem holdsUtf8_update (h : IsUtf8 text) (e : Editor) (v : Value) (o : UpdateOptions) :
    (e.update k name v o (.file text)).storage.HoldsUtf8 := by
  cases hget : (Catalog.scan text).get? k name with
  | none =>
    simp only [update, scanned, Snapshot.read, Storage.read, hget, Outcome.storage_after]
    split
    · exact holdsUtf8_addTo h _ v _
    · exact ⟨text, rfl, h⟩
  | some d =>
    obtain ⟨p, -⟩ := Place.exists_of_get? hget
    exact ⟨_, (p.update_file e v o).1, p.isUtf8_rewritten h (isUtf8_encode _) o.normalize⟩

theorem holdsUtf8_remove (h : IsUtf8 text) :
    (remove k name (.file text)).storage.HoldsUtf8 := by
  simp only [remove, scanned, Snapshot.read, Storage.read, Outcome.storage_after]
  cases hget : (Catalog.scan text).get? k name with
  | none => exact ⟨text, rfl, h⟩
  | some d =>
    obtain ⟨p, rfl⟩ := Place.exists_of_get? hget
    have hwhole := p.isWholeIn h
    have hstop := hwhole.stop.add (isBoundary_lineBreakLength hwhole.stop.drop)
    simp only [Outcome.storage_announce, Snapshot.storage_save]
    exact ⟨_, rfl, hwhole.start.splice hstop isUtf8_nil⟩

/-- **UTF-8 stays UTF-8.** In a file of UTF-8 no declaration that a scan finds
parts a character, and whatever is added, updated or removed, with any options,
leaves a file of UTF-8. -/
theorem utf8_scan_edit (h : IsUtf8 text) :
    (∀ d ∈ (Catalog.scan text).declarations, d.IsWholeIn text) ∧
      ∀ (k : Kind) (name : String) (v : Value),
        (∀ o : AddOptions, (add k name v o (.file text)).storage.HoldsUtf8) ∧
        (∀ (e : Editor) (o : UpdateOptions),
          (e.update k name v o (.file text)).storage.HoldsUtf8) ∧
        (remove k name (.file text)).storage.HoldsUtf8 := by
  refine ⟨fun d hd => ?_, fun k name v => ⟨fun o => ?_, fun e o => ?_, ?_⟩⟩
  · obtain ⟨p, hp⟩ := Catalog.exists_place_of_mem_scan hd
    exact hp ▸ p.isWholeIn h
  · exact holdsUtf8_addTo h _ v o
  · exact holdsUtf8_update h e v o
  · exact holdsUtf8_remove h

/-- A value and an anchor may have characters of several bytes. -/
theorem utf8_scan_edit_accents : IsUtf8 (encode "$a = 'é';\n// ü") ∧
    (Catalog.scan (encode "$a = 'é';\n// ü")).size = 1 ∧
    (∀ d ∈ (Catalog.scan (encode "$a = 'é';\n// ü")).declarations,
      d.IsWholeIn (encode "$a = 'é';\n// ü")) ∧
    (add .var "b" (.string "→") (.inFrontOf "// ü")
      (.file (encode "$a = 'é';\n// ü"))).storage.HoldsUtf8 := by
  have htext : IsUtf8 (encode "$a = 'é';\n// ü") := isUtf8_encode _
  obtain ⟨hscan, hedit⟩ := utf8_scan_edit htext
  exact ⟨htext, by decide +kernel, hscan, (hedit .var "b" (.string "→")).1 (.inFrontOf "// ü")⟩

end Editor

end SiteConfig
