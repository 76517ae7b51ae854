import SiteConfig.Proofs.Concatenation
import SiteConfig.Proofs.Insertion
import SiteConfig.Proofs.Spelling
import SiteConfig.Proofs.Splicing
/-!
# Line endings

Lines may end in a line feed, or in a carriage return and a line feed. A carriage
return at the end of a line is not read (`Line.parts?_concat`): it stands after
the terminator, or there is none. So a text and the same text with the longer
line endings declare the same, each byte of it as much further on as there are
line feeds before it (`Catalog.declarations_scan_crlf`).

An edit of the one text is the same edit of the other (`Editor.crlf_edit`). The
ranges that it replaces correspond, as does the place at which an anchor is found,
and a removal takes away the whole line ending.
-/

namespace SiteConfig

open Bytes Line Declaration

namespace Bytes

variable {a b text needle new : Bytes} {c : UInt8} {i j : Nat}

/-! ## Longer line endings -/

/-- A text with a carriage return in front of each line feed. -/
def crlf (text : Bytes) : Bytes :=
  text.flatMap fun b => if b = lineFeed then [carriageReturn, lineFeed] else [b]

/-- Where an offset lies then: further on by the line feeds before it. -/
def crlfOffset (text : Bytes) (i : Nat) : Nat := i + (text.take i).count lineFeed

@[simp] theorem crlf_nil : crlf [] = [] := rfl

theorem crlf_append : crlf (a ++ b) = crlf a ++ crlf b := List.flatMap_append

theorem crlf_lineFeed_cons :
    crlf (lineFeed :: text) = carriageReturn :: lineFeed :: crlf text := by
  simp [crlf]

theorem crlf_cons (hc : c ≠ lineFeed) : crlf (c :: text) = c :: crlf text := by simp [crlf, hc]

theorem crlf_of_not_mem (h : lineFeed ∉ text) : crlf text = text := by
  induction text with
  | nil => rfl
  | cons c text ih =>
    rw [List.mem_cons, not_or] at h
    rw [crlf_cons (Ne.symm h.1), ih h.2]

theorem length_crlf (text : Bytes) : (crlf text).length = text.length + text.count lineFeed := by
  induction text with
  | nil => rfl
  | cons c text ih =>
    by_cases hc : c = lineFeed
    · subst hc
      simp only [crlf_lineFeed_cons, List.length_cons, ih, List.count_cons_self]
      omega
    · simp only [crlf_cons hc, List.length_cons, ih, List.count_cons_of_ne hc]
      omega

/-- Without its carriage returns it is the text as it was. -/
theorem filter_crlf (h : carriageReturn ∉ text) :
    (crlf text).filter (· != carriageReturn) = text := by
  induction text with
  | nil => rfl
  | cons c text ih =>
    rw [List.mem_cons, not_or] at h
    have hne : lineFeed ≠ carriageReturn := by decide
    by_cases hc : c = lineFeed
    · subst hc
      simp [crlf_lineFeed_cons, hne, ih h.2]
    · simp [crlf_cons hc, Ne.symm h.1, ih h.2]

theorem crlf_inj (ha : carriageReturn ∉ a) (hb : carriageReturn ∉ b) :
    crlf a = crlf b ↔ a = b := by
  refine ⟨fun h => ?_, congrArg crlf⟩
  rw [← filter_crlf ha, h, filter_crlf hb]

/-! ### Offsets -/

theorem crlfOffset_add (text : Bytes) (i j : Nat) :
    crlfOffset text (i + j) = crlfOffset text i + crlfOffset (text.drop i) j := by
  simp only [crlfOffset, List.take_add, List.count_append]
  omega

theorem crlfOffset_of_not_mem (h : lineFeed ∉ text.take i) : crlfOffset text i = i := by
  rw [crlfOffset, List.count_eq_zero.2 h, Nat.add_zero]

theorem length_crlf_take (hi : i ≤ text.length) :
    (crlf (text.take i)).length = crlfOffset text i := by
  rw [length_crlf, List.length_take, Nat.min_eq_left hi, crlfOffset]

theorem crlf_eq_append (text : Bytes) (i : Nat) :
    crlf text = crlf (text.take i) ++ crlf (text.drop i) := by
  rw [← crlf_append, List.take_append_drop]

theorem take_crlf (hi : i ≤ text.length) :
    (crlf text).take (crlfOffset text i) = crlf (text.take i) := by
  rw [crlf_eq_append text i, ← length_crlf_take hi, List.take_left]

theorem drop_crlf (hi : i ≤ text.length) :
    (crlf text).drop (crlfOffset text i) = crlf (text.drop i) := by
  rw [crlf_eq_append text i, ← length_crlf_take hi, List.drop_left]

/-- **A replacement with longer line endings** is that of the range which
corresponds. -/
theorem splice_crlf (hi : i ≤ text.length) (hj : j ≤ text.length) :
    (crlf text).splice (crlfOffset text i) (crlfOffset text j) (crlf new) =
      crlf (text.splice i j new) := by
  simp only [splice, take_crlf hi, drop_crlf hj, crlf_append]

theorem carriageReturn_not_mem_splice (h : carriageReturn ∉ text) (hnew : carriageReturn ∉ new) :
    carriageReturn ∉ text.splice i j new := by
  simp only [splice, List.mem_append, not_or]
  exact ⟨⟨fun hmem => h (List.mem_of_mem_take hmem), hnew⟩,
    fun hmem => h (List.mem_of_mem_drop hmem)⟩

/-! ### Searching, and line breaks -/

/-- A text on one line stands in front where it did. -/
theorem prefix_crlf_iff (hcr : carriageReturn ∉ needle) (hlf : lineFeed ∉ needle)
    (text : Bytes) : needle <+: crlf text ↔ needle <+: text := by
  induction needle generalizing text with
  | nil => simp
  | cons c needle ih =>
    rw [List.mem_cons, not_or] at hcr hlf
    cases text with
    | nil => simp
    | cons b text =>
      by_cases hb : b = lineFeed
      · subst hb
        simp [crlf_lineFeed_cons, List.cons_prefix_cons, Ne.symm hcr.1, Ne.symm hlf.1]
      · rw [crlf_cons hb, List.cons_prefix_cons, List.cons_prefix_cons, ih hcr.2 hlf.2]

theorem not_prefix_cons (hne : needle ≠ []) (hc : c ∉ needle) : ¬ needle <+: c :: text := by
  cases needle with
  | nil => exact absurd rfl hne
  | cons b needle => exact fun h => hc ((List.cons_prefix_cons.1 h).1 ▸ List.mem_cons_self)

theorem indexOf?_eq_some_zero (h : needle <+: text) : indexOf? needle text = some 0 :=
  indexOf?_eq_some_iff.2 ⟨⟨Nat.zero_le _, h⟩, fun q hq => absurd hq (Nat.not_lt_zero q)⟩

theorem indexOf?_cons_eq_map (h : ¬ needle <+: c :: text) :
    indexOf? needle (c :: text) = (indexOf? needle text).map (· + 1) := by
  rw [indexOf?, if_neg (mt List.isPrefixOf_iff_prefix.1 h)]

/-- **A text on one line is found** at the offset which corresponds. -/
theorem indexOf?_crlf (hcr : carriageReturn ∉ needle) (hlf : lineFeed ∉ needle) (text : Bytes) :
    indexOf? needle (crlf text) = (indexOf? needle text).map (crlfOffset text) := by
  induction text with
  | nil => by_cases hnil : needle = [] <;> simp [indexOf?, hnil, crlfOffset]
  | cons b text ih =>
    have hiff := prefix_crlf_iff hcr hlf (b :: text)
    by_cases hp : needle <+: b :: text
    · rw [indexOf?_eq_some_zero hp, indexOf?_eq_some_zero (hiff.2 hp)]
      rfl
    have hne : needle ≠ [] := by
      rintro rfl
      exact hp List.nil_prefix
    rw [indexOf?_cons_eq_map hp, Option.map_map]
    by_cases hb : b = lineFeed
    · -- it starts at neither byte of the line ending
      subst hb
      rw [crlf_lineFeed_cons, indexOf?_cons_eq_map (not_prefix_cons hne hcr),
        indexOf?_cons_eq_map (not_prefix_cons hne hlf), ih, Option.map_map, Option.map_map]
      congr 1
      funext n
      simp only [Function.comp_apply, crlfOffset, List.take_succ_cons, List.count_cons_self]
      omega
    · rw [crlf_cons hb] at hiff ⊢
      rw [indexOf?_cons_eq_map (mt hiff.1 hp), ih, Option.map_map]
      congr 1
      funext n
      simp only [Function.comp_apply, crlfOffset, List.take_succ_cons, List.count_cons_of_ne hb]
      omega

/-- A line break corresponds to the whole of the longer one. -/
theorem lineBreakLength_crlf (h : carriageReturn ∉ text) :
    lineBreakLength (crlf text) = crlfOffset text (lineBreakLength text) := by
  cases text with
  | nil => rfl
  | cons c text =>
    rw [List.mem_cons, not_or] at h
    by_cases hc : c = lineFeed
    · subst hc
      rw [crlf_lineFeed_cons, lineBreakLength_eq, lineBreakLength_eq]
      simp [List.cons_prefix_cons, crlfOffset, h.1]
    · rw [crlf_cons hc, lineBreakLength_eq, lineBreakLength_eq]
      simp [List.cons_prefix_cons, crlfOffset, h.1, Ne.symm hc]

end Bytes

/-! ## A carriage return at the end of a line -/

namespace Line

variable {k : Kind} {b q : UInt8}

/-- What was read, with a carriage return after what is left. -/
def endReturn (found : Bytes × Bytes) : Bytes × Bytes := (found.1, found.2 ++ [carriageReturn])

theorem skipBlanks_concat (text : Bytes) :
    skipBlanks (text ++ [carriageReturn]) = skipBlanks text ++ [carriageReturn] := by
  induction text with
  | nil => rfl
  | cons c text ih =>
    rw [List.cons_append]
    by_cases hc : isBlank c
    · rw [skipBlanks_cons_of_isBlank hc, skipBlanks_cons_of_isBlank hc, ih]
    · rw [skipBlanks_cons_of_not_isBlank hc, skipBlanks_cons_of_not_isBlank hc, List.cons_append]

theorem byte?_concat (hb : b ≠ carriageReturn) (text : Bytes) :
    byte? b (text ++ [carriageReturn]) = (byte? b text).map (· ++ [carriageReturn]) := by
  cases text with
  | nil => exact byte?_cons_of_ne (Ne.symm hb)
  | cons c text => by_cases hc : c = b <;> simp [byte?, hc]

theorem quote?_concat (text : Bytes) :
    quote? (text ++ [carriageReturn]) = (quote? text).map (· ++ [carriageReturn]) := by
  cases text with
  | nil => rfl
  | cons c text => by_cases hc : isQuote c <;> simp [quote?, hc]

theorem word?_concat (text : Bytes) :
    word? (text ++ [carriageReturn]) = (word? text).map endReturn := by
  have hparts : (text ++ [carriageReturn]).takeWhile isWord = text.takeWhile isWord ∧
      (text ++ [carriageReturn]).dropWhile isWord =
        text.dropWhile isWord ++ [carriageReturn] := by
    induction text with
    | nil => exact ⟨rfl, rfl⟩
    | cons c text ih => by_cases hc : isWord c <;> simp [hc, ih]
  rw [word?, word?, hparts.1, hparts.2]
  split <;> simp [endReturn]

theorem keyword?_concat {w : Bytes} (h : toLower carriageReturn ∉ w) (text : Bytes) :
    keyword? w (text ++ [carriageReturn]) =
      (keyword? w text).map (· ++ [carriageReturn]) := by
  induction w generalizing text with
  | nil => rfl
  | cons b w ih =>
    rw [List.mem_cons, not_or] at h
    cases text with
    | nil => simp [keyword?, h.1]
    | cons c text => by_cases hc : toLower c = b <;> simp [keyword?, hc, ih h.2]

theorem head?_concat (line : Bytes) :
    head? k (line ++ [carriageReturn]) = (head? k line).map endReturn := by
  have hkeyword := keyword?_concat (w := defineKeyword) (by decide)
  have hopen := byte?_concat (b := ascii '(') (by decide)
  have hcomma := byte?_concat (b := ascii ',') (by decide)
  have hdollar := byte?_concat (b := ascii '$') (by decide)
  have hequals := byte?_concat (b := ascii '=') (by decide)
  cases k <;>
    simp only [head?, skipBlanks_concat, hkeyword, hopen, hcomma, hdollar, hequals, quote?_concat,
      word?_concat, endReturn, Option.bind_eq_bind, Option.bind_map, Option.map_bind,
      Function.comp_def, Option.pure_def, Option.map_some]

theorem terminator?_concat (text : Bytes) :
    terminator? k (text ++ [carriageReturn]) =
      (terminator? k text).map (· ++ [carriageReturn]) := by
  have hclose := byte?_concat (b := ascii ')') (by decide)
  have hsemicolon := byte?_concat (b := ascii ';') (by decide)
  cases k <;>
    simp only [terminator?, skipBlanks_concat, hclose, hsemicolon, Option.bind_eq_bind,
      Option.bind_map, Option.map_bind, Function.comp_def]

theorem closing?_concat (hq : q ≠ carriageReturn) (text : Bytes) :
    closing? q (text ++ [carriageReturn]) = (closing? q text).map endReturn := by
  have hescape : carriageReturn ≠ ascii '\\' := by decide
  fun_induction closing? q text with
  | case1 => simp [closing?, Ne.symm hq, hescape]
  | case2 text => exact closing?_quote_cons
  | case3 hb => simp [closing?, hb]
  | case4 c text hb ih => simp [closing?, hb, ih, endReturn, Function.comp_def]
  | case5 b text hb he ih =>
    rw [List.cons_append, closing?_plain_cons hb he, ih]
    simp [endReturn, Function.comp_def]

theorem literal?_concat (text : Bytes) :
    literal? (text ++ [carriageReturn]) = (literal? text).map endReturn := by
  cases text with
  | nil => rfl
  | cons b text =>
    by_cases hb : isQuote b
    · have hne : b ≠ carriageReturn := by
        rintro rfl
        revert hb
        decide
      simp [literal?, hb, closing?_concat hne, endReturn, Function.comp_def]
    · simp [literal?, hb]

theorem shortest?_concat (text : Bytes) :
    shortest? k (text ++ [carriageReturn]) = (shortest? k text).map endReturn := by
  induction text with
  | nil => cases k <;> rfl
  | cons b text ih =>
    have hend := terminator?_concat (k := k) (b :: text)
    cases h : terminator? k (b :: text) with
    | none =>
      rw [h, List.cons_append] at hend
      rw [shortest?_cons h, List.cons_append, shortest?_cons hend, ih]
      simp [endReturn, Function.comp_def]
    | some r =>
      rw [h, List.cons_append] at hend
      rw [shortest?_of_terminator? h, List.cons_append, shortest?_of_terminator? hend]
      rfl

theorem value?_concat (text : Bytes) :
    value? k (text ++ [carriageReturn]) = (value? k text).map endReturn := by
  unfold value?
  rw [literal?_concat, shortest?_concat]
  cases literal? text with
  | none => rfl
  | some p =>
    have hend := terminator?_concat (k := k) p.2
    cases hr : terminator? k p.2 <;> rw [hr] at hend <;> simp [endReturn, hend, hr]

/-- **A carriage return at the end of a line is not read.** -/
theorem parts?_concat (line : Bytes) : parts? k (line ++ [carriageReturn]) = parts? k line := by
  simp only [parts?, head?_concat, value?_concat, endReturn, Option.bind_eq_bind, Option.bind_map,
    Function.comp_def, List.length_append, List.length_singleton, Nat.add_sub_add_right]

end Line

/-! ## The scan -/

/-- A span in a text with longer line endings. -/
def Span.crlf (text : Bytes) (s : Span) : Span :=
  ⟨crlfOffset text s.start, crlfOffset text s.stop⟩

namespace Declaration

variable {k : Kind} {a b line rest : Bytes} {offset : Nat} {d : Declaration}

/-- A declaration in a text with longer line endings. -/
def crlf (text : Bytes) (d : Declaration) : Declaration :=
  { d with span := d.span.crlf text, valueSpan := d.valueSpan.crlf text }

/-- The offsets of a declaration are those of its line. -/
theorem le_of_ofLine? (h : ofLine? k offset line = some d) :
    d.span.start = offset ∧ d.span.start ≤ d.valueSpan.start ∧
      d.valueSpan.start ≤ d.valueSpan.stop ∧ d.valueSpan.stop ≤ d.span.stop ∧
      d.span.stop ≤ offset + line.length := by
  obtain ⟨p, hp, rfl⟩ := Option.map_eq_some_iff.1 h
  obtain ⟨head, t, rest, -, -, rfl, -, -, hstart, hstop⟩ := exists_of_parts?_eq_some hp
  refine ⟨rfl, ?_⟩
  simp only [List.length_append, hstart, hstop]
  omega

theorem ofLine?_concat : ofLine? k offset (line ++ [carriageReturn]) = ofLine? k offset line := by
  rw [ofLine?, ofLine?, parts?_concat]
  refine Option.map_congr fun p hp => ?_
  obtain ⟨head, t, rest, -, -, rfl, -, -, -, hstop⟩ := exists_of_parts?_eq_some hp
  rw [List.take_append_of_le_length]
  simp only [List.length_append]
  omega

/-- A carriage return at the end of a line leaves what the line declares. -/
theorem allOf_concat (h : lineFeed ∉ line) : allOf k (line ++ [carriageReturn]) = allOf k line := by
  have hconcat : lineFeed ∉ line ++ [carriageReturn] := by simpa [h] using by decide
  rw [allOf_line h, allOf_line hconcat, ofLine?_concat]

/-- On the first line, nothing lies further on. -/
theorem map_crlf_allOf (h : lineFeed ∉ line) (rest : Bytes) :
    (allOf k line).map (crlf (line ++ rest)) = allOf k line := by
  refine (List.map_congr_left fun d hd => ?_).trans (List.map_id _)
  rw [allOf_line h, Option.mem_toList] at hd
  obtain ⟨hoffset, hstart, hvalue, hstop, hle⟩ := le_of_ofLine? hd
  have hself : ∀ i ≤ line.length, crlfOffset (line ++ rest) i = i := fun i hi => by
    refine crlfOffset_of_not_mem fun hmem => h ?_
    rw [List.take_append_of_le_length hi] at hmem
    exact List.mem_of_mem_take hmem
  simp only [crlf, Span.crlf, id]
  rw [hself _ (by omega), hself _ (by omega), hself _ (by omega), hself _ (by omega)]

/-- After the first line, what lies further on in the later lines does. -/
theorem crlf_shift (h : lineFeed ∉ a) (b : Bytes) (d : Declaration) :
    (d.shift (a.length + 1)).crlf (a ++ lineFeed :: b) =
      (d.crlf b).shift ((a ++ [carriageReturn]).length + 1) := by
  have hoffset : ∀ i, crlfOffset (a ++ lineFeed :: b) (i + (a.length + 1)) =
      crlfOffset b i + ((a ++ [carriageReturn]).length + 1) := fun i => by
    rw [Nat.add_comm i, Nat.add_assoc, crlfOffset_add, List.drop_left, Nat.add_comm 1]
    simp only [crlfOffset, List.take_left, List.count_eq_zero.2 h, List.take_succ_cons,
      List.count_cons_self, List.length_append, List.length_singleton]
    omega
  simp only [crlf, shift, Span.crlf, Span.shift, hoffset]

/-- **A text with longer line endings declares the same**, where it stands then. -/
theorem allOf_crlf (k : Kind) (text : Bytes) :
    allOf k (Bytes.crlf text) = (allOf k text).map (crlf text) := by
  induction text using line_induction with
  | line a h =>
    have hself := map_crlf_allOf (k := k) h []
    rw [List.append_nil] at hself
    rw [crlf_of_not_mem h, hself]
  | append a b h ih =>
    have hbreak : Bytes.crlf (a ++ lineFeed :: b) =
        (a ++ [carriageReturn]) ++ lineFeed :: Bytes.crlf b := by
      rw [crlf_append, crlf_of_not_mem h, crlf_lineFeed_cons, List.append_assoc]
      rfl
    have hlater : shift ((a ++ [carriageReturn]).length + 1) ∘ crlf b =
        crlf (a ++ lineFeed :: b) ∘ shift (a.length + 1) :=
      funext fun d => (crlf_shift h b d).symm
    rw [hbreak, allOf_append, allOf_append, allOf_concat h, ih, List.map_append,
      map_crlf_allOf h, List.map_map, List.map_map, hlater]

end Declaration

namespace Catalog

variable {k : Kind} {name : String} {f : Declaration → Declaration}

/-- Insertion of declarations that are found under the same keys. -/
theorem put_map (hf : ∀ d, (f d).key = d.key) (d : Declaration) (ds : List Declaration) :
    put (f d) (ds.map f) = (put d ds).map f := by
  induction ds with
  | nil => rfl
  | cons e ds ih => by_cases h : e.key = d.key <;> simp [put, hf, h, ih]

theorem declarations_ofList_map (hf : ∀ d, (f d).key = d.key) (ds : List Declaration) :
    (ofList (ds.map f)).declarations = (ofList ds).declarations.map f := by
  suffices h : ∀ c c' : Catalog, c'.declarations = c.declarations.map f →
      ((ds.map f).foldl insert c').declarations = (ds.foldl insert c).declarations.map f from
    h empty empty rfl
  induction ds with
  | nil => exact fun c c' h => h
  | cons d ds ih =>
    intro c c' h
    refine ih _ _ ?_
    simp only [insert, h, put_map hf]

/-- **The scan of a text with longer line endings** holds the same declarations in
the same order, where they stand then. -/
theorem declarations_scan_crlf (text : Bytes) :
    (scan (Bytes.crlf text)).declarations =
      (scan text).declarations.map (Declaration.crlf text) := by
  have hall : Kind.all.flatMap (allOf · (Bytes.crlf text)) =
      (Kind.all.flatMap (allOf · text)).map (Declaration.crlf text) := by
    simp only [Kind.all, List.flatMap_cons, List.flatMap_nil, allOf_crlf, List.map_append,
      List.map_nil]
  rw [scan, scan, hall]
  exact declarations_ofList_map (f := Declaration.crlf text) (fun _ => rfl) _

theorem get?_scan_crlf (text : Bytes) (k : Kind) (name : String) :
    (scan (Bytes.crlf text)).get? k name =
      ((scan text).get? k name).map (Declaration.crlf text) := by
  rw [get?, get?, declarations_scan_crlf, List.find?_map]
  rfl

theorem kinds_scan_crlf (text : Bytes) :
    (scan (Bytes.crlf text)).kinds = (scan text).kinds := by
  rw [kinds, kinds, declarations_scan_crlf, List.map_map]
  rfl

theorem names_scan_crlf (text : Bytes) (k : Kind) :
    (scan (Bytes.crlf text)).names k = (scan text).names k := by
  rw [names, names, ofKind?_getD, ofKind?_getD, declarations_scan_crlf, List.filter_map,
    List.map_map]
  rfl

end Catalog

/-! ## Texts without line breaks -/

namespace Text

variable {k : Kind} {s name value : String}

/-- A string with a carriage return in front of each line feed. -/
def crlf (s : String) : String :=
  String.ofList (s.toList.flatMap fun c => if c = '\n' then ['\r', '\n'] else [c])

theorem encode_crlf (s : String) : encode (crlf s) = Bytes.crlf (encode s) := by
  have hchar : ∀ c, ofChars (if c = '\n' then ['\r', '\n'] else [c]) =
      Bytes.crlf (String.utf8EncodeChar c) := by
    intro c
    by_cases hc : c = '\n'
    · subst hc
      decide
    · have hmem : lineFeed ∉ ofChars [c] :=
        mt (ascii_mem_ofChars (by decide)).1 (by simpa using Ne.symm hc)
      rw [if_neg hc, ← crlf_of_not_mem hmem, ofChars, List.flatMap_singleton]
  rw [crlf, encode, encode, String.toList_ofList]
  induction s.toList with
  | nil => rfl
  | cons c cs ih => rw [List.flatMap_cons, ofChars_append, hchar, ih, ofChars_cons, crlf_append]

/-- A string without a byte of a line break. -/
structure IsUnbroken (s : String) : Prop where
  carriageReturn : '\r' ∉ s.toList
  newline : '\n' ∉ s.toList

namespace IsUnbroken

theorem carriageReturn_not_mem (h : IsUnbroken s) : Bytes.carriageReturn ∉ encode s :=
  mt (ascii_mem_ofChars (by decide)).1 h.carriageReturn

theorem lineFeed_not_mem (h : IsUnbroken s) : lineFeed ∉ encode s :=
  lineFeed_not_mem_encode_iff.2 h.newline

theorem crlf_encode (h : IsUnbroken s) : Bytes.crlf (encode s) = encode s :=
  crlf_of_not_mem h.lineFeed_not_mem

theorem canonical (hn : IsUnbroken name) (hv : IsUnbroken value) :
    IsUnbroken (canonical k name value) := by
  obtain ⟨hn, hn'⟩ := hn
  obtain ⟨hv, hv'⟩ := hv
  cases k <;> constructor <;> simp [Declaration.canonical, hn, hn', hv, hv']

end IsUnbroken

/-- A name that can be declared has no line break. -/
theorem IsName.isUnbroken (h : IsName name) : IsUnbroken name where
  carriageReturn hmem := absurd (h.2 _ hmem) (by decide)
  newline hmem := absurd (h.2 _ hmem) (by decide)

end Text

/-! ## Edits -/

/-- Outcomes that differ in the line endings of the file, and in nothing else that
a caller is told of. -/
structure Outcome.AgreesCrlf (o o' : Outcome Bool) : Prop where
  result : o'.result = o.result
  storage : ∃ contents, carriageReturn ∉ contents ∧ o.storage = .file contents ∧
    o'.storage = .file (crlf contents)

theorem Outcome.AgreesCrlf.storage_eq {o o' : Outcome Bool} {contents : Bytes}
    (h : o.AgreesCrlf o') (hstorage : o.storage = .file contents) :
    o'.storage = .file (crlf contents) := by
  obtain ⟨-, contents', -, hs, hs'⟩ := h
  obtain rfl := Storage.file.inj (hs.symm.trans hstorage)
  exact hs'

namespace Edit

variable {k : Kind} {name : String} {text : Bytes} {d : Declaration}

/-- **The ranges that an edit replaces correspond.** -/
theorem range_crlf (edit : Edit) (h : carriageReturn ∉ text) (hd : d.span.stop ≤ text.length) :
    edit.range (Bytes.crlf text) (d.crlf text) = (edit.range text d).crlf text := by
  cases edit with
  | update v o => cases hnormalize : o.normalize <;> simp [range, Declaration.crlf, hnormalize]
  | remove =>
    have hdrop : carriageReturn ∉ text.drop d.span.stop := fun hmem =>
      h (List.mem_of_mem_drop hmem)
    simp only [range, Declaration.crlf, Span.crlf, drop_crlf hd, lineBreakLength_crlf hdrop,
      crlfOffset_add]

/-- **An edit of a declared name** is the same edit with longer line endings. -/
theorem agreesCrlf (edit : Edit) (e : Editor) (h : carriageReturn ∉ text)
    (hd : (Catalog.scan text).get? k name = some d)
    (hnew : Text.IsUnbroken (edit.replacement k name)) :
    (edit.apply e k name (.file text)).AgreesCrlf
      (edit.apply e k name (.file (Bytes.crlf text))) := by
  have hd' : (Catalog.scan (Bytes.crlf text)).get? k name = some (d.crlf text) := by
    rw [Catalog.get?_scan_crlf, hd, Option.map_some]
  obtain ⟨p, rfl⟩ := Place.exists_of_get? hd
  obtain ⟨p', hp'⟩ := Place.exists_of_get? hd'
  obtain ⟨-, hle, hstop⟩ := edit.range_le p.liesIn
  obtain ⟨hstorage, hresult⟩ := edit.apply_splice e hd p.liesIn
  obtain ⟨hstorage', hresult'⟩ := edit.apply_splice e hd' (hp' ▸ p'.liesIn)
  simp only [edit.range_crlf h p.liesIn.stop_le, Span.crlf] at hstorage' hresult'
  rw [← hnew.crlf_encode, splice_crlf (Nat.le_trans hle hstop) hstop] at hstorage' hresult'
  have hmem := carriageReturn_not_mem_splice (i := (edit.range text p.declaration).start)
    (j := (edit.range text p.declaration).stop) h hnew.carriageReturn_not_mem
  refine ⟨?_, _, hmem, hstorage, hstorage'⟩
  rw [hresult, hresult']
  exact congrArg Except.ok (decide_eq_decide.2 (not_congr (crlf_inj hmem h)))

end Edit

namespace Editor

variable {k : Kind} {name : String} {text : Bytes}

theorem agreesCrlf_remove (h : carriageReturn ∉ text) (k : Kind) (name : String) :
    (remove k name (.file text)).AgreesCrlf (remove k name (.file (Bytes.crlf text))) := by
  cases hd : (Catalog.scan text).get? k name with
  | none =>
    have hd' : (Catalog.scan (Bytes.crlf text)).get? k name = none := by
      rw [Catalog.get?_scan_crlf, hd, Option.map_none]
    obtain ⟨hresult, hstorage⟩ := remove_file_of_eq_none hd
    obtain ⟨hresult', hstorage'⟩ := remove_file_of_eq_none hd'
    exact ⟨hresult'.trans hresult.symm, _, h, hstorage, hstorage'⟩
  | some d =>
    have hnil : Text.IsUnbroken "" := ⟨List.not_mem_nil, List.not_mem_nil⟩
    exact Edit.remove.agreesCrlf ⟨.default⟩ h hd hnil

theorem agreesCrlf_update (e : Editor) (h : carriageReturn ∉ text)
    (hd : ((Catalog.scan text).get? k name).isSome) (v : Value) (o : UpdateOptions)
    (hv : Text.IsUnbroken (v.render o.raw)) :
    (e.update k name v o (.file text)).AgreesCrlf
      (e.update k name v o (.file (Bytes.crlf text))) := by
  obtain ⟨d, hd⟩ := Option.isSome_iff_exists.1 hd
  obtain ⟨p, -⟩ := Place.exists_of_get? hd
  refine Edit.agreesCrlf (.update v o) e h hd ?_
  cases hnormalize : o.normalize with
  | false => simpa [Edit.replacement, hnormalize] using hv
  | true => simpa [Edit.replacement, hnormalize] using p.isName.isUnbroken.canonical hv

/-- **An insertion at an anchor** is made at the place which corresponds. -/
theorem inserted_crlf {p : Nat} {o : AddOptions} (d : Bytes)
    (hp : indexOf? (encode o.anchor) text = some p) (hd : lineFeed ∉ d)
    (hanchor : Text.IsUnbroken o.anchor) :
    inserted (Bytes.crlf text) d (crlfOffset text p)
        { o with separator := Text.crlf o.separator } = Bytes.crlf (inserted text d p o) := by
  obtain ⟨⟨hle, rest, hrest⟩, -⟩ := indexOf?_eq_some_iff.1 hp
  have hdecl : Bytes.crlf d = d := crlf_of_not_mem hd
  cases hplacement : o.placement with
  | before =>
    simp only [inserted, hplacement, Text.encode_crlf]
    rw [← splice_crlf hle hle, crlf_append, hdecl]
  | after =>
    -- the anchor has no line feed, so it is as long as before
    have hend : crlfOffset text p + (encode o.anchor).length =
        crlfOffset text (p + (encode o.anchor).length) := by
      have hline : lineFeed ∉ (text.drop p).take (encode o.anchor).length := by
        rw [← hrest, List.take_left]
        exact hanchor.lineFeed_not_mem
      rw [crlfOffset_add, crlfOffset_of_not_mem hline]
    have hstop : p + (encode o.anchor).length ≤ text.length := by
      have hlength := congrArg List.length hrest
      rw [List.length_append, List.length_drop] at hlength
      omega
    simp only [inserted, hplacement, Text.encode_crlf, hend]
    rw [← splice_crlf hstop hstop, crlf_append, hdecl]

theorem agreesCrlf_add (h : carriageReturn ∉ text) (k : Kind) (name : String) (v : Value)
    (o : AddOptions) (hsep : '\r' ∉ o.separator.toList) (hanchor : Text.IsUnbroken o.anchor)
    (hn : Text.IsUnbroken name) (hv : Text.IsUnbroken (v.render o.raw)) :
    (add k name v o (.file text)).AgreesCrlf
      (add k name v { o with separator := Text.crlf o.separator } (.file (Bytes.crlf text))) := by
  have hget := Catalog.get?_scan_crlf text k name
  cases hd : (Catalog.scan text).get? k name with
  | some d =>
    rw [hd, Option.map_some] at hget
    obtain ⟨hresult, hstorage⟩ := add_file_of_isSome v o (Option.isSome_iff_exists.2 ⟨_, hd⟩)
    obtain ⟨hresult', hstorage'⟩ := add_file_of_isSome v
      { o with separator := Text.crlf o.separator } (Option.isSome_iff_exists.2 ⟨_, hget⟩)
    exact ⟨hresult'.trans hresult.symm, _, h, hstorage, hstorage'⟩
  | none =>
    rw [hd, Option.map_none] at hget
    have hindex := indexOf?_crlf hanchor.carriageReturn_not_mem hanchor.lineFeed_not_mem text
    cases hp : indexOf? (encode o.anchor) text with
    | none =>
      rw [hp, Option.map_none] at hindex
      obtain ⟨hresult, hstorage⟩ := add_file_of_indexOf?_eq_none v o hd hp
      obtain ⟨hresult', hstorage'⟩ := add_file_of_indexOf?_eq_none v
        { o with separator := Text.crlf o.separator } hget hindex
      exact ⟨hresult'.trans hresult.symm, _, h, hstorage, hstorage'⟩
    | some p =>
      rw [hp, Option.map_some] at hindex
      have hdecl := hn.canonical hv (k := k)
      obtain ⟨hresult, hstorage⟩ := addTo_file v o hd hp
      obtain ⟨hresult', hstorage'⟩ := addTo_file v
        { o with separator := Text.crlf o.separator } hget hindex
      rw [inserted_crlf _ hp hdecl.lineFeed_not_mem hanchor] at hstorage'
      refine ⟨hresult'.trans hresult.symm, _, ?_, hstorage, hstorage'⟩
      have hsep' : carriageReturn ∉ encode o.separator := mt (ascii_mem_ofChars (by decide)).1 hsep
      have hinserted := hdecl.carriageReturn_not_mem
      cases hplacement : o.placement <;> simp only [inserted, hplacement] <;>
        exact carriageReturn_not_mem_splice h (by simp [hsep', hinserted])

/-- **Line endings do not matter.** Of a text and the same text with longer line
endings, a scan finds the same declarations in the same order, in the latter as
much further on as there are line feeds before. Removals, updates of what is
declared and additions have the same results, and what they leave differs in the
line endings only, if a separator has those of the file and nothing else that is
written or searched for has a line break. -/
theorem crlf_edit (h : carriageReturn ∉ text) :
    ((Catalog.scan (Bytes.crlf text)).declarations =
        (Catalog.scan text).declarations.map (Declaration.crlf text) ∧
      (Catalog.scan (Bytes.crlf text)).kinds = (Catalog.scan text).kinds ∧
      (∀ k, (Catalog.scan (Bytes.crlf text)).names k = (Catalog.scan text).names k) ∧
      ∀ k name, (Catalog.scan (Bytes.crlf text)).get? k name =
        ((Catalog.scan text).get? k name).map fun d =>
          { d with
            span := ⟨d.span.start + (text.take d.span.start).count lineFeed,
              d.span.stop + (text.take d.span.stop).count lineFeed⟩
            valueSpan := ⟨d.valueSpan.start + (text.take d.valueSpan.start).count lineFeed,
              d.valueSpan.stop + (text.take d.valueSpan.stop).count lineFeed⟩ }) ∧
    (∀ k name,
      (remove k name (.file text)).AgreesCrlf (remove k name (.file (Bytes.crlf text)))) ∧
    (∀ (e : Editor) k name v (o : UpdateOptions), ((Catalog.scan text).get? k name).isSome →
      Text.IsUnbroken (v.render o.raw) →
        (e.update k name v o (.file text)).AgreesCrlf
          (e.update k name v o (.file (Bytes.crlf text)))) ∧
    ∀ k name v (o : AddOptions), '\r' ∉ o.separator.toList → Text.IsUnbroken o.anchor →
      Text.IsUnbroken name → Text.IsUnbroken (v.render o.raw) →
        (add k name v o (.file text)).AgreesCrlf (add k name v
          { o with separator := Text.crlf o.separator } (.file (Bytes.crlf text))) :=
  ⟨⟨Catalog.declarations_scan_crlf text, Catalog.kinds_scan_crlf text,
      Catalog.names_scan_crlf text, Catalog.get?_scan_crlf text⟩,
    agreesCrlf_remove h, fun e _ _ v o hd hv => agreesCrlf_update e h hd v o hv,
    fun k name v o => agreesCrlf_add h k name v o⟩

/-- The line after a declaration closes up, a declaration goes on a line of its own
behind an anchor, and a value is replaced on the last line, which has no ending. -/
theorem crlf_edit_anchor : ∃ text o, text = encode "$a = 1;\n# here\n$b = 2;" ∧
    o = AddOptions.mk false "# here" .after "\n" ∧ carriageReturn ∉ text ∧
    Bytes.crlf text = encode "$a = 1;\r\n# here\r\n$b = 2;" ∧ Text.crlf o.separator = "\r\n" ∧
    ((Catalog.scan text).get? .var "b").isSome ∧
    (remove .var "a" (.file (Bytes.crlf text))).storage = .file (encode "# here\r\n$b = 2;") ∧
    (update ⟨.default⟩ .var "b" (.int 3) {} (.file (Bytes.crlf text))).storage =
      .file (encode "$a = 1;\r\n# here\r\n$b = 3;") ∧
    (add .var "c" (.bool true) { o with separator := Text.crlf o.separator }
        (.file (Bytes.crlf text))).storage =
      .file (encode "$a = 1;\r\n# here\r\n$c = true;\r\n$b = 2;") := by
  let text := encode "$a = 1;\n# here\n$b = 2;"
  let o := AddOptions.mk false "# here" .after "\n"
  have hcr : carriageReturn ∉ text := by decide +kernel
  have hb : ((Catalog.scan text).get? .var "b").isSome := by decide +kernel
  have hunbroken : ∀ s ∈ ["# here", "c", "3", "true"], '\r' ∉ s.toList ∧ '\n' ∉ s.toList := by
    decide
  have hone : ∀ s ∈ ["# here", "c", "3", "true"], Text.IsUnbroken s := fun s hs =>
    ⟨(hunbroken s hs).1, (hunbroken s hs).2⟩
  obtain ⟨-, hremove, hupdate, hadd⟩ := crlf_edit hcr
  have hremoved : (remove .var "a" (.file text)).storage = .file (encode "# here\n$b = 2;") := by
    decide +kernel
  have hupdated : (update ⟨.default⟩ .var "b" (.int 3) {} (.file text)).storage =
      .file (encode "$a = 1;\n# here\n$b = 3;") := by decide +kernel
  have hadded : (add .var "c" (.bool true) o (.file text)).storage =
      .file (encode "$a = 1;\n# here\n$c = true;\n$b = 2;") := by decide +kernel
  have hremove' := (hremove .var "a").storage_eq hremoved
  have hupdate' := (hupdate ⟨.default⟩ .var "b" (.int 3) {} hb
    (hone "3" (by simp))).storage_eq hupdated
  have hadd' := (hadd .var "c" (.bool true) o (by decide) (hone "# here" (by simp))
    (hone "c" (by simp)) (hone "true" (by simp))).storage_eq hadded
  refine ⟨text, o, rfl, rfl, hcr, ?_, ?_, hb, hremove'.trans ?_, hupdate'.trans ?_,
    hadd'.trans ?_⟩ <;> decide +kernel

end Editor

end SiteConfig
