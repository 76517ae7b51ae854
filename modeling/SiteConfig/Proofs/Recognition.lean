import SiteConfig.Proofs.Matching
import SiteConfig.Proofs.Reading
/-!
# The patterns and the readers

A pattern finds its match by trying one way after another, and the readers of
a line go through it once. On a line they agree: the pattern of a kind
matches where there are parts to read, and its groups are these parts
(`Declaration.exists_matchAt_pattern`). So what a match declares is what is
read on the line (`Declaration.matchAt_pattern_bind`).

Most of a pattern leaves no choice, and is read byte by byte (`Pattern.Reads`).
A choice is left in three places. Blanks could be given back, but what comes
after them either cannot start with a blank or would fail all the same. A
literal could be given up for the shortest text, and is if no terminator
follows it. And the shortest text grows until a terminator follows.
-/

namespace SiteConfig

open Bytes Line

/-! ## Classes of bytes -/

/-- What holds of the bytes one by one holds of all. -/
theorem Bytes.of_all_range {P : UInt8 → Bool} (h : (List.range 256).all fun n => P n.toUInt8)
    (b : UInt8) : P b := by
  have hb := List.all_eq_true.1 h b.toNat (List.mem_range.2 b.toNat_lt)
  simpa using hb

namespace ByteClass

theorem contains_of (cs : List Char) (b : UInt8) : (of cs).contains b ↔ b ∈ cs.map ascii := by
  have hone : ∀ x : UInt8, (x ≤ b ∧ b ≤ x) ↔ x = b := fun x =>
    ⟨fun h => UInt8.le_antisymm h.1 h.2, fun h => h ▸ ⟨UInt8.le_refl x, UInt8.le_refl x⟩⟩
  simp [contains, inRanges, of, hone]

theorem contains_except (cs : List Char) (b : UInt8) :
    (except cs).contains b ↔ b ∉ cs.map ascii := by
  rw [← contains_of]
  simp [contains, inRanges, of, except]

theorem contains_blank : (of [' ', '\t']).contains = isBlank := by
  funext b
  rw [Bool.eq_iff_iff, contains_of]
  simp [isBlank]

theorem contains_quote : (of ['\'', '"']).contains = isQuote := by
  funext b
  rw [Bool.eq_iff_iff, contains_of]
  simp [isQuote]

theorem contains_word : word.contains = isWord := by
  have h := Bytes.of_all_range (P := fun b => word.contains b == isWord b) (by decide +kernel)
  exact funext fun b => eq_of_beq (h b)

/-- Whether a class has both cases of each letter in it anyway. -/
def caseless (s : ByteClass) : Bool :=
  (List.range 256).all fun n =>
    s.ignoringCase.contains n.toUInt8 == s.contains n.toUInt8

theorem contains_ignoringCase {s : ByteClass} (h : s.caseless) (b : UInt8) :
    s.ignoringCase.contains b = s.contains b :=
  eq_of_beq (Bytes.of_all_range
    (P := fun b => s.ignoringCase.contains b == s.contains b) h b)

end ByteClass

namespace Pattern

variable {α : Type} {p q : Pattern} {c : Cursor} {groups : Captures} {k : Continuation α}
variable {kind : Kind} {read read' : Bytes → Option Bytes}

/-! ## Letters in either case -/

/-- Whether all classes of a pattern have both cases of each letter in them. -/
def caseless : Pattern → Bool
  | empty | lineStart => true
  | byte s => s.caseless
  | seq p q | alt p q => p.caseless && q.caseless
  | star _ p | group _ p => p.caseless

/-- Case is ignored where it bears on something only. -/
theorem run_ignoringCase (h : p.caseless) : p.ignoringCase.run (α := α) = p.run := by
  induction p with
  | empty | lineStart => rfl
  | byte s =>
    funext c groups k
    simp only [ignoringCase, run, ByteClass.contains_ignoringCase (s := s) h]
  | seq p q ihp ihq | alt p q ihp ihq =>
    obtain ⟨hp, hq⟩ := Bool.and_eq_true_iff.1 h
    funext c groups k
    simp only [ignoringCase, run, ihp hp, ihq hq]
  | star greedy p ih | group n p ih =>
    funext c groups k
    simp only [ignoringCase, run, ih h]

/-! ## Patterns that leave no choice -/

/-- A pattern takes what a reader reads, and can take nothing else. -/
structure Reads (p : Pattern) (read : Bytes → Option Bytes) : Prop where
  suffix : ∀ {text rest}, read text = some rest → rest <:+ text
  run_eq : ∀ {α : Type} (c : Cursor) (groups : Captures) (k : Continuation α),
    p.run c groups k = (read c.rest).bind fun rest => k (c.goTo rest) groups

namespace Reads

protected theorem empty : Reads empty some where
  suffix := by
    rintro _ _ ⟨⟩
    exact List.suffix_rfl
  run_eq c groups k := by rw [Option.bind_some, Cursor.goTo_self, run]

/-- One byte of a class. -/
protected theorem byte {s : ByteClass} (hnil : read [] = none)
    (hcons : ∀ b text, read (b :: text) = if s.contains b then some text else none) :
    Reads (byte s) read where
  suffix := by
    intro text rest h
    cases text with
    | nil => rw [hnil] at h; cases h
    | cons b text =>
      rw [hcons] at h
      split at h
      · cases h
        exact List.suffix_cons b _
      · cases h
  run_eq c groups k := by
    cases hc : c.rest with
    | nil => rw [run_byte_of_eq_nil hc, hnil, Option.bind_none]
    | cons b rest =>
      rw [run_byte_of_eq_cons hc, hcons]
      split <;> rfl

protected theorem char (x : Char) : Reads (char x) (byte? (ascii x)) :=
  .byte rfl fun b text => by simp [byte?, ByteClass.contains_of]

protected theorem quote : Reads quote quote? :=
  .byte rfl fun b text => by rw [quote?, ByteClass.contains_quote]

protected theorem congr (h : Reads p read) (heq : ∀ text, read text = read' text) :
    Reads p read' := (funext heq : read = read') ▸ h

/-- One pattern and then another. -/
protected theorem seq (hp : Reads p read) (hq : Reads q read') :
    Reads (seq p q) fun text => (read text).bind read' where
  suffix := by
    intro text rest h
    obtain ⟨mid, hmid, hrest⟩ := Option.bind_eq_some_iff.1 h
    exact (hq.suffix hrest).trans (hp.suffix hmid)
  run_eq c groups k := by
    rw [run, hp.run_eq, Option.bind_assoc]
    refine Option.bind_congr fun mid hmid => ?_
    rw [hq.run_eq]
    refine Option.bind_congr fun rest hrest => ?_
    rw [Cursor.goTo_goTo (hp.suffix hmid) (hq.suffix hrest)]

end Reads

/-- **Blanks are taken as far as they go** where what follows does not match from
a blank, unless it matches from after the blank as well. -/
theorem run_blanks (h : ∀ c' b rest, c.Reaches c' → c'.rest = b :: rest → isBlank b →
      k (c'.goTo rest) groups = none → k c' groups = none) :
    blanks.run c groups k = k (c.goTo (skipBlanks c.rest)) groups := by
  rw [← ByteClass.contains_blank] at h
  rw [blanks, run_star_byte h, ByteClass.contains_blank, skipBlanks]

/-- Blanks and then what cannot start with one. -/
protected theorem Reads.blanks_seq (hp : Reads p read)
    (hblank : ∀ b text, isBlank b → read (b :: text) = none) :
    Reads (seq blanks p) fun text => read (skipBlanks text) where
  suffix h := (hp.suffix h).trans (skipBlanks_suffix _)
  run_eq c groups k := by
    have hfail : ∀ c' b rest, c'.rest = b :: rest → isBlank b → p.run c' groups k = none :=
      fun c' b rest hc hb => by rw [hp.run_eq, hc, hblank b rest hb, Option.bind_none]
    rw [run, run_blanks fun c' b rest _ hc hb _ => hfail c' b rest hc hb, hp.run_eq,
      Cursor.rest_goTo]
    refine Option.bind_congr fun rest hrest => ?_
    rw [Cursor.goTo_goTo (skipBlanks_suffix _) (hp.suffix hrest)]

/-- Blanks, what cannot start with one, and then another pattern. -/
protected theorem Reads.blanks_then (hp : Reads p read)
    (hblank : ∀ b text, isBlank b → read (b :: text) = none) (hq : Reads q read') :
    Reads (.seq blanks (.seq p q)) fun text => (read (skipBlanks text)).bind read' where
  suffix := ((hp.blanks_seq hblank).seq hq).suffix
  run_eq := ((hp.blanks_seq hblank).seq hq).run_eq

/-- Blanks, a character, and then another pattern. -/
protected theorem Reads.blanks_char {x : Char} (hx : ¬ isBlank (ascii x)) (hq : Reads q read') :
    Reads (.seq blanks (.seq (char x) q)) fun text =>
      (byte? (ascii x) (skipBlanks text)).bind read' :=
  (Reads.char x).blanks_then (fun _ _ hb => byte?_cons_of_ne fun h => hx (h ▸ hb)) hq

theorem quote?_of_isBlank (b : UInt8) (text : Bytes) (hb : isBlank b) :
    quote? (b :: text) = none := by
  rw [quote?, if_neg fun hq => not_isBlank_of_isQuote hq hb]

/-! ## The parts of a declaration -/

/-- The pattern of a kind up to the name. -/
def opening : Kind → Pattern
  | .const => all [blanks, ignoringCase (chars "define"), blanks, char '(', blanks, quote]
  | .var => all [blanks, char '$']

/-- The pattern of a kind from the name up to the blanks before the value. -/
def naming : Kind → Pattern
  | .const => all [quote, blanks, char ',']
  | .var => all [blanks, char '=']

/-- The pattern of a kind after the value. -/
def ending : Kind → Pattern
  | .const => all [blanks, char ')', blanks, char ';']
  | .var => all [blanks, char ';']

/-- Reads a declaration up to its name. -/
def opening? : Kind → Bytes → Option Bytes
  | .const, text => do
    let text ← keyword? defineKeyword (skipBlanks text)
    let text ← byte? (ascii '(') (skipBlanks text)
    quote? (skipBlanks text)
  | .var, text => byte? (ascii '$') (skipBlanks text)

/-- Reads a declaration from its name up to the blanks before its value. -/
def naming? : Kind → Bytes → Option Bytes
  | .const, text => do
    let text ← quote? text
    byte? (ascii ',') (skipBlanks text)
  | .var, text => byte? (ascii '=') (skipBlanks text)

theorem head?_eq (kind : Kind) (line : Bytes) : head? kind line = (do
    let text ← opening? kind line
    let (name, text) ← word? text
    let text ← naming? kind text
    pure (name, skipBlanks text)) := by
  cases kind <;> simp [head?, opening?, naming?, Option.bind_assoc]

theorem parts?_eq (kind : Kind) (line : Bytes) : parts? kind line =
    (opening? kind line).bind fun text => (word? text).bind fun name =>
      (naming? kind name.2).bind fun text => (value? kind (skipBlanks text)).map fun found =>
        ⟨name.1, found.1, line.length - (skipBlanks text).length,
          line.length - found.2.length⟩ := by
  simp only [parts?, head?_eq, Option.bind_eq_bind, Option.pure_def, Option.bind_assoc,
    Option.bind_some, Option.map_eq_bind]
  rfl

/-- A letter of the keyword is taken in either case. -/
theorem contains_letter {x : Char} (hx : x ∈ "define".toList) (b : UInt8) :
    (ByteClass.of [x]).ignoringCase.contains b ↔ toLower b = ascii x := by
  have h : "define".toList.all fun x => (List.range 256).all fun n =>
      (ByteClass.of [x]).ignoringCase.contains n.toUInt8 == (toLower n.toUInt8 == ascii x) := by
    decide +kernel
  have hb := Bytes.of_all_range
    (P := fun b => (ByteClass.of [x]).ignoringCase.contains b == (toLower b == ascii x))
    (List.all_eq_true.1 h x hx) b
  rw [eq_of_beq hb, beq_iff_eq]

theorem reads_letters {xs : List Char} (hxs : ∀ x ∈ xs, x ∈ "define".toList) :
    Reads (ignoringCase (all (xs.map char))) (keyword? (xs.map ascii)) := by
  induction xs with
  | nil => exact Reads.empty.congr fun text => rfl
  | cons x xs ih =>
    obtain ⟨hx, hxs⟩ := List.forall_mem_cons.1 hxs
    have hletter : Reads (ignoringCase (char x)) (keyword? [ascii x]) :=
      .byte rfl fun b text => by simp [keyword?, contains_letter hx]
    refine (hletter.seq (ih hxs)).congr fun text => ?_
    cases text with
    | nil => rfl
    | cons b text => by_cases hb : toLower b = ascii x <;> simp [keyword?, hb]

theorem reads_opening (kind : Kind) : Reads (opening kind) (opening? kind) := by
  cases kind with
  | const =>
    have hkeyword : ∀ b text, isBlank b → keyword? defineKeyword (b :: text) = none := by
      intro b text hb
      rcases isBlank_iff.1 hb with rfl | rfl <;> rfl
    refine (Reads.blanks_then (reads_letters fun x hx => hx) hkeyword
      (.blanks_char (x := '(') (by decide) (.blanks_then .quote quote?_of_isBlank .empty))).congr
      fun text => ?_
    simp [opening?]
    rfl
  | var =>
    refine (Reads.blanks_char (x := '$') (by decide) .empty).congr fun text => ?_
    simp [opening?]

theorem reads_naming (kind : Kind) : Reads (naming kind) (naming? kind) := by
  cases kind with
  | const =>
    refine (Reads.seq .quote (.blanks_char (x := ',') (by decide) .empty)).congr fun text => ?_
    simp [naming?]
  | var =>
    refine (Reads.blanks_char (x := '=') (by decide) .empty).congr fun text => ?_
    simp [naming?]

theorem reads_ending (kind : Kind) : Reads (ending kind) (terminator? kind) := by
  cases kind with
  | const =>
    refine (Reads.blanks_char (x := ')') (by decide)
      (.blanks_char (x := ';') (by decide) .empty)).congr fun text => ?_
    simp [terminator?]
  | var =>
    refine (Reads.blanks_char (x := ';') (by decide) .empty).congr fun text => ?_
    simp [terminator?]

/-- **The pattern of a kind is made of these parts**, as case bears on the keyword
only. -/
theorem run_pattern (kind : Kind) : (Declaration.pattern kind).run (α := α) =
    (seq lineStart (seq (opening kind) (seq (group 1 word) (seq (naming kind)
      (seq blanks (seq (group 2 value) (ending kind))))))).run := by
  cases kind with
  | const =>
    have hblanks : blanks.ignoringCase.run (α := α) = blanks.run :=
      run_ignoringCase (by decide +kernel)
    have hquote : quote.ignoringCase.run (α := α) = quote.run :=
      run_ignoringCase (by decide +kernel)
    have hword : word.ignoringCase.run (α := α) = word.run := run_ignoringCase (by decide +kernel)
    have hvalue : value.ignoringCase.run (α := α) = value.run :=
      run_ignoringCase (by decide +kernel)
    have hmark : ∀ x ∈ ['(', ',', ')', ';'], (char x).ignoringCase.run (α := α) = (char x).run := by
      intro x hx
      have hcaseless : ['(', ',', ')', ';'].all fun x => (char x).caseless := by decide +kernel
      exact run_ignoringCase (List.all_eq_true.1 hcaseless x hx)
    funext c groups k
    simp only [Declaration.pattern, opening, naming, ending, all, ignoringCase, run, hblanks,
      hquote, hword, hvalue, hmark '(' (by decide), hmark ',' (by decide), hmark ')' (by decide),
      hmark ';' (by decide)]
  | var => rfl

/-! ## The name -/

/-- All word bytes are taken where what follows does not start with one. -/
theorem run_word (h : ∀ c' groups' b rest, c'.rest = b :: rest → isWord b → k c' groups' = none) :
    (group 1 word).run c groups k = (word? c.rest).bind fun found =>
      k (c.goTo found.2) ((1, ⟨c.offset, found.1⟩) :: groups) := by
  rw [run, word, plus, run]
  cases hc : c.rest with
  | nil => rw [run_byte_of_eq_nil hc]; rfl
  | cons b rest =>
    rw [run_byte_of_eq_cons hc, ByteClass.contains_word]
    by_cases hb : isWord b
    · have hrest : rest <:+ c.rest := hc ▸ List.suffix_cons b rest
      have hword : word? (b :: rest) =
          some (b :: rest.takeWhile isWord, rest.dropWhile isWord) := by
        simp [word?, hb]
      have hsplit : c.rest = (b :: rest.takeWhile isWord) ++ rest.dropWhile isWord := by
        rw [hc, List.cons_append, List.takeWhile_append_dropWhile]
      rw [if_pos hb, hword]
      refine (run_star_byte (k := fun c' groups' => k c' ((1, c.upTo c') :: groups'))
        fun c' b rest _ hc' hb' _ =>
          h c' _ b rest hc' (by rwa [← ByteClass.contains_word])).trans ?_
      rw [ByteClass.contains_word, Cursor.rest_goTo,
        Cursor.goTo_goTo hrest (List.dropWhile_suffix _), Cursor.upTo_goTo hsplit]
      rfl
    · have hword : word? (b :: rest) = none := by simp [word?, hb]
      rw [if_neg hb, hword, Option.bind_none]

/-! ## The value -/

theorem run_quotedPart_of_eq_nil {x : Char} (hc : c.rest = []) :
    (quotedPart x).run c groups k = none := by
  rw [quotedPart, run_alt, run_byte_of_eq_nil hc, run_seq, char,
    run_byte_of_eq_nil hc]
  rfl

/-- A part of a literal is a byte other than its quote, or two bytes of which the
first is a backslash. -/
theorem run_quotedPart_of_eq_cons {x : Char} {b : UInt8} {text : Bytes} (hc : c.rest = b :: text) :
    (quotedPart x).run c groups k =
      (if b ∉ [ascii x, ascii '\\', lineFeed] then k (c.goTo text) groups else none).or
        (if b = ascii '\\' then (byte (.except ['\n'])).run (c.goTo text) groups k else none) := by
  have hplain : (ByteClass.except [x, '\\', '\n']).contains b ↔
      b ∉ [ascii x, ascii '\\', lineFeed] := ByteClass.contains_except [x, '\\', '\n'] b
  have hescape : (ByteClass.of ['\\']).contains b ↔ b = ascii '\\' :=
    (ByteClass.contains_of ['\\'] b).trans List.mem_singleton
  rw [quotedPart, run_alt, run_byte_of_eq_cons hc, run_seq, char, run_byte_of_eq_cons hc]
  simp only [hplain, hescape]

/-- No part of a literal starts with its quote. -/
theorem run_quotedPart_quote {x : Char} {text : Bytes} (hx : ascii x ≠ ascii '\\')
    (hc : c.rest = ascii x :: text) : (quotedPart x).run c groups k = none := by
  rw [run_quotedPart_of_eq_cons hc, if_neg (not_not_intro List.mem_cons_self), if_neg hx,
    Option.or_none]

theorem run_quotedPart_escape {x : Char} {text : Bytes} (hc : c.rest = ascii '\\' :: text) :
    (quotedPart x).run c groups k = (byte (.except ['\n'])).run (c.goTo text) groups k := by
  have hmem : ascii '\\' ∈ [ascii x, ascii '\\', lineFeed] := by simp
  rw [run_quotedPart_of_eq_cons hc, if_neg (not_not_intro hmem), if_pos rfl, Option.none_or]

theorem run_quotedPart_plain {x : Char} {b : UInt8} {text : Bytes} (hb : b ≠ ascii x)
    (he : b ≠ ascii '\\') (hf : b ≠ lineFeed) (hc : c.rest = b :: text) :
    (quotedPart x).run c groups k = k (c.goTo text) groups := by
  have hmem : b ∉ [ascii x, ascii '\\', lineFeed] := by simp [hb, he, hf]
  rw [run_quotedPart_of_eq_cons hc, if_pos hmem, if_neg he, Option.or_none]

/-- A literal from after its first quote. -/
def closing (x : Char) : Pattern := seq (star true (quotedPart x)) (char x)

theorem run_closing_eq_or {x : Char} : (closing x).run c groups k =
    ((quotedPart x).run c groups fun c' groups' =>
        if c.offset < c'.offset then (closing x).run c' groups' k else none).or
      ((byte? (ascii x) c.rest).bind fun rest => k (c.goTo rest) groups) := by
  rw [closing, run_seq, run_star, if_pos rfl, (Reads.char x).run_eq]
  rfl

/-- **A literal is taken up to the quote that closes it.** In front of that quote
no more of the literal can be taken, and in front of any other byte no quote. -/
theorem run_closing {x : Char} (hx : ascii x ≠ ascii '\\') (hline : lineFeed ∉ c.rest) :
    (closing x).run c groups k =
      (closing? (ascii x) c.rest).bind fun found => k (c.goTo found.2) groups := by
  generalize hc : c.rest = text at hline ⊢
  rw [run_closing_eq_or, hc]
  fun_induction closing? (ascii x) text generalizing c with
  | case1 => rw [run_quotedPart_of_eq_nil hc]; rfl
  | case2 text => rw [run_quotedPart_quote hx hc, byte?_cons_self]; rfl
  | case3 hb =>
    rw [run_quotedPart_escape hc, run_byte_of_eq_nil rfl, byte?_cons_of_ne hb]
    rfl
  | case4 b text hb ih =>
    rw [List.mem_cons, List.mem_cons, not_or, not_or] at hline
    have hnotLine : (ByteClass.except ['\n']).contains b := by
      simpa [ByteClass.contains_except, lineFeed] using Ne.symm hline.2.1
    have hescaped : b :: text <:+ c.rest := hc ▸ List.suffix_cons _ _
    have htext : text <:+ c.rest := (List.suffix_cons b text).trans hescaped
    have hgo : (c.goTo (b :: text)).goTo text = c.goTo text :=
      Cursor.goTo_goTo hescaped (List.suffix_cons b text)
    have hlt : c.offset < (c.goTo text).offset := Cursor.offset_lt_goTo <| by
      rw [hc, List.length_cons, List.length_cons]
      omega
    rw [run_quotedPart_escape hc, run_byte_of_eq_cons rfl, if_pos hnotLine, hgo, if_pos hlt,
      byte?_cons_of_ne hb, Option.bind_none, Option.or_none, run_closing_eq_or, Cursor.rest_goTo,
      ih rfl hline.2.2, Option.bind_map]
    refine Option.bind_congr fun found hfound => ?_
    rw [Cursor.goTo_goTo htext (closing?_suffix hx hfound)]
    rfl
  | case5 b text hb he ih =>
    rw [List.mem_cons, not_or] at hline
    have hlt : c.offset < (c.goTo text).offset := Cursor.offset_lt_goTo (by simp [hc])
    rw [run_quotedPart_plain hb he (Ne.symm hline.1) hc, if_pos hlt, byte?_cons_of_ne hb,
      Option.bind_none, Option.or_none, run_closing_eq_or, Cursor.rest_goTo, ih rfl hline.2,
      Option.bind_map]
    refine Option.bind_congr fun found hfound => ?_
    rw [Cursor.goTo_goTo (hc ▸ List.suffix_cons _ _) (closing?_suffix hx hfound)]
    rfl

theorem run_quoted {x : Char} : (quoted x).run c groups k =
    (byte? (ascii x) c.rest).bind fun rest => (closing x).run (c.goTo rest) groups k :=
  (Reads.char x).run_eq c groups fun c' groups' => (closing x).run c' groups' k

/-- The first byte tells which sort of literal there is. -/
theorem run_literal (hline : lineFeed ∉ c.rest) :
    ((quoted '\'').run c groups k).or ((quoted '"').run c groups k) =
      (literal? c.rest).bind fun found => k (c.goTo found.2) groups := by
  -- a literal of either sort, from its first quote on
  have hquoted : ∀ x : Char, ascii x ≠ ascii '\\' → ∀ text, c.rest = ascii x :: text →
      (closing x).run (c.goTo text) groups k =
        (closing? (ascii x) text).bind fun found => k (c.goTo found.2) groups := by
    intro x hx text hc
    have htext : text <:+ c.rest := hc ▸ List.suffix_cons _ text
    rw [run_closing hx fun hmem => hline (htext.subset hmem), Cursor.rest_goTo]
    refine Option.bind_congr fun found hfound => ?_
    rw [Cursor.goTo_goTo htext (closing?_suffix hx hfound)]
  rw [run_quoted, run_quoted]
  cases hc : c.rest with
  | nil => rfl
  | cons b text =>
    rw [literal?]
    by_cases hsingle : b = ascii '\''
    · subst hsingle
      rw [byte?_cons_self, Option.bind_some, hquoted '\'' (by decide) text hc,
        byte?_cons_of_ne (by decide), if_pos (by decide), Option.bind_map, Option.bind_none,
        Option.or_none]
      rfl
    · by_cases hdouble : b = ascii '"'
      · subst hdouble
        rw [byte?_cons_self, Option.bind_some, hquoted '"' (by decide) text hc,
          byte?_cons_of_ne (by decide), if_pos (by decide), Option.bind_map, Option.bind_none,
          Option.none_or]
        rfl
      · rw [byte?_cons_of_ne hsingle, byte?_cons_of_ne hdouble,
          if_neg (by simp [isQuote, hsingle, hdouble])]
        rfl

/-- The shortest text is taken after which what follows matches. -/
theorem run_shortest (hline : lineFeed ∉ c.rest)
    (h : ∀ c', k c' groups = none ↔ terminator? kind c'.rest = none) :
    (star false (byte (.except ['\n']))).run c groups k =
      (shortest? kind c.rest).bind fun found => k (c.goTo (c.rest.drop found.1.length)) groups := by
  induction hc : c.rest generalizing c with
  | nil =>
    have hnone : k c groups = none := (h c).2 (by rw [hc]; cases kind <;> rfl)
    rw [run_star, run_byte_of_eq_nil hc, hnone]
    rfl
  | cons b rest ih =>
    rw [hc, List.mem_cons, not_or] at hline
    have hb : (ByteClass.except ['\n']).contains b := by
      simpa [ByteClass.contains_except, lineFeed] using Ne.symm hline.1
    rw [run_star, run_byte_of_eq_cons hc, if_pos hb, if_neg Bool.false_ne_true]
    cases hterm : terminator? kind (b :: rest) with
    | some r =>
      obtain ⟨found, hfound⟩ : ∃ found, k c groups = some found :=
        Option.ne_none_iff_exists'.1 fun hnone => by
          rw [h, hc, hterm] at hnone
          cases hnone
      rw [shortest?_of_terminator? hterm, Option.bind_some, List.length_nil, List.drop_zero, ← hc,
        Cursor.goTo_self, hfound, Option.some_or]
    | none =>
      have hnone : k c groups = none := (h c).2 (hc ▸ hterm)
      have hlt : c.offset < (c.goTo rest).offset := Cursor.offset_lt_goTo (by simp [hc])
      rw [shortest?_cons hterm, hnone, Option.none_or, if_pos hlt, ih hline.2 rfl, Option.bind_map]
      refine Option.bind_congr fun found _ => ?_
      rw [Cursor.goTo_goTo (hc ▸ List.suffix_cons b rest) (List.drop_suffix _ _)]
      rfl

/-- **A value and the end of the declaration are taken as they are read.** -/
theorem run_value {f : Cursor → Captures → α} (hline : lineFeed ∉ c.rest) :
    (seq (group 2 value) (ending kind)).run c groups (fun c' groups' => some (f c' groups')) =
      (value? kind c.rest).map fun found =>
        f (c.goTo found.2) ((2, ⟨c.offset, found.1⟩) :: groups) := by
  -- what is made of a value that ends at `c'`
  let after : Continuation α := fun c' groups' => (terminator? kind c'.rest).bind fun rest =>
    some (f (c'.goTo rest) ((2, c.upTo c') :: groups'))
  have hafter : ∀ {v rest r : Bytes}, c.rest = v ++ rest → terminator? kind rest = some r →
      after (c.goTo rest) groups = some (f (c.goTo r) ((2, ⟨c.offset, v⟩) :: groups)) := by
    intro v rest r hc hr
    have hrest : rest <:+ c.rest := ⟨v, hc.symm⟩
    simp only [after, Cursor.rest_goTo, hr, Option.bind_some, Cursor.upTo_goTo hc,
      Cursor.goTo_goTo hrest ((reads_ending kind).suffix hr)]
  have hrun : (seq (group 2 value) (ending kind)).run c groups
      (fun c' groups' => some (f c' groups')) = value.run c groups after := by
    simp only [run_seq, (reads_ending kind).run_eq]
    rfl
  have hnone : ∀ c', after c' groups = none ↔ terminator? kind c'.rest = none := by
    intro c'
    cases h : terminator? kind c'.rest <;> simp [after, h]
  have hshortest : (shortest? kind c.rest).bind (fun found =>
        after (c.goTo (c.rest.drop found.1.length)) groups) =
      (shortest? kind c.rest).map fun found =>
        f (c.goTo found.2) ((2, ⟨c.offset, found.1⟩) :: groups) := by
    cases h : shortest? kind c.rest with
    | none => rfl
    | some found =>
      obtain ⟨rest, hc, hr, -⟩ := shortest?_eq_some_iff.1 h
      have hdrop : c.rest.drop found.1.length = rest := by rw [hc, List.drop_left]
      rw [Option.bind_some, Option.map_some, hdrop, hafter hc hr]
  rw [hrun, value, run_alt, run_alt, ← Option.or_assoc, run_literal hline,
    run_shortest hline hnone, hshortest, value?]
  cases hl : literal? c.rest with
  | none => rfl
  | some found =>
    obtain ⟨l, rest⟩ := found
    obtain ⟨-, hc⟩ := literal?_eq_some_iff.1 hl
    cases hr : terminator? kind rest with
    | none =>
      rw [Option.bind_some, (hnone _).2 hr, Option.none_or]
      simp [hr]
    | some r =>
      rw [Option.bind_some, hafter hc hr, Option.some_or]
      simp [hr]

/-- The blanks in front of a value are taken before it. -/
theorem run_blanks_value {f : Cursor → Captures → α} (hline : lineFeed ∉ c.rest) :
    (seq blanks (seq (group 2 value) (ending kind))).run c groups
        (fun c' groups' => some (f c' groups')) =
      (value? kind (skipBlanks c.rest)).map fun found => f (c.goTo found.2)
        ((2, ⟨(c.goTo (skipBlanks c.rest)).offset, found.1⟩) :: groups) := by
  have hlater : ∀ {c'}, c.Reaches c' → lineFeed ∉ c'.rest := fun hc' hmem =>
    hline (hc'.suffix.subset hmem)
  have hblank : ∀ c' b rest, c.Reaches c' → c'.rest = b :: rest → isBlank b →
      (seq (group 2 value) (ending kind)).run (c'.goTo rest) groups
        (fun c' groups' => some (f c' groups')) = none →
      (seq (group 2 value) (ending kind)).run c' groups
        (fun c' groups' => some (f c' groups')) = none := by
    intro c' b rest hc' hrest hb h
    have hnext : c.Reaches (c'.goTo rest) :=
      hc'.trans (Cursor.reaches_goTo (hrest ▸ List.suffix_cons b rest))
    rw [run_value (hlater hnext), Option.map_eq_none_iff, Cursor.rest_goTo] at h
    rw [run_value (hlater hc'), hrest, value?_eq_none_of_isBlank hb h, Option.map_none]
  have hskip := skipBlanks_suffix c.rest
  rw [run_seq, run_blanks hblank, run_value (hlater (Cursor.reaches_goTo hskip)), Cursor.rest_goTo]
  refine Option.map_congr fun found hfound => ?_
  rw [Cursor.goTo_goTo hskip (value?_suffix hfound)]

theorem naming?_eq_none_of_isWord {b : UInt8} {text : Bytes} (hb : isWord b) :
    naming? kind (b :: text) = none := by
  cases kind with
  | const =>
    rw [naming?, quote?, if_neg fun hq => not_isWord_of_isQuote hq hb]
    rfl
  | var =>
    have hne : b ≠ ascii '=' := by rintro rfl; exact absurd hb (by decide)
    rw [naming?, skipBlanks_cons_of_not_isBlank fun hblank => not_isWord_of_isBlank hblank hb,
      byte?_cons_of_ne hne]

/-- **A name and all that comes after it are taken as they are read.** -/
theorem run_named {f : Cursor → Captures → α} (hline : lineFeed ∉ c.rest) :
    (seq (group 1 word) (seq (naming kind) (seq blanks (seq (group 2 value) (ending kind))))).run
        c groups (fun c' groups' => some (f c' groups')) =
      (word? c.rest).bind fun name => (naming? kind name.2).bind fun text =>
        (value? kind (skipBlanks text)).map fun found => f (c.goTo found.2)
          ((2, ⟨(c.goTo (skipBlanks text)).offset, found.1⟩) :: (1, ⟨c.offset, name.1⟩) ::
            groups) := by
  have hword : ∀ c' groups' b rest, c'.rest = b :: rest → isWord b →
      (seq (naming kind) (seq blanks (seq (group 2 value) (ending kind)))).run c' groups'
        (fun c' groups' => some (f c' groups')) = none := by
    intro c' groups' b rest hc hb
    rw [run_seq, (reads_naming kind).run_eq, hc, naming?_eq_none_of_isWord hb, Option.bind_none]
  rw [run_seq, run_word hword]
  refine Option.bind_congr fun name hname => ?_
  have hrest := word?_suffix hname
  rw [run_seq, (reads_naming kind).run_eq, Cursor.rest_goTo]
  refine Option.bind_congr fun text htext => ?_
  have hnaming := (reads_naming kind).suffix htext
  have hskip := (skipBlanks_suffix text).trans (hnaming.trans hrest)
  rw [Cursor.goTo_goTo hrest hnaming,
    run_blanks_value fun hmem => hline ((hnaming.trans hrest).subset hmem), Cursor.rest_goTo,
    Cursor.goTo_goTo (hnaming.trans hrest) (skipBlanks_suffix text)]
  refine Option.map_congr fun found hfound => ?_
  rw [Cursor.goTo_goTo (hnaming.trans hrest)
    ((value?_suffix hfound).trans (skipBlanks_suffix text))]

end Pattern

namespace Declaration

open Pattern

variable {c : Cursor}

/-- **On a line the pattern of a kind matches what the readers read**: where
there are parts, and nowhere else, and its groups are these parts. -/
theorem exists_matchAt_pattern (kind : Kind) (hstart : c.atLineStart) (hline : lineFeed ∉ c.rest) :
    ∃ nameStart, (pattern kind).matchAt c = (parts? kind c.rest).map fun p =>
      ([(0, ⟨c.offset, c.rest.take p.stop⟩), (2, ⟨c.offset + p.valueStart, p.value⟩),
        (1, ⟨nameStart, p.name⟩)], c.goTo (c.rest.drop p.stop)) := by
  rw [matchAt, run, run_pattern, run_seq, run, if_pos hstart, run_seq, (reads_opening kind).run_eq,
    parts?_eq]
  cases hopening : opening? kind c.rest with
  | none => exact ⟨0, rfl⟩
  | some start =>
    have hrest : start <:+ c.rest := (reads_opening kind).suffix hopening
    refine ⟨(c.goTo start).offset, ?_⟩
    rw [Option.bind_some, Option.bind_some, Option.map_bind,
      run_named fun hmem => hline (hrest.subset hmem), Cursor.rest_goTo]
    refine Option.bind_congr fun name hname => ?_
    rw [Function.comp_apply, Option.map_bind]
    refine Option.bind_congr fun text htext => ?_
    rw [Function.comp_apply, Option.map_map]
    refine Option.map_congr fun found hfound => ?_
    have hskip : skipBlanks text <:+ start := (skipBlanks_suffix text).trans
      (((reads_naming kind).suffix htext).trans (word?_suffix hname))
    have hend : found.2 <:+ start := (value?_suffix hfound).trans hskip
    rw [Cursor.goTo_goTo hrest hskip, Cursor.goTo_goTo hrest hend, Cursor.upTo_goTo_eq_take,
      Function.comp_apply, ← List.suffix_iff_eq_drop.1 (hend.trans hrest)]
    rfl

/-- **What a match declares is what is read on the line.** -/
theorem matchAt_pattern_bind (kind : Kind) (hstart : c.atLineStart) (hline : lineFeed ∉ c.rest) :
    ((pattern kind).matchAt c).bind (fun m => ofCaptures? kind m.1) =
      ofLine? kind c.offset c.rest := by
  obtain ⟨nameStart, hmatch⟩ := exists_matchAt_pattern kind hstart hline
  rw [hmatch, ofLine?]
  cases hparts : parts? kind c.rest with
  | none => rfl
  | some p =>
    obtain ⟨head, t, rest, -, -, hline, -, -, -, hstop⟩ := exists_of_parts?_eq_some hparts
    have hle : p.stop ≤ c.rest.length := by
      rw [hstop, hline]
      simp only [List.length_append]
      omega
    simp [ofCaptures?, Captures.group?, List.lookup_cons, Excerpt.stop, Nat.min_eq_left hle]

end Declaration

end SiteConfig
