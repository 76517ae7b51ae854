import SiteConfig.Proofs.Addition
import SiteConfig.Proofs.Splicing
/-!
# Additions taken back

An addition puts in a declaration and a separator, and a removal takes out a
declaration from where its line starts, and one line break after it. So an
addition that is taken back is not undone. In front of the anchor it leaves the
separator without its first line break, and the blanks that the anchor was
indented with are gone. Behind the anchor it leaves the separator, and the line
break that stood there is gone (`Editor.remove_add`).

Both rest on one fact about a declaration at the start of a line: if its value is
one to read back, a removal takes out all of it, whatever follows
(`Editor.remove_written`).
-/

namespace SiteConfig

open Bytes Line Declaration

/-! ## Line breaks in a separator -/

/-- A line feed, or a carriage return and a line feed. -/
def Text.IsLineBreak (s : String) : Prop := s = "\n" ∨ s = "\r\n"

namespace Text.IsLineBreak

variable {s : String} {k : Kind} {name : String}

/-- A line break ends a line that declares nothing. -/
theorem exists_encode_eq (h : IsLineBreak s) :
    ∃ line, encode s = line ++ [lineFeed] ∧ lineFeed ∉ line ∧
      (∀ k name, lastValue? k name [line] = none) ∧
      ∀ rest, lineBreakLength (encode s ++ rest) = (encode s).length := by
  rcases h with rfl | rfl
  · exact ⟨[], rfl, by simp, fun _ _ => lastValue?_singleton_nil, fun rest => by
      change lineBreakLength (lineFeed :: rest) = 1
      simp⟩
  · refine ⟨[carriageReturn], rfl, by decide, fun k name => ?_, fun rest => ?_⟩
    · rw [lastValue?_singleton]
      cases k <;> rfl
    · change lineBreakLength (carriageReturn :: lineFeed :: rest) = 2
      simp

/-- What follows a line break makes up the later lines. -/
theorem laterLines_append (h : IsLineBreak s) (rest : Bytes) :
    laterLines (encode s ++ rest) = lines rest := by
  obtain ⟨line, hs, hline, -⟩ := h.exists_encode_eq
  rw [hs, List.append_assoc, List.singleton_append, laterLines, lines_append,
    lines_eq_singleton hline]
  rfl

theorem lastValue?_append (h : IsLineBreak s) (rest : Bytes) :
    lastValue? k name (lines (encode s ++ rest)) = lastValue? k name (lines rest) := by
  obtain ⟨line, hs, hline, hnone, -⟩ := h.exists_encode_eq
  rw [hs, List.append_assoc, List.singleton_append, lines_append, lines_eq_singleton hline,
    Declaration.lastValue?_append, hnone, Option.or_none]

/-- Line breaks in front of a text declare nothing. -/
theorem lastValue?_join_append {breaks : List String} (h : ∀ s ∈ breaks, IsLineBreak s)
    (rest : Bytes) : lastValue? k name (lines (encode (String.join breaks) ++ rest)) =
      lastValue? k name (lines rest) := by
  induction breaks with
  | nil => rfl
  | cons s breaks ih =>
    obtain ⟨hs, hbreaks⟩ := List.forall_mem_cons.1 h
    rw [String.join_cons, encode_append, List.append_assoc, hs.lastValue?_append, ih hbreaks]

/-- After line breaks a line starts. -/
theorem lastLine_append_join {breaks : List String} (hne : breaks ≠ [])
    (h : ∀ s ∈ breaks, IsLineBreak s) (text : Bytes) :
    lastLine (text ++ encode (String.join breaks)) = [] := by
  induction breaks generalizing text with
  | nil => exact absurd rfl hne
  | cons s breaks ih =>
    obtain ⟨hs, hbreaks⟩ := List.forall_mem_cons.1 h
    rw [String.join_cons, encode_append, ← List.append_assoc]
    cases breaks with
    | cons s' breaks => exact ih (List.cons_ne_nil s' breaks) hbreaks _
    | nil =>
      obtain ⟨line, hline, -⟩ := hs.exists_encode_eq
      have hlines : lines (text ++ encode s ++ encode (String.join [])) =
          lines (text ++ line) ++ [[]] := by
        rw [String.join_nil, hline, show encode "" = [] from rfl, List.append_nil,
          ← List.append_assoc, lines_append]
        rfl
      exact lastLine_eq hlines

end Text.IsLineBreak

/-! ## A declaration that was written -/

section Written

variable {k : Kind} {name : String} {v : Value} {pre rest : Bytes}

/-- **A declaration written at the start of a line** has a place, if its value is
one to read back and no later line declares the name. The blanks in front of it
belong to it. -/
theorem Place.exists_of_written (hn : Text.IsName name) (hv : v.ReadsBack k)
    (hblank : AllBlank (lastLine pre)) (hlater : lastValue? k name (laterLines rest) = none) :
    ∃ p : Place k name (pre ++ (encode (canonical k name (v.render false)) ++ rest)),
      p.declaration.span = ⟨pre.length - (lastLine pre).length,
        pre.length + (encode (canonical k name (v.render false))).length⟩ := by
  have hread := Value.readsBack_iff.1 hv
  obtain ⟨before, hbefore⟩ := exists_lines_eq_concat pre
  obtain ⟨m, later, hm⟩ := List.exists_cons_of_ne_nil (lines_ne_nil rest)
  rw [laterLines, hm, List.tail_cons] at hlater
  have hone : lineFeed ∉ encode (canonical k name (v.render false)) :=
    lineFeed_not_mem_canonical hn (by rw [v.toList_render]; exact hread.oneLine)
  have hdecl : encode (canonical k name (v.render false)) =
      canonicalHead k name ++ (ofChars v.literal ++ canonicalTail k) := by
    rw [encode_canonical, v.encode_render]
  have hlines : lines (pre ++ (encode (canonical k name (v.render false)) ++ rest)) =
      before ++ ((lastLine pre ++ canonicalHead k name) ++
        (ofChars v.literal ++ (canonicalTail k ++ m))) :: later := by
    rw [lines_append_eq hbefore (lines_append_of_not_mem hone hm), hdecl]
    simp only [List.append_assoc]
  have hskip := v.skipBlanks_literal (canonicalTail k ++ m)
  have hvalue := Value.value?_whole hread.whole (isTerminator_canonicalTail (k := k)) m
  obtain ⟨p, hpbefore, -, hhead, hpvalue, -, hsplit⟩ := exists_of_value?_of_skipBlanks before later
    hlines ((isHead_canonicalHead hn).blanks_append hblank) hskip hvalue hlater
  have htail : canonicalTail k = p.tail :=
    List.append_cancel_right (List.append_cancel_left hsplit)
  have hpre : pre.length = extent before + (lastLine pre).length := by
    have hlength := congrArg List.length (eq_between_of_lines hbefore)
    rw [between, List.flatMap_nil, List.append_nil, List.length_append,
      length_flatMap_lines] at hlength
    exact hlength
  refine ⟨p, ?_⟩
  simp only [declaration, offset, hpbefore, hhead, hpvalue, ← htail, hdecl, hpre,
    List.length_append, Span.mk.injEq]
  omega

/-- **It is removed whole**, with the blanks in front of it and one line break. -/
theorem Editor.remove_written (hn : Text.IsName name) (hv : v.ReadsBack k)
    (hblank : AllBlank (lastLine pre)) (hlater : lastValue? k name (laterLines rest) = none) :
    (remove k name (.file (pre ++ (encode (canonical k name (v.render false)) ++ rest)))).storage =
        .file (pre.take (pre.length - (lastLine pre).length) ++
          rest.drop (lineBreakLength rest)) ∧
      (remove k name
        (.file (pre ++ (encode (canonical k name (v.render false)) ++ rest)))).result =
          .ok true := by
  obtain ⟨p, hspan⟩ := Place.exists_of_written hn hv hblank hlater
  have hremove := Editor.remove_of_get? p.get?_scan p.liesIn
  have hle : pre.length - (lastLine pre).length ≤ pre.length := Nat.sub_le ..
  rw [hspan] at hremove
  simp only [List.take_append_of_le_length hle, ← List.drop_drop, List.drop_left] at hremove
  exact hremove

end Written

/-! ## An addition and a removal -/

namespace Editor

variable {k : Kind} {name : String} {text : Bytes} {v : Value} {o : AddOptions} {p : Nat}
variable {first : String} {others : List String}

/-- A name that is not declared is not declared by the later lines of a part of the
text, and not by its first line if only blanks stand in front of the part. -/
theorem lastValue?_drop (hnew : (Catalog.scan text).get? k name = none) (i : Nat) :
    lastValue? k name (laterLines (text.drop i)) = none ∧
      (AllBlank (lastLine (text.take i)) → lastValue? k name (lines (text.drop i)) = none) := by
  obtain ⟨before, m, later, -, hm, htext, -⟩ := exists_lines_insert (text.take i) (text.drop i)
  rw [List.take_append_drop] at htext
  rw [get?_scan_eq_none_iff, htext, lastValue?_uninserted, Option.or_eq_none_iff,
    Option.or_eq_none_iff] at hnew
  obtain ⟨hlater, hline, -⟩ := hnew
  rw [laterLines, hm, List.tail_cons, lastValue?_cons, hlater, Option.none_or]
  exact ⟨rfl, fun hblank => (lastValue?_blanks_append hblank).symm.trans hline⟩

section

variable (hn : Text.IsName name) (hv : v.ReadsBack k)
  (hnew : (Catalog.scan text).get? k name = none) (hraw : o.raw = false)
  (hp : indexOf? (encode o.anchor) text = some p)
  (hsep : o.separator = String.join (first :: others))
  (hbreaks : ∀ s ∈ first :: others, Text.IsLineBreak s)
include hn hv hnew hraw hp

/-- **An addition and a removal** of what it wrote between two parts of the text. -/
theorem inTurn_add_remove {pre rest : Bytes}
    (hinserted : ∀ d, inserted text d p o = pre ++ (d ++ rest)) (hblank : AllBlank (lastLine pre))
    (hlater : lastValue? k name (laterLines rest) = none) :
    Edit.inTurn (add k name v o) (remove k name) (.file text) = (.ok true, .ok true,
      .file (pre.take (pre.length - (lastLine pre).length) ++
        rest.drop (lineBreakLength rest))) := by
  obtain ⟨hresult, hstorage⟩ := addTo_file v o hnew hp
  obtain ⟨hleft, hdone⟩ := remove_written hn hv hblank hlater
  rw [hraw, hinserted] at hstorage
  rw [Edit.inTurn, add_file_eq, Outcome.result_after, Outcome.storage_after, hresult, hstorage,
    hleft, hdone]

include hsep hbreaks

/-- In front of the anchor, the separator without its first line break is left. -/
theorem inTurn_add_remove_before (hplacement : o.placement = .before)
    (hblank : AllBlank (lastLine (text.take p))) :
    Edit.inTurn (add k name v o) (remove k name) (.file text) = (.ok true, .ok true,
      .file (text.take (p - (lastLine (text.take p)).length) ++ encode (String.join others) ++
        text.drop p)) := by
  have hle : p ≤ text.length := (indexOf?_eq_some_iff.1 hp).1.1
  obtain ⟨hfirst, hothers⟩ := List.forall_mem_cons.1 hbreaks
  have hrest : encode o.separator ++ text.drop p =
      encode first ++ (encode (String.join others) ++ text.drop p) := by
    rw [hsep, String.join_cons, encode_append, List.append_assoc]
  have hlater : lastValue? k name (laterLines (encode o.separator ++ text.drop p)) = none := by
    rw [hrest, hfirst.laterLines_append, Text.IsLineBreak.lastValue?_join_append hothers]
    exact (lastValue?_drop hnew p).2 hblank
  have hafter : (encode o.separator ++ text.drop p).drop
      (lineBreakLength (encode o.separator ++ text.drop p)) =
        encode (String.join others) ++ text.drop p := by
    obtain ⟨-, -, -, -, hlength⟩ := hfirst.exists_encode_eq
    rw [hrest, hlength, List.drop_left]
  have hbefore : (text.take p).take ((text.take p).length - (lastLine (text.take p)).length) =
      text.take (p - (lastLine (text.take p)).length) := by
    rw [List.take_take, List.length_take_of_le hle, Nat.min_eq_left (Nat.sub_le ..)]
  have hinserted : ∀ d, inserted text d p o =
      text.take p ++ (d ++ (encode o.separator ++ text.drop p)) := by
    intro d
    simp only [inserted, hplacement, splice, List.append_assoc]
  rw [inTurn_add_remove hn hv hnew hraw hp hinserted hblank hlater, hafter, hbefore,
    ← List.append_assoc]

/-- Behind the anchor, the separator is left, and one line break is taken. -/
theorem inTurn_add_remove_after (hplacement : o.placement = .after) :
    Edit.inTurn (add k name v o) (remove k name) (.file text) = (.ok true, .ok true,
      .file (text.take (p + (encode o.anchor).length) ++ encode o.separator ++
        (text.drop (p + (encode o.anchor).length)).drop
          (lineBreakLength (text.drop (p + (encode o.anchor).length))))) := by
  have hline : lastLine (text.take (p + (encode o.anchor).length) ++ encode o.separator) = [] := by
    rw [hsep]
    exact Text.IsLineBreak.lastLine_append_join (List.cons_ne_nil _ _) hbreaks _
  have hblank : AllBlank
      (lastLine (text.take (p + (encode o.anchor).length) ++ encode o.separator)) := by
    rw [hline]
    exact allBlank_nil
  have hinserted : ∀ d, inserted text d p o =
      (text.take (p + (encode o.anchor).length) ++ encode o.separator) ++
        (d ++ text.drop (p + (encode o.anchor).length)) := by
    intro d
    simp only [inserted, hplacement, splice, List.append_assoc]
  rw [inTurn_add_remove hn hv hnew hraw hp hinserted hblank (lastValue?_drop hnew _).1, hline,
    List.length_nil, Nat.sub_zero, List.take_length]

end

/-- **An addition that is taken back.** If the separator is made up of line
breaks and the value is one to read back, an addition of a name that is not
declared and its removal both change the file. In front of an anchor that only
blanks precede on its line, they leave the separator without its first line break
in place of the blanks, so they leave the file as it was if there are no blanks and
the separator is one line break. Behind the anchor, they leave the separator in
place of the line break that stood there, if one did. -/
theorem remove_add (hn : Text.IsName name) (hv : v.ReadsBack k)
    (hnew : (Catalog.scan text).get? k name = none) (hraw : o.raw = false)
    (hp : indexOf? (encode o.anchor) text = some p)
    (hsep : o.separator = String.join (first :: others))
    (hbreaks : ∀ s ∈ first :: others, Text.IsLineBreak s) :
    (o.placement = .before → AllBlank (lastLine (text.take p)) →
      Edit.inTurn (add k name v o) (remove k name) (.file text) = (.ok true, .ok true,
          .file (text.take (p - (lastLine (text.take p)).length) ++ encode (String.join others) ++
            text.drop p)) ∧
        (lastLine (text.take p) = [] → others = [] →
          Edit.inTurn (add k name v o) (remove k name) (.file text) =
            (.ok true, .ok true, .file text))) ∧
    (o.placement = .after →
      Edit.inTurn (add k name v o) (remove k name) (.file text) = (.ok true, .ok true,
        .file (text.take (p + (encode o.anchor).length) ++ encode o.separator ++
          (text.drop (p + (encode o.anchor).length)).drop
            (lineBreakLength (text.drop (p + (encode o.anchor).length)))))) := by
  refine ⟨fun hplacement hblank => ?_,
    inTurn_add_remove_after hn hv hnew hraw hp hsep hbreaks⟩
  have hturn := inTurn_add_remove_before hn hv hnew hraw hp hsep hbreaks hplacement hblank
  refine ⟨hturn, fun hline hnone => ?_⟩
  rw [hturn, hline, hnone, List.length_nil, Nat.sub_zero, String.join_nil,
    show encode "" = [] from rfl, List.append_nil, List.take_append_drop]

/-- An indented anchor loses its indentation, and an empty line is left in front
of it. -/
theorem remove_add_indented : ∃ text o, text = encode "<?php\n \t// here\n$b = 2;" ∧
    o = AddOptions.mk false "// here" .before "\r\n\n" ∧
    (Value.list [.string "it's"]).ReadsBack .var ∧
    (Catalog.scan text).get? .var "a" = none ∧ indexOf? (encode o.anchor) text = some 8 ∧
    lastLine (text.take 8) = [ascii ' ', ascii '\t'] ∧
    Edit.inTurn (add .var "a" (.list [.string "it's"]) o) (remove .var "a") (.file text) =
      (.ok true, .ok true, .file (encode "<?php\n\n// here\n$b = 2;")) := by
  let text := encode "<?php\n \t// here\n$b = 2;"
  have hv : (Value.list [.string "it's"]).ReadsBack .var := by
    simp [Value.ReadsBack, Value.strings, Value.itemStrings, Text.hasTerminator_var_iff]
  have hnew : (Catalog.scan text).get? .var "a" = none := by decide +kernel
  have hp : indexOf? (encode "// here") text = some 8 := by decide +kernel
  have hline : lastLine (text.take 8) = [ascii ' ', ascii '\t'] := by decide +kernel
  have hsep : "\r\n\n" = String.join ("\r\n" :: ["\n"]) := by decide
  have hbreaks : ∀ s ∈ "\r\n" :: ["\n"], Text.IsLineBreak s :=
    List.forall_mem_cons.2 ⟨.inr rfl, List.forall_mem_singleton.2 (.inl rfl)⟩
  obtain ⟨hbefore, -⟩ := remove_add (o := ⟨false, "// here", .before, "\r\n\n"⟩)
    ⟨by decide, by simp⟩ hv hnew rfl hp hsep hbreaks
  obtain ⟨hturn, -⟩ := hbefore rfl (by rw [hline]; simp [isBlank])
  refine ⟨text, _, rfl, rfl, hv, hnew, hp, hline, hturn.trans ?_⟩
  decide +kernel

end Editor

end SiteConfig
