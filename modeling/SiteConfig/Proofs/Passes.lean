import Mathlib.Data.List.Basic
import SiteConfig.Proofs.Recognition
import SiteConfig.Text.Lines
/-!
# One pass over a text

A pass tries a pattern at one offset after another, and goes on from the end
of each match. A pattern that matches only where a line starts
(`Pattern.Anchored`) and takes no line feed (`Pattern.oneLine`) matches at
most once on a line: from where the match ends, nothing is found before the
next line starts, and there the pattern is tried just as it would be without
the match. So a match neither hides another nor makes one, and the matches of
a pass are those of the lines (`Pattern.findAll_eq_lines`).

The patterns of declarations are of this sort. Together with what they match
on a line, this gives the declarations of a text line by line
(`Declaration.allOf_eq_lines`).
-/

namespace SiteConfig

open Bytes

namespace Cursor

/-- The start of the line at an offset. -/
def lineAt (offset : Nat) (text : Bytes) : Cursor :=
  ⟨offset, if offset = 0 then none else some lineFeed, text⟩

theorem atLineStart_lineAt (offset : Nat) (text : Bytes) : (lineAt offset text).atLineStart := by
  rw [atLineStart, lineAt]
  split <;> rfl

/-- After some bytes of a line, no line starts. -/
theorem not_atLineStart_goTo {c : Cursor} {a r : Bytes} (h : c.rest = a ++ r) (ha : a ≠ [])
    (hline : lineFeed ∉ a) : ¬ (c.goTo r).atLineStart := by
  obtain ⟨b, hb⟩ : ∃ b, a.getLast? = some b := ⟨_, List.getLast?_eq_some_getLast ha⟩
  have hne : b ≠ lineFeed := fun he => hline (he ▸ List.mem_of_getLast? hb)
  rw [goTo_of_eq_append h, hb]
  simpa [atLineStart] using hne

end Cursor

namespace Pattern

variable {p : Pattern} {c c' : Cursor} {last : Option Nat} {offset n : Nat} {line tail : Bytes}
variable {m : Captures × Cursor}

/-- A pattern that matches only where a line starts. -/
def Anchored (p : Pattern) : Prop := ∀ c : Cursor, ¬ c.atLineStart → p.matchAt c = none

/-! ## The next match -/

/-- What is found from behind an offset on. -/
def findNext (p : Pattern) (last : Option Nat) (offset : Nat) : Bytes → Option (Captures × Cursor)
  | [] => none
  | b :: rest => p.find? last ⟨offset + 1, some b, rest⟩

/-- The first match is here or further on. -/
theorem find?_eq_or (p : Pattern) (last : Option Nat) (c : Cursor) :
    p.find? last c = (p.matchUnless last c).or (p.findNext last c.offset c.rest) := by
  obtain ⟨offset, before, rest⟩ := c
  cases rest with
  | nil => exact Option.or_none.symm
  | cons b rest => simp [find?, findIn?, findNext]

/-- An offset after the last match is not held back. -/
theorem matchUnless_of_lt (h : ∀ l, last = some l → l < c.offset) :
    p.matchUnless last c = p.matchAt c := by
  have hne : (last == some c.offset) = false :=
    beq_eq_false_iff_ne.2 fun hl => Nat.lt_irrefl _ (h _ hl)
  cases hm : p.matchAt c <;> simp [matchUnless, hm, hne, Option.filter]

theorem matchUnless_of_matchAt_eq_none (h : p.matchAt c = none) : p.matchUnless last c = none := by
  rw [matchUnless, h, Option.filter_none]

/-- Within a line nothing is found. -/
theorem findNext_append (hp : p.Anchored) (hline : lineFeed ∉ line) :
    p.findNext last offset (line ++ tail) = p.findNext last (offset + line.length) tail := by
  induction line generalizing offset with
  | nil => rfl
  | cons b line ih =>
    rw [List.mem_cons, not_or] at hline
    have hstart : ¬ (⟨offset + 1, some b, line ++ tail⟩ : Cursor).atLineStart := by
      simpa [Cursor.atLineStart] using Ne.symm hline.1
    rw [List.cons_append, findNext, find?_eq_or, matchUnless_of_matchAt_eq_none (hp _ hstart),
      Option.none_or, ih hline.2, List.length_cons, Nat.add_right_comm, Nat.add_assoc]

/-! ## The matches on a line -/

/-- At the start of a line there is the match of the line, or what comes after
the line. -/
theorem find?_lineAt (hp : p.Anchored) (hone : p.oneLine) (hline : lineFeed ∉ line)
    (htail : EndsLine tail) (hlast : ∀ l, last = some l → l < offset) :
    p.find? last (Cursor.lineAt offset (line ++ tail)) =
      ((p.matchAt (Cursor.lineAt offset line)).map fun m => (m.1, m.2.append tail)).or
        (p.findNext last (offset + line.length) tail) := by
  rw [← matchAt_append hone htail, ← findNext_append hp hline, ← matchUnless_of_lt hlast]
  exact find?_eq_or p last (Cursor.lineAt offset (line ++ tail))

/-- **After a match nothing is found on its line.** Where the match took nothing,
it is not found again. -/
theorem find?_of_matchAt (hp : p.Anchored) (hone : p.oneLine) (hline : lineFeed ∉ line)
    (htail : EndsLine tail) (hm : p.matchAt (Cursor.lineAt offset line) = some m) :
    p.find? (some m.2.offset) (m.2.append tail) =
      p.findNext (some m.2.offset) (offset + line.length) tail := by
  have hreach := reaches_of_matchAt hm
  obtain ⟨a, ha⟩ := hreach.suffix
  have hlength : m.2.offset + m.2.rest.length = offset + line.length := hreach.offset_add_length
  have hnone : p.matchUnless (some m.2.offset) (m.2.append tail) = none := by
    obtain ⟨r, hr, he⟩ := hreach
    rw [he] at ha
    by_cases hnil : a = []
    · subst hnil
      have hself : m.2 = Cursor.lineAt offset line := by
        rw [he, show r = (Cursor.lineAt offset line).rest from ha, Cursor.goTo_self]
      rw [matchUnless, hself, matchAt_append hone htail, hm]
      simp [hself, Option.filter]
    · have hstart : ¬ (m.2.append tail).atLineStart := by
        rw [he]
        exact Cursor.not_atLineStart_goTo ha.symm hnil fun hmem =>
          hline (ha ▸ List.mem_append_left r hmem : lineFeed ∈ (Cursor.lineAt offset line).rest)
      exact matchUnless_of_matchAt_eq_none (hp _ hstart)
  have hrest : lineFeed ∉ m.2.rest := fun hmem => hline (hreach.suffix.subset hmem)
  rw [find?_eq_or, hnone, Option.none_or, ← hlength]
  exact findNext_append hp hrest

/-! ## The matches of a text -/

/-- What is found from behind an offset on, match after match. -/
def findBehind (p : Pattern) (n : Nat) (last : Option Nat) (offset : Nat) : Bytes → List Captures
  | [] => []
  | b :: rest => p.findFrom n last ⟨offset + 1, some b, rest⟩

theorem findFrom_eq_findBehind
    (h : p.find? last c = p.findNext last offset tail) :
    p.findFrom n last c = p.findBehind n last offset tail := by
  cases n with
  | zero => cases tail <;> rfl
  | succ n => cases tail <;> rw [findFrom, h] <;> rfl

/-- **A line gives its match, and the pass goes on behind it.** -/
theorem findFrom_lineAt (hp : p.Anchored) (hone : p.oneLine) (hline : lineFeed ∉ line)
    (htail : EndsLine tail) (hlast : ∀ l, last = some l → l < offset) :
    ∃ n' last', n ≤ n' ∧ (∀ l, last' = some l → l ≤ offset + line.length) ∧
      p.findFrom (n + 1) last (Cursor.lineAt offset (line ++ tail)) =
        ((p.matchAt (Cursor.lineAt offset line)).map (·.1)).toList ++
          p.findBehind n' last' (offset + line.length) tail := by
  have hfind := find?_lineAt hp hone hline htail hlast
  cases hm : p.matchAt (Cursor.lineAt offset line) with
  | none =>
    rw [hm, Option.map_none, Option.none_or] at hfind
    refine ⟨n + 1, last, Nat.le_succ n, fun l hl => ?_, findFrom_eq_findBehind hfind⟩
    have := hlast l hl
    omega
  | some m =>
    rw [hm, Option.map_some, Option.some_or] at hfind
    refine ⟨n, some m.2.offset, Nat.le_refl n, fun l hl => ?_, ?_⟩
    · have hlength : m.2.offset + m.2.rest.length = offset + line.length :=
        (reaches_of_matchAt hm).offset_add_length
      cases hl
      omega
    · have hnext := find?_of_matchAt hp hone hline htail hm
      rw [findFrom, hfind]
      exact congrArg (m.1 :: ·) (findFrom_eq_findBehind hnext)

/-- From the start of a line on, each line gives its match. -/
theorem findFrom_eq_lines (hp : p.Anchored) (hone : p.oneLine) (text : Bytes)
    (hn : (lines text).length ≤ n) (hlast : ∀ l, last = some l → l < offset) :
    p.findFrom n last (Cursor.lineAt offset text) =
      (located offset (lines text)).filterMap fun l =>
        (p.matchAt (Cursor.lineAt l.1 l.2)).map (·.1) := by
  induction text using line_induction generalizing n last offset with
  | line a h =>
    rw [lines_eq_singleton h, List.length_singleton] at hn
    obtain ⟨n, rfl⟩ : ∃ n', n = n' + 1 := ⟨n - 1, by omega⟩
    obtain ⟨n', last', -, -, hrun⟩ :=
      findFrom_lineAt (n := n) hp hone h (by simp [EndsLine] : EndsLine []) hlast
    rw [List.append_nil, findBehind, List.append_nil] at hrun
    rw [hrun, lines_eq_singleton h, located, located]
    cases hm : p.matchAt (Cursor.lineAt offset a) <;> simp [hm]
  | append a b h ih =>
    rw [lines_append, lines_eq_singleton h, List.length_append, List.length_singleton] at hn
    obtain ⟨n, rfl⟩ : ∃ n', n = n' + 1 := ⟨n - 1, by omega⟩
    obtain ⟨n', last', hn', hlast', hrun⟩ :=
      findFrom_lineAt (n := n) hp hone h (by simp [EndsLine] : EndsLine (lineFeed :: b)) hlast
    have hnext : p.findBehind n' last' (offset + a.length) (lineFeed :: b) =
        p.findFrom n' last' (Cursor.lineAt (offset + a.length + 1) b) := rfl
    rw [hrun, hnext, ih (by omega) fun l hl => Nat.lt_succ_of_le (hlast' l hl),
      located_lines_append, lines_eq_singleton h, List.filterMap_append, located, located]
    cases hm : p.matchAt (Cursor.lineAt offset a) <;> simp [hm]

/-- **The matches of a text are the matches of its lines.** -/
theorem findAll_eq_lines (hp : p.Anchored) (hone : p.oneLine) (text : Bytes) :
    p.findAll text = (located 0 (lines text)).filterMap fun l =>
      (p.matchAt (Cursor.lineAt l.1 l.2)).map (·.1) := by
  have hn : (lines text).length ≤ text.length + 1 := extent_lines text ▸ length_le_extent _
  exact findFrom_eq_lines hp hone text hn fun l hl => by cases hl

end Pattern

namespace Declaration

open Pattern

theorem anchored_pattern (k : Kind) : (pattern k).Anchored := by
  intro c hc
  rw [matchAt, run, run_pattern, run_seq, run, if_neg hc]

theorem oneLine_pattern (k : Kind) : (pattern k).oneLine := by cases k <;> decide +kernel

/-- **The declarations of a text are those of its lines.** -/
theorem allOf_eq_lines (k : Kind) (text : Bytes) :
    allOf k text =
      (located 0 (lines text)).filterMap fun (offset, line) => ofLine? k offset line := by
  rw [allOf, findAll_eq_lines (anchored_pattern k) (oneLine_pattern k), List.filterMap_filterMap]
  refine List.filterMap_congr fun l hl => ?_
  have hline : lineFeed ∉ l.2 :=
    lineFeed_not_mem_of_mem_lines (map_snd_located 0 (lines text) ▸ List.mem_map_of_mem hl)
  have hmatch := matchAt_pattern_bind k (Cursor.atLineStart_lineAt l.1 l.2) hline
  rw [Option.bind_map]
  exact hmatch

/-- A literal is given up for the shortest text where no terminator follows it. -/
example : (allOf .var (encode "$a = 'x;' . 1;\n\t$b = 'x;' ;")).map (·.value) =
    ["'x", "'x;'"] := by decide +kernel

end Declaration

end SiteConfig
