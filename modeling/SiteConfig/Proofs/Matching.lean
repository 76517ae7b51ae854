import SiteConfig.Pattern
/-!
# What a run of a pattern sees

A run goes forward in the text only: its continuation is asked about places
that are reached by taking bytes (`Pattern.run_congr`). So a repetition runs
out of bytes before it runs out of turns, and is what it says it is, one
repetition and then the others (`Pattern.run_star`).

A pattern whose classes are without the line feed does not see past one. At
the end of a line it does what it does at the end of a text
(`Pattern.matchAt_append`): its matches lie on the line that they start on,
and depend on nothing else.
-/

namespace SiteConfig

open Bytes

/-! ## Places further on -/

namespace Cursor

variable {c c' c'' : Cursor} {r r' a tail : Bytes} {b : UInt8}

/-- The place from which on `rest` is left of the text. -/
def goTo (c : Cursor) (rest : Bytes) : Cursor where
  offset := c.offset + (c.rest.length - rest.length)
  before := (c.rest.take (c.rest.length - rest.length)).getLast?.or c.before
  rest := rest

@[simp] theorem rest_goTo : (c.goTo r).rest = r := rfl

theorem goTo_of_eq_append (h : c.rest = a ++ r) :
    c.goTo r = ⟨c.offset + a.length, a.getLast?.or c.before, r⟩ := by
  simp [goTo, h]

@[simp] theorem goTo_self (c : Cursor) : c.goTo c.rest = c := by
  rw [goTo_of_eq_append (List.nil_append c.rest).symm]
  rfl

theorem goTo_of_eq_cons (h : c.rest = b :: r) : c.goTo r = ⟨c.offset + 1, some b, r⟩ := by
  rw [goTo_of_eq_append (a := [b]) h]
  rfl

theorem offset_lt_goTo (h : r.length < c.rest.length) : c.offset < (c.goTo r).offset := by
  simp only [goTo]
  omega

/-- Going on in two steps is going on in one. -/
theorem goTo_goTo (h : r <:+ c.rest) (h' : r' <:+ r) : (c.goTo r).goTo r' = c.goTo r' := by
  obtain ⟨a, ha⟩ := h
  obtain ⟨a', rfl⟩ := h'
  have hc : c.rest = (a ++ a') ++ r' := by rw [← ha, List.append_assoc]
  rw [goTo_of_eq_append hc, goTo_of_eq_append ha.symm, goTo_of_eq_append (a := a') rfl,
    List.length_append, Nat.add_assoc, List.getLast?_append, Option.or_assoc]

theorem upTo_goTo (h : c.rest = a ++ r) : c.upTo (c.goTo r) = ⟨c.offset, a⟩ := by
  rw [goTo_of_eq_append h, upTo, Nat.add_sub_cancel_left, h, List.take_left]

theorem upTo_goTo_eq_take (c : Cursor) (r : Bytes) :
    c.upTo (c.goTo r) = ⟨c.offset, c.rest.take (c.rest.length - r.length)⟩ := by
  rw [upTo, goTo, Nat.add_sub_cancel_left]

/-- The second place is the first or comes after it, in the same text. -/
def Reaches (c c' : Cursor) : Prop := ∃ r, r <:+ c.rest ∧ c' = c.goTo r

theorem Reaches.refl (c : Cursor) : c.Reaches c := ⟨c.rest, List.suffix_rfl, (goTo_self c).symm⟩

theorem reaches_goTo (h : r <:+ c.rest) : c.Reaches (c.goTo r) := ⟨r, h, rfl⟩

/-- What is left of the text is its end. -/
theorem Reaches.suffix (h : c.Reaches c') : c'.rest <:+ c.rest := by
  obtain ⟨r, hr, rfl⟩ := h
  exact hr

theorem Reaches.trans (h : c.Reaches c') (h' : c'.Reaches c'') : c.Reaches c'' := by
  obtain ⟨r, hr, rfl⟩ := h
  obtain ⟨r', hr', rfl⟩ := h'
  exact ⟨r', hr'.trans hr, goTo_goTo hr hr'⟩

theorem reaches_of_eq_cons (h : c.rest = b :: r) : c.Reaches ⟨c.offset + 1, some b, r⟩ :=
  ⟨r, h ▸ List.suffix_cons b r, (goTo_of_eq_cons h).symm⟩

/-- What is taken from the text is counted. -/
theorem Reaches.offset_add_length (h : c.Reaches c') :
    c'.offset + c'.rest.length = c.offset + c.rest.length := by
  obtain ⟨r, hr, rfl⟩ := h
  have hle := hr.length_le
  simp only [goTo]
  omega

/-- The same place in a text that goes on with `tail`. -/
def append (c : Cursor) (tail : Bytes) : Cursor := { c with rest := c.rest ++ tail }

@[simp] theorem offset_append : (c.append tail).offset = c.offset := rfl

theorem upTo_append (h : c.Reaches c') : (c.append tail).upTo (c'.append tail) = c.upTo c' := by
  have hlength := h.offset_add_length
  simp only [upTo, append]
  rw [List.take_append_of_le_length (by omega)]

end Cursor

namespace Pattern

variable {α : Type} {p : Pattern} {c : Cursor} {groups : Captures} {k k' : Continuation α}
variable {greedy : Bool} {n m : Nat}

/-! ## Runs go forward -/

section Repeated

variable {body : Cursor → Captures → Continuation α → Option α}

/-- A body asks only about places that can be reached. -/
def GoesForward (body : Cursor → Captures → Continuation α → Option α) : Prop :=
  ∀ c groups (k k' : Continuation α),
    (∀ c' groups', c.Reaches c' → k c' groups' = k' c' groups') → body c groups k = body c groups k'

/-- One repetition and then at most `n` more, or none. -/
theorem repeated_succ : repeated greedy body k (n + 1) c groups =
    if greedy then
      (body c groups fun c' groups' =>
        if c.offset < c'.offset then repeated greedy body k n c' groups' else none).or (k c groups)
    else (k c groups).or (body c groups fun c' groups' =>
        if c.offset < c'.offset then repeated greedy body k n c' groups' else none) := by
  cases greedy <;> simp [repeated]

theorem repeated_congr (hbody : GoesForward body)
    (h : ∀ c' groups', c.Reaches c' → k c' groups' = k' c' groups') :
    repeated greedy body k n c groups = repeated greedy body k' n c groups := by
  induction n generalizing c groups with
  | zero => exact h c groups (.refl c)
  | succ n ih =>
    have hmore : ∀ c' groups', c.Reaches c' →
        (if c.offset < c'.offset then repeated greedy body k n c' groups' else none) =
          if c.offset < c'.offset then repeated greedy body k' n c' groups' else none :=
      fun c' groups' hc => by rw [ih fun c'' groups'' hc' => h c'' groups'' (hc.trans hc')]
    rw [repeated_succ, repeated_succ, h c groups (.refl c), hbody c groups _ _ hmore]

/-- **There are turns enough** for as many repetitions as there are bytes. -/
theorem repeated_eq_of_le (hbody : GoesForward body)
    (hnone : ∀ c groups, body c groups (fun _ _ => none) = none)
    (hn : c.rest.length ≤ n) (hm : c.rest.length ≤ m) :
    repeated greedy body k n c groups = repeated greedy body k m c groups := by
  -- at the end of the text no repetition takes anything
  have hend : ∀ {c : Cursor} {groups : Captures} (m : Nat), c.rest.length ≤ 0 →
      repeated greedy body k m c groups = k c groups := by
    intro c groups m hc
    cases m with
    | zero => rfl
    | succ m =>
      have hmore : ∀ c' groups', c.Reaches c' →
          (if c.offset < c'.offset then repeated greedy body k m c' groups' else none) = none :=
        fun c' groups' hc' => if_neg (by have := hc'.offset_add_length; omega)
      rw [repeated_succ, hbody c groups _ _ hmore, hnone, Option.none_or, Option.or_none, ite_self]
  induction n generalizing c groups m with
  | zero => rw [hend 0 hn, hend m hn]
  | succ n ih =>
    cases m with
    | zero => rw [hend (n + 1) hm, hend 0 hm]
    | succ m =>
      have hmore : ∀ c' groups', c.Reaches c' →
          (if c.offset < c'.offset then repeated greedy body k n c' groups' else none) =
            if c.offset < c'.offset then repeated greedy body k m c' groups' else none := by
        intro c' groups' hc'
        have hlength := hc'.offset_add_length
        split
        · exact ih (by omega) (by omega)
        · rfl
      rw [repeated_succ, repeated_succ, hbody c groups _ _ hmore]

end Repeated

/-- **A run goes forward**: it asks its continuation about places that it
reaches by taking bytes, and about no others. -/
theorem run_congr (h : ∀ c' groups', c.Reaches c' → k c' groups' = k' c' groups') :
    p.run c groups k = p.run c groups k' := by
  induction p generalizing c groups k k' with
  | empty => exact h c groups (.refl c)
  | lineStart => rw [run, run, h c groups (.refl c)]
  | byte s =>
    rw [run, run]
    cases hc : c.rest with
    | nil => rfl
    | cons b rest => simp only [h _ groups (Cursor.reaches_of_eq_cons hc)]
  | seq p q ihp ihq =>
    exact ihp fun c' groups' hc => ihq fun c'' groups'' hc' => h c'' groups'' (hc.trans hc')
  | alt p q ihp ihq => rw [run, run, ihp h, ihq h]
  | star greedy p ih => exact repeated_congr (fun _ _ _ _ => ih) h
  | group n p ih => exact ih fun c' groups' hc => h c' _ hc

/-- What nothing may follow does not match. -/
theorem run_none (p : Pattern) (c : Cursor) (groups : Captures) :
    p.run c groups (fun _ _ => (none : Option α)) = none := by
  induction p generalizing c groups with
  | empty => rfl
  | lineStart => rw [run, ite_self]
  | byte s =>
    rw [run]
    split
    · rfl
    · rw [ite_self]
  | seq p q ihp ihq =>
    rw [run, funext fun c' => funext fun groups' => ihq c' groups']
    exact ihp c groups
  | alt p q ihp ihq => rw [run, ihp, ihq]; rfl
  | star greedy p ih =>
    rw [run]
    generalize c.rest.length = n
    induction n generalizing c groups with
    | zero => rfl
    | succ n ihn => simp only [repeated_succ, ihn, ite_self, ih, Option.or_none]
  | group n p ih => exact ih c groups

/-- **A repetition is one repetition and then the others**, or none. -/
theorem run_star : (star greedy p).run c groups k =
    if greedy then
      (p.run c groups fun c' groups' =>
        if c.offset < c'.offset then (star greedy p).run c' groups' k else none).or (k c groups)
    else (k c groups).or (p.run c groups fun c' groups' =>
        if c.offset < c'.offset then (star greedy p).run c' groups' k else none) := by
  have hbody : GoesForward (p.run (α := α)) := fun _ _ _ _ => run_congr
  have hmore : ∀ c' groups', c.Reaches c' →
      (if c.offset < c'.offset then repeated greedy p.run k c.rest.length c' groups' else none) =
        if c.offset < c'.offset then (star greedy p).run c' groups' k else none := by
    intro c' groups' hc'
    have hlength := hc'.offset_add_length
    split
    · exact repeated_eq_of_le hbody (run_none p) (by omega) (Nat.le_refl _)
    · rfl
  rw [run, repeated_eq_of_le (m := c.rest.length + 1) hbody (run_none p) (Nat.le_refl _)
    (Nat.le_succ _), repeated_succ, run_congr hmore]

theorem run_seq {q : Pattern} : (seq p q).run c groups k =
    p.run c groups fun c' groups' => q.run c' groups' k := rfl

theorem run_alt {q : Pattern} :
    (alt p q).run c groups k = (p.run c groups k).or (q.run c groups k) := by
  simp [run]

/-- What is made of a match does not bear on which match it is. -/
theorem run_map {β : Type} (f : α → β) :
    (p.run c groups fun c' groups' => (k c' groups').map f) = (p.run c groups k).map f := by
  induction p generalizing c groups k with
  | empty => rfl
  | lineStart => simp only [run, apply_ite (Option.map f), Option.map_none]
  | byte s =>
    rw [run, run]
    split
    · rfl
    · simp only [apply_ite (Option.map f), Option.map_none]
  | seq p q ihp ihq => simp only [run, ihq, ihp]
  | alt p q ihp ihq => simp only [run_alt, ihp, ihq, Option.map_or]
  | star greedy p ih =>
    rw [run, run]
    generalize c.rest.length = n
    induction n generalizing c groups with
    | zero => rfl
    | succ n ihn =>
      have hmore : (fun c' groups' => if c.offset < c'.offset then
          repeated greedy p.run (fun c' groups' => (k c' groups').map f) n c' groups' else none) =
          fun c' groups' => Option.map f
            (if c.offset < c'.offset then repeated greedy p.run k n c' groups' else none) := by
        funext c' groups'
        rw [ihn, apply_ite (Option.map f), Option.map_none]
      rw [repeated_succ, repeated_succ, hmore, ih, ← Option.map_or, ← Option.map_or,
        apply_ite (Option.map f)]
  | group n p ih => exact ih

theorem run_byte_of_eq_cons {s : ByteClass} {b : UInt8} {rest : Bytes} (h : c.rest = b :: rest) :
    (byte s).run c groups k = if s.contains b then k (c.goTo rest) groups else none := by
  rw [run, h, Cursor.goTo_of_eq_cons h]

theorem run_byte_of_eq_nil {s : ByteClass} (h : c.rest = []) :
    (byte s).run c groups k = none := by
  rw [run, h]

/-- **As many bytes of a class as there are** are taken where what follows does
not match from within them, unless it matches from after them as well. -/
theorem run_star_byte {s : ByteClass}
    (h : ∀ c' b rest, c.Reaches c' → c'.rest = b :: rest → s.contains b →
      k (c'.goTo rest) groups = none → k c' groups = none) :
    (star true (byte s)).run c groups k = k (c.goTo (c.rest.dropWhile s.contains)) groups := by
  -- giving bytes back does not help where taking all of them fails
  suffices hrun : (star true (byte s)).run c groups k =
        k (c.goTo (c.rest.dropWhile s.contains)) groups ∧
      (k (c.goTo (c.rest.dropWhile s.contains)) groups = none → k c groups = none) from hrun.1
  induction hc : c.rest generalizing c with
  | nil =>
    rw [run_star, run_byte_of_eq_nil hc, List.dropWhile_nil, ← hc, Cursor.goTo_self]
    exact ⟨Option.none_or, id⟩
  | cons b rest ih =>
    rw [run_star, if_pos rfl, run_byte_of_eq_cons hc]
    by_cases hb : s.contains b
    · have hnext : c.Reaches (c.goTo rest) :=
        Cursor.reaches_goTo (hc ▸ List.suffix_cons b rest)
      obtain ⟨hrun, hnone⟩ := ih (fun c' b rest hc' => h c' b rest (hnext.trans hc')) rfl
      have hgo : (c.goTo rest).goTo (rest.dropWhile s.contains) =
          c.goTo (rest.dropWhile s.contains) :=
        Cursor.goTo_goTo (hc ▸ List.suffix_cons b rest) (List.dropWhile_suffix _)
      have hlt : c.offset < (c.goTo rest).offset := Cursor.offset_lt_goTo (by simp [hc])
      rw [hgo] at hrun hnone
      rw [if_pos hb, if_pos hlt, hrun, List.dropWhile_cons_of_pos hb]
      cases hk : k (c.goTo (rest.dropWhile s.contains)) groups with
      | none =>
        have hnil : k c groups = none := h c b rest (.refl c) hc hb (hnone hk)
        exact ⟨hnil, fun _ => hnil⟩
      | some r => exact ⟨rfl, fun hr => (by cases hr)⟩
    · rw [if_neg hb, List.dropWhile_cons_of_neg hb, ← hc, Cursor.goTo_self]
      exact ⟨Option.none_or, id⟩

/-- What a match finds is found at a place that it reaches. -/
theorem exists_of_run_eq_some {r : α} (h : p.run c groups k = some r) :
    ∃ c' groups', c.Reaches c' ∧ k c' groups' = some r := by
  classical
  -- the same run, with where each result is found
  let found : Continuation {r : α // ∃ c' groups', c.Reaches c' ∧ k c' groups' = some r} :=
    fun c' groups' => if hc : c.Reaches c' then
      (k c' groups').attach.map fun r => ⟨r.1, c', groups', hc, r.2⟩ else none
  have hfound : ∀ c' groups', c.Reaches c' →
      k c' groups' = (found c' groups').map Subtype.val := by
    intro c' groups' hc
    simp [found, hc]
  rw [run_congr hfound, run_map] at h
  obtain ⟨⟨r, hr⟩, -, rfl⟩ := Option.map_eq_some_iff.1 h
  exact hr

theorem reaches_of_matchAt {m : Captures × Cursor} (h : p.matchAt c = some m) :
    c.Reaches m.2 := by
  obtain ⟨c', groups', hc, he⟩ := exists_of_run_eq_some h
  cases he
  exact hc

/-! ## Patterns on one line -/

/-- Whether a pattern takes no line feed. -/
def oneLine : Pattern → Bool
  | empty | lineStart => true
  | byte s => !s.contains lineFeed
  | seq p q | alt p q => p.oneLine && q.oneLine
  | star _ p | group _ p => p.oneLine

/-- A text that is at its end or at the end of a line. -/
def EndsLine (tail : Bytes) : Prop := ∀ b, tail.head? = some b → b = lineFeed

/-- **A pattern on one line does not see what follows the line.** -/
theorem run_append {tail : Bytes} (hp : p.oneLine) (htail : EndsLine tail) :
    p.run (c.append tail) groups k = p.run c groups fun c' => k (c'.append tail) := by
  induction p generalizing c groups k with
  | empty => rfl
  | lineStart => rfl
  | byte s =>
    have hs : s.contains lineFeed = false := by simpa [oneLine] using hp
    cases hc : c.rest with
    | nil =>
      rw [run_byte_of_eq_nil hc]
      cases tail with
      | nil => exact run_byte_of_eq_nil (by rw [Cursor.append, hc]; rfl)
      | cons b tail =>
        obtain rfl := htail b rfl
        rw [run_byte_of_eq_cons (by rw [Cursor.append, hc]; rfl), hs]
        rfl
    | cons b rest =>
      have hc' : (c.append tail).rest = b :: (rest ++ tail) := by rw [Cursor.append, hc]; rfl
      rw [run_byte_of_eq_cons hc, run_byte_of_eq_cons hc', Cursor.goTo_of_eq_cons hc,
        Cursor.goTo_of_eq_cons hc']
      rfl
  | seq p q ihp ihq =>
    obtain ⟨hp, hq⟩ := Bool.and_eq_true_iff.1 hp
    rw [run, ihp hp]
    simp only [run, ihq hq]
  | alt p q ihp ihq =>
    obtain ⟨hp, hq⟩ := Bool.and_eq_true_iff.1 hp
    rw [run_alt, run_alt, ihp hp, ihq hq]
  | star greedy p ih =>
    induction hlength : c.rest.length using Nat.strongRecOn generalizing c groups with
    | _ n ihn =>
      have hmore : ∀ c' groups', c.Reaches c' →
          (if (c.append tail).offset < (c'.append tail).offset then
            (star greedy p).run (c'.append tail) groups' k else none) =
          if c.offset < c'.offset then
            (star greedy p).run c' groups' fun c'' => k (c''.append tail) else none := by
        intro c' groups' hc'
        have hless := hc'.offset_add_length
        rw [Cursor.offset_append, Cursor.offset_append]
        split
        · exact ihn c'.rest.length (by omega) rfl
        · rfl
      rw [run_star, run_star (c := c), ih hp, run_congr hmore]
  | group n p ih =>
    rw [run, ih hp]
    refine run_congr fun c' groups' hc' => ?_
    rw [Cursor.upTo_append hc']

/-- **A match lies on its line and depends on nothing else.** It is the match
in the line alone, with the same groups. -/
theorem matchAt_append {tail : Bytes} (hp : p.oneLine) (htail : EndsLine tail) :
    p.matchAt (c.append tail) = (p.matchAt c).map fun m => (m.1, m.2.append tail) := by
  rw [matchAt, run_append (p := group 0 p) hp htail, matchAt, ← run_map]
  rfl

end Pattern

end SiteConfig
