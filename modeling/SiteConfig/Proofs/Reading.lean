import SiteConfig.Proofs.Grammar
/-!
# What is read as the value

The value that `value?` reads is a whole literal or has no terminator in
it (`isLiteral_or_not_hasTerminator`), and it does not end in a blank.
The other way round, a text of this sort with a terminator after it is
read as the value (`value?_literal_append`, `value?_append`), and one that
has a terminator in it is cut short (`shortest?_lt_of_hasTerminator`).

A whole declaration is a head, a value and a terminator
(`parts?_eq_some_iff`).
-/

namespace SiteConfig

namespace Line

open Bytes

variable {k : Kind} {name text rest line v r x t head : Bytes}

/-- A literal ends in its quote. -/
theorem endsPlain_of_isLiteral (h : IsLiteral text) : EndsPlain text := by
  obtain ⟨q, hq, hlast⟩ := h.exists_getLast?
  intro b hb
  rw [hlast, Option.some.injEq] at hb
  exact hb ▸ not_isBlank_of_isQuote hq

/-! ## No terminator across the end of a value -/

/-- A text without a terminator in it that does not end in a blank starts
none with a terminator after it either: the mark that the text would have
to begin it with is a parenthesis at its end, and a parenthesis or a
semicolon, but no semicolon alone, follows the blanks after that. -/
theorem terminator?_append_eq_none (hne : x ≠ []) (hx : EndsPlain x) (hno : ¬ HasTerminator k x)
    (ht : IsTerminator k t) (rest : Bytes) : terminator? k (x ++ (t ++ rest)) = none := by
  obtain ⟨b₁, h₁, he₁⟩ := exists_blanks x
  have hskip : skipBlanks (x ++ (t ++ rest)) = skipBlanks x ++ (t ++ rest) :=
    skipBlanks_append_of_not_allBlank (hx.not_allBlank hne)
  obtain ⟨c, x', hc⟩ : ∃ c x', skipBlanks x = c :: x' := by
    refine List.exists_cons_of_ne_nil fun h => hx.not_allBlank hne ?_
    rw [he₁, h, List.append_nil]
    exact h₁
  rw [hc, List.cons_append] at hskip
  -- `c` is the only byte of `x` with which a terminator could begin
  cases ht with
  | @var b₂ h₂ =>
    rw [terminator?, hskip]
    refine byte?_cons_of_ne ?_
    rintro rfl
    exact hno ⟨_, .var h₁, [], x', by rw [List.nil_append, List.append_assoc, List.cons_append,
      List.nil_append, ← hc, ← he₁]⟩
  | @const b₂ b₃ h₂ h₃ =>
    rw [terminator?, hskip]
    by_cases hp : c = ascii ')'
    · subst hp
      have hx' : EndsPlain x' := hx.of_suffix ⟨b₁ ++ [ascii ')'], by rw [he₁, hc]; simp⟩
      rw [byte?_cons_self, Option.bind_eq_bind, Option.bind_some]
      -- a parenthesis ends `x` and meets that of `t`, or more follows it in `x`
      by_cases hnil : x' = []
      · subst hnil
        rw [List.nil_append, List.append_assoc, skipBlanks_append h₂, List.cons_append,
          skipBlanks_cons_of_not_isBlank (by decide)]
        exact byte?_cons_of_ne (by decide)
      · obtain ⟨b₄, h₄, he₄⟩ := exists_blanks x'
        rw [skipBlanks_append_of_not_allBlank (hx'.not_allBlank hnil)]
        obtain ⟨d, x'', hd⟩ : ∃ d x'', skipBlanks x' = d :: x'' := by
          refine List.exists_cons_of_ne_nil fun h => hx'.not_allBlank hnil ?_
          rw [he₄, h, List.append_nil]
          exact h₄
        rw [hd, List.cons_append]
        refine byte?_cons_of_ne ?_
        rintro rfl
        exact hno ⟨_, .const h₁ h₄, [], x'', by rw [he₁, hc, he₄, hd]; simp⟩
    · rw [byte?_cons_of_ne hp]
      rfl

/-! ## The shortest text -/

/-- Where a terminator stands at the start, the text read is empty. -/
theorem shortest?_of_terminator? {b : UInt8} (h : terminator? k (b :: text) = some r) :
    shortest? k (b :: text) = some ([], r) := by
  rw [shortest?, h]

/-- Otherwise it goes on by one byte. -/
theorem shortest?_cons {b : UInt8} (h : terminator? k (b :: text) = none) :
    shortest? k (b :: text) = (shortest? k text).map fun (value, rest) => (b :: value, rest) := by
  rw [shortest?, h]

/-- A terminator starts directly after the text, and none starts within it. -/
def IsShortest (k : Kind) (v rest r : Bytes) : Prop :=
  terminator? k rest = some r ∧ ∀ a, a ≠ [] → a <:+ v → terminator? k (a ++ rest) = none

theorem isShortest_nil {rest : Bytes} : IsShortest k [] rest r ↔ terminator? k rest = some r :=
  ⟨And.left, fun h => ⟨h, fun _ ha hs => absurd (List.suffix_nil.1 hs) ha⟩⟩

theorem isShortest_cons {b : UInt8} {rest : Bytes} : IsShortest k (b :: v) rest r ↔
    terminator? k (b :: v ++ rest) = none ∧ IsShortest k v rest r := by
  constructor
  · rintro ⟨hr, hleast⟩
    exact ⟨hleast _ (List.cons_ne_nil b v) List.suffix_rfl,
      hr, fun a ha hs => hleast a ha (hs.trans (List.suffix_cons b v))⟩
  · rintro ⟨hb, hr, hleast⟩
    refine ⟨hr, fun a ha hs => ?_⟩
    rcases List.suffix_cons_iff.1 hs with rfl | hs
    · exact hb
    · exact hleast a ha hs

/-- **The shortest text is one that a terminator follows and no part of which
starts one.** -/
theorem shortest?_eq_some_iff : shortest? k text = some (v, r) ↔
    ∃ rest, text = v ++ rest ∧ terminator? k rest = some r ∧
      ∀ a, a ≠ [] → a <:+ v → terminator? k (a ++ rest) = none := by
  show _ ↔ ∃ rest, text = v ++ rest ∧ IsShortest k v rest r
  induction text generalizing v with
  | nil =>
    refine ⟨fun h => (by cases h), ?_⟩
    rintro ⟨rest, he, hr, -⟩
    obtain ⟨rfl, rfl⟩ := List.append_eq_nil_iff.1 he.symm
    cases k <;> cases hr
  | cons b text ih =>
    cases v with
    | nil =>
      simp only [List.nil_append, exists_eq_left', isShortest_nil]
      cases ht : terminator? k (b :: text) with
      | some r' => simp [shortest?_of_terminator? ht]
      | none => simp [shortest?_cons ht]
    | cons c v =>
      simp only [isShortest_cons, List.cons_append, List.cons.injEq]
      cases ht : terminator? k (b :: text) with
      | some r' =>
        rw [shortest?_of_terminator? ht]
        refine ⟨fun h => (by cases h), ?_⟩
        rintro ⟨rest, ⟨rfl, rfl⟩, hnone, -⟩
        rw [ht] at hnone
        cases hnone
      | none =>
        simp only [shortest?_cons ht, Option.map_eq_some_iff, Prod.mk.injEq, Prod.exists,
          List.cons.injEq]
        constructor
        · rintro ⟨v', r', h, ⟨rfl, rfl⟩, rfl⟩
          obtain ⟨rest, rfl, hr⟩ := ih.1 h
          exact ⟨rest, ⟨rfl, rfl⟩, ht, hr⟩
        · rintro ⟨rest, ⟨rfl, rfl⟩, -, hr⟩
          exact ⟨v, r, ih.2 ⟨rest, rfl, hr⟩, ⟨rfl, rfl⟩, rfl⟩

/-- Where a terminator stands, something is read. -/
theorem exists_shortest?_append (ht : IsTerminator k t) (x rest : Bytes) :
    ∃ v r, shortest? k (x ++ (t ++ rest)) = some (v, r) ∧ v.length ≤ x.length := by
  induction x with
  | nil =>
    refine ⟨[], rest, shortest?_eq_some_iff.2 ⟨t ++ rest, rfl, terminator?_append ht rest, ?_⟩, ?_⟩
    · exact fun a ha hs => absurd (List.suffix_nil.1 hs) ha
    · exact Nat.le_refl 0
  | cons b x ih =>
    obtain ⟨v, r, h, hle⟩ := ih
    rw [List.cons_append, shortest?]
    cases terminator? k (b :: (x ++ (t ++ rest))) with
    | some r' => exact ⟨[], r', rfl, Nat.zero_le _⟩
    | none => exact ⟨b :: v, r, by rw [h]; rfl, Nat.succ_le_succ hle⟩

/-- A text without a terminator in it is read up to the terminator after it. -/
theorem shortest?_append (hx : EndsPlain x) (hno : ¬ HasTerminator k x) (ht : IsTerminator k t)
    (rest : Bytes) : shortest? k (x ++ (t ++ rest)) = some (x, rest) := by
  refine shortest?_eq_some_iff.2 ⟨t ++ rest, rfl, terminator?_append ht rest, fun a ha hs => ?_⟩
  refine terminator?_append_eq_none ha (hx.of_suffix hs) ?_ ht rest
  rintro ⟨t', ht', hin⟩
  exact hno ⟨t', ht', hin.trans hs.isInfix⟩

/-- **A text with a terminator in it is cut short**, and so is the
declaration: what is read as its end comes before the terminator after the
text, as a terminator has only one semicolon. -/
theorem shortest?_lt_of_hasTerminator (hx : HasTerminator k x) (ht : IsTerminator k t)
    (rest : Bytes) : ∃ v r, shortest? k (x ++ (t ++ rest)) = some (v, r) ∧
      v.length < x.length ∧ rest.length < r.length := by
  obtain ⟨t', ht', a, b, rfl⟩ := hx
  obtain ⟨v, r, h, hle⟩ := exists_shortest?_append ht' a (b ++ (t ++ rest))
  have hassoc : a ++ t' ++ b ++ (t ++ rest) = a ++ (t' ++ (b ++ (t ++ rest))) := by simp
  refine ⟨v, r, by rw [hassoc, h], ?_, ?_⟩
  · have := List.length_pos_iff.2 ht'.ne_nil
    simp only [List.length_append]
    omega
  · obtain ⟨s, he, hr, -⟩ := shortest?_eq_some_iff.1 h
    obtain ⟨e, hend, rfl⟩ := terminator?_eq_some_iff.1 hr
    obtain ⟨c, rfl⟩ : v <+: a :=
      List.prefix_of_prefix_length_le ⟨_, he.symm⟩ (List.prefix_append a _) hle
    rw [List.append_assoc, List.append_cancel_left_eq] at he
    -- if `r` were within `rest`, both semicolons would be in the terminator `e`
    refine Nat.lt_of_not_le fun hle' => ?_
    have hprefix : c ++ (t' ++ (b ++ t)) <+: e ++ r := ⟨rest, by rw [← he]; simp⟩
    have hwithin : c ++ (t' ++ (b ++ t)) <+: e := by
      refine List.prefix_of_prefix_length_le hprefix (List.prefix_append e r) ?_
      have := congrArg List.length he
      simp only [List.length_append] at this ⊢
      omega
    have hcount := hwithin.sublist.count_le (ascii ';')
    simp only [List.count_append, ht'.count_semicolon, ht.count_semicolon,
      hend.count_semicolon] at hcount
    omega

/-! ## The value -/

theorem value?_literal_append (hx : IsLiteral x) (ht : IsTerminator k t) (rest : Bytes) :
    value? k (x ++ (t ++ rest)) = some (x, rest) := by
  have hl : literal? (x ++ (t ++ rest)) = some (x, t ++ rest) := literal?_eq_some_iff.2 ⟨hx, rfl⟩
  simp [value?, hl, terminator?_append ht]

/-- Where no literal ends in front of a terminator, the shortest text is
read. -/
theorem value?_eq_shortest? (h : ∀ l s, IsLiteral l → text = l ++ s → terminator? k s = none) :
    value? k text = shortest? k text := by
  unfold value?
  cases hl : literal? text with
  | none => rfl
  | some p =>
    obtain ⟨hlit, he⟩ := literal?_eq_some_iff.1 hl
    simp [h _ _ hlit he]

/-- A value is read as a literal or as the shortest text. -/
theorem value?_cases (h : value? k text = some (v, r)) :
    (IsLiteral v ∧ ∃ t, IsTerminator k t ∧ text = v ++ (t ++ r)) ∨
      shortest? k text = some (v, r) := by
  unfold value? at h
  split at h
  · next found hf =>
    obtain rfl := Option.some.inj h
    simp only [Option.bind_eq_bind, Option.bind_eq_some_iff, Option.pure_def, Option.some.injEq,
      Prod.mk.injEq, Prod.exists] at hf
    obtain ⟨l, s, hl, r', hr, rfl, rfl⟩ := hf
    obtain ⟨hlit, rfl⟩ := literal?_eq_some_iff.1 hl
    obtain ⟨t, ht, rfl⟩ := terminator?_eq_some_iff.1 hr
    exact .inl ⟨hlit, t, ht, rfl⟩
  · exact .inr h

/-- **A value is followed by a terminator.** -/
theorem exists_terminator_of_value? (h : value? k text = some (v, r)) :
    ∃ t, IsTerminator k t ∧ text = v ++ (t ++ r) := by
  rcases value?_cases h with ⟨-, h⟩ | h
  · exact h
  · obtain ⟨rest, rfl, hr, -⟩ := shortest?_eq_some_iff.1 h
    obtain ⟨t, ht, rfl⟩ := terminator?_eq_some_iff.1 hr
    exact ⟨t, ht, rfl⟩

theorem value?_suffix {found : Bytes × Bytes} (h : value? k text = some found) :
    found.2 <:+ text := by
  obtain ⟨t, -, he⟩ := exists_terminator_of_value? h
  exact ⟨found.1 ++ t, by rw [he, List.append_assoc]⟩

/-- **A value is a literal or has no terminator in it.** -/
theorem isLiteral_or_not_hasTerminator (h : value? k text = some (v, r)) :
    IsLiteral v ∨ ¬ HasTerminator k v := by
  rcases value?_cases h with ⟨hl, -⟩ | h
  · exact .inl hl
  · obtain ⟨rest, rfl, hr, -⟩ := shortest?_eq_some_iff.1 h
    obtain ⟨t, ht, rfl⟩ := terminator?_eq_some_iff.1 hr
    refine .inr fun hin => ?_
    obtain ⟨v', r', h', hlt, -⟩ := shortest?_lt_of_hasTerminator hin ht r
    rw [h', Option.some.injEq, Prod.mk.injEq] at h
    rw [h.1] at hlt
    exact Nat.lt_irrefl _ hlt

/-- A value does not end in a blank: a blank would belong to the
terminator. -/
theorem endsPlain_of_value? (h : value? k text = some (v, r)) : EndsPlain v := by
  rcases value?_cases h with ⟨hl, -⟩ | h
  · exact endsPlain_of_isLiteral hl
  · obtain ⟨rest, rfl, hr, hleast⟩ := shortest?_eq_some_iff.1 h
    intro b hb hblank
    obtain ⟨t, ht, rfl⟩ := terminator?_eq_some_iff.1 hr
    obtain ⟨v', rfl⟩ := List.getLast?_eq_some_iff.1 hb
    have hnone := hleast [b] (List.cons_ne_nil b []) (List.suffix_append v' [b])
    rw [← List.append_assoc,
      terminator?_append (ht.blanks_append (by simpa using hblank)) r] at hnone
    cases hnone

/-- **A text without a terminator in it is read as the value** before a
terminator, unless a literal at its start runs on beyond it and has a terminator
after it. -/
theorem value?_append_of_beyond (hx : EndsPlain x) (hno : ¬ HasTerminator k x)
    (ht : IsTerminator k t) (hl : ∀ l s, IsLiteral l → x ++ (t ++ rest) = l ++ s →
      l <+: x ∨ terminator? k s = none) : value? k (x ++ (t ++ rest)) = some (x, rest) := by
  by_cases hlit : IsLiteral x
  · exact value?_literal_append hlit ht rest
  rw [value?_eq_shortest? fun l s hlit' he => ?_]
  · exact shortest?_append hx hno ht rest
  · rcases hl l s hlit' he with ⟨y, rfl⟩ | hnone
    · rw [List.append_assoc, List.append_cancel_left_eq] at he
      have hy : y ≠ [] := by rintro rfl; exact hlit (by simpa using hlit')
      rw [← he]
      refine terminator?_append_eq_none hy (hx.of_suffix (List.suffix_append l y)) ?_ ht rest
      rintro ⟨t', ht', hin⟩
      exact hno ⟨t', ht', hin.trans (List.suffix_append l y).isInfix⟩
    · exact hnone

/-- So it is if no literal at its start runs on beyond it. -/
theorem value?_append (hx : EndsPlain x) (hno : ¬ HasTerminator k x) (ht : IsTerminator k t)
    (hl : ∀ l s, IsLiteral l → x ++ (t ++ rest) = l ++ s → l <+: x) :
    value? k (x ++ (t ++ rest)) = some (x, rest) :=
  value?_append_of_beyond hx hno ht fun l s hlit he => .inl (hl l s hlit he)

theorem exists_value?_append (ht : IsTerminator k t) (x rest : Bytes) :
    ∃ v r, value? k (x ++ (t ++ rest)) = some (v, r) := by
  obtain ⟨v, r, h, -⟩ := exists_shortest?_append ht x rest
  unfold value?
  split
  · next found _ => exact ⟨found.1, found.2, rfl⟩
  · exact ⟨v, r, h⟩

theorem terminator?_cons_of_isBlank {b : UInt8} (hb : isBlank b) :
    terminator? k (b :: text) = terminator? k text := by
  cases k <;> simp only [terminator?, skipBlanks_cons_of_isBlank hb]

/-- A blank more in front does not help where no value is found. -/
theorem value?_eq_none_of_isBlank {b : UInt8} (hb : isBlank b)
    (h : value? k text = none) : value? k (b :: text) = none := by
  have hliteral : literal? (b :: text) = none := by
    rw [literal?, if_neg fun hq => not_isBlank_of_isQuote hq hb]
  have hshortest : shortest? k text = none := by
    rw [value?] at h
    split at h
    · cases h
    · exact h
  have hterminator : terminator? k text = none := by
    cases text with
    | nil => cases k <;> rfl
    | cons b' text =>
      refine Option.eq_none_iff_forall_not_mem.2 fun r hr => ?_
      rw [shortest?_of_terminator? hr] at hshortest
      cases hshortest
  rw [value?, hliteral]
  exact (shortest?_cons (by rw [terminator?_cons_of_isBlank hb, hterminator])).trans
    (by rw [hshortest]; rfl)

/-! ## The whole declaration -/

/-- A head, a value and a terminator are read as a declaration. -/
theorem parts?_append (h : IsHead k name head)
    (hs : skipBlanks (v ++ (t ++ rest)) = v ++ (t ++ rest))
    (hv : value? k (v ++ (t ++ rest)) = some (v, rest)) :
    parts? k (head ++ (v ++ (t ++ rest))) =
      some ⟨name, v, head.length, head.length + v.length + t.length⟩ := by
  simp only [parts?, head?_append h, hs, hv, Option.bind_eq_bind, Option.bind_some,
    List.length_append]
  congr 2 <;> omega

/-- **A declaration is a head, a value and a terminator**, with the value in
between where the head ends. -/
theorem exists_of_parts?_eq_some {p : Parts} (h : parts? k line = some p) :
    ∃ head t rest, IsHead k p.name head ∧ IsTerminator k t ∧
      line = head ++ (p.value ++ (t ++ rest)) ∧
      skipBlanks (p.value ++ (t ++ rest)) = p.value ++ (t ++ rest) ∧
      value? k (p.value ++ (t ++ rest)) = some (p.value, rest) ∧
      p.valueStart = head.length ∧ p.stop = head.length + p.value.length + t.length := by
  simp only [parts?, Option.bind_eq_bind, Option.bind_eq_some_iff, Option.pure_def,
    Option.some.injEq, Prod.exists] at h
  obtain ⟨name, text, hh, v, rest, hv, rfl⟩ := h
  obtain ⟨head, hhead, rfl, hs⟩ := head?_eq_some_iff.1 hh
  obtain ⟨t, ht, rfl⟩ := exists_terminator_of_value? hv
  refine ⟨head, t, rest, hhead, ht, rfl, hs, hv, ?_, ?_⟩ <;>
    simp only [List.length_append] <;> omega

end Line

end SiteConfig
