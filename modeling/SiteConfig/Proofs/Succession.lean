import SiteConfig.Proofs.Addition
/-!
# One addition after another

An addition puts its value in front of the anchor, and the next addition looks
for the anchor anew. If the value has the anchor in it, that may be within the
first declaration. The second declaration is then written into the first one,
and it is not read back: what comes before it on its line is not blank. The end
of the first declaration makes a line of its own, and no value is read from that
line which a string is written as (`allBlank_of_lastValue?_suffix`).

So two additions are both read back if and only if the anchor still has only
blanks in front of it on its line after the first one
(`Editor.getValue_add_add_iff`).
-/

namespace SiteConfig

open Bytes Line Declaration

/-! ## Quotes in a string -/

namespace Value

/-- **A quote that is escaped** has a backslash in front of it. -/
theorem exists_eq_concat_of_escaped_eq {cs a b : List Char} (h : escaped cs = a ++ '\'' :: b) :
    ∃ a', a = a' ++ ['\\'] := by
  induction cs generalizing a with
  | nil => simp [escaped] at h
  | cons c cs ih =>
    by_cases hc : c = '\\' ∨ c = '\''
    · rw [escaped_cons_of_mark hc] at h
      -- the quote is the escaped character, or it comes later
      rcases a with _ | ⟨x, _ | ⟨y, a⟩⟩
      · simp at h
      · obtain ⟨rfl, -⟩ := List.cons.inj h
        exact ⟨[], rfl⟩
      · obtain ⟨a', rfl⟩ := ih (List.cons.inj (List.cons.inj h).2).2
        exact ⟨x :: y :: a', rfl⟩
    · rw [escaped_cons_of_plain hc] at h
      cases a with
      | nil => exact absurd (.inr (List.cons.inj h).1) hc
      | cons x a =>
        obtain ⟨a', rfl⟩ := ih (List.cons.inj h).2
        exact ⟨x :: a', rfl⟩

/-- So it is in the bytes of a string. -/
theorem exists_eq_concat_of_ofChars_escaped_eq {cs : List Char} {a b : Bytes}
    (h : ofChars (escaped cs) = a ++ ascii '\'' :: b) : ∃ a', a = a' ++ [ascii '\\'] := by
  obtain ⟨cs₁, c, cs₂, hcs, rfl, hc, hquote, -⟩ := exists_chars_of_ofChars_eq (by decide) h
  obtain rfl := (ascii_inj hc (by decide)).1 hquote
  obtain ⟨a', rfl⟩ := exists_eq_concat_of_escaped_eq hcs
  exact ⟨ofChars a', by rw [ofChars_append, ofChars_ascii_cons (by decide), ofChars_nil]⟩

/-- Of the quotes that end a string, or are in it, only the last one ends it. -/
theorem exists_eq_concat_of_later_quote {cs : List Char} {a b c tail : Bytes}
    (htail : ascii '\'' ∉ tail) (h : ofChars (escaped cs) ++ ascii '\'' :: tail =
      a ++ ascii '\'' :: (b ++ ascii '\'' :: c)) : ∃ a', a = a' ++ [ascii '\\'] := by
  have hlater : ∀ f, ascii '\'' :: tail ≠ f ++ ascii '\'' :: (b ++ ascii '\'' :: c) := by
    intro f hf
    have hcount := congrArg (List.count (ascii '\'')) hf
    rw [List.count_cons_self, List.count_eq_zero.2 htail] at hcount
    simp only [List.count_append, List.count_cons_self] at hcount
    omega
  rcases List.append_eq_append_iff.1 h with ⟨f, -, hf⟩ | ⟨f, hescaped, hf⟩
  · exact absurd hf (hlater f)
  · rcases List.cons_eq_append_iff.1 hf with ⟨-, hf⟩ | ⟨f, rfl, -⟩
    · exact absurd hf (hlater [])
    · exact exists_eq_concat_of_ofChars_escaped_eq hescaped

end Value

/-! ## Heads in heads -/

namespace Line.IsHead

variable {k k' : Kind} {name name' head x c z : Bytes} {b q : UInt8}

/-- A head has no mark of the other kind. -/
theorem eq_of_isMark (h : IsHead k name head) (hb : b ∈ head) (hm : IsMark b) :
    b = openingMark k ∨ b = closingMark k := by
  obtain ⟨lead, mid, blanks, rfl, hlead, hmid, hblanks, -⟩ := h.exists_marks
  simp only [List.mem_append, List.mem_cons] at hb
  rcases hb with hb | hb | hb | hb | hb
  · exact absurd hm (hlead b hb)
  · exact .inl hb
  · exact absurd hm (hmid b hb)
  · exact .inr hb
  · exact absurd hm (not_isMark_of_isBlank (hblanks b hb))

/-- **A head that ends with another one** has only blanks in front of it. -/
theorem allBlank_of_suffix (h : IsHead k name (x ++ head)) (h' : IsHead k' name' head) :
    AllBlank x := by
  obtain ⟨lead, mid, blanks, rfl, -, -, -, hweight⟩ := h'.exists_marks
  have hkind : openingMark k' = openingMark k := by
    refine (h.eq_of_isMark (by simp) (isMark_openingMark k')).resolve_right ?_
    exact openingMark_ne_closingMark
  obtain rfl := openingMark_inj.1 hkind
  exact h.allBlank_of_append (Nat.le_of_eq hweight.symm)

/-- The quotes of a head are in front of its closing mark. -/
theorem closingMark_not_mem (h : IsHead k name (c ++ q :: z)) (hq : isQuote q) :
    closingMark k' ∉ c := by
  obtain ⟨lead, mid, blanks, heq, hlead, hmid, hblanks, -⟩ := h.exists_marks
  have hassoc : c ++ q :: z = (lead ++ openingMark k :: mid) ++ closingMark k :: blanks := by
    simp [heq]
  have hfront : closingMark k' ∉ lead ++ openingMark k :: mid := by
    rw [List.mem_append, List.mem_cons, not_or, not_or]
    exact ⟨fun hm => hlead _ hm (isMark_closingMark k'), openingMark_ne_closingMark.symm,
      fun hm => hmid _ hm (isMark_closingMark k')⟩
  rcases List.append_eq_append_iff.1 hassoc with ⟨a, ha, -⟩ | ⟨a, -, ha⟩
  · intro hm
    exact hfront (ha ▸ List.mem_append_left a hm)
  · rcases List.cons_eq_append_iff.1 ha with ⟨-, hq'⟩ | ⟨a, -, rfl⟩
    · obtain ⟨rfl, -⟩ := List.cons.inj hq'
      exact absurd (isMark_closingMark k) (not_isMark_of_isQuote hq)
    · exact absurd (hblanks q (by simp)) (not_isBlank_of_isQuote hq)

theorem closingMark_mem_self (h : IsHead k name head) : closingMark k ∈ head := by
  obtain ⟨lead, mid, blanks, rfl, -⟩ := h.exists_marks
  simp

/-- A head ends with its closing mark or a blank. -/
theorem exists_eq_concat (h : IsHead k name head) :
    ∃ a b, head = a ++ [b] ∧ (b = closingMark k ∨ isBlank b) := by
  obtain ⟨lead, mid, blanks, rfl, -, -, hblanks, -⟩ := h.exists_marks
  rcases List.eq_nil_or_concat blanks with rfl | ⟨blanks, b, rfl⟩
  · exact ⟨lead ++ openingMark k :: mid, closingMark k, by simp, .inl rfl⟩
  · exact ⟨lead ++ openingMark k :: (mid ++ closingMark k :: blanks), b, by simp,
      .inr (hblanks b (by simp))⟩

theorem append_ne_concat_backslash (h : IsHead k name head) (x c : Bytes) :
    x ++ head ≠ c ++ [ascii '\\'] := by
  obtain ⟨a, b, rfl, hb⟩ := h.exists_eq_concat
  intro he
  rw [← List.append_assoc] at he
  obtain rfl := (List.cons.inj (List.append_inj' he rfl).2).1
  have hplain : ∀ k, ¬ (ascii '\\' = closingMark k ∨ isBlank (ascii '\\')) := by
    intro k
    cases k <;> decide
  exact hplain k hb

/-- A line starts with heads of one kind and name. -/
theorem unique (h : IsHead k name head) (h' : IsHead k' name' c) (heq : head ++ x = c ++ z) :
    (k', name') = (k, name) := by
  have hread := head?_append h' z
  rw [← heq] at hread
  by_cases hk : k' = k
  · subst hk
    rw [head?_append h] at hread
    rw [(Prod.mk.inj (Option.some.inj hread)).1]
  · rw [head?_append_of_ne h hk] at hread
    cases hread

end Line.IsHead

/-! ## The end of a declaration on a line of its own -/

namespace Declaration

variable {k k' : Kind} {name name' s s' : String} {x y l : Bytes}

/-- What is read on the end of a line of text is text. -/
theorem exists_of_lastValue?_suffix {cs : List Char} {value : String} (hline : x ++ y = ofChars cs)
    (h : lastValue? k name [y] = some value) :
    ∃ head rest, IsHead k (encode name) head ∧ y = head ++ (encode value ++ rest) := by
  rw [lastValue?_singleton, Option.bind_eq_some_iff] at h
  obtain ⟨⟨n, text⟩, hread, h⟩ := h
  obtain ⟨head, hhead, rfl, hskip⟩ := head?_eq_some_iff.1 hread
  simp only at h
  split at h
  · next hn =>
    obtain ⟨⟨v, rest⟩, hv, rfl⟩ := Option.map_eq_some_iff.1 h
    obtain ⟨t, ht, rfl⟩ := exists_terminator_of_value? hv
    -- the head ends with a character of its own, and the terminator starts with one
    obtain ⟨a, b, rfl, hb⟩ := hhead.exists_eq_concat
    have hlt : b < 0x80 := by
      rcases hb with rfl | hb
      · cases k <;> decide
      · exact Text.lt_of_isBlank hb
    have hsplit : ofChars cs = (x ++ a) ++ b :: (v ++ (t ++ rest)) := by simp [← hline]
    obtain ⟨-, -, cs', -, -, -, -, hcs'⟩ := exists_chars_of_ofChars_eq hlt hsplit
    rw [← hcs'] at hskip
    have hown : encode (decode v) = v := encode_decode_of_skipBlanks ht (hskip.trans hcs')
    refine ⟨a ++ [b], t ++ rest, ?_, by rw [hown]⟩
    rwa [← hn, Text.encode_decode_of_isWord hhead.isWord]
  · cases h

/-- The bytes of a quoted string. -/
theorem encode_render_string (s : String) : encode ((Value.string s).render false) =
    ascii '\'' :: (ofChars (Value.escaped s.toList) ++ [ascii '\'']) := by
  rw [Value.encode_render, Value.literal, Value.quoted_eq, ofChars_ascii_cons (by decide),
    ofChars_append, ofChars_ascii_cons (by decide), ofChars_nil]

/-- **No string is read on the end of a declaration of a string**, unless it is
all of the declaration. -/
theorem allBlank_of_lastValue?_suffix (hn : Text.IsName name) (hl : AllBlank l)
    (hline : x ++ y = l ++ encode (canonical k name ((Value.string s).render false)))
    (h : lastValue? k' name' [y] = some ((Value.string s').render false)) : AllBlank x := by
  obtain ⟨cs, hcs⟩ : ∃ cs, l ++ encode (canonical k name ((Value.string s).render false)) =
      ofChars cs := by
    obtain ⟨cs, rfl⟩ := exists_ofChars_eq fun b hb => Text.lt_of_isBlank (hl b hb)
    exact ⟨_, ofChars_append.symm⟩
  obtain ⟨head, rest, hhead, rfl⟩ := exists_of_lastValue?_suffix (hline.trans hcs) h
  have hown : IsHead k (encode name) (l ++ canonicalHead k name) :=
    (isHead_canonicalHead hn).blanks_append hl
  have hquote : isQuote (ascii '\'') := by decide
  have hnone : ascii '\'' ∉ canonicalTail k := fun hm =>
    not_isQuote_of_mem_canonicalTail _ hm hquote
  -- the quote at which the second string begins is one of those of the first line
  rw [encode_canonical, encode_render_string, encode_render_string] at hline
  have hsplit : (x ++ head) ++ ascii '\'' :: (ofChars (Value.escaped s'.toList) ++
        ascii '\'' :: rest) =
      (l ++ canonicalHead k name) ++ ascii '\'' :: (ofChars (Value.escaped s.toList) ++
        ascii '\'' :: canonicalTail k) := by simpa using hline
  rcases List.append_eq_append_iff.1 hsplit with ⟨e, hfront, he⟩ | ⟨e, hfront, he⟩
  · rcases List.cons_eq_append_iff.1 he with ⟨rfl, -⟩ | ⟨e, rfl, -⟩
    · rw [List.append_nil] at hfront
      exact (hfront ▸ hown).allBlank_of_suffix hhead
    · -- a quote of the first head has no closing mark in front of it
      have hmark : closingMark k' ∉ x ++ head := (hfront ▸ hown).closingMark_not_mem hquote
      exact absurd (List.mem_append_right x hhead.closingMark_mem_self) hmark
  · rcases List.cons_eq_append_iff.1 he with ⟨rfl, -⟩ | ⟨e, rfl, hrest⟩
    · rw [List.append_nil] at hfront
      exact (hfront ▸ hown).allBlank_of_suffix hhead
    · -- another quote comes after it, so it has a backslash in front of it, and no head ends so
      obtain ⟨e, rfl⟩ := Value.exists_eq_concat_of_later_quote hnone hrest
      exact absurd (by simpa using hfront) (hhead.append_ne_concat_backslash x
        (l ++ canonicalHead k name ++ ascii '\'' :: e))

/-- **A declaration written into another one is not read back.** Neither is the
line on which it is written read so, nor what is broken off of that line. -/
theorem allBlank_of_lastValue?_insert (hn : Text.IsName name) (hn' : Text.IsName name')
    (hne : (k', name') ≠ (k, name)) (hl : AllBlank l)
    (hline : x ++ y = l ++ encode (canonical k name ((Value.string s).render false)))
    (h : (lastValue? k' name' [y]).or (lastValue? k' name'
      [x ++ encode (canonical k' name' ((Value.string s').render false))]) =
        some ((Value.string s').render false)) : AllBlank x := by
  cases hy : lastValue? k' name' [y] with
  | some value =>
    rw [hy, Option.some_or] at h
    exact allBlank_of_lastValue?_suffix hn hl hline (hy.trans h)
  | none =>
    rw [hy, Option.none_or] at h
    have hsome := Option.isSome_iff_exists.2 ⟨_, h⟩
    refine ((isSome_lastValue?_append_canonical_iff hn' _).1 hsome).resolve_right ?_
    -- the first declaration would start with a head of the second name
    rintro ⟨r, hr⟩
    obtain ⟨head, hhead, rfl, -⟩ := head?_eq_some_iff.1 hr
    rw [encode_canonical, List.append_assoc, ← List.append_assoc l] at hline
    have hkey := ((isHead_canonicalHead hn).blanks_append hl).unique hhead hline.symm
    obtain ⟨rfl, hname⟩ := Prod.mk.inj hkey
    refine hne ?_
    rw [← decode_encode name, ← hname, decode_encode]

end Declaration

/-! ## The anchor after an addition -/

namespace Bytes

/-- Lines are divided in one way at the first of them with a property. -/
theorem append_cons_inj_of_forall {P : Bytes → Prop} {a a' b b' : List Bytes} {l l' : Bytes}
    (h : a ++ l :: b = a' ++ l' :: b') (ha : ∀ line ∈ a, ¬ P line) (ha' : ∀ line ∈ a', ¬ P line)
    (hl : P l) (hl' : P l') : a = a' ∧ l = l' ∧ b = b' := by
  induction a generalizing a' with
  | nil =>
    cases a' with
    | nil => exact ⟨rfl, List.cons.inj h⟩
    | cons line a' =>
      obtain ⟨rfl, -⟩ := List.cons.inj h
      exact absurd hl (ha' l List.mem_cons_self)
  | cons line a ih =>
    cases a' with
    | nil =>
      obtain ⟨rfl, -⟩ := List.cons.inj h
      exact absurd hl' (ha line List.mem_cons_self)
    | cons line' a' =>
      obtain ⟨rfl, htail⟩ := List.cons.inj h
      rw [List.forall_mem_cons] at ha ha'
      obtain ⟨rfl, hline, hrest⟩ := ih htail ha.2 ha'.2
      exact ⟨rfl, hline, hrest⟩

/-- Only blanks are in front of the first occurrence of a text, on its line. -/
def OpensLine (needle text : Bytes) : Prop :=
  ∃ p, indexOf? needle text = some p ∧ AllBlank (lastLine (text.take p))

end Bytes

namespace Anchored

variable {k₁ k₂ : Kind} {n₁ n₂ s₁ s₂ : String} {needle pre post d first : Bytes} {p : Nat}

/-- The anchor is found again after an addition. -/
theorem exists_indexOf?_append (h : Anchored needle pre post) (hfirst : first = d ++ post) :
    ∃ p, indexOf? needle first = some p := by
  refine Option.ne_none_iff_exists'.1 fun hnone => indexOf?_eq_none_iff.1 hnone ?_
  rw [hfirst]
  exact h.starts.isInfix.trans (List.suffix_append _ _).isInfix

/-- **Where the anchor is found after an addition.** Either there are only blanks
in front of it, or it is found within the declaration, and the next one goes on
the line of the first. -/
theorem allBlank_or_exists_lines (hne : needle ≠ []) (hline : lineFeed ∉ needle)
    (h : Anchored needle pre post) (hd : lineFeed ∉ d)
    (hfirst : first = pre ++ (d ++ [lineFeed, lineFeed]) ++ post)
    (hp : indexOf? needle first = some p) :
    AllBlank (lastLine (first.take p)) ∨ ∃ before m after y,
      lines (pre ++ post) = before ++ (lastLine pre ++ m) :: after ∧
      lastLine (first.take p) ++ y = lastLine pre ++ d ∧
      ∀ d', lineFeed ∉ d' →
        lines (first.take p ++ (d' ++ [lineFeed, lineFeed]) ++ first.drop p) =
          before ++ (lastLine (first.take p) ++ d') :: [] :: y :: [] :: m :: after := by
  by_cases hin : needle <:+: lastLine pre ++ d
  · obtain ⟨before, m, after, hpre, -, htext, hadded⟩ := exists_lines_insert pre post
    obtain ⟨before', y, after', hpre', hpost', hfirst', hadded'⟩ :=
      exists_lines_insert (first.take p) (first.drop p)
    obtain ⟨hstarts, hno⟩ := starts_of_indexOf? hne hp
    have htake : ¬ needle <:+: first.take p := fun hi =>
      hno (hi.trans (List.prefix_append _ _).isInfix)
    -- the line of the first declaration is the first one with the anchor
    have hbefore : ∀ line ∈ before, ¬ needle <:+: line := fun line hmem =>
      not_infix_of_mem_lines hne hline h.not_infix (hpre ▸ List.mem_append_left _ hmem)
    have hbefore' : ∀ line ∈ before', ¬ needle <:+: line := fun line hmem =>
      not_infix_of_mem_lines hne hline htake (hpre' ▸ List.mem_append_left _ hmem)
    have hy : needle <+: y := prefix_of_lines_eq_cons hline hstarts hpost'
    have hin' : needle <:+: lastLine (first.take p) ++ y :=
      hy.isInfix.trans (List.suffix_append _ y).isInfix
    rw [List.take_append_drop, hfirst, hadded d hd, ← hfirst] at hfirst'
    obtain ⟨rfl, hsplit, rfl⟩ := append_cons_inj_of_forall hfirst' hbefore hbefore' hin hin'
    exact .inr ⟨before, m, after, y, htext, hsplit.symm, hadded'⟩
  · have hagain := h.append hne hline (mt (h.infix_append_iff hne hline hd).1 hin)
    have hlength := hagain.indexOf?_eq hne
    rw [← hfirst, hp, Option.some.injEq] at hlength
    rw [hfirst, hlength, List.take_left]
    exact .inl hagain.blank

/-- **A string that is read back after another** was written in front of an
anchor with only blanks before it. -/
theorem allBlank_of_value_get? (hne : needle ≠ []) (hline : lineFeed ∉ needle)
    (h : Anchored needle pre post) (hn₁ : Text.IsName n₁) (hn₂ : Text.IsName n₂)
    (hkeys : (k₂, n₂) ≠ (k₁, n₁)) (hnew : (Catalog.scan (pre ++ post)).get? k₂ n₂ = none)
    (hs₁ : '\n' ∉ ((Value.string s₁).render false).toList)
    (hs₂ : '\n' ∉ ((Value.string s₂).render false).toList)
    (hfirst : first = pre ++ (encode (canonical k₁ n₁ ((Value.string s₁).render false)) ++
      [lineFeed, lineFeed]) ++ post)
    (hp : indexOf? needle first = some p)
    (hread : ((Catalog.scan (first.take p ++
      (encode (canonical k₂ n₂ ((Value.string s₂).render false)) ++ [lineFeed, lineFeed]) ++
        first.drop p)).get? k₂ n₂).map (·.value) = some ((Value.string s₂).render false)) :
    AllBlank (lastLine (first.take p)) := by
  rcases h.allBlank_or_exists_lines hne hline (lineFeed_not_mem_canonical hn₁ hs₁) hfirst hp with
    hblank | ⟨before, m, after, y, htext, hsplit, hadded⟩
  · exact hblank
  · -- the second name is read on the line of the two, or on what is broken off of it
    rw [get?_scan_eq_none_iff, htext, lastValue?_uninserted, lastValue?_blanks_append h.blank,
      Option.or_eq_none_iff, Option.or_eq_none_iff] at hnew
    rw [map_value_get?_scan, hadded _ (lineFeed_not_mem_canonical hn₂ hs₂), lastValue?_insert,
      lastValue?_cons (b := m :: after), lastValue?_cons (b := after), hnew.1, hnew.2.1, hnew.2.2,
      lastValue?_singleton_nil, Option.or_none, Option.or_none, Option.or_none,
      Option.none_or] at hread
    exact allBlank_of_lastValue?_insert hn₁ hn₂ hkeys h.blank hsplit hread

end Anchored

namespace Editor

variable {k k₁ k₂ : Kind} {name n₁ n₂ s s₁ s₂ anchor : String} {text : Bytes} {p : Nat}

theorem getValue_file_iff_map {x : String} :
    (getValue k name (.file text)).result = .ok (some x) ↔
      ((Catalog.scan text).get? k name).map (·.value) = some x := by
  rw [getValue_file_eq_some_iff, Option.map_eq_some_iff]

/-- **Two additions of strings.** The anchor may be any text on one line that
has only blanks in front of it where it first occurs. Two additions of names
that are not declared both change the file then. Both strings are read back
afterwards if and only if the anchor has only blanks in front of it also where
it first occurs after the first addition. -/
theorem getValue_add_add_iff (hne : anchor ≠ "") (hline : '\n' ∉ anchor.toList)
    (hopens : OpensLine (encode anchor) text) (hn₁ : Text.IsName n₁) (hn₂ : Text.IsName n₂)
    (hkeys : (k₂, n₂) ≠ (k₁, n₁)) (hnew₁ : (Catalog.scan text).get? k₁ n₁ = none)
    (hnew₂ : (Catalog.scan text).get? k₂ n₂ = none) (hs₁ : '\n' ∉ s₁.toList)
    (hs₂ : '\n' ∉ s₂.toList) :
    ∃ first second,
      (add k₁ n₁ (.string s₁) (.inFrontOf anchor) (.file text)).result =
          .ok true ∧
        (add k₁ n₁ (.string s₁) (.inFrontOf anchor)
          (.file text)).storage = .file first ∧
        (add k₂ n₂ (.string s₂) (.inFrontOf anchor)
          (.file first)).result = .ok true ∧
        (add k₂ n₂ (.string s₂) (.inFrontOf anchor)
          (.file first)).storage = .file second ∧
        ((getValue k₁ n₁ (.file second)).result = .ok (some ((Value.string s₁).render false)) ∧
            (getValue k₂ n₂ (.file second)).result = .ok (some ((Value.string s₂).render false)) ↔
          OpensLine (encode anchor) first) := by
  have hneedle : encode anchor ≠ [] := mt ofChars_eq_nil_iff.1 (mt String.toList_eq_nil_iff.1 hne)
  have hfeed : lineFeed ∉ encode anchor := lineFeed_not_mem_encode_iff.2 hline
  have hread₁ := Value.readsBack_iff.1 (Value.readsBack_string_iff (k := k₁).2 hs₁)
  have hread₂ := Value.readsBack_iff.1 (Value.readsBack_string_iff (k := k₂).2 hs₂)
  rw [← Value.toList_render] at hread₁ hread₂
  obtain ⟨p, hp, hblank⟩ := hopens
  have hanchored := Anchored.of_indexOf? hneedle hp hblank
  obtain ⟨hresult₁, hstorage₁⟩ := add_file (.string s₁) hnew₁ hp
  -- the second name is still new, and the anchor is found again
  rw [← List.take_append_drop p text] at hnew₁ hnew₂
  have hvalue₁ := hanchored.value_get?_append hn₁ hread₁.oneLine hread₁ hnew₁
  have hnew₂' := hanchored.get?_append_of_ne hn₁ hread₁.oneLine hkeys
  rw [hnew₂, Option.map_none, Option.map_eq_none_iff] at hnew₂'
  generalize hfirst : text.take p ++ (encode (canonical k₁ n₁ ((Value.string s₁).render false)) ++
    [lineFeed, lineFeed]) ++ text.drop p = first at hstorage₁ hvalue₁ hnew₂'
  obtain ⟨q, hq⟩ := hanchored.exists_indexOf?_append hfirst.symm
  obtain ⟨hresult₂, hstorage₂⟩ := add_file (.string s₂) hnew₂' hq
  refine ⟨first, _, hresult₁, hstorage₁, hresult₂, hstorage₂, ?_⟩
  rw [getValue_file_iff_map, getValue_file_iff_map]
  constructor
  · rintro ⟨-, hread⟩
    exact ⟨q, hq, hanchored.allBlank_of_value_get? hneedle hfeed hn₁ hn₂ hkeys hnew₂
      hread₁.oneLine hread₂.oneLine hfirst.symm hq hread⟩
  · rintro ⟨q', hq', hblank₂⟩
    obtain rfl : q = q' := Option.some.inj (hq.symm.trans hq')
    have hanchored₂ := Anchored.of_indexOf? hneedle hq hblank₂
    have hsplit : first.take q ++ first.drop q = first := List.take_append_drop q first
    constructor
    · rw [hanchored₂.get?_append_of_ne hn₂ hread₂.oneLine hkeys.symm, hsplit, hvalue₁]
    · refine hanchored₂.value_get?_append hn₂ hread₂.oneLine hread₂ ?_
      rw [hsplit, hnew₂']

/-- The second string may have the anchor in it. -/
theorem getValue_add_add_anchor : ∃ first second,
    (add .var "a" (.string "x") (.inFrontOf "// here")
        (.file (encode "\t// here"))).storage = .file first ∧
      (add .const "B" (.string "// here") (.inFrontOf "// here")
        (.file first)).storage = .file second ∧
      first = encode "\t$a = 'x';\n\n// here" ∧
      (getValue .var "a" (.file second)).result = .ok (some "'x'") ∧
      (getValue .const "B" (.file second)).result = .ok (some "'// here'") := by
  have hp : indexOf? (encode "// here") (encode "\t// here") = some 1 := by decide
  have hblank : AllBlank (lastLine ((encode "\t// here").take 1)) := by
    have hline : lastLine ((encode "\t// here").take 1) = [ascii '\t'] := by decide
    rw [hline]
    simp [isBlank]
  obtain ⟨first, second, -, hfirst, -, hsecond, hiff⟩ := getValue_add_add_iff (by decide)
    (by decide) ⟨1, hp, hblank⟩ ⟨by decide, by simp⟩ ⟨by decide, by simp⟩
    (by decide : ((.const, "B") : Kind × String) ≠ (.var, "a")) (by decide) (by decide)
    (by decide : '\n' ∉ "x".toList) (by decide : '\n' ∉ "// here".toList)
  have hadded : (add .var "a" (.string "x")
      (.inFrontOf "// here")
      (.file (encode "\t// here"))).storage = .file (encode "\t$a = 'x';\n\n// here") := by
    decide +kernel
  obtain rfl := Storage.file.inj (hfirst.symm.trans hadded)
  have hagain : OpensLine (encode "// here") (encode "\t$a = 'x';\n\n// here") := by
    have hline : lastLine ((encode "\t$a = 'x';\n\n// here").take 12) = [] := by decide +kernel
    exact ⟨12, by decide +kernel, by rw [hline]; exact allBlank_nil⟩
  obtain ⟨hread₁, hread₂⟩ := hiff.2 hagain
  exact ⟨_, second, hfirst, hsecond, rfl, hread₁, hread₂⟩

/-- The first string may not. The second declaration is then written into it. -/
theorem not_forall_getValue_add_add : ¬ ∀ (k₁ k₂ : Kind) (n₁ n₂ s₁ s₂ anchor : String)
    (text first second : Bytes), anchor ≠ "" → '\n' ∉ anchor.toList →
    OpensLine (encode anchor) text → Text.IsName n₁ → Text.IsName n₂ → (k₂, n₂) ≠ (k₁, n₁) →
    (Catalog.scan text).get? k₁ n₁ = none → (Catalog.scan text).get? k₂ n₂ = none →
    '\n' ∉ s₁.toList → '\n' ∉ s₂.toList →
    (add k₁ n₁ (.string s₁) (.inFrontOf anchor) (.file text)).result =
      .ok true →
    (add k₁ n₁ (.string s₁) (.inFrontOf anchor) (.file text)).storage =
      .file first →
    (add k₂ n₂ (.string s₂) (.inFrontOf anchor) (.file first)).result =
      .ok true →
    (add k₂ n₂ (.string s₂) (.inFrontOf anchor) (.file first)).storage =
      .file second →
    (getValue k₁ n₁ (.file second)).result = .ok (some ((Value.string s₁).render false)) ∧
      (getValue k₂ n₂ (.file second)).result = .ok (some ((Value.string s₂).render false)) := by
  intro h
  have hopens : OpensLine (encode "// here") (encode "// here") := by
    have hline : lastLine ((encode "// here").take 0) = [] := by decide
    exact ⟨0, by decide, by rw [hline]; exact allBlank_nil⟩
  have hread := (h .var .var "a" "b" "// here" "x" "// here" (encode "// here")
    (encode "$a = '// here';\n\n// here")
    (encode "$a = '$b = 'x';\n\n// here';\n\n// here") (by decide) (by decide) hopens
    ⟨by decide, by simp⟩ ⟨by decide, by simp⟩ (by decide) (by decide) (by decide) (by decide)
    (by decide) (by decide +kernel) (by decide +kernel) (by decide +kernel)
    (by decide +kernel)).1
  revert hread
  decide +kernel

end Editor

end SiteConfig
