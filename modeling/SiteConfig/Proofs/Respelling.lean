import SiteConfig.Proofs.Boundaries
/-!
# The same value in canonical form

An update may write the value that a declaration has already. In place, the file
stays as it is. In canonical form, the spacing of the declaration changes, and
its value is still what is read (`Line.value?_respell`): of the text after the
value, only that it is a terminator matters, and where a literal closes that
starts in the value and runs on beyond it. A quote that is not closed in the
value may be closed in a comment behind the declaration, before and after.

So the declaration becomes the canonical one, everything else stays as it is,
and a repeated update changes nothing (`Editor.update_same_value`). The value
must be text to be written again as it is.
-/

namespace SiteConfig

open Bytes Line Declaration

namespace Line

/-! ## Where a literal closes -/

theorem closes_escaped_iff {α : Type} {escape quote x : α} {l : List α} (h : quote ≠ escape) :
    Closes escape quote (escape :: x :: l) ↔ Closes escape quote l := by
  simp [closes_escape_cons_iff h]

/-- Plain text within a text may be replaced by other plain text, but not by
none: an escape before it takes the first letter of what comes next. -/
theorem Closes.respell {α : Type} {escape quote : α} {t t' a : List α} (hne : quote ≠ escape)
    (ht : t ≠ []) (ht' : t' ≠ []) (hplain : ∀ x ∈ t, x ≠ quote ∧ x ≠ escape)
    (hplain' : ∀ x ∈ t', x ≠ quote ∧ x ≠ escape) :
    ∀ l : List α, Closes escape quote (l ++ (t ++ a)) → Closes escape quote (l ++ (t' ++ a))
  | [], h => (closes_append_iff hplain').2 ((closes_append_iff hplain).1 h)
  | x :: l, h => by
    rw [List.cons_append] at h ⊢
    by_cases hq : x = quote
    · -- the text goes on beyond this quote
      rw [hq, closes_quote_cons_iff hne] at h
      simp [ht] at h
    by_cases he : x = escape
    · subst he
      cases l with
      | nil =>
        obtain ⟨b, t, rfl⟩ := List.exists_cons_of_ne_nil ht
        obtain ⟨b', t', rfl⟩ := List.exists_cons_of_ne_nil ht'
        rw [List.forall_mem_cons] at hplain hplain'
        rw [List.nil_append, List.cons_append, closes_escaped_iff hne] at h ⊢
        exact (closes_append_iff hplain'.2).2 ((closes_append_iff hplain.2).1 h)
      | cons y l =>
        rw [List.cons_append, closes_escaped_iff hne] at h ⊢
        exact Closes.respell hne ht ht' hplain hplain' l h
    · rw [closes_cons_iff hq he] at h ⊢
      exact Closes.respell hne ht ht' hplain hplain' l h

variable {k : Kind} {v t t' a r : Bytes}

/-- A terminator has no mark of a literal in it. -/
theorem IsTerminator.not_isQuote_and_ne (h : IsTerminator k t) :
    ∀ b ∈ t, ¬ isQuote b ∧ b ≠ ascii '\\' := by
  intro b hb
  rcases h.mem_cases hb with hblank | rfl | rfl
  · rcases isBlank_iff.1 hblank with rfl | rfl <;> decide
  · decide
  · decide

/-- A literal that runs on beyond a terminator closes in the same place with
another one. -/
theorem IsLiteral.respell (ht : IsTerminator k t) (ht' : IsTerminator k t')
    (h : IsLiteral (v ++ (t ++ a))) : IsLiteral (v ++ (t' ++ a)) := by
  obtain ⟨q, rest, hq, htext, hcloses⟩ := h
  have hplain : ∀ {t}, IsTerminator k t → ∀ b ∈ t, b ≠ q ∧ b ≠ ascii '\\' := by
    rintro t ht b hb
    obtain ⟨hquote, hne⟩ := ht.not_isQuote_and_ne b hb
    exact ⟨fun heq => hquote (heq ▸ hq), hne⟩
  have hne : q ≠ ascii '\\' := by
    rintro rfl
    exact absurd hq (by decide)
  cases v with
  | nil =>
    -- no literal starts with a terminator
    obtain ⟨b, t, rfl⟩ := List.exists_cons_of_ne_nil ht.ne_nil
    obtain ⟨rfl, -⟩ := List.cons.inj htext
    exact absurd rfl (hplain ht b List.mem_cons_self).1
  | cons b v =>
    obtain ⟨rfl, rfl⟩ := List.cons.inj htext
    exact ⟨b, _, hq, rfl, hcloses.respell hne ht.ne_nil ht'.ne_nil (hplain ht) (hplain ht') v⟩

/-- **A value is read in front of one terminator as in front of another**,
whatever the value is and whatever follows. -/
theorem value?_respell (ht : IsTerminator k t) (ht' : IsTerminator k t')
    (h : value? k (v ++ (t ++ r)) = some (v, r)) : value? k (v ++ (t' ++ r)) = some (v, r) := by
  by_cases hlit : IsLiteral v
  · exact value?_literal_append hlit ht' r
  have hno : ¬ HasTerminator k v := (isLiteral_or_not_hasTerminator h).resolve_left hlit
  refine value?_append_of_beyond (endsPlain_of_value? h) hno ht' fun l s hl he => ?_
  rcases List.append_eq_append_iff.1 he with ⟨a, rfl, ha⟩ | ⟨c, rfl, -⟩
  · rcases List.append_eq_append_iff.1 ha with ⟨a', rfl, rfl⟩ | ⟨c, hc, -⟩
    · -- the literal closes in the rest, and no terminator follows it there
      right
      cases hs : terminator? k s with
      | none => rfl
      | some r' =>
        obtain ⟨e, hend, rfl⟩ := terminator?_eq_some_iff.1 hs
        have hread := value?_literal_append (hl.respell ht' ht) hend r'
        have hassoc : v ++ (t ++ a') ++ (e ++ r') = v ++ (t ++ (a' ++ (e ++ r'))) := by simp
        rw [hassoc, h, Option.some.injEq, Prod.mk.injEq] at hread
        exact absurd hread.1 (by simp [ht.ne_nil])
    · -- a literal that closed in the terminator would end in a quote of it
      left
      exact prefix_of_isLiteral (fun b hb => (ht'.not_isQuote_and_ne b hb).1) hl
        (by rw [hc, List.append_assoc])
  · exact .inl (List.prefix_append l c)

end Line

/-! ## The declaration in canonical form -/

namespace Place

variable {k : Kind} {name : String} {text : Bytes} (p : Place k name text)

/-- In place, a declaration with its own value is the same. -/
theorem rewritten_value : p.rewritten false p.value = text := p.text_eq.symm

/-- The value is read with a terminator after it, without blanks in front. If it
is empty, they belong to the head. -/
theorem exists_skipBlanks_value {t : Bytes} (ht : IsTerminator k t) : ∃ t', IsTerminator k t' ∧
    skipBlanks (p.value ++ (t ++ p.rest)) = p.value ++ (t' ++ p.rest) := by
  cases hvalue : p.value with
  | nil => exact ⟨_, ht.skipBlanks, skipBlanks_append_of_not_allBlank ht.not_allBlank⟩
  | cons b v =>
    have hb : ¬ isBlank b := skipBlanks_eq_self_iff.1 p.skipBlanks_eq b (by rw [hvalue]; rfl)
    exact ⟨t, ht, skipBlanks_cons_of_not_isBlank hb⟩

/-- **In canonical form, a declaration has the same value**, and takes up all that
was written. -/
theorem exists_respelled : ∃ q : Place k name (p.rewritten true p.value),
    q.before = p.before ∧ q.after = p.after ∧ q.value = p.value ∧ q.rest = p.rest ∧
      q.head ++ (q.value ++ q.tail) =
        canonicalHead k name ++ (p.value ++ canonicalTail k) := by
  have hlines : lines (p.rewritten true p.value) =
      p.before ++ (canonicalHead k name ++ (p.value ++ (canonicalTail k ++ p.rest))) :: p.after :=
    p.lines_rewritten_of_not_mem p.lineFeed_not_mem_value
  obtain ⟨t, ht, hskip⟩ := p.exists_skipBlanks_value isTerminator_canonicalTail
  have hread : value? k (skipBlanks (p.value ++ (canonicalTail k ++ p.rest))) =
      some (p.value, p.rest) := by
    rw [hskip]
    exact value?_respell p.isTerminator ht p.value?_eq
  obtain ⟨q, hbefore, hafter, hvalue, hrest, blanks, hblanks, hhead, hsplit⟩ :=
    exists_of_value? _ _ hlines (isHead_canonicalHead p.isName) hread p.lastValue?_after
  have hsource : (q.head ++ (q.value ++ q.tail)) ++ p.rest =
      (canonicalHead k name ++ (p.value ++ canonicalTail k)) ++ p.rest := by
    calc (q.head ++ (q.value ++ q.tail)) ++ p.rest
      _ = canonicalHead k name ++ (blanks ++ (p.value ++ (q.tail ++ p.rest))) := by
        rw [hhead, hvalue]
        simp only [List.append_assoc]
      _ = canonicalHead k name ++ (p.value ++ (canonicalTail k ++ p.rest)) := by
        rw [← hsplit, ← hblanks]
      _ = (canonicalHead k name ++ (p.value ++ canonicalTail k)) ++ p.rest := by
        simp only [List.append_assoc]
  exact ⟨q, hbefore, hafter, hvalue, hrest, List.append_cancel_right hsource⟩

/-- And it is written the same again. -/
theorem rewritten_respelled (q : Place k name (p.rewritten true p.value))
    (hbefore : q.before = p.before) (hafter : q.after = p.after) (hrest : q.rest = p.rest) :
    q.rewritten true p.value = p.rewritten true p.value := by
  have hline : q.newLine true p.value = p.newLine true p.value :=
    congrArg (fun rest => canonicalHead k name ++ (p.value ++ (canonicalTail k ++ rest))) hrest
  rw [rewritten, hbefore, hafter, hline, ← rewritten]

end Place

/-! ## Updates with the value that is there -/

namespace Editor

variable {k : Kind} {name : String} {text : Bytes} {d : Declaration} {o : UpdateOptions}

/-- **An update with the value that is there.** If it is text, the value may be
written again as it is. In place, this changes nothing. In canonical form, it does
not fail, and the declaration is the canonical one. Either way the same value is
got as before, all other names keep theirs, and the same update again changes
nothing. -/
theorem update_same_value (e : Editor) (hraw : o.raw = true)
    (hd : (Catalog.scan text).get? k name = some d) (hutf8 : IsUtf8 (d.valueSpan.slice text)) :
    (getValue k name (.file text)).result = .ok (some d.value) ∧
      ∃ changed contents, (e.update k name (.string d.value) o (.file text)).result = .ok changed ∧
        (e.update k name (.string d.value) o (.file text)).storage = .file contents ∧
        (o.normalize = false → changed = false ∧ contents = text) ∧
        (o.normalize = true → ∃ d', (Catalog.scan contents).get? k name = some d' ∧
          d'.source = canonical k name d.value) ∧
        (getValue k name (.file contents)).result = .ok (some d.value) ∧
        (∀ k' name', (k', name') ≠ (k, name) →
          ((Catalog.scan contents).get? k' name').map (·.value) =
            ((Catalog.scan text).get? k' name').map (·.value)) ∧
        (e.update k name (.string d.value) o (.file contents)).result = .ok false ∧
        (e.update k name (.string d.value) o (.file contents)).storage = .file contents := by
  obtain ⟨p, rfl⟩ := Place.exists_of_get? hd
  rw [p.slice_value] at hutf8
  have hvalue : encode ((Value.string p.declaration.value).render o.raw) = p.value := by
    rw [hraw]
    exact hutf8.encode_decode
  have hget : (getValue k name (.file text)).result = .ok (some p.declaration.value) :=
    getValue_file_eq_some_iff.2 ⟨_, hd, rfl⟩
  refine ⟨hget, ?_⟩
  cases hnormalize : o.normalize with
  | false =>
    obtain ⟨hresult, hstorage⟩ :=
      (p.update_file_eq_iff e (.string p.declaration.value) o).2 (by
        rw [hvalue, hnormalize, p.rewritten_value])
    exact ⟨false, text, hresult, hstorage, fun _ => ⟨rfl, rfl⟩, fun h => (by cases h), hget,
      fun _ _ _ => rfl, hresult, hstorage⟩
  | true =>
    obtain ⟨hstorage, hresult⟩ := p.update_file e (.string p.declaration.value) o
    rw [hvalue, hnormalize] at hstorage hresult
    obtain ⟨q, hbefore, hafter, hqvalue, hrest, hsource⟩ := p.exists_respelled
    refine ⟨_, _, hresult, hstorage, fun h => (by cases h), fun _ => ⟨_, q.get?_scan, ?_⟩, ?_,
      fun k' name' hne => ?_, ?_⟩
    · calc decode (q.head ++ (q.value ++ q.tail))
        _ = decode (encode (canonical k name p.declaration.value)) := by
          rw [hsource, encode_canonical, ← hvalue, hraw]
          rfl
        _ = canonical k name p.declaration.value := decode_encode _
    · exact getValue_file_eq_some_iff.2 ⟨_, q.get?_scan, congrArg decode hqvalue⟩
    · rw [map_value_get?_scan, map_value_get?_scan]
      exact p.lastValue?_rewritten_of_not_mem hne p.lineFeed_not_mem_value
    · refine (q.update_file_eq_iff e (.string p.declaration.value) o).2 ?_
      rw [hvalue, hnormalize]
      exact p.rewritten_respelled q hbefore hafter hrest

/-- A quote that is not closed in the value, and is closed in a comment behind the
declaration. -/
theorem update_same_value_unclosed :
    (Catalog.scan (encode "$a='x ; // it's")).get? .var "a" =
        some ⟨.var, "a", "'x", "$a='x ;", ⟨0, 7⟩, ⟨3, 5⟩⟩ ∧
      IsUtf8 (Span.slice ⟨3, 5⟩ (encode "$a='x ; // it's")) ∧
      ∃ contents, (update ⟨.default⟩ .var "a" (.string "'x") { raw := true, normalize := true }
          (.file (encode "$a='x ; // it's"))).storage = .file contents ∧
        (∃ d, (Catalog.scan contents).get? .var "a" = some d ∧ d.source = "$a = 'x;") ∧
        (getValue .var "a" (.file contents)).result = .ok (some "'x") := by
  have hd : (Catalog.scan (encode "$a='x ; // it's")).get? .var "a" =
      some ⟨.var, "a", "'x", "$a='x ;", ⟨0, 7⟩, ⟨3, 5⟩⟩ := by decide +kernel
  have hutf8 : IsUtf8 (Span.slice ⟨3, 5⟩ (encode "$a='x ; // it's")) := by decide +kernel
  obtain ⟨-, -, contents, -, hstorage, -, hsource, hvalue, -⟩ :=
    update_same_value (o := { raw := true, normalize := true }) ⟨.default⟩ rfl hd hutf8
  exact ⟨hd, hutf8, contents, hstorage, hsource rfl, hvalue⟩

end Editor

end SiteConfig
