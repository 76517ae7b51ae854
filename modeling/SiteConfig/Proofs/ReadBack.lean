import SiteConfig.Proofs.Literal
import SiteConfig.Proofs.Update
/-!
# Reading back what was written

After an update of a declared name its value is read back exactly if the
value is one to read back: a string without a line break, or another value
in which no string has a line break or a terminator
(`getValue_update_iff`). The spacing of the declaration, its old value and
the rest of its line do not matter.

A literal without a quote in front that has a terminator in it is cut short
there (`Value.value?_cut_short`), and what is left is another value.
-/

namespace SiteConfig

open Bytes Line

/-! ## Literals in front of a terminator -/

namespace Value

variable {k : Kind} {v : Value} {t : Bytes}

theorem encode_render (v : Value) : encode (v.render false) = ofChars v.literal := by
  rw [encode, toList_render]

theorem literal_ne_nil (v : Value) : v.literal ≠ [] := by
  rcases literal_cases v with ⟨s, rfl⟩ | h
  · exact List.cons_ne_nil _ _
  · exact h.ne_nil

/-- No blank stands in front of a literal. -/
theorem skipBlanks_literal (v : Value) (text : Bytes) :
    skipBlanks (ofChars v.literal ++ text) = ofChars v.literal ++ text := by
  have hskip : skipBlanks (ofChars v.literal) = ofChars v.literal :=
    Text.skipBlanks_ofChars_eq_self_iff.2 (trimmed_literal v).first
  obtain ⟨b, bs, hb⟩ := List.exists_cons_of_ne_nil (mt ofChars_eq_nil_iff.1 (literal_ne_nil v))
  rw [hb] at hskip ⊢
  exact skipBlanks_cons_of_not_isBlank (not_isBlank_of_skipBlanks_eq_cons hskip)

/-- No quoted literal starts where the literal of a value does that is no
string. -/
theorem Bare.append_ne {cs : List Char} {l s s' : Bytes} (h : Bare cs) (hl : IsLiteral l) :
    ofChars cs ++ s ≠ l ++ s' := by
  obtain ⟨q, l, hq, rfl, -⟩ := hl
  intro he
  obtain ⟨b, bs, hb⟩ := List.exists_cons_of_ne_nil (mt ofChars_eq_nil_iff.1 h.ne_nil)
  rw [hb, List.cons_append, List.cons_append, List.cons.injEq] at he
  obtain ⟨rfl, -⟩ := he
  have hquote : b = ascii '\'' ∨ b = ascii '"' := by simpa [isQuote] using hq
  have hlt : b < 0x80 := by rcases hquote with rfl | rfl <;> decide
  obtain ⟨cs₁, c, cs₂, rfl, hnil, hc, rfl, -⟩ := exists_chars_of_ofChars_eq (a := []) hlt hb
  rw [ofChars_eq_nil_iff] at hnil
  subst hnil
  obtain ⟨-, hsingle, hdouble⟩ := h.first c rfl
  rcases hquote with hquote | hquote
  · exact hsingle ((ascii_inj hc (by decide)).1 hquote)
  · exact hdouble ((ascii_inj hc (by decide)).1 hquote)

/-- **A literal is read whole** in front of a terminator if it is quoted or has
no terminator in it. -/
theorem value?_whole (h : Text.IsLiteral v.literal ∨ ¬ Text.HasTerminator k v.literal)
    (ht : IsTerminator k t) (rest : Bytes) :
    value? k (ofChars v.literal ++ (t ++ rest)) = some (ofChars v.literal, rest) := by
  rcases h with hlit | hno
  · exact value?_literal_append (Text.isLiteral_ofChars_iff.2 hlit) ht rest
  rcases literal_cases v with ⟨s, rfl⟩ | hbare
  · exact value?_literal_append (Text.isLiteral_ofChars_iff.2 (isLiteral_quoted s.toList)) ht rest
  · have hplain : EndsPlain (ofChars v.literal) := Text.endsPlain_ofChars_iff.2 hbare.last
    have hno' : ¬ HasTerminator k (ofChars v.literal) := mt Text.hasTerminator_ofChars_iff.1 hno
    exact value?_append hplain hno' ht fun l s hl he => absurd he (hbare.append_ne hl)

/-- **Otherwise it is cut short**, and so is the declaration. -/
theorem value?_cut_short (h : ¬ (Text.IsLiteral v.literal ∨ ¬ Text.HasTerminator k v.literal))
    (ht : IsTerminator k t) (rest : Bytes) :
    ∃ v' r, value? k (ofChars v.literal ++ (t ++ rest)) = some (v', r) ∧
      v'.length < (ofChars v.literal).length ∧ rest.length < r.length := by
  rw [not_or, Classical.not_not] at h
  have hbare : Bare v.literal := by
    rcases literal_cases v with ⟨s, rfl⟩ | hbare
    · exact absurd (isLiteral_quoted s.toList) h.1
    · exact hbare
  rw [value?_eq_shortest? fun l s hl he => absurd he (hbare.append_ne hl)]
  exact shortest?_lt_of_hasTerminator (Text.hasTerminator_ofChars_iff.2 h.2) ht rest

end Value

/-- A value that is cut short is another text: it ends at a character, as
the terminator after it does not start within one. -/
theorem decode_ne_of_length_lt {k : Kind} {cs : List Char} {s v r : Bytes}
    (hv : value? k (ofChars cs ++ s) = some (v, r)) (hlt : v.length < (ofChars cs).length) :
    decode v ≠ String.ofList cs := by
  obtain ⟨t, ht, he⟩ := exists_terminator_of_value? hv
  obtain ⟨b, t', rfl, hb⟩ := Text.exists_cons_of_isTerminator ht
  rcases List.append_eq_append_iff.1 he with ⟨a, rfl, -⟩ | ⟨a, ha, hs⟩
  · rw [List.length_append] at hlt
    omega
  cases a with
  | nil =>
    rw [ha, List.append_nil] at hlt
    omega
  | cons c a =>
    rw [List.cons_append, List.cons_append, List.cons.injEq] at hs
    obtain ⟨rfl, -⟩ := hs
    obtain ⟨cs₁, c, cs₂, rfl, rfl, -⟩ := exists_chars_of_ofChars_eq hb ha
    intro h
    rw [decode_ofChars] at h
    have hcs := congrArg String.toList h
    simp at hcs

/-! ## Values of a file -/

namespace Editor

variable {k : Kind} {name : String} {text : Bytes}

/-- A name that is found is looked up in a file. -/
theorem find_eq_some_iff {d : Declaration} :
    find ⟨text⟩ (Catalog.scan text) k name = .ok (some d) ↔
      (Catalog.scan text).get? k name = some d := by
  have hempty : (Catalog.scan []).get? k name = none := by
    cases k <;> rfl
  rw [← Catalog.lookup_eq_found_iff]
  unfold find Snapshot.isEmpty
  cases text with
  | nil =>
    rw [Catalog.lookup_eq_found_iff, hempty]
    simp
  | cons b text => cases (Catalog.scan (b :: text)).lookup k name <;> simp

/-- **A value is got from a file** where a scan finds a declaration with it. -/
theorem getValue_file_eq_some_iff {x : String} :
    (getValue k name (.file text)).result = .ok (some x) ↔
      ∃ d, (Catalog.scan text).get? k name = some d ∧ d.value = x := by
  have hget : (getValue k name (.file text)).result =
      (find ⟨text⟩ (Catalog.scan text) k name).map (·.map (·.value)) := rfl
  rw [hget]
  constructor
  · intro h
    cases hf : find ⟨text⟩ (Catalog.scan text) k name with
    | error e => simp [hf, Except.map] at h
    | ok found =>
      cases found with
      | none => simp [hf, Except.map] at h
      | some d => exact ⟨d, find_eq_some_iff.1 hf, by simpa [hf, Except.map] using h⟩
  · rintro ⟨d, hd, rfl⟩
    rw [find_eq_some_iff.2 hd]
    rfl

end Editor

namespace Place

variable {k : Kind} {name : String} {text : Bytes} (p : Place k name text)

/-- **A value to read back is read back** from the text in which it replaces
another. -/
theorem exists_of_readsBack {v : Value} (h : v.ReadsBack k) (normalize : Bool) :
    ∃ q : Place k name (p.rewritten normalize (ofChars v.literal)),
      q.before = p.before ∧ q.after = p.after ∧ q.head = p.newHead normalize ∧
      q.value = ofChars v.literal ∧ q.tail = p.newTail normalize ∧ q.rest = p.rest := by
  have hv := Value.readsBack_iff.1 h
  have hx : lineFeed ∉ ofChars v.literal := mt (ascii_mem_ofChars (by decide)).1 hv.oneLine
  obtain ⟨q, hbefore, hafter, hhead, hvalue, hrest, hsplit⟩ := p.exists_of_rewritten hx
    (v.skipBlanks_literal _) (Value.value?_whole hv.whole (p.isTerminator_newTail normalize) p.rest)
  have htail : p.newTail normalize = q.tail :=
    List.append_cancel_right (List.append_cancel_left hsplit)
  exact ⟨q, hbefore, hafter, hhead, hvalue, htail.symm, hrest⟩

/-- **Any other value on one line is cut short** there. -/
theorem exists_of_not_readsBack {v : Value} (h : ¬ v.ReadsBack k) (hbreak : '\n' ∉ v.literal)
    (normalize : Bool) :
    ∃ q : Place k name (p.rewritten normalize (ofChars v.literal)),
      q.before = p.before ∧ q.after = p.after ∧ q.head = p.newHead normalize ∧
      q.value.length < (ofChars v.literal).length ∧ p.rest.length < q.rest.length ∧
      ofChars v.literal ++ (p.newTail normalize ++ p.rest) = q.value ++ (q.tail ++ q.rest) := by
  have hwhole : ¬ (Text.IsLiteral v.literal ∨ ¬ Text.HasTerminator k v.literal) := fun hw =>
    h (Value.readsBack_iff.2 ⟨hbreak, Value.trimmed_literal v, hw⟩)
  have hx : lineFeed ∉ ofChars v.literal := mt (ascii_mem_ofChars (by decide)).1 hbreak
  obtain ⟨v', r, hv, hlt, hlt'⟩ :=
    Value.value?_cut_short hwhole (p.isTerminator_newTail normalize) p.rest
  obtain ⟨q, hbefore, hafter, hhead, rfl, rfl, hsplit⟩ :=
    p.exists_of_rewritten hx (v.skipBlanks_literal _) hv
  exact ⟨q, hbefore, hafter, hhead, hlt, hlt', hsplit⟩

end Place

/-! ## Reading a value after its update -/

namespace Editor

variable {k : Kind} {name : String} {text : Bytes} {o : UpdateOptions}

/-- **A value is read back after an update of a declared name** if and only if
it is one to read back. Such an update does not fail. -/
theorem getValue_update_iff (e : Editor) (v : Value) (hraw : o.raw = false)
    (h : ((Catalog.scan text).get? k name).isSome) :
    (∃ changed, (e.update k name v o (.file text)).result = .ok changed) ∧
    ((getValue k name (e.update k name v o (.file text)).storage).result =
        .ok (some (v.render false)) ↔
      v.ReadsBack k) := by
  obtain ⟨d, hd⟩ := Option.isSome_iff_exists.1 h
  obtain ⟨p, -⟩ := Place.exists_of_get? hd
  obtain ⟨hstorage, hresult⟩ := p.update_file e v o
  refine ⟨⟨_, hresult⟩, ?_⟩
  rw [hstorage, hraw, v.encode_render, getValue_file_eq_some_iff]
  constructor
  · rintro ⟨d', hd', hvalue⟩
    obtain ⟨q, rfl⟩ := Place.exists_of_get? hd'
    -- what is read is on one line, so all that was written is
    have hbreak : '\n' ∉ v.literal := by
      rw [← v.toList_render, ← hvalue]
      exact q.newline_not_mem_value
    refine Classical.byContradiction fun hv => ?_
    obtain ⟨q', -, -, -, hlt, -, hsplit⟩ := p.exists_of_not_readsBack hv hbreak o.normalize
    have hsame : q'.declaration = q.declaration :=
      Option.some.inj (q'.get?_scan.symm.trans q.get?_scan)
    have hcut : decode q'.value = v.render false := (congrArg Declaration.value hsame).trans hvalue
    have hread := q'.value?_eq
    rw [← hsplit] at hread
    exact decode_ne_of_length_lt hread hlt (by rw [hcut, ← v.toList_render, String.ofList_toList])
  · intro hv
    obtain ⟨q, -, -, -, hvalue, -⟩ := p.exists_of_readsBack hv o.normalize
    refine ⟨q.declaration, q.get?_scan, ?_⟩
    show decode q.value = v.render false
    rw [hvalue, ← v.encode_render, decode_encode]

/-- A string is read back even if there is a terminator in it. -/
theorem getValue_update_semicolon :
    ((Catalog.scan (encode "$a = 1;")).get? .var "a").isSome ∧
      (getValue .var "a" (update ⟨.default⟩ .var "a" (.string ";") {}
        (.file (encode "$a = 1;"))).storage).result = .ok (some "';'") :=
  ⟨by decide, (getValue_update_iff ⟨.default⟩ (.string ";") rfl (by decide)).2.2
    (show '\n' ∉ ";".toList by decide)⟩

end Editor

end SiteConfig
