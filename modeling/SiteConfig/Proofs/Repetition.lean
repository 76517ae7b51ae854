import SiteConfig.Proofs.ReadBack
/-!
# Repeating an update

An update that is repeated changes nothing more if its value is one to read
back. A value on one line that is cut short leaves its end behind, in front
of the rest of the line, and a repeated update leaves it behind again: the
file grows each time. A value with a line break in it is written again
wherever the name is found, and found it may be no longer
(`update_update_iff`).
-/

namespace SiteConfig

open Bytes Line

namespace Place

variable {k : Kind} {name : String} {text : Bytes} {normalize : Bool} {x : Bytes}
variable (p : Place k name text)

/-! ## The same value again -/

/-- A head that an update wrote is written again. -/
theorem newHead_again {text' : Bytes} (q : Place k name text')
    (hhead : q.head = p.newHead normalize) : q.newHead normalize = p.newHead normalize := by
  cases normalize with
  | true => rfl
  | false => exact hhead

/-- A declaration with the head, the tail and the rest that an update wrote is
written the same again. -/
theorem rewritten_again (q : Place k name (p.rewritten normalize x)) (hbefore : q.before = p.before)
    (hafter : q.after = p.after) (hhead : q.head = p.newHead normalize)
    (htail : q.tail = p.newTail normalize) (hrest : q.rest = p.rest) :
    q.rewritten normalize x = p.rewritten normalize x := by
  have hhead' := p.newHead_again q hhead
  have htail' : q.newTail normalize = p.newTail normalize := by
    cases normalize with
    | true => rfl
    | false => exact htail
  rw [rewritten, newLine, hbefore, hafter, hhead', htail', hrest, ← newLine, ← rewritten]

/-- **What is left behind makes the line longer.** In place, the tail is read
from where the value ends, and the end of `x` belongs to the rest. -/
theorem rewritten_again_ne (q : Place k name (p.rewritten normalize x))
    (hbefore : q.before = p.before) (hafter : q.after = p.after)
    (hhead : q.head = p.newHead normalize) (hlt : q.value.length < x.length)
    (hrest : p.rest.length < q.rest.length)
    (hsplit : x ++ (p.newTail normalize ++ p.rest) = q.value ++ (q.tail ++ q.rest)) :
    q.rewritten normalize x ≠ p.rewritten normalize x := by
  have hhead' := p.newHead_again q hhead
  show between q.before q.after (q.newLine normalize x) ≠
    between p.before p.after (p.newLine normalize x)
  rw [hbefore, hafter, ne_eq, between_inj, newLine, newLine, hhead']
  intro h
  have hlen := congrArg List.length h
  simp only [List.length_append] at hlen
  -- the canonical tail has one length; in place the tail and the rest are longer together
  cases normalize with
  | true =>
    have htail : (q.newTail true).length = (p.newTail true).length := rfl
    omega
  | false =>
    have htail : (q.newTail false).length = q.tail.length := rfl
    have hsum := congrArg List.length hsplit
    simp only [List.length_append] at hsum
    omega

/-- A line feed is not what a line had before. -/
theorem rewritten_ne_of_lineFeed_mem (hx : lineFeed ∈ x) : p.rewritten normalize x ≠ text := by
  intro h
  have htext := h.trans p.text_eq
  rw [rewritten, between_inj] at htext
  refine p.lineFeed_not_mem_line ?_
  rw [← htext, newLine]
  simp [hx]

end Place

/-! ## Two updates -/

namespace Editor

variable {k : Kind} {name : String} {text : Bytes} {o : UpdateOptions}

theorem length_inserted (declaration : Bytes) {i : Nat} (o : AddOptions) :
    (inserted text declaration i o).length =
      text.length + declaration.length + (encode o.separator).length := by
  have hsplice : ∀ j new, (text.splice j j new).length = text.length + new.length := by
    intro j new
    simp only [splice, List.length_append, List.length_take, List.length_drop]
    omega
  unfold inserted
  cases o.placement with
  | before =>
    simp only [hsplice, List.length_append]
    omega
  | after =>
    simp only [hsplice, List.length_append]
    omega

/-- An addition of a name that is not declared does not leave the file as it
is: a declaration is not empty. -/
theorem result_addTo_ne (v : Value) (o : AddOptions)
    (h : (Catalog.scan text).get? k name = none) :
    (addTo ⟨text⟩ (Catalog.scan text) k name v o (.file text)).result ≠ .ok false := by
  have hpos : 0 < (encode (Declaration.canonical k name (v.render o.raw))).length := by
    have htail := (Declaration.isTerminator_canonicalTail (k := k)).ne_nil
    have htail' := List.length_pos_iff.2 htail
    rw [Declaration.encode_canonical, List.length_append, List.length_append]
    omega
  have hne : ∀ i,
      inserted text (encode (Declaration.canonical k name (v.render o.raw))) i o ≠ text := by
    intro i hi
    have hlen := congrArg List.length hi
    rw [length_inserted] at hlen
    omega
  unfold addTo
  simp only [h, Option.isSome_none, Bool.false_eq_true, if_false]
  cases indexOf? (encode o.anchor) text with
  | none => simp [Outcome.failed]
  | some i => simp [hne i]

/-- An update of a name that is not declared adds it, or leaves the file as it
is if the options say so. -/
theorem update_file_of_get?_eq_none (e : Editor) (v : Value)
    (h : (Catalog.scan text).get? k name = none) :
    ((e.update k name v o (.file text)).result = .ok false ∧
        (e.update k name v o (.file text)).storage = .file text) ↔
      o.addMissing = false := by
  unfold update scanned
  simp only [Snapshot.read, Storage.read, h, Outcome.result_after, Outcome.storage_after]
  cases o.addMissing with
  | true =>
    simp only [if_true, Bool.true_eq_false, iff_false, not_and]
    exact fun hresult => absurd hresult (result_addTo_ne v _ h)
  | false => simp [Outcome.done]

/-- **An update is idempotent** if and only if its value is one to read back,
or the name is lost in the first update and is not to be added again. -/
theorem update_update_iff (e : Editor) (v : Value) (hraw : o.raw = false)
    (h : ((Catalog.scan text).get? k name).isSome) :
    ((e.update k name v o (e.update k name v o (.file text)).storage).result = .ok false ∧
        (e.update k name v o (e.update k name v o (.file text)).storage).storage =
          (e.update k name v o (.file text)).storage) ↔
      v.ReadsBack k ∨ (o.addMissing = false ∧ ∃ contents,
        (e.update k name v o (.file text)).storage = .file contents ∧
          (Catalog.scan contents).get? k name = none) := by
  obtain ⟨d, hd⟩ := Option.isSome_iff_exists.1 h
  obtain ⟨p, -⟩ := Place.exists_of_get? hd
  rw [(p.update_file e v o).1, hraw, v.encode_render]
  have hname : (∃ contents, Storage.file (p.rewritten o.normalize (ofChars v.literal)) =
      .file contents ∧ (Catalog.scan contents).get? k name = none) ↔
      (Catalog.scan (p.rewritten o.normalize (ofChars v.literal))).get? k name = none := by simp
  rw [hname]
  -- the second update meets the declaration that the first one left, if there is one
  have hagain := fun q : Place k name (p.rewritten o.normalize (ofChars v.literal)) =>
    q.update_file_eq_iff e v o
  rw [hraw, v.encode_render] at hagain
  by_cases hv : v.ReadsBack k
  · obtain ⟨q, hbefore, hafter, hhead, -, htail, hrest⟩ := p.exists_of_readsBack hv o.normalize
    exact iff_of_true ((hagain q).2 (p.rewritten_again q hbefore hafter hhead htail hrest))
      (.inl hv)
  rw [or_iff_right hv]
  -- with a line break the name may be lost, without one it is found and cut short
  by_cases hbreak : '\n' ∈ v.literal
  · cases hfound : (Catalog.scan (p.rewritten o.normalize (ofChars v.literal))).get? k name with
    | none => rw [update_file_of_get?_eq_none e v hfound, and_iff_left rfl]
    | some d' =>
      obtain ⟨q, -⟩ := Place.exists_of_get? hfound
      have hmem : lineFeed ∈ ofChars v.literal := (ascii_mem_ofChars (by decide)).2 hbreak
      rw [hagain q]
      exact iff_of_false (q.rewritten_ne_of_lineFeed_mem hmem) (by simp)
  · obtain ⟨q, hbefore, hafter, hhead, hlt, hrest, hsplit⟩ :=
      p.exists_of_not_readsBack hv hbreak o.normalize
    rw [hagain q, q.get?_scan]
    exact iff_of_false (p.rewritten_again_ne q hbefore hafter hhead hlt hrest hsplit) (by simp)

/-- A string with a terminator in it is written once. -/
theorem update_update_semicolon :
    ((Catalog.scan (encode "$a = 1;")).get? .var "a").isSome ∧
      (update ⟨.default⟩ .var "a" (.string ";") {} (update ⟨.default⟩ .var "a" (.string ";") {}
        (.file (encode "$a = 1;"))).storage).result = .ok false :=
  ⟨by decide, ((update_update_iff ⟨.default⟩ (.string ";") rfl (by decide)).2
    (.inl (show '\n' ∉ ";".toList by decide))).1⟩

/-- Not every update is idempotent. An array with a terminator in one of its
strings is cut short there, and the file grows. -/
theorem not_forall_update_update : ¬ ∀ (e : Editor) (k : Kind) (name : String) (v : Value)
    (o : UpdateOptions) (text : Bytes) (changed : Bool), o.raw = false →
    ((Catalog.scan text).get? k name).isSome →
    (e.update k name v o (.file text)).result = .ok changed →
    (e.update k name v o (e.update k name v o (.file text)).storage).result = .ok false ∧
      (e.update k name v o (e.update k name v o (.file text)).storage).storage =
        (e.update k name v o (.file text)).storage := by
  intro h
  have hagain := (h ⟨.default⟩ .var "a" (.list [.string ";"]) {} (encode "$a = 1;") true rfl
    (by decide) rfl).2
  revert hagain
  decide

end Editor

end SiteConfig
