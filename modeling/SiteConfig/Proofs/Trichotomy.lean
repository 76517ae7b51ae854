import Mathlib.Logic.ExistsUnique
import SiteConfig.Proofs.Insertion
/-!
# The three ways of an addition

An addition to a file goes one of three ways. The name is declared, and nothing
is done; it does not matter then whether the anchor occurs. Or the anchor is
nowhere, and the addition fails. Or the declaration is put to the first
occurrence of the anchor, which parts the text in two (`Bytes.FirstAt`).

`Course.Describes` says of each way when an addition goes it and what comes of
it, and of any addition exactly one is true (`Editor.existsUnique_course`).
Names and anchors may be any texts, an empty one or one that overlaps itself
among them.
-/

namespace SiteConfig

open Bytes Declaration

/-- A text occurs at an offset, with all of it in the text, and at no smaller
one. -/
structure Bytes.FirstAt (needle text : Bytes) (p : Nat) : Prop where
  add_length_le : p + needle.length ≤ text.length
  isPrefix : needle <+: text.drop p
  not_isPrefix : ∀ q < p, ¬ needle <+: text.drop q

namespace Bytes

variable {needle text : Bytes} {p q : Nat}

theorem firstAt_iff : FirstAt needle text p ↔ indexOf? needle text = some p := by
  rw [indexOf?_eq_some_iff]
  constructor
  · rintro ⟨hlength, hprefix, hleast⟩
    exact ⟨⟨by omega, hprefix⟩, hleast⟩
  · rintro ⟨⟨hle, hprefix⟩, hleast⟩
    have hlength := hprefix.length_le
    rw [List.length_drop] at hlength
    exact ⟨by omega, hprefix, hleast⟩

/-- A text occurs first in one place. -/
theorem FirstAt.unique (hp : FirstAt needle text p) (hq : FirstAt needle text q) : p = q :=
  Option.some.inj ((firstAt_iff.1 hp).symm.trans (firstAt_iff.1 hq))

theorem FirstAt.isInfix (h : FirstAt needle text p) : needle <:+: text :=
  h.isPrefix.isInfix.trans (List.drop_suffix p text).isInfix

/-- A text that occurs has a first place. -/
theorem exists_firstAt_iff : (∃ p, FirstAt needle text p) ↔ needle <:+: text := by
  refine ⟨fun ⟨_, h⟩ => h.isInfix, fun h => ?_⟩
  cases hp : indexOf? needle text with
  | none => exact absurd h (indexOf?_eq_none_iff.1 hp)
  | some p => exact ⟨p, firstAt_iff.2 hp⟩

end Bytes

/-- A way that an addition goes. -/
inductive Course where
  /-- The name is declared. -/
  | known
  /-- The anchor is nowhere. -/
  | astray
  /-- The anchor is first at this offset. -/
  | placed (p : Nat)

/-- When an addition to a file goes a way, and what comes of it. -/
def Course.Describes (k : Kind) (name : String) (v : Value) (o : AddOptions) (text : Bytes)
    (out : Outcome Bool) : Course → Prop
  | .known => ((Catalog.scan text).get? k name).isSome ∧
      out.result = .ok false ∧ out.storage = .file text
  | .astray => (Catalog.scan text).get? k name = none ∧ ¬ encode o.anchor <:+: text ∧
      out.result = .error (.anchorNotFound o.anchor) ∧ out.storage = .file text
  | .placed p => (Catalog.scan text).get? k name = none ∧ FirstAt (encode o.anchor) text p ∧
      out.result = .ok true ∧
      (o.placement = .before → out.storage = .file (text.take p ++
        encode (canonical k name (v.render o.raw)) ++ encode o.separator ++ text.drop p)) ∧
      (o.placement = .after → out.storage =
        .file (text.take (p + (encode o.anchor).length) ++ encode o.separator ++
          encode (canonical k name (v.render o.raw)) ++
            text.drop (p + (encode o.anchor).length)))

namespace Editor

variable {k : Kind} {name : String} {v : Value} {o : AddOptions} {text : Bytes}
variable {out : Outcome Bool}

/-- An addition at the first occurrence of the anchor goes to one side of it. -/
theorem describes_placed {p : Nat} (h : (Catalog.scan text).get? k name = none)
    (hp : FirstAt (encode o.anchor) text p) :
    (Course.placed p).Describes k name v o text (add k name v o (.file text)) := by
  obtain ⟨hresult, hstorage⟩ := addTo_file v o h (firstAt_iff.1 hp)
  rw [add_file_eq]
  refine ⟨h, hp, hresult, fun hbefore => ?_, fun hafter => ?_⟩
  · rw [Outcome.storage_after, hstorage, inserted, hbefore]
    simp only [splice, List.append_assoc]
  · rw [Outcome.storage_after, hstorage, inserted, hafter]
    simp only [splice, List.append_assoc]

theorem exists_course (k : Kind) (name : String) (v : Value) (o : AddOptions) (text : Bytes) :
    ∃ c : Course, c.Describes k name v o text (add k name v o (.file text)) := by
  cases hd : (Catalog.scan text).get? k name with
  | some d =>
    have hsome : ((Catalog.scan text).get? k name).isSome := by simp [hd]
    exact ⟨.known, hsome, add_file_of_isSome v o hsome⟩
  | none =>
    by_cases hinfix : encode o.anchor <:+: text
    · obtain ⟨p, hp⟩ := exists_firstAt_iff.2 hinfix
      exact ⟨.placed p, describes_placed hd hp⟩
    · exact ⟨.astray, hd, hinfix,
        add_file_of_indexOf?_eq_none v o hd (indexOf?_eq_none_iff.2 hinfix)⟩

/-- The ways exclude each other by what the file declares and where the anchor
is. -/
theorem course_unique {c c' : Course} (h : c.Describes k name v o text out)
    (h' : c'.Describes k name v o text out) : c = c' := by
  have hno : ((Catalog.scan text).get? k name).isSome → (Catalog.scan text).get? k name ≠ none :=
    fun hsome hnone => by simp [hnone] at hsome
  cases c with
  | known =>
    cases c' with
    | known => rfl
    | astray => exact absurd h'.1 (hno h.1)
    | placed p => exact absurd h'.1 (hno h.1)
  | astray =>
    cases c' with
    | known => exact absurd h.1 (hno h'.1)
    | astray => rfl
    | placed p => exact absurd h'.2.1.isInfix h.2.1
  | placed p =>
    cases c' with
    | known => exact absurd h.1 (hno h'.1)
    | astray => exact absurd h.2.1.isInfix h'.2.1
    | placed q => rw [h.2.1.unique h'.2.1]

/-- **An addition to a file goes exactly one of three ways**, whatever the bytes
of the file, the name, the value and the options are. -/
theorem existsUnique_course (k : Kind) (name : String) (v : Value) (o : AddOptions)
    (text : Bytes) :
    ∃! c : Course, c.Describes k name v o text (add k name v o (.file text)) := by
  obtain ⟨c, hc⟩ := exists_course k name v o text
  exact ⟨c, hc, fun c' hc' => course_unique hc' hc⟩

/-- Of an anchor that overlaps itself the first occurrence counts, and its bytes
stay together. -/
example : (add .var "b" (.int 1) ⟨false, "aa", .after, "\n"⟩ (.file (encode "aaa"))).storage =
    .file (encode "aa\n$b = 1;a") := by decide +kernel

end Editor

end SiteConfig
