import SiteConfig.Text.Bytes
/-!
# Search

The first place at which one byte string occurs in another. It is an
occurrence and no earlier one is (`indexOf?_eq_some_iff`), and there is
none only where the string does not occur (`indexOf?_eq_none_iff`).
-/

namespace SiteConfig

namespace Bytes

/-- The least offset at which `needle` occurs. The empty sequence occurs at
the start of every text. -/
def indexOf? (needle : Bytes) : Bytes → Option Nat
  | [] => if needle = [] then some 0 else none
  | b :: text =>
    if needle.isPrefixOf (b :: text) then some 0
    else (indexOf? needle text).map (· + 1)

/-- **The offset found is the least at which the string occurs.** -/
theorem indexOf?_eq_some_iff {needle text : Bytes} {p : Nat} :
    indexOf? needle text = some p ↔
      (p ≤ text.length ∧ needle <+: text.drop p) ∧ ∀ q < p, ¬ needle <+: text.drop q := by
  induction text generalizing p with
  | nil =>
    by_cases h : needle = []
    · subst h
      simp only [indexOf?, if_pos]
      constructor
      · intro h; cases h; simp
      · rintro ⟨⟨h, -⟩, -⟩; simp at h; subst h; rfl
    · simp [indexOf?, h]
  | cons b text ih =>
    rw [indexOf?]
    split
    · next h =>
      have h := List.isPrefixOf_iff_prefix.1 h
      constructor
      · intro hp; cases hp; exact ⟨⟨Nat.zero_le _, by simpa using h⟩, by simp⟩
      · rintro ⟨-, hp⟩
        cases p with
        | zero => rfl
        | succ p => exact absurd (by simpa using h) (hp 0 (by omega))
    · next h =>
      have h : ¬ needle <+: b :: text := fun hp => h (List.isPrefixOf_iff_prefix.2 hp)
      cases p with
      | zero =>
        constructor
        · intro hp; simp [Option.map_eq_some_iff] at hp
        · rintro ⟨⟨-, hp⟩, -⟩; exact absurd (by simpa using hp) h
      | succ p =>
        simp only [Option.map_eq_some_iff, Nat.add_right_cancel_iff, exists_eq_right, ih,
          List.length_cons, Nat.add_le_add_iff_right, List.drop_succ_cons]
        constructor
        · rintro ⟨h1, h2⟩
          refine ⟨h1, fun q hq => ?_⟩
          cases q with
          | zero => simpa using h
          | succ q => exact h2 q (by omega)
        · rintro ⟨h1, h2⟩
          exact ⟨h1, fun q hq => h2 (q + 1) (by omega)⟩

/-- **Nothing is found only where the string does not occur.** -/
theorem indexOf?_eq_none_iff {needle text : Bytes} :
    indexOf? needle text = none ↔ ¬ needle <:+: text := by
  induction text with
  | nil => by_cases h : needle = [] <;> simp [indexOf?, h]
  | cons b text ih =>
    rw [indexOf?, List.infix_cons_iff, ← List.isPrefixOf_iff_prefix]
    by_cases h : needle.isPrefixOf (b :: text) <;> simp [h, ih]

end Bytes

end SiteConfig
