import Mathlib.Data.List.AList
/-!
# Table — what a lookup says after one change

An `AList` with values of one type is a map of a program; a lookup that finds something after `insert` or `erase` found
it there before, or found what was just entered.
-/
namespace Table

variable {κ ν : Type*} [DecidableEq κ] {m : AList (fun _ : κ => ν)} {k k' : κ} {v v' : ν}

theorem lookup_insert_some :
    (m.insert k v).lookup k' = some v' ↔ (k' = k ∧ v' = v) ∨ (k' ≠ k ∧ m.lookup k' = some v') := by
  by_cases h : k' = k
  · subst h
    rw [AList.lookup_insert]
    constructor
    · intro e
      cases e
      exact .inl ⟨rfl, rfl⟩
    · rintro (⟨-, rfl⟩ | ⟨hne, -⟩)
      · rfl
      · exact absurd rfl hne
  · rw [AList.lookup_insert_ne h]
    constructor
    · intro e
      exact .inr ⟨h, e⟩
    · rintro (⟨he, -⟩ | ⟨-, e⟩)
      · exact absurd he h
      · exact e

theorem lookup_erase_some : (m.erase k).lookup k' = some v' ↔ k' ≠ k ∧ m.lookup k' = some v' := by
  by_cases h : k' = k
  · subst h
    rw [AList.lookup_erase]
    constructor
    · intro e
      cases e
    · rintro ⟨hne, -⟩
      exact absurd rfl hne
  · rw [AList.lookup_erase_ne h]
    constructor
    · intro e
      exact ⟨h, e⟩
    · rintro ⟨-, e⟩
      exact e

end Table
