import Mathlib.Data.Int.ModEq
/-!
# Cyclic — counts on a cycle, seen through lazily wrapped indices

A position on a cycle of `N` slots is a count `k : Nat` that never wraps; an index `i` that is reset to `0` only when it
is next used stands for it (`Phase N i k`).  A window of at most `N` consecutive counts meets each slot once
(`window_inj`, `exists_window`).
-/
namespace Cyclic

/-- Wrap an index that has run off the cycle. -/
def wrap (N i : Nat) : Nat := if N ≤ i then 0 else i

/-- **The index `i` stands for the count `k`** on a cycle of `N` slots; `i = N` is the unwrapped `0`. -/
structure Phase (N i k : Nat) : Prop where
  le : i ≤ N
  mod : i % N = k % N

variable {N i j k c : Nat}

theorem wrap_lt (hN : 0 < N) (i : Nat) : wrap N i < N := by
  unfold wrap; split <;> omega

theorem wrap_of_lt (h : i < N) : wrap N i = i := by
  unfold wrap; rw [if_neg (by omega)]

theorem wrap_wrap (N i : Nat) : wrap N (wrap N i) = wrap N i := by
  unfold wrap
  by_cases h : N ≤ i
  · rw [if_pos h]; split <;> rfl
  · rw [if_neg h, if_neg h]

theorem wrap_succ_add_mod (h : i < N) (j : Nat) : (wrap N (i + 1) + j) % N = (i + (j + 1)) % N := by
  rw [Nat.add_comm j 1, ← Nat.add_assoc]
  unfold wrap
  by_cases hi : N ≤ i + 1
  · have hend : i + 1 = N := Nat.le_antisymm h hi
    rw [if_pos hi, hend, Nat.zero_add, Nat.add_mod_left]
  · rw [if_neg hi]

theorem Phase.eq_mod (h : Phase N i k) (hi : i < N) : i = k % N := by
  rw [← h.mod, Nat.mod_eq_of_lt hi]

theorem Phase.zero (N : Nat) : Phase N 0 0 := ⟨Nat.zero_le N, rfl⟩

theorem Phase.of_mod (hN : 0 < N) (k : Nat) : Phase N (k % N) k :=
  ⟨(Nat.mod_lt k hN).le, Nat.mod_mod k N⟩

theorem Phase.wrap (h : Phase N i k) : Cyclic.wrap N i = k % N := by
  unfold Cyclic.wrap
  split
  · have : i = N := le_antisymm h.le (by assumption)
    rw [← h.mod, this, Nat.mod_self]
  · exact h.eq_mod (by omega)

theorem Phase.wrapped (hN : 0 < N) (h : Phase N i k) : Phase N (Cyclic.wrap N i) k := by
  rw [h.wrap]; exact .of_mod hN k

theorem Phase.add (h : Phase N i k) (hij : i + j ≤ N) : Phase N (i + j) (k + j) :=
  ⟨hij, by rw [Nat.add_mod, h.mod, ← Nat.add_mod]⟩

theorem Phase.succ (h : Phase N i k) (hi : i < N) : Phase N (i + 1) (k + 1) := h.add hi

/-- Two indices of one count that differ are the two ends of the cycle. -/
theorem Phase.ends (h : Phase N i k) (h' : Phase N j k) (hne : i ≠ j) : i = 0 ∧ j = N ∨ i = N ∧ j = 0 := by
  have hmod : i % N = j % N := h.mod.trans h'.mod.symm
  rcases Nat.lt_or_eq_of_le h.le with hi | rfl
  · rw [Nat.mod_eq_of_lt hi] at hmod
    rcases Nat.lt_or_eq_of_le h'.le with hj | rfl
    · exact absurd (hmod.trans (Nat.mod_eq_of_lt hj)) hne
    · exact .inl ⟨hmod.trans (Nat.mod_self j), rfl⟩
  · rw [Nat.mod_self] at hmod
    rcases Nat.lt_or_eq_of_le h'.le with hj | rfl
    · exact .inr ⟨rfl, (hmod.trans (Nat.mod_eq_of_lt hj)).symm⟩
    · exact absurd rfl hne

/-- A window of `N` consecutive counts meets no slot twice. -/
theorem window_inj (hj : c ≤ j) (hj' : j < c + N) (hk : c ≤ k) (hk' : k < c + N) (h : j % N = k % N) : j = k := by
  have key : ∀ {a b : Nat}, a ≤ b → b < a + N → a % N = b % N → a = b := by
    intro a b hab hlt hm
    have hd : N ∣ b - a := (Nat.modEq_iff_dvd' hab).1 hm
    have := Nat.eq_zero_of_dvd_of_lt hd (by omega)
    omega
  rcases Nat.le_total j k with hjk | hkj
  · exact key hjk (by omega) h
  · exact (key hkj (by omega) h.symm).symm

/-- A window of `N` consecutive counts meets every slot. -/
theorem exists_window (c : Nat) (hi : i < N) : ∃ k, c ≤ k ∧ k < c + N ∧ k % N = i := by
  have hc := Nat.mod_add_div c N
  have hlt := Nat.mod_lt c (Nat.lt_of_le_of_lt (Nat.zero_le i) hi)
  have hmul : ∀ q : Nat, (i + N * q) % N = i := fun q => by rw [Nat.add_mul_mod_self_left, Nat.mod_eq_of_lt hi]
  rcases Nat.lt_or_ge i (c % N) with h | h
  · refine ⟨i + N * (c / N + 1), ?_, ?_, hmul _⟩ <;> rw [Nat.mul_add, Nat.mul_one] <;> omega
  · exact ⟨i + N * (c / N), by omega, by omega, hmul _⟩

end Cyclic
