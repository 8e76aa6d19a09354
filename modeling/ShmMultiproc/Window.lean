import ShmMultiproc.Fifo
/-!
# Window — what the slots hold

With `acc` the items accepted so far and `c` the number reclaimed, the counts `c ≤ k < acc.length` are the slots in use:
slot `k % N` holds item `k` and is INIT or CONSUMED.  The counts from `acc.length` up to `c + N` are the CLEANED slots.
A full ring and an empty one differ in the counts, not in the indices.  One lemma for each write the code makes on a
slot (`null`, `mark`, `store`, `publish`, `consume`), and from them what `tryCleanConsumedItems` and the rest of `Offer`
do (`tryCleanConsumedItems_spec`, `place_spec`).
-/
namespace Shm

open Cyclic (wrap Phase window_inj exists_window)
open RingBuffer

variable {α : Type}

/-- **The slots of a ring of `N`**: `nulled` says that the `val` of the oldest slot in use is already NULL, `pend` is the
`val` already stored in the first CLEANED slot. -/
structure Window (N : Nat) (r : RingBuffer α) (acc : List α) (c : Nat) (nulled : Bool) (pend : Option α) : Prop where
  size : r.size = N
  le : c ≤ acc.length
  ge : acc.length ≤ c + N
  occ : ∀ k, c ≤ k → k < acc.length → r.statusAt (k % N) = some .init ∨ r.statusAt (k % N) = some .consumed
  free : ∀ k, acc.length ≤ k → k < c + N → r.statusAt (k % N) = some .cleaned
  held : ∀ k, c ≤ k → k < acc.length →
    r.valAt (k % N) = some (if nulled = true ∧ k = c then none else acc[k]?)
  empty : ∀ k, acc.length ≤ k → k < c + N → r.valAt (k % N) = some (if k = acc.length then pend else none)

namespace Window

variable {N c k : Nat} {r r' : RingBuffer α} {acc : List α} {nulled : Bool} {pend : Option α} {v : α}

theorem fresh (N : Nat) : Window N (fresh α N) [] 0 false none where
  size := size_fresh N
  le := Nat.le_refl 0
  ge := Nat.zero_le _
  occ := fun k _ hk => absurd hk (Nat.not_lt_zero k)
  free := fun k _ hk => by
    rw [statusAt_fresh, if_pos (Nat.mod_lt k (by omega))]
  held := fun k _ hk => absurd hk (Nat.not_lt_zero k)
  empty := fun k _ hk => by
    rw [valAt_fresh, if_pos (Nat.mod_lt k (by omega))]; simp

theorem of_slots (h : Window N r acc c nulled pend) (hs : r'.slots = r.slots) : Window N r' acc c nulled pend where
  size := by rw [← h.size]; unfold RingBuffer.size; rw [hs]
  le := h.le
  ge := h.ge
  occ := fun k hk hk' => by rw [statusAt_congr hs]; exact h.occ k hk hk'
  free := fun k hk hk' => by rw [statusAt_congr hs]; exact h.free k hk hk'
  held := fun k hk hk' => by rw [valAt_congr hs]; exact h.held k hk hk'
  empty := fun k hk hk' => by rw [valAt_congr hs]; exact h.empty k hk hk'

theorem lt_of_not_cleaned (h : Window N r acc c nulled pend) (hk : k < c + N)
    (hs : r.statusAt (k % N) ≠ some .cleaned) : k < acc.length := by
  rcases Nat.lt_or_ge k acc.length with hlt | hge
  · exact hlt
  · exact absurd (h.free k hge hk) hs

theorem le_of_cleaned (h : Window N r acc c nulled pend) (hk : c ≤ k)
    (hs : r.statusAt (k % N) = some .cleaned) : acc.length ≤ k := by
  rcases Nat.lt_or_ge k acc.length with hlt | hge
  · rcases h.occ k hk hlt with hi | hi <;> rw [hs] at hi <;> cases hi
  · exact hge

theorem mod_ne (hj : c ≤ k) (hj' : k < c + N) {j : Nat} (hk : c ≤ j) (hk' : j < c + N) (hne : k ≠ j) : k % N ≠ j % N :=
  fun h => hne (window_inj hj hj' hk hk' h)

/-! ## The writes -/

theorem null (h : Window N r acc c false none) (hc : c < acc.length) :
    Window N (r.setVal (c % N) none) acc c true none where
  size := by rw [size_setVal, h.size]
  le := h.le
  ge := h.ge
  occ := fun k hk hk' => by rw [statusAt_setVal]; exact h.occ k hk hk'
  free := fun k hk hk' => by rw [statusAt_setVal]; exact h.free k hk hk'
  held := fun k hk hk' => by
    rw [valAt_setVal, h.held k hk hk']
    by_cases hkc : k = c
    · subst hkc; simp
    · rw [if_neg (mod_ne (Nat.le_refl c) (by have := h.ge; omega) hk (by have := h.ge; omega) (Ne.symm hkc))]
      simp [hkc]
  empty := fun k hk hk' => by
    rw [valAt_setVal, if_neg (mod_ne (Nat.le_refl c) (by omega) (by omega) hk' (by omega)), h.empty k hk hk']

theorem mark (h : Window N r acc c true none) (hc : c < acc.length) :
    Window N (r.setStatus (c % N) .cleaned) acc (c + 1) false none where
  size := by rw [size_setStatus, h.size]
  le := hc
  ge := by have := h.ge; omega
  occ := fun k hk hk' => by
    rw [statusAt_setStatus_ne r _ (mod_ne (Nat.le_refl c) (by have := h.ge; omega) (by omega) (by have := h.ge; omega)
      (by omega))]
    exact h.occ k (by omega) hk'
  free := fun k hk hk' => by
    by_cases hkc : k = c + N
    · subst hkc
      rw [Nat.add_mod_right]
      rcases h.occ c (Nat.le_refl c) hc with hi | hi <;> exact statusAt_setStatus_self _ hi
    · rw [statusAt_setStatus_ne r _ (mod_ne (Nat.le_refl c) (by omega) (by omega) (by omega) (by omega))]
      exact h.free k hk (by omega)
  held := fun k hk hk' => by
    rw [valAt_setStatus, h.held k (by omega) hk', if_neg (by omega)]
    simp
  empty := fun k hk hk' => by
    rw [valAt_setStatus]
    by_cases hkc : k = c + N
    · subst hkc
      rw [Nat.add_mod_right, h.held c (Nat.le_refl c) hc]
      simp
    · rw [h.empty k hk (by omega)]

theorem store (h : Window N r acc c false none) (hp : acc.length < c + N) (v : α) :
    Window N (r.setVal (acc.length % N) (some v)) acc c false (some v) where
  size := by rw [size_setVal, h.size]
  le := h.le
  ge := h.ge
  occ := fun k hk hk' => by rw [statusAt_setVal]; exact h.occ k hk hk'
  free := fun k hk hk' => by rw [statusAt_setVal]; exact h.free k hk hk'
  held := fun k hk hk' => by
    rw [valAt_setVal, if_neg (mod_ne h.le hp hk (by omega) (by omega)), h.held k hk hk']
  empty := fun k hk hk' => by
    have hle := h.le
    rw [valAt_setVal, h.empty k hk hk']
    by_cases hkp : k = acc.length
    · subst hkp; simp
    · rw [if_neg (mod_ne hle hp (by omega) hk' (Ne.symm hkp)), if_neg hkp, if_neg hkp]

theorem publish (h : Window N r acc c false (some v)) (hp : acc.length < c + N) :
    Window N (r.setStatus (acc.length % N) .init) (acc ++ [v]) c false none where
  size := by rw [size_setStatus, h.size]
  le := by have := h.le; simp; omega
  ge := by simp; omega
  occ := fun k hk hk' => by
    simp only [List.length_append, List.length_singleton] at hk'
    by_cases hkp : k = acc.length
    · subst hkp
      exact .inl (statusAt_setStatus_self _ (h.free _ (Nat.le_refl _) hp))
    · rw [statusAt_setStatus_ne r _ (mod_ne h.le hp hk (by omega) (Ne.symm hkp))]
      exact h.occ k hk (by omega)
  free := fun k hk hk' => by
    simp only [List.length_append, List.length_singleton] at hk
    have hle := h.le
    rw [statusAt_setStatus_ne r _ (mod_ne hle hp (by omega) hk' (by omega))]
    exact h.free k (by omega) hk'
  held := fun k hk hk' => by
    simp only [List.length_append, List.length_singleton] at hk'
    rw [valAt_setStatus]
    by_cases hkp : k = acc.length
    · subst hkp
      rw [h.empty _ (Nat.le_refl _) hp]
      simp
    · rw [h.held k hk (by omega), List.getElem?_append_left (by omega)]
  empty := fun k hk hk' => by
    simp only [List.length_append, List.length_singleton] at hk
    rw [valAt_setStatus, h.empty k (by omega) hk', if_neg (by omega)]
    simp

theorem consume (h : Window N r acc c nulled pend) (hk : c ≤ k) (hk' : k < acc.length) :
    Window N (r.setStatus (k % N) .consumed) acc c nulled pend where
  size := by rw [size_setStatus, h.size]
  le := h.le
  ge := h.ge
  occ := fun j hj hj' => by
    rw [statusAt_setStatus]
    split
    · rename_i he
      rcases h.occ j hj hj' with hs | hs <;> rw [hs] <;> simp
    · exact h.occ j hj hj'
  free := fun j hj hj' => by
    rw [statusAt_setStatus_ne r _ (mod_ne hk (by have := h.ge; omega) (by omega) hj' (by omega))]
    exact h.free j hj hj'
  held := fun j hj hj' => by rw [valAt_setStatus]; exact h.held j hj hj'
  empty := fun j hj hj' => by rw [valAt_setStatus]; exact h.empty j hj hj'

theorem exists_count (h : Window N r acc c nulled pend) {i : Nat} {st : Status} (hs : r.statusAt i = some st)
    (hst : st ≠ .cleaned) : ∃ k, c ≤ k ∧ k < acc.length ∧ k % N = i := by
  have hi := lt_of_statusAt hs
  rw [h.size] at hi
  obtain ⟨k, hk, hk', rfl⟩ := exists_window c hi
  exact ⟨k, hk, h.lt_of_not_cleaned hk' (by rw [hs]; simpa using hst), rfl⟩

theorem get_eq (h : Window N r acc c false pend) (hk : c ≤ k) (hk' : k < acc.length) : r.get (k % N) = acc[k]? := by
  unfold RingBuffer.get
  rw [h.held k hk hk']
  simp

end Window

/-! ## The two halves of `Offer` -/

variable {N c : Nat} {r : RingBuffer α} {acc : List α}

/-- **What the clean loop reclaims**: the maximal run of CONSUMED slots at the old end, oldest first. -/
structure Cleaned (N : Nat) (r : RingBuffer α) (acc : List α) (c n : Nat) (r' : RingBuffer α) : Prop where
  window : Window N r' acc (c + n) false none
  phase : Phase N r'.cleanedIdx (c + n)
  lt : r'.cleanedIdx < N
  produceIdx : r'.produceIdx = r.produceIdx
  consumeIdx : r'.consumeIdx = r.consumeIdx
  run : ∀ k, c ≤ k → k < c + n → r.statusAt (k % N) = some .consumed
  stop : c + n < acc.length → r.statusAt ((c + n) % N) = some .init
  rest : ∀ k, c + n ≤ k → k < c + N → r'.statusAt (k % N) = r.statusAt (k % N)

theorem cleanPass_stop (hw : Window N r acc c false none) (hp : Phase N r.cleanedIdx c)
    (hs : r.statusAt (c % N) ≠ some .consumed) (hN : 0 < N) :
    cleanPass r = .ok (.stop { r with cleanedIdx := c % N }) := by
  unfold cleanPass
  simp only [hw.size, hp.wrap]
  obtain ⟨st, hst⟩ := exists_statusAt (show c % N < r.size by rw [hw.size]; exact Nat.mod_lt c hN)
  rw [hst] at hs ⊢
  cases st with
  | consumed => exact absurd rfl hs
  | init => rfl
  | cleaned => rfl

theorem cleanPass_consumed (hw : Window N r acc c false none) (hp : Phase N r.cleanedIdx c)
    (hs : r.statusAt (c % N) = some .consumed) :
    cleanPass r = .ok (.again { (r.setVal (c % N) none).setStatus (c % N) .cleaned with cleanedIdx := c % N + 1 }
      (r.get (c % N))) := by
  unfold cleanPass
  simp only [hw.size, hp.wrap, hs]

theorem cleanLoop_spec (hN : 0 < N) : ∀ (fuel : Nat) (r : RingBuffer α) (c : Nat), Window N r acc c false none →
    Phase N r.cleanedIdx c → acc.length - c < fuel →
    ∃ n r', cleanLoop fuel r = .ok (r', ((acc.drop c).take n).map some) ∧ Cleaned N r acc c n r'
  | 0, _, _, _, _, hf => absurd hf (Nat.not_lt_zero _)
  | fuel + 1, r, c, hw, hp, hf => by
    by_cases hs : r.statusAt (c % N) = some .consumed
    · have hc : c < acc.length := hw.lt_of_not_cleaned (by omega) (by rw [hs]; simp)
      have hcN : c % N < N := Nat.mod_lt c hN
      have hw' := (hw.null hc).mark hc
      obtain ⟨n, r', hr', hcl⟩ := cleanLoop_spec hN fuel
        { (r.setVal (c % N) none).setStatus (c % N) .cleaned with cleanedIdx := c % N + 1 } (c + 1)
        (hw'.of_slots rfl) ((Phase.of_mod hN c).succ hcN) (by omega)
      refine ⟨n + 1, r', ?_, ?_⟩
      · unfold cleanLoop
        rw [cleanPass_consumed hw hp hs]
        simp only [hr', hw.get_eq (Nat.le_refl c) hc]
        rw [List.drop_eq_getElem_cons hc, List.take_succ_cons, List.map_cons, List.getElem?_eq_getElem hc]
      · have hsame : ∀ k, c + 1 ≤ k → k < c + N →
            ((r.setVal (c % N) none).setStatus (c % N) .cleaned).statusAt (k % N) = r.statusAt (k % N) := by
          intro k hk hk'
          rw [statusAt_setStatus_ne _ _ (Window.mod_ne (Nat.le_refl c) (by omega) (by omega) hk' (by omega)),
            statusAt_setVal]
        have hge := hw.ge
        refine ⟨by rw [show c + (n + 1) = c + 1 + n by omega]; exact hcl.window,
          by rw [show c + (n + 1) = c + 1 + n by omega]; exact hcl.phase, hcl.lt, hcl.produceIdx, hcl.consumeIdx,
          fun k hk hk' => ?_, fun hlt => ?_, fun k hk hk' => ?_⟩
        · by_cases hkc : k = c
          · rw [hkc]; exact hs
          · have hle := hcl.window.le
            rw [← hsame k (by omega) (by omega)]
            exact hcl.run k (by omega) (by omega)
        · rw [show c + (n + 1) = c + 1 + n by omega] at hlt ⊢
          rw [← hsame (c + 1 + n) (by omega) (by omega)]
          exact hcl.stop hlt
        · rw [hcl.rest k (by omega) (by omega)]
          exact hsame k (by omega) hk'
    · refine ⟨0, { r with cleanedIdx := c % N }, ?_, ?_⟩
      · unfold cleanLoop
        rw [cleanPass_stop hw hp hs hN]
        simp
      · refine ⟨hw.of_slots rfl, .of_mod hN c, Nat.mod_lt c hN, rfl, rfl, fun k hk hk' => by omega, fun hlt => ?_,
          fun k _ _ => rfl⟩
        rcases hw.occ c (Nat.le_refl c) hlt with h | h
        · exact h
        · exact absurd h hs

/-- **`tryCleanConsumedItems` returns**, having dropped each item of the maximal run of CONSUMED slots once. -/
theorem tryCleanConsumedItems_spec (hN : 0 < N) (hw : Window N r acc c false none) (hp : Phase N r.cleanedIdx c) :
    ∃ n r', tryCleanConsumedItems r = .ok (r', ((acc.drop c).take n).map some) ∧ Cleaned N r acc c n r' :=
  cleanLoop_spec hN (r.size + 1) r c hw hp (by have := hw.ge; rw [hw.size]; omega)

theorem place_accepts (hw : Window N r acc c false none) (hp : Phase N r.produceIdx acc.length)
    (hlt : acc.length < c + N) (v : α) :
    place v r = .ok ({ (r.setVal (acc.length % N) (some v)).setStatus (acc.length % N) .init with
      produceIdx := acc.length % N + 1 }, 0) := by
  unfold place
  simp only [hw.size, hp.wrap, hw.free acc.length (Nat.le_refl _) hlt]

theorem place_refuses (hw : Window N r acc c false none) (hp : Phase N r.produceIdx acc.length)
    (hge : c + N ≤ acc.length) (hN : 0 < N) (v : α) :
    place v r = .ok ({ r with produceIdx := acc.length % N }, errOverload) := by
  have hlen : acc.length = c + N := Nat.le_antisymm hw.ge hge
  unfold place
  simp only [hw.size, hp.wrap]
  have hmod : acc.length % N = c % N := by rw [hlen, Nat.add_mod_right]
  rw [hmod]
  rcases hw.occ c (Nat.le_refl c) (by omega) with h | h <;> rw [h]

end Shm
