import ShmMultiproc.RingInv
/-!
# OpenEnds — when `OpenRead` returns

The cursor of the scan goes back to `0` at the end of the ring, but `consume_idx` rests there until the next
`consumeItem`.  A scan from inside the ring never meets an index that rests at its end, and only an INIT slot stops it:
a reader that took the last slot and marked everything done cannot be restarted.  `open_ends_iff` is the exact
condition, for every state of every run.
-/
namespace Shm

open Cyclic (wrap wrap_lt wrap_succ_add_mod exists_window)
open RingBuffer
open Machine (Reach)

variable {α : Type} {r : RingBuffer α}

/-- `consume_idx` rests at the end of the ring, `cleaned_idx` does not, and no slot is INIT. -/
def RestsAtEnd (r : RingBuffer α) : Prop :=
  r.consumeIdx = r.size ∧ r.cleanedIdx < r.size ∧ r.countStatus .init = 0

instance (r : RingBuffer α) : Decidable (RestsAtEnd r) := inferInstanceAs (Decidable (_ ∧ _))

/-- **The scan stops** at the first slot that `consume_idx` points to or that is INIT, `d` slots on at most. -/
theorem openReadLoop_stops : ∀ (fuel d idx : Nat), d < fuel → idx < r.size →
    ((idx + d) % r.size = r.consumeIdx ∨ r.statusAt ((idx + d) % r.size) = some .init) →
    ∃ r', openReadLoop fuel idx r = .ok r'
  | 0, d, _, hd, _, _ => absurd hd (Nat.not_lt_zero d)
  | fuel + 1, d, idx, hd, hidx, hstop => by
    unfold openReadLoop
    by_cases hc : idx = r.consumeIdx
    · exact ⟨r, if_pos hc⟩
    · rw [if_neg hc]
      obtain ⟨st, hst⟩ := exists_statusAt hidx
      have hnext : st ≠ .init → ∃ r', openReadLoop fuel (wrap r.size (idx + 1)) r = .ok r' := by
        intro hni
        cases d with
        | zero =>
          rw [Nat.add_zero, Nat.mod_eq_of_lt hidx, hst] at hstop
          rcases hstop with h | h
          · exact absurd h hc
          · cases h; exact absurd rfl hni
        | succ d =>
          refine openReadLoop_stops fuel d _ (by omega) (wrap_lt (by omega) _) ?_
          rw [wrap_succ_add_mod hidx]
          exact hstop
      rw [hst]
      cases st with
      | init => exact ⟨_, rfl⟩
      | consumed => exact hnext (by decide)
      | cleaned => exact hnext (by decide)

/-- **Without such a slot it never stops**: the cursor goes round inside the ring. -/
theorem openReadLoop_running (hc : r.size ≤ r.consumeIdx) (hi : ∀ i, r.statusAt i ≠ some .init) :
    ∀ (fuel idx : Nat), idx < r.size → openReadLoop fuel idx r = .error .running
  | 0, _, _ => rfl
  | fuel + 1, idx, hidx => by
    have hnext := openReadLoop_running hc hi fuel (wrap r.size (idx + 1)) (wrap_lt (by omega) _)
    unfold openReadLoop
    rw [if_neg (by omega)]
    obtain ⟨st, hst⟩ := exists_statusAt hidx
    rw [hst]
    cases st with
    | init => exact absurd hst (hi idx)
    | consumed => exact hnext
    | cleaned => exact hnext

theorem openRead_of_loop {fuel : Nat} {r' : RingBuffer α} (h : openReadLoop fuel r.cleanedIdx r = .ok r') :
    openRead fuel (some r) = .ok (0, some r') := by
  unfold openRead
  simp only [h]

theorem openRead_of_error {fuel : Nat} {e : Fault} (h : openReadLoop fuel r.cleanedIdx r = .error e) :
    openRead fuel (some r) = .error e := by
  unfold openRead
  simp only [h]

theorem openRead_returns (hle : r.consumeIdx ≤ r.size) (hlt : r.cleanedIdx < r.size) (h : ¬ RestsAtEnd r) :
    ∃ r', openRead r.size (some r) = .ok (0, some r') := by
  have hstop : ∃ i < r.size, i = r.consumeIdx ∨ r.statusAt i = some .init := by
    rcases Nat.lt_or_ge r.consumeIdx r.size with hc | hc
    · exact ⟨_, hc, .inl rfl⟩
    · have hpos : 0 < r.countStatus .init := Nat.pos_of_ne_zero (fun h0 => h ⟨Nat.le_antisymm hle hc, hlt, h0⟩)
      obtain ⟨i, hi⟩ := countStatus_pos.1 hpos
      exact ⟨i, lt_of_statusAt hi, .inr hi⟩
  obtain ⟨i, hi, hstop⟩ := hstop
  obtain ⟨k, hk, hk', rfl⟩ := exists_window r.cleanedIdx hi
  obtain ⟨r', hr'⟩ := openReadLoop_stops (r := r) r.size (k - r.cleanedIdx) r.cleanedIdx (by omega) hlt
    (by rw [show r.cleanedIdx + (k - r.cleanedIdx) = k by omega]; exact hstop)
  exact ⟨r', openRead_of_loop hr'⟩

theorem openRead_running (h : RestsAtEnd r) (fuel : Nat) : openRead fuel (some r) = .error .running := by
  obtain ⟨hc, hlt, h0⟩ := h
  refine openRead_of_error (openReadLoop_running (Nat.le_of_eq hc.symm) (fun i hi => ?_) fuel _ hlt)
  have := countStatus_pos.2 ⟨i, hi⟩
  omega

/-- A scan from the end of the ring, in the middle of an `Offer`: it is over at once, or `data->at` throws. -/
theorem openRead_from_end (hN : 0 < r.size) (hge : r.size ≤ r.cleanedIdx) :
    openRead r.size (some r) ≠ .error .running := by
  obtain ⟨n, hn⟩ := Nat.exists_eq_add_one_of_ne_zero (Nat.ne_of_gt hN)
  by_cases hc : r.cleanedIdx = r.consumeIdx
  · have hl : openReadLoop r.size r.cleanedIdx r = .ok r := by
      rw [hn]
      exact if_pos hc
    rw [openRead_of_loop hl]
    simp
  · have hnone : r.statusAt r.cleanedIdx = none := by
      cases hst : r.statusAt r.cleanedIdx with
      | none => rfl
      | some st => exact absurd (lt_of_statusAt hst) (by omega)
    have hl : openReadLoop r.size r.cleanedIdx r = .error .outOfRange := by
      rw [hn]
      unfold openReadLoop
      rw [if_neg hc, hnone]
    rw [openRead_of_error hl]
    simp

/-- **`OpenRead` ends exactly when** `consume_idx` does not rest past slots none of which is INIT: then within `N`
iterations, and otherwise never.  Between two calls of `Offer` it ends by returning. -/
theorem open_ends_iff (N : Nat) (hN : 0 < N) (s : St α) (h : Reach step Machine.anyStep (St.start α N) s) :
    (openRead N (some s.ring) ≠ .error .running ↔ ¬ RestsAtEnd s.ring) ∧
    (RestsAtEnd s.ring → ∀ fuel, openRead fuel (some s.ring) = .error .running) ∧
    (s.prod = .idle → ¬ RestsAtEnd s.ring → ∃ r', openRead N (some s.ring) = .ok (0, some r')) := by
  have hinv := ringInv_reach hN h
  have hsize : s.ring.size = N := hinv.window.size
  have hle : s.ring.consumeIdx ≤ s.ring.size := by rw [hsize]; exact hinv.consumeLe
  refine ⟨⟨fun hne hr => hne (openRead_running hr N), fun hr => ?_⟩, openRead_running, fun hidle hr => ?_⟩
  · rw [← hsize]
    rcases Nat.lt_or_ge s.ring.cleanedIdx s.ring.size with hlt | hge
    · obtain ⟨r', hr'⟩ := openRead_returns hle hlt hr
      rw [hr']
      simp
    · exact openRead_from_end (by omega) hge
  · have hlt : s.ring.cleanedIdx < N := hinv.cleanedLt (by rw [hidle]; rfl)
    rw [← hsize]
    exact openRead_returns hle (by omega) hr

/-- A ring of two, filled and taken; only the second callback has called its `done`. -/
def takenHalfDone : List (Act Nat) :=
  offering 7 8 ++ offering 8 8 ++ reading 11 ++ [.doneTest 1, .doneStore]

theorem open_ends_iff_two : ∃ s, Machine.exec step Machine.anyStep (St.start Nat 2) takenHalfDone = some s ∧
    s.ring.consumeIdx = 2 ∧ ∃ r', openRead 2 (some s.ring) = .ok (0, some r') := by
  refine ⟨_, rfl, rfl, ?_⟩
  exact (open_ends_iff 2 (by decide) _ (Machine.reach_of_exec _ _ takenHalfDone _ rfl)).2.2 rfl (by decide)

/-- The same, but both callbacks have called their `done`. -/
def takenAllDone : List (Act Nat) :=
  offering 7 8 ++ offering 8 8 ++ reading 5 ++ [.doneTest 0, .doneStore] ++ reading 6 ++ [.doneTest 1, .doneStore]

/-- **A reader restarted after it took everything hangs**: two offers to a ring of two, `Take(cb, 2, 0)`, and the next
`OpenRead` never ends. -/
theorem restarted_scan_hangs : ∃ s o o' t, Machine.exec step Machine.anyStep (St.start Nat 2) takenAllDone = some s ∧
    s.prod = .idle ∧ offer 7 (openWrite none 2 true) = .ok o ∧ offer 8 o.ring = .ok o' ∧
    take callDone 2 2 o'.ring = .ok t ∧ t.ring = s.ring ∧ ∀ fuel, openRead fuel (some s.ring) = .error .running :=
  ⟨_, _, _, _, rfl, rfl, rfl, rfl, rfl, rfl, openRead_running (by decide)⟩

end Shm
