import ShmMultiproc.Fifo
/-!
# TakeEnds — when `Take(cb, max, 0)` returns

`consumeItem` answers `kConsumeContinue` on a CONSUMED slot without looking at `max`, so a loop that meets neither a
CLEANED slot nor enough INIT ones goes round for ever: the producer is the only one who makes a CLEANED slot.
`take_returns_iff` is the exact condition, for every state of a ring.
-/
namespace Shm

open Cyclic (wrap wrap_lt wrap_of_lt wrap_wrap wrap_succ_add_mod)
open RingBuffer

variable {α : Type} {r : RingBuffer α}

/-- What `Take` needs to find: a CLEANED slot, or INIT slots up to `max` (one of them even for `max = 0`). -/
def CanEnd (r : RingBuffer α) (max : Int) (counter : Nat) : Prop :=
  0 < r.countStatus .cleaned ∨
    (0 ≤ max ∧ 1 ≤ r.countStatus .init ∧ max ≤ (counter + r.countStatus .init : Nat))

instance (r : RingBuffer α) (max : Int) (counter : Nat) : Decidable (CanEnd r max counter) :=
  inferInstanceAs (Decidable (_ ∨ _))

theorem countStatus_callDone {i : Nat} (h : r.statusAt i = some .init) :
    (r.setStatus i .consumed).countStatus .cleaned = r.countStatus .cleaned ∧
      (r.setStatus i .consumed).countStatus .init + 1 = r.countStatus .init := by
  have h1 := countStatus_setStatus h .consumed .cleaned
  have h2 := countStatus_setStatus h .consumed .init
  simp at h1 h2
  exact ⟨h1, h2⟩

theorem takeLoop_wrap (cb : Callback α) (max : Int) (fuel counter : Nat) (r : RingBuffer α) :
    takeLoop cb max fuel counter { r with consumeIdx := wrap r.size r.consumeIdx } =
      takeLoop cb max fuel counter r := by
  have hc : consumeItem cb max counter { r with consumeIdx := wrap r.size r.consumeIdx } =
      consumeItem cb max counter r := by
    unfold consumeItem
    simp only [size_mk, wrap_wrap, statusAt_mk]
    rfl
  cases fuel with
  | zero => rfl
  | succ fuel => simp only [takeLoop, hc]

theorem takeLoop_cont {cb : Callback α} {max : Int} {counter counter' : Nat} {r' : RingBuffer α}
    {given : List (Option α)} (h : consumeItem cb max counter r = .ok ⟨.cont, r', counter', given⟩) (fuel : Nat) :
    takeLoop cb max (fuel + 1) counter r =
      (takeLoop cb max fuel counter' r').map (fun t => ⟨t.count, t.ring, given ++ t.items⟩) := by
  simp only [takeLoop, h]
  cases takeLoop cb max fuel counter' r' <;> rfl

theorem takeLoop_skip (cb : Callback α) (max : Int) (counter : Nat) : ∀ (d : Nat) (r : RingBuffer α), 0 < r.size →
    r.statusAt ((wrap r.size r.consumeIdx + d) % r.size) ≠ some .consumed →
    ∃ k i, i < r.size ∧ r.statusAt i ≠ some .consumed ∧ ∀ fuel,
      takeLoop cb max (fuel + k) counter r = takeLoop cb max fuel counter { r with consumeIdx := i }
  | 0, r, hN, h => by
    have hlt := wrap_lt hN r.consumeIdx
    rw [Nat.add_zero, Nat.mod_eq_of_lt hlt] at h
    exact ⟨0, wrap r.size r.consumeIdx, hlt, h, fun fuel => (takeLoop_wrap cb max fuel counter r).symm⟩
  | d + 1, r, hN, h => by
    have hlt := wrap_lt hN r.consumeIdx
    by_cases hc : r.statusAt (wrap r.size r.consumeIdx) = some .consumed
    · have hmod : (wrap r.size (wrap r.size r.consumeIdx + 1) + d) % r.size =
          (wrap r.size r.consumeIdx + (d + 1)) % r.size := wrap_succ_add_mod hlt d
      obtain ⟨k, i, hi, hs, hk⟩ := takeLoop_skip cb max counter d
        { r with consumeIdx := wrap r.size r.consumeIdx + 1 } hN (by
          simp only [size_mk, statusAt_mk]; rw [hmod]; exact h)
      refine ⟨k + 1, i, hi, hs, fun fuel => ?_⟩
      rw [← Nat.add_assoc, takeLoop_cont (consumeItem_consumed cb max counter hc), hk fuel]
      cases takeLoop cb max fuel counter { r with consumeIdx := i } <;> rfl
    · exact ⟨0, wrap r.size r.consumeIdx, hlt, hc, fun fuel => (takeLoop_wrap cb max fuel counter r).symm⟩

theorem takeLoop_stop {cb : Callback α} {max : Int} {counter : Nat} {c : Consumed α}
    (h : consumeItem cb max counter r = .ok c) (hc : c.code ≠ .cont) (fuel : Nat) :
    takeLoop cb max (fuel + 1) counter r = .ok ⟨c.counter, c.ring, c.given⟩ := by
  simp only [takeLoop, h]
  cases hcode : c.code with
  | fail => rfl
  | exit => rfl
  | cont => exact absurd hcode hc

theorem CanEnd.exists_slot {max : Int} {counter : Nat} (h : CanEnd r max counter) :
    ∃ j, r.statusAt j ≠ some .consumed ∧ j < r.size := by
  have key : ∀ {st : Status}, st ≠ .consumed → 0 < r.countStatus st → ∃ j, r.statusAt j ≠ some .consumed ∧ j < r.size := by
    intro st hne hpos
    obtain ⟨j, hj⟩ := countStatus_pos.1 hpos
    exact ⟨j, by rw [hj]; simpa using hne, lt_of_statusAt hj⟩
  rcases h with h | ⟨-, h, -⟩
  · exact key (by simp) h
  · exact key (by simp) h

/-- **Enough slots end the loop**, by induction on the INIT slots left: between two deliveries the loop steps over
CONSUMED slots, and a CLEANED slot ends it at once. -/
theorem takeLoop_ends (max : Int) (m : Nat) : ∀ (counter : Nat) (r : RingBuffer α), r.countStatus .init = m →
    CanEnd r max counter → ∃ fuel t, takeLoop callDone max fuel counter r = .ok t := by
  induction m using Nat.strongRecOn with
  | _ m ih =>
    intro counter r hm hend
    obtain ⟨j, hj, hjN⟩ := hend.exists_slot
    have hN : 0 < r.size := Nat.lt_of_le_of_lt (Nat.zero_le j) hjN
    have hlt := wrap_lt hN r.consumeIdx
    obtain ⟨k, i, hi, hs, hskip⟩ := takeLoop_skip callDone max counter (j + (r.size - wrap r.size r.consumeIdx)) r hN
      (by rw [show wrap r.size r.consumeIdx + (j + (r.size - wrap r.size r.consumeIdx)) = j + r.size by omega,
            Nat.add_mod_right, Nat.mod_eq_of_lt hjN]
          exact hj)
    have hw : wrap r.size i = i := wrap_of_lt hi
    obtain ⟨st, hst⟩ := exists_statusAt hi
    have hst' : ({ r with consumeIdx := i } : RingBuffer α).statusAt (wrap r.size i) = some st := by rw [hw]; exact hst
    cases st with
    | consumed => exact absurd hst hs
    | cleaned =>
      have hc := consumeItem_cleaned (r := { r with consumeIdx := i }) callDone max counter hst'
      exact ⟨1 + k, _, by rw [hskip]; exact takeLoop_stop hc (by simp) 0⟩
    | init =>
      have hc := consumeItem_callDone (r := { r with consumeIdx := i }) max counter hst'
      by_cases hexit : 0 ≤ max ∧ max ≤ (counter : Int) + 1
      · rw [if_pos hexit] at hc
        exact ⟨1 + k, _, by rw [hskip]; exact takeLoop_stop hc (by simp) 0⟩
      · rw [if_neg hexit] at hc
        simp only [size_mk, hw] at hc
        obtain ⟨hcl, hin⟩ := countStatus_callDone hst
        obtain ⟨fuel, t, ht⟩ := ih (m - 1) (by omega) (counter + 1)
          { r.setStatus i .consumed with consumeIdx := i + 1 } (by rw [countStatus_mk]; omega) (by
            rcases hend with h | ⟨h0, h1, h2⟩
            · exact .inl (by rw [countStatus_mk, hcl]; exact h)
            · refine .inr ⟨h0, ?_, ?_⟩ <;> rw [countStatus_mk] <;> omega)
        have hrun := congrArg (Except.map (fun t : Taken α => (⟨t.count, t.ring, [r.get i] ++ t.items⟩ : Taken α))) ht
        refine ⟨fuel + 1 + k, ⟨t.count, t.ring, [r.get i] ++ t.items⟩, ?_⟩
        rw [hskip, takeLoop_cont hc]
        exact hrun

/-- **Without them it never ends**: every iteration answers `kConsumeContinue`. -/
theorem takeLoop_running (max : Int) : ∀ (fuel counter : Nat) (r : RingBuffer α), 0 < r.size →
    ¬ CanEnd r max counter → takeLoop callDone max fuel counter r = .error .running
  | 0, _, _, _, _ => rfl
  | fuel + 1, counter, r, hN, hend => by
    obtain ⟨st, hst⟩ := exists_statusAt (wrap_lt hN r.consumeIdx)
    have hnc : r.countStatus .cleaned = 0 := Nat.eq_zero_of_not_pos (fun h => hend (.inl h))
    cases st with
    | cleaned => exact absurd (countStatus_pos.2 ⟨_, hst⟩) (by omega)
    | consumed =>
      have hrest := takeLoop_running max fuel counter { r with consumeIdx := wrap r.size r.consumeIdx + 1 } hN hend
      rw [takeLoop_cont (consumeItem_consumed callDone max counter hst), hrest]
      rfl
    | init =>
      have hpos := countStatus_pos.2 ⟨_, hst⟩
      obtain ⟨hcl, hin⟩ := countStatus_callDone hst
      have hexit : ¬ (0 ≤ max ∧ max ≤ (counter : Int) + 1) := fun ⟨h0, h1⟩ => hend (.inr ⟨h0, hpos, by omega⟩)
      have hc := consumeItem_callDone max counter hst
      rw [if_neg hexit] at hc
      have hrest := takeLoop_running max fuel (counter + 1)
        { (r.setStatus (wrap r.size r.consumeIdx) .consumed) with consumeIdx := wrap r.size r.consumeIdx + 1 }
        (by simpa using hN) (by
          rintro (h | ⟨h0, h1, h2⟩)
          · rw [countStatus_mk] at h; omega
          · rw [countStatus_mk] at h1 h2
            exact hend (.inr ⟨h0, by omega, by omega⟩))
      rw [takeLoop_cont hc, hrest]
      rfl

theorem takeLoop_empty (max : Int) (counter : Nat) (h : r.size = 0) :
    takeLoop callDone max 1 counter r = .ok ⟨counter, { r with consumeIdx := 0 }, []⟩ :=
  takeLoop_stop (consumeItem_empty callDone max counter h) (by simp) 0

/-- **`Take(cb, max, 0)` returns exactly when** the ring has no slots, or a CLEANED slot, or `max` INIT slots. -/
theorem take_returns_iff (r : RingBuffer α) (max : Int) :
    (∃ fuel t, take callDone max fuel r = .ok t) ↔ r.size = 0 ∨ CanEnd r max 0 := by
  constructor
  · rintro ⟨fuel, t, ht⟩
    by_contra hno
    obtain ⟨hN, hend⟩ := not_or.1 hno
    rw [take, takeLoop_running max fuel 0 r (Nat.pos_of_ne_zero hN) hend] at ht
    cases ht
  · rintro (h | h)
    · exact ⟨1, _, takeLoop_empty max 0 h⟩
    · exact takeLoop_ends max _ 0 r rfl h

/-- **A full ring hangs its reader**: one offer to a ring of one slot, and `Take(cb, -1, 0)` delivers it and never
returns; `Take(cb, 1, 0)` returns once, and the second call never does. -/
theorem full_ring_hangs : ∃ o, offer 7 (openWrite none 1 true) = .ok o ∧ o.code = 0 ∧
    (∀ fuel t, take callDone (-1) fuel o.ring ≠ .ok t) ∧
    ∃ t, take callDone 1 1 o.ring = .ok t ∧ t.count = 1 ∧ ∀ fuel t', take callDone 1 fuel t.ring ≠ .ok t' := by
  refine ⟨_, rfl, rfl, fun fuel t => ?_, _, rfl, rfl, fun fuel t => ?_⟩
  · rw [take, takeLoop_running (-1) fuel 0 _ (by decide) (by decide)]
    simp
  · rw [take, takeLoop_running 1 fuel 0 _ (by decide) (by decide)]
    simp

end Shm
