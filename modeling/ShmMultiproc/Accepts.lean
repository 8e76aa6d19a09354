import ShmMultiproc.Restart
/-!
# Accepts — when `Offer` accepts, with closures called in any order

`Offer` decides on the status of one slot after its clean loop.  In every state between two calls that status says
whether fewer than `N` items have been accepted from the oldest one on that is not done (`offer_accepts_iff`): the items
done behind it cost room until it is done too.  `offer_alone` says that the whole call is what the producer's accesses
come to when nothing runs between them.
-/
namespace Shm

open Cyclic (wrap Phase exists_window)
open Machine (Reach)
open RingBuffer

variable {α : Type}

/-! ## The oldest item that is not done -/

/-- The number of the oldest accepted item that no closure has marked, or of the next item when there is none. -/
def Hist.oldest (hi : Hist α) : Nat := hi.unmarked.head?.getD hi.accepted.length

theorem Hist.oldest_eq {hi : Hist α} {m : Nat} (hle : m ≤ hi.accepted.length) (hold : ∀ k < m, k ∈ hi.marked)
    (hm : m < hi.accepted.length → m ∉ hi.marked) : hi.oldest = m := by
  unfold Hist.oldest
  rw [hi.unmarked_eq_range' m (fun k hk _ => hold k hk)]
  rcases Nat.lt_or_ge m hi.accepted.length with hlt | hge
  · rw [show hi.accepted.length - m = (hi.accepted.length - m - 1) + 1 by omega, List.range'_succ,
      List.filter_cons_of_pos (by simpa using hm hlt)]
    rfl
  · rw [Nat.sub_eq_zero_of_le hge]
    exact Nat.le_antisymm hge hle

variable {N : Nat} {s : St α}

theorem RingInv.oldest_of_cleaned (h : RingInv N s) {n : Nat} {r' : RingBuffer α}
    (hcl : Cleaned N s.ring s.hist.accepted s.hist.cleaned n r') : s.hist.oldest = s.hist.cleaned + n := by
  have hle := hcl.window.le
  refine Hist.oldest_eq hle (fun k hk => ?_) (fun hlt => ?_)
  · rcases Nat.lt_or_ge k s.hist.cleaned with hc | hc
    · exact h.markedOld k hc
    · exact (h.markedIn k hc (by omega)).2 (hcl.run k hc hk)
  · rw [h.markedIn _ (Nat.le_add_right _ _) hlt, hcl.stop hlt]
    simp

/-! ## One call -/

/-- **What `Offer(v)` answers and leaves**: it drops one reference of each item done at the old end, and `oldest` is the
first one it keeps. -/
structure OfferOutcome (N : Nat) (s : St α) (v : α) (o : Offered α) : Prop where
  cleaned : s.hist.cleaned ≤ s.hist.oldest
  dropped : o.dropped = ((s.hist.accepted.drop s.hist.cleaned).take (s.hist.oldest - s.hist.cleaned)).map some
  atMost : o.dropped.length ≤ N
  accepts : o.code = 0 ↔ s.hist.accepted.length - s.hist.oldest < N
  refuses : o.code ≠ 0 → o.code = errOverload
  consumeIdx : o.ring.consumeIdx = s.ring.consumeIdx
  kept : ∀ k, s.hist.oldest ≤ k → k < s.hist.accepted.length →
    o.ring.statusAt (k % N) = s.ring.statusAt (k % N) ∧ o.ring.valAt (k % N) = s.ring.valAt (k % N)
  newest : o.code = 0 → o.ring.statusAt (s.hist.accepted.length % N) = some .init ∧
    o.ring.valAt (s.hist.accepted.length % N) = some (some v)
  free : ∀ k, s.hist.accepted.length < k → k < s.hist.oldest + N →
    o.ring.statusAt (k % N) = some .cleaned ∧ o.ring.valAt (k % N) = some none
  unstored : o.code ≠ 0 → o.ring.slots = s.ring.slots ∧ o.dropped = []

theorem RingInv.accepts (h : RingInv N s) (hidle : s.prod = .idle) (v : α) :
    ∃ o, RingBuffer.offer v s.ring = .ok o ∧ OfferOutcome N s v o := by
  have hN := h.pos
  have hw := h.window
  have hcl := h.cleanedPhase
  have hpp := h.producePhase
  rw [hidle] at hw hcl hpp
  have hge := hw.ge
  obtain ⟨n, r', hr', hc⟩ := tryCleanConsumedItems_spec hN hw hcl
  have hold := h.oldest_of_cleaned hc
  have hle := hc.window.le
  have hlen : (((s.hist.accepted.drop s.hist.cleaned).take n).map some).length = n := by
    rw [List.length_map, List.length_take, List.length_drop]
    omega
  have hpp' : Phase N r'.produceIdx s.hist.accepted.length := by rw [hc.produceIdx]; exact hpp
  have hval : ∀ k, s.hist.cleaned + n ≤ k → k < s.hist.accepted.length →
      r'.valAt (k % N) = s.ring.valAt (k % N) := by
    intro k hk hk'
    rw [hc.window.held k hk hk', hw.held k (by omega) hk']
    simp [ProdPc.nulled]
  by_cases hroom : s.hist.accepted.length < s.hist.cleaned + n + N
  · refine ⟨_, offer_of_place hr' (place_accepts hc.window hpp' hroom v), ?_⟩
    have hne : ∀ k, s.hist.cleaned + n ≤ k → k < s.hist.cleaned + n + N → k ≠ s.hist.accepted.length →
        s.hist.accepted.length % N ≠ k % N := fun k hk hk' hk'' => Window.mod_ne hle hroom hk hk' (Ne.symm hk'')
    have hcur := hc.window.free _ (Nat.le_refl _) hroom
    rw [← statusAt_setVal r' _ (s.hist.accepted.length % N) (some v)] at hcur
    refine ⟨by omega, ?_, by rw [hlen]; omega, ⟨fun _ => by omega, fun _ => rfl⟩, fun h0 => absurd rfl h0, hc.consumeIdx,
      fun k hk hk' => ?_, fun _ => ⟨statusAt_setStatus_self _ hcur, ?_⟩, fun k hk hk' => ?_, fun h0 => absurd rfl h0⟩
    · rw [hold, Nat.add_sub_cancel_left]
    · rw [hold] at hk
      have hk'' := hne k hk (by omega) (by omega)
      rw [statusAt_mk, valAt_mk, statusAt_setStatus_ne _ _ hk'', statusAt_setVal, valAt_setStatus, valAt_setVal,
        if_neg hk'']
      exact ⟨hc.rest k hk (by omega), hval k hk hk'⟩
    · rw [valAt_mk, valAt_setStatus, valAt_setVal, if_pos rfl, hc.window.empty _ (Nat.le_refl _) hroom]
      rfl
    · rw [hold] at hk'
      have hk'' := hne k (by omega) hk' (by omega)
      rw [statusAt_mk, valAt_mk, statusAt_setStatus_ne _ _ hk'', statusAt_setVal, valAt_setStatus, valAt_setVal,
        if_neg hk'', hc.window.free k (by omega) hk', hc.window.empty k (by omega) hk', if_neg (by omega)]
      exact ⟨rfl, rfl⟩
  · -- the ring is full from the oldest item on, so nothing was reclaimed
    have hn : n = 0 := by omega
    subst hn
    have hst : s.ring.statusAt (s.hist.cleaned % N) ≠ some .consumed := by
      have hinit : s.ring.statusAt (s.hist.cleaned % N) = some .init := hc.stop (by omega)
      rw [hinit]
      simp
    have hstop : tryCleanConsumedItems s.ring = .ok ({ s.ring with cleanedIdx := s.hist.cleaned % N }, []) := by
      unfold tryCleanConsumedItems cleanLoop
      rw [cleanPass_stop hw hcl hst hN]
    rw [hstop] at hr'
    cases hr'
    refine ⟨_, offer_of_place hstop (place_refuses hc.window hpp' (by omega) hN v), ?_⟩
    have hcode : errOverload ≠ 0 := by decide
    refine ⟨by omega, ?_, Nat.zero_le N, ⟨fun h0 => absurd h0 hcode, fun hlt => by omega⟩, fun _ => rfl, rfl,
      fun k _ _ => ⟨rfl, rfl⟩, fun h0 => absurd h0 hcode, fun k hk hk' => by omega, fun _ => ⟨rfl, rfl⟩⟩
    rw [hold, Nat.add_sub_cancel_left]
    rfl

/-- **The exact acceptance condition**, between any two calls of `Offer`, whatever closures have been called and in
whatever order. -/
theorem offer_accepts_iff (N : Nat) (hN : 0 < N) (s : St α) (h : Reach step Machine.anyStep (St.start α N) s)
    (hidle : s.prod = .idle) (v : α) : ∃ o, offer v s.ring = .ok o ∧ OfferOutcome N s v o :=
  (ringInv_reach hN h).accepts hidle v

/-- A ring of three with its second and third items done, and the first one not. -/
def doneBehind : List (Act Nat) :=
  offering 7 8 ++ offering 8 8 ++ offering 9 8 ++ reading 17 ++ [.doneTest 2, .doneStore, .doneTest 1, .doneStore]

/-- It refuses, and accepts once the first one is done: all three are then reclaimed. -/
theorem offer_accepts_iff_three : ∃ s s', Machine.exec step Machine.anyStep (St.start Nat 3) doneBehind = some s ∧
    Machine.exec step Machine.anyStep (St.start Nat 3) (doneBehind ++ [.doneTest 0, .doneStore]) = some s' ∧
    s.hist.oldest = 0 ∧ s'.hist.oldest = 3 ∧ (∃ o, offer 4 s.ring = .ok o ∧ OfferOutcome 3 s 4 o) ∧
    ∃ o, offer 4 s'.ring = .ok o ∧ OfferOutcome 3 s' 4 o :=
  ⟨_, _, rfl, rfl, rfl, rfl,
    offer_accepts_iff 3 (by decide) _ (Machine.reach_of_exec _ _ doneBehind _ rfl) rfl 4,
    offer_accepts_iff 3 (by decide) _ (Machine.reach_of_exec _ _ (doneBehind ++ [.doneTest 0, .doneStore]) _ rfl) rfl 4⟩

/-! ## The call that makes the item -/

/-- What `Offer(T* v)` answers, what its call of `Offer` left and dropped, and whether it has deleted the item. -/
structure OfferedNew (α : Type) where
  code : Int
  ring : RingBuffer α
  dropped : List (Option α)
  deleted : Bool
  deriving DecidableEq, Repr

/-- `Offer(T* v)`; `ptr` is the `TypeRefItem` of one reference it has made for `v`. -/
def offerNew (ptr : α) (r : RingBuffer α) : Except Fault (OfferedNew α) :=
  match offer ptr r with
  | .error e => .error e
  | .ok o => if o.code ≠ 0 then .ok ⟨-1, o.ring, o.dropped, true⟩ else .ok ⟨o.code, o.ring, o.dropped, false⟩

/-- **A refused item is deleted and nowhere in the ring**; an accepted one is the newest. -/
theorem RingInv.offerNew (h : RingInv N s) (hidle : s.prod = .idle) (ptr : α) :
    ∃ o, Shm.offerNew ptr s.ring = .ok o ∧ (o.deleted = true ↔ o.code = -1) ∧
      (o.deleted = true → o.ring.slots = s.ring.slots ∧ o.dropped = []) ∧
      (o.deleted = false → o.code = 0 ∧ o.ring.valAt (s.hist.accepted.length % N) = some (some ptr)) := by
  obtain ⟨o, ho, hout⟩ := h.accepts hidle ptr
  unfold Shm.offerNew
  simp only [ho]
  by_cases hc : o.code = 0
  · rw [if_neg (by simpa using hc), hc]
    exact ⟨_, rfl, by simp, (fun hd => by cases hd), fun _ => ⟨rfl, (hout.newest hc).2⟩⟩
  · rw [if_pos hc]
    exact ⟨_, rfl, by simp, fun _ => hout.unstored hc, fun hd => by cases hd⟩

/-! ## The call among other steps -/

def Alone (_ : St α) (a : Act α) : Prop := ∃ t t', a = .prod t t'

theorem alone {s₁ s₂ s₃ : St α} (hs : step s₁ (.prod 0 0) = some s₂) (h : Reach step Alone s₂ s₃) :
    Reach step Alone s₁ s₃ :=
  (Reach.init.next ⟨0, 0, rfl⟩ hs).trans h

theorem clean_alone {v : α} : ∀ (fuel : Nat) (s : St α) (r' : RingBuffer α) (xs : List (Option α)),
    s.prod = .clean v → cleanLoop fuel s.ring = .ok (r', xs) →
    ∃ s', Reach step Alone s s' ∧ s'.prod = .wrap v ∧ s'.ring = r' ∧ s'.cons = s.cons ∧
      s'.hist.accepted = s.hist.accepted ∧ s'.hist.finished = s.hist.finished ∧
      s'.hist.dropped.map Ref.item = s.hist.dropped.map Ref.item ++ xs
  | 0, _, _, _, _, h => by cases h
  | fuel + 1, ⟨r, nf, pc, cs, so, hi⟩, r', xs, hp, h => by
    cases hp
    obtain ⟨st, hst⟩ | hst : (∃ st, r.statusAt (wrap r.size r.cleanedIdx) = some st) ∨
        r.statusAt (wrap r.size r.cleanedIdx) = none := by
      cases r.statusAt (wrap r.size r.cleanedIdx) with
      | none => exact .inr rfl
      | some st => exact .inl ⟨st, rfl⟩
    · have htest : ∀ pc', pc' = (if st = .consumed then ProdPc.drop v else .wrap v) →
          step ⟨{ r with cleanedIdx := wrap r.size r.cleanedIdx }, nf, .cleanTest v, cs, so, hi⟩ (.prod 0 0) =
            some ⟨{ r with cleanedIdx := wrap r.size r.cleanedIdx }, nf, pc', cs, so, hi⟩ := by
        rintro _ rfl
        simp only [step, prodStep, statusAt_mk, hst]
        cases st <;> rfl
      by_cases hc : st = .consumed
      · subst hc
        unfold cleanLoop cleanPass at h
        simp only [hst] at h
        split at h
        · cases h
        · rename_i r'' xs' hrest
          cases h
          obtain ⟨s', hreach, hp', hr', hcs, hacc, hfin, hd⟩ := clean_alone (v := v) fuel
            ⟨{ (r.setVal (wrap r.size r.cleanedIdx) none).setStatus (wrap r.size r.cleanedIdx) .cleaned with
              cleanedIdx := wrap r.size r.cleanedIdx + 1 }, nf, .clean v, cs, so,
              { hi with
                dropped := hi.dropped ++ [⟨hi.owner (wrap r.size r.cleanedIdx), r.get (wrap r.size r.cleanedIdx)⟩]
                cleaned := hi.cleaned + 1 }⟩ _ _ rfl hrest
          refine ⟨s', alone rfl (alone (htest _ rfl) (alone rfl (alone rfl (alone rfl (alone rfl hreach))))), hp', hr',
            hcs, hacc, hfin, ?_⟩
          rw [hd, List.map_append, List.append_assoc]
          rfl
      · have hpass : cleanPass r = .ok (.stop { r with cleanedIdx := wrap r.size r.cleanedIdx }) := by
          unfold cleanPass
          simp only [hst]
        unfold cleanLoop at h
        rw [hpass] at h
        cases h
        exact ⟨_, alone rfl (alone (htest _ (if_neg hc).symm) .init), rfl, rfl, rfl, rfl, rfl,
          (List.append_nil _).symm⟩
    · unfold cleanLoop cleanPass at h
      simp only [hst, reduceCtorEq] at h

theorem place_alone {v : α} {s : St α} {r' : RingBuffer α} {code : Int} (hp : s.prod = .wrap v)
    (h : place v s.ring = .ok (r', code)) : ∃ s', Reach step Alone s s' ∧ s'.prod = .idle ∧ s'.ring = r' ∧
      s'.cons = s.cons ∧ s'.hist.accepted = (if code = 0 then s.hist.accepted ++ [v] else s.hist.accepted) ∧
      s'.hist.finished = s.hist.finished ++ [(v, code)] ∧ s'.hist.dropped = s.hist.dropped := by
  obtain ⟨r, nf, pc, cs, so, hi⟩ := s
  cases hp
  unfold place at h
  simp only at h
  split at h
  · cases h
  · rename_i hst
    cases h
    have htest : step ⟨{ r with produceIdx := wrap r.size r.produceIdx }, nf, .test v, cs, so, hi⟩ (.prod 0 0) =
        some ⟨{ r with produceIdx := wrap r.size r.produceIdx }, nf, .store v, cs, so, hi⟩ := by
      simp only [step, prodStep, statusAt_mk, hst]
    exact ⟨_, alone rfl (alone htest (alone rfl (alone rfl (alone rfl (alone rfl .init))))), rfl, rfl, rfl, rfl, rfl,
      rfl⟩
  · rename_i st hne hst
    cases h
    have htest : step ⟨{ r with produceIdx := wrap r.size r.produceIdx }, nf, .test v, cs, so, hi⟩ (.prod 0 0) =
        some ⟨{ r with produceIdx := wrap r.size r.produceIdx }, nf, .refuse v, cs, so, hi⟩ := by
      simp only [step, prodStep, statusAt_mk, hst]
    exact ⟨_, alone rfl (alone htest (alone rfl .init)), rfl, rfl, rfl, rfl, rfl, rfl⟩

/-- **The whole call** is what the producer's accesses come to when nothing runs between them. -/
theorem offer_alone {s : St α} {v : α} {o : Offered α} (hidle : s.prod = .idle) (h : offer v s.ring = .ok o) :
    ∃ s₁ s₂, step s (.offer v) = some s₁ ∧ Reach step Alone s₁ s₂ ∧ s₂.prod = .idle ∧ s₂.ring = o.ring ∧
      s₂.cons = s.cons ∧ s₂.hist.finished = s.hist.finished ++ [(v, o.code)] ∧
      s₂.hist.accepted = (if o.code = 0 then s.hist.accepted ++ [v] else s.hist.accepted) ∧
      s₂.hist.dropped.map Ref.item = s.hist.dropped.map Ref.item ++ o.dropped := by
  unfold offer at h
  split at h
  · cases h
  · rename_i r' xs hclean
    split at h
    · cases h
    · rename_i r'' code hplace
      cases h
      have hoffer : step s (.offer v) = some { s with prod := .clean v } := by simp only [step, hidle]
      obtain ⟨s₁, hreach, hp, rfl, hcs, hacc, hfin, hd⟩ := clean_alone (v := v) (s.ring.size + 1)
        { s with prod := .clean v } r' xs rfl hclean
      obtain ⟨s₂, hreach', hp', hr', hcs', hacc', hfin', hd'⟩ := place_alone hp hplace
      refine ⟨_, s₂, hoffer, hreach.trans hreach', hp', hr', hcs'.trans hcs, ?_, ?_, ?_⟩
      · rw [hfin', hfin]
      · rw [hacc', hacc]
      · rw [hd', hd]

end Shm
