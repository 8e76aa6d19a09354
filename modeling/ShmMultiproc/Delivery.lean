import ShmMultiproc.RingInv
/-!
# Delivery — what reaches the callback, and in which order

The reader follows the producer as long as it does not lap it: `DelivInv` says that delivery `k` is item `k`, and is
kept by every step that is not a test of the slot under `consume_idx` on a ring full of delivered items (`Unlapped`).
A reader that tests such a slot either delivers an item again (its closure not yet called) or steps over it and runs
ahead of the producer (its closure called), and no comparison with `produce_idx` stops it.

With closures called inside the callback a ring full of delivered items is one whose slots are all CONSUMED
(`SomeLeft`); `DoneInv` is what those callbacks add.
-/
namespace Shm

open Cyclic (wrap Phase wrap_lt)
open Machine (Reach)

variable {α : Type}

/-- The delivery that the reader has moved past and not yet made. -/
def ConsPc.lead : ConsPc → Nat
  | .call _ => 1
  | _ => 0

def ConsPc.looking : ConsPc → Bool
  | .test2 | .take | .call _ => true
  | _ => false

def ConsPc.taking : ConsPc → Bool
  | .take | .call _ => true
  | _ => false

/-- The first `q` deliveries of a reader that never laps the producer. -/
def inOrder (N : Nat) (acc : List α) (q : Nat) : List (Delivery α) :=
  (List.range q).map (fun k => ⟨k % N, k, acc[k]?⟩)

theorem inOrder_succ (N : Nat) (acc : List α) (q : Nat) :
    inOrder N acc (q + 1) = inOrder N acc q ++ [⟨q % N, q, acc[q]?⟩] := by
  unfold inOrder
  rw [List.range_succ, List.map_append]
  rfl

theorem inOrder_append (N : Nat) (acc : List α) (v : α) {q : Nat} (h : q ≤ acc.length) :
    inOrder N (acc ++ [v]) q = inOrder N acc q := by
  unfold inOrder
  refine List.map_congr_left (fun k hk => ?_)
  rw [List.getElem?_append_left (by have := List.mem_range.1 hk; omega)]

theorem inOrder_getElem? (N : Nat) (acc : List α) (q k : Nat) :
    (inOrder N acc q)[k]? = if k < q then some ⟨k % N, k, acc[k]?⟩ else none := by
  unfold inOrder
  rw [List.getElem?_map]
  by_cases h : k < q
  · rw [List.getElem?_range h, if_pos h]; rfl
  · rw [List.getElem?_eq_none (by rw [List.length_range]; omega), if_neg h]; rfl

theorem inOrder_ref (N : Nat) (acc : List α) (q : Nat) : (inOrder N acc q).map Delivery.ref = refs acc q := by
  unfold inOrder refs
  rw [List.map_map]
  rfl

/-- **The reader does not lap the producer**: it tests a slot only while fewer than `N` delivered items are not yet
reclaimed.  On a single slot, stepping over it brings the reader back where it was. -/
def Unlapped (s : St α) : Act α → Prop
  | .cons => s.cons = .test → s.hist.delivered.length < s.hist.cleaned + s.ring.size ∨
      (s.ring.size = 1 ∧ s.ring.statusAt s.ring.consumeIdx = some .consumed)
  | _ => True

/-- **A reader that has not lapped the producer.** -/
structure DelivInv (N : Nat) (s : St α) : Prop where
  ring : RingInv N s
  delivered : s.hist.delivered = inOrder N s.hist.accepted s.hist.delivered.length
  le : s.hist.delivered.length ≤ s.hist.accepted.length
  cleanedLe : s.hist.cleaned ≤ s.hist.delivered.length
  phase : Phase N s.ring.consumeIdx (s.hist.delivered.length + s.cons.lead)
  calledOld : ∀ k, k < s.hist.cleaned → k ∈ s.hist.called
  calledIn : ∀ k, s.hist.cleaned ≤ k → k < s.hist.accepted.length → s.ring.statusAt (k % N) = some .consumed →
    k ∈ s.hist.called
  calledLt : ∀ k ∈ s.hist.called, k < s.hist.delivered.length
  storing : ∀ i, s.storing = some i → ∃ k, s.hist.cleaned ≤ k ∧ k ∈ s.hist.called ∧ k % N = i
  ahead : s.cons.looking = true → s.hist.delivered.length < s.hist.cleaned + N
  taking : s.cons.taking = true → s.hist.delivered.length < s.hist.accepted.length ∧
    s.ring.statusAt (s.hist.delivered.length % N) = some .init
  call : ∀ i, s.cons = .call i → i = s.hist.delivered.length % N
  skip : s.cons = .skip → N = 1

namespace DelivInv

variable {N : Nat} {s s' : St α}

theorem start (N : Nat) (hN : 0 < N) : DelivInv N (St.start α N) where
  ring := .start N hN
  delivered := rfl
  le := Nat.le_refl 0
  cleanedLe := Nat.le_refl 0
  phase := .zero N
  calledOld := fun k hk => absurd hk (Nat.not_lt_zero k)
  calledIn := fun k _ hk => absurd hk (Nat.not_lt_zero k)
  calledLt := fun k hk => by cases hk
  storing := fun i h => by cases h
  ahead := fun h => by cases h
  taking := fun h => by cases h
  call := fun i h => by cases h
  skip := fun h => by cases h

theorem init_of_not_delivered (h : DelivInv N s) {k : Nat} (hk : s.hist.delivered.length ≤ k)
    (hk' : k < s.hist.accepted.length) : s.ring.statusAt (k % N) = some .init := by
  have hle := h.cleanedLe
  rcases h.ring.window.occ k (by omega) hk' with hs | hs
  · exact hs
  · have := h.calledLt k (h.calledIn k (by omega) hk' hs)
    omega

theorem frame (h : DelivInv N s) (hr : RingInv N s') (hf : ProdFrame N s s') : DelivInv N s' := by
  have hle := h.le
  have hcl := h.cleanedLe
  have hgrow : s.hist.cleaned ≤ s'.hist.cleaned := by rcases hf.cleaned with e | ⟨e, -, -⟩ <;> omega
  have hlen : s.hist.accepted.length ≤ s'.hist.accepted.length := by
    rcases hf.accepted with e | ⟨v, e, -⟩
    · rw [e]
    · rw [e, List.length_append]; omega
  have hcalledOld : ∀ k, k < s'.hist.cleaned → k ∈ s.hist.called := fun k hk => by
    rcases hf.cleaned with e | ⟨e, hlt, hst⟩
    · exact h.calledOld k (by omega)
    · rcases Nat.lt_or_ge k s.hist.cleaned with hk' | hk'
      · exact h.calledOld k hk'
      · rw [show k = s.hist.cleaned by omega]
        exact h.calledIn _ (Nat.le_refl _) hlt hst
  have hinit : ∀ k, s.hist.accepted.length ≤ k → k < s'.hist.accepted.length →
      s'.ring.statusAt (k % N) = some .init := fun k hk hk' => by
    rcases hf.accepted with e | ⟨v, e, hst⟩
    · rw [e] at hk'; omega
    · rw [e, List.length_append, List.length_singleton] at hk'
      rw [show k = s.hist.accepted.length by omega]
      exact hst
  refine {
    ring := hr
    delivered := ?_
    le := by rw [hf.delivered]; omega
    cleanedLe := ?_
    phase := by rw [hf.consumeIdx, hf.delivered, hf.cons]; exact h.phase
    calledOld := fun k hk => by rw [hf.called]; exact hcalledOld k hk
    calledIn := fun k hk hk' hst => ?_
    calledLt := fun k hk => by rw [hf.called] at hk; rw [hf.delivered]; exact h.calledLt k hk
    storing := fun i hi => ?_
    ahead := fun hl => by
      rw [hf.cons] at hl
      have := h.ahead hl
      rw [hf.delivered]; omega
    taking := fun ht => ?_
    call := fun i hi => by rw [hf.cons] at hi; rw [hf.delivered]; exact h.call i hi
    skip := fun hi => by rw [hf.cons] at hi; exact h.skip hi }
  · rw [hf.delivered]
    conv => lhs; rw [h.delivered]
    rcases hf.accepted with e | ⟨v, e, -⟩
    · rw [e]
    · rw [e, inOrder_append N _ v hle]
  · rw [hf.delivered]
    rcases hf.cleaned with e | ⟨e, hlt, hst⟩
    · omega
    · have := h.calledLt _ (h.calledIn _ (Nat.le_refl _) hlt hst)
      omega
  · rw [hf.called]
    rcases Nat.lt_or_ge k s.hist.accepted.length with hk'' | hk''
    · rw [hf.status k hk hk''] at hst
      exact h.calledIn k (by omega) hk'' hst
    · rw [hinit k hk'' hk'] at hst; cases hst
  · rw [hf.storing] at hi
    obtain ⟨k, hk, hkc, rfl⟩ := h.storing i hi
    refine ⟨k, ?_, by rw [hf.called]; exact hkc, rfl⟩
    rcases hf.cleaned with e | ⟨e, hlt, hst⟩
    · omega
    · have hne : k ≠ s.hist.cleaned := by
        rintro rfl
        have := h.ring.storing _ hi
        rw [hst] at this; cases this
      omega
  · rw [hf.cons] at ht
    obtain ⟨hlt, hst⟩ := h.taking ht
    have hle' : s'.hist.cleaned ≤ s.hist.delivered.length := by
      rcases hf.cleaned with e | ⟨e, hlt', hst'⟩
      · omega
      · have := h.calledLt _ (h.calledIn _ (Nat.le_refl _) hlt' hst')
        omega
    rw [hf.delivered]
    exact ⟨by omega, by rw [hf.status _ hle' hlt]; exact hst⟩

theorem quiet (h : DelivInv N s) {cs : ConsPc} {i : Nat}
    (hr : RingInv N { s with ring := { s.ring with consumeIdx := i }, cons := cs }) (hl : cs.looking = false)
    (hne : cs ≠ .skip) (hp : Phase N i (s.hist.delivered.length + cs.lead)) :
    DelivInv N { s with ring := { s.ring with consumeIdx := i }, cons := cs } :=
  { h with
    ring := hr
    phase := hp
    ahead := fun h' => by rw [hl] at h'; cases h'
    taking := fun h' => by
      cases cs with
      | take => cases hl
      | call j => cases hl
      | _ => cases h'
    call := fun j h' => by
      have h' : cs = .call j := h'
      rw [h'] at hl
      cases hl
    skip := fun h' => absurd h' hne }

theorem cons (h : DelivInv N s) (hg : Unlapped s .cons) (hs : step s .cons = some s') : DelivInv N s' := by
  have hr := h.ring.cons hs
  obtain ⟨r, nf, pc, cs, so, hi⟩ := s
  have hN := h.ring.pos
  have hsize : r.size = N := h.ring.window.size
  cases cs with
  | between last =>
    simp only [step, consStep, Option.some.injEq, hsize] at hs
    subst hs
    have hlt := wrap_lt hN r.consumeIdx
    have hc : (if N ≤ wrap N r.consumeIdx then ConsPc.between .fail else ConsPc.test) = .test := if_neg (by omega)
    rw [hc] at hr ⊢
    exact h.quiet hr rfl (by intro e; cases e) (h.phase.wrapped hN)
  | test =>
    have hq : r.consumeIdx = hi.delivered.length % N := h.phase.eq_mod (h.ring.consumeLt rfl)
    have hg : hi.delivered.length < hi.cleaned + N ∨ (N = 1 ∧ r.statusAt r.consumeIdx = some .consumed) := by
      rw [← hsize]; exact hg rfl
    simp only [step, consStep] at hs
    split at hs
    · cases hs
    · rename_i hst
      cases hs
      refine { h with
        ring := hr
        ahead := fun h' => by cases h'
        taking := fun h' => by cases h'
        call := fun i h' => by cases h'
        skip := fun _ => ?_ }
      rcases hg with hlt | hone
      · rw [hq] at hst
        have hcl : hi.cleaned ≤ hi.delivered.length := h.cleanedLe
        have hacc : hi.delivered.length < hi.accepted.length :=
          h.ring.window.lt_of_not_cleaned hlt (by rw [hst]; simp)
        have := h.calledLt _ (h.calledIn _ hcl hacc hst)
        exact absurd this (Nat.lt_irrefl _)
      · exact hone.1
    · rename_i st hne hst
      cases hs
      refine { h with
        ring := hr
        ahead := fun _ => ?_
        taking := fun h' => by cases h'
        call := fun i h' => by cases h'
        skip := fun h' => by cases h' }
      rcases hg with hlt | ⟨-, hone⟩
      · exact hlt
      · rw [hone] at hst
        cases hst
        exact absurd rfl hne
  | skip =>
    simp only [step, consStep, Option.some.injEq] at hs
    subst hs
    have h1 : N = 1 := h.skip rfl
    have hlt : r.consumeIdx < N := h.ring.consumeLt rfl
    exact h.quiet hr rfl (by intro e; cases e) ⟨hlt, by rw [h1, Nat.mod_one, Nat.mod_one]⟩
  | test2 =>
    have hq : r.consumeIdx = hi.delivered.length % N := h.phase.eq_mod (h.ring.consumeLt rfl)
    have hlt : hi.delivered.length < hi.cleaned + N := h.ahead rfl
    simp only [step, consStep] at hs
    split at hs
    · cases hs
    · rename_i hst
      cases hs
      rw [hq] at hst
      exact { h with
        ring := hr
        ahead := fun _ => hlt
        taking := fun _ => ⟨h.ring.window.lt_of_not_cleaned hlt (by rw [hst]; simp), hst⟩
        call := fun i h' => by cases h'
        skip := fun h' => by cases h' }
    · cases hs
      exact h.quiet hr rfl (by intro e; cases e) h.phase
  | take =>
    have hq : r.consumeIdx = hi.delivered.length % N := h.phase.eq_mod (h.ring.consumeLt rfl)
    simp only [step, consStep, Option.some.injEq] at hs
    subst hs
    exact { h with
      ring := hr
      phase := h.phase.succ (h.ring.consumeLt rfl)
      call := fun i h' => by cases h'; exact hq
      skip := fun h' => by cases h' }
  | call i =>
    simp only [step, consStep, Option.some.injEq] at hs
    subst hs
    have hq : i = hi.delivered.length % N := h.call i rfl
    obtain ⟨hlt, hst⟩ := h.taking rfl
    have hlt : hi.delivered.length < hi.accepted.length := hlt
    have hcl : hi.cleaned ≤ hi.delivered.length := h.cleanedLe
    have hd : hi.delivered = inOrder N hi.accepted hi.delivered.length := h.delivered
    exact { h with
      ring := hr
      delivered := by
        show hi.delivered ++ [⟨i, hi.owner i, r.get i⟩] =
          inOrder N hi.accepted (hi.delivered ++ [(⟨i, hi.owner i, r.get i⟩ : Delivery α)]).length
        rw [List.length_append, List.length_singleton, inOrder_succ, ← hd, hq, h.ring.owner _ hcl hlt,
          h.ring.get_of_init hcl hlt hst]
      le := by rw [List.length_append, List.length_singleton]; exact hlt
      cleanedLe := by rw [List.length_append]; exact Nat.le_add_right_of_le hcl
      phase := by rw [List.length_append, List.length_singleton]; exact h.phase
      calledLt := fun k hk => by rw [List.length_append]; exact Nat.lt_add_right _ (h.calledLt k hk)
      ahead := fun h' => by cases h'
      taking := fun h' => by cases h'
      call := fun i h' => by cases h'
      skip := fun h' => by cases h' }
  | callback k =>
    simp only [step, consStep, Option.some.injEq] at hs
    subst hs
    exact h.quiet hr rfl (by intro e; cases e) h.phase

theorem doneTest {k : Nat} (h : DelivInv N s) (hg : CallsOnce s (.doneTest k))
    (hs : step s (.doneTest k) = some s') : DelivInv N s' := by
  have hr := h.ring.doneTest hs
  have hle := h.le
  simp only [step, doneTestStep] at hs
  split at hs
  · rename_i d hso hd
    rw [h.delivered, inOrder_getElem?] at hd
    split at hd
    · rename_i hk
      cases hd
      have hkc : s.hist.cleaned ≤ k := by
        by_contra hlt
        exact hg (h.calledOld k (by omega))
      have hmem : ∀ {j}, j ∈ s.hist.called → j ∈ s.hist.called ++ [k] := fun hj => List.mem_append_left _ hj
      have hlt : ∀ j ∈ s.hist.called ++ [k], j < s.hist.delivered.length := by
        intro j hj
        rcases List.mem_append.1 hj with hj | hj
        · exact h.calledLt j hj
        · rw [List.mem_singleton.1 hj]; exact hk
      split at hs
      · cases hs
      · cases hs
        exact { h with
          ring := hr
          calledOld := fun j hj => hmem (h.calledOld j hj)
          calledIn := fun j hj hj' hst => hmem (h.calledIn j hj hj' hst)
          calledLt := hlt
          storing := fun i hi => by
            cases hi
            exact ⟨k, hkc, List.mem_append_right _ (List.mem_singleton.2 rfl), rfl⟩ }
      · cases hs
        exact { h with
          ring := hr
          calledOld := fun j hj => hmem (h.calledOld j hj)
          calledIn := fun j hj hj' hst => hmem (h.calledIn j hj hj' hst)
          calledLt := hlt
          storing := fun i hi => by rw [hso] at hi; cases hi }
    · cases hd
  · cases hs

theorem doneStore (h : DelivInv N s) (hs : step s .doneStore = some s') : DelivInv N s' := by
  have hr := h.ring.doneStore hs
  simp only [step, doneStoreStep] at hs
  split at hs
  · cases hs
  · rename_i i hso
    cases hs
    obtain ⟨k, hk, hkc, rfl⟩ := h.storing i hso
    have hklt := h.calledLt k hkc
    have hle := h.le
    have hge := h.ring.window.ge
    exact { h with
      ring := hr
      calledIn := fun j hj hj' hst => by
        by_cases hjk : j = k
        · rw [hjk]; exact hkc
        · rw [RingBuffer.statusAt_setStatus_ne _ _ (Window.mod_ne hk (by omega) hj (by
            have : j < s.hist.accepted.length := hj'; omega) (Ne.symm hjk))] at hst
          exact h.calledIn j hj hj' hst
      storing := fun i hi => by cases hi
      taking := fun ht => by
        obtain ⟨hlt, hst⟩ := h.taking ht
        have hlt : s.hist.delivered.length < s.hist.accepted.length := hlt
        have hne : k % N ≠ s.hist.delivered.length % N := Window.mod_ne hk (by omega) (by omega) (by omega) (by omega)
        exact ⟨hlt, by rw [RingBuffer.statusAt_setStatus_ne _ _ hne]; exact hst⟩ }

theorem step {a : Act α} (h : DelivInv N s) (ho : CallsOnce s a) (hg : Unlapped s a)
    (hs : Shm.step s a = some s') : DelivInv N s' := by
  cases a with
  | offer v => exact h.frame (h.ring.offer hs) (prodFrame_offer hs)
  | prod t t' => exact h.frame (h.ring.prod hs) (prodFrame_prod h.ring hs)
  | cons => exact h.cons hg hs
  | doneTest k => exact h.doneTest ho hs
  | doneStore => exact h.doneStore hs

end DelivInv

/-! ## Closures kept -/

/-- **No item reaches the callback twice, and a reference is dropped only when the `done` closure of every delivery of
its item has been called.** -/
structure SafeDelivery (s : St α) : Prop where
  once : (s.hist.delivered.map (fun d => d.ref.seq)).Nodup
  dropped : ∀ x ∈ s.hist.dropped, ∀ k d, s.hist.delivered[k]? = some d → d.ref.seq = x.seq → k ∈ s.hist.called

theorem delivInv_reach {N : Nat} (hN : 0 < N) {s : St α}
    (h : Reach step (fun s a => CallsOnce s a ∧ Unlapped s a) (St.start α N) s) : DelivInv N s :=
  h.invariant (DelivInv.start N hN) (fun _ _ _ _ hi hg hs => hi.step hg.1 hg.2 hs)

theorem DelivInv.safe {N : Nat} {s : St α} (h : DelivInv N s) : SafeDelivery s where
  once := by
    rw [h.delivered]
    have : ((inOrder N s.hist.accepted s.hist.delivered.length).map (fun d => d.ref.seq)) =
        List.range s.hist.delivered.length := by
      unfold inOrder
      rw [List.map_map]
      exact List.map_id' _
    rw [this]
    exact List.nodup_range
  dropped := fun x hx k d hd hseq => by
    rw [h.delivered, inOrder_getElem?] at hd
    split at hd
    · rename_i hk
      cases hd
      rw [h.ring.dropped] at hx
      obtain ⟨j, hj, rfl⟩ := List.mem_map.1 hx
      have hj := List.mem_range.1 hj
      simp only at hseq
      subst hseq
      rcases Nat.lt_or_ge k s.hist.cleaned with hlt | hge
      · exact h.calledOld k hlt
      · -- the reference is dropped and its slot not yet CLEANED
        have hr : s.prod.reclaims = true := by
          cases hp : s.prod <;> rw [hp] at hj <;> first | rfl | (simp only [ProdPc.dropLead] at hj; omega)
        have hlead : s.prod.dropLead ≤ 1 := by cases s.prod <;> simp [ProdPc.dropLead]
        have hkc : k = s.hist.cleaned := by omega
        subst hkc
        exact h.calledIn _ (Nat.le_refl _) (h.ring.oldest hr).1 (h.ring.oldest hr).2
    · cases hd

/-- **With closures kept**: while the reader never tests a slot of a ring full of delivered items. -/
theorem safe_while_unlapped (N : Nat) (hN : 0 < N) (s : St α)
    (h : Reach step (fun s a => CallsOnce s a ∧ Unlapped s a) (St.start α N) s) : SafeDelivery s :=
  (delivInv_reach hN h).safe

instance (s : St α) (a : Act α) : Decidable (Unlapped s a) :=
  match a with
  | .cons => inferInstanceAs (Decidable (s.cons = .test → s.hist.delivered.length < s.hist.cleaned + s.ring.size ∨
      (s.ring.size = 1 ∧ s.ring.statusAt s.ring.consumeIdx = some .consumed)))
  | .offer _ | .prod _ _ | .doneTest _ | .doneStore => .isTrue trivial

def keptBoth : List (Act Nat) :=
  offering 7 8 ++ offering 8 8 ++ reading 12 ++ [.doneTest 1, .doneStore, .doneTest 0, .doneStore] ++ offering 9 20

theorem safe_while_unlapped_two : ∃ s,
    Machine.exec step (fun s a => CallsOnce s a ∧ Unlapped s a) (St.start Nat 2) keptBoth = some s ∧
    s.hist.delivered.length = 2 ∧ s.hist.dropped.length = 2 ∧ SafeDelivery s :=
  ⟨_, rfl, rfl, rfl, safe_while_unlapped 2 (by decide) _ (Machine.reach_of_exec _ _ keptBoth _ rfl)⟩

/-- One item on a ring of one: delivered twice while its closures are kept; the first one is called, and the next offer
drops the reference. -/
def redelivered : List (Act Nat) :=
  offering 7 8 ++ reading 12 ++ [.doneTest 0, .doneStore] ++ offering 8 4

/-- **A full ring is delivered again**: item 0 reaches the callback twice, and its reference is dropped while the
closure of its second delivery has not been called. -/
theorem full_ring_redelivered : ∃ s, Machine.exec step CallsOnce (St.start Nat 1) redelivered = some s ∧
    s.hist.delivered.map (fun d => d.ref.seq) = [0, 0] ∧ s.hist.dropped = [⟨0, some 7⟩] ∧ s.hist.called = [0] ∧
    ¬ SafeDelivery s := by
  refine ⟨_, rfl, rfl, rfl, rfl, fun h => ?_⟩
  have := h.once
  revert this
  decide

/-! ## Closures called in the callback -/

/-- **A slot is left to wait at**: when the reader tests a slot, not all are CONSUMED.  On a single slot, stepping over
it brings the reader back where it was. -/
def SomeLeft (s : St α) : Act α → Prop
  | .cons => s.cons = .test → s.ring.size = 1 ∨ ∃ i < s.ring.size, s.ring.statusAt i ≠ some .consumed
  | _ => True

instance (s : St α) (a : Act α) : Decidable (SomeLeft s a) :=
  match a with
  | .cons => inferInstanceAs (Decidable (s.cons = .test →
      s.ring.size = 1 ∨ ∃ i < s.ring.size, s.ring.statusAt i ≠ some .consumed))
  | .offer _ | .prod _ _ | .doneTest _ | .doneStore => .isTrue trivial

/-- **What callbacks that call their closure add**: every delivered item but the one in the callback is CONSUMED. -/
structure DoneInv (N : Nat) (s : St α) : Prop where
  deliv : DelivInv N s
  doneIn : ∀ k, s.hist.cleaned ≤ k → k < s.hist.delivered.length →
    s.ring.statusAt (k % N) = some .consumed ∨ s.cons = .callback k
  last : ∀ k, s.cons = .callback k → k + 1 = s.hist.delivered.length
  storing : ∀ i, s.storing = some i → ∃ k, s.cons = .callback k ∧ i = k % N
  called : ∀ k, s.cons = .callback k → k ∈ s.hist.called → s.storing = none → s.hist.cleaned ≤ k →
    s.ring.statusAt (k % N) = some .consumed

namespace DoneInv

variable {N : Nat} {s s' : St α}

theorem start (N : Nat) (hN : 0 < N) : DoneInv N (St.start α N) where
  deliv := .start N hN
  doneIn := fun k _ hk => absurd hk (Nat.not_lt_zero k)
  last := fun k h => by cases h
  storing := fun i h => by cases h
  called := fun k h => by cases h

theorem consumed_of_test (h : DoneInv N s) (ht : s.cons = .test) {k : Nat} (hk : s.hist.cleaned ≤ k)
    (hk' : k < s.hist.delivered.length) : s.ring.statusAt (k % N) = some .consumed := by
  rcases h.doneIn k hk hk' with hs | hc
  · exact hs
  · rw [ht] at hc; cases hc

/-- **Lapping is a test on a ring whose slots are all CONSUMED.** -/
theorem unlapped (h : DoneInv N s) {a : Act α} (hg : SomeLeft s a) : Unlapped s a := by
  cases a with
  | cons =>
    intro ht
    have hsize := h.deliv.ring.window.size
    have hle := h.deliv.le
    have hge := h.deliv.ring.window.ge
    rcases Nat.lt_or_ge s.hist.delivered.length (s.hist.cleaned + s.ring.size) with hlt | hfull
    · exact .inl hlt
    · have hall : ∀ i < N, s.ring.statusAt i = some .consumed := fun i hi => by
        obtain ⟨k, hk, hk', rfl⟩ := Cyclic.exists_window s.hist.cleaned hi
        exact h.consumed_of_test ht hk (by omega)
      rcases hg ht with h1 | ⟨i, hi, hne⟩
      · refine .inr ⟨h1, ?_⟩
        have hfit : s.cons.fits = true := by rw [ht]; rfl
        exact hall _ (h.deliv.ring.consumeLt hfit)
      · rw [hsize] at hi
        exact absurd (hall i hi) hne
  | offer v => trivial
  | prod t t' => trivial
  | doneTest k => trivial
  | doneStore => trivial

theorem frame (h : DoneInv N s) (hd : DelivInv N s') (hf : ProdFrame N s s') : DoneInv N s' := by
  have hle := h.deliv.le
  have hgrow : s.hist.cleaned ≤ s'.hist.cleaned := by rcases hf.cleaned with e | ⟨e, -, -⟩ <;> omega
  refine {
    deliv := hd
    doneIn := fun k hk hk' => ?_
    last := fun k hc => by rw [hf.cons] at hc; rw [hf.delivered]; exact h.last k hc
    storing := fun i hi => by rw [hf.storing] at hi; rw [hf.cons]; exact h.storing i hi
    called := fun k hc hm hso hk => ?_ }
  · rw [hf.delivered] at hk'
    rw [hf.cons, hf.status k hk (by omega)]
    exact h.doneIn k (by omega) hk'
  · rw [hf.cons] at hc
    rw [hf.called] at hm
    rw [hf.storing] at hso
    have := h.last k hc
    rw [hf.status k hk (by omega)]
    exact h.called k hc hm hso (by omega)

theorem cons (h : DoneInv N s) (ho : CallsDone s .cons) (hd : DelivInv N s') (hs : Shm.step s .cons = some s') :
    DoneInv N s' := by
  obtain ⟨r, nf, pc, cs, so, hi⟩ := s
  have quiet : ∀ cs' : ConsPc, cs'.running = none → cs.running = none → ∀ r' : RingBuffer α, r'.slots = r.slots →
      DelivInv N ⟨r', nf, pc, cs', so, hi⟩ → DoneInv N ⟨r', nf, pc, cs', so, hi⟩ := by
    intro cs' hc' hc r' hr' hd'
    have hno : ∀ {c : ConsPc} {k : Nat}, c.running = none → c ≠ .callback k := by
      rintro c k hn rfl; cases hn
    refine {
      deliv := hd'
      doneIn := fun k hk hk' => ?_
      last := fun k e => absurd e (hno hc')
      storing := fun i hso => ?_
      called := fun k e => absurd e (hno hc') }
    · rcases h.doneIn k hk hk' with hst | e
      · rw [RingBuffer.statusAt_congr hr']; exact .inl hst
      · exact absurd e (hno hc)
    · obtain ⟨k, e, -⟩ := h.storing i hso
      exact absurd e (hno hc)
  cases cs with
  | between last =>
    simp only [Shm.step, consStep, Option.some.injEq] at hs
    subst hs
    exact quiet _ (by split <;> rfl) rfl _ rfl hd
  | test =>
    simp only [Shm.step, consStep] at hs
    split at hs <;> cases hs <;> exact quiet _ rfl rfl _ rfl hd
  | skip =>
    cases hs
    exact quiet _ rfl rfl _ rfl hd
  | test2 =>
    simp only [Shm.step, consStep] at hs
    split at hs <;> cases hs <;> exact quiet _ rfl rfl _ rfl hd
  | take =>
    cases hs
    exact quiet _ rfl rfl _ rfl hd
  | call i =>
    cases hs
    refine {
      deliv := hd
      doneIn := fun k hk hk' => ?_
      last := fun k e => by cases e; simp
      storing := fun j hso => by
        obtain ⟨k, e, -⟩ := h.storing j hso
        cases e
      called := fun k e hm => by
        cases e
        exact absurd (h.deliv.calledLt _ hm) (Nat.lt_irrefl _) }
    simp only [List.length_append, List.length_singleton] at hk'
    rcases Nat.lt_succ_iff_lt_or_eq.1 hk' with hlt | rfl
    · rcases h.doneIn k hk hlt with hst | e
      · exact .inl hst
      · cases e
    · exact .inr rfl
  | callback k =>
    obtain ⟨hm, hso⟩ := ho k rfl
    cases hs
    refine {
      deliv := hd
      doneIn := fun j hj hj' => ?_
      last := fun j e => by cases e
      storing := fun i hi' => by rw [show so = none from hso] at hi'; cases hi'
      called := fun j e => by cases e }
    rcases h.doneIn j hj hj' with hst | e
    · exact .inl hst
    · cases e
      exact .inl (h.called k rfl hm hso hj)

theorem doneTest {k : Nat} (h : DoneInv N s) (ho : CallsDone s (.doneTest k)) (hd : DelivInv N s')
    (hs : Shm.step s (.doneTest k) = some s') : DoneInv N s' := by
  obtain ⟨hcb, hnew⟩ := ho
  have hlast := h.last k hcb
  have hle := h.deliv.le
  simp only [Shm.step, doneTestStep] at hs
  split at hs
  · rename_i d hso hdk
    rw [h.deliv.delivered, inOrder_getElem?, if_pos (by omega)] at hdk
    cases hdk
    split at hs
    · cases hs
    · cases hs
      exact { h with
        deliv := hd
        storing := fun i hi => by cases hi; exact ⟨k, hcb, rfl⟩
        called := fun j _ _ hn => by cases hn }
    · rename_i st hne hst
      cases hs
      refine { h with
        deliv := hd
        called := fun j hj _ _ hjc => ?_ }
      have hj : s.cons = .callback j := hj
      rw [hcb] at hj
      cases hj
      rcases h.deliv.ring.window.occ k hjc (by omega) with hi | hi
      · rw [hi] at hst; cases hst; exact absurd rfl hne
      · exact hi
  · cases hs

theorem doneStore (h : DoneInv N s) (hd : DelivInv N s') (hs : Shm.step s .doneStore = some s') : DoneInv N s' := by
  simp only [Shm.step, doneStoreStep] at hs
  split at hs
  · cases hs
  · rename_i i hso
    cases hs
    obtain ⟨k, hcb, rfl⟩ := h.storing i hso
    have hst := h.deliv.ring.storing _ hso
    have hkeep : ∀ j, s.ring.statusAt j = some .consumed →
        (s.ring.setStatus (k % N) .consumed).statusAt j = some .consumed := fun j hj => by
      rw [RingBuffer.statusAt_setStatus, hj]; split <;> rfl
    refine {
      deliv := hd
      doneIn := fun j hj hj' => (h.doneIn j hj hj').imp (hkeep _) id
      last := h.last
      storing := fun i hi => by cases hi
      called := fun j hj _ _ _ => ?_ }
    have hj : s.cons = .callback j := hj
    rw [hcb] at hj
    cases hj
    exact RingBuffer.statusAt_setStatus_self _ hst

theorem step {a : Act α} (h : DoneInv N s) (ho : CallsDone s a) (hg : SomeLeft s a)
    (hs : Shm.step s a = some s') : DoneInv N s' := by
  have hd := h.deliv.step ho.callsOnce (h.unlapped hg) hs
  cases a with
  | offer v => exact h.frame hd (prodFrame_offer hs)
  | prod t t' => exact h.frame hd (prodFrame_prod h.deliv.ring hs)
  | cons => exact h.cons ho hd hs
  | doneTest k => exact h.doneTest ho hd hs
  | doneStore => exact h.doneStore hd hs

end DoneInv

theorem doneInv_reach {N : Nat} (hN : 0 < N) {G : St α → Act α → Prop} {s : St α}
    (hG : ∀ s a, G s a → CallsDone s a ∧ SomeLeft s a) (h : Reach step G (St.start α N) s) : DoneInv N s :=
  h.invariant (DoneInv.start N hN) (fun s a _ _ hi hg hs => hi.step (hG s a hg).1 (hG s a hg).2 hs)

/-- **The items passed to the callback are a prefix of the items accepted**, by their numbers and by what was read. -/
def Fifo (s : St α) : Prop := s.hist.delivered.map Delivery.ref <+: refs s.hist.accepted s.hist.accepted.length

theorem DelivInv.items {N : Nat} {s : St α} (h : DelivInv N s) :
    s.hist.delivered.map (fun d => d.ref.item) = (s.hist.accepted.take s.hist.delivered.length).map some := by
  rw [← refs_item _ _ h.le, ← inOrder_ref N, ← h.delivered, List.map_map]
  rfl

/-- **With closures called in the callback**: while the reader never tests a slot of a ring of CONSUMED slots. -/
theorem fifo_while_some_left (N : Nat) (hN : 0 < N) (s : St α)
    (h : Reach step (fun s a => CallsDone s a ∧ SomeLeft s a) (St.start α N) s) : Fifo s := by
  have hd := (doneInv_reach hN (fun _ _ hg => hg) h).deliv
  unfold Fifo
  rw [hd.delivered, inOrder_ref]
  exact refs_mono _ hd.le

def takeOne (k : Nat) : List (Act Nat) := reading 5 ++ [.doneTest k, .doneStore, .cons]

def filledTwice : List (Act Nat) :=
  offering 7 8 ++ offering 8 8 ++ takeOne 0 ++ offering 9 14 ++ takeOne 1 ++ takeOne 2

theorem fifo_while_some_left_two : ∃ s,
    Machine.exec step (fun s a => CallsDone s a ∧ SomeLeft s a) (St.start Nat 2) filledTwice = some s ∧
    s.hist.delivered.length = 3 ∧ Fifo s :=
  ⟨_, rfl, rfl, fifo_while_some_left 2 (by decide) _ (Machine.reach_of_exec _ _ filledTwice _ rfl)⟩

/-- A ring of two read to the end; the reader steps over one CONSUMED slot before the producer reclaims both. -/
def steppedOver : List (Act Nat) :=
  offering 7 8 ++ offering 8 8 ++ takeOne 0 ++ takeOne 1 ++ reading 3 ++ offering 9 20 ++ offering 10 8 ++ takeOne 2

/-- **The reader overtakes the producer**: the fourth item reaches the callback before the third. -/
theorem overtaken_out_of_order : ∃ s, Machine.exec step CallsDone (St.start Nat 2) steppedOver = some s ∧
    s.hist.accepted = [7, 8, 9, 10] ∧ s.hist.delivered.map (fun d => d.ref.item) = [some 7, some 8, some 10] ∧
    ¬ Fifo s := by
  refine ⟨_, rfl, rfl, rfl, fun h => ?_⟩
  unfold Fifo at h
  revert h
  decide

end Shm
