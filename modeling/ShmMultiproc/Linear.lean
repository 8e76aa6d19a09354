import ShmMultiproc.Delivery
import ShmMultiproc.Lib.Channel
/-!
# Linear — interleaved calls are atomic ones on a channel

The steps at which an `Offer`, an iteration of `Take` and a `done` closure take effect: `Offer` accepts when it sets the
slot to INIT and refuses when it tests the status of a slot in use, an item is received when the callback is called.  With
`St.channel` forgetting everything but the effects, every interleaving of the accesses is a run of the atomic channel
(`refines_channel`), as long as the reader does not lap the producer.
-/
namespace Shm

open Cyclic (wrap Phase)
open RingBuffer (errOverload)
open Machine (Reach)

variable {α : Type}

/-- What an `Offer` whose effect has taken place is about to answer. -/
def ProdPc.outcome : ProdPc α → List (α × Int)
  | .refuse v => [(v, errOverload)]
  | .notify v | .bump v => [(v, 0)]
  | _ => []

/-- **The channel that a state stands for.** -/
def St.channel (s : St α) : Channel.State α where
  sent := s.hist.accepted
  received := s.hist.delivered.filterMap (fun d => d.ref.item)
  acked := s.hist.marked
  freed := s.hist.cleaned
  answers := (s.hist.finished ++ s.prod.outcome).map (fun p => (p.1, decide (p.2 = 0)))

namespace DelivInv

variable {N : Nat} {s s' : St α}

theorem received (h : DelivInv N s) : s.channel.received = s.hist.accepted.take s.hist.delivered.length := by
  have hitems := h.items
  have hmap : s.channel.received = (s.hist.delivered.map (fun d => d.ref.item)).filterMap id := by
    rw [List.filterMap_map]
    rfl
  rw [hmap, hitems, List.filterMap_map]
  exact List.filterMap_some

theorem received_length (h : DelivInv N s) : s.channel.received.length = s.hist.delivered.length := by
  rw [h.received, List.length_take]
  exact Nat.min_eq_left h.le

theorem channel_prod (h : DelivInv N s) {t t' : Int} (hs : Shm.step s (.prod t t') = some s') :
    s'.channel = s.channel ∨ ∃ a, Channel.step N s.channel a = some s'.channel := by
  obtain ⟨r, nf, pc, cs, so, hi⟩ := s
  cases pc with
  | idle => cases hs
  | clean v | drop v | null v | advance v | wrap v | store v => cases hs; exact .inl rfl
  | cleanTest v =>
    simp only [Shm.step, prodStep] at hs
    split at hs <;> cases hs <;> exact .inl rfl
  | mark v =>
    cases hs
    obtain ⟨hlt, hst⟩ := h.ring.oldest rfl
    have hmem : hi.cleaned ∈ hi.marked := (h.ring.markedIn hi.cleaned (Nat.le_refl _) hlt).2 hst
    exact .inr ⟨.free, if_pos hmem⟩
  | test v =>
    simp only [Shm.step, prodStep] at hs
    split at hs
    · cases hs
    · cases hs
      exact .inl rfl
    · rename_i st hne hst
      cases hs
      have hp : r.produceIdx = hi.accepted.length % N := h.ring.producePhase.eq_mod (h.ring.produceLt rfl)
      have hfull : ¬ hi.accepted.length < hi.cleaned + N := by
        intro hlt
        have hfree := h.ring.window.free _ (Nat.le_refl _) hlt
        have hst : r.statusAt r.produceIdx = some st := hst
        rw [hp] at hst
        exact hne (Option.some.inj (hst.symm.trans hfree))
      refine .inr ⟨.refuse v, (if_neg hfull).trans ?_⟩
      simp only [St.channel, ProdPc.outcome, List.append_nil, List.map_append]
      rfl
  | refuse v =>
    cases hs
    refine .inl ?_
    simp only [St.channel, ProdPc.outcome, List.append_nil]
  | publish v =>
    cases hs
    have hroom : hi.accepted.length < hi.cleaned + N := h.ring.room rfl
    refine .inr ⟨.send v, (if_pos hroom).trans ?_⟩
    simp only [St.channel, ProdPc.outcome, List.append_nil, List.map_append]
    rfl
  | notify v => cases hs; exact .inl rfl
  | bump v =>
    cases hs
    refine .inl ?_
    simp only [St.channel, ProdPc.outcome, List.append_nil]

theorem channel_cons (h : DelivInv N s) (hs : Shm.step s .cons = some s') :
    s'.channel = s.channel ∨ ∃ a, Channel.step N s.channel a = some s'.channel := by
  have hlen := h.received_length
  obtain ⟨r, nf, pc, cs, so, hi⟩ := s
  cases cs with
  | between last | skip | take | callback k => cases hs; exact .inl rfl
  | test | test2 =>
    simp only [Shm.step, consStep] at hs
    split at hs <;> cases hs <;> exact .inl rfl
  | call i =>
    cases hs
    obtain ⟨hlt, hst⟩ := h.taking rfl
    have hget : r.get i = hi.accepted[hi.delivered.length]? := by
      rw [h.call i rfl]
      exact h.ring.get_of_init h.cleanedLe hlt hst
    have hv : hi.accepted[hi.delivered.length]? = some hi.accepted[hi.delivered.length] :=
      List.getElem?_eq_getElem hlt
    refine .inr ⟨.receive, ?_⟩
    unfold Channel.step
    rw [hlen]
    simp only [St.channel, hv, hget, List.filterMap_append]
    rfl

theorem channel_doneStore (h : DelivInv N s) (hs : Shm.step s .doneStore = some s') :
    ∃ a, Channel.step N s.channel a = some s'.channel := by
  simp only [Shm.step, doneStoreStep] at hs
  split at hs
  · cases hs
  · rename_i i hso
    cases hs
    obtain ⟨k, hk, hcalled, rfl⟩ := h.storing i hso
    have hlt := h.calledLt k hcalled
    have hacc : k < s.hist.accepted.length := Nat.lt_of_lt_of_le hlt h.le
    have hnot : k ∉ s.hist.marked := by
      intro hm
      have hc := (h.ring.markedIn k hk hacc).1 hm
      rw [h.ring.storing _ hso] at hc
      cases hc
    have hack : k < s.channel.received.length ∧ k ∉ s.channel.acked := ⟨by rw [h.received_length]; exact hlt, hnot⟩
    refine ⟨.ack k, (if_pos hack).trans ?_⟩
    simp only [St.channel, h.ring.owner k hk hacc]

/-- **Each step of a reader that does not lap has at most one effect.** -/
theorem channel_step (h : DelivInv N s) {a : Act α} (hs : Shm.step s a = some s') :
    s'.channel = s.channel ∨ ∃ a, Channel.step N s.channel a = some s'.channel := by
  cases a with
  | offer v =>
    simp only [Shm.step] at hs
    split at hs
    · rename_i hidle
      cases hs
      refine .inl ?_
      simp only [St.channel, hidle, ProdPc.outcome]
    · cases hs
  | prod t t' => exact h.channel_prod hs
  | cons => exact h.channel_cons hs
  | doneTest k =>
    simp only [Shm.step, doneTestStep] at hs
    split at hs
    · split at hs <;> cases hs <;> exact .inl rfl
    · cases hs
  | doneStore => exact .inr (h.channel_doneStore hs)

end DelivInv

/-- **Interleaved calls are atomic calls on a channel with room for `N`**, with closures called in any order and at any
time, as long as the reader does not lap the producer; so the channel's promises hold of the ring. -/
theorem refines_channel (N : Nat) (hN : 0 < N) (s : St α)
    (h : Reach step (fun s a => CallsOnce s a ∧ Unlapped s a) (St.start α N) s) :
    Reach (Channel.step N) Machine.anyStep (Channel.new α) s.channel ∧ Channel.Sound N s.channel := by
  have hreach : Reach (Channel.step N) Machine.anyStep (Channel.new α) s.channel := by
    show Reach _ _ (St.start α N).channel s.channel
    refine h.simulate (fun s₁ a s₂ hr hg hs => ?_)
    rcases (delivInv_reach hN hr).channel_step hs with he | ⟨b, hb⟩
    · rw [he]
      exact .init
    · exact .single trivial hb
  exact ⟨hreach, Channel.sound_reach hreach⟩

/-- A third offer finds a ring of two full and is refused; both closures are then called, the second one's first. -/
def refusedOnce : List (Act Nat) :=
  offering 7 8 ++ offering 8 8 ++ offering 9 5 ++ reading 12 ++ [.doneTest 1, .doneStore, .doneTest 0, .doneStore]

theorem refines_channel_two : ∃ s,
    Machine.exec step (fun s a => CallsOnce s a ∧ Unlapped s a) (St.start Nat 2) refusedOnce = some s ∧
    s.channel = ⟨[7, 8], [7, 8], [1, 0], 0, [(7, true), (8, true), (9, false)]⟩ ∧
    Reach (Channel.step 2) Machine.anyStep (Channel.new Nat) s.channel ∧ Channel.Sound 2 s.channel :=
  ⟨_, rfl, rfl, refines_channel 2 (by decide) _ (Machine.reach_of_exec _ _ refusedOnce _ rfl)⟩

end Shm
