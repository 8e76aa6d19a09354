import ShmMultiproc.Ahead
/-!
# Lined — runs of a ring that grows while it is in use

A run may also call `OpenWrite(maxsize, true)`, as `CreateWorker` does when a worker is created again over a ring that
is still there.  `Lined M q s` says that the reader is behind the producer on the `M` slots there are now; it holds along
the runs of `Offer`, `Take` and closures, so what is delivered is what was accepted, in order (`Lined.step`).
-/
namespace Shm

open Cyclic (Phase wrap)
open RingBuffer (openWrite)

variable {α : Type}

/-- **The items accepted and not yet delivered**, oldest first. -/
def St.pending (s : St α) : List (Ref α) :=
  (refs s.hist.accepted s.hist.accepted.length).drop s.hist.delivered.length

/-- `OpenWrite(maxsize, true)` on the ring in use. -/
def St.opened (s : St α) (maxsize : Nat) : St α := { s with ring := openWrite (some s.ring) maxsize true }

/-- **The pending items lie from `consume_idx` up to `produce_idx`**, both read as they are: the second one has not gone
round. -/
def Straight (s : St α) : Prop := s.ring.produceIdx = s.ring.consumeIdx + s.pending.length

instance (s : St α) : Decidable (Straight s) := inferInstanceAs (Decidable (_ = _))

/-! ## Runs with growths -/

/-- The reader tests no slot of an item it was given: there is one to deliver, or the slot is CLEANED.  On a single
slot, stepping over it brings the reader back where it was. -/
def StaysBehind (s : St α) : Act α → Prop
  | .cons => s.cons = .test → s.pending ≠ [] ∨ s.ring.statusAt s.ring.consumeIdx = some .cleaned ∨
      (s.ring.size = 1 ∧ s.ring.statusAt s.ring.consumeIdx = some .consumed)
  | _ => True

/-- Each closure is called at most once, and the reader stays behind the producer. -/
def Orderly (s : St α) (a : Act α) : Prop := CallsOnce s a ∧ StaysBehind s a

namespace Growing

/-- `openWrite` is a call of `OpenWrite(maxsize, true)`. -/
inductive Act (α : Type) where
  | ring (a : Shm.Act α)
  | openWrite (maxsize : Nat)
  deriving DecidableEq, Repr

/-- `OpenWrite` is called by the producer, between two offers, and while the reader is between two iterations. -/
def step (s : St α) : Act α → Option (St α)
  | .ring a => Shm.step s a
  | .openWrite maxsize =>
    match s.prod, s.cons with
    | .idle, .between _ => some (s.opened maxsize)
    | _, _ => none

/-- **The runs whose pending items lie in order before the reader**: a closure is called at most once, the reader stays
behind the producer, and a growth that adds slots finds the pending items straight. -/
def InLine (s : St α) : Act α → Prop
  | .ring a => Orderly s a
  | .openWrite maxsize => maxsize = s.ring.size ∨ (s.ring.size ≤ maxsize ∧ Straight s)

instance (s : St α) (a : Shm.Act α) : Decidable (StaysBehind s a) :=
  match a with
  | .cons => inferInstanceAs (Decidable (s.cons = .test → _ ∨ _ ∨ _))
  | .offer _ | .prod _ _ | .doneTest _ | .doneStore => .isTrue trivial

instance (s : St α) (a : Shm.Act α) : Decidable (Orderly s a) := inferInstanceAs (Decidable (_ ∧ _))

instance (s : St α) (a : Act α) : Decidable (InLine s a) :=
  match a with
  | .ring _ => inferInstanceAs (Decidable (Orderly _ _))
  | .openWrite _ => inferInstanceAs (Decidable (_ ∨ _))

end Growing

/-! ## The slots of a ring that has grown -/

namespace RingBuffer

variable {r : RingBuffer α} {n i : Nat}

theorem openWrite_some (r : RingBuffer α) (n : Nat) : openWrite (some r) n true = r.resize n := by
  unfold openWrite
  exact if_pos (.inr rfl)

theorem slots_resize (h : r.size ≤ n) :
    (r.resize n).slots = r.slots ++ List.replicate (n - r.size) (RefItem.new α) := by
  unfold resize
  rw [List.take_of_length_le h]

theorem size_resize (h : r.size ≤ n) : (r.resize n).size = n := by
  have hlen : (r.resize n).size = r.size + (n - r.size) := by
    unfold RingBuffer.size
    rw [slots_resize h, List.length_append, List.length_replicate]
    rfl
  omega

theorem slot_resize (h : r.size ≤ n) (hi : i < r.size) : (r.resize n).slots[i]? = r.slots[i]? := by
  rw [slots_resize h, List.getElem?_append_left hi]

theorem statusAt_resize (h : r.size ≤ n) (hi : i < r.size) : (r.resize n).statusAt i = r.statusAt i := by
  unfold statusAt
  rw [slot_resize h hi]

theorem valAt_resize (h : r.size ≤ n) (hi : i < r.size) : (r.resize n).valAt i = r.valAt i := by
  unfold valAt
  rw [slot_resize h hi]

theorem get_resize (h : r.size ≤ n) (hi : i < r.size) : (r.resize n).get i = r.get i := by
  unfold RingBuffer.get
  rw [valAt_resize h hi]

theorem statusAt_grown (h : r.size ≤ i) (hi : i < n) : (r.resize n).statusAt i = some .cleaned := by
  have hle : r.slots.length ≤ i := h
  have hget : (r.resize n).slots[i]? = some (RefItem.new α) := by
    rw [slots_resize (by omega), List.getElem?_append_right hle, List.getElem?_replicate, if_pos]
    show i - r.slots.length < n - r.slots.length
    omega
  unfold statusAt
  rw [hget]
  rfl

theorem resize_self (r : RingBuffer α) : r.resize r.size = r := by
  have hs : (r.resize r.size).slots = r.slots := by
    rw [slots_resize (Nat.le_refl _), Nat.sub_self, List.replicate_zero, List.append_nil]
  show RingBuffer.mk (r.resize r.size).slots r.consumeIdx r.produceIdx r.cleanedIdx = r
  rw [hs]

end RingBuffer

/-! ## What is pending -/

theorem length_pending (s : St α) : s.pending.length = s.hist.accepted.length - s.hist.delivered.length := by
  unfold St.pending refs
  rw [List.length_drop, List.length_map, List.length_range]

theorem pending_congr {s s' : St α} (ha : s'.hist.accepted = s.hist.accepted)
    (hd : s'.hist.delivered = s.hist.delivered) : s'.pending = s.pending := by
  unfold St.pending
  rw [ha, hd]

theorem pending_accepted {s s' : St α} {v : α} (ha : s'.hist.accepted = s.hist.accepted ++ [v])
    (hd : s'.hist.delivered = s.hist.delivered) (hle : s.hist.delivered.length ≤ s.hist.accepted.length) :
    s'.pending = s.pending ++ [⟨s.hist.accepted.length, some v⟩] := by
  unfold St.pending
  rw [ha, hd, List.length_append, List.length_singleton, refs_succ, refs_append _ _ (Nat.le_refl _),
    List.getElem?_concat_length, List.drop_append_of_le_length]
  unfold refs
  rw [List.length_map, List.length_range]
  exact hle

theorem pending_delivered {s s' : St α} {d : Delivery α} (ha : s'.hist.accepted = s.hist.accepted)
    (hd : s'.hist.delivered = s.hist.delivered ++ [d]) : s'.pending = s.pending.tail := by
  unfold St.pending
  rw [ha, hd, List.length_append, List.length_singleton, List.tail_drop]

theorem pending_head {s : St α} {x : Ref α} {rest : List (Ref α)} (h : s.pending = x :: rest) :
    x = ⟨s.hist.delivered.length, s.hist.accepted[s.hist.delivered.length]?⟩ := by
  have hx : s.pending[0]? = some x := by rw [h]; rfl
  unfold St.pending refs at hx
  rw [List.getElem?_drop, Nat.add_zero, List.getElem?_map] at hx
  obtain ⟨k, hk, rfl⟩ := Option.map_eq_some_iff.1 hx
  obtain ⟨-, rfl⟩ := List.getElem?_eq_some_iff.1 hk
  rw [List.getElem_range]

theorem ring_opened (s : St α) (M : Nat) : (s.opened M).ring = s.ring.resize M := RingBuffer.openWrite_some s.ring M

theorem consumeIdx_opened (s : St α) (M : Nat) : (s.opened M).ring.consumeIdx = s.ring.consumeIdx := by
  rw [ring_opened]
  rfl

theorem produceIdx_opened (s : St α) (M : Nat) : (s.opened M).ring.produceIdx = s.ring.produceIdx := by
  rw [ring_opened]
  rfl

theorem cleanedIdx_opened (s : St α) (M : Nat) : (s.opened M).ring.cleanedIdx = s.ring.cleanedIdx := by
  rw [ring_opened]
  rfl

theorem size_opened {s : St α} {M : Nat} (h : s.ring.size ≤ M) : (s.opened M).ring.size = M := by
  rw [ring_opened]
  exact RingBuffer.size_resize h

theorem statusAt_opened {s : St α} {M i : Nat} (hM : s.ring.size ≤ M) (hi : i < s.ring.size) :
    (s.opened M).ring.statusAt i = s.ring.statusAt i := by
  rw [ring_opened]
  exact RingBuffer.statusAt_resize hM hi

theorem opened_self (s : St α) : s.opened s.ring.size = s := by
  unfold St.opened
  rw [RingBuffer.openWrite_some, RingBuffer.resize_self]

/-- **A reader behind the producer**, at the count `q`: the pending items are in the slots from there up to the one to
be filled next, and the slot of a closure not yet called is INIT, is none of these, and is that of no other closure. -/
structure Lined (M q : Nat) (s : St α) : Prop where
  seen : Seen s
  ahead : Ahead M q s.pending s
  le : s.hist.delivered.length ≤ s.hist.accepted.length
  ordered : s.hist.delivered.map Delivery.ref = refs s.hist.accepted s.hist.delivered.length
  produce : Phase M (s.ring.produceIdx + s.prod.produceLag) (q + s.pending.length)
  stored : ∀ v ∈ s.prod.pend, s.ring.get s.ring.produceIdx = some v
  owed : ∀ k d, s.hist.delivered[k]? = some d → k ∉ s.hist.called →
    s.ring.statusAt d.slot = some .init ∧ s.storing ≠ some d.slot
  apart : ∀ k k' d d', s.hist.delivered[k]? = some d → s.hist.delivered[k']? = some d' → k ∉ s.hist.called →
    k' ∉ s.hist.called → d.slot = d'.slot → k = k'
  looking : s.cons = .test2 → s.pending ≠ [] ∨ s.ring.statusAt s.ring.consumeIdx = some .cleaned
  taking : s.cons.taking = true → s.pending ≠ []

namespace Lined

variable {M q : Nat} {s s' : St α}

theorem empty {r : RingBuffer α} {nf : Notifier} {last : RingBuffer.Code} {hi : Hist α} (hM : 0 < M)
    (hsize : r.size = M) (hacc : hi.accepted = []) (hdel : hi.delivered = []) (hc : r.consumeIdx = 0)
    (hp : r.produceIdx = 0) :
    Lined M 0 (⟨r, nf, .idle, .between last, none, hi⟩ : St α) := by
  have hpend : St.pending ⟨r, nf, .idle, .between last, none, hi⟩ = [] := by
    unfold St.pending
    simp only [hacc, hdel]
    rfl
  have hnone : ∀ (k : Nat) (d : Delivery α), hi.delivered[k]? = some d → False := fun k d h => by
    rw [hdel, List.getElem?_nil] at h
    cases h
  have hahead : Ahead M 0 [] (⟨r, nf, .idle, .between last, none, hi⟩ : St α) :=
    { pos := hM
      size := hsize
      short := Nat.zero_le M
      phase := by
        show Phase M r.consumeIdx 0
        rw [hc]
        exact .zero M
      fits := fun h => by cases h
      call := fun i h => by cases h
      skip := fun h => by cases h
      slots := fun j x hx => by cases hx
      uncalled := fun k d hd => (hnone k d hd).elim
      storing := fun i h => by cases h }
  exact
    { seen := .of_idle rfl (fun i h => by cases h)
      ahead := by rw [hpend]; exact hahead
      le := by
        show hi.delivered.length ≤ hi.accepted.length
        rw [hdel]
        exact Nat.zero_le _
      ordered := by
        show hi.delivered.map Delivery.ref = refs hi.accepted hi.delivered.length
        rw [hdel]
        rfl
      produce := by
        rw [hpend]
        show Phase M r.produceIdx 0
        rw [hp]
        exact .zero M
      stored := fun v h => by cases h
      owed := fun k d hd => (hnone k d hd).elim
      apart := fun k k' d d' hd => (hnone k d hd).elim
      looking := fun h => by cases h
      taking := fun h => by cases h }

/-! ### The producer -/

theorem frame (h : Lined M q s) (hk : InitKept s s') (hseen : Seen s') (ha : s'.hist.accepted = s.hist.accepted)
    (hp : Phase M (s'.ring.produceIdx + s'.prod.produceLag) (q + s.pending.length))
    (hst : ∀ v ∈ s'.prod.pend, s'.ring.get s'.ring.produceIdx = some v)
    (hcl : ∀ i, s.ring.statusAt i = some .cleaned → s'.ring.statusAt i = some .cleaned) : Lined M q s' := by
  have hpend := pending_congr ha hk.delivered
  refine ⟨hseen, ?_, ?_, ?_, ?_, hst, ?_, ?_, ?_, ?_⟩
  · rw [hpend]
    exact h.ahead.initKept hk
  · rw [ha, hk.delivered]
    exact h.le
  · rw [ha, hk.delivered]
    exact h.ordered
  · rw [hpend]
    exact hp
  · rw [hk.delivered, hk.called, hk.storing]
    exact fun k d hd hc => ⟨(hk.slot _ (h.owed k d hd hc).1).1, (h.owed k d hd hc).2⟩
  · rw [hk.delivered, hk.called]
    exact h.apart
  · rw [hk.cons, hpend, hk.consumeIdx]
    exact fun hl => (h.looking hl).imp_right (hcl _)
  · rw [hk.cons, hpend]
    exact h.taking

theorem publish {v : α} {t t' : Int} (h : Lined M q s) (hpc : s.prod = .publish v)
    (hs : step s (.prod t t') = some s') : Lined M q s' := by
  have hk := h.seen.initKept hs
  have hseen := h.seen.prod hs
  have hfree : s.ring.statusAt s.ring.produceIdx = some .cleaned := h.seen.fills (by rw [hpc]; rfl)
  have hval : s.ring.get s.ring.produceIdx = some v := h.stored v (by rw [hpc]; rfl)
  have hlt : s.ring.produceIdx < M := by
    rw [← h.ahead.size]
    exact RingBuffer.lt_of_statusAt hfree
  have hphase := h.produce
  rw [hpc, show (ProdPc.publish v).produceLag = 0 from rfl, Nat.add_zero] at hphase
  have hidx := hphase.eq_mod hlt
  simp only [step, prodStep, hpc, Option.some.injEq] at hs
  have hring : s'.ring = s.ring.setStatus s.ring.produceIdx .init := by rw [← hs]
  have hhist : s'.hist.accepted = s.hist.accepted ++ [v] ∧
      s'.hist.owner s.ring.produceIdx = s.hist.accepted.length := by
    rw [← hs]
    exact ⟨rfl, Function.update_self ..⟩
  have hprod : s'.prod = .notify v := by rw [← hs]
  have hpend := pending_accepted hhist.1 hk.delivered h.le
  refine ⟨hseen, ?_, ?_, ?_, ?_, fun w hw => ?_, ?_, ?_, fun hl => .inl ?_, fun _ => ?_⟩
  · rw [hpend]
    refine h.ahead.append hk ?_ ?_ (fun k d hd hc => (h.owed k d hd hc).1) h.seen.storing
    · rw [← hidx, hfree]
      simp
    · rw [← hidx]
      refine ⟨?_, hhist.2, ?_⟩
      · rw [hring]
        exact RingBuffer.statusAt_setStatus_self _ hfree
      · rw [hring, ← hval]
        unfold RingBuffer.get
        rw [RingBuffer.valAt_setStatus]
  · rw [hk.delivered, hhist.1, List.length_append]
    exact h.le.trans (Nat.le_add_right _ _)
  · rw [hk.delivered, hhist.1, refs_append _ _ h.le]
    exact h.ordered
  · rw [hpend, hprod, hring, List.length_append, List.length_singleton, ← Nat.add_assoc]
    exact hphase.succ hlt
  · rw [hprod] at hw
    cases hw
  · rw [hk.delivered, hk.called, hk.storing]
    exact fun k d hd hc => ⟨(hk.slot _ (h.owed k d hd hc).1).1, (h.owed k d hd hc).2⟩
  · rw [hk.delivered, hk.called]
    exact h.apart
  · rw [hpend]
    exact List.append_ne_nil_of_right_ne_nil _ (List.cons_ne_nil _ _)
  · rw [hpend]
    exact List.append_ne_nil_of_right_ne_nil _ (List.cons_ne_nil _ _)

theorem prod {t t' : Int} (h : Lined M q s) (hs : step s (.prod t t') = some s') : Lined M q s' := by
  by_cases hpub : ∃ v, s.prod = .publish v
  · obtain ⟨v, hpc⟩ := hpub
    exact h.publish hpc hs
  · have hk := h.seen.initKept hs
    have hseen := h.seen.prod hs
    have hphase := h.produce
    have hstored := h.stored
    have hfill := h.seen.fills
    have hsize := h.ahead.size
    obtain ⟨r, nf, pc, cs, so, hi⟩ := s
    cases pc with
    | idle => cases hs
    | publish v => exact absurd ⟨v, rfl⟩ hpub
    | clean v | drop v | advance v | refuse v | notify v | bump v =>
      cases hs
      exact h.frame hk hseen rfl hphase (fun w hw => by cases hw) (fun i hi => hi)
    | cleanTest v | test v =>
      simp only [step, prodStep] at hs
      split at hs <;> cases hs <;>
        exact h.frame hk hseen rfl hphase (fun w hw => by cases hw) (fun i hi => hi)
    | wrap v =>
      cases hs
      refine h.frame hk hseen rfl ?_ (fun w hw => by cases hw) (fun i hi => hi)
      show Phase M (wrap r.size r.produceIdx) _
      rw [show r.size = M from hsize]
      exact hphase.wrapped h.ahead.pos
    | null v =>
      cases hs
      exact h.frame hk hseen rfl hphase (fun w hw => by cases hw) (fun i hi => (RingBuffer.statusAt_setVal ..).trans hi)
    | mark v =>
      cases hs
      refine h.frame hk hseen rfl hphase (fun w hw => by cases hw) (fun i hi => ?_)
      show (r.setStatus r.cleanedIdx .cleaned).statusAt i = some .cleaned
      rw [RingBuffer.statusAt_setStatus]
      split
      · rename_i he
        subst he
        exact congrArg (Option.map (fun _ => Status.cleaned)) hi
      · exact hi
    | store v =>
      cases hs
      refine h.frame hk hseen rfl hphase (fun w hw => ?_) (fun i hi => (RingBuffer.statusAt_setVal ..).trans hi)
      cases hw
      obtain ⟨x, hx⟩ := RingBuffer.exists_valAt (RingBuffer.lt_of_statusAt (hfill rfl))
      show ((r.setVal r.produceIdx (some v)).valAt r.produceIdx).join = some v
      rw [RingBuffer.valAt_setVal, if_pos rfl, hx]
      rfl


/-! ### The reader and its closures -/

theorem moved (h : Lined M q s) (hs : step s .cons = some s') (hc : ∀ i, s.cons ≠ .call i)
    (hskip : s.cons = .test → s.ring.statusAt s.ring.consumeIdx = some .consumed → M = 1)
    (hl : s'.cons = .test2 → s.pending ≠ [] ∨ s.ring.statusAt s'.ring.consumeIdx = some .cleaned)
    (ht : s'.cons.taking = true → s.pending ≠ []) : Lined M q s' := by
  obtain ⟨hslots, hp, -, hprod, hso⟩ := reader_frame hs
  obtain ⟨hh, ha⟩ := h.ahead.quiet hc hskip hs
  have hpend : s'.pending = s.pending := pending_congr (congrArg Hist.accepted hh) (congrArg Hist.delivered hh)
  have hst := RingBuffer.statusAt_congr hslots
  refine ⟨h.seen.cons hs, ?_, ?_, ?_, ?_, ?_, ?_, ?_, ?_, ?_⟩
  · rw [hpend]
    exact ha
  · rw [hh]
    exact h.le
  · rw [hh]
    exact h.ordered
  · rw [hp, hprod, hpend]
    exact h.produce
  · rw [hp, hprod]
    unfold RingBuffer.get
    rw [RingBuffer.valAt_congr hslots]
    exact h.stored
  · rw [hh, hso]
    exact fun k d hd hk => ⟨(hst _).trans (h.owed k d hd hk).1, (h.owed k d hd hk).2⟩
  · rw [hh]
    exact h.apart
  · rw [hpend]
    exact fun h' => (hl h').imp_right ((hst _).trans ·)
  · rw [hpend]
    exact ht

theorem deliver {i : Nat} (h : Lined M q s) (hc : s.cons = .call i) (hs : step s .cons = some s') :
    Lined M (q + 1) s' := by
  obtain ⟨hslots, hp, -, hprod, hso⟩ := reader_frame hs
  obtain ⟨x, rest, hx⟩ := List.exists_cons_of_ne_nil (h.taking (by rw [hc]; rfl))
  have hah := h.ahead
  rw [hx] at hah
  obtain ⟨hh, hcb, ha⟩ := hah.deliver hc hs
  have hacc : s'.hist.accepted = s.hist.accepted := by rw [hh]
  have hdel : s'.hist.delivered = s.hist.delivered ++ [⟨q % M, x⟩] := by rw [hh]
  have hcalled : s'.hist.called = s.hist.called := by rw [hh]
  have hpend : s'.pending = rest := by rw [pending_delivered hacc hdel, hx]; rfl
  have hst := RingBuffer.statusAt_congr hslots
  obtain ⟨hinit, -⟩ := hah.slots 0 x rfl
  have hcases : ∀ {k d}, s'.hist.delivered[k]? = some d →
      s.hist.delivered[k]? = some d ∨ (k = s.hist.delivered.length ∧ d.slot = (q + 0) % M) := fun {k d} hd => by
    rw [hdel, List.getElem?_append] at hd
    split at hd
    · exact .inl hd
    · obtain ⟨hlt, rfl⟩ := List.getElem?_eq_some_iff.1 hd
      rw [List.length_singleton] at hlt
      refine .inr ⟨by omega, ?_⟩
      rw [List.getElem_singleton]
      rfl
  have hzero : 0 < (x :: rest).length := Nat.succ_pos _
  refine ⟨h.seen.cons hs, ?_, ?_, ?_, ?_, ?_, fun k d hd hk => ?_, fun k k' d d' hd hd' hk hk' he => ?_, fun h' => ?_,
    fun h' => ?_⟩
  · rw [hpend]
    exact ha
  · have hlen := length_pending s
    rw [hx, List.length_cons] at hlen
    rw [hacc, hdel, List.length_append, List.length_singleton]
    omega
  · rw [hacc, hdel, List.map_append, List.length_append, List.length_singleton, refs_succ, h.ordered, pending_head hx]
    rfl
  · have hphase := h.produce
    rw [hx, List.length_cons, Nat.add_comm rest.length 1, ← Nat.add_assoc] at hphase
    rw [hp, hprod, hpend]
    exact hphase
  · rw [hp, hprod]
    unfold RingBuffer.get
    rw [RingBuffer.valAt_congr hslots]
    exact h.stored
  · rw [hst, hso]
    rw [hcalled] at hk
    rcases hcases hd with hd | ⟨-, hslot⟩
    · exact h.owed k d hd hk
    · rw [hslot]
      exact ⟨hinit, fun he => hah.storing _ he 0 hzero rfl⟩
  · rw [hcalled] at hk hk'
    rcases hcases hd with hd | ⟨rfl, hslot⟩
    · rcases hcases hd' with hd' | ⟨rfl, hslot'⟩
      · exact h.apart k k' d d' hd hd' hk hk' he
      · exact absurd (he.trans hslot') (hah.uncalled k d hd hk 0 hzero)
    · rcases hcases hd' with hd' | ⟨rfl, -⟩
      · exact absurd (he.symm.trans hslot) (hah.uncalled k' d' hd' hk' 0 hzero)
      · rfl
  · rw [hcb] at h'
    cases h'
  · rw [hcb] at h'
    cases h'

theorem cons (h : Lined M q s) (hg : StaysBehind s .cons) (hs : step s .cons = some s') : ∃ q', Lined M q' s' := by
  by_cases hcall : ∃ i, s.cons = .call i
  · obtain ⟨i, hc⟩ := hcall
    exact ⟨q + 1, h.deliver hc hs⟩
  · have hskip : s.cons = .test → s.ring.statusAt s.ring.consumeIdx = some .consumed → M = 1 := by
      intro ht hst
      rcases hg ht with hne | hcl | ⟨hone, -⟩
      · obtain ⟨x, rest, hx⟩ := List.exists_cons_of_ne_nil hne
        have hah := h.ahead
        rw [hx] at hah
        rw [hah.init_of_cons (by rw [ht]; rfl) (by rw [ht]; rfl)] at hst
        cases hst
      · rw [hcl] at hst
        cases hst
      · rw [← h.ahead.size, hone]
    have hlook := h.looking
    have hmoved := h.moved hs (fun i hi => hcall ⟨i, hi⟩) hskip
    obtain ⟨r, nf, pc, cs, so, hi⟩ := s
    cases cs with
    | between last =>
      refine ⟨q, hmoved (fun h' => ?_) (fun h' => ?_)⟩ <;> cases hs <;> simp only at h' <;> split at h' <;> cases h'
    | test =>
      simp only [step, consStep] at hs
      split at hs <;> cases hs
      · exact ⟨q, hmoved (fun h' => by cases h') (fun h' => by cases h')⟩
      · rename_i st hnc hst
        refine ⟨q, hmoved (fun _ => ?_) (fun h' => by cases h')⟩
        rcases hg rfl with hne | hcl | ⟨-, hco⟩
        · exact .inl hne
        · exact .inr hcl
        · exact (hnc (Option.some.inj (hst.symm.trans hco))).elim
    | skip | callback k => cases hs; exact ⟨q, hmoved (fun h' => by cases h') (fun h' => by cases h')⟩
    | test2 =>
      simp only [step, consStep] at hs
      split at hs <;> cases hs
      · rename_i hst
        refine ⟨q, hmoved (fun h' => by cases h') (fun _ => (hlook rfl).resolve_right (fun hcl => ?_))⟩
        cases hst.symm.trans hcl
      · exact ⟨q, hmoved (fun h' => by cases h') (fun h' => by cases h')⟩
    | take =>
      have htake := h.taking
      cases hs
      exact ⟨q, hmoved (fun h' => by cases h') (fun _ => htake rfl)⟩
    | call i => exact absurd ⟨i, rfl⟩ hcall

theorem doneTest {k : Nat} (h : Lined M q s) (hg : CallsOnce s (.doneTest k)) (hs : step s (.doneTest k) = some s') :
    Lined M q s' := by
  have hseen := h.seen.step hs
  have ha := h.ahead.doneTest hg hs
  simp only [step, doneTestStep] at hs
  split at hs
  · rename_i d hso hd
    have hmem : ∀ {j}, j ∉ s.hist.called ++ [k] → j ∉ s.hist.called ∧ j ≠ k := fun {j} hj =>
      ⟨fun hm => hj (List.mem_append_left _ hm), fun he => hj (he ▸ List.mem_append_right _ List.mem_cons_self)⟩
    have hapart : ∀ j j' c c', s.hist.delivered[j]? = some c → s.hist.delivered[j']? = some c' →
        j ∉ s.hist.called ++ [k] → j' ∉ s.hist.called ++ [k] → c.slot = c'.slot → j = j' :=
      fun j j' c c' hc hc' hj hj' => h.apart j j' c c' hc hc' (hmem hj).1 (hmem hj').1
    split at hs <;> cases hs
    · refine { h with seen := hseen, ahead := ha, apart := hapart, owed := fun j c hc hj => ⟨?_, fun he => ?_⟩ }
      · exact (h.owed j c hc (hmem hj).1).1
      · exact (hmem hj).2 (h.apart j k c d hc hd (hmem hj).1 hg (Option.some.inj he).symm)
    · exact { h with seen := hseen, ahead := ha, apart := hapart, owed := fun j c hc hj => h.owed j c hc (hmem hj).1 }
  · cases hs

theorem doneStore (h : Lined M q s) (hs : step s .doneStore = some s') : Lined M q s' := by
  have hseen := h.seen.step hs
  have ha := h.ahead.doneStore hs
  simp only [step, doneStoreStep] at hs
  split at hs <;> cases hs
  rename_i i hso
  have hother : ∀ {j st}, s.ring.statusAt j = some st → i ≠ j → (s.ring.setStatus i .consumed).statusAt j = some st :=
    fun hj hne => (RingBuffer.statusAt_setStatus_ne _ _ hne).trans hj
  refine { h with
    seen := hseen
    ahead := ha
    stored := fun v hv => ?_
    owed := fun k d hd hk => ⟨?_, ?_⟩
    looking := fun hl => ?_ }
  · exact (congrArg Option.join (RingBuffer.valAt_setStatus ..)).trans (h.stored v hv)
  · obtain ⟨hinit, hne⟩ := h.owed k d hd hk
    exact hother hinit (fun he => hne (he ▸ hso))
  · exact fun he => by cases he
  · refine (h.looking hl).imp_right (fun hcl => hother hcl (fun he => ?_))
    have hinit := h.seen.storing i hso
    rw [he] at hinit
    cases hinit.symm.trans hcl


theorem step {a : Act α} (h : Lined M q s) (ho : CallsOnce s a) (hg : StaysBehind s a) (hs : Shm.step s a = some s') :
    ∃ q', Lined M q' s' := by
  cases a with
  | offer v =>
    have hseen := h.seen.step hs
    simp only [Shm.step] at hs
    split at hs <;> cases hs
    rename_i hidle
    have hphase := h.produce
    rw [hidle] at hphase
    exact ⟨q, h.frame ⟨rfl, rfl, rfl, rfl, rfl, rfl, fun i hi => ⟨hi, rfl, rfl⟩⟩ hseen rfl hphase
      (fun w hw => by cases hw) (fun i hi => hi)⟩
  | prod t t' => exact ⟨q, h.prod hs⟩
  | cons => exact h.cons hg hs
  | doneTest k => exact ⟨q, h.doneTest ho hs⟩
  | doneStore => exact ⟨q, h.doneStore hs⟩

end Lined

end Shm
