import ShmMultiproc.RingInv
/-!
# HandOff — whose slot it is, a load at a time

The reader owns a slot from its second test of the status (INIT) until the `done` closure has stored CONSUMED
(`St.held`).  `consumeItem` reads `val` four times in between, two for `GetType` and two for `Get`, so `Fine` runs these
loads one by one.  Nothing here depends on where the three indices stand: the producer writes a slot only after it saw it
CONSUMED or CLEANED, and only the producer makes a slot INIT, so a run may start on any ring whose INIT slots hold their
items (`Whole`), as one that was resized or reopened under way.
-/
namespace Shm

open Machine (Reach)

/-- `TypeRefItem` as the callback sees it. -/
structure TypeRefItem (τ π : Type) where
  type : τ
  val : π
  deriving DecidableEq, Repr

variable {α β τ π : Type}

/-! ## Who may write -/

def St.held (s : St α) : Option Nat :=
  match s.cons with
  | .take => some s.ring.consumeIdx
  | .call i => some i
  | .callback k =>
    if k ∉ s.hist.called ∨ s.storing ≠ none then s.hist.delivered[k]?.map Delivery.slot else none
  | _ => none

def St.writes (s : St α) : Option Nat :=
  match s.prod with
  | .null _ | .mark _ => some s.ring.cleanedIdx
  | .store _ | .publish _ => some s.ring.produceIdx
  | _ => none

theorem slots_of_not_written {s s' : St α} {t t' : Int} {i : Nat} (hs : step s (.prod t t') = some s')
    (hi : s.writes ≠ some i) : s'.ring.slots[i]? = s.ring.slots[i]? := by
  obtain ⟨r, nf, pc, cs, so, hist⟩ := s
  cases pc with
  | idle => cases hs
  | cleanTest v =>
    simp only [step, prodStep] at hs
    split at hs <;> cases hs <;> rfl
  | test v =>
    simp only [step, prodStep] at hs
    split at hs <;> cases hs <;> rfl
  | null v | mark v | store v | publish v =>
    cases hs
    exact List.getElem?_modify_ne _ _ (fun e => hi (congrArg some e))
  | clean v | drop v | advance v | wrap v | refuse v | notify v | bump v => cases hs; rfl

/-! ## The invariant -/

/-- **Every INIT slot holds the item it was last set to INIT for**, and that item is in no other slot in use and among
none of those dropped. -/
structure Whole (s : St α) : Prop where
  item : ∀ i, s.ring.statusAt i = some .init →
    ∃ v, s.ring.valAt i = some (some v) ∧ s.hist.accepted[s.hist.owner i]? = some v
  ownerLt : ∀ i, s.ring.statusAt i = some .consumed → s.hist.owner i < s.hist.accepted.length
  single : ∀ i j, s.ring.statusAt i = some .init → i ≠ j →
    s.ring.statusAt j = some .init ∨ s.ring.statusAt j = some .consumed → s.hist.owner j ≠ s.hist.owner i
  live : ∀ i, s.ring.statusAt i = some .init → ∀ x ∈ s.hist.dropped, x.seq ≠ s.hist.owner i
  droppedLt : ∀ x ∈ s.hist.dropped, x.seq < s.hist.accepted.length

/-- **What the producer and the reader know of the slots they are working on.** -/
structure Owning (s : St α) : Prop where
  whole : Whole s
  reclaims : s.prod.reclaims = true → s.ring.statusAt s.ring.cleanedIdx = some .consumed
  fills : s.prod.fills = true → s.ring.statusAt s.ring.produceIdx = some .cleaned
  stored : ∀ v, s.prod = .publish v → s.ring.valAt s.ring.produceIdx = some (some v)
  held : ∀ i, s.held = some i → s.ring.statusAt i = some .init
  storing : ∀ i, s.storing = some i →
    ∃ k d, s.cons = .callback k ∧ k ∈ s.hist.called ∧ s.hist.delivered[k]? = some d ∧ d.slot = i
  running : ∀ k, s.cons = .callback k → k < s.hist.delivered.length
  calledLt : ∀ k ∈ s.hist.called, k < s.hist.delivered.length

/-- Neither party is in the middle of a call. -/
structure Quiet (s : St α) : Prop where
  prod : s.prod = .idle
  cons : ∃ c, s.cons = .between c
  storing : s.storing = none
  calledLt : ∀ k ∈ s.hist.called, k < s.hist.delivered.length

namespace Whole

theorem start (n : Nat) : Whole (St.start α n) := by
  have hst : ∀ i st, (St.start α n).ring.statusAt i = some st → st = .cleaned := by
    intro i st hi
    have hi : (RingBuffer.openWrite none n true : RingBuffer α).statusAt i = some st := hi
    rw [RingBuffer.openWrite_new, RingBuffer.statusAt_fresh] at hi
    split at hi
    · exact (Option.some.inj hi).symm
    · cases hi
  exact {
    item := fun i hi => by cases hst i _ hi
    ownerLt := fun i hi => by cases hst i _ hi
    single := fun i _ hi => by cases hst i _ hi
    live := fun i hi => by cases hst i _ hi
    droppedLt := fun x hx => by cases hx }

variable {s s' : St α}

theorem of_slots (h : Whole s) (ha : s'.hist.accepted = s.hist.accepted) (ho : s'.hist.owner = s.hist.owner)
    (hd : s'.hist.dropped = s.hist.dropped)
    (hst : ∀ i st, s'.ring.statusAt i = some st → st ≠ .cleaned → s.ring.statusAt i = some st)
    (hv : ∀ i, s'.ring.statusAt i = some .init → s'.ring.valAt i = s.ring.valAt i) : Whole s' where
  item := fun i hi => by
    rw [hv i hi, ha, ho]
    exact h.item i (hst i _ hi (by simp))
  ownerLt := fun i hi => by
    rw [ha, ho]
    exact h.ownerLt i (hst i _ hi (by simp))
  single := fun i j hi hne hj => by
    rw [ho]
    exact h.single i j (hst i _ hi (by simp)) hne
      (hj.imp (fun hj => hst j _ hj (by simp)) (fun hj => hst j _ hj (by simp)))
  live := fun i hi => by
    rw [ho, hd]
    exact h.live i (hst i _ hi (by simp))
  droppedLt := by
    rw [ha, hd]
    exact h.droppedLt

theorem setVal {j : Nat} {w : Option α} (h : Whole s) (hj : s.ring.statusAt j ≠ some .init)
    (hr : s'.ring = s.ring.setVal j w) (hh : s'.hist = s.hist) : Whole s' := by
  have hst : ∀ i, s'.ring.statusAt i = s.ring.statusAt i := fun i => by rw [hr, RingBuffer.statusAt_setVal]
  refine h.of_slots (by rw [hh]) (by rw [hh]) (by rw [hh]) (fun i st hi _ => (hst i).symm.trans hi) (fun i hi => ?_)
  rw [hr, RingBuffer.valAt_setVal, if_neg]
  rintro rfl
  exact hj ((hst j).symm.trans hi)

end Whole

namespace Owning

variable {s s' : St α}

theorem of_quiet (hw : Whole s) (hq : Quiet s) : Owning s := by
  obtain ⟨c, hc⟩ := hq.cons
  have hp := hq.prod
  exact {
    whole := hw
    reclaims := fun h' => by rw [hp] at h'; cases h'
    fills := fun h' => by rw [hp] at h'; cases h'
    stored := fun v h' => by rw [hp] at h'; cases h'
    held := fun i hi => by unfold St.held at hi; rw [hc] at hi; cases hi
    storing := fun i hi => by rw [hq.storing] at hi; cases hi
    running := fun k hk => by rw [hc] at hk; cases hk
    calledLt := hq.calledLt }

theorem not_written (h : Owning s) {i : Nat} (hi : s.ring.statusAt i = some .init) : s.writes ≠ some i := by
  intro hw
  have hc := h.reclaims
  have hf := h.fills
  obtain ⟨r, nf, pc, cs, so, hist⟩ := s
  cases pc with
  | null v | mark v =>
    cases hw
    rw [hc rfl] at hi
    cases hi
  | store v | publish v =>
    cases hw
    rw [hf rfl] at hi
    cases hi
  | idle | clean v | cleanTest v | drop v | advance v | wrap v | test v | refuse v | notify v | bump v => cases hw

theorem init_of_storing (h : Owning s) {i : Nat} (hi : s.storing = some i) : s.ring.statusAt i = some .init := by
  obtain ⟨k, d, hc, -, hd, rfl⟩ := h.storing i hi
  refine h.held _ ?_
  unfold St.held
  rw [hc]
  simp only [hi, hd]
  rw [if_pos (.inr (by simp))]
  rfl

theorem held_of_frame (h : Owning s) (hc : s'.cons = s.cons) (hso : s'.storing = s.storing)
    (hci : s'.ring.consumeIdx = s.ring.consumeIdx) (hd : s'.hist.delivered = s.hist.delivered)
    (hcl : s'.hist.called = s.hist.called)
    (hst : ∀ i, s.ring.statusAt i = some .init → s'.ring.statusAt i = some .init) :
    ∀ i, s'.held = some i → s'.ring.statusAt i = some .init := by
  intro i hi
  refine hst i (h.held i ?_)
  rw [← hi]
  unfold St.held
  rw [hc, hso, hci, hd, hcl]

theorem offer {v : α} (h : Owning s) (hs : step s (.offer v) = some s') : Owning s' := by
  obtain ⟨r, nf, pc, cs, so, hist⟩ := s
  cases pc <;> simp only [step, Option.some.injEq, reduceCtorEq] at hs
  subst hs
  exact { h with
    whole := { h.whole with }
    reclaims := fun h' => by cases h'
    fills := fun h' => by cases h'
    stored := fun v h' => by cases h' }

theorem publish {v : α} {r : RingBuffer α} {nf : Notifier} {cs : ConsPc} {so : Option Nat} {hist : Hist α} {t t' : Int}
    (h : Owning ⟨r, nf, .publish v, cs, so, hist⟩)
    (hs : step ⟨r, nf, .publish v, cs, so, hist⟩ (.prod t t') = some s') : Owning s' := by
  cases hs
  have hp : r.statusAt r.produceIdx = some .cleaned := h.fills rfl
  have hself : (r.setStatus r.produceIdx .init).statusAt r.produceIdx = some .init :=
    RingBuffer.statusAt_setStatus_self _ hp
  have hother : ∀ {i}, r.produceIdx ≠ i → (r.setStatus r.produceIdx .init).statusAt i = r.statusAt i :=
    fun hne => RingBuffer.statusAt_setStatus_ne _ _ hne
  have hne : ∀ {i st}, r.statusAt i = some st → st ≠ .cleaned → r.produceIdx ≠ i := by
    intro i st hi hst e
    rw [← e, hp] at hi
    cases hi
    exact hst rfl
  have hown : ∀ {i}, r.produceIdx ≠ i →
      Function.update hist.owner r.produceIdx hist.accepted.length i = hist.owner i :=
    fun e => Function.update_of_ne (Ne.symm e) _ _
  have hlt : ∀ {i}, r.statusAt i = some .init ∨ r.statusAt i = some .consumed →
      hist.owner i < hist.accepted.length := by
    rintro i (hi | hi)
    · obtain ⟨w, -, hw⟩ := h.whole.item i hi
      exact (List.getElem?_eq_some_iff.1 hw).1
    · exact h.whole.ownerLt i hi
  exact { h with
    whole := {
      item := fun i hi => by
        show ∃ w, (r.setStatus r.produceIdx .init).valAt i = some (some w) ∧ (hist.accepted ++ [v])[_]? = some w
        rw [RingBuffer.valAt_setStatus]
        by_cases e : r.produceIdx = i
        · subst e
          refine ⟨v, h.stored v rfl, ?_⟩
          show (hist.accepted ++ [v])[Function.update hist.owner r.produceIdx hist.accepted.length r.produceIdx]? = _
          rw [Function.update_self, List.getElem?_concat_length]
        · rw [hother e] at hi
          obtain ⟨w, hv, hw⟩ := h.whole.item i hi
          refine ⟨w, hv, ?_⟩
          show (hist.accepted ++ [v])[Function.update hist.owner r.produceIdx hist.accepted.length i]? = _
          rw [hown e, List.getElem?_append_left (hlt (.inl hi))]
          exact hw
      ownerLt := fun i hi => by
        have e : r.produceIdx ≠ i := fun e => by rw [← e, hself] at hi; cases hi
        rw [hother e] at hi
        show Function.update hist.owner r.produceIdx hist.accepted.length i < (hist.accepted ++ [v]).length
        rw [hown e, List.length_append]
        exact Nat.lt_add_right _ (hlt (.inr hi))
      single := fun i j hi hij hj => by
        show Function.update hist.owner r.produceIdx hist.accepted.length j ≠
          Function.update hist.owner r.produceIdx hist.accepted.length i
        by_cases ei : r.produceIdx = i
        · have ej : r.produceIdx ≠ j := fun e => hij (ei.symm.trans e)
          rw [hother ej] at hj
          rw [hown ej, ← ei, Function.update_self]
          exact Nat.ne_of_lt (hlt hj)
        · rw [hother ei] at hi
          by_cases ej : r.produceIdx = j
          · rw [hown ei, ← ej, Function.update_self]
            exact Nat.ne_of_gt (hlt (.inl hi))
          · rw [hother ej] at hj
            rw [hown ei, hown ej]
            exact h.whole.single i j hi hij hj
      live := fun i hi x hx => by
        show x.seq ≠ Function.update hist.owner r.produceIdx hist.accepted.length i
        by_cases e : r.produceIdx = i
        · rw [← e, Function.update_self]
          exact Nat.ne_of_lt (h.whole.droppedLt x hx)
        · rw [hother e] at hi
          rw [hown e]
          exact h.whole.live i hi x hx
      droppedLt := fun x hx => by
        rw [List.length_append]
        exact Nat.lt_add_right _ (h.whole.droppedLt x hx) }
    reclaims := fun h' => by cases h'
    fills := fun h' => by cases h'
    stored := fun w h' => by cases h'
    held := h.held_of_frame rfl rfl rfl rfl rfl (fun i hi => by
      by_cases e : r.produceIdx = i
      · rw [← e]; exact hself
      · rw [hother e]; exact hi) }

theorem prod {t t' : Int} (h : Owning s) (hs : step s (.prod t t') = some s') : Owning s' := by
  obtain ⟨r, nf, pc, cs, so, hist⟩ := s
  cases pc with
  | idle => cases hs
  | clean v =>
    cases hs
    exact { h with
      whole := { h.whole with }
      reclaims := fun h' => by cases h'
      stored := fun v h' => by cases h' }
  | cleanTest v =>
    simp only [step, prodStep] at hs
    split at hs
    · cases hs
    · rename_i hst
      cases hs
      exact { h with
        whole := { h.whole with }
        reclaims := fun _ => hst
        stored := fun v h' => by cases h' }
    · cases hs
      exact { h with
        whole := { h.whole with }
        reclaims := fun h' => by cases h'
        stored := fun v h' => by cases h' }
  | drop v =>
    cases hs
    have hc : r.statusAt r.cleanedIdx = some .consumed := h.reclaims rfl
    have hmem : ∀ {x}, x ∈ hist.dropped ++ [(⟨hist.owner r.cleanedIdx, r.get r.cleanedIdx⟩ : Ref α)] →
        x ∈ hist.dropped ∨ x.seq = hist.owner r.cleanedIdx := by
      intro x hx
      rcases List.mem_append.1 hx with hx | hx
      · exact .inl hx
      · exact .inr (by rw [List.mem_singleton.1 hx])
    exact { h with
      whole := { h.whole with
        live := fun i hi x hx => by
          rcases hmem hx with hx | hx
          · exact h.whole.live i hi x hx
          · rw [hx]
            exact h.whole.single i _ hi (fun e => by rw [e] at hi; rw [hc] at hi; cases hi) (.inr hc)
        droppedLt := fun x hx => by
          rcases hmem hx with hx | hx
          · exact h.whole.droppedLt x hx
          · rw [hx]; exact h.whole.ownerLt _ hc }
      reclaims := fun _ => hc
      stored := fun v h' => by cases h' }
  | null v =>
    cases hs
    have hc : r.statusAt r.cleanedIdx = some .consumed := h.reclaims rfl
    have hst : ∀ i, (r.setVal r.cleanedIdx none).statusAt i = r.statusAt i := fun i => RingBuffer.statusAt_setVal r _ i _
    exact { h with
      whole := h.whole.setVal (fun hi => by cases hc.symm.trans hi) rfl rfl
      reclaims := fun _ => (hst _).trans hc
      fills := fun h' => by cases h'
      stored := fun v h' => by cases h'
      held := h.held_of_frame rfl rfl rfl rfl rfl (fun i hi => (hst i).trans hi) }
  | mark v =>
    cases hs
    have hc : r.statusAt r.cleanedIdx = some .consumed := h.reclaims rfl
    have hback : ∀ {i st}, (r.setStatus r.cleanedIdx .cleaned).statusAt i = some st → st ≠ .cleaned →
        r.statusAt i = some st := by
      intro i st hi hne
      rw [RingBuffer.statusAt_setStatus] at hi
      split at hi
      · rename_i e
        rw [← e, hc] at hi
        cases hi
        exact absurd rfl hne
      · exact hi
    exact { h with
      whole := h.whole.of_slots rfl rfl rfl (fun i st hi hne => hback hi hne)
        (fun i _ => RingBuffer.valAt_setStatus r _ i _)
      reclaims := fun h' => by cases h'
      fills := fun h' => by cases h'
      stored := fun v h' => by cases h'
      held := h.held_of_frame rfl rfl rfl rfl rfl (fun i hi => by
        rw [RingBuffer.statusAt_setStatus_ne _ _ (fun e => by rw [← e, hc] at hi; cases hi)]
        exact hi) }
  | advance v =>
    cases hs
    exact { h with
      whole := { h.whole with }
      reclaims := fun h' => by cases h'
      stored := fun v h' => by cases h' }
  | wrap v =>
    cases hs
    exact { h with
      whole := { h.whole with }
      fills := fun h' => by cases h'
      stored := fun v h' => by cases h' }
  | test v =>
    simp only [step, prodStep] at hs
    split at hs
    · cases hs
    · rename_i hst
      cases hs
      exact { h with
        whole := { h.whole with }
        fills := fun _ => hst
        stored := fun v h' => by cases h' }
    · cases hs
      exact { h with
        whole := { h.whole with }
        fills := fun h' => by cases h'
        stored := fun v h' => by cases h' }
  | refuse v =>
    cases hs
    exact { h with
      whole := { h.whole with }
      stored := fun v h' => by cases h' }
  | store v =>
    cases hs
    have hp : r.statusAt r.produceIdx = some .cleaned := h.fills rfl
    have hst : ∀ i, (r.setVal r.produceIdx (some v)).statusAt i = r.statusAt i :=
      fun i => RingBuffer.statusAt_setVal r _ i _
    exact { h with
      whole := h.whole.setVal (fun hi => by cases hp.symm.trans hi) rfl rfl
      reclaims := fun h' => by cases h'
      fills := fun _ => (hst _).trans hp
      stored := fun w h' => by
        cases h'
        show (r.setVal r.produceIdx (some v)).valAt r.produceIdx = _
        obtain ⟨x, hx⟩ := RingBuffer.exists_valAt (RingBuffer.lt_of_statusAt hp)
        rw [RingBuffer.valAt_setVal, if_pos rfl, hx]
        rfl
      held := h.held_of_frame rfl rfl rfl rfl rfl (fun i hi => (hst i).trans hi) }
  | publish v => exact h.publish hs
  | notify v =>
    cases hs
    exact { h with
      whole := { h.whole with }
      stored := fun v h' => by cases h' }
  | bump v =>
    cases hs
    exact { h with
      whole := { h.whole with }
      fills := fun h' => by cases h'
      stored := fun v h' => by cases h' }

theorem storing_none (h : Owning s) (hc : ∀ k, s.cons ≠ .callback k) : s.storing = none := by
  cases hso : s.storing with
  | none => rfl
  | some i =>
    obtain ⟨k, -, hk, -⟩ := h.storing i hso
    exact absurd hk (hc k)

theorem let_go {c : ConsPc} {n : Nat} (h : Owning s) (hso : s.storing = none) (hc : ∀ k, c ≠ .callback k)
    (hheld : ({ s with ring := { s.ring with consumeIdx := n }, cons := c } : St α).held = none) :
    Owning { s with ring := { s.ring with consumeIdx := n }, cons := c } :=
  { h with
    whole := { h.whole with }
    held := fun i hi => by rw [hheld] at hi; cases hi
    storing := fun i hi => by
      have hi : s.storing = some i := hi
      rw [hso] at hi
      cases hi
    running := fun k hk => absurd hk (hc k) }

theorem cons (h : Owning s) (hg : CallsDone s .cons) (hs : step s .cons = some s') : Owning s' := by
  obtain ⟨r, nf, pc, cs, so, hist⟩ := s
  cases cs with
  | between last =>
    have hso := h.storing_none (fun k hk => by cases hk)
    simp only [step, consStep, Option.some.injEq] at hs
    subst hs
    split
    · exact h.let_go hso (fun k hk => by cases hk) rfl
    · exact h.let_go hso (fun k hk => by cases hk) rfl
  | test =>
    have hso := h.storing_none (fun k hk => by cases hk)
    simp only [step, consStep] at hs
    split at hs <;> cases hs
    · exact h.let_go hso (fun k hk => by cases hk) rfl
    · exact h.let_go hso (fun k hk => by cases hk) rfl
  | skip =>
    cases hs
    exact h.let_go (h.storing_none (fun k hk => by cases hk)) (fun k hk => by cases hk) rfl
  | test2 =>
    have hso := h.storing_none (fun k hk => by cases hk)
    simp only [step, consStep] at hs
    split at hs
    · cases hs
    · rename_i hst
      cases hs
      exact { h with
        whole := { h.whole with }
        held := fun i hi => by cases hi; exact hst
        storing := fun i hi => by rw [show so = none from hso] at hi; cases hi
        running := fun k hk => by cases hk }
    · cases hs
      exact h.let_go hso (fun k hk => by cases hk) rfl
  | take =>
    have hso := h.storing_none (fun k hk => by cases hk)
    cases hs
    exact { h with
      whole := { h.whole with }
      held := fun i hi => by cases hi; exact h.held r.consumeIdx rfl
      storing := fun i hi => by rw [show so = none from hso] at hi; cases hi
      running := fun k hk => by cases hk }
  | call i =>
    have hso := h.storing_none (fun k hk => by cases hk)
    cases hs
    have hst : r.statusAt i = some .init := h.held i rfl
    exact { h with
      whole := { h.whole with }
      held := fun j hj => by
        unfold St.held at hj
        simp only at hj
        split at hj
        · rw [List.getElem?_concat_length] at hj
          cases hj
          exact hst
        · cases hj
      storing := fun j hj => by rw [show so = none from hso] at hj; cases hj
      running := fun k hk => by
        cases hk
        rw [List.length_append]
        exact Nat.lt_add_one _
      calledLt := fun k hk => by
        rw [List.length_append]
        exact Nat.lt_add_right _ (h.calledLt k hk) }
  | callback k =>
    obtain ⟨-, hso⟩ := hg k rfl
    cases hs
    exact h.let_go hso (fun k hk => by cases hk) rfl

theorem doneTest {k : Nat} (h : Owning s) (hg : CallsDone s (.doneTest k)) (hs : step s (.doneTest k) = some s') :
    Owning s' := by
  obtain ⟨hc, hk⟩ := hg
  simp only [step, doneTestStep] at hs
  split at hs
  · rename_i d hso hd
    have hheld : s.held = some d.slot := by
      unfold St.held
      rw [hc]
      simp only [hd]
      rw [if_pos (.inl hk)]
      rfl
    rw [h.held _ hheld] at hs
    cases hs
    exact { h with
      whole := { h.whole with }
      held := fun i hi => by
        unfold St.held at hi
        rw [hc] at hi
        simp only [hd] at hi
        split at hi
        · cases hi
          exact h.held _ hheld
        · cases hi
      storing := fun i hi => by
        cases hi
        exact ⟨k, d, hc, List.mem_append_right _ (List.mem_singleton.2 rfl), hd, rfl⟩
      calledLt := fun j hj => by
        rcases List.mem_append.1 hj with hj | hj
        · exact h.calledLt j hj
        · rw [List.mem_singleton.1 hj]
          exact (List.getElem?_eq_some_iff.1 hd).1 }
  · cases hs

theorem doneStore (h : Owning s) (hs : step s .doneStore = some s') : Owning s' := by
  simp only [step, doneStoreStep] at hs
  split at hs
  · cases hs
  · rename_i i hso
    cases hs
    have hst := h.init_of_storing hso
    obtain ⟨k, d, hc, hk, -⟩ := h.storing i hso
    have hkeep : ∀ {j st}, s.ring.statusAt j = some st → st ≠ .init →
        (s.ring.setStatus i .consumed).statusAt j = some st := by
      intro j st hj hne
      rw [RingBuffer.statusAt_setStatus_ne _ _ (fun e => ?_)]
      · exact hj
      · rw [← e, hst] at hj
        cases hj
        exact hne rfl
    have hinit : ∀ {j}, (s.ring.setStatus i .consumed).statusAt j = some .init →
        i ≠ j ∧ s.ring.statusAt j = some .init := by
      intro j hj
      rw [RingBuffer.statusAt_setStatus] at hj
      split at hj
      · rename_i e
        rw [← e, hst] at hj
        cases hj
      · rename_i e
        exact ⟨e, hj⟩
    have hused : ∀ {j}, (s.ring.setStatus i .consumed).statusAt j = some .consumed →
        s.ring.statusAt j = some .init ∨ s.ring.statusAt j = some .consumed := by
      intro j hj
      rw [RingBuffer.statusAt_setStatus] at hj
      split at hj
      · rename_i e
        rw [← e]
        exact .inl hst
      · exact .inr hj
    exact { h with
      whole := { h.whole with
        item := fun j hj => by
          rw [RingBuffer.valAt_setStatus]
          exact h.whole.item j (hinit hj).2
        ownerLt := fun j hj => by
          rcases hused hj with hj | hj
          · obtain ⟨w, -, hw⟩ := h.whole.item j hj
            exact (List.getElem?_eq_some_iff.1 hw).1
          · exact h.whole.ownerLt j hj
        single := fun a b ha hne hb =>
          h.whole.single a b (hinit ha).2 hne (hb.elim (fun hb => .inl (hinit hb).2) hused)
        live := fun j hj => h.whole.live j (hinit hj).2 }
      reclaims := fun h' => hkeep (h.reclaims h') (by simp)
      fills := fun h' => hkeep (h.fills h') (by simp)
      stored := fun v h' => by rw [RingBuffer.valAt_setStatus]; exact h.stored v h'
      held := fun j hj => by
        unfold St.held at hj
        rw [hc] at hj
        simp [hk] at hj
      storing := fun j hj => by cases hj }

theorem step {a : Act α} (h : Owning s) (hg : CallsDone s a) (hs : Shm.step s a = some s') : Owning s' := by
  cases a with
  | offer v => exact h.offer hs
  | prod t t' => exact h.prod hs
  | cons => exact h.cons hg hs
  | doneTest k => exact h.doneTest hg hs
  | doneStore => exact h.doneStore hs

end Owning
/-- **The reader owns the slot until its closure has stored CONSUMED.** -/
theorem Owning.held_step {s s' : St α} {a : Act α} {i : Nat} (h : Owning s) (hg : CallsDone s a)
    (hs : Shm.step s a = some s') (hi : s.held = some i) :
    s'.held = some i ∨ (a = .doneStore ∧ s'.ring.statusAt i = some .consumed) := by
  cases a with
  | offer v =>
    simp only [Shm.step] at hs
    split at hs <;> cases hs
    exact .inl hi
  | prod t t' =>
    obtain ⟨r, nf, pc, cs, so, hist⟩ := s
    cases pc with
    | idle => cases hs
    | cleanTest v | test v =>
      simp only [Shm.step, prodStep] at hs
      split at hs <;> cases hs <;> exact .inl hi
    | publish v | clean v | drop v | null v | mark v | advance v | wrap v | refuse v | store v | notify v | bump v =>
      cases hs
      exact .inl hi
  | cons =>
    obtain ⟨r, nf, pc, cs, so, hist⟩ := s
    cases cs with
    | between last | test | skip | test2 => cases hi
    | take => cases hs; exact .inl hi
    | call j =>
      cases hs
      cases hi
      refine .inl ?_
      unfold St.held
      simp only
      rw [if_pos (.inl (fun hm => absurd (h.calledLt _ hm) (Nat.lt_irrefl _))), List.getElem?_concat_length]
      rfl
    | callback k =>
      obtain ⟨hk, hso⟩ := hg k rfl
      have hk : k ∈ hist.called := hk
      have hso : so = none := hso
      unfold St.held at hi
      simp [hk, hso] at hi
  | doneTest k =>
    obtain ⟨hc, hk⟩ := hg
    simp only [Shm.step, doneTestStep] at hs
    split at hs
    · rename_i d hso hd
      unfold St.held at hi
      rw [hc] at hi
      simp only [hd] at hi
      rw [if_pos (.inl hk)] at hi
      have hi : d.slot = i := Option.some.inj hi
      have hst : s.ring.statusAt d.slot = some .init := by
        refine h.held _ ?_
        unfold St.held
        rw [hc]
        simp only [hd]
        rw [if_pos (.inl hk)]
        rfl
      rw [hst] at hs
      cases hs
      refine .inl ?_
      unfold St.held
      rw [hc]
      simp only [hd]
      rw [if_pos (.inr (by simp)), ← hi]
      rfl
    · cases hs
  | doneStore =>
    simp only [Shm.step, doneStoreStep] at hs
    split at hs
    · cases hs
    · rename_i j hso
      cases hs
      obtain ⟨k, d, hc, -, hd, rfl⟩ := h.storing j hso
      unfold St.held at hi
      rw [hc] at hi
      simp only [hd] at hi
      split at hi
      · cases hi
        exact .inr ⟨rfl, RingBuffer.statusAt_setStatus_self _ (h.init_of_storing hso)⟩
      · cases hi

/-! ## The loads of the callback's arguments -/

/-- An argument of the callback: not begun, `val` found not to be NULL, or evaluated (`none` is NULL). -/
inductive Arg (β : Type) where
  | todo
  | tested
  | got (x : Option β)
  deriving DecidableEq, Repr

/-- The next of the two loads of `val` in `GetType()` or `Get()`, `item` being what it finds: the test for NULL, and
the load that is dereferenced. -/
def Arg.load (f : α → β) (item : Option α) : Arg β → Option (Arg β)
  | .todo => some (if item.isNone then .got none else .tested)
  | .tested => item.map (fun x => .got (some (f x)))
  | .got _ => none

/-- What one call of the callback was given, from the slot last set to INIT for item `seq`. -/
structure Handed (τ π : Type) where
  seq : Nat
  type : Option τ
  val : Option π
  deriving DecidableEq, Repr

structure Fine (τ π : Type) where
  base : St (TypeRefItem τ π)
  type : Arg τ
  val : Arg π
  handed : List (Handed τ π)

inductive FineAct (τ π : Type) where
  | base (a : Act (TypeRefItem τ π))
  | getType
  | get
  deriving DecidableEq, Repr

namespace Fine

def start (s₀ : St (TypeRefItem τ π)) : Fine τ π := ⟨s₀, .todo, .todo, []⟩

/-- The callback is called once both its arguments are evaluated, in whichever order. -/
def step (s : Fine τ π) : FineAct τ π → Option (Fine τ π)
  | .getType =>
    match s.base.cons with
    | .call i => (s.type.load TypeRefItem.type (s.base.ring.get i)).map (fun a => { s with type := a })
    | _ => none
  | .get =>
    match s.base.cons with
    | .call i => (s.val.load TypeRefItem.val (s.base.ring.get i)).map (fun a => { s with val := a })
    | _ => none
  | .base .cons =>
    match s.base.cons with
    | .call i =>
      match s.type, s.val with
      | .got x, .got y =>
        (Shm.step s.base .cons).map (fun b => ⟨b, .todo, .todo, s.handed ++ [⟨s.base.hist.owner i, x, y⟩]⟩)
      | _, _ => none
    | _ => (Shm.step s.base .cons).map (fun b => { s with base := b })
  | .base a => (Shm.step s.base a).map (fun b => { s with base := b })

def CallsDone (s : Fine τ π) : FineAct τ π → Prop
  | .base a => Shm.CallsDone s.base a
  | .getType | .get => True

instance (s : Fine τ π) (a : FineAct τ π) : Decidable (CallsDone s a) :=
  match a with
  | .base a => inferInstanceAs (Decidable (Shm.CallsDone s.base a))
  | .getType | .get => .isTrue trivial

/-- **The hand-off**: the slot the reader owns is INIT and holds the item it was last set to INIT for, not dropped; the
next step of the producer does not write it; the reader owns it until its closure stores CONSUMED; and what the callback
was given is the type and the payload of that item. -/
structure HandedOver (s : Fine τ π) : Prop where
  owned : ∀ i, s.base.held = some i → s.base.ring.statusAt i = some .init ∧
    ∃ v, s.base.ring.valAt i = some (some v) ∧ s.base.hist.accepted[s.base.hist.owner i]? = some v ∧
      ∀ x ∈ s.base.hist.dropped, x.seq ≠ s.base.hist.owner i
  unwritten : ∀ i, s.base.held = some i → s.base.writes ≠ some i ∧
    ∀ t t' b, Shm.step s.base (.prod t t') = some b → b.ring.slots[i]? = s.base.ring.slots[i]?
  kept : ∀ i a s', s.base.held = some i → s.CallsDone a → s.step a = some s' → s'.base.held = some i ∨
    (a = .base .doneStore ∧ s'.base.ring.statusAt i = some .consumed)
  handed : ∀ h ∈ s.handed, ∃ v, s.base.hist.accepted[h.seq]? = some v ∧ h.type = some v.type ∧ h.val = some v.val

/-- **What the arguments evaluated so far are.** -/
structure Inv (s : Fine τ π) : Prop where
  owning : Owning s.base
  todo : (∀ i, s.base.cons ≠ .call i) → s.type = .todo ∧ s.val = .todo
  type : ∀ i x, s.base.cons = .call i → s.type = .got x →
    ∃ v, s.base.hist.accepted[s.base.hist.owner i]? = some v ∧ x = some v.type
  val : ∀ i x, s.base.cons = .call i → s.val = .got x →
    ∃ v, s.base.hist.accepted[s.base.hist.owner i]? = some v ∧ x = some v.val
  handed : ∀ h ∈ s.handed, ∃ v, s.base.hist.accepted[h.seq]? = some v ∧ h.type = some v.type ∧ h.val = some v.val

end Fine

theorem step_frame {s s' : St α} {a : Act α} (ha : a ≠ .cons) (hs : step s a = some s') :
    s'.cons = s.cons ∧ s.hist.accepted <+: s'.hist.accepted ∧
      ∀ i, s.writes ≠ some i → s'.hist.owner i = s.hist.owner i := by
  cases a with
  | cons => exact absurd rfl ha
  | offer v =>
    simp only [step] at hs
    split at hs <;> cases hs
    exact ⟨rfl, List.prefix_rfl, fun _ _ => rfl⟩
  | prod t t' =>
    obtain ⟨r, nf, pc, cs, so, hist⟩ := s
    cases pc with
    | idle => cases hs
    | cleanTest v | test v =>
      simp only [step, prodStep] at hs
      split at hs <;> cases hs <;> exact ⟨rfl, List.prefix_rfl, fun _ _ => rfl⟩
    | publish v =>
      cases hs
      exact ⟨rfl, List.prefix_append _ _, fun i hi => Function.update_of_ne (fun e => hi (congrArg some e.symm)) _ _⟩
    | clean v | drop v | null v | mark v | advance v | wrap v | refuse v | store v | notify v | bump v =>
      cases hs
      exact ⟨rfl, List.prefix_rfl, fun _ _ => rfl⟩
  | doneTest k =>
    simp only [step, doneTestStep] at hs
    split at hs
    · split at hs <;> cases hs <;> exact ⟨rfl, List.prefix_rfl, fun _ _ => rfl⟩
    · cases hs
  | doneStore =>
    simp only [step, doneStoreStep] at hs
    split at hs <;> cases hs
    exact ⟨rfl, List.prefix_rfl, fun _ _ => rfl⟩

theorem hist_of_reader {s s' : St α} (hc : ∀ i, s.cons ≠ .call i) (hs : step s .cons = some s') : s.hist = s'.hist := by
  obtain ⟨r, nf, pc, cs, so, hist⟩ := s
  cases cs with
  | call i => exact absurd rfl (hc i)
  | test | test2 =>
    simp only [step, consStep] at hs
    split at hs <;> cases hs <;> rfl
  | between last | skip | take | callback k => cases hs; rfl

theorem getElem?_of_isPrefix {l l' : List α} {k : Nat} {v : α} (h : l <+: l') (hk : l[k]? = some v) :
    l'[k]? = some v := by
  obtain ⟨m, rfl⟩ := h
  rw [List.getElem?_append_left (List.getElem?_eq_some_iff.1 hk).1]
  exact hk

theorem Arg.load_got {f : α → β} {v : α} {a a' : Arg β} {x : Option β} (h : a.load f (some v) = some a')
    (hx : a' = .got x) : x = some (f v) := by
  subst hx
  cases a with
  | todo => cases h
  | tested => cases h; rfl
  | got y => cases h

theorem Owning.get_of_call {s : St α} {i : Nat} (h : Owning s) (hc : s.cons = .call i) :
    ∃ v, s.ring.get i = some v ∧ s.hist.accepted[s.hist.owner i]? = some v := by
  have hheld : s.held = some i := by unfold St.held; rw [hc]
  obtain ⟨v, hv, ha⟩ := h.whole.item i (h.held i hheld)
  exact ⟨v, by unfold RingBuffer.get; rw [hv]; rfl, ha⟩

namespace Fine

namespace Inv

variable {s s' : Fine τ π}

theorem frame {a : Act (TypeRefItem τ π)} {b : St (TypeRefItem τ π)} (h : Inv s) (ha : a ≠ .cons)
    (hg : Shm.CallsDone s.base a) (hs : Shm.step s.base a = some b) : Inv { s with base := b } := by
  obtain ⟨hc, hacc, hown⟩ := step_frame ha hs
  have hsame : ∀ i, s.base.cons = .call i → b.hist.owner i = s.base.hist.owner i := by
    intro i hi
    refine hown i (h.owning.not_written (h.owning.held i ?_))
    unfold St.held
    rw [hi]
  exact {
    owning := h.owning.step hg hs
    todo := fun hne => h.todo (fun i hi => hne i (hc.trans hi))
    type := fun i x hi hx => by
      obtain ⟨v, hv, hxv⟩ := h.type i x (hc.symm.trans hi) hx
      refine ⟨v, ?_, hxv⟩
      show b.hist.accepted[b.hist.owner i]? = some v
      rw [hsame i (hc.symm.trans hi)]
      exact getElem?_of_isPrefix hacc hv
    val := fun i x hi hx => by
      obtain ⟨v, hv, hxv⟩ := h.val i x (hc.symm.trans hi) hx
      refine ⟨v, ?_, hxv⟩
      show b.hist.accepted[b.hist.owner i]? = some v
      rw [hsame i (hc.symm.trans hi)]
      exact getElem?_of_isPrefix hacc hv
    handed := fun e he => by
      obtain ⟨v, hv, hr⟩ := h.handed e he
      exact ⟨v, getElem?_of_isPrefix hacc hv, hr⟩ }

theorem reader {b : St (TypeRefItem τ π)} (h : Inv s) (hc : ∀ i, s.base.cons ≠ .call i)
    (hg : Shm.CallsDone s.base .cons) (hs : Shm.step s.base .cons = some b) (hh : s.base.hist = b.hist) :
    Inv { s with base := b } where
  owning := h.owning.step hg hs
  todo := fun _ => h.todo hc
  type := fun i x _ hx => by
    have hx : s.type = .got x := hx
    rw [(h.todo hc).1] at hx
    cases hx
  val := fun i x _ hx => by
    have hx : s.val = .got x := hx
    rw [(h.todo hc).2] at hx
    cases hx
  handed := fun e he => by
    show ∃ v, b.hist.accepted[e.seq]? = some v ∧ _
    rw [← hh]
    exact h.handed e he

theorem call {i : Nat} {x : Option τ} {y : Option π} {b : St (TypeRefItem τ π)} (h : Inv s) (hc : s.base.cons = .call i)
    (hx : s.type = .got x) (hy : s.val = .got y) (hg : Shm.CallsDone s.base .cons)
    (hs : Shm.step s.base .cons = some b) :
    Inv ⟨b, .todo, .todo, s.handed ++ [⟨s.base.hist.owner i, x, y⟩]⟩ := by
  obtain ⟨v, hv, hxv⟩ := h.type i x hc hx
  obtain ⟨w, hw, hyw⟩ := h.val i y hc hy
  have hvw : v = w := Option.some.inj (hv.symm.trans hw)
  have hb := hs
  simp only [Shm.step, consStep, hc, Option.some.injEq] at hs
  exact {
    owning := h.owning.step hg hb
    todo := fun _ => ⟨rfl, rfl⟩
    type := fun j z _ hz => by cases hz
    val := fun j z _ hz => by cases hz
    handed := fun e he => by
      subst hs
      rcases List.mem_append.1 he with he | he
      · exact h.handed e he
      · rw [List.mem_singleton.1 he]
        exact ⟨v, hv, hxv, hvw ▸ hyw⟩ }

theorem step {a : FineAct τ π} (h : Inv s) (hg : s.CallsDone a) (hs : s.step a = some s') : Inv s' := by
  cases a with
  | getType =>
    simp only [Fine.step] at hs
    split at hs
    · rename_i i hc
      obtain ⟨v, hget, hacc⟩ := h.owning.get_of_call hc
      rw [hget] at hs
      obtain ⟨a, ha, rfl⟩ := Option.map_eq_some_iff.1 hs
      exact { h with
        todo := fun hne => absurd hc (hne i)
        type := fun j x hj hx => by
          have hj : s.base.cons = .call j := hj
          rw [hc] at hj
          cases hj
          exact ⟨v, hacc, Arg.load_got ha hx⟩ }
    · cases hs
  | get =>
    simp only [Fine.step] at hs
    split at hs
    · rename_i i hc
      obtain ⟨v, hget, hacc⟩ := h.owning.get_of_call hc
      rw [hget] at hs
      obtain ⟨a, ha, rfl⟩ := Option.map_eq_some_iff.1 hs
      exact { h with
        todo := fun hne => absurd hc (hne i)
        val := fun j x hj hx => by
          have hj : s.base.cons = .call j := hj
          rw [hc] at hj
          cases hj
          exact ⟨v, hacc, Arg.load_got ha hx⟩ }
    · cases hs
  | base a =>
    cases a with
    | cons =>
      simp only [Fine.step] at hs
      split at hs
      · rename_i i hc
        split at hs
        · rename_i x y hx hy
          obtain ⟨b, hb, rfl⟩ := Option.map_eq_some_iff.1 hs
          exact h.call hc hx hy hg hb
        · cases hs
      · rename_i hne
        obtain ⟨b, hb, rfl⟩ := Option.map_eq_some_iff.1 hs
        exact h.reader hne hg hb (hist_of_reader hne hb)
    | offer v =>
      obtain ⟨b, hb, rfl⟩ := Option.map_eq_some_iff.1 hs
      exact h.frame (a := .offer v) (by simp) hg hb
    | prod t t' =>
      obtain ⟨b, hb, rfl⟩ := Option.map_eq_some_iff.1 hs
      exact h.frame (a := .prod t t') (by simp) hg hb
    | doneTest k =>
      obtain ⟨b, hb, rfl⟩ := Option.map_eq_some_iff.1 hs
      exact h.frame (a := .doneTest k) (by simp) hg hb
    | doneStore =>
      obtain ⟨b, hb, rfl⟩ := Option.map_eq_some_iff.1 hs
      exact h.frame (a := .doneStore) (by simp) hg hb

theorem start {s₀ : St (TypeRefItem τ π)} (hw : Whole s₀) (hq : Quiet s₀) : Inv (Fine.start s₀) where
  owning := Owning.of_quiet hw hq
  todo := fun _ => ⟨rfl, rfl⟩
  type := fun i x _ hx => by cases hx
  val := fun i x _ hx => by cases hx
  handed := fun e he => by cases he

theorem kept {a : FineAct τ π} {i : Nat} (h : Inv s) (hi : s.base.held = some i) (hg : s.CallsDone a)
    (hs : s.step a = some s') : s'.base.held = some i ∨
      (a = .base .doneStore ∧ s'.base.ring.statusAt i = some .consumed) := by
  have hbase : ∀ b c, Shm.CallsDone s.base c → Shm.step s.base c = some b →
      b.held = some i ∨ (FineAct.base c = .base (.doneStore : Act (TypeRefItem τ π)) ∧
        b.ring.statusAt i = some .consumed) := by
    intro b c hg hb
    rcases h.owning.held_step hg hb hi with hk | ⟨rfl, hk⟩
    · exact .inl hk
    · exact .inr ⟨rfl, hk⟩
  cases a with
  | getType | get =>
    simp only [Fine.step] at hs
    split at hs
    · obtain ⟨a, -, rfl⟩ := Option.map_eq_some_iff.1 hs
      exact .inl hi
    · cases hs
  | base a =>
    cases a with
    | cons =>
      simp only [Fine.step] at hs
      split at hs
      · split at hs
        · obtain ⟨b, hb, rfl⟩ := Option.map_eq_some_iff.1 hs
          exact hbase b _ hg hb
        · cases hs
      · obtain ⟨b, hb, rfl⟩ := Option.map_eq_some_iff.1 hs
        exact hbase b _ hg hb
    | offer v | prod t t' | doneTest k | doneStore =>
      obtain ⟨b, hb, rfl⟩ := Option.map_eq_some_iff.1 hs
      exact hbase b _ hg hb

theorem handedOver (h : Inv s) : HandedOver s where
  owned := fun i hi => by
    have hst := h.owning.held i hi
    obtain ⟨v, hv, hacc⟩ := h.owning.whole.item i hst
    exact ⟨hst, v, hv, hacc, h.owning.whole.live i hst⟩
  unwritten := fun i hi => by
    have hw := h.owning.not_written (h.owning.held i hi)
    exact ⟨hw, fun t t' b hb => slots_of_not_written hb hw⟩
  kept := fun i a s' hi hg hs => h.kept hi hg hs
  handed := h.handed

end Inv

/-- **The slots are handed over**, from any ring whose INIT slots hold their items, wherever its indices stand. -/
theorem hand_off (s₀ : St (TypeRefItem τ π)) (hw : Whole s₀) (hq : Quiet s₀) (s : Fine τ π)
    (h : Reach step CallsDone (start s₀) s) : HandedOver s :=
  (h.invariant (Inv.start hw hq) (fun _ _ _ _ hi hg hs => hi.step hg hs)).handedOver

/-- An empty ring of two slots whose reader stands a slot ahead of the producer. -/
def outOfPhase : St (TypeRefItem Nat Nat) :=
  { St.start (TypeRefItem Nat Nat) 2 with ring := { RingBuffer.fresh _ 2 with consumeIdx := 1 } }

def steps (n : Nat) (a : Act (TypeRefItem Nat Nat)) : List (FineAct Nat Nat) := List.replicate n (.base a)

/-- Two offers, of which the reader takes the second; a third runs while the arguments are loaded. -/
def takesSecond : List (FineAct Nat Nat) :=
  [.base (.offer ⟨1, 10⟩)] ++ steps 8 (.prod 0 0) ++ [.base (.offer ⟨2, 20⟩)] ++ steps 8 (.prod 0 0) ++
    steps 4 .cons ++ [.get, .base (.offer ⟨3, 30⟩), .getType] ++ steps 5 (.prod 0 0) ++ [.getType, .get] ++ steps 1 .cons

theorem hand_off_second : ∃ s, Machine.exec step CallsDone (start outOfPhase) takesSecond = some s ∧
    s.handed = [⟨1, some 2, some 20⟩] ∧ s.base.held = some 1 ∧ HandedOver s :=
  ⟨_, rfl, rfl, rfl, hand_off outOfPhase
    ((Whole.start 2).of_slots rfl rfl rfl (fun i st hi _ => by
      show (RingBuffer.openWrite none 2 true : RingBuffer (TypeRefItem Nat Nat)).statusAt i = some st
      rw [RingBuffer.openWrite_new]
      exact hi) (fun i _ => by
      show _ = (RingBuffer.openWrite none 2 true : RingBuffer (TypeRefItem Nat Nat)).valAt i
      rw [RingBuffer.openWrite_new]
      rfl))
    ⟨rfl, ⟨_, rfl⟩, rfl, fun k hk => by cases hk⟩ _ (Machine.reach_of_exec _ _ takesSecond _ rfl)⟩

end Fine

end Shm
