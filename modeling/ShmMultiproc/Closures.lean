import ShmMultiproc.RingInv
/-!
# Closures — what a `done` closure marks

The closure of a delivery remembers a slot, not an item, and its test of INIT is its only guard.  While no closure is
called with its item reclaimed and its slot filled again, each one changes the ring at most once and marks the item it
was made for (`closures_own`).  A call that comes later passes the test on the next item and marks that one
(`late_closure`).
-/
namespace Shm

open Machine (Reach)

variable {α : Type}

/-- A run with a record of its closures: `running` is the one that tested last, and `writes` are the closures that
changed the ring, each with the item that its slot was holding. -/
structure Traced (α : Type) where
  base : St α
  running : Nat
  writes : List (Nat × Nat)

namespace Traced

def start (α : Type) (n : Nat) : Traced α := ⟨St.start α n, 0, []⟩

def step (t : Traced α) : Act α → Option (Traced α)
  | .doneTest k => (Shm.step t.base (.doneTest k)).map (fun s => ⟨s, k, t.writes⟩)
  | .doneStore =>
    match t.base.storing with
    | none => none
    | some i =>
      (Shm.step t.base .doneStore).map (fun s => ⟨s, t.running, t.writes ++ [(t.running, t.base.hist.owner i)]⟩)
  | a => (Shm.step t.base a).map (fun s => { t with base := s })

end Traced

/-- **A closure acts for its own delivery**: it changes the ring at most once, and marks the item it was made for. -/
structure OwnOnly (t : Traced α) : Prop where
  once : (t.writes.map Prod.fst).Nodup
  own : ∀ w ∈ t.writes, ∃ d, t.base.hist.delivered[w.1]? = some d ∧ d.ref.seq = w.2

/-- **No closure is called late**: with its slot INIT and its item reclaimed. -/
def NotLate (s : St α) : Act α → Prop
  | .doneTest k => ∀ d ∈ s.hist.delivered[k]?, s.ring.statusAt d.slot = some .init → s.hist.cleaned ≤ d.ref.seq
  | _ => True

instance (s : St α) (a : Act α) : Decidable (NotLate s a) :=
  match a with
  | .doneTest k => inferInstanceAs (Decidable (∀ d ∈ s.hist.delivered[k]?, s.ring.statusAt d.slot = some .init →
      s.hist.cleaned ≤ d.ref.seq))
  | .offer _ | .prod _ _ | .cons | .doneStore => .isTrue trivial

/-- **A recorded access**: it leaves the ring alone, or marks one slot CONSUMED. -/
def Recorded (t t' : Traced α) : Prop :=
  (t'.base.ring = t.base.ring ∧ t'.writes = t.writes) ∨
    ∃ i, t'.base.ring = t.base.ring.setStatus i .consumed ∧ t'.writes = t.writes ++ [(t.running, t.base.hist.owner i)]

theorem recorded_of_closure {t t' : Traced α} {a : Act α} (ha : a = .doneStore ∨ ∃ k, a = .doneTest k)
    (hs : t.step a = some t') : Recorded t t' := by
  rcases ha with rfl | ⟨k, rfl⟩
  · simp only [Traced.step] at hs
    split at hs
    · cases hs
    · rename_i i hi
      simp only [Shm.step, doneStoreStep, hi, Option.map_some, Option.some.injEq] at hs
      subst hs
      exact .inr ⟨i, rfl, rfl⟩
  · simp only [Traced.step, Option.map_eq_some_iff] at hs
    obtain ⟨s, hs, rfl⟩ := hs
    simp only [Shm.step, doneTestStep] at hs
    split at hs
    · split at hs <;> cases hs <;> exact .inl ⟨rfl, rfl⟩
    · cases hs

/-! ## The producer's part -/

theorem owner_prod {N : Nat} {s s' : St α} {t t' : Int} (h : RingInv N s) (hs : step s (.prod t t') = some s') :
    s'.hist.marked = s.hist.marked ∧
    ((s'.hist.accepted = s.hist.accepted ∧ s'.hist.owner = s.hist.owner) ∨
      ∃ v, s'.hist.accepted = s.hist.accepted ++ [v] ∧
        s'.hist.owner = Function.update s.hist.owner (s.hist.accepted.length % N) s.hist.accepted.length) := by
  obtain ⟨r, nf, pc, cs, so, hi⟩ := s
  cases pc with
  | idle => cases hs
  | cleanTest v | test v =>
    simp only [step, prodStep] at hs
    split at hs <;> cases hs <;> exact ⟨rfl, .inl ⟨rfl, rfl⟩⟩
  | publish v =>
    cases hs
    have hp : r.produceIdx = hi.accepted.length % N := h.producePhase.eq_mod (h.produceLt rfl)
    exact ⟨rfl, .inr ⟨v, rfl, by rw [hp]⟩⟩
  | clean v | drop v | null v | mark v | advance v | wrap v | refuse v | store v | notify v | bump v =>
    cases hs
    exact ⟨rfl, .inl ⟨rfl, rfl⟩⟩

structure ClosureInv (N : Nat) (t : Traced α) : Prop where
  ring : RingInv N t.base
  filled : ∀ i < N, i < t.base.hist.accepted.length →
    t.base.hist.owner i % N = i ∧ t.base.hist.owner i < t.base.hist.accepted.length
  taking : t.base.cons = .take → t.base.ring.consumeIdx < t.base.hist.accepted.length
  calling : ∀ i, t.base.cons = .call i → i < N ∧ i < t.base.hist.accepted.length
  slot : ∀ d ∈ t.base.hist.delivered, d.ref.seq % N = d.slot ∧ d.ref.seq < t.base.hist.accepted.length
  storing : ∀ i, t.base.storing = some i → ∃ d, t.base.hist.delivered[t.running]? = some d ∧ d.slot = i ∧
    t.base.hist.cleaned ≤ d.ref.seq
  own : ∀ w ∈ t.writes, ∃ d, t.base.hist.delivered[w.1]? = some d ∧ d.ref.seq = w.2 ∧ w.2 ∈ t.base.hist.marked
  once : (t.writes.map Prod.fst).Nodup

namespace ClosureInv

variable {N : Nat} {t t' : Traced α}

theorem start (N : Nat) (hN : 0 < N) : ClosureInv N (Traced.start α N) where
  ring := RingInv.start N hN
  filled := fun i _ hi => absurd hi (Nat.not_lt_zero i)
  taking := fun h => by cases h
  calling := fun i h => by cases h
  slot := fun d hd => by cases hd
  storing := fun i hi => by cases hi
  own := fun w hw => by cases hw
  once := List.nodup_nil

theorem frame (h : ClosureInv N t) {s : St α} (hr : RingInv N s) (hf : ProdFrame N t.base s)
    (hm : s.hist.marked = t.base.hist.marked)
    (ho : (s.hist.accepted = t.base.hist.accepted ∧ s.hist.owner = t.base.hist.owner) ∨
      ∃ v, s.hist.accepted = t.base.hist.accepted ++ [v] ∧
        s.hist.owner = Function.update t.base.hist.owner (t.base.hist.accepted.length % N) t.base.hist.accepted.length) :
    ClosureInv N { t with base := s } := by
  have hlen : t.base.hist.accepted.length ≤ s.hist.accepted.length := by
    rcases ho with ⟨ha, -⟩ | ⟨v, ha, -⟩
    · rw [ha]
    · rw [ha, List.length_append]
      exact Nat.le_add_right _ _
  refine ⟨hr, fun i hi hi' => ?_, fun hc => ?_, fun i hc => ?_, fun d hd => ?_, fun i hi => ?_, fun w hw => ?_, h.once⟩
  · rcases ho with ⟨ha, ho⟩ | ⟨v, ha, ho⟩
    · simp only [ha, ho] at hi' ⊢
      exact h.filled i hi hi'
    · simp only [ha, ho, List.length_append, List.length_singleton] at hi' ⊢
      by_cases he : i = t.base.hist.accepted.length % N
      · subst he
        rw [Function.update_self]
        exact ⟨rfl, Nat.lt_succ_self _⟩
      · rw [Function.update_of_ne he]
        have hne : i ≠ t.base.hist.accepted.length := fun e => he (by rw [← e, Nat.mod_eq_of_lt hi])
        obtain ⟨hmod, hlt⟩ := h.filled i hi (by omega)
        exact ⟨hmod, by omega⟩
  · rw [hf.cons] at hc
    have := h.taking hc
    show s.ring.consumeIdx < s.hist.accepted.length
    rw [hf.consumeIdx]
    omega
  · rw [hf.cons] at hc
    obtain ⟨hi, hi'⟩ := h.calling i hc
    exact ⟨hi, Nat.lt_of_lt_of_le hi' hlen⟩
  · rw [hf.delivered] at hd
    obtain ⟨hslot, hlt⟩ := h.slot d hd
    exact ⟨hslot, Nat.lt_of_lt_of_le hlt hlen⟩
  · rw [hf.storing] at hi
    obtain ⟨d, hd, hslot, hcl⟩ := h.storing i hi
    refine ⟨d, by rw [hf.delivered]; exact hd, hslot, ?_⟩
    show s.hist.cleaned ≤ d.ref.seq
    rcases hf.cleaned with hc | ⟨hc, -, hst⟩
    · rw [hc]; exact hcl
    · -- the slot being reclaimed is CONSUMED, the one being marked is INIT
      have hinit := h.ring.storing i hi
      have hne : d.ref.seq ≠ t.base.hist.cleaned := by
        intro he
        rw [← hslot, ← (h.slot d (List.mem_of_getElem? hd)).1, he, hst] at hinit
        cases hinit
      omega
  · obtain ⟨d, hd, hseq, hmk⟩ := h.own w hw
    exact ⟨d, by rw [hf.delivered]; exact hd, hseq, by rw [hm]; exact hmk⟩

theorem cons {s : St α} (h : ClosureInv N t) (hs : Shm.step t.base .cons = some s) :
    ClosureInv N { t with base := s } := by
  have hr := h.ring.cons hs
  obtain ⟨⟨r, nf, pc, cs, so, hi⟩, run, ws⟩ := t
  cases cs with
  | between last =>
    cases hs
    refine { h with
      ring := hr
      taking := fun hc => ?_
      calling := fun i hc => ?_ }
    · simp only at hc
      split at hc <;> cases hc
    · simp only at hc
      split at hc <;> cases hc
  | test =>
    simp only [Shm.step, consStep] at hs
    split at hs <;> cases hs <;>
      exact { h with
        ring := hr
        taking := fun hc => by cases hc
        calling := fun i hc => by cases hc }
  | skip =>
    cases hs
    exact { h with
      ring := hr
      taking := fun hc => by cases hc
      calling := fun i hc => by cases hc }
  | test2 =>
    simp only [Shm.step, consStep] at hs
    split at hs
    · cases hs
    · rename_i hst
      cases hs
      refine { h with
        ring := hr
        taking := fun _ => ?_
        calling := fun i hc => by cases hc }
      obtain ⟨k, -, hk, hmod⟩ := h.ring.window.exists_count hst (by decide)
      have hk : k < hi.accepted.length := hk
      have := Nat.mod_le k N
      show r.consumeIdx < hi.accepted.length
      omega
    · cases hs
      exact { h with
        ring := hr
        taking := fun hc => by cases hc
        calling := fun i hc => by cases hc }
  | take =>
    cases hs
    exact { h with
      ring := hr
      taking := fun hc => by cases hc
      calling := fun i hc => by
        cases hc
        exact ⟨h.ring.consumeLt rfl, h.taking rfl⟩ }
  | call i =>
    cases hs
    obtain ⟨hiN, hlt⟩ := h.calling i rfl
    have hkeep : ∀ {k : Nat} {d : Delivery α}, hi.delivered[k]? = some d →
        (hi.delivered ++ [⟨i, hi.owner i, r.get i⟩])[k]? = some d := by
      intro k d hd
      rw [List.getElem?_append_left (List.getElem?_eq_some_iff.1 hd).1]
      exact hd
    exact { h with
      ring := hr
      taking := fun hc => by cases hc
      calling := fun j hc => by cases hc
      slot := fun d hd => by
        rcases List.mem_append.1 hd with hd | hd
        · exact h.slot d hd
        · rw [List.mem_singleton.1 hd]
          exact h.filled i hiN hlt
      storing := fun j hj => by
        obtain ⟨d, hd, hrest⟩ := h.storing j hj
        exact ⟨d, hkeep hd, hrest⟩
      own := fun w hw => by
        obtain ⟨d, hd, hrest⟩ := h.own w hw
        exact ⟨d, hkeep hd, hrest⟩ }
  | callback k =>
    cases hs
    exact { h with
      ring := hr
      taking := fun hc => by cases hc
      calling := fun i hc => by cases hc }

theorem doneTest {k : Nat} {s : St α} (h : ClosureInv N t) (hg : NotLate t.base (.doneTest k))
    (hs : Shm.step t.base (.doneTest k) = some s) : ClosureInv N ⟨s, k, t.writes⟩ := by
  have hr := h.ring.doneTest hs
  simp only [Shm.step, doneTestStep] at hs
  split at hs
  · rename_i d hso hd
    split at hs
    · cases hs
    · rename_i hst
      cases hs
      exact { h with
        ring := hr
        storing := fun i hi => by
          cases hi
          exact ⟨d, hd, rfl, hg d hd hst⟩ }
    · cases hs
      exact { h with
        ring := hr
        storing := fun i hi => by
          rw [hso] at hi
          cases hi }
  · cases hs

theorem doneStore {i : Nat} {s : St α} (h : ClosureInv N t) (hi : t.base.storing = some i)
    (hs : Shm.step t.base .doneStore = some s) :
    ClosureInv N ⟨s, t.running, t.writes ++ [(t.running, t.base.hist.owner i)]⟩ := by
  have hr := h.ring.doneStore hs
  obtain ⟨d, hd, hslot, hcl⟩ := h.storing i hi
  obtain ⟨hmod, hlt⟩ := h.slot d (List.mem_of_getElem? hd)
  have hown : t.base.hist.owner i = d.ref.seq := by
    rw [← hslot, ← hmod]
    exact h.ring.owner _ hcl hlt
  have hfresh : d.ref.seq ∉ t.base.hist.marked := by
    rw [h.ring.markedIn _ hcl hlt, hmod, hslot, h.ring.storing i hi]
    simp
  simp only [Shm.step, doneStoreStep, hi, Option.some.injEq] at hs
  subst hs
  refine { h with
    ring := hr
    storing := fun j hj => by cases hj
    own := fun w hw => ?_
    once := ?_ }
  · rcases List.mem_append.1 hw with hw | hw
    · obtain ⟨d', hd', hseq, hmk⟩ := h.own w hw
      exact ⟨d', hd', hseq, List.mem_append_left _ hmk⟩
    · rw [List.mem_singleton.1 hw]
      exact ⟨d, hd, hown.symm, List.mem_append_right _ (List.mem_singleton.2 rfl)⟩
  · rw [List.map_append, List.map_singleton]
    refine List.nodup_append.2 ⟨h.once, List.pairwise_singleton _ _, fun k hk k' hk' he => ?_⟩
    obtain ⟨w, hw, rfl⟩ := List.mem_map.1 hk
    obtain ⟨d', hd', hseq, hmk⟩ := h.own w hw
    rw [List.mem_singleton.1 hk'] at he
    simp only at he
    rw [he, hd] at hd'
    cases hd'
    exact hfresh (hseq ▸ hmk)

theorem step {a : Act α} (h : ClosureInv N t) (hg : NotLate t.base a) (hs : t.step a = some t') :
    ClosureInv N t' := by
  cases a with
  | offer v =>
    simp only [Traced.step, Option.map_eq_some_iff] at hs
    obtain ⟨s, hs, rfl⟩ := hs
    refine h.frame (h.ring.offer hs) (prodFrame_offer hs) ?_ ?_
    · simp only [Shm.step] at hs
      split at hs <;> cases hs
      rfl
    · simp only [Shm.step] at hs
      split at hs <;> cases hs
      exact .inl ⟨rfl, rfl⟩
  | prod τ τ' =>
    simp only [Traced.step, Option.map_eq_some_iff] at hs
    obtain ⟨s, hs, rfl⟩ := hs
    obtain ⟨hm, ho⟩ := owner_prod h.ring hs
    exact h.frame (h.ring.prod hs) (prodFrame_prod h.ring hs) hm ho
  | cons =>
    simp only [Traced.step, Option.map_eq_some_iff] at hs
    obtain ⟨s, hs, rfl⟩ := hs
    exact h.cons hs
  | doneTest k =>
    simp only [Traced.step, Option.map_eq_some_iff] at hs
    obtain ⟨s, hs, rfl⟩ := hs
    exact h.doneTest hg hs
  | doneStore =>
    simp only [Traced.step] at hs
    split at hs
    · cases hs
    · rename_i i hi
      simp only [Option.map_eq_some_iff] at hs
      obtain ⟨s, hs, rfl⟩ := hs
      exact h.doneStore hi hs

end ClosureInv

/-! ## A ring without slots -/

/-- **No closure on a ring without slots**: no `consumeItem` gets as far as one. -/
structure NoClosure (t : Traced α) : Prop where
  ring : Slotless t.base
  cons : ∃ last, t.base.cons = .between last
  delivered : t.base.hist.delivered = []
  storing : t.base.storing = none
  writes : t.writes = []

theorem NoClosure.step {t t' : Traced α} {a : Act α} (h : NoClosure t) (hs : t.step a = some t') : NoClosure t' := by
  obtain ⟨hr, ⟨last, hc⟩, hd, hso, hw⟩ := h
  cases a with
  | offer v =>
    simp only [Traced.step, Option.map_eq_some_iff] at hs
    obtain ⟨s, hs, rfl⟩ := hs
    have hf := prodFrame_offer (N := 0) hs
    exact ⟨hr.step hs, ⟨last, hf.cons.trans hc⟩, hf.delivered.trans hd, hf.storing.trans hso, hw⟩
  | prod τ τ' =>
    simp only [Traced.step, Option.map_eq_some_iff] at hs
    obtain ⟨s, hs, rfl⟩ := hs
    refine ⟨hr.step hs, ⟨last, ?_⟩, ?_, ?_, hw⟩
    all_goals
      rcases hr.prod with hp | ⟨v, hp | hp⟩
      · simp only [Shm.step, prodStep, hp] at hs
        cases hs
      · simp only [Shm.step, prodStep, hp] at hs
        cases hs
        assumption
      · simp only [Shm.step, prodStep, hp, hr.statusAt_eq_none] at hs
        cases hs
  | cons =>
    simp only [Traced.step, Option.map_eq_some_iff] at hs
    obtain ⟨s, hs, rfl⟩ := hs
    have hr' := hr.step hs
    simp only [Shm.step, consStep, hc, hr.size, Option.some.injEq] at hs
    subst hs
    refine ⟨hr', ⟨.fail, ?_⟩, hd, hso, hw⟩
    simp only
    rw [if_pos (Nat.zero_le _)]
  | doneTest k =>
    simp only [Traced.step, Shm.step, doneTestStep, hd, hso] at hs
    cases hs
  | doneStore =>
    simp only [Traced.step, hso] at hs
    cases hs

/-! ## Every run -/

theorem Traced.base_step {t t' : Traced α} {a : Act α} (hs : t.step a = some t') :
    Shm.step t.base a = some t'.base := by
  cases a with
  | doneStore =>
    simp only [Traced.step] at hs
    split at hs
    · cases hs
    · simp only [Option.map_eq_some_iff] at hs
      obtain ⟨s, hs, rfl⟩ := hs
      exact hs
  | offer v | prod τ τ' | cons | doneTest k =>
    simp only [Traced.step, Option.map_eq_some_iff] at hs
    obtain ⟨s, hs, rfl⟩ := hs
    exact hs

theorem closureInv_reach {N : Nat} (hN : 0 < N) {t : Traced α}
    (h : Reach Traced.step (fun t a => NotLate t.base a) (Traced.start α N) t) : ClosureInv N t :=
  h.invariant (ClosureInv.start N hN) (fun _ _ _ _ hi hg hs => hi.step hg hs)

/-- **A closure affects its own delivery only**, however often it is called, while none is called with its slot INIT and
its item reclaimed; what it does to the ring is to mark a slot. -/
theorem closures_own (N : Nat) (t : Traced α)
    (h : Reach Traced.step (fun t a => NotLate t.base a) (Traced.start α N) t) :
    OwnOnly t ∧ ∀ a t', (a = .doneStore ∨ ∃ k, a = .doneTest k) → t.step a = some t' → Recorded t t' := by
  refine ⟨?_, fun _ _ => recorded_of_closure⟩
  rcases Nat.eq_zero_or_pos N with rfl | hN
  · have h0 : NoClosure t := h.invariant ⟨Slotless.start α, ⟨_, rfl⟩, rfl, rfl, rfl⟩
      (fun _ _ _ _ hi _ hs => hi.step hs)
    refine ⟨?_, fun w hw => ?_⟩
    · rw [h0.writes]
      exact List.nodup_nil
    · rw [h0.writes] at hw
      cases hw
  · have hi := closureInv_reach hN h
    refine ⟨hi.once, fun w hw => ?_⟩
    obtain ⟨d, hd, hseq, -⟩ := hi.own w hw
    exact ⟨d, hd, hseq⟩

/-- A ring of one, filled twice: the first closure is called again before the refill and after the second one. -/
def calledAgain : List (Act Nat) :=
  offering 7 8 ++ reading 5 ++ [.doneTest 0, .doneStore, .doneTest 0, .cons] ++ offering 8 14 ++ reading 5 ++
    [.doneTest 1, .doneStore, .doneTest 0]

theorem closures_own_again : ∃ t, Machine.exec Traced.step (fun t a => NotLate t.base a) (Traced.start Nat 1)
    calledAgain = some t ∧ t.writes = [(0, 0), (1, 1)] ∧ OwnOnly t :=
  ⟨_, rfl, rfl, (closures_own 1 _ (Machine.reach_of_exec _ _ calledAgain _ rfl)).1⟩

/-- **A late closure marks the item of another**, in every state of every run: the one its slot has been filled with
since. -/
theorem late_closure {N : Nat} (hN : 0 < N) {t : Traced α}
    (h : Reach Traced.step Machine.anyStep (Traced.start α N) t) {k : Nat} {d : Delivery α}
    (hd : t.base.hist.delivered[k]? = some d) (hso : t.base.storing = none)
    (hst : t.base.ring.statusAt d.slot = some .init) (hlate : d.ref.seq < t.base.hist.cleaned) :
    ∃ t₁ t₂ q, t.step (.doneTest k) = some t₁ ∧ t₁.step .doneStore = some t₂ ∧ d.ref.seq < q ∧
      q ∉ t.base.hist.marked ∧ t₂.writes = t.writes ++ [(k, q)] ∧ ¬ OwnOnly t₂ := by
  have hr : RingInv N t.base := h.invariant (I := fun t => RingInv N t.base) (RingInv.start N hN)
    (fun _ _ _ _ hi _ hs => hi.step (Traced.base_step hs))
  obtain ⟨q, hq, hq', hmod⟩ := hr.window.exists_count hst (by decide)
  have hown : t.base.hist.owner d.slot = q := by
    rw [← hmod]
    exact hr.owner q hq hq'
  have htest : Shm.step t.base (.doneTest k) =
      some { t.base with storing := some d.slot, hist := { t.base.hist with called := t.base.hist.called ++ [k] } } := by
    simp only [Shm.step, doneTestStep, hso, hd, hst]
  refine ⟨_, _, q, by simp only [Traced.step, htest]; rfl, rfl, by omega, ?_, by rw [← hown], fun ho => ?_⟩
  · rw [hr.markedIn q hq hq', hmod, hst]
    simp
  · obtain ⟨d', hd', hseq⟩ := ho.own (k, q) (List.mem_append_right _ (by rw [← hown]; exact List.mem_singleton.2 rfl))
    have hd' : t.base.hist.delivered[k]? = some d' := hd'
    rw [hd] at hd'
    cases hd'
    have hseq : d.ref.seq = q := hseq
    omega

/-- A ring of one, filled twice: the first closure is called again after the refill. -/
def calledLate : List (Act Nat) :=
  offering 7 8 ++ reading 5 ++ [.doneTest 0, .doneStore, .cons] ++ offering 8 14 ++ [.doneTest 0, .doneStore]

/-- **An unread message is dropped**: the second call of closure 0 marks item 1, which no callback was given. -/
theorem late_closure_drops : ∃ t, Machine.exec Traced.step Machine.anyStep (Traced.start Nat 1) calledLate = some t ∧
    t.writes = [(0, 0), (0, 1)] ∧ t.base.hist.delivered.length = 1 ∧ t.base.ring.slots = [⟨some 8, .consumed⟩] ∧
    ¬ OwnOnly t := by
  refine ⟨_, rfl, rfl, rfl, rfl, fun h => ?_⟩
  have := h.once
  revert this
  decide

end Shm
