import ShmMultiproc.Delivery
import ShmMultiproc.Restart
/-!
# Wake — the queue of deferred functions

`Wake` offers a function to the poller's own ring under a mutex, and `DoWake` takes one at a time, runs it and calls its
`done`; a function that calls `Wake` is a producer that moves while a callback runs.  `Wake` answers 0 whatever `Offer`
answered, so a function offered to a full ring is lost (`wake_dropped`).  Otherwise none is (`wake_keeps`).
-/
namespace Shm

open Cyclic (wrap Phase wrap_lt wrap_of_lt)
open Machine (Reach)
open RingBuffer (walk walk_window)

variable {α : Type}

/-- `wake_queue->OpenWrite(100000)` in `ShmFIFOPoller::Init`. -/
def wakeQueueSize : Nat := 100000

/-- What `Wake` answers when its `Offer` answered `code`. -/
def wakeResult (_code : Int) : Int := 0

/-- `Wake(func)` on the ring of `wake_queue`. -/
def wake (func : α) (r : RingBuffer α) : Except Fault (RingBuffer α × Int) :=
  match RingBuffer.offer func r with
  | .error e => .error e
  | .ok o => .ok (o.ring, wakeResult o.code)

/-! ## What is executed, what is stored -/

/-- The functions run so far, the one being run included. -/
def executed (s : St α) : List (Option α) := s.hist.delivered.map (fun d => d.ref.item)

def nextSlot (s : St α) : Nat :=
  match s.cons with
  | .call i => i
  | _ => wrap s.ring.size s.ring.consumeIdx

def runningSeq (s : St α) : Option Nat :=
  match s.cons with
  | .callback k => s.hist.delivered[k]?.map (fun d => d.ref.seq)
  | _ => none

/-- **The functions still stored**: those of the INIT slots of one lap, but for the one being run. -/
def stored (s : St α) : List (Option α) :=
  ((s.ring.walk s.ring.size (nextSlot s)).filter (fun i => some (s.hist.owner i) ≠ runningSeq s)).map s.ring.get

/-- The functions passed to the calls of `Wake` that returned 0. -/
def woken (s : St α) : List α := (s.hist.finished.filter (fun p => wakeResult p.2 = 0)).map Prod.fst

/-- **No wake function is lost, repeated or reordered**; a call that has set its slot to INIT counts as made. -/
def NoneLost (s : St α) : Prop := executed s ++ stored s = (woken s ++ s.prod.arriving).map some

def ProdPc.testing : ProdPc α → Bool
  | .test _ => true
  | _ => false

/-- When `Offer` tests the slot under `produce_idx`, it is CLEANED. -/
def Fits (s : St α) : Act α → Prop
  | .prod _ _ => s.prod.testing = true → s.ring.statusAt s.ring.produceIdx = some .cleaned
  | _ => True

instance (s : St α) (a : Act α) : Decidable (Fits s a) :=
  match a with
  | .prod _ _ =>
    inferInstanceAs (Decidable (s.prod.testing = true → s.ring.statusAt s.ring.produceIdx = some .cleaned))
  | .offer _ | .cons | .doneTest _ | .doneStore => .isTrue trivial

/-! ## Room when the call begins -/

def ProdPc.cleaning : ProdPc α → Bool
  | .clean _ | .cleanTest _ | .drop _ | .null _ | .mark _ | .advance _ => true
  | _ => false

/-- The producer has left that loop and not yet tested the slot under `produce_idx`. -/
def ProdPc.placing : ProdPc α → Bool
  | .wrap _ | .test _ => true
  | _ => false

/-- Fewer functions than there are slots have been accepted after the first `m`, which are done. -/
def Room (s : St α) : Prop := ∃ m, (∀ k < m, k ∈ s.hist.marked) ∧ s.hist.accepted.length < m + s.ring.size

/-- There is room when a call of `Wake` begins. -/
def BeginsWithRoom (s : St α) : Act α → Prop
  | .offer _ => Room s
  | _ => True

structure RoomInv (N : Nat) (s : St α) : Prop where
  ring : RingInv N s
  cleaning : s.prod.cleaning = true → Room s
  placing : s.prod.placing = true → s.hist.accepted.length < s.hist.cleaned + N

namespace RoomInv

variable {N : Nat} {s s' : St α}

theorem frame (h : RoomInv N s) (hr : RingInv N s') (hp : s'.prod = s.prod) (ha : s'.hist.accepted = s.hist.accepted)
    (hc : s'.hist.cleaned = s.hist.cleaned) (hm : s.hist.marked ⊆ s'.hist.marked) : RoomInv N s' := by
  refine ⟨hr, fun h' => ?_, fun h' => ?_⟩
  · obtain ⟨m, hdone, hlt⟩ := h.cleaning (hp ▸ h')
    exact ⟨m, fun k hk => hm (hdone k hk), by rw [ha, hr.window.size]; rwa [h.ring.window.size] at hlt⟩
  · rw [ha, hc]
    exact h.placing (hp ▸ h')

theorem prod {t t' : Int} (h : RoomInv N s) (hs : Shm.step s (.prod t t') = some s') : RoomInv N s' := by
  have hr := h.ring.prod hs
  have hloop := h.cleaning
  have hplace := h.placing
  have hring := h.ring
  have hsize := hring.window.size
  have hsize' := hr.window.size
  obtain ⟨r, nf, pc, cs, so, hi⟩ := s
  cases pc with
  | idle => cases hs
  | clean v | drop v | advance v => cases hs; exact ⟨hr, fun _ => hloop rfl, fun h' => by cases h'⟩
  | null v | mark v =>
    cases hs
    refine ⟨hr, fun _ => ?_, fun h' => by cases h'⟩
    obtain ⟨m, hdone, hlt⟩ := hloop rfl
    exact ⟨m, hdone, by rw [hsize', ← hsize]; exact hlt⟩
  | cleanTest v =>
    simp only [Shm.step, prodStep] at hs
    split at hs <;> cases hs
    · exact ⟨hr, fun _ => hloop rfl, fun h' => by cases h'⟩
    · rename_i st hne hst
      refine ⟨hr, (fun h' => by cases h'), fun _ => ?_⟩
      obtain ⟨m, hdone, hlt⟩ := hloop rfl
      show hi.accepted.length < hi.cleaned + N
      have hlt : hi.accepted.length < m + N := hsize ▸ hlt
      have hN := hring.pos
      by_contra hfull
      -- the ring is full, so the slot seen holds the oldest item kept, and that one is not done
      have hcl := hring.cleanedPhase.eq_mod (hring.cleanedLt rfl)
      have hmem : hi.cleaned ∈ hi.marked := hdone _ (by omega)
      have hcon := (hring.markedIn _ (Nat.le_refl _) (show hi.cleaned < hi.accepted.length by omega)).1 hmem
      rw [← hcl] at hcon
      exact hne (Option.some.inj (hst.symm.trans hcon))
  | wrap v => cases hs; exact ⟨hr, (fun h' => by cases h'), fun _ => hplace rfl⟩
  | test v =>
    simp only [Shm.step, prodStep] at hs
    split at hs <;> cases hs <;> exact ⟨hr, (fun h' => by cases h'), fun h' => by cases h'⟩
  | refuse v | store v | publish v | notify v | bump v =>
    cases hs
    exact ⟨hr, (fun h' => by cases h'), fun h' => by cases h'⟩

theorem step {a : Act α} (h : RoomInv N s) (hg : BeginsWithRoom s a) (hs : Shm.step s a = some s') :
    RoomInv N s' := by
  have hr := h.ring.step hs
  cases a with
  | offer v =>
    simp only [Shm.step] at hs
    split at hs <;> cases hs
    exact ⟨hr, fun _ => hg, fun h' => by cases h'⟩
  | prod t t' => exact h.prod hs
  | cons =>
    obtain ⟨r, nf, pc, cs, so, hi⟩ := s
    cases cs with
    | between last | skip | take | call i | callback k => cases hs; exact h.frame hr rfl rfl rfl (List.Subset.refl _)
    | test | test2 =>
      simp only [Shm.step, consStep] at hs
      split at hs <;> cases hs <;> exact h.frame hr rfl rfl rfl (List.Subset.refl _)
  | doneTest k =>
    simp only [Shm.step, doneTestStep] at hs
    split at hs
    · split at hs <;> cases hs <;> exact h.frame hr rfl rfl rfl (List.Subset.refl _)
    · cases hs
  | doneStore =>
    simp only [Shm.step, doneStoreStep] at hs
    split at hs <;> cases hs
    exact h.frame hr rfl rfl rfl (List.subset_append_left _ _)

end RoomInv

/-- **A call that begins with room finds its slot CLEANED**, whatever the reader does meanwhile. -/
theorem fits_of_room {N : Nat} (hN : 0 < N) {G : St α → Act α → Prop} {s : St α}
    (h : Reach step (fun s a => G s a ∧ BeginsWithRoom s a) (St.start α N) s) :
    Reach step (fun s a => G s a ∧ Fits s a) (St.start α N) s := by
  refine h.imp (fun s₁ a hr hg => ⟨hg.1, ?_⟩)
  have hi : RoomInv N s₁ := hr.invariant
    ⟨.start N hN, (fun h' => by cases h'), fun h' => by cases h'⟩ (fun _ _ _ _ hi hg hs => hi.step hg.2 hs)
  cases a with
  | prod t t' =>
    intro ht
    obtain ⟨v, hpc⟩ : ∃ v, s₁.prod = .test v := by
      cases hpc : s₁.prod with
      | test v => exact ⟨v, rfl⟩
      | _ => rw [hpc] at ht; cases ht
    have hphase := hi.ring.producePhase
    have hlt := hi.ring.produceLt
    have hroom := hi.placing
    rw [hpc] at hphase hlt hroom
    have hidx : s₁.ring.produceIdx = s₁.hist.accepted.length % N := hphase.eq_mod (hlt rfl)
    rw [hidx]
    exact hi.ring.window.free _ (Nat.le_refl _) (hroom rfl)
  | offer v => trivial
  | cons => trivial
  | doneTest k => trivial
  | doneStore => trivial

/-! ## Nothing is refused -/

/-- What has been accepted is what `Wake` was called with. -/
structure WakeInv (s : St α) : Prop where
  finished : s.hist.finished.map Prod.fst ++ s.prod.arriving = s.hist.accepted
  accepts : ∀ v, s.prod ≠ .refuse v

theorem WakeInv.step {s s' : St α} {a : Act α} (h : WakeInv s) (hf : Fits s a) (hs : Shm.step s a = some s') :
    WakeInv s' := by
  obtain ⟨r, nf, pc, cs, so, hi⟩ := s
  have hfin : hi.finished.map Prod.fst ++ pc.arriving = hi.accepted := h.finished
  cases a with
  | offer v =>
    cases pc <;> simp only [Shm.step, Option.some.injEq, reduceCtorEq] at hs
    subst hs
    exact ⟨hfin, fun v h => by cases h⟩
  | prod t t' =>
    cases pc with
    | idle => cases hs
    | clean v => cases hs; exact ⟨hfin, fun v h => by cases h⟩
    | cleanTest v =>
      simp only [Shm.step, prodStep] at hs
      split at hs <;> cases hs <;> exact ⟨hfin, fun v h => by cases h⟩
    | drop v => cases hs; exact ⟨hfin, fun v h => by cases h⟩
    | null v => cases hs; exact ⟨hfin, fun v h => by cases h⟩
    | mark v => cases hs; exact ⟨hfin, fun v h => by cases h⟩
    | advance v => cases hs; exact ⟨hfin, fun v h => by cases h⟩
    | wrap v => cases hs; exact ⟨hfin, fun v h => by cases h⟩
    | test v =>
      have hcl : r.statusAt r.produceIdx = some .cleaned := hf rfl
      simp only [Shm.step, prodStep, hcl, Option.some.injEq] at hs
      subst hs
      exact ⟨hfin, fun v h => by cases h⟩
    | refuse v => exact absurd rfl (h.accepts v)
    | store v => cases hs; exact ⟨hfin, fun v h => by cases h⟩
    | publish v =>
      cases hs
      refine ⟨?_, fun v h => by cases h⟩
      show hi.finished.map Prod.fst ++ [v] = hi.accepted ++ [v]
      rw [← hfin]
      simp [ProdPc.arriving]
    | notify v => cases hs; exact ⟨hfin, fun v h => by cases h⟩
    | bump v =>
      cases hs
      refine ⟨?_, fun v h => by cases h⟩
      show (hi.finished ++ [(v, (0 : Int))]).map Prod.fst ++ [] = hi.accepted
      rw [List.map_append, List.append_nil]
      exact hfin
  | cons =>
    have hsame : s'.prod = pc ∧ s'.hist.finished = hi.finished ∧ s'.hist.accepted = hi.accepted := by
      cases cs with
      | between last => cases hs; exact ⟨rfl, rfl, rfl⟩
      | test =>
        simp only [Shm.step, consStep] at hs
        split at hs <;> cases hs <;> exact ⟨rfl, rfl, rfl⟩
      | skip => cases hs; exact ⟨rfl, rfl, rfl⟩
      | test2 =>
        simp only [Shm.step, consStep] at hs
        split at hs <;> cases hs <;> exact ⟨rfl, rfl, rfl⟩
      | take => cases hs; exact ⟨rfl, rfl, rfl⟩
      | call i => cases hs; exact ⟨rfl, rfl, rfl⟩
      | callback k => cases hs; exact ⟨rfl, rfl, rfl⟩
    obtain ⟨hp, hf, ha⟩ := hsame
    exact ⟨by rw [hp, hf, ha]; exact hfin, by rw [hp]; exact h.accepts⟩
  | doneTest k =>
    simp only [Shm.step, doneTestStep] at hs
    split at hs
    · split at hs <;> cases hs <;> exact ⟨hfin, h.accepts⟩
    · cases hs
  | doneStore =>
    simp only [Shm.step, doneStoreStep] at hs
    split at hs <;> cases hs
    exact ⟨hfin, h.accepts⟩

/-! ## What the walk from the next slot meets -/

theorem RingBuffer.mem_walk {r : RingBuffer α} {N x : Nat} (hr : r.size = N) : ∀ (n i : Nat), i < N → x ∈ r.walk n i →
    r.statusAt x = some .init ∧ ∃ j < n, x = (i + j) % N
  | 0, _, _, hx => by cases hx
  | n + 1, i, hi, hx => by
    have hrest : ∀ {i'}, i' = wrap N (i + 1) → x ∈ r.walk n i' →
        r.statusAt x = some .init ∧ ∃ j < n + 1, x = (i + j) % N := by
      rintro _ rfl hx
      obtain ⟨hs, j, hj, rfl⟩ := mem_walk hr n _ (wrap_lt (by omega) _) hx
      exact ⟨hs, j + 1, by omega, Cyclic.wrap_succ_add_mod hi j⟩
    unfold walk at hx
    split at hx
    · rename_i hs
      rcases List.mem_cons.1 hx with rfl | hx
      · exact ⟨hs, 0, Nat.succ_pos n, by rw [Nat.add_zero, Nat.mod_eq_of_lt hi]⟩
      · exact hrest (by rw [hr]) hx
    · exact hrest (by rw [hr]) hx
    · cases hx

theorem map_getElem?_range' (l : List α) (k : Nat) :
    (List.range' k (l.length - k)).map (fun j => l[j]?) = (l.drop k).map some := by
  refine List.ext_getElem? (fun i => ?_)
  rw [List.getElem?_map, List.getElem?_map, List.getElem?_drop]
  by_cases h : i < l.length - k
  · rw [List.getElem?_range' h, Nat.one_mul, List.getElem?_eq_getElem (show k + i < l.length by omega)]
    exact congrArg some (List.getElem?_eq_getElem (show k + i < l.length by omega))
  · rw [List.getElem?_eq_none (by rw [List.length_range']; omega),
      List.getElem?_eq_none (show l.length ≤ k + i by omega)]
    rfl

variable {N : Nat} {s : St α}

theorem DoneInv.nextSlot (h : DoneInv N s) : Shm.nextSlot s = s.hist.delivered.length % N := by
  have hph := h.deliv.phase
  unfold Shm.nextSlot
  split
  · rename_i i hc
    exact h.deliv.call i hc
  · rename_i hno
    have hlead : s.cons.lead = 0 := by
      cases hc : s.cons <;> first | rfl | exact absurd hc (hno _)
    rw [hlead, Nat.add_zero] at hph
    rw [h.deliv.ring.window.size]
    exact hph.wrap

theorem DoneInv.running_of_init (h : DoneInv N s) {k : Nat} (hk : s.hist.cleaned ≤ k)
    (hk' : k < s.hist.delivered.length) (hst : s.ring.statusAt (k % N) = some .init) :
    runningSeq s = some k := by
  rcases h.doneIn k hk hk' with hc | hc
  · rw [hst] at hc; cases hc
  · unfold runningSeq
    rw [hc]
    simp only
    rw [h.deliv.delivered, inOrder_getElem?, if_pos hk']
    rfl

theorem DoneInv.running_lt (h : DoneInv N s) {k : Nat} (hk : runningSeq s = some k) :
    k < s.hist.delivered.length := by
  unfold runningSeq at hk
  split at hk
  · rename_i j hc
    have hj := h.last j hc
    rw [h.deliv.delivered, inOrder_getElem?, if_pos (by omega)] at hk
    cases hk
    exact (show j < s.hist.delivered.length by omega)
  · cases hk

/-- **What is stored is what has been accepted and not run**, oldest first. -/
theorem DoneInv.stored_eq (h : DoneInv N s) : stored s = (s.hist.accepted.drop s.hist.delivered.length).map some := by
  have hr := h.deliv.ring
  have hw := hr.window
  have hle := h.deliv.le
  have hcl := h.deliv.cleanedLe
  have hge := hw.ge
  have hfirst : ∀ j, s.hist.delivered.length ≤ j → j < s.hist.accepted.length →
      s.ring.statusAt (j % N) = some .init ∧ s.ring.get (j % N) = s.hist.accepted[j]? ∧ s.hist.owner (j % N) = j := by
    intro j hj hj'
    have hst := h.deliv.init_of_not_delivered hj hj'
    exact ⟨hst, hr.get_of_init (by omega) hj' hst, hr.owner j (by omega) hj'⟩
  have hwalk := walk_window hw.size hr.pos (N - (s.hist.accepted.length - s.hist.delivered.length))
    (s.hist.accepted.length - s.hist.delivered.length) s.hist.delivered.length
    (fun j hj hj' => .inl (hfirst j hj (by omega)).1)
  have hall : ((List.range' s.hist.delivered.length (s.hist.accepted.length - s.hist.delivered.length)).filter
      (fun j => s.ring.statusAt (j % N) = some .init)) =
      List.range' s.hist.delivered.length (s.hist.accepted.length - s.hist.delivered.length) := by
    refine List.filter_eq_self.2 (fun j hj => ?_)
    have hmem := List.mem_range'_1.1 hj
    simpa using (hfirst j (by omega) (by omega)).1
  have hsum : s.hist.accepted.length - s.hist.delivered.length +
      (N - (s.hist.accepted.length - s.hist.delivered.length)) = N := by omega
  have hend : s.hist.delivered.length + (s.hist.accepted.length - s.hist.delivered.length) = s.hist.accepted.length := by
    omega
  rw [hall, hsum, hend] at hwalk
  unfold stored
  rw [hw.size, h.nextSlot, hwalk, List.filter_append]
  have hkeep : ((List.range' s.hist.delivered.length (s.hist.accepted.length - s.hist.delivered.length)).map
      (· % N)).filter (fun i => some (s.hist.owner i) ≠ runningSeq s) =
      (List.range' s.hist.delivered.length (s.hist.accepted.length - s.hist.delivered.length)).map (· % N) := by
    refine List.filter_eq_self.2 (fun i hi => ?_)
    obtain ⟨j, hj, rfl⟩ := List.mem_map.1 hi
    have hmem := List.mem_range'_1.1 hj
    rw [decide_eq_true_eq, (hfirst j (by omega) (by omega)).2.2]
    intro he
    have := h.running_lt he.symm
    omega
  -- one lap on, the walk can only meet the slot of the function being run
  have hrest : (s.ring.walk (N - (s.hist.accepted.length - s.hist.delivered.length))
      (s.hist.accepted.length % N)).filter (fun i => some (s.hist.owner i) ≠ runningSeq s) = [] := by
    refine List.filter_eq_nil_iff.2 (fun i hi => ?_)
    obtain ⟨hst, j, hj, rfl⟩ := RingBuffer.mem_walk hw.size _ _ (Nat.mod_lt _ hr.pos) hi
    rw [Nat.mod_add_mod] at hst ⊢
    rcases Nat.lt_or_ge (s.hist.accepted.length + j) (s.hist.cleaned + N) with hfree | hlap
    · rw [hw.free _ (by omega) hfree] at hst
      cases hst
    · have hk : s.hist.accepted.length + j = (s.hist.accepted.length + j - N) + N := by omega
      rw [hk, Nat.add_mod_right] at hst ⊢
      rw [hr.owner _ (by omega) (by omega), h.running_of_init (by omega) (by omega) hst]
      simp
  rw [hkeep, hrest, List.append_nil, List.map_map, ← map_getElem?_range']
  refine List.map_congr_left (fun j hj => ?_)
  have hmem := List.mem_range'_1.1 hj
  exact (hfirst j (by omega) (by omega)).2.1

theorem woken_eq (s : St α) : woken s = s.hist.finished.map Prod.fst := by
  unfold woken
  rw [List.filter_eq_self.2 (fun p _ => by simp [wakeResult])]

/-- **No wake function is lost** while every `Wake` finds room and `DoWake` never tests a slot of a ring of CONSUMED
slots. -/
theorem wake_keeps (N : Nat) (hN : 0 < N) (s : St α)
    (h : Reach step (fun s a => CallsDone s a ∧ SomeLeft s a ∧ Fits s a) (St.start α N) s) : NoneLost s := by
  have hd := doneInv_reach hN (fun _ _ hg => ⟨hg.1, hg.2.1⟩) h
  have hw : WakeInv s := h.invariant ⟨rfl, fun v hv => by cases hv⟩ (fun _ _ _ _ hi hg hs => hi.step hg.2.2 hs)
  unfold NoneLost executed
  rw [hd.deliv.items, hd.stored_eq, woken_eq, hw.finished, ← List.map_append, List.take_append_drop]

/-- Function 7 is run and wakes 8 while it runs. -/
def reentrant : List (Act Nat) :=
  offering 7 8 ++ reading 5 ++ offering 8 8 ++ [.doneTest 0, .doneStore, .cons]

theorem wake_keeps_two : ∃ s, Machine.exec step (fun s a => CallsDone s a ∧ SomeLeft s a ∧ Fits s a)
    (St.start Nat 2) reentrant = some s ∧ executed s = [some 7] ∧ stored s = [some 8] ∧ NoneLost s :=
  ⟨_, rfl, rfl, rfl, wake_keeps 2 (by decide) _ (Machine.reach_of_exec _ _ reentrant _ rfl)⟩

/-! ## A full ring -/

/-- `n` calls of `Wake` have returned and the reader has not moved. -/
structure Waiting (N : Nat) (n : Nat) (s : St α) : Prop where
  reach : Reach step CallsDone (St.start α N) s
  idle : s.prod = .idle
  cons : s.cons = .between .fail
  delivered : s.hist.delivered = []
  marked : s.hist.marked = []
  finished : s.hist.finished.length = n

theorem Waiting.start (N : Nat) : Waiting N 0 (St.start α N) := ⟨.init, rfl, rfl, rfl, rfl, rfl⟩

theorem RingInv.not_consumed (h : RingInv N s) (hm : s.hist.marked = []) (i : Nat) :
    s.ring.statusAt i ≠ some .consumed := by
  intro hs
  obtain ⟨k, hk, hk', rfl⟩ := h.window.exists_count hs (by simp)
  have := (h.markedIn k hk hk').2 hs
  rw [hm] at this
  cases this

theorem reach_prod {s₀ s' : St α} (h : Reach step CallsDone s₀ s) (hs : prodStep 0 0 s = some s') :
    Reach step CallsDone s₀ s' := .next (a := .prod 0 0) h trivial hs

theorem Waiting.wake {n : Nat} (hN : 0 < N) (h : Waiting N n s) (v : α) : ∃ s' : St α, Waiting N (n + 1) s' := by
  obtain ⟨hr, hidle, hc, hd, hm, hf⟩ := h
  obtain ⟨r, nf, pc, cs, so, hi⟩ := s
  cases hidle
  have h1 : Reach step CallsDone (St.start α N) ⟨r, nf, .clean v, cs, so, hi⟩ :=
    .next (a := .offer v) hr trivial rfl
  have h2 : Reach step CallsDone (St.start α N)
      ⟨{ r with cleanedIdx := wrap r.size r.cleanedIdx }, nf, .cleanTest v, cs, so, hi⟩ := reach_prod h1 rfl
  have hinv := ringInv_reach hN h2.any
  have hsize : r.size = N := hinv.window.size
  obtain ⟨st, hst⟩ := RingBuffer.exists_statusAt (show wrap r.size r.cleanedIdx < r.size by
    rw [hsize]; exact wrap_lt hN _)
  have h3 : Reach step CallsDone (St.start α N)
      ⟨{ r with cleanedIdx := wrap r.size r.cleanedIdx }, nf, .wrap v, cs, so, hi⟩ := by
    refine reach_prod h2 ?_
    simp only [prodStep, RingBuffer.statusAt_mk, hst]
    cases st with
    | consumed => exact absurd hst (hinv.not_consumed hm _)
    | init => rfl
    | cleaned => rfl
  have h4 : Reach step CallsDone (St.start α N)
      ⟨{ r with cleanedIdx := wrap r.size r.cleanedIdx, produceIdx := wrap r.size r.produceIdx }, nf, .test v, cs, so,
        hi⟩ := reach_prod h3 rfl
  obtain ⟨st', hst'⟩ := RingBuffer.exists_statusAt (show wrap r.size r.produceIdx < r.size by
    rw [hsize]; exact wrap_lt hN _)
  have hlen : ∀ p, (hi.finished ++ [p]).length = n + 1 := fun p => by
    rw [List.length_append, show hi.finished.length = n from hf]; rfl
  by_cases hcl : st' = .cleaned
  · subst hcl
    have h5 : Reach step CallsDone (St.start α N)
        ⟨{ r with cleanedIdx := wrap r.size r.cleanedIdx, produceIdx := wrap r.size r.produceIdx }, nf, .store v, cs,
          so, hi⟩ := reach_prod h4 (by simp only [prodStep, RingBuffer.statusAt_mk, hst'])
    have h6 := reach_prod h5 rfl
    have h7 := reach_prod h6 rfl
    have h8 := reach_prod h7 rfl
    have h9 := reach_prod h8 rfl
    exact ⟨_, h9, rfl, hc, hd, hm, hlen _⟩
  · have h5 : Reach step CallsDone (St.start α N)
        ⟨{ r with cleanedIdx := wrap r.size r.cleanedIdx, produceIdx := wrap r.size r.produceIdx }, nf, .refuse v, cs,
          so, hi⟩ := reach_prod h4 (by simp only [prodStep, RingBuffer.statusAt_mk, hst'])
    have h6 := reach_prod h5 rfl
    exact ⟨_, h6, rfl, hc, hd, hm, hlen _⟩

theorem exists_waiting (hN : 0 < N) (v : α) : ∀ n, ∃ s : St α, Waiting N n s
  | 0 => ⟨_, .start N⟩
  | n + 1 => by
    obtain ⟨s, hs⟩ := exists_waiting hN v n
    exact hs.wake hN v

theorem RingBuffer.length_walk_le (r : RingBuffer α) : ∀ n i, (r.walk n i).length ≤ n
  | 0, _ => Nat.le_refl 0
  | n + 1, i => by
    unfold walk
    split
    · have := length_walk_le r n (wrap r.size (i + 1))
      rw [List.length_cons]; omega
    · have := length_walk_le r n (wrap r.size (i + 1))
      omega
    · exact Nat.zero_le _

theorem length_stored_le (s : St α) : (stored s).length ≤ s.ring.size := by
  unfold stored
  rw [List.length_map]
  exact Nat.le_trans (List.length_filter_le _ _) (RingBuffer.length_walk_le _ _ _)

/-- **The last of 100001 functions is lost**: no reader step between the calls, and every call returned 0. -/
theorem wake_dropped : ∃ s : St Nat, Reach step CallsDone (St.start Nat wakeQueueSize) s ∧ s.prod = .idle ∧
    executed s = [] ∧ (woken s).length = 100001 ∧ (stored s).length ≤ 100000 ∧ ¬ NoneLost s := by
  have hN : 0 < wakeQueueSize := by decide
  obtain ⟨s, hs⟩ := exists_waiting hN 7 (wakeQueueSize + 1)
  have hex : executed s = [] := by unfold executed; rw [hs.delivered]; rfl
  have hwk : (woken s).length = 100001 := by rw [woken_eq, List.length_map, hs.finished]; rfl
  have hst : (stored s).length ≤ 100000 := by
    have := length_stored_le s
    rw [(ringInv_reach hN hs.reach.any).window.size] at this
    exact this
  refine ⟨s, hs.reach, hs.idle, hex, hwk, hst, fun hnone => ?_⟩
  have hlen := congrArg List.length hnone
  rw [hex, List.nil_append, List.length_map, List.length_append, hwk, hs.idle] at hlen
  simp only [ProdPc.arriving, List.length_nil] at hlen
  omega

end Shm
