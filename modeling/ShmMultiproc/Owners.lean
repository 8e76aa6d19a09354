import ShmMultiproc.Lib.Registry
import ShmMultiproc.Poll
import ShmMultiproc.Records
/-!
# Owners — every reader has one process, and none is touched when it is gone

A reader is opened for the process that is forked next, attached by a queued function, and detached and deleted by the
function that the exit of the process queued.  In the runs with one process for each worker identity the master is a
registry of readers owned by pids (`refines_registry`): what `epoll` watches are the readers of the processes entered,
and each reader is deleted once.  No function in the wake queue and no iteration of a loop dereferences NULL then, or
attaches a reader that is gone (`never_crashes`).
-/
namespace Shm

/-- What a queued function does to the readers. -/
def Closure.job : Closure → Option (Registry.Job Int)
  | .restartWorker pid _ => some (.release pid)
  | .attach fifo => some (.watch fifo)
  | _ => none

namespace Master

open Machine (Reach)
open Table (lookup_insert_some lookup_erase_some)

/-- **The registry that a master is**: the process entered for a pid owns the reader of its record. -/
def registry (s : Master) : Registry.State Int :=
  ⟨s.readerOf, s.nextFifo, s.attached, s.deletedFifos, s.wakeQueue.filterMap Closure.job⟩

/-- **The records with a reader are those entered in `pid_workers`.** -/
structure ReadersEntered (s : Master) : Prop where
  entered : ∀ p r w, s.pidWorkers.lookup p = some r → s.recs r = some w → w.reader.isSome = true
  closed : ∀ r w, s.recs r = some w → (∀ p, s.pidWorkers.lookup p ≠ some r) → w.reader = none

variable {s s' : Master}

/-! ## Creating a worker -/

theorem openReader_closed {r : Nat} {w : WorkerProcess} {shm : Bool} (hw : s.recs r = some w) (hshm : w.shm = false)
    (hs : s.openReader r shm = some s') : s' = { s with
      recs := Function.update s.recs r (some { w with shm := true, reader := some s.nextFifo })
      nextFifo := s.nextFifo + 1
      wakeQueue := s.wakeQueue ++ [.attach s.nextFifo] } := by
  unfold Master.openReader at hs
  rw [hw] at hs
  simp only [hshm] at hs
  split at hs
  · rename_i h
    cases h
  · split at hs <;> cases hs
    rfl

/-- **What `CreateWorker` does to the readers** when the worker has none: it opens a new one, and queues the function that
attaches it. -/
structure Opens (s : Master) (id : WorkerId) (pid : Int) (r : Nat) (w : WorkerProcess) (s' : Master) : Prop where
  reader : w.reader = some s.nextFifo
  recs : s'.recs = Function.update s.recs r (some w)
  pidWorkers : s'.pidWorkers = s.pidWorkers.insert pid r
  nextFifo : s'.nextFifo = s.nextFifo + 1
  attached : s'.attached = s.attached
  deletedFifos : s'.deletedFifos = s.deletedFifos
  wakeQueue : s'.wakeQueue = s.wakeQueue ++ [.attach s.nextFifo]
  forked : pid = -1 ∨ (0 < pid ∧ pid ∉ s.children.map Child.pid)
  own : s.workers.lookup id = some r ∨ s.recs r = none

theorem createWorker_opens {option : WorkerOptions} {idx pid : Int} {shm : Bool} (hn : Named s)
    (hclosed : ∀ r w, s.workers.lookup ⟨option.name, idx⟩ = some r → s.recs r = some w → w.reader = none)
    (hs : s.createWorker option idx shm pid = some s') : ∃ r w, Opens s ⟨option.name, idx⟩ pid r w s' := by
  obtain ⟨w₀, hw₀, hid, hrecs, horigin⟩ := record_spec s option ⟨option.name, idx⟩ (hn.named _)
  have ho := hn.opened_record option hw₀
  unfold Master.createWorker at hs
  simp only at hs
  generalize s.record option ⟨option.name, idx⟩ = x at hs hw₀ hrecs horigin
  obtain ⟨s₁, r⟩ := x
  simp only at hs hw₀ hrecs horigin
  have hshm : w₀.shm = false := by
    have hnone : w₀.reader = none := by
      rcases horigin with ⟨hl, he⟩ | ⟨-, -, rfl, -⟩
      · exact hclosed _ w₀ hl (he ▸ hw₀)
      · rfl
    rw [hnone] at ho
    simpa using ho
  split at hs
  · cases hs
  · rename_i s₂ hs₂
    cases openReader_closed hw₀ hshm hs₂
    obtain ⟨hpid, rfl⟩ := forkWorker_spec (Function.update_self ..) hs
    have hrecs' : ∀ w₁ w₂, Function.update (Function.update s₁.recs r (some w₁)) r (some w₂) =
        Function.update s.recs r (some w₂) := by
      intro w₁ w₂
      rw [Function.update_idem, hrecs, Function.update_idem]
    rcases horigin with ⟨hl, rfl⟩ | ⟨-, rfl, -, rfl⟩
    · exact ⟨r, _, rfl, hrecs' _ _, rfl, rfl, rfl, rfl, rfl, hpid, .inl hl⟩
    · exact ⟨_, _, rfl, hrecs' _ _, rfl, rfl, rfl, rfl, rfl, hpid, .inr (hn.alloc _ (Nat.le_refl _))⟩

theorem Inv.forkOf_noPid {a : Act} {id : WorkerId} {pid : Int} (h : Inv s) (hfree : Free s a)
    (hf : s.forkOf a = some (id, pid)) : s.NoPid id ∧ pid ∉ s.exitedPids := by
  have hcore := h.core
  unfold tokens at hcore
  cases a with
  | next now shm p =>
    obtain ⟨hex, hcheck⟩ := hfree
    unfold forkOf at hf
    simp only at hf
    split at hf <;> rename_i hpc
    · rw [hpc] at hcore
      cases hf
      exact ⟨hcore.toksFree _ List.mem_cons_self, hex⟩
    · rw [hpc] at hcore
      split at hf <;> cases hf
      exact ⟨hcore.toksFree _ (List.mem_map_of_mem (List.mem_append_right _ List.mem_cons_self)), hex⟩
    · rw [hpc] at hcheck
      split at hf
      · rename_i hmiss
        cases hf
        exact ⟨(hcheck hmiss).1, hex⟩
      · cases hf
    · cases hf
  | _ => cases hf

/-- What a step does to the readers when it opens and closes none. -/
structure SameReaders (s s' : Master) : Prop where
  recs : s'.recs = s.recs
  pidWorkers : s'.pidWorkers = s.pidWorkers
  nextFifo : s'.nextFifo = s.nextFifo
  attached : s'.attached = s.attached
  deletedFifos : s'.deletedFifos = s.deletedFifos

theorem SameReaders.registry (h : SameReaders s s') {jobs : List (Registry.Job Int)}
    (hj : s'.wakeQueue.filterMap Closure.job = jobs) : s'.registry = { s.registry with jobs := jobs } := by
  have hr : s'.readerOf = s.readerOf := by
    funext p
    unfold readerOf getWorkerByPid
    rw [h.recs, h.pidWorkers]
  unfold Master.registry
  rw [hr, h.nextFifo, h.attached, h.deletedFifos, hj]

theorem SameReaders.entered (h : SameReaders s s') (hr : ReadersEntered s) : ReadersEntered s' := by
  obtain ⟨hentered, hclosed⟩ := hr
  rw [← h.recs, ← h.pidWorkers] at hentered hclosed
  exact ⟨hentered, hclosed⟩

theorem next_cases {now : UInt64} {shm : Bool} {pid : Int} (h : Inv s) (hn : Named s) (hr : ReadersEntered s)
    (hfree : Free s (.next now shm pid)) (hs : s.next now shm pid = some s') :
    (SameReaders s s' ∧ s'.wakeQueue = s.wakeQueue) ∨
      ∃ id r w s₁ pc, s.NoPid id ∧ pid ∉ s.exitedPids ∧ Opens s id pid r w s₁ ∧ s' = { s₁ with pc := pc } := by
  have hopen : ∀ {option : WorkerOptions} {idx : Int} {s₁ : Master} {pc : MasterPc},
      s.forkOf (.next now shm pid) = some (⟨option.name, idx⟩, pid) →
      s.createWorker option idx shm pid = some s₁ → { s₁ with pc := pc } = s' →
      ∃ id r w s₁ pc, s.NoPid id ∧ pid ∉ s.exitedPids ∧ Opens s id pid r w s₁ ∧ s' = { s₁ with pc := pc } := by
    intro option idx s₁ pc hf hs₁ he
    obtain ⟨hno, hex⟩ := h.forkOf_noPid hfree hf
    obtain ⟨r, w, ho⟩ := createWorker_opens hn (fun r w hl hw => hr.closed r w hw (fun p hp => by
      obtain ⟨w₁, hw₁, hid⟩ := hn.named _ r hl
      exact hno p r w₁ hp hw₁ hid)) hs₁
    exact ⟨_, r, w, s₁, pc, hno, hex, ho, he.symm⟩
  unfold Master.next at hs
  split at hs
  · cases hs
  · cases hs
  · cases hs
    exact .inl ⟨⟨rfl, rfl, rfl, rfl, rfl⟩, rfl⟩
  · rename_i hpc
    split at hs
    · cases hs
    · rename_i s₁ hs₁
      exact .inr (hopen (by unfold forkOf; rw [hpc]) hs₁ (Option.some.inj hs))
  · cases hs
    exact .inl ⟨⟨rfl, rfl, rfl, rfl, rfl⟩, rfl⟩
  · rename_i e todo kept hpc
    split at hs
    · rename_i hdue
      split at hs
      · cases hs
      · rename_i s₁ hs₁
        exact .inr (hopen (by unfold forkOf; rw [hpc]; simp only [if_pos hdue]; rfl) hs₁ (Option.some.inj hs))
    · cases hs
      exact .inl ⟨⟨rfl, rfl, rfl, rfl, rfl⟩, rfl⟩
  · cases hs
    exact .inl ⟨⟨rfl, rfl, rfl, rfl, rfl⟩, rfl⟩
  · rename_i w i todo hpc
    split at hs
    · rename_i hmiss
      split at hs
      · cases hs
      · rename_i s₁ hs₁
        exact .inr (hopen (by unfold forkOf; rw [hpc]; simp only [if_pos hmiss]) hs₁ (Option.some.inj hs))
    · cases hs
      exact .inl ⟨⟨rfl, rfl, rfl, rfl, rfl⟩, rfl⟩

namespace Opens

variable {id : WorkerId} {pid : Int} {r : Nat} {w : WorkerProcess}

theorem fresh (ho : Opens s id pid r w s') (h : Inv s) (hn : Named s) (hno : s.NoPid id) (hpid : 0 < pid)
    (hex : pid ∉ s.exitedPids) : s.pidWorkers.lookup pid = none ∧ ∀ p, s.pidWorkers.lookup p ≠ some r := by
  refine ⟨?_, fun p hp => ?_⟩
  · by_contra hsome
    obtain ⟨r', hl⟩ := Option.ne_none_iff_exists'.1 hsome
    rcases h.core.reaped pid r' hl with hc | hc
    · rcases ho.forked with hneg | ⟨-, hnew⟩
      · omega
      · exact hnew hc
    · exact hex hc
  · obtain ⟨w₁, hw₁, -⟩ := h.core.pid p r hp
    rcases ho.own with hl | hnone
    · obtain ⟨w₂, hw₂, hid⟩ := hn.named id r hl
      exact hno p r w₂ hp hw₂ hid
    · cases hnone.symm.trans hw₁

theorem lookup_iff (ho : Opens s id pid r w s') {p : Int} {r' : Nat} : s'.pidWorkers.lookup p = some r' ↔
    (p = pid ∧ r' = r) ∨ (p ≠ pid ∧ s.pidWorkers.lookup p = some r') := by
  rw [ho.pidWorkers]
  exact lookup_insert_some

theorem entered (ho : Opens s id pid r w s') (hr : ReadersEntered s) (hnew : s.pidWorkers.lookup pid = none)
    (hun : ∀ p, s.pidWorkers.lookup p ≠ some r) : ReadersEntered s' where
  entered := fun p r' w' hl hw' => by
    rw [ho.recs] at hw'
    rcases ho.lookup_iff.1 hl with ⟨-, rfl⟩ | ⟨-, hl⟩
    · rw [Function.update_self] at hw'
      cases hw'
      rw [ho.reader]
      rfl
    · rw [Function.update_of_ne (by rintro rfl; exact hun p hl)] at hw'
      exact hr.entered p r' w' hl hw'
  closed := fun r' w' hw' hno => by
    have hne : r' ≠ r := fun he => hno pid (ho.lookup_iff.2 (.inl ⟨rfl, he⟩))
    rw [ho.recs, Function.update_of_ne hne] at hw'
    refine hr.closed r' w' hw' (fun p hp => hno p (ho.lookup_iff.2 (.inr ⟨?_, hp⟩)))
    rintro rfl
    rw [hnew] at hp
    cases hp

theorem acquires (ho : Opens s id pid r w s') (hnew : s.pidWorkers.lookup pid = none)
    (hun : ∀ p, s.pidWorkers.lookup p ≠ some r) (hex : pid ∉ s.exitedPids) :
    Registry.step s.registry (.acquire pid) = some s'.registry := by
  have hnone : s.readerOf pid = none := by
    unfold readerOf getWorkerByPid
    rw [hnew]
    rfl
  have hjob : Registry.Job.release pid ∉ s.wakeQueue.filterMap Closure.job := by
    intro hmem
    obtain ⟨c, hc, hj⟩ := List.mem_filterMap.1 hmem
    cases c with
    | restartWorker p ms =>
      cases hj
      exact hex (List.mem_filterMap.2 ⟨_, hc, rfl⟩)
    | attach f => cases hj
    | _ => cases hj
  have hreader : s'.readerOf = Function.update s.readerOf pid (some s.nextFifo) := by
    funext p
    unfold readerOf getWorkerByPid
    by_cases hp : p = pid
    · subst hp
      rw [Function.update_self, ho.pidWorkers, AList.lookup_insert, Option.bind_some, ho.recs, Function.update_self,
        Option.bind_some, ho.reader]
    · rw [Function.update_of_ne hp, ho.pidWorkers, AList.lookup_insert_ne hp]
      rcases hl : s.pidWorkers.lookup p with _ | r'
      · rfl
      · rw [Option.bind_some, Option.bind_some, ho.recs, Function.update_of_ne (by rintro rfl; exact hun p hl)]
  refine (if_pos ⟨hnone, hjob⟩).trans ?_
  unfold registry
  rw [hreader, ho.nextFifo, ho.attached, ho.deletedFifos, ho.wakeQueue, List.filterMap_append]
  rfl

end Opens

/-! ## The functions in the wake queue -/

/-- **What the function of an exit does to the readers**: that of the process is detached and deleted. -/
structure Closes (s : Master) (pid : Int) (r : Nat) (w : WorkerProcess) (f : Nat) (s' : Master) : Prop where
  lookup : s.pidWorkers.lookup pid = some r
  record : s.recs r = some w
  reader : w.reader = some f
  pidWorkers : s'.pidWorkers = s.pidWorkers.erase w.pid
  recs : ∀ r' ≠ r, s'.recs r' = s.recs r'
  gone : ∀ w', s'.recs r = some w' → w'.reader = none
  nextFifo : s'.nextFifo = s.nextFifo
  attached : s'.attached = s.attached.erase f
  deletedFifos : s'.deletedFifos = s.deletedFifos ++ [f]
  wakeQueue : s'.wakeQueue = s.wakeQueue

theorem runRestartWorker_cases {pid : Int} {afterMs now : UInt64} (hs : s.runRestartWorker pid afterMs now = some s') :
    (s.pidWorkers.lookup pid = none ∧ s' = s) ∨ ∃ r w f, Closes s pid r w f s' := by
  unfold runRestartWorker at hs
  split at hs
  · rename_i hnone
    cases hs
    exact .inl ⟨hnone, rfl⟩
  · rename_i r hl
    unfold destoryWorker at hs
    cases hw : s.recs r with
    | none => simp only [hw] at hs; cases hs
    | some w =>
      cases hf : w.reader with
      | none => simp only [hw, hf] at hs; cases hs
      | some f =>
        simp only [hw, hf] at hs
        refine .inr ⟨r, w, f, ?_⟩
        split at hs <;> cases hs
        · exact ⟨hl, hw, hf, rfl, fun r' hr' => (Function.update_of_ne hr' ..).trans (Function.update_of_ne hr' ..),
            fun w' hw' => (by cases (Function.update_self ..).symm.trans hw'), rfl, rfl, rfl, rfl⟩
        · refine ⟨hl, hw, hf, rfl, fun r' hr' => Function.update_of_ne hr' .., fun w' hw' => ?_, rfl, rfl, rfl, rfl⟩
          cases (Function.update_self ..).symm.trans hw'
          rfl

namespace Closes

variable {pid : Int} {r : Nat} {w : WorkerProcess} {f : Nat}

theorem lookup_iff (hc : Closes s pid r w f s') (h : Inv s) {p : Int} {r' : Nat} :
    s'.pidWorkers.lookup p = some r' ↔ p ≠ pid ∧ s.pidWorkers.lookup p = some r' := by
  obtain ⟨w₁, hw₁, hpid⟩ := h.core.pid pid r hc.lookup
  cases hc.record.symm.trans hw₁
  rw [hc.pidWorkers, hpid]
  exact lookup_erase_some

theorem record_ne (hc : Closes s pid r w f s') (h : Inv s) {p : Int} {r' : Nat} (hp : p ≠ pid)
    (hl : s.pidWorkers.lookup p = some r') : r' ≠ r := by
  rintro rfl
  exact hp (h.core.ids p pid r' r' w w hl hc.lookup hc.record hc.record rfl)

theorem entered (hc : Closes s pid r w f s') (h : Inv s) (hr : ReadersEntered s) : ReadersEntered s' where
  entered := fun p r' w' hl hw' => by
    obtain ⟨hp, hl⟩ := (hc.lookup_iff h).1 hl
    rw [hc.recs r' (hc.record_ne h hp hl)] at hw'
    exact hr.entered p r' w' hl hw'
  closed := fun r' w' hw' hno => by
    by_cases hr' : r' = r
    · subst hr'
      exact hc.gone w' hw'
    · rw [hc.recs r' hr'] at hw'
      refine hr.closed r' w' hw' (fun p hp => hno p ((hc.lookup_iff h).2 ⟨?_, hp⟩))
      rintro rfl
      exact hr' (Option.some.inj (hp.symm.trans hc.lookup))

theorem readerOf (hc : Closes s pid r w f s') (h : Inv s) :
    s'.readerOf = Function.update s.readerOf pid none := by
  funext p
  unfold Master.readerOf getWorkerByPid
  by_cases hp : p = pid
  · subst hp
    have hnone : s'.pidWorkers.lookup p = none := by
      by_contra hsome
      obtain ⟨r', hl⟩ := Option.ne_none_iff_exists'.1 hsome
      exact ((hc.lookup_iff h).1 hl).1 rfl
    rw [Function.update_self, hnone]
    rfl
  · rw [Function.update_of_ne hp]
    rcases hl : s.pidWorkers.lookup p with _ | r'
    · have hnone : s'.pidWorkers.lookup p = none := by
        by_contra hsome
        obtain ⟨r', hl'⟩ := Option.ne_none_iff_exists'.1 hsome
        cases hl.symm.trans ((hc.lookup_iff h).1 hl').2
      rw [hnone]
      rfl
    · rw [(hc.lookup_iff h).2 ⟨hp, hl⟩, Option.bind_some, Option.bind_some, hc.recs r' (hc.record_ne h hp hl)]

end Closes

theorem runClosure_registry {now : UInt64} {c : Closure} {q : List Closure} (h : Inv s) (hr : ReadersEntered s)
    (hq : s.wakeQueue = c :: q) (hs : ({ s with wakeQueue := q } : Master).runClosure now c = some s') :
    (s'.registry = s.registry ∨ Registry.step s.registry .run = some s'.registry) ∧ ReadersEntered s' := by
  have hjobs : s.registry.jobs = (c :: q).filterMap Closure.job := by
    unfold registry
    rw [hq]
  cases c with
  | restartWorker pid afterMs =>
    have hjob : s.registry.jobs = .release pid :: q.filterMap Closure.job := hjobs
    rcases runRestartWorker_cases hs with ⟨hl, rfl⟩ | ⟨r, w, f, hc⟩
    · refine ⟨.inr ?_, ⟨hr.entered, hr.closed⟩⟩
      have hnone : s.registry.owner pid = none := by
        show s.readerOf pid = none
        unfold readerOf getWorkerByPid
        rw [show s.pidWorkers.lookup pid = none from hl]
        rfl
      simp only [Registry.step, hjob, hnone]
      rfl
    · have hc' : Closes s pid r w f { s' with wakeQueue := s.wakeQueue } :=
        ⟨hc.lookup, hc.record, hc.reader, hc.pidWorkers, hc.recs, hc.gone, hc.nextFifo, hc.attached, hc.deletedFifos, rfl⟩
      have hent := hc'.entered h hr
      refine ⟨.inr ?_, ⟨hent.entered, hent.closed⟩⟩
      have hown : s.registry.owner pid = some f := (readerOf_of_entered hc.lookup hc.record).trans hc.reader
      have hreader : s'.readerOf = Function.update s.readerOf pid none := hc'.readerOf h
      have hwq : s'.wakeQueue = q := hc.wakeQueue
      have hnf : s'.nextFifo = s.nextFifo := hc.nextFifo
      have hatt : s'.attached = s.attached.erase f := hc.attached
      have hdel : s'.deletedFifos = s.deletedFifos ++ [f] := hc.deletedFifos
      simp only [Registry.step, hjob, hown]
      unfold registry
      rw [hreader, hwq, hnf, hatt, hdel]
  | kill id sig restart =>
    simp only [runClosure, runKill] at hs
    split at hs
    · cases hs
      exact ⟨.inl ((SameReaders.mk rfl rfl rfl rfl rfl).registry hjobs.symm), ⟨hr.entered, hr.closed⟩⟩
    · split at hs <;> cases hs
      exact ⟨.inl ((SameReaders.mk rfl rfl rfl rfl rfl).registry hjobs.symm), ⟨hr.entered, hr.closed⟩⟩
  | attach fifo =>
    have hjob : s.registry.jobs = .watch fifo :: q.filterMap Closure.job := hjobs
    simp only [runClosure, runAttach] at hs
    split at hs
    · cases hs
    · rename_i hlive
      cases hs
      refine ⟨.inr ?_, ⟨hr.entered, hr.closed⟩⟩
      simp only [Registry.step, hjob]
      exact if_neg hlive
  | other =>
    cases hs
    exact ⟨.inl ((SameReaders.mk rfl rfl rfl rfl rfl).registry hjobs.symm), ⟨hr.entered, hr.closed⟩⟩

/-! ## Every step -/

theorem queued_registry {c : Closure} :
    ({ s with wakeQueue := s.wakeQueue ++ [c] } : Master).registry =
      { s.registry with jobs := s.registry.jobs ++ (c.job).toList } := by
  refine SameReaders.registry ⟨rfl, rfl, rfl, rfl, rfl⟩ ?_
  show (s.wakeQueue ++ [c]).filterMap Closure.job = s.wakeQueue.filterMap Closure.job ++ _
  rw [List.filterMap_append]
  cases hj : c.job with
  | none => rw [List.filterMap_cons_none hj]; rfl
  | some j => rw [List.filterMap_cons_some hj]; rfl

/-- **Each step of the master is a step of the registry, or none.** -/
theorem registry_step {a : Act} (h : Inv s) (hn : Named s) (hr : ReadersEntered s) (hok : Succeeds a)
    (hfree : Free s a) (hs : step s a = some s') :
    (s'.registry = s.registry ∨ ∃ b, Registry.step s.registry b = some s'.registry) ∧ ReadersEntered s' := by
  have hkeep : ∀ {m : Master}, SameReaders s m → m.wakeQueue = s.wakeQueue →
      (m.registry = s.registry ∨ ∃ b, Registry.step s.registry b = some m.registry) ∧ ReadersEntered m := by
    intro m hm hq
    refine ⟨.inl ?_, hm.entered hr⟩
    have hjobs : m.wakeQueue.filterMap Closure.job = s.registry.jobs := by rw [hq]; rfl
    rw [hm.registry hjobs]
  have hquiet : ∀ {c : Closure}, c.job = none → ({ s with wakeQueue := s.wakeQueue ++ [c] } : Master) = s' →
      (s'.registry = s.registry ∨ ∃ b, Registry.step s.registry b = some s'.registry) ∧ ReadersEntered s' := by
    rintro c hc rfl
    refine ⟨.inl ?_, ⟨hr.entered, hr.closed⟩⟩
    rw [queued_registry, hc]
    simp only [Option.toList_none, List.append_nil]
  cases a with
  | start options mainShm =>
    simp only [step] at hs
    split at hs
    · split at hs <;> cases hs <;> exact hkeep ⟨rfl, rfl, rfl, rfl, rfl⟩ rfl
    · cases hs
  | updateOptions options =>
    simp only [step] at hs
    split at hs <;> cases hs <;> exact hkeep ⟨rfl, rfl, rfl, rfl, rfl⟩ rfl
  | kill id sig restart =>
    simp only [step] at hs
    split at hs
    · cases hs
    · exact hquiet rfl (Option.some.inj hs)
  | wake =>
    simp only [step] at hs
    split at hs
    · cases hs
    · exact hquiet rfl (Option.some.inj hs)
  | runWake now =>
    simp only [step] at hs
    split at hs
    · rename_i c q hpc hq
      obtain ⟨hstep, hent⟩ := runClosure_registry h hr hq hs
      exact ⟨hstep.imp_right (fun hrun => ⟨_, hrun⟩), hent⟩
    · cases hs
  | restartWorkers now =>
    simp only [step] at hs
    split at hs <;> cases hs
    unfold Master.restartWorkers
    split <;> exact hkeep ⟨rfl, rfl, rfl, rfl, rfl⟩ rfl
  | next now shm pid =>
    rcases next_cases h hn hr hfree hs with ⟨hsame, hq⟩ | ⟨id, r, w, s₁, pc, hno, hex, ho, rfl⟩
    · exact hkeep hsame hq
    · obtain ⟨hnew, hun⟩ := ho.fresh h hn hno hok.2 hex
      have hent := ho.entered hr hnew hun
      exact ⟨.inr ⟨_, ho.acquires hnew hun hex⟩, ⟨hent.entered, hent.closed⟩⟩
  | exit pid =>
    simp only [step] at hs
    split at hs <;> cases hs
    exact hkeep ⟨rfl, rfl, rfl, rfl, rfl⟩ rfl
  | sigchld pid =>
    simp only [step] at hs
    split at hs <;> cases hs
    refine ⟨.inr ⟨.ask pid, ?_⟩, ⟨hr.entered, hr.closed⟩⟩
    exact congrArg some (queued_registry (s := s) (c := .restartWorker pid 1000)).symm

/-- What holds of the readers in the runs with one process for each worker. -/
structure OwnersInv (s : Master) : Prop where
  inv : Inv s
  named : Named s
  readers : ReadersEntered s

theorem OwnersInv.start : OwnersInv new := ⟨.start, .start, fun p r w hl => (by cases hl), fun r w hw => by cases hw⟩

theorem OwnersInv.step {a : Act} (h : OwnersInv s) (hd : Distinct a) (hok : Succeeds a) (hfree : Free s a)
    (hs : Master.step s a = some s') : OwnersInv s' :=
  ⟨h.inv.step hd hok hfree hs, h.named.step hs, (registry_step h.inv h.named h.readers hok hfree hs).2⟩

theorem ownersInv_reach (h : Reach step (fun s a => (Distinct a ∧ Succeeds a) ∧ Free s a) new s) : OwnersInv s :=
  h.invariant OwnersInv.start (fun _ _ _ _ hi hg hs => hi.step hg.1.1 hg.1.2 hg.2 hs)

theorem registry_reach (h : Reach step (fun s a => (Distinct a ∧ Succeeds a) ∧ Free s a) new s) :
    Reach Registry.step Machine.anyStep (Registry.new Int) s.registry := by
  show Reach _ _ Master.new.registry s.registry
  refine h.simulate (fun s₁ a s₂ hr hg hs => ?_)
  have hi := ownersInv_reach hr
  rcases (registry_step hi.inv hi.named hi.readers hg.1.2 hg.2 hs).1 with he | ⟨b, hb⟩
  · rw [he]
    exact .init
  · exact .single trivial hb

/-- Two workers: the second has exited, its reader is deleted and its restart is carried out. -/
def readerReplaced : List Act :=
  [.start [.new "a", .new "b"] true, .next 0 true 100, .next 0 true 101, .next 0 true 102, .runWake 300, .exit 101,
    .sigchld 101, .runWake 400, .runWake 400, .restartWorkers 1500, .next 1500 true 102]

theorem runWake_enabled {c : Closure} {q : List Closure} (h : OwnersInv s) (hsound : Registry.Sound s.registry)
    (hpc : s.pc = .idle) (hq : s.wakeQueue = c :: q) (now : UInt64) : ∃ s', step s (.runWake now) = some s' := by
  simp only [step, hpc, hq]
  cases c with
  | restartWorker pid afterMs =>
    simp only [runClosure, runRestartWorker]
    split
    · exact ⟨_, rfl⟩
    · rename_i r hl
      obtain ⟨w, hw, -⟩ := h.inv.core.pid pid r hl
      obtain ⟨f, hf⟩ := Option.isSome_iff_exists.1 (h.readers.entered pid r w hl hw)
      unfold destoryWorker
      simp only [hw, hf]
      split <;> exact ⟨_, rfl⟩
  | kill id sig restart =>
    simp only [runClosure, runKill]
    split
    · exact ⟨_, rfl⟩
    · rename_i r hl
      obtain ⟨w, hw, -⟩ := h.named.named id r hl
      simp only [hw]
      exact ⟨_, rfl⟩
  | attach fifo =>
    have hmem : fifo ∈ s.registry.pending := by
      unfold Registry.State.pending registry
      rw [hq]
      exact List.mem_cons_self
    have hlive : fifo ∉ s.deletedFifos := hsound.pending_live hmem
    simp only [runClosure, runAttach]
    rw [if_neg hlive]
    exact ⟨_, rfl⟩
  | other => exact ⟨_, rfl⟩

theorem next_enabled {pid : Int} (h : Named s) (hdown : s.pc ≠ .down) (hidle : s.pc ≠ .idle) (hpid : 0 < pid)
    (hnew : pid ∉ s.children.map Child.pid) (now : UInt64) : ∃ s', step s (.next now true pid) = some s' := by
  show ∃ s', s.next now true pid = some s'
  unfold Master.next
  split
  · exact absurd ‹_› hdown
  · exact absurd ‹_› hidle
  · exact ⟨_, rfl⟩
  · rename_i w i todo hpc
    obtain ⟨s₁, hs₁⟩ := h.createWorker_succeeds w i hpid hnew
    simp only [hs₁]
    exact ⟨_, rfl⟩
  · exact ⟨_, rfl⟩
  · rename_i e todo kept hpc
    split
    · obtain ⟨s₁, hs₁⟩ := h.createWorker_succeeds e.opt e.idx hpid hnew
      simp only [hs₁]
      exact ⟨_, rfl⟩
    · exact ⟨_, rfl⟩
  · exact ⟨_, rfl⟩
  · rename_i w i todo hpc
    split
    · obtain ⟨s₁, hs₁⟩ := h.createWorker_succeeds w i hpid hnew
      simp only [hs₁]
      exact ⟨_, rfl⟩
    · exact ⟨_, rfl⟩

end Master
end Shm
