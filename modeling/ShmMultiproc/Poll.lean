import ShmMultiproc.Lib.Table
import ShmMultiproc.OneEach
/-!
# Poll — a batch of ready events

`ShmFIFOPoller::Poll` takes the addresses of the ready FIFOs from `epoll_wait` and goes through them in the order of the
batch.  At the event of the wake queue it runs whatever functions are stored there, and that of `RestartWorker` deletes
the reader of its worker: an event of that reader later in the batch goes to a deleted object.  `poll_safe_iff` says
which batches are safe, function by function and by the tables as they are when the loop starts.
-/
namespace Shm
namespace Master

open Machine (Reach)
open Table (lookup_erase_some)

/-- A function that `DoWake` runs: one of the master's, or any other, by the FIFOs that it detaches and deletes. -/
inductive WakeFn where
  | master (c : Closure)
  | user (deletes : List Nat)
  deriving DecidableEq, Repr

/-- An event of the batch: that of the wake queue, with the functions that `DoWake` runs then and what `mstime()` reads
in each, or that of a reader. -/
inductive Event where
  | wake (fns : List (WakeFn × UInt64))
  | reader (fifo : Nat)
  deriving DecidableEq, Repr

def runFn (s : Master) (now : UInt64) : WakeFn → Option Master
  | .master c => s.runClosure now c
  | .user ds =>
    some { s with
      attached := s.attached.filter (fun f => f ∉ ds)
      deletedFifos := s.deletedFifos ++ ds }

/-- `DoWake`; `none` when a function dereferences NULL. -/
def doWake : Master → List (WakeFn × UInt64) → Option Master
  | s, [] => some s
  | s, (fn, now) :: fns =>
    match s.runFn now fn with
    | none => none
    | some s' => doWake s' fns

/-- The loop of `Poll` over the batch.  Reading the event of a reader and its `Take` leave the tables alone. -/
def pollEvents : Master → List Event → Option Master
  | s, [] => some s
  | s, .wake fns :: es =>
    match s.doWake fns with
    | none => none
    | some s' => pollEvents s' es
  | s, .reader _ :: es => pollEvents s es

/-- **No event goes to a FIFO deleted earlier in the call**: `f` is dispatched when the loop gets through `pre`. -/
def EventSafe (s : Master) (es : List Event) : Prop :=
  ∀ pre f post s', es = pre ++ .reader f :: post → s.pollEvents pre = some s' →
    f ∉ s'.deletedFifos.drop s.deletedFifos.length

/-! ## Which batches are safe -/

def ran : List Event → List (WakeFn × UInt64)
  | [] => []
  | .wake fns :: es => fns ++ ran es
  | .reader _ :: es => ran es

def readerOf (s : Master) (pid : Int) : Option Nat :=
  (s.getWorkerByPid pid).bind (fun r => (s.recs r).bind WorkerProcess.reader)

/-- The function detaches and deletes `f`: it is that of `RestartWorker(pid)` and `f` the reader of the worker entered
for `pid`, or another one that deletes `f` itself. -/
def Deletes (s : Master) (fn : WakeFn) (f : Nat) : Prop :=
  (∃ pid afterMs, fn = .master (.restartWorker pid afterMs) ∧ s.readerOf pid = some f) ∨ ∃ ds, fn = .user ds ∧ f ∈ ds

/-- One of the functions deletes `f`, by the tables as they are when its turn comes. -/
def DeletedBy (s : Master) (fns : List (WakeFn × UInt64)) (f : Nat) : Prop :=
  ∃ fns₁ fn now fns₂ s₁, fns = fns₁ ++ (fn, now) :: fns₂ ∧ s.doWake fns₁ = some s₁ ∧ s₁.Deletes fn f

/-- **No reader is deleted before its event**, by the tables as they are when the turn of each function comes. -/
def Spares (s : Master) (es : List Event) : Prop :=
  ∀ pre f post, es = pre ++ .reader f :: post → (s.pollEvents pre).isSome → ¬ s.DeletedBy (ran pre) f

/-- **No reader is deleted before its event**, by the tables as they are when the loop starts. -/
def SparesEntered (s : Master) (es : List Event) : Prop :=
  ∀ pre f post, es = pre ++ .reader f :: post → (s.pollEvents pre).isSome →
    ∀ fn now, (fn, now) ∈ ran pre → ¬ s.Deletes fn f

/-- Each worker is entered in `pid_workers` for its own pid. -/
def PidsAgree (s : Master) : Prop :=
  ∀ pid r w, s.pidWorkers.lookup pid = some r → s.recs r = some w → w.pid = pid

variable {s s' : Master}

/-- **What a function does to the tables**: nothing that matters here, or it takes out one worker. -/
inductive FnEffect (s s' : Master) (fn : WakeFn) : Prop
  | quiet (ds : List Nat) (hpids : s'.pidWorkers = s.pidWorkers) (hrecs : s'.recs = s.recs)
      (hdel : s'.deletedFifos = s.deletedFifos ++ ds) (hmem : ∀ f, f ∈ ds ↔ s.Deletes fn f)
  | restarted (pid : Int) (afterMs : UInt64) (r : Nat) (w : WorkerProcess) (f : Nat)
      (hfn : fn = .master (.restartWorker pid afterMs)) (hl : s.pidWorkers.lookup pid = some r) (hw : s.recs r = some w)
      (hf : w.reader = some f) (hpids : s'.pidWorkers = s.pidWorkers.erase w.pid)
      (hrecs : ∀ r' ≠ r, s'.recs r' = s.recs r')
      (hrec : ∀ w', s'.recs r = some w' → w'.reader = none ∧ w'.pid = w.pid)
      (hdel : s'.deletedFifos = s.deletedFifos ++ [f])

theorem deletes_restartWorker {pid : Int} {afterMs : UInt64} {f : Nat} :
    s.Deletes (.master (.restartWorker pid afterMs)) f ↔ s.readerOf pid = some f := by
  constructor
  · rintro (⟨pid', afterMs', hfn, hf⟩ | ⟨ds, hfn, -⟩)
    · cases hfn; exact hf
    · cases hfn
  · intro hf
    exact .inl ⟨pid, afterMs, rfl, hf⟩

theorem not_deletes {c : Closure} (hc : c.exited = none) (f : Nat) : ¬ s.Deletes (.master c) f := by
  rintro (⟨pid, afterMs, hfn, -⟩ | ⟨ds, hfn, -⟩)
  · cases hfn; cases hc
  · cases hfn

theorem readerOf_of_entered {pid : Int} {r : Nat} {w : WorkerProcess} (hl : s.pidWorkers.lookup pid = some r)
    (hw : s.recs r = some w) : s.readerOf pid = w.reader := by
  unfold readerOf getWorkerByPid
  rw [hl, Option.bind_some, hw, Option.bind_some]

theorem exists_entered {pid : Int} {f : Nat} (h : s.readerOf pid = some f) :
    ∃ r w, s.pidWorkers.lookup pid = some r ∧ s.recs r = some w ∧ w.reader = some f := by
  obtain ⟨r, hl, h⟩ := Option.bind_eq_some_iff.1 h
  obtain ⟨w, hw, hf⟩ := Option.bind_eq_some_iff.1 h
  exact ⟨r, w, hl, hw, hf⟩

theorem runRestartWorker_effect {pid : Int} {afterMs now : UInt64} (hs : s.runRestartWorker pid afterMs now = some s') :
    FnEffect s s' (.master (.restartWorker pid afterMs)) := by
  unfold runRestartWorker at hs
  split at hs
  · rename_i hnone
    cases hs
    refine .quiet [] rfl rfl (List.append_nil _).symm (fun f => ?_)
    rw [deletes_restartWorker]
    unfold readerOf
    rw [hnone]
    exact ⟨fun hf => absurd hf List.not_mem_nil, fun hf => by cases hf⟩
  · rename_i r hl
    unfold destoryWorker at hs
    cases hw : s.recs r with
    | none => simp only [hw] at hs; cases hs
    | some w =>
      cases hf : w.reader with
      | none => simp only [hw, hf] at hs; cases hs
      | some f =>
        simp only [hw, hf] at hs
        split at hs
        · cases hs
          refine .restarted pid afterMs r w f rfl hl hw hf rfl (fun r' hr' => ?_) (fun w' hw' => ?_) rfl
          · exact (Function.update_of_ne hr' ..).trans (Function.update_of_ne hr' ..)
          · cases (Function.update_self ..).symm.trans hw'
        · cases hs
          refine .restarted pid afterMs r w f rfl hl hw hf rfl (fun r' hr' => ?_) (fun w' hw' => ?_) rfl
          · exact Function.update_of_ne hr' ..
          · cases (Function.update_self ..).symm.trans hw'
            exact ⟨rfl, rfl⟩

theorem runFn_effect {fn : WakeFn} {now : UInt64} (hs : s.runFn now fn = some s') : FnEffect s s' fn := by
  cases fn with
  | user ds =>
    cases hs
    refine .quiet ds rfl rfl rfl (fun f => ⟨fun hf => .inr ⟨ds, rfl, hf⟩, ?_⟩)
    rintro (⟨pid, afterMs, hfn, -⟩ | ⟨ds', hfn, hf⟩)
    · cases hfn
    · cases hfn; exact hf
  | master c =>
    have hquiet : c.exited = none → s'.pidWorkers = s.pidWorkers → s'.recs = s.recs →
        s'.deletedFifos = s.deletedFifos → FnEffect s s' (.master c) := by
      intro hc hpids hrecs hdel
      refine .quiet [] hpids hrecs (by rw [hdel, List.append_nil]) (fun f => ?_)
      exact ⟨fun hf => absurd hf List.not_mem_nil, fun hf => absurd hf (not_deletes hc f)⟩
    cases c with
    | restartWorker pid afterMs => exact runRestartWorker_effect hs
    | kill id sig restart =>
      simp only [runFn, runClosure, runKill] at hs
      split at hs
      · cases hs
        exact hquiet rfl rfl rfl rfl
      · split at hs
        · cases hs
        · cases hs
          exact hquiet rfl rfl rfl rfl
    | attach fifo =>
      simp only [runFn, runClosure, runAttach] at hs
      split at hs
      · cases hs
      · cases hs
        exact hquiet rfl rfl rfl rfl
    | other =>
      cases hs
      exact hquiet rfl rfl rfl rfl

namespace FnEffect

variable {fn : WakeFn}

theorem deleted (h : FnEffect s s' fn) :
    ∃ ds, s'.deletedFifos = s.deletedFifos ++ ds ∧ ∀ f, f ∈ ds ↔ s.Deletes fn f := by
  cases h with
  | quiet ds hpids hrecs hdel hmem => exact ⟨ds, hdel, hmem⟩
  | restarted pid afterMs r w f hfn hl hw hf hpids hrecs hrec hdel =>
    refine ⟨[f], hdel, fun f' => ?_⟩
    rw [hfn, deletes_restartWorker, readerOf_of_entered hl hw, hf, List.mem_singleton, Option.some_inj]
    exact eq_comm

theorem entered (h : FnEffect s s' fn) {pid : Int} {f : Nat} (hf : s'.readerOf pid = some f) :
    s.readerOf pid = some f := by
  obtain ⟨r', w', hl', hw', hf'⟩ := exists_entered hf
  cases h with
  | quiet ds hpids hrecs hdel hmem =>
    rw [hpids] at hl'
    rw [hrecs] at hw'
    rw [readerOf_of_entered hl' hw', hf']
  | restarted pid' afterMs r w f₀ hfn hl hw hf₀ hpids hrecs hrec hdel =>
    rw [hpids] at hl'
    obtain ⟨-, hl'⟩ := lookup_erase_some.1 hl'
    by_cases hr : r' = r
    · subst hr
      rw [(hrec w' hw').1] at hf'
      cases hf'
    · rw [hrecs r' hr] at hw'
      rw [readerOf_of_entered hl' hw', hf']

theorem deletes (h : FnEffect s s' fn) {fn' : WakeFn} {f : Nat} (hd : s'.Deletes fn' f) : s.Deletes fn' f := by
  rcases hd with ⟨pid, afterMs, hfn, hf⟩ | hu
  · exact .inl ⟨pid, afterMs, hfn, h.entered hf⟩
  · exact .inr hu

theorem pidsAgree (h : FnEffect s s' fn) (hp : PidsAgree s) : PidsAgree s' := by
  intro pid r' w' hl' hw'
  cases h with
  | quiet ds hpids hrecs hdel hmem =>
    rw [hpids] at hl'
    rw [hrecs] at hw'
    exact hp pid r' w' hl' hw'
  | restarted pid' afterMs r w f₀ hfn hl hw hf₀ hpids hrecs hrec hdel =>
    rw [hpids] at hl'
    obtain ⟨-, hl'⟩ := lookup_erase_some.1 hl'
    by_cases hr : r' = r
    · subst hr
      rw [(hrec w' hw').2]
      exact hp pid r' w hl' hw
    · rw [hrecs r' hr] at hw'
      exact hp pid r' w' hl' hw'

/-- **A reader goes only by the function that deletes it**, when each worker is entered for its own pid. -/
theorem kept (h : FnEffect s s' fn) (hp : PidsAgree s) {fn' : WakeFn} {f : Nat} (hd : s.Deletes fn' f) :
    s'.Deletes fn' f ∨ s.Deletes fn f := by
  rcases hd with ⟨pid', afterMs', rfl, hf⟩ | hu
  · obtain ⟨r', w', hl', hw', hf'⟩ := exists_entered hf
    cases h with
    | quiet ds hpids hrecs hdel hmem =>
      refine .inl (deletes_restartWorker.2 ?_)
      rw [← hpids] at hl'
      rw [← hrecs] at hw'
      rw [readerOf_of_entered hl' hw', hf']
    | restarted pid afterMs r w f₀ hfn hl hw hf₀ hpids hrecs hrec hdel =>
      by_cases hpid : pid' = pid
      · refine .inr ?_
        rw [hfn, deletes_restartWorker, ← hpid]
        exact hf
      · have hwp : w.pid = pid := hp pid r w hl hw
        have hr : r' ≠ r := by
          rintro rfl
          exact hpid (by rw [← hp pid' r' w hl' hw, hwp])
        refine .inl (deletes_restartWorker.2 ?_)
        have hl'' : s'.pidWorkers.lookup pid' = some r' := by
          rw [hpids, hwp]
          exact lookup_erase_some.2 ⟨hpid, hl'⟩
        rw [← hrecs r' hr] at hw'
        rw [readerOf_of_entered hl'' hw', hf']
  · exact .inl (.inr hu)

end FnEffect

theorem pidsAgree_reach (h : Reach step (fun s a => (Distinct a ∧ Succeeds a) ∧ Free s a) new s) : PidsAgree s := by
  have hinv : Inv s := h.invariant Inv.start (fun _ _ _ _ hi hg hs => hi.step hg.1.1 hg.1.2 hg.2 hs)
  intro pid r w hl hw
  obtain ⟨w', hw', hpid⟩ := hinv.core.pid pid r hl
  rw [hw] at hw'
  cases hw'
  exact hpid

/-! ## Whole batches -/

theorem doWake_cons {fn : WakeFn} {now : UInt64} (hs : s.runFn now fn = some s') (fns : List (WakeFn × UInt64)) :
    s.doWake ((fn, now) :: fns) = s'.doWake fns := by
  rw [doWake, hs]

theorem deletedBy_nil (f : Nat) : ¬ s.DeletedBy [] f := by
  rintro ⟨fns₁, fn, now, fns₂, s₁, he, -⟩
  cases fns₁ <;> cases he

theorem deletedBy_cons {fn : WakeFn} {now : UInt64} {fns : List (WakeFn × UInt64)} (hs : s.runFn now fn = some s')
    (f : Nat) : s.DeletedBy ((fn, now) :: fns) f ↔ s.Deletes fn f ∨ s'.DeletedBy fns f := by
  constructor
  · rintro ⟨fns₁, fn', now', fns₂, s₁, he, hs₁, hf⟩
    cases fns₁ with
    | nil =>
      cases he
      cases hs₁
      exact .inl hf
    | cons x fns₁ =>
      cases he
      rw [doWake_cons hs] at hs₁
      exact .inr ⟨fns₁, fn', now', fns₂, s₁, rfl, hs₁, hf⟩
  · rintro (hf | ⟨fns₁, fn', now', fns₂, s₁, rfl, hs₁, hf⟩)
    · exact ⟨[], fn, now, fns, s, rfl, rfl, hf⟩
    · exact ⟨(fn, now) :: fns₁, fn', now', fns₂, s₁, rfl, (doWake_cons hs fns₁).trans hs₁, hf⟩

/-- **What `DoWake` deletes**, function by function. -/
theorem doWake_deleted : ∀ (fns : List (WakeFn × UInt64)) (s s' : Master), s.doWake fns = some s' →
    ∃ ds, s'.deletedFifos = s.deletedFifos ++ ds ∧ ∀ f, f ∈ ds ↔ s.DeletedBy fns f
  | [], s, s', hs => by
    cases hs
    exact ⟨[], (List.append_nil _).symm, fun f =>
      ⟨fun hf => absurd hf List.not_mem_nil, fun hf => absurd hf (deletedBy_nil f)⟩⟩
  | (fn, now) :: fns, s, s', hs => by
    unfold doWake at hs
    split at hs
    · cases hs
    · rename_i s₁ hs₁
      obtain ⟨ds, hds, hmem⟩ := (runFn_effect hs₁).deleted
      obtain ⟨ds', hds', hmem'⟩ := doWake_deleted fns s₁ s' hs
      refine ⟨ds ++ ds', by rw [hds', hds, List.append_assoc], fun f => ?_⟩
      rw [List.mem_append, hmem, hmem', deletedBy_cons hs₁]

theorem deletes_of_deletedBy : ∀ (fns : List (WakeFn × UInt64)) (s s' : Master), s.doWake fns = some s' → ∀ f,
    s.DeletedBy fns f → ∃ fn now, (fn, now) ∈ fns ∧ s.Deletes fn f
  | [], s, s', _, f, hf => absurd hf (deletedBy_nil f)
  | (fn, now) :: fns, s, s', hs, f, hf => by
    unfold doWake at hs
    split at hs
    · cases hs
    · rename_i s₁ hs₁
      rcases (deletedBy_cons hs₁ f).1 hf with hf | hf
      · exact ⟨fn, now, List.mem_cons_self, hf⟩
      · obtain ⟨fn', now', hmem, hd⟩ := deletes_of_deletedBy fns s₁ s' hs f hf
        exact ⟨fn', now', List.mem_cons_of_mem _ hmem, (runFn_effect hs₁).deletes hd⟩

theorem deletedBy_of_deletes : ∀ (fns : List (WakeFn × UInt64)) (s s' : Master), s.doWake fns = some s' → PidsAgree s →
    ∀ fn now f, (fn, now) ∈ fns → s.Deletes fn f → s.DeletedBy fns f
  | [], _, _, _, _, _, _, _, hmem, _ => absurd hmem List.not_mem_nil
  | (fn, now) :: fns, s, s', hs, hp, fn', now', f, hmem, hd => by
    unfold doWake at hs
    split at hs
    · cases hs
    · rename_i s₁ hs₁
      have he := runFn_effect hs₁
      rw [deletedBy_cons hs₁]
      rcases List.mem_cons.1 hmem with hmem | hmem
      · cases hmem
        exact .inl hd
      · rcases he.kept hp hd with hd | hd
        · exact .inr (deletedBy_of_deletes fns s₁ s' hs (he.pidsAgree hp) fn' now' f hmem hd)
        · exact .inl hd

theorem doWake_append : ∀ (fns fns' : List (WakeFn × UInt64)) (s : Master),
    s.doWake (fns ++ fns') = (s.doWake fns).bind (fun s' => s'.doWake fns')
  | [], _, _ => rfl
  | (fn, now) :: fns, fns', s => by
    rw [List.cons_append]
    cases hs : s.runFn now fn with
    | none => simp only [doWake, hs, Option.bind_none]
    | some s₁ =>
      rw [doWake_cons hs, doWake_cons hs]
      exact doWake_append fns fns' s₁

theorem pollEvents_eq : ∀ (es : List Event) (s : Master), s.pollEvents es = s.doWake (ran es)
  | [], _ => rfl
  | .reader _ :: es, s => pollEvents_eq es s
  | .wake fns :: es, s => by
    unfold pollEvents ran
    rw [doWake_append]
    cases s.doWake fns with
    | none => rfl
    | some s' => exact pollEvents_eq es s'

/-- **A batch is safe exactly when** no function that `DoWake` runs deletes the reader of an event later in it.  It is
enough to look at the tables at the start; and exact, when each worker is entered for its own pid. -/
theorem poll_safe_iff (s : Master) (es : List Event) :
    (s.EventSafe es ↔ s.Spares es) ∧ (s.SparesEntered es → s.EventSafe es) ∧
      (PidsAgree s → (s.EventSafe es ↔ s.SparesEntered es)) := by
  have hkey : ∀ pre f s', s.pollEvents pre = some s' →
      (f ∈ s'.deletedFifos.drop s.deletedFifos.length ↔ s.DeletedBy (ran pre) f) := by
    intro pre f s' hs
    rw [pollEvents_eq] at hs
    obtain ⟨ds, hds, hmem⟩ := doWake_deleted (ran pre) s s' hs
    rw [hds, List.drop_left]
    exact hmem f
  have hsafe : s.EventSafe es ↔ s.Spares es := by
    constructor
    · intro h pre f post he hsome hdel
      obtain ⟨s', hs⟩ := Option.isSome_iff_exists.1 hsome
      exact h pre f post s' he hs ((hkey pre f s' hs).2 hdel)
    · intro h pre f post s' he hs hmem
      exact h pre f post he (by rw [hs]; rfl) ((hkey pre f s' hs).1 hmem)
  have hstart : s.SparesEntered es → s.Spares es := by
    intro h pre f post he hsome hdel
    obtain ⟨s', hs⟩ := Option.isSome_iff_exists.1 hsome
    rw [pollEvents_eq] at hs
    obtain ⟨fn, now, hmem, hd⟩ := deletes_of_deletedBy (ran pre) s s' hs f hdel
    exact h pre f post he hsome fn now hmem hd
  refine ⟨hsafe, fun h => hsafe.2 (hstart h), fun hp => hsafe.trans ⟨fun h => ?_, hstart⟩⟩
  intro pre f post he hsome fn now hmem hd
  obtain ⟨s', hs⟩ := Option.isSome_iff_exists.1 hsome
  rw [pollEvents_eq] at hs
  exact h pre f post he hsome (deletedBy_of_deletes (ran pre) s s' hs hp fn now f hmem hd)

/-- One worker, attached, that has written and exited; its exit is in the wake queue. -/
def wroteAndDied : List Act :=
  [.start [.new "w"] true, .next 0 true 100, .next 0 true 101, .runWake 1, .exit 100, .sigchld 100]

/-- **The reader is deleted at the first event of the batch and read at the second.** -/
theorem dead_reader_dispatched : ∃ s, Machine.exec step Machine.anyStep new wroteAndDied = some s ∧ s.attached = [0] ∧
    s.wakeQueue = [.restartWorker 100 1000] ∧
    ¬ s.EventSafe [.wake [(.master (.restartWorker 100 1000), 500)], .reader 0] := by
  refine ⟨_, rfl, rfl, rfl, fun h => ?_⟩
  exact h [.wake [(.master (.restartWorker 100 1000), 500)]] 0 [] _ rfl rfl (by decide)

end Master
end Shm
