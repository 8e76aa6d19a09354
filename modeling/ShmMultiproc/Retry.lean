import ShmMultiproc.OneEach
import ShmMultiproc.Records
/-!
# Retry — what a failed `CreateWorker` leaves

`CreateWorker` has no way to say that it failed.  `tryCreateWorker` is the same function with what it dereferences made
visible (`tryCreateWorker_ok_iff`): where `OpenShm` fails it reads `worker->shm->LastError()` from the pointer it has just
set to NULL, and where `fork` answers -1 it enters that as a pid.  So no call that fails leaves the worker as it should
(`failed_never_retryable`).
-/
namespace Shm
namespace Master

open Machine (Reach)

/-- What `CreateWorker` would dereference. -/
inductive Crash where
  | nullShm
  | nullReader
  | deletedRecord
  deriving DecidableEq, Repr

variable {s s' : Master} {option : WorkerOptions} {idx pid : Int} {shm : Bool}

/-- The part under `NULL == worker->shm`, `shm` saying that `OpenShm` succeeds. -/
def tryOpenReader (s : Master) (r : Nat) (shm : Bool) : Except Crash Master :=
  match s.recs r with
  | none => .error .deletedRecord
  | some w =>
    if w.shm = true then .ok s
    else if shm = false then .error .nullShm
    else .ok { s with
      recs := Function.update s.recs r (some { w with shm := true, reader := some s.nextFifo })
      nextFifo := s.nextFifo + 1
      wakeQueue := s.wakeQueue ++ [.attach s.nextFifo] }

/-- `createWorkerProcess` and what follows; `pid` is what `fork` returns. -/
def tryForkWorker (s : Master) (r : Nat) (pid : Int) : Except Crash Master :=
  match s.recs r with
  | none => .error .deletedRecord
  | some w =>
    match w.reader with
    | none => .error .nullReader
    | some _ =>
      .ok { s with
        recs := Function.update s.recs r (some { w with pid := pid })
        pidWorkers := s.pidWorkers.insert pid r
        workers := if s.getWorker w.id = none then s.workers.insert w.id r else s.workers
        children := if 0 < pid then s.children ++ [⟨pid, w.id, true⟩] else s.children }

def tryCreateWorker (s : Master) (option : WorkerOptions) (idx : Int) (shm : Bool) (pid : Int) : Except Crash Master :=
  let (s₁, r) := s.record option ⟨option.name, idx⟩
  match s₁.tryOpenReader r shm with
  | .error e => .error e
  | .ok s₂ => s₂.tryForkWorker r pid

theorem tryOpenReader_ok_iff (s s' : Master) (r : Nat) (shm : Bool) :
    s.tryOpenReader r shm = .ok s' ↔ s.openReader r shm = some s' := by
  unfold tryOpenReader openReader
  cases s.recs r with
  | none => simp
  | some w =>
    simp only
    split
    · simp
    · split <;> simp

theorem openReader_children {r : Nat} (hs : s.openReader r shm = some s') : s'.children = s.children := by
  unfold openReader at hs
  split at hs
  · cases hs
  · split at hs
    · cases hs; rfl
    · split at hs <;> cases hs
      rfl

theorem tryCreateWorker_ok_iff (hpid : pid = -1 ∨ (0 < pid ∧ pid ∉ s.children.map Child.pid)) :
    s.tryCreateWorker option idx shm pid = .ok s' ↔ s.createWorker option idx shm pid = some s' := by
  have hrec : (s.record option ⟨option.name, idx⟩).1.children = s.children := by
    unfold record
    split <;> rfl
  unfold tryCreateWorker createWorker
  simp only
  cases ho : (s.record option ⟨option.name, idx⟩).1.openReader (s.record option ⟨option.name, idx⟩).2 shm with
  | none =>
    cases ht : (s.record option ⟨option.name, idx⟩).1.tryOpenReader (s.record option ⟨option.name, idx⟩).2 shm with
    | error e => simp
    | ok s₂ => rw [(tryOpenReader_ok_iff _ _ _ _).1 ht] at ho; cases ho
  | some s₂ =>
    rw [(tryOpenReader_ok_iff _ _ _ _).2 ho]
    simp only
    have hch : s₂.children = s.children := (openReader_children ho).trans hrec
    unfold tryForkWorker forkWorker
    cases s₂.recs (s.record option ⟨option.name, idx⟩).2 with
    | none => simp
    | some w =>
      simp only
      cases w.reader with
      | none => simp
      | some f => simp only [hch, if_pos hpid]; simp

/-! ## Where it is called -/

/-- The call of `CreateWorker` that the next iteration of the master's loop makes at the reading `now`, and where the
loop stands after it. -/
def callOf (s : Master) (now : UInt64) : Option (WorkerOptions × Int × MasterPc) :=
  match s.pc with
  | .starting ((w, i) :: todo) => some (w, i, .starting todo)
  | .drain (e :: todo) next => if e.startTime < now then some (e.opt, e.idx, .drain todo next) else none
  | .check ((w, i) :: todo) => if s.getWorker ⟨w.name, i⟩ = none then some (w, i, .check todo) else none
  | _ => none

theorem next_of_callOf {now : UInt64} {rest : MasterPc} (hc : s.callOf now = some (option, idx, rest)) :
    s.next now shm pid = (s.createWorker option idx shm pid).map (fun m => { m with pc := rest }) := by
  unfold callOf at hc
  unfold Master.next
  cases hpc : s.pc with
  | down | idle => rw [hpc] at hc; cases hc
  | starting todo =>
    rw [hpc] at hc
    cases todo with
    | nil => cases hc
    | cons x todo =>
      cases hc
      simp only
      cases s.createWorker x.1 x.2 shm pid <;> rfl
  | drain todo next =>
    rw [hpc] at hc
    cases todo with
    | nil => cases hc
    | cons e todo =>
      simp only at hc ⊢
      split at hc <;> cases hc
      rename_i hdue
      rw [if_pos hdue]
      cases s.createWorker e.opt e.idx shm pid <;> rfl
  | check todo =>
    rw [hpc] at hc
    cases todo with
    | nil => cases hc
    | cons x todo =>
      simp only at hc ⊢
      split at hc <;> cases hc
      rename_i hmiss
      rw [if_pos hmiss]
      cases s.createWorker x.1 x.2 shm pid <;> rfl

/-- `OpenShm` is called and fails, or `fork` is called and returns -1. -/
def CallFails (s : Master) (option : WorkerOptions) (idx : Int) (shm : Bool) (pid : Int) : Prop :=
  ∃ w, (s.record option ⟨option.name, idx⟩).1.recs (s.record option ⟨option.name, idx⟩).2 = some w ∧
    ((w.shm = false ∧ shm = false) ∨ ((w.shm = true ∨ shm = true) ∧ pid = -1))

def Loops (_ : Master) : Act → Prop
  | .next _ _ _ => True
  | _ => False

/-- **The worker is retryable after the call**: no NULL `shm` was dereferenced, no pid is entered but those of
processes, and at the end of the pass (the loop stands at `rest` after the call) each configured id is absent, or to be
restarted, or has a live process. -/
structure Retryable (rest : MasterPc) (result : Except Crash Master) : Prop where
  noNull : result ≠ .error .nullShm
  entered : ∀ m, result = .ok m → ∀ p ≤ 0, m.pidWorkers.lookup p = none
  configured : ∀ m m', result = .ok m → Reach step Loops { m with pc := rest } m' → m'.pc = .idle →
    ∀ id ∈ (expand m'.options).map creates, m'.workers.lookup id = none ∨
      id ∈ m'.restartQueue.map WorkerRestartOptions.id ∨
      ∃ c ∈ m'.children, c.id = id ∧ c.alive = true ∧ m'.pidWorkers.lookup c.pid ≠ none

/-- **What `fork` answered is entered as a pid.** -/
theorem Named.fork_failed {w : WorkerProcess} (h : Named s) (option : WorkerOptions) (idx : Int)
    (hw : (s.record option ⟨option.name, idx⟩).1.recs (s.record option ⟨option.name, idx⟩).2 = some w)
    (hshm : w.shm = true ∨ shm = true) :
    ∃ m, s.tryCreateWorker option idx shm (-1) = .ok m ∧
      m.pidWorkers.lookup (-1) = some (s.record option ⟨option.name, idx⟩).2 := by
  obtain ⟨s₂, w₂, f, hs₂, hw₂, hf, -⟩ := h.openReader_succeeds option hw hshm
  unfold tryCreateWorker
  simp only
  rw [(tryOpenReader_ok_iff _ _ _ _).2 hs₂]
  unfold tryForkWorker
  simp only [hw₂, hf]
  exact ⟨_, rfl, AList.lookup_insert _⟩

/-- **No call that fails leaves the worker retryable.** -/
theorem failed_never_retryable (s : Master) (h : Reach step Machine.anyStep new s) (now : UInt64) (shm : Bool)
    (option : WorkerOptions) (idx pid : Int) (rest : MasterPc) (_ : s.callOf now = some (option, idx, rest))
    (hf : s.CallFails option idx shm pid) : ¬ Retryable rest (s.tryCreateWorker option idx shm pid) := by
  have hn := named_reach h
  intro hr
  obtain ⟨w, hw, ⟨hshm, rfl⟩ | ⟨hshm, rfl⟩⟩ := hf
  · refine hr.noNull ?_
    unfold tryCreateWorker
    simp only
    have ho : (s.record option ⟨option.name, idx⟩).1.tryOpenReader (s.record option ⟨option.name, idx⟩).2 false =
        .error .nullShm := by
      unfold tryOpenReader
      simp only [hw, hshm]
      rfl
    rw [ho]
  · obtain ⟨m, hm, hl⟩ := hn.fork_failed option idx hw hshm
    exact absurd (hr.entered m hm (-1) (by decide)) (by rw [hl]; simp)

/-- `fork` answers -1 when the worker is first created. -/
def forkFailed : List Act := [.start [.new "w"] true]

theorem failed_never_retryable_fork : ∃ s, Machine.exec step Machine.anyStep new forkFailed = some s ∧
    s.callOf 0 = some (.new "w", 0, .starting []) ∧ s.CallFails (.new "w") 0 true (-1) ∧
    ¬ Retryable (.starting []) (s.tryCreateWorker (.new "w") 0 true (-1)) :=
  ⟨_, rfl, rfl, ⟨_, rfl, .inr ⟨.inr rfl, rfl⟩⟩, failed_never_retryable _ (Machine.reach_of_exec _ _ forkFailed _ rfl) 0
    true (.new "w") 0 (-1) (.starting []) rfl ⟨_, rfl, .inr ⟨.inr rfl, rfl⟩⟩⟩

/-- A worker exits, and its restart comes up. -/
def restartDue : List Act :=
  [.start [.new "w"] true, .next 0 true 100, .next 0 true 100, .runWake 500, .exit 100, .sigchld 100, .runWake 600,
    .restartWorkers 5000]

/-- **A worker that stays away**: `fork` fails when it is restarted; its record is in `workers`, so the check passes it
by, and its restart is gone from the queue. -/
theorem failed_worker_passed_by : ∃ s, Machine.exec step Machine.anyStep new restartDue = some s ∧
    s.callOf 5000 = some (.new "w", 0, .drain [] []) ∧ s.CallFails (.new "w") 0 true (-1) ∧
    ¬ Retryable (.drain [] []) (s.tryCreateWorker (.new "w") 0 true (-1)) := by
  refine ⟨_, rfl, rfl, ⟨_, rfl, .inr ⟨.inr rfl, rfl⟩⟩, fun h => ?_⟩
  rcases h.configured _ _ rfl (Reach.next (Reach.next (Reach.next .init (a := .next 5000 true 0) trivial rfl)
    (a := .next 5000 true 0) trivial rfl) (a := .next 5000 true 0) trivial rfl) rfl ⟨"w", 0⟩ (by decide) with h | h | h
  · cases h
  · cases h
  · obtain ⟨c, hc, -⟩ := h
    cases hc

end Master
end Shm
