import Mathlib.Data.List.AList
import Mathlib.Logic.Function.Basic
import ShmMultiproc.Lib.Machine
/-!
# Master — the worker tables

`Master` of `multiproc.cpp` with the processes it forks: `Start`, `RestartWorkers`, the functions that `Kill`,
`RestartWorker` and `AtttachReadFIFO` queue, and the exits of the workers.  A `WorkerProcess` is a record at an address,
a `ShmFIFO` an address.  A worker may exit between any two steps, and the handler of SIGCHLD run between any two; a step
that would dereference NULL or a deleted object is not enabled.  The wake queue is a list without a bound: `wake_dropped`
says what its ring does when it is full.
-/
namespace Shm

structure WorkerId where
  name : String
  idx : Int
  deriving DecidableEq, Repr

/-- `WorkerOptions`, without what is only passed on to the worker. -/
structure WorkerOptions where
  name : String
  count : Int
  shmSize : Int
  shmFifoMaxsize : Int
  deriving DecidableEq, Repr

/-- The constructor `WorkerOptions()`, and a name. -/
def WorkerOptions.new (name : String) : WorkerOptions := ⟨name, 1, 10 * 1024 * 1024, 100000⟩

/-- `WorkerProcess`; `shm` says that it is not NULL. -/
structure WorkerProcess where
  options : WorkerOptions
  id : WorkerId
  pid : Int
  shm : Bool
  reader : Option Nat
  deriving DecidableEq, Repr

structure WorkerRestartOptions where
  opt : WorkerOptions
  idx : Int
  startTime : UInt64
  deriving DecidableEq, Repr

def WorkerRestartOptions.id (r : WorkerRestartOptions) : WorkerId := ⟨r.opt.name, r.idx⟩

/-- A function in the wake queue; `other` is one that leaves the worker tables alone. -/
inductive Closure where
  | restartWorker (pid : Int) (afterMs : UInt64)
  | kill (id : WorkerId) (sig : Int) (restart : Bool)
  | attach (fifo : Nat)
  | other
  deriving DecidableEq, Repr

def Closure.exited : Closure → Option Int
  | .restartWorker pid _ => some pid
  | _ => none

/-- A process forked and not yet reaped. -/
structure Child where
  pid : Int
  id : WorkerId
  alive : Bool
  deriving DecidableEq, Repr

/-- Where the master's thread stands: before `Start`, between two calls, or in one of the loops that create workers.
`drain` has still to look at `todo` of the restart queue and has `next` in `next_queue`. -/
inductive MasterPc where
  | down
  | idle
  | starting (todo : List (WorkerOptions × Int))
  | drain (todo next : List WorkerRestartOptions)
  | check (todo : List (WorkerOptions × Int))
  deriving DecidableEq, Repr

structure Master where
  recs : Nat → Option WorkerProcess
  nextRec : Nat
  nextFifo : Nat
  workers : AList (fun _ : WorkerId => Nat)
  pidWorkers : AList (fun _ : Int => Nat)
  restartQueue : List WorkerRestartOptions
  lastCheckRestartMs : UInt64
  options : List WorkerOptions
  wakeQueue : List Closure
  attached : List Nat
  deletedFifos : List Nat
  children : List Child
  signals : List (WorkerId × Int × Int)
  pc : MasterPc

namespace Master

/-- `Master::Master()`. -/
def new : Master :=
  ⟨fun _ => none, 0, 0, ∅, ∅, [], 0, [], [], [], [], [], [], .down⟩

def getWorker (s : Master) (id : WorkerId) : Option Nat := s.workers.lookup id

def getWorkerByPid (s : Master) (pid : Int) : Option Nat := s.pidWorkers.lookup pid

/-! ## `CreateWorker` -/

/-- The record that `CreateWorker` goes on with: the one in `workers`, or a new one. -/
def record (s : Master) (option : WorkerOptions) (id : WorkerId) : Master × Nat :=
  match s.getWorker id with
  | some r => (s, r)
  | none =>
    ({ s with
      recs := Function.update s.recs s.nextRec (some ⟨option, id, 0, false, none⟩)
      nextRec := s.nextRec + 1 }, s.nextRec)

/-- The part under `NULL == worker->shm`; `shm` says that `OpenShm` succeeds.  When it fails the code reads
`worker->shm->LastError()` just after setting `worker->shm` to NULL. -/
def openReader (s : Master) (r : Nat) (shm : Bool) : Option Master :=
  match s.recs r with
  | none => none
  | some w =>
    if w.shm = true then some s
    else if shm = false then none
    else some { s with
      recs := Function.update s.recs r (some { w with shm := true, reader := some s.nextFifo })
      nextFifo := s.nextFifo + 1
      wakeQueue := s.wakeQueue ++ [.attach s.nextFifo] }

/-- `createWorkerProcess` and what follows; `pid` is what `fork` returns: -1, or a pid that no unreaped child has. -/
def forkWorker (s : Master) (r : Nat) (pid : Int) : Option Master :=
  match s.recs r with
  | none => none
  | some w =>
    match w.reader with
    | none => none
    | some _ =>
      if pid = -1 ∨ (0 < pid ∧ pid ∉ s.children.map Child.pid) then
        some { s with
          recs := Function.update s.recs r (some { w with pid := pid })
          pidWorkers := s.pidWorkers.insert pid r
          workers := if s.getWorker w.id = none then s.workers.insert w.id r else s.workers
          children := if 0 < pid then s.children ++ [⟨pid, w.id, true⟩] else s.children }
      else none

def createWorker (s : Master) (option : WorkerOptions) (idx : Int) (shm : Bool) (pid : Int) : Option Master :=
  let (s₁, r) := s.record option ⟨option.name, idx⟩
  match s₁.openReader r shm with
  | none => none
  | some s₂ => s₂.forkWorker r pid

/-! ## The functions in the wake queue -/

/-- `DestoryWorker(w)`, `w` being the record at `r`. -/
def destoryWorker (s : Master) (r : Nat) : Option Master :=
  match s.recs r with
  | none => none
  | some w =>
    match w.reader with
    | none => none
    | some f =>
      some { s with
        attached := s.attached.erase f
        deletedFifos := s.deletedFifos ++ [f]
        pidWorkers := s.pidWorkers.erase w.pid
        recs := Function.update s.recs r (some { w with shm := false, reader := none }) }

/-- The function of `RestartWorker(pid, after_ms)`; `now` is what `mstime()` reads. -/
def runRestartWorker (s : Master) (pid : Int) (afterMs now : UInt64) : Option Master :=
  match s.getWorkerByPid pid with
  | none => some s
  | some r =>
    match s.recs r, s.destoryWorker r with
    | some w, some s₁ =>
      if s₁.getWorker w.id = none then some { s₁ with recs := Function.update s₁.recs r none }
      else some { s₁ with restartQueue := s₁.restartQueue ++ [⟨w.options, w.id.idx, now + afterMs⟩] }
    | _, _ => none

/-- The function of `Kill(id, sig, restart)`. -/
def runKill (s : Master) (id : WorkerId) (sig : Int) (restart : Bool) : Option Master :=
  match s.getWorker id with
  | none => some s
  | some r =>
    match s.recs r with
    | none => none
    | some w =>
      some { s with
        workers := if sig ≠ 0 ∧ restart = false then s.workers.erase id else s.workers
        signals := s.signals ++ [(id, w.pid, sig)] }

/-- The function of `AtttachReadFIFO(fifo)`. -/
def runAttach (s : Master) (fifo : Nat) : Option Master :=
  if fifo ∈ s.deletedFifos then none else some { s with attached := s.attached ++ [fifo] }

def runClosure (s : Master) (now : UInt64) : Closure → Option Master
  | .restartWorker pid afterMs => s.runRestartWorker pid afterMs now
  | .kill id sig restart => s.runKill id sig restart
  | .attach fifo => s.runAttach fifo
  | .other => some s

/-! ## `Start` and `RestartWorkers` -/

/-- The loop over `multiproc_options.workers` and their `count`. -/
def expand (options : List WorkerOptions) : List (WorkerOptions × Int) :=
  options.flatMap (fun w => (List.range w.count.toNat).map (fun i : Nat => (w, (i : Int))))

/-- `RestartWorkers()` up to its first loop. -/
def restartWorkers (s : Master) (now : UInt64) : Master :=
  if now - s.lastCheckRestartMs < 1000 then s
  else { s with
    lastCheckRestartMs := now
    pc := if s.restartQueue = [] then .check (expand s.options) else .drain s.restartQueue [] }

/-- The next iteration of the loop the master is in, or its end. -/
def next (s : Master) (now : UInt64) (shm : Bool) (pid : Int) : Option Master :=
  match s.pc with
  | .down => none
  | .idle => none
  | .starting [] => some { s with pc := .idle }
  | .starting ((w, i) :: todo) =>
    match s.createWorker w i shm pid with
    | none => none
    | some s' => some { s' with pc := .starting todo }
  | .drain [] next =>
    some { s with
      restartQueue := if s.restartQueue.length ≠ next.length then next else s.restartQueue
      pc := .check (expand s.options) }
  | .drain (e :: todo) next =>
    if e.startTime < now then
      match s.createWorker e.opt e.idx shm pid with
      | none => none
      | some s' => some { s' with pc := .drain todo next }
    else some { s with pc := .drain todo (next ++ [e]) }
  | .check [] => some { s with pc := .idle }
  | .check ((w, i) :: todo) =>
    if s.getWorker ⟨w.name, i⟩ = none then
      match s.createWorker w i shm pid with
      | none => none
      | some s' => some { s' with pc := .check todo }
    else some { s with pc := .check todo }

/-- `runWake` is `DoWake` running the oldest function; `next` takes what `mstime()` reads, whether `OpenShm` succeeds
and what `fork` returns; `exit` is a worker's exit, `sigchld` the handler reaping one that has exited. -/
inductive Act where
  | start (options : List WorkerOptions) (mainShm : Bool)
  | updateOptions (options : List WorkerOptions)
  | kill (id : WorkerId) (sig : Int) (restart : Bool)
  | wake
  | runWake (now : UInt64)
  | restartWorkers (now : UInt64)
  | next (now : UInt64) (shm : Bool) (pid : Int)
  | exit (pid : Int)
  | sigchld (pid : Int)
  deriving DecidableEq, Repr

def step (s : Master) : Act → Option Master
  | .start options mainShm =>
    match s.pc with
    | .down =>
      if mainShm = true then some { s with options := options, pc := .starting (expand options) }
      else some { s with options := options }
    | _ => none
  | .updateOptions options =>
    match s.pc with
    | .down | .idle => some { s with options := options }
    | _ => none
  | .kill id sig restart =>
    match s.pc with
    | .down => none
    | _ => some { s with wakeQueue := s.wakeQueue ++ [.kill id sig restart] }
  | .wake =>
    match s.pc with
    | .down => none
    | _ => some { s with wakeQueue := s.wakeQueue ++ [.other] }
  | .runWake now =>
    match s.pc, s.wakeQueue with
    | .idle, c :: q => ({ s with wakeQueue := q } : Master).runClosure now c
    | _, _ => none
  | .restartWorkers now =>
    match s.pc with
    | .idle => some (s.restartWorkers now)
    | _ => none
  | .next now shm pid => s.next now shm pid
  | .exit pid =>
    if ⟨pid, true⟩ ∈ s.children.map (fun c => (c.pid, c.alive)) then
      some { s with children := s.children.map (fun c => if c.pid = pid then { c with alive := false } else c) }
    else none
  | .sigchld pid =>
    if ⟨pid, false⟩ ∈ s.children.map (fun c => (c.pid, c.alive)) then
      some { s with
        children := s.children.filter (fun c => c.pid ≠ pid)
        wakeQueue := s.wakeQueue ++ [.restartWorker pid 1000] }
    else none

/-- The pids reaped whose function has not run. -/
def exitedPids (s : Master) : List Int := s.wakeQueue.filterMap Closure.exited

end Master
end Shm
