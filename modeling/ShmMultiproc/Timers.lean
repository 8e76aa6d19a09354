import Mathlib.Algebra.Group.Nat.Defs
import ShmMultiproc.Lib.Machine
import ShmMultiproc.Lib.Table
import ShmMultiproc.Lib.Buckets
/-!
# Timers — the timer tables of a poller

`ShmFIFOPoller` keeps a timer task in two maps, `timer_tasks` by id and `timer_task_queue` by the time it is due.  The
closures of `AddTimerTask` and `CancelTimerTask` run in the poller's thread and so does `TriggerExpiredTimerTasks`, which
takes a whole bucket out of the queue and puts a repeating task back at a later reading of the clock.
`timers_consistent` says that between these the two maps hold the same tasks, and which tasks are invoked.
-/
namespace Shm

open Machine (Reach)
open Table (lookup_insert_some lookup_erase_some)
open Buckets (keys items push Sorted mem_keys_push sorted_push items_push)

/-- `TimerTask` without the function it calls. -/
structure TimerTask where
  afterMs : Nat
  id : Nat
  repeate : Bool
  canceled : Bool
  deriving DecidableEq, Repr

/-- What the closure of `AddTimerTask` captures. -/
structure AddClosure where
  id : Nat
  next : Nat
  afterMs : Nat
  repeate : Bool
  deriving DecidableEq, Repr

/-- A sum of `uint64_t`. -/
def addU64 (a b : Nat) : Nat := (a + b) % 2 ^ 64

/-- The closure that `AddTimerTask` hands to `Wake`, when `mstime()` reads `now` and the seed gives `id`. -/
def addTimerTask (id now afterMs : Nat) (repeate : Bool) : AddClosure := ⟨id, addU64 now afterMs, afterMs, repeate⟩

/-- What the closures and the calls of `TriggerExpiredTimerTasks` did, the calls numbered: `now` is the reading at entry
and `key` the bucket that the task was in. -/
inductive TimerEvent where
  | added (id : Nat) (repeate : Bool)
  | canceled (id : Nat)
  | invoked (call now id key : Nat)
  deriving DecidableEq, Repr

/-- Where `TriggerExpiredTimerTasks` stands: not called, returned, before the test of its loop, or in the loop over the
tasks of the bucket `key`. -/
inductive TriggerPc where
  | idle
  | returned (now res : Nat)
  | loop (now : Nat)
  | bucket (now key : Nat) (triggerTasks : List Nat)
  deriving DecidableEq, Repr

/-- The timer tables, their tasks by address, the last reading of the clock and the log, oldest first. -/
structure Timers where
  heap : Nat → Option TimerTask
  timerTasks : AList (fun _ : Nat => Nat)
  timerTaskQueue : List (Nat × List Nat)
  clock : Nat
  pc : TriggerPc
  calls : Nat
  log : List TimerEvent

def TriggerPc.between : TriggerPc → Bool
  | .idle | .returned _ _ => true
  | .loop _ | .bucket _ _ _ => false

def TriggerPc.todo : TriggerPc → List Nat
  | .bucket _ _ tasks => tasks
  | _ => []

namespace Timers

def start : Timers := ⟨fun _ => none, ∅, [], 0, .idle, 0, []⟩

/-- The closure of `AddTimerTask`, `new` giving the address `addr`. -/
def runAddTimerTask (s : Timers) (addr : Nat) (c : AddClosure) : Timers :=
  { s with
    heap := Function.update s.heap addr (some ⟨c.afterMs, c.id, c.repeate, false⟩)
    timerTaskQueue := push c.next addr s.timerTaskQueue
    timerTasks := s.timerTasks.insert c.id addr
    pc := .idle
    log := s.log ++ [.added c.id c.repeate] }

/-- The closure of `CancelTimerTask`; `none` when it follows the address of a deleted task. -/
def runCancelTimerTask (s : Timers) (id : Nat) : Option Timers :=
  match s.timerTasks.lookup id with
  | none => some { s with pc := .idle, log := s.log ++ [.canceled id] }
  | some a =>
    match s.heap a with
    | none => none
    | some t =>
      some { s with
        heap := Function.update s.heap a (some { t with canceled := true })
        pc := .idle
        log := s.log ++ [.canceled id] }

/-- The test of the loop of `TriggerExpiredTimerTasks`, and the bucket it takes out. -/
def nextBucket (s : Timers) (now : Nat) : Timers :=
  match s.timerTaskQueue with
  | [] => { s with pc := .returned now 0 }
  | (key, tasks) :: queue =>
    if now < key then { s with pc := .returned now (key - now) }
    else { s with timerTaskQueue := queue, pc := .bucket now key tasks }

/-- `timer_tasks.erase(task->id)` and `delete task`. -/
def deleteTask (s : Timers) (a : Nat) (task : TimerTask) : Timers :=
  { s with timerTasks := s.timerTasks.erase task.id, heap := Function.update s.heap a none }

/-- `timer_task_queue[next].push_back(task)` at the reading `t`. -/
def putBack (s : Timers) (t a : Nat) (task : TimerTask) : Timers :=
  { s with timerTaskQueue := push (addU64 t task.afterMs) a s.timerTaskQueue, clock := t }

/-- `task->func()`. -/
def invoke (s : Timers) (now key : Nat) (task : TimerTask) : Timers :=
  { s with log := s.log ++ [.invoked s.calls now task.id key] }

/-- One round of the loop over the tasks of a bucket, `mstime()` reading `t` if it is asked; `none` when it follows the
address of a deleted task. -/
def runTask (s : Timers) (now key t a : Nat) (todo : List Nat) : Option Timers :=
  let s := { s with pc := .bucket now key todo }
  match s.heap a with
  | none => none
  | some task =>
    if task.canceled = false then
      if task.repeate = true then some ((s.invoke now key task).putBack t a task)
      else some ((s.invoke now key task).deleteTask a task)
    else some (s.deleteTask a task)

/-- `add` runs the closure of a call of `AddTimerTask` at which `mstime()` read `now`. -/
inductive Act where
  | add (addr id now afterMs : Nat) (repeate : Bool)
  | cancel (id : Nat)
  | trigger (now : Nat)
  | step (t : Nat)
  deriving DecidableEq, Repr

def step (s : Timers) : Act → Option Timers
  | .add addr id now afterMs repeate =>
    if s.pc.between = true ∧ s.heap addr = none then
      some (s.runAddTimerTask addr (addTimerTask id now afterMs repeate))
    else none
  | .cancel id => if s.pc.between = true then s.runCancelTimerTask id else none
  | .trigger now =>
    if s.pc.between = true then some { s with clock := now, pc := .loop now, calls := s.calls + 1 } else none
  | .step t =>
    match s.pc with
    | .idle | .returned _ _ => none
    | .loop now => some (s.nextBucket now)
    | .bucket now _ [] => some { s with pc := .loop now }
    | .bucket now key (a :: todo) => s.runTask now key t a todo

/-! ## What the runs are asked, and what they give -/

/-- **The readings of the clock do not go back, no sum that becomes a key overflows, and ids are not used twice.**
The reading of an added task is that of the call of `AddTimerTask`, any time before its closure runs. -/
def Proper (s : Timers) : Act → Prop
  | .add _ id now afterMs _ => (∀ r, TimerEvent.added id r ∉ s.log) ∧ now + afterMs < 2 ^ 64
  | .cancel _ => True
  | .trigger now => s.clock ≤ now
  | .step t => s.clock ≤ t ∧ ∀ a ∈ s.pc.todo.head?, ∀ task ∈ s.heap a, task.canceled = false → task.repeate = true →
    t + task.afterMs < 2 ^ 64

/-- **Ids are not used twice.** -/
def FreshIds (s : Timers) : Act → Prop
  | .add _ id _ _ _ => ∀ r, TimerEvent.added id r ∉ s.log
  | _ => True

theorem Proper.freshIds {s : Timers} {a : Act} (h : Proper s a) : FreshIds s a := by
  cases a with
  | add addr id now afterMs repeate => exact h.1
  | cancel id | trigger now | step t => trivial

instance (s : Timers) (a : Act) : Decidable (FreshIds s a) :=
  match a with
  | .add _ id _ _ _ => inferInstanceAs (Decidable (∀ r, TimerEvent.added id r ∉ s.log))
  | .cancel _ | .trigger _ | .step _ => .isTrue trivial

instance (s : Timers) (a : Act) : Decidable (Proper s a) :=
  match a with
  | .add _ _ _ _ _ => inferInstanceAs (Decidable (_ ∧ _))
  | .cancel _ => .isTrue trivial
  | .trigger _ => inferInstanceAs (Decidable (_ ≤ _))
  | .step _ => inferInstanceAs (Decidable (_ ∧ _))

/-- **The two maps hold the same tasks**, each once and at the address of a task with its id. -/
structure SameTasks (s : Timers) : Prop where
  once : (items s.timerTaskQueue).Nodup
  same : ∀ a, a ∈ items s.timerTaskQueue ↔ ∃ id, s.timerTasks.lookup id = some a
  ids : ∀ id a, s.timerTasks.lookup id = some a → ∃ task, s.heap a = some task ∧ task.id = id

/-- **What a call answers**: nothing is due at its reading, and the answer is the time to the least key. -/
structure Answers (s : Timers) (now res : Nat) : Prop where
  notDue : ∀ k ∈ keys s.timerTaskQueue, now < k
  empty : res = 0 ↔ s.timerTaskQueue = []
  least : ∀ k ∈ keys s.timerTaskQueue, (∀ k' ∈ keys s.timerTaskQueue, k ≤ k') → res = k - now

/-- No task is invoked after a closure of `CancelTimerTask` of its id. -/
def NeverAfterCancel (s : Timers) : Prop :=
  ∀ n now id key, ¬ [.canceled id, .invoked n now id key].Sublist s.log

/-- **The tables are consistent and the timers fire correctly.** -/
structure Consistent (s : Timers) : Prop where
  tables : s.pc.between = true → SameTasks s
  live : ∀ a ∈ s.pc.todo, (s.heap a).isSome
  due : ∀ n now id key, .invoked n now id key ∈ s.log → key ≤ now
  canceled : ∀ n now id key r, ¬ [.added id r, .canceled id, .invoked n now id key].Sublist s.log
  once : ∀ id, .added id false ∈ s.log → ∀ n now key n' now' key',
    ¬ [.invoked n now id key, .invoked n' now' id key'].Sublist s.log
  order : ∀ n now id key now' id' key',
    [.invoked n now id key, .invoked n now' id' key'].Sublist s.log → key ≤ key'
  answers : ∀ now res, s.pc = .returned now res → Answers s now res

/-! ## The tables -/

def held (s : Timers) : List Nat := items s.timerTaskQueue ++ s.pc.todo

/-- **Each task held is entered under its id**, and each task entered is held once. -/
structure Tabled (s : Timers) : Prop where
  sorted : Sorted s.timerTaskQueue
  nodup : s.held.Nodup
  entered : ∀ a ∈ s.held, ∃ t, s.heap a = some t ∧ s.timerTasks.lookup t.id = some a
  queued : ∀ id a, s.timerTasks.lookup id = some a → a ∈ s.held ∧ ∃ t, s.heap a = some t ∧ t.id = id

variable {s s' : Timers}

theorem todo_of_between {pc : TriggerPc} (h : pc.between = true) : pc.todo = [] := by
  cases pc with
  | idle | returned now res => rfl
  | loop now | bucket now key tasks => cases h

namespace Tabled

theorem start : Tabled start where
  sorted := List.Pairwise.nil
  nodup := List.nodup_nil
  entered _ ha := absurd ha List.not_mem_nil
  queued _ _ h := by cases h

theorem of_perm (h : Tabled s) (hq : Sorted s'.timerTaskQueue) (hp : s'.held.Perm s.held) (hh : s'.heap = s.heap)
    (ht : s'.timerTasks = s.timerTasks) : Tabled s' where
  sorted := hq
  nodup := hp.nodup_iff.2 h.nodup
  entered a ha := by
    rw [hh, ht]
    exact h.entered a (hp.mem_iff.1 ha)
  queued id a hl := by
    rw [ht] at hl
    rw [hh]
    exact ⟨hp.mem_iff.2 (h.queued id a hl).1, (h.queued id a hl).2⟩

theorem of_delete {a : Nat} {task : TimerTask} (h : Tabled s) (ha : s.heap a = some task)
    (hq : Sorted s'.timerTaskQueue) (hp : (a :: s'.held).Perm s.held) (hh : s'.heap = Function.update s.heap a none)
    (ht : s'.timerTasks = s.timerTasks.erase task.id) : Tabled s' := by
  have hnd := hp.nodup_iff.2 h.nodup
  obtain ⟨hnot, hnd⟩ := List.nodup_cons.1 hnd
  refine ⟨hq, hnd, fun b hb => ?_, fun id b hl => ?_⟩
  · have hne : b ≠ a := fun e => hnot (e ▸ hb)
    obtain ⟨t, hb', hl⟩ := h.entered b (hp.mem_iff.1 (List.mem_cons_of_mem _ hb))
    obtain ⟨t', ha', hl'⟩ := h.entered a (hp.mem_iff.1 List.mem_cons_self)
    rw [ha] at ha'
    cases ha'
    refine ⟨t, by rw [hh, Function.update_of_ne hne]; exact hb', ?_⟩
    rw [ht]
    refine lookup_erase_some.2 ⟨fun e => hne ?_, hl⟩
    rw [e, hl'] at hl
    exact (Option.some.inj hl).symm
  · rw [ht] at hl
    obtain ⟨hid, hl⟩ := lookup_erase_some.1 hl
    obtain ⟨hb, t, hb', hid'⟩ := h.queued id b hl
    have hne : b ≠ a := by
      rintro rfl
      rw [ha] at hb'
      cases hb'
      exact hid hid'.symm
    refine ⟨(List.mem_cons.1 (hp.mem_iff.2 hb)).resolve_left hne, t, ?_, hid'⟩
    rw [hh, Function.update_of_ne hne]
    exact hb'

theorem not_held {addr : Nat} (h : Tabled s) (haddr : s.heap addr = none) : addr ∉ s.held := by
  intro hm
  obtain ⟨t, ht, -⟩ := h.entered addr hm
  rw [haddr] at ht
  cases ht

theorem add {addr : Nat} {c : AddClosure} (h : Tabled s) (hb : s.pc.between = true) (haddr : s.heap addr = none)
    (hid : s.timerTasks.lookup c.id = none) : Tabled (s.runAddTimerTask addr c) := by
  have hheld : s.held = items s.timerTaskQueue := by unfold held; rw [todo_of_between hb, List.append_nil]
  have hperm : (s.runAddTimerTask addr c).held.Perm (addr :: s.held) := by
    rw [hheld]
    show (items (push c.next addr s.timerTaskQueue) ++ []).Perm _
    rw [List.append_nil]
    exact items_push
  have hnot := h.not_held haddr
  refine ⟨sorted_push h.sorted, hperm.nodup_iff.2 (List.nodup_cons.2 ⟨hnot, h.nodup⟩), fun a ha => ?_, fun id a hl => ?_⟩
  · rcases List.mem_cons.1 (hperm.mem_iff.1 ha) with rfl | ha
    · exact ⟨⟨c.afterMs, c.id, c.repeate, false⟩, Function.update_self .., AList.lookup_insert _⟩
    · obtain ⟨t, ht, hl⟩ := h.entered a ha
      have hne : a ≠ addr := fun e => hnot (e ▸ ha)
      refine ⟨t, (Function.update_of_ne hne ..).trans ht, lookup_insert_some.2 (.inr ⟨fun e => ?_, hl⟩)⟩
      rw [e, hid] at hl
      cases hl
  · rcases lookup_insert_some.1 hl with ⟨rfl, rfl⟩ | ⟨-, hl⟩
    · exact ⟨hperm.mem_iff.2 List.mem_cons_self, _, Function.update_self .., rfl⟩
    · obtain ⟨ha, t, ht, hid'⟩ := h.queued id a hl
      have hne : a ≠ addr := fun e => hnot (e ▸ ha)
      exact ⟨hperm.mem_iff.2 (List.mem_cons_of_mem _ ha), t, (Function.update_of_ne hne ..).trans ht, hid'⟩

theorem cancel {id : Nat} (h : Tabled s) (hb : s.pc.between = true) (hs : s.runCancelTimerTask id = some s') :
    Tabled s' := by
  have hheld : s.held = items s.timerTaskQueue ++ [] := by unfold held; rw [todo_of_between hb]
  have hnd := h.nodup
  have hent := h.entered
  have hq := h.queued
  rw [hheld] at hnd hent
  unfold runCancelTimerTask at hs
  split at hs
  · cases hs
    exact h.of_perm h.sorted (.of_eq hheld.symm) rfl rfl
  · rename_i a hl
    split at hs
    · cases hs
    · rename_i t ha
      cases hs
      have hkeep : ∀ {b t'}, s.heap b = some t' → ∃ t'', Function.update s.heap a (some { t with canceled := true }) b =
          some t'' ∧ t''.id = t'.id := by
        intro b t' ht'
        by_cases hba : b = a
        · subst hba
          rw [ha] at ht'
          cases ht'
          exact ⟨_, Function.update_self .., rfl⟩
        · exact ⟨t', (Function.update_of_ne hba ..).trans ht', rfl⟩
      refine ⟨h.sorted, hnd, fun b hb => ?_, fun id' b hl' => ?_⟩
      · obtain ⟨t', ht', hl'⟩ := hent b hb
        obtain ⟨t'', ht'', hid⟩ := hkeep ht'
        exact ⟨t'', ht'', hid ▸ hl'⟩
      · obtain ⟨hb, t', ht', hid'⟩ := hq id' b hl'
        obtain ⟨t'', ht'', hid⟩ := hkeep ht'
        rw [hheld] at hb
        exact ⟨hb, t'', ht'', hid.trans hid'⟩

theorem nextBucket {now : Nat} (h : Tabled s) (hpc : s.pc = .loop now) : Tabled (s.nextBucket now) := by
  have hheld : s.held = items s.timerTaskQueue ++ [] := by unfold held; rw [hpc]; rfl
  have hsort := h.sorted
  unfold Timers.nextBucket
  split
  · rename_i hq
    exact h.of_perm h.sorted (.of_eq hheld.symm) rfl rfl
  · rename_i key tasks queue hq
    rw [hq] at hsort
    split
    · exact h.of_perm h.sorted (.of_eq hheld.symm) rfl rfl
    · refine h.of_perm hsort.tail ?_ rfl rfl
      rw [hheld, hq, List.append_nil]
      exact List.perm_append_comm

theorem runTask {now key t a : Nat} {todo : List Nat} (h : Tabled s) (hpc : s.pc = .bucket now key (a :: todo))
    (hs : s.runTask now key t a todo = some s') : Tabled s' := by
  have hheld : s.held = items s.timerTaskQueue ++ a :: todo := by unfold held; rw [hpc]; rfl
  have hdel : (a :: (items s.timerTaskQueue ++ todo)).Perm s.held := by
    rw [hheld]
    exact List.perm_middle.symm
  unfold Timers.runTask at hs
  simp only at hs
  split at hs
  · cases hs
  · rename_i task ha
    split at hs
    · split at hs
      · cases hs
        refine h.of_perm (sorted_push h.sorted) ?_ rfl rfl
        exact (List.Perm.append_right todo items_push).trans hdel
      · cases hs
        exact h.of_delete ha h.sorted hdel rfl rfl
    · cases hs
      exact h.of_delete ha h.sorted hdel rfl rfl

theorem ofStep {t : Nat} (h : Tabled s) (hs : Timers.step s (.step t) = some s') : Tabled s' := by
  simp only [Timers.step] at hs
  split at hs
  · cases hs
  · cases hs
  · rename_i now hpc
    cases hs
    exact h.nextBucket hpc
  · rename_i now key hpc
    cases hs
    refine h.of_perm h.sorted (.of_eq ?_) rfl rfl
    unfold held
    rw [hpc]
    rfl
  · rename_i now key a todo hpc
    exact h.runTask hpc hs

theorem step {a : Act} (h : Tabled s) (hg : FreshIds s a) (hids : ∀ id, (s.timerTasks.lookup id).isSome →
    ∃ r, .added id r ∈ s.log) (hs : Timers.step s a = some s') : Tabled s' := by
  cases a with
  | add addr id now afterMs repeate =>
    simp only [Timers.step] at hs
    split at hs <;> cases hs
    rename_i hb
    refine h.add hb.1 hb.2 (Option.not_isSome_iff_eq_none.1 (fun hsome => ?_))
    obtain ⟨r, hr⟩ := hids id hsome
    exact hg r hr
  | cancel id =>
    simp only [Timers.step] at hs
    split at hs
    · rename_i hb
      exact h.cancel hb hs
    · cases hs
  | trigger now =>
    simp only [Timers.step] at hs
    split at hs <;> cases hs
    rename_i hb
    refine h.of_perm h.sorted (.of_eq ?_) rfl rfl
    unfold held
    rw [todo_of_between hb]
    rfl
  | step t => exact h.ofStep hs

end Tabled

/-! ## The log -/

theorem mem_of_concat {e e₀ : TimerEvent} {log : List TimerEvent} (h : e ∈ log ++ [e₀]) (hne : e ≠ e₀) : e ∈ log :=
  (List.mem_append.1 h).resolve_right (fun h' => hne (List.mem_singleton.1 h'))

theorem sublist_concat {l log : List TimerEvent} {x e : TimerEvent} (h : (l ++ [x]).Sublist (log ++ [e])) :
    (l ++ [x]).Sublist log ∨ (x = e ∧ l.Sublist log) := by
  rw [← List.reverse_sublist, List.reverse_concat, List.reverse_concat] at h
  rcases List.cons_sublist_cons'.1 h with hl | ⟨rfl, hl⟩
  · refine .inl (List.reverse_sublist.1 ?_)
    rw [List.reverse_concat]
    exact hl
  · exact .inr ⟨rfl, List.reverse_sublist.1 hl⟩

theorem pair_concat {e₁ e₂ e : TimerEvent} {log : List TimerEvent} (h : [e₁, e₂].Sublist (log ++ [e])) :
    [e₁, e₂].Sublist log ∨ (e₂ = e ∧ e₁ ∈ log) := by
  have h : ([e₁] ++ [e₂]).Sublist (log ++ [e]) := h
  exact (sublist_concat h).imp_right (fun h => ⟨h.1, List.singleton_sublist.1 h.2⟩)

theorem triple_concat {e₁ e₂ e₃ e : TimerEvent} {log : List TimerEvent} (h : [e₁, e₂, e₃].Sublist (log ++ [e])) :
    [e₁, e₂, e₃].Sublist log ∨ (e₃ = e ∧ [e₁, e₂].Sublist log) := by
  have h : ([e₁, e₂] ++ [e₃]).Sublist (log ++ [e]) := h
  exact sublist_concat h

def Entered (s : Timers) (id : Nat) (t : TimerTask) : Prop := ∃ a, s.timerTasks.lookup id = some a ∧ s.heap a = some t

/-- **What the log says of the tasks entered**, and of those that are not any more. -/
structure Logged (s : Timers) : Prop where
  unique : ∀ id r r', .added id r ∈ s.log → .added id r' ∈ s.log → r = r'
  ran : ∀ n now id key, .invoked n now id key ∈ s.log → ∃ r, .added id r ∈ s.log
  added : ∀ id t, s.Entered id t → .added id t.repeate ∈ s.log
  again : ∀ n now id key t, .invoked n now id key ∈ s.log → s.Entered id t → t.repeate = true
  marked : ∀ id r t, [.added id r, .canceled id].Sublist s.log → s.Entered id t → t.canceled = true
  canceled : ∀ n now id key r, ¬ [.added id r, .canceled id, .invoked n now id key].Sublist s.log
  once : ∀ id, .added id false ∈ s.log → ∀ n now key n' now' key',
    ¬ [.invoked n now id key, .invoked n' now' id key'].Sublist s.log

theorem mem_of_pair {e e' : TimerEvent} {log : List TimerEvent} (h : [e, e'].Sublist log) : e ∈ log ∧ e' ∈ log :=
  ⟨h.subset List.mem_cons_self, h.subset (List.mem_cons_of_mem _ List.mem_cons_self)⟩

theorem entered_add {addr id : Nat} {t : TimerTask} {c : AddClosure} (h : Tabled s) (haddr : s.heap addr = none)
    (ht : (s.runAddTimerTask addr c).Entered id t) :
    (id = c.id ∧ t.repeate = c.repeate) ∨ (id ≠ c.id ∧ s.Entered id t) := by
  obtain ⟨a, hl, ha⟩ := ht
  rcases lookup_insert_some.1 hl with ⟨rfl, rfl⟩ | ⟨hne, hl⟩
  · cases (Function.update_self ..).symm.trans ha
    exact .inl ⟨rfl, rfl⟩
  · have haa : a ≠ addr := fun e => h.not_held haddr (e ▸ (h.queued id a hl).1)
    exact .inr ⟨hne, a, hl, (Function.update_of_ne haa ..).symm.trans ha⟩

theorem entered_cancel {id₀ id : Nat} {t : TimerTask} (hs : s.runCancelTimerTask id₀ = some s')
    (ht : s'.Entered id t) : ∃ t₀, s.Entered id t₀ ∧ t.repeate = t₀.repeate ∧
      (t₀.canceled = true → t.canceled = true) ∧ (id = id₀ → t.canceled = true) := by
  obtain ⟨a, hl, ha⟩ := ht
  unfold runCancelTimerTask at hs
  split at hs
  · rename_i hnone
    cases hs
    refine ⟨t, ⟨a, hl, ha⟩, rfl, fun hc => hc, fun e => ?_⟩
    rw [e, hnone] at hl
    cases hl
  · rename_i a₀ hl₀
    split at hs
    · cases hs
    · rename_i t₀ ha₀
      cases hs
      by_cases haa : a = a₀
      · subst haa
        cases (Function.update_self ..).symm.trans ha
        exact ⟨t₀, ⟨a, hl, ha₀⟩, rfl, fun _ => rfl, fun _ => rfl⟩
      · refine ⟨t, ⟨a, hl, (Function.update_of_ne haa ..).symm.trans ha⟩, rfl, fun hc => hc, fun e => absurd ?_ haa⟩
        rw [e, hl₀] at hl
        exact (Option.some.inj hl).symm

theorem entered_delete {a id : Nat} {t task : TimerTask} (ht : (s.deleteTask a task).Entered id t) :
    id ≠ task.id ∧ s.Entered id t := by
  obtain ⟨b, hl, hb⟩ := ht
  obtain ⟨hne, hl⟩ := lookup_erase_some.1 hl
  have hba : b ≠ a := by
    rintro rfl
    cases (Function.update_self ..).symm.trans hb
  exact ⟨hne, b, hl, (Function.update_of_ne hba ..).symm.trans hb⟩

namespace Logged

theorem start : Logged start where
  unique _ _ _ h := absurd h List.not_mem_nil
  ran _ _ _ _ h := absurd h List.not_mem_nil
  added _ _ h := by obtain ⟨a, hl, -⟩ := h; cases hl
  again _ _ _ _ _ h := absurd h List.not_mem_nil
  marked _ _ _ h := absurd (mem_of_pair h).1 List.not_mem_nil
  canceled _ _ _ _ _ h := absurd (h.subset List.mem_cons_self) List.not_mem_nil
  once _ h := absurd h List.not_mem_nil

theorem of_same (h : Logged s) (hlog : s'.log = s.log) (hent : ∀ id t, s'.Entered id t → s.Entered id t) :
    Logged s' := by
  refine ⟨?_, ?_, fun id t ht => ?_, fun n now id key t hi ht => ?_, fun id r t hm ht => ?_, ?_, ?_⟩
  · rw [hlog]; exact h.unique
  · rw [hlog]; exact h.ran
  · rw [hlog]; exact h.added id t (hent id t ht)
  · rw [hlog] at hi; exact h.again n now id key t hi (hent id t ht)
  · rw [hlog] at hm; exact h.marked id r t hm (hent id t ht)
  · rw [hlog]; exact h.canceled
  · rw [hlog]; exact h.once

theorem add {id₀ : Nat} {r₀ : Bool} (h : Logged s) (hlog : s'.log = s.log ++ [.added id₀ r₀])
    (hnew : ∀ r, .added id₀ r ∉ s.log)
    (hent : ∀ id t, s'.Entered id t → (id = id₀ ∧ t.repeate = r₀) ∨ (id ≠ id₀ ∧ s.Entered id t)) : Logged s' := by
  have hadded : ∀ {id r}, .added id r ∈ s'.log → .added id r ∈ s.log ∨ (id = id₀ ∧ r = r₀) := by
    intro id r hm
    rw [hlog, List.mem_append, List.mem_singleton] at hm
    refine hm.imp_right (fun he => ?_)
    cases he
    exact ⟨rfl, rfl⟩
  have hran : ∀ {n now id key}, .invoked n now id key ∈ s'.log → .invoked n now id key ∈ s.log :=
    fun hm => mem_of_concat (hlog ▸ hm) (by simp)
  have hold : ∀ {id r}, .added id r ∈ s.log → id ≠ id₀ := fun hm e => hnew _ (e ▸ hm)
  refine ⟨fun id r r' hr hr' => ?_, fun n now id key hi => ?_, fun id t ht => ?_, fun n now id key t hi ht => ?_,
    fun id r t hm ht => ?_, fun n now id key r hm => ?_, fun id hf n now key n' now' key' hm => ?_⟩
  · rcases hadded hr with hr | ⟨rfl, rfl⟩ <;> rcases hadded hr' with hr' | ⟨he, rfl⟩
    · exact h.unique id r r' hr hr'
    · exact absurd he (hold hr)
    · exact absurd rfl (hold hr')
    · rfl
  · obtain ⟨r, hr⟩ := h.ran n now id key (hran hi)
    exact ⟨r, hlog ▸ List.mem_append_left _ hr⟩
  · rw [hlog]
    rcases hent id t ht with ⟨rfl, rfl⟩ | ⟨-, ht⟩
    · exact List.mem_append_right _ List.mem_cons_self
    · exact List.mem_append_left _ (h.added id t ht)
  · obtain ⟨r, hr⟩ := h.ran n now id key (hran hi)
    rcases hent id t ht with ⟨he, -⟩ | ⟨-, ht⟩
    · exact absurd he (hold hr)
    · exact h.again n now id key t (hran hi) ht
  · rw [hlog] at hm
    rcases pair_concat hm with hm | ⟨he, -⟩
    · rcases hent id t ht with ⟨he, -⟩ | ⟨-, ht⟩
      · exact absurd he (hold (mem_of_pair hm).1)
      · exact h.marked id r t hm ht
    · cases he
  · rw [hlog] at hm
    rcases triple_concat hm with hm | ⟨he, -⟩
    · exact h.canceled n now id key r hm
    · cases he
  · rw [hlog] at hm
    rcases pair_concat hm with hp | ⟨he, -⟩
    · rcases hadded hf with hf | ⟨rfl, -⟩
      · exact h.once id hf n now key n' now' key' hp
      · obtain ⟨r, hr⟩ := h.ran n now id key (mem_of_pair hp).1
        exact hnew r hr
    · cases he

theorem cancel {id₀ : Nat} (h : Logged s) (hlog : s'.log = s.log ++ [.canceled id₀])
    (hent : ∀ id t, s'.Entered id t → ∃ t₀, s.Entered id t₀ ∧ t.repeate = t₀.repeate ∧
      (t₀.canceled = true → t.canceled = true) ∧ (id = id₀ → t.canceled = true)) : Logged s' := by
  have hadd : ∀ {id r}, .added id r ∈ s'.log → .added id r ∈ s.log := fun hm => mem_of_concat (hlog ▸ hm) (by simp)
  have hrun : ∀ {n now id key}, .invoked n now id key ∈ s'.log → .invoked n now id key ∈ s.log :=
    fun hm => mem_of_concat (hlog ▸ hm) (by simp)
  refine ⟨fun id r r' hr hr' => h.unique id r r' (hadd hr) (hadd hr'), fun n now id key hi => ?_, fun id t ht => ?_,
    fun n now id key t hi ht => ?_, fun id r t hm ht => ?_, fun n now id key r hm => ?_,
    fun id hf n now key n' now' key' hm => ?_⟩
  · obtain ⟨r, hr⟩ := h.ran n now id key (hrun hi)
    exact ⟨r, hlog ▸ List.mem_append_left _ hr⟩
  · obtain ⟨t₀, ht₀, hr, -⟩ := hent id t ht
    rw [hlog, hr]
    exact List.mem_append_left _ (h.added id t₀ ht₀)
  · obtain ⟨t₀, ht₀, hr, -⟩ := hent id t ht
    rw [hr]
    exact h.again n now id key t₀ (hrun hi) ht₀
  · obtain ⟨t₀, ht₀, -, hc, hid⟩ := hent id t ht
    rw [hlog] at hm
    rcases pair_concat hm with hm | ⟨he, -⟩
    · exact hc (h.marked id r t₀ hm ht₀)
    · cases he
      exact hid rfl
  · rw [hlog] at hm
    rcases triple_concat hm with hm | ⟨he, -⟩
    · exact h.canceled n now id key r hm
    · cases he
  · rw [hlog] at hm
    rcases pair_concat hm with hm | ⟨he, -⟩
    · exact h.once id (hadd hf) n now key n' now' key' hm
    · cases he

theorem invoke {n₀ now₀ id₀ key₀ : Nat} {task : TimerTask} (h : Logged s)
    (hlog : s'.log = s.log ++ [.invoked n₀ now₀ id₀ key₀]) (htask : s.Entered id₀ task) (hc : task.canceled = false)
    (hent : ∀ id t, s'.Entered id t → s.Entered id t ∧ (id = id₀ → t.repeate = true)) : Logged s' := by
  have hadd : ∀ {id r}, .added id r ∈ s'.log → .added id r ∈ s.log := fun hm => mem_of_concat (hlog ▸ hm) (by simp)
  refine ⟨fun id r r' hr hr' => h.unique id r r' (hadd hr) (hadd hr'), fun n now id key hi => ?_, fun id t ht => ?_,
    fun n now id key t hi ht => ?_, fun id r t hm ht => ?_, fun n now id key r hm => ?_,
    fun id hf n now key n' now' key' hm => ?_⟩
  · rw [hlog, List.mem_append, List.mem_singleton] at hi
    rcases hi with hi | hi
    · obtain ⟨r, hr⟩ := h.ran n now id key hi
      exact ⟨r, hlog ▸ List.mem_append_left _ hr⟩
    · cases hi
      exact ⟨task.repeate, hlog ▸ List.mem_append_left _ (h.added id₀ task htask)⟩
  · rw [hlog]
    exact List.mem_append_left _ (h.added id t (hent id t ht).1)
  · rw [hlog, List.mem_append, List.mem_singleton] at hi
    rcases hi with hi | hi
    · exact h.again n now id key t hi (hent id t ht).1
    · cases hi
      exact (hent id₀ t ht).2 rfl
  · rw [hlog] at hm
    rcases pair_concat hm with hm | ⟨he, -⟩
    · exact h.marked id r t hm (hent id t ht).1
    · cases he
  · rw [hlog] at hm
    rcases triple_concat hm with hm | ⟨he, hp⟩
    · exact h.canceled n now id key r hm
    · cases he
      have := h.marked id₀ r task hp htask
      rw [hc] at this
      cases this
  · rw [hlog] at hm
    rcases pair_concat hm with hm | ⟨he, hp⟩
    · exact h.once id (hadd hf) n now key n' now' key' hm
    · cases he
      have hr := h.again n now id₀ key task hp htask
      have := h.unique id₀ _ _ (hadd hf) (h.added id₀ task htask)
      rw [hr] at this
      cases this

theorem runTask {now key t a : Nat} {todo : List Nat} (h : Logged s) (ht : Tabled s)
    (hpc : s.pc = .bucket now key (a :: todo)) (hs : s.runTask now key t a todo = some s') : Logged s' := by
  have hheld : a ∈ s.held := by
    unfold held
    rw [hpc]
    exact List.mem_append_right _ List.mem_cons_self
  unfold Timers.runTask at hs
  simp only at hs
  split at hs
  · cases hs
  · rename_i task ha
    have htask : s.Entered task.id task := by
      obtain ⟨task', ha', hl⟩ := ht.entered a hheld
      rw [ha] at ha'
      cases ha'
      exact ⟨a, hl, ha⟩
    split at hs
    · rename_i hc
      split at hs
      · rename_i hr
        cases hs
        refine h.invoke rfl htask hc (fun id t' ht' => ⟨ht', ?_⟩)
        rintro rfl
        obtain ⟨b, hl, hb⟩ := ht'
        obtain ⟨b', hl', hb'⟩ := htask
        cases hl.symm.trans hl'
        cases hb.symm.trans hb'
        exact hr
      · cases hs
        refine h.invoke rfl htask hc (fun id t' ht' => ?_)
        obtain ⟨hne, ht'⟩ := entered_delete ht'
        exact ⟨ht', fun e => absurd e hne⟩
    · cases hs
      exact h.of_same rfl (fun id t' ht' => (entered_delete ht').2)

theorem step {a : Act} (h : Logged s) (ht : Tabled s) (hg : FreshIds s a) (hs : Timers.step s a = some s') :
    Logged s' := by
  cases a with
  | add addr id now afterMs repeate =>
    simp only [Timers.step] at hs
    split at hs <;> cases hs
    rename_i hb
    exact h.add rfl hg (fun id' t ht' => entered_add ht hb.2 ht')
  | cancel id =>
    simp only [Timers.step] at hs
    split at hs
    · have hent := fun id' t ht' => @entered_cancel _ _ id id' t hs ht'
      refine h.cancel ?_ hent
      unfold runCancelTimerTask at hs
      split at hs
      · cases hs; rfl
      · split at hs <;> cases hs
        rfl
    · cases hs
  | trigger now =>
    simp only [Timers.step] at hs
    split at hs <;> cases hs
    exact h.of_same rfl (fun _ _ ht' => ht')
  | step t =>
    simp only [Timers.step] at hs
    split at hs
    · cases hs
    · cases hs
    · cases hs
      unfold nextBucket
      split
      · exact h.of_same rfl (fun _ _ ht' => ht')
      · split
        · exact h.of_same rfl (fun _ _ ht' => ht')
        · exact h.of_same rfl (fun _ _ ht' => ht')
    · cases hs
      exact h.of_same rfl (fun _ _ ht' => ht')
    · rename_i now key a todo hpc
      exact h.runTask ht hpc hs

theorem added_of_lookup (h : Logged s) (ht : Tabled s) (id : Nat) (hl : (s.timerTasks.lookup id).isSome) :
    ∃ r, .added id r ∈ s.log := by
  obtain ⟨a, hl⟩ := Option.isSome_iff_exists.1 hl
  obtain ⟨-, t, hta, -⟩ := ht.queued id a hl
  exact ⟨t.repeate, h.added id t ⟨a, hl, hta⟩⟩

end Logged

/-! ## The order of a call -/

/-- The keys still to come in a call: that of the bucket taken out, and those queued. -/
def ahead (s : Timers) : List Nat :=
  match s.pc with
  | .bucket _ key _ => key :: keys s.timerTaskQueue
  | _ => keys s.timerTaskQueue

/-- **Within a call no key is below one that is past**, and a bucket is taken out only when it is due. -/
structure Ordered (s : Timers) : Prop where
  numbered : ∀ n now id key, .invoked n now id key ∈ s.log → n ≤ s.calls
  due : ∀ n now id key, .invoked n now id key ∈ s.log → key ≤ now
  clocked : ∀ now, s.pc = .loop now → now ≤ s.clock
  bucket : ∀ now key todo, s.pc = .bucket now key todo →
    key ≤ now ∧ now ≤ s.clock ∧ ∀ k ∈ keys s.timerTaskQueue, key ≤ k
  past : s.pc.between = false → ∀ now id key, .invoked s.calls now id key ∈ s.log → ∀ k ∈ s.ahead, key ≤ k
  order : ∀ n now id key now' id' key', [.invoked n now id key, .invoked n now' id' key'].Sublist s.log → key ≤ key'
  answers : ∀ now res, s.pc = .returned now res → Answers s now res

namespace Ordered

theorem start : Ordered start where
  numbered _ _ _ _ h := absurd h List.not_mem_nil
  due _ _ _ _ h := absurd h List.not_mem_nil
  clocked _ h := by cases h
  bucket _ _ _ h := by cases h
  past h := by cases h
  order _ _ _ _ _ _ _ h := absurd (mem_of_pair h).1 List.not_mem_nil
  answers _ _ h := by cases h

theorem of_closure {e : TimerEvent} (h : Ordered s) (hpc : s'.pc = .idle) (hcalls : s'.calls = s.calls)
    (hlog : s'.log = s.log ++ [e]) (he : ∀ n now id key, e ≠ .invoked n now id key) : Ordered s' := by
  have hmem : ∀ {n now id key}, .invoked n now id key ∈ s'.log → .invoked n now id key ∈ s.log :=
    fun hm => mem_of_concat (hlog ▸ hm) (he _ _ _ _).symm
  refine ⟨fun n now id key hm => ?_, fun n now id key hm => h.due n now id key (hmem hm), ?_, ?_, ?_,
    fun n now id key now' id' key' hm => ?_, ?_⟩
  · rw [hcalls]
    exact h.numbered n now id key (hmem hm)
  · rw [hpc]
    intro now h'
    cases h'
  · rw [hpc]
    intro now key todo h'
    cases h'
  · rw [hpc]
    intro h'
    cases h'
  · rw [hlog] at hm
    rcases pair_concat hm with hp | ⟨h', -⟩
    · exact h.order n now id key now' id' key' hp
    · exact absurd h'.symm (he n now' id' key')
  · rw [hpc]
    intro now res h'
    cases h'

theorem trigger {now : Nat} (h : Ordered s) :
    Ordered { s with clock := now, pc := .loop now, calls := s.calls + 1 } where
  numbered n now id key hm := (h.numbered n now id key hm).trans (Nat.le_succ _)
  due := h.due
  clocked _ h' := by cases h'; exact le_refl _
  bucket _ _ _ h' := by cases h'
  past _ now id key hm := absurd (h.numbered _ now id key hm) (Nat.not_succ_le_self _)
  order := h.order
  answers _ _ h' := by cases h'

theorem nextBucket {now : Nat} (h : Ordered s) (hsort : Sorted s.timerTaskQueue) (hpc : s.pc = .loop now) :
    Ordered (s.nextBucket now) := by
  have hpast := h.past (by rw [hpc]; rfl)
  unfold ahead at hpast
  rw [hpc] at hpast
  unfold Timers.nextBucket
  split
  · rename_i hq
    refine ⟨h.numbered, h.due, (fun _ h' => by cases h'), (fun _ _ _ h' => by cases h'), (fun h' => by cases h'), h.order,
      fun now' res h' => ?_⟩
    cases h'
    refine ⟨?_, ⟨fun _ => hq, fun _ => rfl⟩, ?_⟩ <;> rw [hq] <;> intro k hk <;> cases hk
  · rename_i key tasks queue hq
    rw [hq] at hsort hpast
    split
    · rename_i hlt
      refine ⟨h.numbered, h.due, (fun _ h' => by cases h'), (fun _ _ _ h' => by cases h'), (fun h' => by cases h'), h.order,
        fun now' res h' => ?_⟩
      cases h'
      refine ⟨fun k hk => ?_, ⟨fun he => ?_, fun he => ?_⟩, fun k hk hle => ?_⟩
      · have hk : k ∈ keys s.timerTaskQueue := hk
        rw [hq] at hk
        exact Nat.lt_of_lt_of_le hlt (hsort.head_le hk)
      · omega
      · have he : s.timerTaskQueue = [] := he
        rw [hq] at he
        cases he
      · have hk : k ∈ keys s.timerTaskQueue := hk
        have hle : ∀ k' ∈ keys s.timerTaskQueue, k ≤ k' := hle
        rw [hq] at hk hle
        rw [le_antisymm (hle key List.mem_cons_self) (hsort.head_le hk)]
    · rename_i hle
      refine ⟨h.numbered, h.due, (fun _ h' => by cases h'), fun now' key' todo h' => ?_, fun _ => hpast, h.order,
        (fun _ _ h' => by cases h')⟩
      cases h'
      exact ⟨not_lt.1 hle, h.clocked now hpc, fun k hk => hsort.head_le (List.mem_cons_of_mem _ hk)⟩

theorem endBucket {now key : Nat} (h : Ordered s) (hpc : s.pc = .bucket now key []) :
    Ordered { s with pc := .loop now } := by
  have hpast := h.past (by rw [hpc]; rfl)
  unfold ahead at hpast
  rw [hpc] at hpast
  refine ⟨h.numbered, h.due, fun now' h' => ?_, (fun _ _ _ h' => by cases h'), ?_, h.order, (fun _ _ h' => by cases h')⟩
  · cases h'
    exact (h.bucket now key [] hpc).2.1
  · intro _ now' id key' hm k hk
    exact hpast now' id key' hm k (List.mem_cons_of_mem _ hk)

theorem of_round {now key : Nat} {todo todo' : List Nat} (h : Ordered s) (hpc : s.pc = .bucket now key todo)
    (hpc' : s'.pc = .bucket now key todo') (hcalls : s'.calls = s.calls) (hclock : s.clock ≤ s'.clock)
    (hlog : s'.log = s.log ∨ ∃ id, s'.log = s.log ++ [.invoked s.calls now id key])
    (hkeys : ∀ k ∈ keys s'.timerTaskQueue, k ∈ keys s.timerTaskQueue ∨ s.clock ≤ k) : Ordered s' := by
  obtain ⟨hkey, hnow, hqueue⟩ := h.bucket now key todo hpc
  have hpast := h.past (by rw [hpc]; rfl)
  unfold ahead at hpast
  rw [hpc] at hpast
  have hmem : ∀ {n now' id' key'}, .invoked n now' id' key' ∈ s'.log →
      .invoked n now' id' key' ∈ s.log ∨ (n = s.calls ∧ now' = now ∧ key' = key) := by
    intro n now' id' key' hm
    rcases hlog with hlog | ⟨id, hlog⟩ <;> rw [hlog] at hm
    · exact .inl hm
    · rw [List.mem_append, List.mem_singleton] at hm
      refine hm.imp_right (fun he => ?_)
      cases he
      exact ⟨rfl, rfl, rfl⟩
  have hqueue' : ∀ k ∈ keys s'.timerTaskQueue, key ≤ k := by
    intro k hk
    rcases hkeys k hk with hk | hk
    · exact hqueue k hk
    · exact (hkey.trans hnow).trans hk
  refine ⟨fun n now' id' key' hm => ?_, fun n now' id' key' hm => ?_, ?_, ?_, fun _ now' id' key' hm k hk => ?_,
    fun n now₁ id₁ key₁ now₂ id₂ key₂ hm => ?_, ?_⟩
  · rw [hcalls]
    rcases hmem hm with hm | ⟨rfl, -⟩
    · exact h.numbered n now' id' key' hm
    · exact le_refl _
  · rcases hmem hm with hm | ⟨-, rfl, rfl⟩
    · exact h.due n now' id' key' hm
    · exact hkey
  · rw [hpc']
    intro now' h'
    cases h'
  · rw [hpc']
    intro now' key' todo'' h'
    cases h'
    exact ⟨hkey, hnow.trans hclock, hqueue'⟩
  · have hle : key ≤ k := by
      unfold ahead at hk
      rw [hpc'] at hk
      rcases List.mem_cons.1 hk with rfl | hk
      · exact le_refl _
      · exact hqueue' k hk
    rw [hcalls] at hm
    rcases hmem hm with hm | ⟨-, -, rfl⟩
    · exact (hpast now' id' key' hm key List.mem_cons_self).trans hle
    · exact hle
  · rcases hlog with hlog | ⟨id, hlog⟩ <;> rw [hlog] at hm
    · exact h.order n now₁ id₁ key₁ now₂ id₂ key₂ hm
    · rcases pair_concat hm with hp | ⟨he, hp⟩
      · exact h.order n now₁ id₁ key₁ now₂ id₂ key₂ hp
      · cases he
        exact hpast now₁ id₁ key₁ hp key List.mem_cons_self
  · rw [hpc']
    intro now' res h'
    cases h'

theorem runTask {now key t a : Nat} {todo : List Nat} (h : Ordered s) (hpc : s.pc = .bucket now key (a :: todo))
    (hg : Proper s (.step t)) (hs : s.runTask now key t a todo = some s') : Ordered s' := by
  unfold Timers.runTask at hs
  simp only at hs
  split at hs
  · cases hs
  · rename_i task ha
    split at hs
    · rename_i hcanceled
      split at hs
      · rename_i hrepeate
        cases hs
        refine h.of_round hpc rfl rfl hg.1 (.inr ⟨task.id, rfl⟩) (fun k hk => ?_)
        rcases mem_keys_push.1 hk with rfl | hk
        · have hlt := hg.2 a (by rw [hpc]; exact rfl) task ha hcanceled hrepeate
          refine .inr ?_
          unfold addU64
          rw [Nat.mod_eq_of_lt hlt]
          exact hg.1.trans (Nat.le_add_right t _)
        · exact .inl hk
      · cases hs
        exact h.of_round hpc rfl rfl (le_refl _) (.inr ⟨task.id, rfl⟩) (fun k hk => .inl hk)
    · cases hs
      exact h.of_round hpc rfl rfl (le_refl _) (.inl rfl) (fun k hk => .inl hk)

theorem step {a : Act} (h : Ordered s) (ht : Tabled s) (hg : Proper s a) (hs : Timers.step s a = some s') :
    Ordered s' := by
  cases a with
  | add addr id now afterMs repeate =>
    simp only [Timers.step] at hs
    split at hs <;> cases hs
    exact h.of_closure rfl rfl rfl (by simp)
  | cancel id =>
    simp only [Timers.step] at hs
    split at hs
    · unfold runCancelTimerTask at hs
      split at hs
      · cases hs
        exact h.of_closure rfl rfl rfl (by simp)
      · split at hs <;> cases hs
        exact h.of_closure rfl rfl rfl (by simp)
    · cases hs
  | trigger now =>
    simp only [Timers.step] at hs
    split at hs <;> cases hs
    exact h.trigger
  | step t =>
    simp only [Timers.step] at hs
    split at hs
    · cases hs
    · cases hs
    · rename_i now hpc
      cases hs
      exact h.nextBucket ht.sorted hpc
    · rename_i now key hpc
      cases hs
      exact h.endBucket hpc
    · rename_i now key a todo hpc
      exact h.runTask hpc hg hs

end Ordered

theorem tables_reach (h : Reach step FreshIds start s) : Tabled s ∧ Logged s := by
  refine h.invariant (I := fun s => Tabled s ∧ Logged s) ⟨.start, .start⟩ (fun s a s' _ hi hg hs => ?_)
  obtain ⟨ht, hl⟩ := hi
  exact ⟨ht.step hg (hl.added_of_lookup ht) hs, hl.step ht hg hs⟩

theorem reach_inv (h : Reach step Proper start s) : Tabled s ∧ Logged s ∧ Ordered s := by
  have ho : Ordered s := h.invariant .start (fun s a s' hr ho hg hs =>
    ho.step (tables_reach (hr.mono (fun _ _ hg => hg.freshIds))).1 hg hs)
  obtain ⟨ht, hl⟩ := tables_reach (h.mono (fun _ _ hg => hg.freshIds))
  exact ⟨ht, hl, ho⟩

/-- **The timer tables stay consistent and the timers fire correctly**: between the closures and the calls of
`TriggerExpiredTimerTasks` both maps hold the same tasks, no task is invoked before it is due, after it was canceled, or
twice if it does not repeat, each call goes by increasing keys, and what it answers is the time to the next task. -/
theorem timers_consistent (s : Timers) (h : Reach step Proper start s) : Consistent s := by
  obtain ⟨ht, hl, ho⟩ := reach_inv h
  refine ⟨fun hb => ?_, fun a ha => ?_, ho.due, hl.canceled, hl.once, ho.order, ho.answers⟩
  · have hheld : s.held = items s.timerTaskQueue := by unfold held; rw [todo_of_between hb, List.append_nil]
    have hnd := ht.nodup
    have hent := ht.entered
    have hq := ht.queued
    rw [hheld] at hnd hent hq
    refine ⟨hnd, fun a => ⟨fun ha => ?_, ?_⟩, fun id a hl => (hq id a hl).2⟩
    · obtain ⟨t, -, hl⟩ := hent a ha
      exact ⟨t.id, hl⟩
    · rintro ⟨id, hl⟩
      exact (hq id a hl).1
  · obtain ⟨t, hta, -⟩ := ht.entered a (List.mem_append_right _ ha)
    rw [hta]
    rfl

/-- A task that repeats is put back until it is canceled, and one that does not is deleted. -/
theorem timers_consistent_repeating : ∃ s, Machine.exec step Proper start
    [.add 0 7 100 10 true, .add 1 8 105 5 false, .trigger 110, .step 110, .step 112, .step 112, .step 112, .step 112,
      .cancel 7, .trigger 122, .step 122, .step 122, .step 122, .step 122] = some s ∧
    s.log = [.added 7 true, .added 8 false, .invoked 1 110 7 110, .invoked 1 110 8 110, .canceled 7] ∧
    s.pc = .returned 122 0 ∧ Consistent s :=
  ⟨_, rfl, rfl, rfl, timers_consistent _ (Machine.reach_of_exec _ _ [.add 0 7 100 10 true, .add 1 8 105 5 false,
    .trigger 110, .step 110, .step 112, .step 112, .step 112, .step 112, .cancel 7, .trigger 122, .step 122, .step 122,
    .step 122, .step 122] _ rfl)⟩

/-- **A closure of `CancelTimerTask` that runs first is lost**: it finds no task, and the task added later with its id
is invoked. -/
theorem early_cancel_lost : ∃ s, Machine.exec step Proper start
    [.cancel 7, .add 0 7 100 10 false, .trigger 110, .step 110, .step 110] = some s ∧ ¬ NeverAfterCancel s := by
  refine ⟨_, rfl, fun h => h 1 110 7 110 ?_⟩
  decide

end Timers
end Shm
