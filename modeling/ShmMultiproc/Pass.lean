import ShmMultiproc.Timers
/-!
# Pass — one call of `TriggerExpiredTimerTasks`

The loop ends at the first key above the reading at entry, but a task is put back at the sum of a later reading and its
interval, and nothing says that this is above it.  Where it is not, the task is due again in the same call.
`fires_once_iff` is the exact condition, for every table and every sequence of readings: every task put back lands above
the reading at entry.  Then the call ends, after as many steps as there are tasks and buckets due.
-/
namespace Shm

open Machine (Reach)
open Buckets (items push upTo mem_items_upTo mem_upTo_push upTo_push_of_lt upTo_cons_of_le)

/-- The call invokes the task and puts it back. -/
def TimerTask.again (task : TimerTask) : Bool := !task.canceled && task.repeate

theorem TimerTask.again_iff (task : TimerTask) : task.again = true ↔ task.canceled = false ∧ task.repeate = true := by
  unfold again
  rw [Bool.and_eq_true, Bool.not_eq_true']

def TimerEvent.ran : TimerEvent → Option Nat
  | .invoked _ _ id _ => some id
  | .added _ _ | .canceled _ => none

def TriggerPc.busy (now : Nat) : TriggerPc → Prop
  | .loop n | .bucket n _ _ => n = now
  | .idle | .returned _ _ => False

namespace Timers

/-- The next step reads the clock. -/
def asks (s : Timers) : Bool :=
  match s.pc.todo.head? with
  | none => false
  | some a => (s.heap a).any TimerTask.again

/-- A step of the call, and the number of readings it has used; they are `τ 0`, `τ 1` and so on. -/
def next (τ : Nat → Nat) (x : Timers × Nat) : Timers × Nat :=
  match step x.1 (.step (τ x.2)) with
  | none => x
  | some s => (s, if x.1.asks = true then x.2 + 1 else x.2)

/-- **The call whose reading at entry is `now`**, after `n` steps. -/
def call (τ : Nat → Nat) (now : Nat) (s : Timers) : Nat → Timers × Nat
  | 0 => ({ s with clock := now, pc := .loop now, calls := s.calls + 1 }, 0)
  | n + 1 => next τ (call τ now s n)

def fired (s₀ s : Timers) : List Nat := (s.log.drop s₀.log.length).filterMap TimerEvent.ran

/-- **The call fires each task at most once and ends.** -/
structure FiresOnce (τ : Nat → Nat) (now : Nat) (s : Timers) : Prop where
  ends : ∃ n res, (call τ now s n).1.pc = .returned now res
  once : ∀ n, (fired s (call τ now s n).1).Nodup

/-- The addresses of the tasks due at `now`, in the order in which the call comes to them. -/
def pending (s : Timers) (now : Nat) : List Nat := s.pc.todo ++ items (upTo now s.timerTaskQueue)

def putsBack (s : Timers) (l : List Nat) : List TimerTask := (l.filterMap s.heap).filter TimerTask.again

/-- **Every task put back lands above the reading at entry.** -/
def Lands (τ : Nat → Nat) (now : Nat) (s : Timers) : Prop :=
  ∀ i task, (s.putsBack (s.pending now))[i]? = some task → now < addU64 (τ i) task.afterMs

/-! ## One step -/

variable {s s' s₀ : Timers} {τ : Nat → Nat} {now key t a : Nat} {todo : List Nat} {task : TimerTask}

/-- **What a round of the loop over a bucket does** to the task at its head. -/
structure Round (s : Timers) (now key t a : Nat) (todo : List Nat) (task : TimerTask) (s' : Timers) : Prop where
  pc : s'.pc = .bucket now key todo
  log : s'.log = s.log ++ if task.canceled = true then [] else [.invoked s.calls now task.id key]
  kept : task.again = true → s'.heap = s.heap ∧ s'.timerTaskQueue = push (addU64 t task.afterMs) a s.timerTaskQueue
  gone : task.again = false → s'.heap = Function.update s.heap a none ∧ s'.timerTaskQueue = s.timerTaskQueue

theorem round (t : Nat) (hpc : s.pc = .bucket now key (a :: todo)) (ha : s.heap a = some task) :
    ∃ s', step s (.step t) = some s' ∧ Round s now key t a todo task s' := by
  have hs : step s (.step t) = s.runTask now key t a todo := by simp only [step, hpc]
  rw [hs]
  unfold runTask
  simp only [ha]
  cases hc : task.canceled
  · cases hr : task.repeate
    · exact ⟨_, rfl, rfl, by rw [hc]; rfl, (fun h => by simp [TimerTask.again, hr] at h), fun _ => ⟨rfl, rfl⟩⟩
    · exact ⟨_, rfl, rfl, by rw [hc]; rfl, fun _ => ⟨rfl, rfl⟩, (fun h => by simp [TimerTask.again, hc, hr] at h)⟩
  · exact ⟨_, rfl, rfl, by rw [hc]; exact (List.append_nil _).symm, (fun h => by simp [TimerTask.again, hc] at h),
      fun _ => ⟨rfl, rfl⟩⟩

/-- The steps that are left of a call that puts nothing back at `now` or before. -/
def remaining (s : Timers) (now : Nat) : Nat :=
  match s.pc with
  | .loop _ => 2 * (upTo now s.timerTaskQueue).length + (s.pending now).length + 1
  | .bucket _ _ _ => 2 * (upTo now s.timerTaskQueue).length + (s.pending now).length + 2
  | .idle | .returned _ _ => 0

/-- **A step that looks at no task**: the test of the loop, or the end of a bucket. -/
structure Quiet (s : Timers) (now : Nat) (s' : Timers) : Prop where
  heap : s'.heap = s.heap
  log : s'.log = s.log
  pending : s'.pending now = s.pending now
  asks : s.asks = false
  todo : s.pc.todo = []
  pc : s'.pc.busy now ∨ ((∃ res, s'.pc = .returned now res) ∧ s.pending now = [])
  remaining : s.remaining now = s'.remaining now + 1

theorem quiet_nextBucket (h : Tabled s) (hpc : s.pc = .loop now) : Quiet s now (s.nextBucket now) := by
  have hsort := h.sorted
  have htodo : s.pc.todo = [] := by rw [hpc]; rfl
  have hasks : s.asks = false := by unfold asks; rw [htodo]; rfl
  have hrem : s.remaining now = 2 * (upTo now s.timerTaskQueue).length + (s.pending now).length + 1 := by
    unfold remaining; rw [hpc]
  have hpend : s.pending now = items (upTo now s.timerTaskQueue) := by
    unfold pending; rw [htodo]; rfl
  unfold nextBucket
  split
  · rename_i hq
    rw [hq] at hpend hrem
    exact ⟨rfl, rfl, hpend.symm ▸ by rw [← hq]; rfl, hasks, htodo, .inr ⟨⟨0, rfl⟩, hpend⟩, by rw [hrem, hpend]; rfl⟩
  · rename_i key tasks queue hq
    rw [hq] at hsort
    by_cases hlt : now < key
    · have hnil : upTo now s.timerTaskQueue = [] := by rw [hq]; exact hsort.upTo_eq_nil hlt
      rw [hnil] at hpend hrem
      rw [if_pos hlt]
      refine ⟨rfl, rfl, ?_, hasks, htodo, .inr ⟨⟨key - now, rfl⟩, hpend⟩, by rw [hrem, hpend]; rfl⟩
      rw [hpend]
      unfold pending
      rw [hnil]
      rfl
    · have hcons : upTo now s.timerTaskQueue = (key, tasks) :: upTo now queue := by
        rw [hq]
        exact upTo_cons_of_le queue (not_lt.1 hlt)
      rw [hcons] at hpend hrem
      rw [if_neg hlt]
      refine ⟨rfl, rfl, hpend.symm, hasks, htodo, .inl rfl, ?_⟩
      show s.remaining now = 2 * (upTo now queue).length + (tasks ++ items (upTo now queue)).length + 2 + 1
      rw [hrem, hpend, Buckets.items_cons, List.length_cons]
      dsimp only
      omega

/-- **The inversion of a step of a call.** -/
theorem call_cases (h : Tabled s) (hb : s.pc.busy now) (t : Nat) : ∃ s', step s (.step t) = some s' ∧ Tabled s' ∧
    (Quiet s now s' ∨ ∃ key a todo task, s.pc = .bucket now key (a :: todo) ∧ s.heap a = some task ∧
      Round s now key t a todo task s') := by
  cases hpc : s.pc with
  | idle | returned n res => rw [hpc] at hb; exact hb.elim
  | loop n =>
    rw [hpc] at hb
    cases hb
    have hs : step s (.step t) = some (s.nextBucket now) := by simp only [step, hpc]
    exact ⟨_, hs, h.ofStep hs, .inl (quiet_nextBucket h hpc)⟩
  | bucket n key tasks =>
    rw [hpc] at hb
    cases hb
    cases tasks with
    | nil =>
      have hs : step s (.step t) = some { s with pc := .loop now } := by simp only [step, hpc]
      have htodo : s.pc.todo = [] := by rw [hpc]; rfl
      have hpend : ({ s with pc := .loop now } : Timers).pending now = s.pending now := by
        unfold pending
        rw [htodo]
        rfl
      refine ⟨_, hs, h.ofStep hs, .inl ⟨rfl, rfl, hpend, ?_, htodo, .inl rfl, ?_⟩⟩
      · unfold asks
        rw [htodo]
        rfl
      · unfold remaining
        rw [hpc, hpend]
    | cons a todo =>
      have hheld : a ∈ s.held := by
        unfold held
        rw [hpc]
        exact List.mem_append_right _ List.mem_cons_self
      obtain ⟨task, ha, -⟩ := h.entered a hheld
      obtain ⟨s', hs, hround⟩ := round t hpc ha
      exact ⟨s', hs, h.ofStep hs, .inr ⟨key, a, todo, task, rfl, ha, hround⟩⟩

/-! ## The tasks still to come -/

theorem mem_held_of_pending (ha : a ∈ s.pending now) : a ∈ s.held := by
  unfold held
  rcases List.mem_append.1 ha with ha | ha
  · exact List.mem_append_right _ ha
  · obtain ⟨e, he, -, hx⟩ := mem_items_upTo.1 ha
    exact List.mem_append_left _ (List.mem_flatMap.2 ⟨e, he, hx⟩)

theorem Tabled.id_inj (h : Tabled s) {b : Nat} {task' : TimerTask} (ha : a ∈ s.held) (hb : b ∈ s.held)
    (hta : s.heap a = some task) (htb : s.heap b = some task') (hid : task.id = task'.id) : a = b := by
  obtain ⟨t₁, h₁, hl₁⟩ := h.entered a ha
  obtain ⟨t₂, h₂, hl₂⟩ := h.entered b hb
  cases hta.symm.trans h₁
  cases htb.symm.trans h₂
  rw [hid, hl₂] at hl₁
  exact (Option.some.inj hl₁).symm

theorem Tabled.pending_head (h : Tabled s) (hpc : s.pc = .bucket now key (a :: todo)) :
    s.pending now = a :: (todo ++ items (upTo now s.timerTaskQueue)) ∧
      a ∉ todo ++ items (upTo now s.timerTaskQueue) := by
  have hheld : s.held = items s.timerTaskQueue ++ a :: todo := by unfold held; rw [hpc]; rfl
  have hnd := h.nodup
  rw [hheld] at hnd
  obtain ⟨hnot, -⟩ := List.nodup_cons.1 (List.perm_middle.nodup_iff.1 hnd)
  refine ⟨by unfold pending; rw [hpc]; rfl, fun hm => hnot ?_⟩
  rcases List.mem_append.1 hm with hm | hm
  · exact List.mem_append_right _ hm
  · obtain ⟨e, he, -, hx⟩ := mem_items_upTo.1 hm
    exact List.mem_append_left _ (List.mem_flatMap.2 ⟨e, he, hx⟩)

theorem fired_append {E : List TimerEvent} (hlen : s₀.log.length ≤ s.log.length) (hlog : s'.log = s.log ++ E) :
    fired s₀ s' = fired s₀ s ++ E.filterMap TimerEvent.ran := by
  unfold fired
  rw [hlog, List.drop_append_of_le_length hlen, List.filterMap_append]

namespace Round

theorem heap_eq (hr : Round s now key t a todo task s') {b : Nat} (hb : b ≠ a) : s'.heap b = s.heap b := by
  cases hg : task.again with
  | true => rw [(hr.kept hg).1]
  | false => rw [(hr.gone hg).1, Function.update_of_ne hb]

theorem pending_eq (hr : Round s now key t a todo task s') :
    s'.pending now = todo ++ items (upTo now s'.timerTaskQueue) := by
  unfold pending
  rw [hr.pc]
  rfl

theorem mem_pending (hr : Round s now key t a todo task s') {b : Nat}
    (hb : b ∈ todo ++ items (upTo now s.timerTaskQueue)) : b ∈ s'.pending now := by
  rw [hr.pending_eq]
  cases hg : task.again with
  | true =>
    rw [(hr.kept hg).2]
    exact (List.mem_append.1 hb).elim (List.mem_append_left _) (fun h => List.mem_append_right _ (mem_upTo_push (.inl h)))
  | false =>
    rw [(hr.gone hg).2]
    exact hb

theorem upTo_eq (hr : Round s now key t a todo task s') (hlands : task.again = true → now < addU64 t task.afterMs) :
    upTo now s'.timerTaskQueue = upTo now s.timerTaskQueue := by
  cases hg : task.again with
  | true => rw [(hr.kept hg).2, upTo_push_of_lt (hlands hg)]
  | false => rw [(hr.gone hg).2]

theorem mem_pending_self (hr : Round s now key t a todo task s') (hg : task.again = true)
    (hle : addU64 t task.afterMs ≤ now) : a ∈ s'.pending now := by
  rw [hr.pending_eq, (hr.kept hg).2]
  exact List.mem_append_right _ (mem_upTo_push (.inr ⟨rfl, hle⟩))

theorem fired_eq (hr : Round s now key t a todo task s') (hlen : s₀.log.length ≤ s.log.length) :
    fired s₀ s' = fired s₀ s ++ if task.canceled = true then [] else [task.id] := by
  rw [fired_append hlen hr.log]
  cases task.canceled <;> rfl

theorem len_le (hr : Round s now key t a todo task s') : s.log.length ≤ s'.log.length := by
  rw [hr.log, List.length_append]
  exact Nat.le_add_right _ _

end Round

theorem asks_eq (hpc : s.pc = .bucket now key (a :: todo)) (ha : s.heap a = some task) : s.asks = task.again := by
  unfold asks
  rw [hpc]
  simp only [TriggerPc.todo, List.head?_cons, ha, Option.any_some]

theorem putsBack_cons (ha : s.heap a = some task) (l : List Nat) :
    s.putsBack (a :: l) = if task.again = true then task :: s.putsBack l else s.putsBack l := by
  unfold putsBack
  rw [List.filterMap_cons_some ha]
  by_cases hg : task.again = true
  · rw [if_pos hg, List.filter_cons_of_pos hg]
  · rw [if_neg hg, List.filter_cons_of_neg hg]

theorem putsBack_congr {l : List Nat} (h : ∀ b ∈ l, s'.heap b = s.heap b) : s'.putsBack l = s.putsBack l := by
  unfold putsBack
  rw [List.filterMap_congr h]

/-! ## Calls so far -/

/-- **The call has fired each task once so far**, and has put back above the reading at entry all that it has put
back. -/
structure Good (τ : Nat → Nat) (now : Nat) (s₀ : Timers) (x : Timers × Nat) : Prop where
  tabled : Tabled x.1
  len : s₀.log.length ≤ x.1.log.length
  pc : x.1.pc.busy now ∨ ((∃ res, x.1.pc = .returned now res) ∧ x.1.pending now = [])
  once : (fired s₀ x.1).Nodup
  ahead : ∀ a ∈ x.1.pending now, ∀ task, x.1.heap a = some task → task.id ∉ fired s₀ x.1
  left : (s₀.putsBack (s₀.pending now)).drop x.2 = x.1.putsBack (x.1.pending now)
  landed : ∀ i < x.2, ∀ task, (s₀.putsBack (s₀.pending now))[i]? = some task → now < addU64 (τ i) task.afterMs

/-- **The call has fired a task twice**, or has one to come that it has fired. -/
structure Bad (now : Nat) (s₀ : Timers) (x : Timers × Nat) : Prop where
  tabled : Tabled x.1
  len : s₀.log.length ≤ x.1.log.length
  again : (x.1.pc.busy now ∧ ∃ a ∈ x.1.pending now, ∃ task, x.1.heap a = some task ∧ task.canceled = false ∧
    task.id ∈ fired s₀ x.1) ∨ ¬ (fired s₀ x.1).Nodup

theorem Good.quiet {i : Nat} (h : Good τ now s₀ (s, i)) (ht : Tabled s') (hq : Quiet s now s') :
    Good τ now s₀ (s', i) := by
  have hf : fired s₀ s' = fired s₀ s := by unfold fired; rw [hq.log]
  refine ⟨ht, ?_, ?_, ?_, fun a ha task hta => ?_, ?_, h.landed⟩
  · show s₀.log.length ≤ s'.log.length
    rw [hq.log]
    exact h.len
  · exact hq.pc.imp_right (fun hr => ⟨hr.1, hq.pending.trans hr.2⟩)
  · show (fired s₀ s').Nodup
    rw [hf]
    exact h.once
  · show task.id ∉ fired s₀ s'
    have ha : a ∈ s'.pending now := ha
    have hta : s'.heap a = some task := hta
    rw [hq.pending] at ha
    rw [hq.heap] at hta
    rw [hf]
    exact h.ahead a ha task hta
  · show _ = s'.putsBack (s'.pending now)
    rw [hq.pending, putsBack_congr (fun b _ => congrFun hq.heap b)]
    exact h.left

def used (task : TimerTask) (i : Nat) : Nat := if task.again = true then i + 1 else i

theorem Good.round {i : Nat} (h : Good τ now s₀ (s, i)) (ht : Tabled s') (hpc : s.pc = .bucket now key (a :: todo))
    (ha : s.heap a = some task) (hr : Round s now key (τ i) a todo task s')
    (hlands : task.again = true → now < addU64 (τ i) task.afterMs) : Good τ now s₀ (s', used task i) := by
  obtain ⟨hpend, hnot⟩ := h.tabled.pending_head hpc
  have hpend' : s'.pending now = todo ++ items (upTo now s.timerTaskQueue) := by
    rw [hr.pending_eq, hr.upTo_eq hlands]
  have hmem : a ∈ s.pending now := by rw [hpend]; exact List.mem_cons_self
  have hfresh : task.id ∉ fired s₀ s := h.ahead a hmem task ha
  have hf := hr.fired_eq h.len
  have hleft : (s₀.putsBack (s₀.pending now)).drop i = s.putsBack (s.pending now) := h.left
  rw [hpend, putsBack_cons ha] at hleft
  refine ⟨ht, h.len.trans hr.len_le, .inl (by rw [hr.pc]; exact rfl), ?_, fun b hb tb htb => ?_, ?_, ?_⟩
  · show (fired s₀ s').Nodup
    rw [hf]
    by_cases hc : task.canceled = true
    · rw [if_pos hc, List.append_nil]
      exact h.once
    · rw [if_neg hc]
      exact List.nodup_append.2 ⟨h.once, List.pairwise_singleton _ _, fun x hx y hy hxy =>
        hfresh (List.mem_singleton.1 hy ▸ hxy ▸ hx)⟩
  · have hb : b ∈ s'.pending now := hb
    have htb : s'.heap b = some tb := htb
    rw [hpend'] at hb
    have hne : b ≠ a := fun e => hnot (e ▸ hb)
    rw [hr.heap_eq hne] at htb
    have hb' : b ∈ s.pending now := by rw [hpend]; exact List.mem_cons_of_mem _ hb
    have hold := h.ahead b hb' tb htb
    show tb.id ∉ fired s₀ s'
    rw [hf]
    intro hm
    rcases List.mem_append.1 hm with hm | hm
    · exact hold hm
    · by_cases hc : task.canceled = true
      · rw [if_pos hc] at hm
        cases hm
      · rw [if_neg hc] at hm
        exact hne (h.tabled.id_inj (mem_held_of_pending hb') (mem_held_of_pending hmem) htb ha (List.mem_singleton.1 hm))
  · show List.drop (used task i) _ = s'.putsBack (s'.pending now)
    rw [hpend', putsBack_congr (fun b hb => hr.heap_eq (fun e => hnot (e ▸ hb)))]
    unfold used
    by_cases hg : task.again = true
    · rw [if_pos hg] at hleft ⊢
      rw [← List.drop_drop, hleft]
      rfl
    · rw [if_neg hg] at hleft ⊢
      exact hleft
  · intro j hj task' htask'
    have hj : j < used task i := hj
    unfold used at hj
    by_cases hg : task.again = true
    · rw [if_pos hg] at hj hleft
      rcases Nat.lt_succ_iff_lt_or_eq.1 hj with hlt | rfl
      · exact h.landed j hlt task' htask'
      · have h0 : ((s₀.putsBack (s₀.pending now)).drop j)[0]? = some task' := by
          rw [List.getElem?_drop]
          exact htask'
        rw [hleft] at h0
        cases h0
        exact hlands hg
    · rw [if_neg hg] at hj
      exact h.landed j hj task' htask'

theorem Good.round_bad {i j : Nat} (h : Good τ now s₀ (s, i)) (ht : Tabled s') (ha : s.heap a = some task)
    (hr : Round s now key (τ i) a todo task s') (hg : task.again = true) (hle : addU64 (τ i) task.afterMs ≤ now) :
    Bad now s₀ (s', j) := by
  have hc : task.canceled = false := by
    unfold TimerTask.again at hg
    simp only [Bool.and_eq_true, Bool.not_eq_true'] at hg
    exact hg.1
  refine ⟨ht, h.len.trans hr.len_le, .inl ⟨by rw [hr.pc]; exact rfl, a, hr.mem_pending_self hg hle, task, ?_, hc, ?_⟩⟩
  · show s'.heap a = some task
    rw [(hr.kept hg).1]
    exact ha
  · show task.id ∈ fired s₀ s'
    rw [hr.fired_eq h.len, hc]
    exact List.mem_append_right _ List.mem_cons_self

/-! ## The whole call -/

variable {x : Timers × Nat}

theorem next_of_step (hs : step x.1 (.step (τ x.2)) = some s') :
    next τ x = (s', if x.1.asks = true then x.2 + 1 else x.2) := by
  unfold next
  rw [hs]

theorem Good.next (h : Good τ now s₀ x) : (Good τ now s₀ (next τ x) ∧
      (x.1.pc.busy now → x.1.remaining now = (Timers.next τ x).1.remaining now + 1)) ∨
    (Bad now s₀ (next τ x) ∧ ∃ task, (s₀.putsBack (s₀.pending now))[x.2]? = some task ∧
      addU64 (τ x.2) task.afterMs ≤ now) := by
  obtain ⟨s, i⟩ := x
  rcases h.pc with hb | ⟨⟨res, hres⟩, -⟩
  · obtain ⟨s', hs, ht, hq | ⟨key, a, todo, task, hpc, ha, hr⟩⟩ := call_cases h.tabled hb (τ i)
    · have hnext : Timers.next τ (s, i) = (s', i) := by rw [next_of_step hs, hq.asks]; rfl
      rw [hnext]
      exact .inl ⟨h.quiet ht hq, fun _ => hq.remaining⟩
    · have hpc : s.pc = .bucket now key (a :: todo) := hpc
      have hnext : Timers.next τ (s, i) = (s', used task i) := by
        rw [next_of_step hs, asks_eq hpc ha]
        rfl
      rw [hnext]
      by_cases hlands : task.again = true → now < addU64 (τ i) task.afterMs
      · refine .inl ⟨h.round ht hpc ha hr hlands, fun _ => ?_⟩
        show s.remaining now = s'.remaining now + 1
        unfold remaining
        rw [hpc, hr.pc, hr.pending_eq, hr.upTo_eq hlands, (h.tabled.pending_head hpc).1]
        simp only [List.length_cons]
        omega
      · obtain ⟨hg, hle⟩ := Classical.not_imp.1 hlands
        have hle := Nat.not_lt.1 hle
        refine .inr ⟨h.round_bad ht ha hr hg hle, task, ?_, hle⟩
        have hleft : (s₀.putsBack (s₀.pending now)).drop i = s.putsBack (s.pending now) := h.left
        rw [(h.tabled.pending_head hpc).1, putsBack_cons ha, if_pos hg] at hleft
        have h0 : ((s₀.putsBack (s₀.pending now)).drop i)[0]? = some task := by rw [hleft]; rfl
        rw [List.getElem?_drop] at h0
        exact h0
  · have hs : step s (.step (τ i)) = none := by
      have hres : s.pc = .returned now res := hres
      simp only [step, hres]
    have hnext : Timers.next τ (s, i) = (s, i) := by
      unfold Timers.next
      rw [hs]
    rw [hnext]
    refine .inl ⟨h, fun hb => ?_⟩
    have hres : s.pc = .returned now res := hres
    rw [hres] at hb
    exact hb.elim

theorem log_step (hs : step s (.step t) = some s') : ∃ E, s'.log = s.log ++ E := by
  have hsame : s'.log = s.log → ∃ E, s'.log = s.log ++ E := fun h => ⟨[], by rw [h, List.append_nil]⟩
  simp only [step] at hs
  split at hs
  · cases hs
  · cases hs
  · cases hs
    apply hsame
    unfold nextBucket
    split
    · rfl
    · split <;> rfl
  · cases hs
    exact hsame rfl
  · unfold runTask at hs
    simp only at hs
    split at hs
    · cases hs
    · split at hs
      · split at hs <;> cases hs <;> exact ⟨_, rfl⟩
      · cases hs
        exact hsame rfl

theorem Bad.next (h : Bad now s₀ x) : Bad now s₀ (next τ x) := by
  obtain ⟨s, i⟩ := x
  cases hs : step s (.step (τ i)) with
  | none =>
    have hnext : Timers.next τ (s, i) = (s, i) := by
      unfold Timers.next
      rw [hs]
    rw [hnext]
    exact h
  | some s' =>
    rw [next_of_step (x := (s, i)) hs]
    obtain ⟨E, hlog⟩ := log_step hs
    have hf := fired_append h.len hlog
    have ht : Tabled s' := h.tabled.ofStep hs
    have hlen : s₀.log.length ≤ s'.log.length := by
      rw [hlog, List.length_append]
      exact h.len.trans (Nat.le_add_right _ _)
    refine ⟨ht, hlen, ?_⟩
    show (s'.pc.busy now ∧ ∃ a ∈ s'.pending now, ∃ task, s'.heap a = some task ∧ task.canceled = false ∧
      task.id ∈ fired s₀ s') ∨ ¬ (fired s₀ s').Nodup
    rcases h.again with ⟨hb, b, hbp, tb, htb, hc, hid⟩ | hnd
    · have hbp : b ∈ s.pending now := hbp
      have htb : s.heap b = some tb := htb
      have hid' : tb.id ∈ fired s₀ s' := by rw [hf]; exact List.mem_append_left _ hid
      obtain ⟨s'', hs'', -, hq | ⟨key, a, todo, task, hpc, ha, hr⟩⟩ := call_cases h.tabled hb (τ i)
      · cases hs.symm.trans hs''
        rcases hq.pc with hb' | ⟨-, hnil⟩
        · exact .inl ⟨hb', b, by rw [hq.pending]; exact hbp, tb, by rw [hq.heap]; exact htb, hc, hid'⟩
        · rw [hnil] at hbp
          cases hbp
      · cases hs.symm.trans hs''
        have hpc : s.pc = .bucket now key (a :: todo) := hpc
        by_cases hba : b = a
        · -- the task fires again
          subst hba
          cases htb.symm.trans ha
          refine .inr (fun hnd => ?_)
          rw [hr.fired_eq h.len, hc] at hnd
          exact (List.nodup_append.1 hnd).2.2 tb.id hid tb.id List.mem_cons_self rfl
        · rw [(h.tabled.pending_head hpc).1] at hbp
          exact .inl ⟨by rw [hr.pc]; exact rfl, b, hr.mem_pending ((List.mem_cons.1 hbp).resolve_left hba), tb,
            by rw [hr.heap_eq hba]; exact htb, hc, hid'⟩
    · refine .inr (fun hnd' => hnd ?_)
      rw [hf] at hnd'
      exact (List.nodup_append.1 hnd').1

theorem tabled_zero (h : Tabled s) (hb : s.pc.between = true) : Tabled (call τ now s 0).1 := by
  refine h.of_perm h.sorted (.of_eq ?_) rfl rfl
  unfold held
  rw [todo_of_between hb]
  rfl

theorem pending_zero (hb : s.pc.between = true) : (call τ now s 0).1.pending now = s.pending now := by
  unfold pending
  rw [todo_of_between hb]
  rfl

theorem good_zero (h : Tabled s) (hb : s.pc.between = true) : Good τ now s (call τ now s 0) := by
  have hf : fired s (call τ now s 0).1 = [] := by
    show (s.log.drop s.log.length).filterMap TimerEvent.ran = []
    rw [List.drop_length]
    rfl
  refine ⟨tabled_zero h hb, Nat.le_refl _, .inl rfl, ?_, fun a _ task _ => ?_, ?_,
    fun i hi => absurd hi (Nat.not_lt_zero i)⟩
  · rw [hf]
    exact List.nodup_nil
  · rw [hf]
    exact List.not_mem_nil
  · rw [pending_zero hb]
    rfl

theorem good_or_bad (h : Tabled s) (hb : s.pc.between = true) : ∀ n,
    Good τ now s (call τ now s n) ∨ Bad now s (call τ now s n)
  | 0 => .inl (good_zero h hb)
  | n + 1 => by
    rcases good_or_bad h hb n with hg | hbad
    · rcases hg.next with ⟨hg', -⟩ | ⟨hbad, -⟩
      · exact .inl hg'
      · exact .inr hbad
    · exact .inr hbad.next

theorem FiresOnce.lands (h : Tabled s) (hb : s.pc.between = true) (hf : FiresOnce τ now s) : Lands τ now s := by
  obtain ⟨n, res, hres⟩ := hf.ends
  rcases good_or_bad h hb n with hg | hbad
  · rcases hg.pc with hbusy | ⟨-, hnil⟩
    · rw [hres] at hbusy
      exact hbusy.elim
    · intro i task htask
      have hleft := hg.left
      rw [hnil] at hleft
      have hle : (s.putsBack (s.pending now)).length ≤ (call τ now s n).2 := List.drop_eq_nil_iff.1 hleft
      exact hg.landed i (Nat.lt_of_lt_of_le (List.getElem?_eq_some_iff.1 htask).1 hle) task htask
  · rcases hbad.again with ⟨hbusy, -⟩ | hnd
    · rw [hres] at hbusy
      exact hbusy.elim
    · exact absurd (hf.once n) hnd

theorem Lands.good (h : Tabled s) (hb : s.pc.between = true) (hl : Lands τ now s) : ∀ n,
    Good τ now s (call τ now s n)
  | 0 => good_zero h hb
  | n + 1 => by
    rcases (hl.good h hb n).next with ⟨hg, -⟩ | ⟨-, task, htask, hle⟩
    · exact hg
    · exact absurd (hl _ task htask) (Nat.not_lt.2 hle)

/-- **The call takes as many steps as there are tasks and buckets due.** -/
theorem Lands.steps (h : Tabled s) (hb : s.pc.between = true) (hl : Lands τ now s) : ∀ n m,
    (call τ now s n).1.remaining now = m → ∃ res, (call τ now s (n + m)).1.pc = .returned now res
  | n, 0, hm => by
    rcases (hl.good h hb n).pc with hbusy | ⟨hres, -⟩
    · unfold remaining at hm
      split at hm
      · cases hm
      · cases hm
      · rename_i hpc
        rw [hpc] at hbusy
        exact hbusy.elim
      · rename_i hpc
        rw [hpc] at hbusy
        exact hbusy.elim
    · exact hres
  | n, m + 1, hm => by
    have hg := hl.good h hb n
    have hbusy : (call τ now s n).1.pc.busy now := by
      rcases hg.pc with hbusy | ⟨⟨res, hres⟩, -⟩
      · exact hbusy
      · unfold remaining at hm
        rw [hres] at hm
        cases hm
    rw [Nat.add_comm m 1, ← Nat.add_assoc]
    rcases hg.next with ⟨-, hrem⟩ | ⟨-, task, htask, hle⟩
    · apply hl.steps h hb (n + 1) m
      have := hrem hbusy
      show (Timers.next τ (call τ now s n)).1.remaining now = m
      omega
    · exact absurd (hl _ task htask) (Nat.not_lt.2 hle)

/-- **One pass fires each task at most once and ends exactly when** each task that it puts back lands above its reading
at entry: for every table, between two calls, and every sequence of readings. -/
theorem fires_once_iff (τ : Nat → Nat) (now : Nat) (s : Timers) (h : Reach step FreshIds start s)
    (hb : s.pc.between = true) : FiresOnce τ now s ↔ Lands τ now s := by
  have ht := (tables_reach h).1
  constructor
  · exact FiresOnce.lands ht hb
  · intro hl
    obtain ⟨res, hres⟩ := hl.steps ht hb 0 _ rfl
    exact ⟨⟨_, res, hres⟩, fun n => (hl.good ht hb n).once⟩

theorem lands_of_pos (hτ : ∀ i, now ≤ τ i) (hpos : ∀ task ∈ s.putsBack (s.pending now), 0 < task.afterMs ∧
    ∀ i, τ i + task.afterMs < 2 ^ 64) : Lands τ now s := by
  intro i task htask
  obtain ⟨h0, hlt⟩ := hpos task (List.mem_of_getElem? htask)
  have := hτ i
  unfold addU64
  rw [Nat.mod_eq_of_lt (hlt i)]
  omega

/-- Two tasks of one bucket that repeat, one of them canceled, and one of a later bucket that does not. -/
def threeDue : List Act := [.add 0 7 100 10 true, .add 1 8 100 10 true, .add 2 9 105 5 false, .cancel 8]

theorem fires_once_iff_three : ∃ s, Machine.exec step FreshIds start threeDue = some s ∧ s.pc.between = true ∧
    s.pending 110 = [0, 1, 2] ∧ FiresOnce (fun _ => 112) 110 s := by
  refine ⟨_, rfl, rfl, rfl, ?_⟩
  refine (fires_once_iff (fun _ => 112) 110 _ (Machine.reach_of_exec _ _ threeDue _ rfl) rfl).2 (lands_of_pos ?_ ?_)
  · intro _
    decide
  · intro task htask
    have he : task = ⟨10, 7, true, false⟩ := List.mem_singleton.1 htask
    rw [he]
    exact ⟨by decide, fun _ => by decide⟩

/-- **A call that never ends**: every reading puts the task back at the reading at entry or before. -/
theorem call_spins (h : Tabled s) (hb : s.pc.between = true) (ha : a ∈ s.pending now) (hta : s.heap a = some task)
    (hg : task.again = true) (hτ : ∀ i, addU64 (τ i) task.afterMs ≤ now) : ∀ n, Tabled (call τ now s n).1 ∧
    (call τ now s n).1.pc.busy now ∧ a ∈ (call τ now s n).1.pending now ∧ (call τ now s n).1.heap a = some task
  | 0 => ⟨tabled_zero h hb, rfl, (pending_zero hb).symm ▸ ha, hta⟩
  | n + 1 => by
    obtain ⟨ht, hbusy, hmem, hheap⟩ := call_spins h hb ha hta hg hτ n
    obtain ⟨s', hs, ht', hq | ⟨key, b, todo, task', hpc, hb', hr⟩⟩ := call_cases ht hbusy (τ (call τ now s n).2)
    · show Tabled (next τ (call τ now s n)).1 ∧ (next τ (call τ now s n)).1.pc.busy now ∧
        a ∈ (next τ (call τ now s n)).1.pending now ∧ (next τ (call τ now s n)).1.heap a = some task
      rw [next_of_step hs]
      refine ⟨ht', ?_, ?_, ?_⟩
      · rcases hq.pc with hbusy' | ⟨-, hnil⟩
        · exact hbusy'
        · rw [hnil] at hmem
          cases hmem
      · rw [hq.pending]
        exact hmem
      · rw [hq.heap]
        exact hheap
    · show Tabled (next τ (call τ now s n)).1 ∧ (next τ (call τ now s n)).1.pc.busy now ∧
        a ∈ (next τ (call τ now s n)).1.pending now ∧ (next τ (call τ now s n)).1.heap a = some task
      rw [next_of_step hs]
      refine ⟨ht', by rw [hr.pc]; exact rfl, ?_⟩
      by_cases hab : a = b
      · subst hab
        cases hheap.symm.trans hb'
        exact ⟨hr.mem_pending_self hg (hτ _), by rw [(hr.kept hg).1]; exact hheap⟩
      · rw [(ht.pending_head hpc).1] at hmem
        exact ⟨hr.mem_pending ((List.mem_cons.1 hmem).resolve_left hab), by rw [hr.heap_eq hab]; exact hheap⟩

theorem never_returns (h : Tabled s) (hb : s.pc.between = true) (ha : a ∈ s.pending now) (hta : s.heap a = some task)
    (hg : task.again = true) (hτ : ∀ i, addU64 (τ i) task.afterMs ≤ now) (n res : Nat) :
    (call τ now s n).1.pc ≠ .returned now res := by
  intro hres
  obtain ⟨-, hbusy, -⟩ := call_spins h hb ha hta hg hτ n
  rw [hres] at hbusy
  exact hbusy

/-- A task that repeats without an interval. -/
def noInterval : List Act := [.add 0 7 100 0 true]

/-- **The poller hangs in one pass**: while the clock reads 100, the task is invoked again and again. -/
theorem no_interval_spins : ∃ s, Machine.exec step FreshIds start noInterval = some s ∧
    fired s (call (fun _ => 100) 100 s 6).1 = [7, 7] ∧
    (∀ n res, (call (fun _ => 100) 100 s n).1.pc ≠ .returned 100 res) ∧ ¬ FiresOnce (fun _ => 100) 100 s := by
  have ht := (tables_reach (Machine.reach_of_exec step FreshIds noInterval start rfl)).1
  have hmem : 0 ∈ (start.runAddTimerTask 0 (addTimerTask 7 100 0 true)).pending 100 := by decide
  have hends := fun n res => never_returns ht rfl hmem rfl rfl (fun _ : Nat => (by decide : addU64 100 0 ≤ 100)) n res
  refine ⟨_, rfl, rfl, hends, fun h => ?_⟩
  obtain ⟨n, res, hres⟩ := h.ends
  exact hends n res hres

end Timers
end Shm
