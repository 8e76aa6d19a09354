import ShmMultiproc.Pass
/-!
# Fires — what one call of `TriggerExpiredTimerTasks` does

`fires_once_iff` says when a call ends; here is what it has done then.  It has invoked the tasks due at its reading at
entry that are not canceled, each once, by their keys and within a key in the order in which they were queued; it has
put back those that repeat, each at the reading after its function ran plus its interval, and deleted the others; and it
has left alone all that was not due (`fires_exactly`).
-/
namespace Shm
namespace Timers

open Machine (Reach)
open Buckets (push items upTo above upTo_cons_of_le above_cons_of_le above_push_of_lt)

/-- The ids that the call invokes, of the tasks at `l`. -/
def toFire (s : Timers) (l : List Nat) : List Nat :=
  ((l.filterMap s.heap).filter (fun task => !task.canceled)).map TimerTask.id

/-- The tasks of `l` that repeat are pushed back, the first of them at reading number `i`. -/
def rearm (τ : Nat → Nat) (heap : Nat → Option TimerTask) :
    List Nat → Nat → List (Nat × List Nat) → List (Nat × List Nat)
  | [], _, q => q
  | a :: l, i, q =>
    match heap a with
    | none => rearm τ heap l i q
    | some task =>
      if task.again = true then rearm τ heap l (i + 1) (push (addU64 (τ i) task.afterMs) a q) else rearm τ heap l i q

/-- The heap without the tasks of `l` that do not repeat. -/
def freed (heap : Nat → Option TimerTask) (l : List Nat) (a : Nat) : Option TimerTask :=
  if a ∈ l ∧ (heap a).any TimerTask.again = false then none else heap a

/-- **What a call is to have done when it returns.** -/
structure Fired (τ : Nat → Nat) (now : Nat) (s s' : Timers) : Prop where
  fired : fired s s' = s.toFire (s.pending now)
  queue : s'.timerTaskQueue = rearm τ s.heap (s.pending now) 0 (above now s.timerTaskQueue)
  heap : ∀ a, s'.heap a = freed s.heap (s.pending now) a

/-- **What the call has done so far and what it has still to do** are together what it is to do. -/
structure Exact (τ : Nat → Nat) (now : Nat) (s₀ : Timers) (x : Timers × Nat) : Prop where
  fired : fired s₀ x.1 ++ x.1.toFire (x.1.pending now) = s₀.toFire (s₀.pending now)
  queue : rearm τ x.1.heap (x.1.pending now) x.2 (above now x.1.timerTaskQueue) =
    rearm τ s₀.heap (s₀.pending now) 0 (above now s₀.timerTaskQueue)
  heap : ∀ a, freed x.1.heap (x.1.pending now) a = freed s₀.heap (s₀.pending now) a

variable {s s' s₀ : Timers} {τ : Nat → Nat} {now key t a : Nat} {todo : List Nat} {task : TimerTask}

/-! ## One step -/

theorem toFire_cons (ha : s.heap a = some task) (l : List Nat) :
    s.toFire (a :: l) = (if task.canceled = true then [] else [task.id]) ++ s.toFire l := by
  unfold toFire
  rw [List.filterMap_cons_some ha]
  cases hc : task.canceled with
  | true =>
    rw [List.filter_cons_of_neg (by rw [hc]; decide), if_pos rfl]
    rfl
  | false =>
    rw [List.filter_cons_of_pos (by rw [hc]; rfl), if_neg Bool.false_ne_true]
    rfl

theorem toFire_congr {l : List Nat} (h : ∀ b ∈ l, s'.heap b = s.heap b) : s'.toFire l = s.toFire l := by
  unfold toFire
  rw [List.filterMap_congr h]

theorem rearm_congr {heap heap' : Nat → Option TimerTask} : ∀ {l : List Nat} {i : Nat} {q : List (Nat × List Nat)},
    (∀ b ∈ l, heap' b = heap b) → rearm τ heap' l i q = rearm τ heap l i q
  | [], _, _, _ => rfl
  | b :: l, i, q, h => by
    have hl : ∀ b ∈ l, heap' b = heap b := fun c hc => h c (List.mem_cons_of_mem b hc)
    unfold rearm
    rw [h b List.mem_cons_self]
    cases heap b with
    | none => exact rearm_congr hl
    | some task =>
      simp only
      rw [rearm_congr (i := i + 1) hl, rearm_congr (i := i) hl]

theorem above_nextBucket (s : Timers) (now : Nat) :
    above now (s.nextBucket now).timerTaskQueue = above now s.timerTaskQueue := by
  unfold nextBucket
  split
  · rfl
  · rename_i key tasks queue hq
    split
    · rfl
    · rename_i hle
      rw [hq]
      exact (above_cons_of_le queue (not_lt.1 hle)).symm

theorem Exact.quiet {i : Nat} (h : Exact τ now s₀ (s, i)) (hq : Quiet s now s')
    (habove : above now s'.timerTaskQueue = above now s.timerTaskQueue) : Exact τ now s₀ (s', i) where
  fired := by
    have hf : Timers.fired s₀ s' = Timers.fired s₀ s := by unfold Timers.fired; rw [hq.log]
    show Timers.fired s₀ s' ++ s'.toFire (s'.pending now) = _
    rw [hq.pending, toFire_congr (fun b _ => congrFun hq.heap b), hf]
    exact h.fired
  queue := by
    show rearm τ s'.heap (s'.pending now) i (above now s'.timerTaskQueue) = _
    rw [hq.pending, hq.heap, habove]
    exact h.queue
  heap := fun a => by
    show freed s'.heap (s'.pending now) a = _
    rw [hq.pending, hq.heap]
    exact h.heap a

theorem Exact.round {i : Nat} (h : Exact τ now s₀ (s, i)) (hg : Good τ now s₀ (s, i))
    (hpc : s.pc = .bucket now key (a :: todo)) (ha : s.heap a = some task) (hr : Round s now key (τ i) a todo task s')
    (hlands : task.again = true → now < addU64 (τ i) task.afterMs) : Exact τ now s₀ (s', used task i) := by
  obtain ⟨hpend, hnot⟩ := hg.tabled.pending_head hpc
  have hpend' : s'.pending now = todo ++ items (upTo now s.timerTaskQueue) := by
    rw [hr.pending_eq, hr.upTo_eq hlands]
  have hother : ∀ b ∈ todo ++ items (upTo now s.timerTaskQueue), s'.heap b = s.heap b :=
    fun b hb => hr.heap_eq (fun e => hnot (e ▸ hb))
  refine ⟨?_, ?_, fun b => ?_⟩
  · have hf := h.fired
    show Timers.fired s₀ s' ++ s'.toFire (s'.pending now) = _
    rw [hpend', toFire_congr hother, hr.fired_eq hg.len, List.append_assoc, ← toFire_cons ha, ← hpend]
    exact hf
  · have hq := h.queue
    have hq : rearm τ s.heap (s.pending now) i (above now s.timerTaskQueue) = _ := hq
    show rearm τ s'.heap (s'.pending now) (used task i) (above now s'.timerTaskQueue) = _
    rw [← hq, hpend, hpend', rearm_congr hother]
    rw [rearm, ha]
    unfold used
    cases hagain : task.again with
    | true =>
      rw [if_pos rfl, (hr.kept hagain).2, above_push_of_lt (hlands hagain)]
      simp only [hagain, if_true]
    | false =>
      rw [if_neg Bool.false_ne_true, (hr.gone hagain).2]
      simp only [hagain, Bool.false_eq_true, if_false]
  · have hh := h.heap b
    have hh : freed s.heap (s.pending now) b = _ := hh
    show freed s'.heap (s'.pending now) b = _
    rw [← hh, hpend, hpend']
    unfold freed
    by_cases hba : b = a
    · subst hba
      rw [if_neg (fun hc => hnot hc.1), ha]
      cases hagain : task.again with
      | true =>
        rw [if_neg (by simp [hagain]), (hr.kept hagain).1, ha]
      | false =>
        rw [if_pos ⟨List.mem_cons_self, by simp [hagain]⟩, (hr.gone hagain).1, Function.update_self]
    · rw [hr.heap_eq hba]
      simp only [List.mem_cons, hba, false_or]

/-! ## The whole call -/

theorem exact_zero (τ : Nat → Nat) (now : Nat) (hb : s.pc.between = true) : Exact τ now s (call τ now s 0) := by
  refine ⟨?_, ?_, fun a => ?_⟩
  · have hf : fired s (call τ now s 0).1 = [] := by
      show (s.log.drop s.log.length).filterMap TimerEvent.ran = []
      rw [List.drop_length]
      rfl
    rw [hf, pending_zero hb]
    rfl
  · rw [pending_zero hb]
    rfl
  · rw [pending_zero hb]
    rfl

theorem Exact.next {x : Timers × Nat} (h : Exact τ now s₀ x) (hg : Good τ now s₀ x) (hl : Lands τ now s₀) :
    Exact τ now s₀ (next τ x) := by
  obtain ⟨s, i⟩ := x
  rcases hg.pc with hb | ⟨⟨res, hres⟩, -⟩
  · obtain ⟨s', hs, -, hq | ⟨key, a, todo, task, hpc, ha, hr⟩⟩ := call_cases hg.tabled hb (τ i)
    · have hnext : Timers.next τ (s, i) = (s', i) := by rw [next_of_step hs, hq.asks]; rfl
      rw [hnext]
      refine h.quiet hq ?_
      simp only [step] at hs
      split at hs
      · cases hs
      · cases hs
      · rename_i n hpc
        have hb : s.pc.busy now := hb
        rw [hpc] at hb
        cases hb
        cases hs
        exact above_nextBucket s now
      · cases hs
        rfl
      · rename_i hpc
        have htodo := hq.todo
        rw [show s.pc.todo = _ from congrArg TriggerPc.todo hpc] at htodo
        cases htodo
    · have hpc : s.pc = .bucket now key (a :: todo) := hpc
      have hnext : Timers.next τ (s, i) = (s', used task i) := by
        rw [next_of_step hs, asks_eq hpc ha]
        rfl
      rw [hnext]
      refine h.round hg hpc ha hr (fun hagain => hl i task ?_)
      -- the task is the next one that the call puts back
      have hleft : (s₀.putsBack (s₀.pending now)).drop i = s.putsBack (s.pending now) := hg.left
      rw [(hg.tabled.pending_head hpc).1, putsBack_cons ha, if_pos hagain] at hleft
      have h0 : ((s₀.putsBack (s₀.pending now)).drop i)[0]? = some task := by rw [hleft]; rfl
      rw [List.getElem?_drop] at h0
      exact h0
  · have hs : step s (.step (τ i)) = none := by
      have hres : s.pc = .returned now res := hres
      simp only [step, hres]
    have hnext : Timers.next τ (s, i) = (s, i) := by
      unfold Timers.next
      rw [hs]
    rw [hnext]
    exact h

theorem exact_call (h : Tabled s) (hb : s.pc.between = true) (hl : Lands τ now s) : ∀ n,
    Exact τ now s (call τ now s n)
  | 0 => exact_zero τ now hb
  | n + 1 => (exact_call h hb hl n).next (hl.good h hb n) hl

theorem above_of_step (h : Tabled s) (hs : step s (.step t) = some s') {res : Nat} (hpc : s'.pc = .returned now res) :
    above now s'.timerTaskQueue = s'.timerTaskQueue := by
  simp only [step] at hs
  split at hs
  · cases hs
  · cases hs
  · rename_i n _
    cases hs
    have hsort := h.sorted
    unfold nextBucket at hpc ⊢
    split at hpc
    · rename_i hq
      simp only [hq]
      rfl
    · rename_i key tasks queue hq
      rw [hq] at hsort
      split at hpc
      · rename_i hlt
        cases hpc
        simp only [hq, if_pos hlt]
        exact hsort.above_eq hlt
      · cases hpc
  · cases hs
    cases hpc
  · rename_i n key a todo hb
    cases ha : s.heap a with
    | none =>
      unfold runTask at hs
      simp only [ha] at hs
      cases hs
    | some task =>
      obtain ⟨s₁, hs₁, hr⟩ := Timers.round t hb ha
      have hs : step s (.step t) = some s' := by simp only [step, hb]; exact hs
      cases hs.symm.trans hs₁
      rw [hr.pc] at hpc
      cases hpc

theorem above_of_returned (h : Tabled s) (hb : s.pc.between = true) (hl : Lands τ now s) {res : Nat} : ∀ n,
    (call τ now s n).1.pc = .returned now res →
    above now (call τ now s n).1.timerTaskQueue = (call τ now s n).1.timerTaskQueue
  | 0, hpc => by cases hpc
  | n + 1, hpc => by
    have hnext : call τ now s (n + 1) = next τ (call τ now s n) := rfl
    cases hs : step (call τ now s n).1 (.step (τ (call τ now s n).2)) with
    | none =>
      have hstay : next τ (call τ now s n) = call τ now s n := by
        unfold next
        rw [hs]
      rw [hnext, hstay] at hpc ⊢
      exact above_of_returned h hb hl n hpc
    | some s' =>
      rw [hnext, next_of_step hs] at hpc ⊢
      exact above_of_step (hl.good h hb n).tabled hs hpc

/-- **A call fires exactly the tasks that are due and not canceled**, in their order, puts back those that repeat, deletes
the others, leaves all that was not due alone, and returns: for every table between two calls and every sequence of
readings at which each task put back lands above the reading at entry. -/
theorem fires_exactly (τ : Nat → Nat) (now : Nat) (s : Timers) (h : Reach step FreshIds start s)
    (hb : s.pc.between = true) (hl : Lands τ now s) : ∃ n res, (call τ now s n).1.pc = .returned now res ∧
      Fired τ now s (call τ now s n).1 := by
  have ht := (tables_reach h).1
  obtain ⟨res, hres⟩ := hl.steps ht hb 0 _ rfl
  rw [Nat.zero_add] at hres
  generalize (call τ now s 0).1.remaining now = n at hres
  have he := exact_call ht hb hl n
  have hpend : (call τ now s n).1.pending now = [] := by
    rcases (hl.good ht hb n).pc with hbusy | ⟨-, hnil⟩
    · rw [hres] at hbusy
      exact hbusy.elim
    · exact hnil
  refine ⟨n, res, hres, ?_, ?_, fun a => ?_⟩
  · have hf := he.fired
    rw [hpend] at hf
    exact (List.append_nil _).symm.trans hf
  · have hq := he.queue
    rw [hpend, above_of_returned ht hb hl n hres] at hq
    exact hq
  · have hh := he.heap a
    rw [hpend] at hh
    exact (if_neg (fun hc => List.not_mem_nil hc.1)).symm.trans hh

theorem fires_exactly_three : ∃ s, Machine.exec step FreshIds start threeDue = some s ∧ s.pending 110 = [0, 1, 2] ∧
    ∃ n res, (call (fun _ => 112) 110 s n).1.pc = .returned 110 res ∧ Fired (fun _ => 112) 110 s
      (call (fun _ => 112) 110 s n).1 := by
  refine ⟨_, rfl, rfl, ?_⟩
  refine fires_exactly (fun _ => 112) 110 _ (Machine.reach_of_exec _ _ threeDue _ rfl) rfl (lands_of_pos ?_ ?_)
  · intro _
    decide
  · intro task htask
    have he : task = ⟨10, 7, true, false⟩ := List.mem_singleton.1 htask
    rw [he]
    exact ⟨by decide, fun _ => by decide⟩

end Timers
end Shm
