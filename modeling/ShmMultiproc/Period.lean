import ShmMultiproc.Pass
/-!
# Period — no timer runs ahead of its interval

A task is queued for the reading of its `AddTimerTask` call plus its interval, and put back at a reading taken after its
function has run plus its interval.  So whatever calls of `TriggerExpiredTimerTasks` there are, an interval passes
before the first invocation and between any two (`invocations_spaced`).
-/
namespace Shm
namespace Timers

open Machine (Reach)
open Buckets (items push mem_push)

/-- What the calls of `AddTimerTask` were given: for each id the reading of the call and the interval. -/
def Act.asked (f : Nat → Nat × Nat) : Act → Nat → Nat × Nat
  | .add _ id now afterMs _ => Function.update f id (now, afterMs)
  | _ => f

def recordedStep (x : Timers × (Nat → Nat × Nat)) (a : Act) : Option (Timers × (Nat → Nat × Nat)) :=
  (step x.1 a).map (fun s' => (s', a.asked x.2))

/-- **An interval passes** from the call of `AddTimerTask` to the first invocation, and from one invocation to the next:
by the readings at entry of the calls that make them. -/
structure Spaced (f : Nat → Nat × Nat) (log : List TimerEvent) : Prop where
  first : ∀ n now id key, .invoked n now id key ∈ log → (f id).1 + (f id).2 ≤ now
  again : ∀ n now id key n' now' key', [.invoked n now id key, .invoked n' now' id key'].Sublist log →
    now + (f id).2 ≤ now'

/-- The task at `a` is in the bucket of the key `k`, in the queue or taken out of it. -/
def Scheduled (s : Timers) (a k : Nat) : Prop :=
  (∃ e ∈ s.timerTaskQueue, e.1 = k ∧ a ∈ e.2) ∨ ∃ now todo, s.pc = .bucket now k todo ∧ a ∈ todo

/-- **A task is scheduled an interval after all that was done with it.** -/
structure Spacing (s : Timers) (f : Nat → Nat × Nat) : Prop where
  interval : ∀ a k task, s.Scheduled a k → s.heap a = some task → task.afterMs = (f task.id).2
  later : ∀ a k task, s.Scheduled a k → s.heap a = some task → (f task.id).1 + (f task.id).2 ≤ k
  ran : ∀ a k task, s.Scheduled a k → s.heap a = some task → ∀ n now key, .invoked n now task.id key ∈ s.log →
    now + (f task.id).2 ≤ k
  spaced : Spaced f s.log

variable {s s' : Timers} {f : Nat → Nat × Nat} {now key t a k : Nat} {todo : List Nat} {task : TimerTask}

theorem Scheduled.held (h : s.Scheduled a k) : a ∈ s.held := by
  unfold Timers.held
  rcases h with ⟨e, he, -, ha⟩ | ⟨now, todo, hpc, ha⟩
  · exact List.mem_append_left _ (List.mem_flatMap.2 ⟨e, he, ha⟩)
  · rw [hpc]
    exact List.mem_append_right _ ha

theorem Scheduled.queued (h : s.Scheduled a k) (hb : s.pc.between = true) : ∃ e ∈ s.timerTaskQueue, e.1 = k ∧ a ∈ e.2 := by
  rcases h with h | ⟨now, todo, hpc, -⟩
  · exact h
  · rw [hpc] at hb
    cases hb

theorem Scheduled.of_queue (h : s'.Scheduled a k) (hq : s'.timerTaskQueue = s.timerTaskQueue)
    (hpc : ∀ now k todo, s'.pc ≠ .bucket now k todo) : s.Scheduled a k := by
  rcases h with h | ⟨now, todo, hb, -⟩
  · exact .inl (hq ▸ h)
  · exact absurd hb (hpc now k todo)

theorem Spaced.concat {log : List TimerEvent} {e : TimerEvent} (h : Spaced f log)
    (he : ∀ n now id key, e ≠ .invoked n now id key) : Spaced f (log ++ [e]) where
  first := fun n now id key hm => h.first n now id key (mem_of_concat hm (he n now id key).symm)
  again := fun n now id key n' now' key' hm => by
    rcases pair_concat hm with hp | ⟨he', -⟩
    · exact h.again n now id key n' now' key' hp
    · exact absurd he'.symm (he n' now' id key')

namespace Spacing

theorem start (f : Nat → Nat × Nat) : Spacing Timers.start f := by
  have hnone : ∀ a k, ¬ Timers.start.Scheduled a k := by
    rintro a k (⟨e, he, -⟩ | ⟨now, todo, hpc, -⟩)
    · cases he
    · cases hpc
  exact ⟨fun a k _ h => absurd h (hnone a k), fun a k _ h => absurd h (hnone a k), fun a k _ h => absurd h (hnone a k),
    ⟨(fun _ _ _ _ h => by cases h), (fun _ _ _ _ _ _ _ h => by cases h)⟩⟩

theorem of_kept (h : Spacing s f) (hs : ∀ a k task', s'.Scheduled a k → s'.heap a = some task' →
      ∃ task, s.Scheduled a k ∧ s.heap a = some task ∧ task'.id = task.id ∧ task'.afterMs = task.afterMs)
    (hlog : s'.log = s.log ∨ ∃ e, (∀ n now id key, e ≠ .invoked n now id key) ∧ s'.log = s.log ++ [e]) :
    Spacing s' f := by
  have hmem : ∀ {n now id key}, .invoked n now id key ∈ s'.log → .invoked n now id key ∈ s.log := by
    intro n now id key hm
    rcases hlog with hlog | ⟨e, he, hlog⟩ <;> rw [hlog] at hm
    · exact hm
    · exact mem_of_concat hm (he _ _ _ _).symm
  refine ⟨fun a k task' ha hta => ?_, fun a k task' ha hta => ?_, fun a k task' ha hta n now key hm => ?_, ?_⟩
  · obtain ⟨task, ha', hta', hid, hafter⟩ := hs a k task' ha hta
    rw [hid, hafter]
    exact h.interval a k task ha' hta'
  · obtain ⟨task, ha', hta', hid, -⟩ := hs a k task' ha hta
    rw [hid]
    exact h.later a k task ha' hta'
  · obtain ⟨task, ha', hta', hid, -⟩ := hs a k task' ha hta
    rw [hid] at hm ⊢
    exact h.ran a k task ha' hta' n now key (hmem hm)
  · rcases hlog with hlog | ⟨e, he, hlog⟩ <;> rw [hlog]
    · exact h.spaced
    · exact h.spaced.concat he

theorem add {addr id afterMs : Nat} {repeate : Bool} (h : Spacing s f) (ht : Tabled s) (hl : Logged s)
    (haddr : s.heap addr = none) (hg : Proper s (.add addr id now afterMs repeate)) :
    Spacing (s.runAddTimerTask addr (addTimerTask id now afterMs repeate)) (Function.update f id (now, afterMs)) := by
  obtain ⟨hfresh, hlt⟩ := hg
  have hnext : (addTimerTask id now afterMs repeate).next = now + afterMs := Nat.mod_eq_of_lt hlt
  have hnever : ∀ {n now' key}, .invoked n now' id key ∉ s.log := by
    intro n now' key hm
    obtain ⟨r, hr⟩ := hl.ran n now' id key hm
    exact hfresh r hr
  have hmem : ∀ {n now' id' key}, .invoked n now' id' key ∈ s.log ++ [.added id repeate] →
      .invoked n now' id' key ∈ s.log := fun hm => mem_of_concat hm (by simp)
  -- what is scheduled is the new task, or an old one of another id
  have hcase : ∀ b k tb, (s.runAddTimerTask addr (addTimerTask id now afterMs repeate)).Scheduled b k →
      (s.runAddTimerTask addr (addTimerTask id now afterMs repeate)).heap b = some tb →
      (tb = ⟨afterMs, id, repeate, false⟩ ∧ k = now + afterMs) ∨
        (tb.id ≠ id ∧ s.Scheduled b k ∧ s.heap b = some tb) := by
    intro b k tb hs htb
    obtain ⟨e, he, hk, hbe⟩ := hs.queued rfl
    rcases mem_push e he hk hbe with ⟨rfl, rfl⟩ | hold
    · cases (Function.update_self ..).symm.trans htb
      exact .inl ⟨rfl, hnext⟩
    · have hsch : s.Scheduled b k := .inl hold
      have hne : b ≠ addr := fun e => ht.not_held haddr (e ▸ hsch.held)
      have htb : s.heap b = some tb := (Function.update_of_ne hne ..).symm.trans htb
      refine .inr ⟨fun hid => hfresh tb.repeate ?_, hsch, htb⟩
      obtain ⟨t', ht', hlook⟩ := ht.entered b hsch.held
      cases htb.symm.trans ht'
      exact hid ▸ hl.added tb.id tb ⟨b, hlook, htb⟩
  refine ⟨fun b k tb hs htb => ?_, fun b k tb hs htb => ?_, fun b k tb hs htb n now' key hm => ?_, ?_⟩
  · rcases hcase b k tb hs htb with ⟨rfl, -⟩ | ⟨hne, hs, htb⟩
    · rw [Function.update_self]
    · rw [Function.update_of_ne hne]
      exact h.interval b k tb hs htb
  · rcases hcase b k tb hs htb with ⟨rfl, rfl⟩ | ⟨hne, hs, htb⟩
    · rw [Function.update_self]
    · rw [Function.update_of_ne hne]
      exact h.later b k tb hs htb
  · rcases hcase b k tb hs htb with ⟨rfl, rfl⟩ | ⟨hne, hs, htb⟩
    · exact absurd (hmem hm) hnever
    · rw [Function.update_of_ne hne]
      exact h.ran b k tb hs htb n now' key (hmem hm)
  · refine Spaced.concat ⟨fun n now' id' key hm => ?_, fun n now' id' key n' now'' key' hp => ?_⟩ (by simp)
    · have hne : id' ≠ id := fun e => hnever (e ▸ hm)
      rw [Function.update_of_ne hne]
      exact h.spaced.first n now' id' key hm
    · have hne : id' ≠ id := fun e => hnever (e ▸ (mem_of_pair hp).1)
      rw [Function.update_of_ne hne]
      exact h.spaced.again n now' id' key n' now'' key' hp

theorem round (h : Spacing s f) (ht : Tabled s) (hpc : s.pc = .bucket now key (a :: todo)) (ha : s.heap a = some task)
    (hr : Round s now key t a todo task s') (hkey : key ≤ now) (hnow : now ≤ t)
    (hlt : task.canceled = false → task.repeate = true → t + task.afterMs < 2 ^ 64) : Spacing s' f := by
  have hsch : s.Scheduled a key := .inr ⟨now, a :: todo, hpc, List.mem_cons_self⟩
  have hint := h.interval a key task hsch ha
  have hlater := h.later a key task hsch ha
  have hran := h.ran a key task hsch ha
  have hheld : s.held = items s.timerTaskQueue ++ a :: todo := by unfold Timers.held; rw [hpc]; rfl
  have hnd := ht.nodup
  rw [hheld] at hnd
  obtain ⟨hnot, -⟩ := List.nodup_cons.1 (List.perm_middle.nodup_iff.1 hnd)
  -- what is scheduled is the task put back, or another one as before
  have hcase : ∀ b k tb, s'.Scheduled b k → s'.heap b = some tb →
      (tb = task ∧ k = t + task.afterMs) ∨ (s.Scheduled b k ∧ s.heap b = some tb ∧ tb.id ≠ task.id) := by
    have hother : ∀ b k tb, s.Scheduled b k → b ≠ a → s'.heap b = some tb →
        s.Scheduled b k ∧ s.heap b = some tb ∧ tb.id ≠ task.id := by
      intro b k tb hb hne htb
      rw [hr.heap_eq hne] at htb
      exact ⟨hb, htb, fun hid => hne (ht.id_inj hb.held hsch.held htb ha hid)⟩
    intro b k tb hb htb
    rcases hb with ⟨e, he, hk, hbe⟩ | ⟨now', todo', hpc', hb⟩
    · have hqueued : (∃ e ∈ s.timerTaskQueue, e.1 = k ∧ b ∈ e.2) → b ≠ a := by
        rintro ⟨e, he, -, hbe⟩ rfl
        exact hnot (List.mem_append_left _ (List.mem_flatMap.2 ⟨e, he, hbe⟩))
      cases hg : task.again with
      | true =>
        obtain ⟨hheap, hqueue⟩ := hr.kept hg
        obtain ⟨hcanceled, hrepeate⟩ := task.again_iff.1 hg
        have hnext : addU64 t task.afterMs = t + task.afterMs := Nat.mod_eq_of_lt (hlt hcanceled hrepeate)
        rw [hqueue] at he
        rcases mem_push e he hk hbe with ⟨rfl, rfl⟩ | hold
        · rw [hheap, ha] at htb
          cases htb
          exact .inl ⟨rfl, hnext⟩
        · exact .inr (hother b k tb (.inl hold) (hqueued hold) htb)
      | false =>
        rw [(hr.gone hg).2] at he
        have hold : ∃ e ∈ s.timerTaskQueue, e.1 = k ∧ b ∈ e.2 := ⟨e, he, hk, hbe⟩
        exact .inr (hother b k tb (.inl hold) (hqueued hold) htb)
    · rw [hr.pc] at hpc'
      cases hpc'
      have hne : b ≠ a := fun e => hnot (List.mem_append_right _ (e ▸ hb))
      exact .inr (hother b _ tb (.inr ⟨now, a :: todo, hpc, List.mem_cons_of_mem _ hb⟩) hne htb)
  have hmem : ∀ {n now' id' key'}, .invoked n now' id' key' ∈ s'.log →
      .invoked n now' id' key' ∈ s.log ∨ (now' = now ∧ id' = task.id) := by
    intro n now' id' key' hm
    rw [hr.log] at hm
    rcases List.mem_append.1 hm with hm | hm
    · exact .inl hm
    · split at hm
      · cases hm
      · cases List.mem_singleton.1 hm
        exact .inr ⟨rfl, rfl⟩
  refine ⟨fun b k tb hb htb => ?_, fun b k tb hb htb => ?_, fun b k tb hb htb n now' key' hm => ?_, ?_⟩
  · rcases hcase b k tb hb htb with ⟨rfl, -⟩ | ⟨hb, htb, -⟩
    · exact hint
    · exact h.interval b k tb hb htb
  · rcases hcase b k tb hb htb with ⟨rfl, rfl⟩ | ⟨hb, htb, -⟩
    · omega
    · exact h.later b k tb hb htb
  · rcases hcase b k tb hb htb with ⟨rfl, rfl⟩ | ⟨hb, htb, hne⟩
    · rcases hmem hm with hm | ⟨rfl, -⟩
      · have := hran n now' key' hm
        omega
      · omega
    · rcases hmem hm with hm | ⟨-, hid⟩
      · exact h.ran b k tb hb htb n now' key' hm
      · exact absurd hid hne
  · refine ⟨fun n now' id' key' hm => ?_, fun n now' id' key' n' now'' key'' hp => ?_⟩
    · rcases hmem hm with hm | ⟨rfl, rfl⟩
      · exact h.spaced.first n now' id' key' hm
      · exact hlater.trans hkey
    · rw [hr.log] at hp
      split at hp
      · rw [List.append_nil] at hp
        exact h.spaced.again n now' id' key' n' now'' key'' hp
      · rcases pair_concat hp with hp | ⟨he, hm⟩
        · exact h.spaced.again n now' id' key' n' now'' key'' hp
        · cases he
          exact (hran n now' key' hm).trans hkey

theorem nextBucket (h : Spacing s f) (now : Nat) : Spacing (s.nextBucket now) f := by
  unfold Timers.nextBucket
  split
  · exact h.of_kept (fun b k tb hb htb => ⟨tb, hb.of_queue rfl (by simp), htb, rfl, rfl⟩) (.inl rfl)
  · rename_i key tasks queue hq
    split
    · exact h.of_kept (fun b k tb hb htb => ⟨tb, hb.of_queue rfl (by simp), htb, rfl, rfl⟩) (.inl rfl)
    · refine h.of_kept (fun b k tb hb htb => ⟨tb, ?_, htb, rfl, rfl⟩) (.inl rfl)
      rcases hb with ⟨e, he, hk, hbe⟩ | ⟨now', todo', hpc', hb⟩
      · exact .inl ⟨e, by rw [hq]; exact List.mem_cons_of_mem _ he, hk, hbe⟩
      · cases hpc'
        exact .inl ⟨(key, tasks), by rw [hq]; exact List.mem_cons_self, rfl, hb⟩

theorem cancel {id : Nat} (h : Spacing s f) (hs : s.runCancelTimerTask id = some s') : Spacing s' f := by
  have hlog : ∀ n now id' key, TimerEvent.canceled id ≠ .invoked n now id' key := by simp
  unfold runCancelTimerTask at hs
  split at hs
  · cases hs
    exact h.of_kept (fun b k tb hb htb => ⟨tb, hb.of_queue rfl (by simp), htb, rfl, rfl⟩) (.inr ⟨_, hlog, rfl⟩)
  · rename_i a hl
    split at hs
    · cases hs
    · rename_i t ha
      cases hs
      refine h.of_kept (fun b k tb hb htb => ?_) (.inr ⟨_, hlog, rfl⟩)
      have hsch : s.Scheduled b k := hb.of_queue rfl (by simp)
      by_cases hba : b = a
      · subst hba
        cases (Function.update_self ..).symm.trans htb
        exact ⟨t, hsch, ha, rfl, rfl⟩
      · exact ⟨tb, hsch, (Function.update_of_ne hba ..).symm.trans htb, rfl, rfl⟩

theorem step {a : Act} (h : Spacing s f) (ht : Tabled s) (hl : Logged s) (ho : Ordered s) (hg : Proper s a)
    (hs : Timers.step s a = some s') : Spacing s' (a.asked f) := by
  cases a with
  | add addr id now afterMs repeate =>
    simp only [Timers.step] at hs
    split at hs
    · rename_i hif
      cases hs
      exact h.add ht hl hif.2 hg
    · cases hs
  | cancel id =>
    simp only [Timers.step] at hs
    split at hs
    · exact h.cancel hs
    · cases hs
  | trigger now =>
    simp only [Timers.step] at hs
    split at hs
    · cases hs
      exact h.of_kept (fun b k tb hb htb => ⟨tb, hb.of_queue rfl (by simp), htb, rfl, rfl⟩) (.inl rfl)
    · cases hs
  | step t =>
    simp only [Timers.step] at hs
    split at hs
    · cases hs
    · cases hs
    · rename_i now hpc
      cases hs
      exact h.nextBucket now
    · rename_i now key hpc
      cases hs
      exact h.of_kept (fun b k tb hb htb => ⟨tb, hb.of_queue rfl (by simp), htb, rfl, rfl⟩) (.inl rfl)
    · rename_i now key a todo hpc
      obtain ⟨hkey, hnow, -⟩ := ho.bucket now key (a :: todo) hpc
      cases ha : s.heap a with
      | none =>
        unfold runTask at hs
        simp only [ha] at hs
        cases hs
      | some task =>
        obtain ⟨s₁, hs₁, hr⟩ := Timers.round t hpc ha
        have hs : Timers.step s (.step t) = some s' := by simp only [Timers.step, hpc]; exact hs
        cases hs.symm.trans hs₁
        exact h.round ht hpc ha hr hkey (hnow.trans hg.1) (hg.2 a (by rw [hpc]; exact rfl) task ha)

end Spacing

/-- **No timer runs ahead of its interval**: in every run with readings that do not go back, sums that do not overflow and
ids that are not used twice, an interval passes before the first invocation of a task and between any two, by the
readings at entry of the calls of `TriggerExpiredTimerTasks` that invoke it. -/
theorem invocations_spaced (f : Nat → Nat × Nat) (x : Timers × (Nat → Nat × Nat))
    (h : Reach recordedStep (fun x a => Proper x.1 a) (start, f) x) : Spaced x.2 x.1.log := by
  have hi : Reach Timers.step Proper start x.1 ∧ Spacing x.1 x.2 := by
    refine h.invariant (I := fun x => Reach Timers.step Proper start x.1 ∧ Spacing x.1 x.2) ⟨.init, .start f⟩
      (fun x a x' _ hi hg hs => ?_)
    obtain ⟨s', hs', rfl⟩ := Option.map_eq_some_iff.1 hs
    obtain ⟨hreach, hsp⟩ := hi
    obtain ⟨ht, hl, ho⟩ := reach_inv hreach
    exact ⟨.next hreach hg hs', hsp.step ht hl ho hg hs'⟩
  exact hi.2.spaced

/-- A task of 10 ms that repeats: the second call comes late, and the third invocation waits for it. -/
def lateCall : List Act :=
  [.add 0 7 100 10 true, .trigger 115, .step 115, .step 116, .step 116, .step 116, .trigger 127, .step 127, .step 127]

theorem invocations_spaced_late : ∃ x, Machine.exec recordedStep (fun x a => Proper x.1 a) (start, fun _ => (0, 0)) lateCall = some x ∧
    x.1.log = [.added 7 true, .invoked 1 115 7 110, .invoked 2 127 7 126] ∧ x.2 7 = (100, 10) ∧ Spaced x.2 x.1.log := by
  obtain ⟨x, he, hlog, hx⟩ : ∃ x, Machine.exec recordedStep (fun x a => Proper x.1 a) (start, fun _ => (0, 0)) lateCall =
    some x ∧ x.1.log = [.added 7 true, .invoked 1 115 7 110, .invoked 2 127 7 126] ∧ x.2 7 = (100, 10) :=
    ⟨_, rfl, rfl, rfl⟩
  exact ⟨x, he, hlog, hx, invocations_spaced _ x (Machine.reach_of_exec _ _ lateCall _ he)⟩

end Timers
end Shm
