import ShmMultiproc.OneEach
import ShmMultiproc.Records
/-!
# Supervise — every worker is accounted for

In the runs with one process for each worker identity, an id in `workers` is in exactly one of three places: its process
is running or not yet reaped, the function that its exit queued has not run, or a process is to be created for it
(`accounted_for`).  None is forgotten, and none is in two places at once.
-/
namespace Shm
namespace Master

open Machine (Reach)
open Table (lookup_insert_some lookup_erase_some)

/-- A process of `id` that has not been reaped. -/
def Running (s : Master) (id : WorkerId) : Prop := ∃ c ∈ s.children, c.id = id

/-- The function that the exit of the process of `id` queued has not run. -/
def Ending (s : Master) (id : WorkerId) : Prop :=
  ∃ p ∈ s.exitedPids, ∃ r w, s.pidWorkers.lookup p = some r ∧ s.recs r = some w ∧ w.id = id

/-- A process is to be created for `id`. -/
def Waiting (s : Master) (id : WorkerId) : Prop := id ∈ s.tokens

/-- **Every worker is in exactly one place**, with one process at most. -/
structure Accounted (s : Master) : Prop where
  somewhere : ∀ id r, s.workers.lookup id = some r → s.Running id ∨ s.Ending id ∨ s.Waiting id
  once : ∀ id, ¬ (s.Running id ∧ s.Ending id) ∧ ¬ (s.Running id ∧ s.Waiting id) ∧ ¬ (s.Ending id ∧ s.Waiting id)
  single : s.children.Pairwise (fun c c' => c.id ≠ c'.id)
  waits : s.tokens.Nodup

variable {s s' : Master}

theorem Core.once {toks : List WorkerId} (h : Core s toks) (id : WorkerId) : ¬ (s.Running id ∧ s.Ending id) ∧
    ¬ (s.Running id ∧ id ∈ toks) ∧ ¬ (s.Ending id ∧ id ∈ toks) := by
  refine ⟨?_, ?_, ?_⟩
  · rintro ⟨⟨c, hc, rfl⟩, p, hp, r, w, hl, hw, hid⟩
    obtain ⟨r', w', hl', hw', hid'⟩ := h.child c hc
    have he : p = c.pid := h.ids p c.pid r r' w w' hl hl' hw hw' (hid.trans hid'.symm)
    exact h.exited p hp (he ▸ List.mem_map_of_mem hc)
  · rintro ⟨⟨c, hc, rfl⟩, hmem⟩
    obtain ⟨r, w, hl, hw, hid⟩ := h.child c hc
    exact h.toksFree _ hmem _ r w hl hw hid
  · rintro ⟨⟨p, -, r, w, hl, hw, hid⟩, hmem⟩
    exact h.toksFree _ hmem p r w hl hw hid

theorem Core.single {toks : List WorkerId} (h : Core s toks) : s.children.Pairwise (fun c c' => c.id ≠ c'.id) := by
  refine (List.pairwise_map.1 h.pids).imp_of_mem (fun {c c'} hc hc' hne hid => hne ?_)
  obtain ⟨r, w, hl, hw, hwid⟩ := h.child c hc
  obtain ⟨r', w', hl', hw', hwid'⟩ := h.child c' hc'
  exact h.ids _ _ r r' w w' hl hl' hw hw' (by rw [hwid, hwid', hid])

theorem Core.entered {toks : List WorkerId} (h : Core s toks) {id : WorkerId} (hno : ¬ s.NoPid id) :
    s.Running id ∨ s.Ending id := by
  unfold NoPid at hno
  push Not at hno
  obtain ⟨p, r, w, hl, hw, hid⟩ := hno
  rcases h.reaped p r hl with hp | hp
  · obtain ⟨c, hc, rfl⟩ := List.mem_map.1 hp
    obtain ⟨r', w', hl', hw', hid'⟩ := h.child c hc
    cases hl.symm.trans hl'
    cases hw.symm.trans hw'
    exact .inl ⟨c, hc, hid'.symm.trans hid⟩
  · exact .inr ⟨p, hp, r, w, hl, hw, hid⟩

/-! ## Restarts that wait -/

/-- The entries of `restart_queue`, or of what the loop over it has kept and not looked at. -/
def entries (s : Master) : List WorkerRestartOptions :=
  match s.pc with
  | .drain todo next => next ++ todo
  | _ => s.restartQueue

/-- **What a step does to the restarts that wait**: nothing, the list of `Start` is made, one is taken up, one comes in. -/
inductive WaitStep (s : Master) (a : Act) (s' : Master) : Prop
  | kept (hf : s.forkOf a = none) (he : s'.entries = s.entries) (ht : s'.tokens = s.tokens)
      (hrq : s'.pc = s.pc → s'.restartQueue = s.restartQueue)
      (hst : ∀ todo, s'.pc = .starting todo → s.pc = .starting todo)
  | started {options : List WorkerOptions} (ha : a = .start options true) (hpc : s.pc = .down)
      (hs' : s' = { s with options := options, pc := .starting (expand options) })
  | forked {id : WorkerId} {pid : Int} (hf : s.forkOf a = some (id, pid)) (he : s'.entries.Sublist s.entries)
      (ht : ∀ id' ∈ s.tokens, id' ≠ id → id' ∈ s'.tokens)
      (hst : ∀ todo, s'.pc = .starting todo → ∃ x, s.pc = .starting (x :: todo))
      (hwhy : (∃ todo, s.pc = .starting todo ∧ id ∈ todo.map creates) ∨
        (∃ now shm e, a = .next now shm pid ∧ e ∈ s.entries ∧ e ∉ s'.entries ∧ e.id = id ∧ e.startTime < now) ∨
        s.workers.lookup id = none)
  | ended {pid : Int} {afterMs now : UInt64} {r : Nat} {w : WorkerProcess} {q : List Closure} (ha : a = .runWake now)
      (hq : s.wakeQueue = .restartWorker pid afterMs :: q) (hl : s.pidWorkers.lookup pid = some r)
      (hw : s.recs r = some w) (hpc : s'.pc = .idle)
      (he : s'.entries = s.entries ++ [⟨w.options, w.id.idx, now + afterMs⟩])
      (ht : s'.tokens = s.tokens ++ [⟨w.options.name, w.id.idx⟩])

theorem WaitStep.of_same {a : Act} (hf : s.forkOf a = none) (hrq : s'.restartQueue = s.restartQueue)
    (hpc : s'.pc = s.pc) : WaitStep s a s' :=
  .kept hf (by unfold entries; rw [hpc, hrq]) (by unfold tokens; rw [hpc, hrq]) (fun _ => hrq)
    (fun _ h => hpc ▸ h)

theorem waitStep_runWake {now : UInt64} (hs : step s (.runWake now) = some s') : WaitStep s (.runWake now) s' := by
  simp only [step] at hs
  split at hs
  swap
  · cases hs
  rename_i c q hpc hq
  cases c with
  | restartWorker pid afterMs =>
    simp only [runClosure, runRestartWorker] at hs
    split at hs
    · cases hs
      exact .of_same rfl rfl rfl
    · rename_i r hl
      split at hs
      · rename_i w s₁ hw hd
        have hw : s.recs r = some w := hw
        unfold destoryWorker at hd
        simp only [hw] at hd
        split at hd
        · cases hd
        · cases hd
          split at hs <;> cases hs
          · exact .of_same rfl rfl rfl
          · refine .ended rfl hq hl hw hpc ?_ ?_
            · simp only [entries, hpc]
            · simp only [tokens, hpc, List.map_append]
              rfl
      · cases hs
  | kill id sig restart =>
    simp only [runClosure, runKill] at hs
    split at hs
    · cases hs
      exact .of_same rfl rfl rfl
    · split at hs <;> cases hs
      exact .of_same rfl rfl rfl
  | attach fifo =>
    simp only [runClosure, runAttach] at hs
    split at hs <;> cases hs
    exact .of_same rfl rfl rfl
  | other =>
    cases hs
    exact .of_same rfl rfl rfl

theorem waitStep_next {now : UInt64} {shm : Bool} {pid : Int} (h : Inv s) (hs : s.next now shm pid = some s') :
    WaitStep s (.next now shm pid) s' := by
  unfold Master.next at hs
  split at hs
  · cases hs
  · cases hs
  · rename_i hpc
    cases hs
    have hrq := h.starting [] hpc
    refine .kept (by unfold forkOf; rw [hpc]) ?_ ?_ (fun _ => rfl) (fun _ hp => by cases hp)
    · simp only [entries, hpc]
    · simp only [tokens, hpc, hrq]
      rfl
  · rename_i w i todo hpc
    split at hs
    · cases hs
    · rename_i s₁ hs₁
      cases hs
      have hrq := createWorker_restartQueue hs₁
      have hf : s.forkOf (.next now shm pid) = some (⟨w.name, i⟩, pid) := by unfold forkOf; rw [hpc]
      refine .forked hf ?_ (fun id' hid' hne => ?_) (fun todo' hp => ?_) (.inl ⟨_, hpc, List.mem_cons_self⟩)
      · simp only [entries, hpc, hrq]
        exact .refl _
      · simp only [tokens, hpc, List.map_cons, List.mem_cons] at hid' ⊢
        exact hid'.resolve_left hne
      · cases hp
        exact ⟨_, hpc⟩
  · rename_i kept hpc
    cases hs
    have hsub := h.drain _ _ hpc
    rw [List.append_nil] at hsub
    have hrq : (if s.restartQueue.length ≠ kept.length then kept else s.restartQueue) = kept := by
      split
      · rfl
      · rename_i hlen
        exact (hsub.eq_of_length (not_not.1 hlen).symm).symm
    refine .kept (by unfold forkOf; rw [hpc]) ?_ ?_ (fun hp => by rw [hpc] at hp; cases hp)
      (fun _ hp => by cases hp)
    · simp only [entries, hpc, hrq, List.append_nil]
    · simp only [tokens, hpc, hrq, List.append_nil]
  · rename_i e todo kept hpc
    split at hs
    · rename_i hdue
      split at hs
      · cases hs
      · rename_i s₁ hs₁
        cases hs
        have hsub : (kept ++ todo).Sublist (kept ++ e :: todo) := (List.sublist_cons_self e todo).append_left kept
        have htok : s.tokens = (kept ++ e :: todo).map WorkerRestartOptions.id := by unfold tokens; rw [hpc]
        have hnd := h.core.toksNodup
        rw [htok, List.map_append, List.map_cons, List.nodup_middle, ← List.map_append] at hnd
        have hgone : e ∉ kept ++ todo := fun hmem => (List.nodup_cons.1 hnd).1 (List.mem_map_of_mem hmem)
        have hf : s.forkOf (.next now shm pid) = some (e.id, pid) := by unfold forkOf; rw [hpc]; simp only [if_pos hdue]
        refine .forked hf ?_ (fun id' hid' hne => ?_) (fun _ hp => by cases hp)
          (.inr (.inl ⟨now, shm, e, rfl, ?_, hgone, rfl, hdue⟩))
        · simp only [entries, hpc]
          exact hsub
        · simp only [tokens, hpc, List.map_append, List.map_cons, List.mem_append, List.mem_cons] at hid' ⊢
          rcases hid' with hid' | hid' | hid'
          · exact .inl hid'
          · exact absurd hid' hne
          · exact .inr hid'
        · simp only [entries, hpc]
          exact List.mem_append_right _ List.mem_cons_self
    · rename_i hdue
      cases hs
      refine .kept (by unfold forkOf; rw [hpc]; simp only [if_neg hdue]) ?_ ?_ (fun _ => rfl) (fun _ hp => by cases hp)
      · simp only [entries, hpc, List.append_assoc, List.singleton_append]
      · simp only [tokens, hpc, List.append_assoc, List.singleton_append]
  · rename_i hpc
    cases hs
    refine .kept (by unfold forkOf; rw [hpc]) ?_ ?_ (fun _ => rfl) (fun _ hp => by cases hp)
    · simp only [entries, hpc]
    · simp only [tokens, hpc]
  · rename_i w i todo hpc
    split at hs
    · rename_i hmiss
      split at hs
      · cases hs
      · rename_i s₁ hs₁
        cases hs
        have hrq := createWorker_restartQueue hs₁
        have hf : s.forkOf (.next now shm pid) = some (⟨w.name, i⟩, pid) := by
          unfold forkOf
          rw [hpc]
          simp only [if_pos hmiss]
        refine .forked hf ?_ (fun id' hid' _ => ?_) (fun _ hp => by cases hp) (.inr (.inr hmiss))
        · simp only [entries, hpc, hrq]
          exact .refl _
        · simp only [tokens, hpc, hrq] at hid' ⊢
          exact hid'
    · rename_i hmiss
      cases hs
      refine .kept (by unfold forkOf; rw [hpc]; simp only [if_neg hmiss]) ?_ ?_ (fun _ => rfl) (fun _ hp => by cases hp)
      · simp only [entries, hpc]
      · simp only [tokens, hpc]

/-- **The inversion of a step**, for the restarts that wait. -/
theorem waitStep {a : Act} (h : Inv s) (hs : step s a = some s') : WaitStep s a s' := by
  cases a with
  | start options mainShm =>
    simp only [step] at hs
    split at hs
    · rename_i hpc
      split at hs <;> cases hs
      · rename_i hm
        subst hm
        exact .started rfl hpc rfl
      · exact .of_same rfl rfl rfl
    · cases hs
  | updateOptions options | kill id sig restart | wake =>
    simp only [step] at hs
    split at hs <;> cases hs <;> exact .of_same rfl rfl rfl
  | runWake now => exact waitStep_runWake hs
  | restartWorkers now =>
    simp only [step] at hs
    split at hs
    · rename_i hpc
      cases hs
      unfold Master.restartWorkers
      split
      · exact .of_same rfl rfl rfl
      · by_cases hq : s.restartQueue = []
        · rw [if_pos hq]
          refine .kept rfl ?_ ?_ (fun _ => rfl) (fun _ hp => by cases hp)
          · simp only [entries, hpc]
          · simp only [tokens, hpc]
        · rw [if_neg hq]
          refine .kept rfl ?_ ?_ (fun _ => rfl) (fun _ hp => by cases hp)
          · simp only [entries, hpc, List.nil_append]
          · simp only [tokens, hpc, List.nil_append]
    · cases hs
  | next now shm pid => exact waitStep_next h hs
  | exit pid | sigchld pid =>
    simp only [step] at hs
    split at hs <;> cases hs
    exact .of_same rfl rfl rfl

/-! ## Every worker is accounted for -/

/-- **What the periodic check relies on**: an id in `workers` that no record in `pid_workers` is for has a process to
come. -/
def Placed (s : Master) : Prop := ∀ id r, s.workers.lookup id = some r → ¬ s.NoPid id ∨ id ∈ s.tokens

theorem Inv.entries_tokens (h : Inv s) {e : WorkerRestartOptions} (he : e ∈ s.entries) : e.id ∈ s.tokens := by
  unfold entries at he
  unfold tokens
  split at he
  · rename_i hpc
    rw [hpc]
    exact List.mem_map_of_mem he
  · rename_i hno
    split
    · rename_i hpc
      rw [h.starting _ hpc] at he
      cases he
    · rename_i hpc
      exact absurd hpc (hno _ _)
    · exact List.mem_map_of_mem he

theorem WaitStep.tokens_subset {a : Act} (hw : WaitStep s a s') (h : Inv s) (hf : s.forkOf a = none) :
    ∀ id ∈ s.tokens, id ∈ s'.tokens := by
  intro id hid
  cases hw with
  | kept hf' he ht hrq hst => exact ht ▸ hid
  | started ha hpc hs' =>
    have htok : s.tokens = [] := by
      simp only [tokens, hpc, (h.down hpc).1]
      rfl
    rw [htok] at hid
    cases hid
  | forked hf' he ht hst hwhy => cases hf.symm.trans hf'
  | ended ha hq hl hw hpc he ht => exact ht ▸ List.mem_append_left _ hid

theorem createWorker_lookup {option : WorkerOptions} {idx : Int} {shm : Bool} {pid : Int} {id : WorkerId}
    (h : Named s) (hs : s.createWorker option idx shm pid = some s') (hid : s.workers.lookup id ≠ none) :
    s'.workers.lookup id ≠ none := by
  obtain ⟨r, w, hc⟩ := h.createWorker hs
  rw [hc.workers]
  split
  · by_cases he : id = w.id
    · rw [he, AList.lookup_insert]
      simp
    · rw [AList.lookup_insert_ne he]
      exact hid
  · exact hid

theorem createWorker_listed {option : WorkerOptions} {idx : Int} {shm : Bool} {pid : Int} (h : Named s)
    (hs : s.createWorker option idx shm pid = some s') : s'.workers.lookup ⟨option.name, idx⟩ ≠ none := by
  obtain ⟨r, w, hc⟩ := h.createWorker hs
  obtain ⟨hwid, -⟩ := h.created hc
  rw [hc.workers, ← hwid]
  split
  · rw [AList.lookup_insert]
    simp
  · assumption

theorem next_of_forkOf {a : Act} {id : WorkerId} {pid : Int} (hf : s.forkOf a = some (id, pid)) :
    ∃ now shm, a = .next now shm pid := by
  cases a with
  | next now shm p =>
    have he : p = pid := by
      unfold forkOf at hf
      simp only at hf
      split at hf
      · cases hf
        rfl
      · split at hf <;> cases hf
        rfl
      · split at hf <;> cases hf
        rfl
      · cases hf
    exact ⟨now, shm, he ▸ rfl⟩
  | _ => cases hf

theorem Core.entered_created {toks : List WorkerId} {option : WorkerOptions} {idx pid : Int} {r : Nat}
    {w : WorkerProcess} (h : Core s toks) (hn : Named s) (hc : Created s option idx pid r w s') (hpid : 0 < pid)
    (hex : pid ∉ s.exitedPids) :
    ¬ s'.NoPid w.id ∧ ∀ id, id ≠ w.id → ¬ s.NoPid id → ¬ s'.NoPid id := by
  have hself : s'.pidWorkers.lookup pid = some r := by rw [hc.pidWorkers]; exact AList.lookup_insert _
  have hrec : s'.recs r = some w := by rw [hc.recs]; exact Function.update_self ..
  refine ⟨fun hno => hno pid r w hself hrec rfl, fun id hne hsome hno => hsome (fun p r' w' hl hw' hid => ?_)⟩
  have hp : p ≠ pid := by
    rintro rfl
    rcases h.reaped p r' hl with hp | hp
    · rcases hc.forked with hneg | ⟨-, hnew⟩
      · omega
      · exact hnew hp
    · exact hex hp
  have hr : r' ≠ r := by
    rintro rfl
    rcases hc.origin with ⟨-, -, w₀, hw₀, hwid, -⟩ | ⟨-, hnext, -⟩
    · cases hw₀.symm.trans hw'
      exact hne (hid.symm.trans hwid.symm)
    · rw [hn.alloc r' (by omega)] at hw'
      cases hw'
  refine hno p r' w' ?_ ?_ hid
  · rw [hc.pidWorkers, AList.lookup_insert_ne hp]
    exact hl
  · rw [hc.recs, Function.update_of_ne hr]
    exact hw'

theorem Placed.step {a : Act} (hp : Placed s) (h : Inv s) (hn : Named s) (hok : Succeeds a) (hfree : Free s a)
    (hs : Master.step s a = some s') : Placed s' := by
  have hw := waitStep h hs
  cases hn.tables hs with
  | same hf hch hsame =>
    intro id r hl
    rw [hsame.workers] at hl
    have hno : s'.NoPid id ↔ s.NoPid id := by
      unfold NoPid
      rw [hsame.pidWorkers, hsame.recs]
    rw [hno]
    exact (hp id r hl).imp_right (hw.tokens_subset h hf id)
  | @created option idx pid r w s₁ pc hf hc hs' =>
    subst hs'
    obtain ⟨now, shm, rfl⟩ := next_of_forkOf hf
    obtain ⟨hpid, hex⟩ : 0 < pid ∧ pid ∉ s.exitedPids := ⟨hok.2, hfree.1⟩
    obtain ⟨hown, hothers⟩ := h.core.entered_created hn hc hpid hex
    obtain ⟨hwid, -⟩ := hn.created hc
    intro id r' hl
    by_cases hid : id = w.id
    · exact .inl (hid ▸ hown)
    · have hold : s.workers.lookup id = some r' := by
        have hl : s₁.workers.lookup id = some r' := hl
        rw [hc.workers] at hl
        split at hl
        · rcases lookup_insert_some.1 hl with ⟨he, -⟩ | ⟨-, hl⟩
          · exact absurd he hid
          · exact hl
        · exact hl
      rcases hp id r' hold with hsome | hwait
      · exact .inl (hothers id hid hsome)
      · cases hw with
        | kept hf' he ht hrq hst => exact .inr (ht ▸ hwait)
        | started ha hpc hs' => cases ha
        | forked hf' he ht hst hwhy =>
          cases hf.symm.trans hf'
          exact .inr (ht id hwait (hwid ▸ hid))
        | ended ha hq hl hw hpc he ht => exact .inr (ht ▸ List.mem_append_left _ hwait)
  | @destroyed pid r w hf hd =>
    intro id r' hl
    rw [hd.workers] at hl
    rcases hp id r' hl with hsome | hwait
    · by_cases hid : id = w.id
      · -- the restart that the function queued
        subst hid
        right
        obtain ⟨t, hrq⟩ := hd.restartQueue
        rw [if_neg (by rw [hl]; simp)] at hrq
        cases hw with
        | kept hf' he ht hrq' hst =>
          rw [hrq' hd.pc] at hrq
          exact absurd hrq (by simp)
        | started ha hpc hs' =>
          subst hs'
          exact absurd hrq (by simp)
        | forked hf' he ht hst hwhy => cases hf.symm.trans hf'
        | ended ha hq hl₁ hw₁ hpc he ht =>
          have htok : s'.tokens = s'.restartQueue.map WorkerRestartOptions.id := by simp only [tokens, hpc]
          rw [htok, hrq, List.map_append]
          refine List.mem_append_right _ (List.mem_singleton.2 ?_)
          show w.id = ⟨w.options.name, w.id.idx⟩
          rw [hn.opt r w hd.record]
      · refine .inl (fun hno => hsome (fun p r₁ w₁ hl₁ hw₁ hid₁ => ?_))
        have hr : r₁ ≠ r := by
          rintro rfl
          cases hd.record.symm.trans hw₁
          exact hid hid₁.symm
        have hpp : p ≠ w.pid := by
          rintro rfl
          obtain ⟨w₂, hw₂, hpid₂⟩ := h.core.pid pid r hd.lookup
          cases hd.record.symm.trans hw₂
          subst hpid₂
          exact hr (Option.some.inj (hl₁.symm.trans hd.lookup))
        refine hno p r₁ w₁ ?_ ?_ hid₁
        · rw [hd.pidWorkers, AList.lookup_erase_ne hpp]
          exact hl₁
        · rw [hd.recs, Function.update_of_ne hr]
          exact hw₁
    · exact .inr (hw.tokens_subset h hf id hwait)
  | killed hf hl hw' hs' =>
    intro id r hl'
    have hold : s.workers.lookup id = some r := by
      subst hs'
      have hl' : (if _ then s.workers.erase _ else s.workers).lookup id = some r := hl'
      split at hl'
      · exact (lookup_erase_some.1 hl').2
      · exact hl'
    have hno : s'.NoPid id ↔ s.NoPid id := by subst hs'; exact Iff.rfl
    rw [hno]
    exact (hp id r hold).imp_right (hw.tokens_subset h hf id)

/-- What holds of the tables in the runs with one process for each worker. -/
structure Supervised (s : Master) : Prop where
  inv : Inv s
  named : Named s
  placed : Placed s

theorem Supervised.start : Supervised new := ⟨.start, .start, fun id r h => by cases h⟩

theorem Supervised.step {a : Act} (h : Supervised s) (hd : Distinct a) (hok : Succeeds a) (hfree : Free s a)
    (hs : Master.step s a = some s') : Supervised s' :=
  ⟨h.inv.step hd hok hfree hs, h.named.step hs, h.placed.step h.inv h.named hok hfree hs⟩

theorem Supervised.accounted (h : Supervised s) : Accounted s where
  somewhere := fun id r hl => by
    rcases h.placed id r hl with hsome | hwait
    · rcases h.inv.core.entered hsome with hr | he
      · exact .inl hr
      · exact .inr (.inl he)
    · exact .inr (.inr hwait)
  once := h.inv.core.once
  single := h.inv.core.single
  waits := h.inv.core.toksNodup

/-- Two workers: the first is running, the second has exited and its restart is queued. -/
def oneRestarting : List Act :=
  [.start [.new "a", .new "b"] true, .next 0 true 100, .next 0 true 101, .next 0 true 102, .runWake 300, .runWake 300,
    .exit 101, .sigchld 101, .runWake 400]

end Master
end Shm
