import ShmMultiproc.Lib.Table
import ShmMultiproc.Master
/-!
# Records — what one step does to the worker tables

`TableStep` is the inversion of a step of the master as far as `workers`, `pid_workers` and the records go: it leaves them
alone, creates a worker (`Created`), destroys one, or takes an id out of `workers`.  `Named` is what holds of them in
every run at all: whatever was killed, exited or failed to fork, an entry of `workers` leads to a record of that id.
-/
namespace Shm

def Child.forkedFor (c : Child) : Int × WorkerId := (c.pid, c.id)

namespace Master

open Machine (Reach)
open Table (lookup_insert_some lookup_erase_some)

/-- The worker a step calls `CreateWorker` for, and what `fork` returns there. -/
def forkOf (s : Master) : Act → Option (WorkerId × Int)
  | .next now _ pid =>
    match s.pc with
    | .starting ((w, i) :: _) => some (⟨w.name, i⟩, pid)
    | .drain (e :: _) _ => if e.startTime < now then some (e.id, pid) else none
    | .check ((w, i) :: _) => if s.getWorker ⟨w.name, i⟩ = none then some (⟨w.name, i⟩, pid) else none
    | _ => none
  | _ => none

/-- **What `CreateWorker(option, idx)` does when it returns**: `r` is the record of the id in `workers`, or a new one, and
`w` what it holds afterwards. -/
structure Created (s : Master) (option : WorkerOptions) (idx : Int) (pid : Int) (r : Nat) (w : WorkerProcess)
    (s' : Master) : Prop where
  origin : (s.workers.lookup ⟨option.name, idx⟩ = some r ∧ s'.nextRec = s.nextRec ∧
      ∃ w₀, s.recs r = some w₀ ∧ w.id = w₀.id ∧ w.options = w₀.options) ∨
    (s.workers.lookup ⟨option.name, idx⟩ = none ∧ r = s.nextRec ∧ s'.nextRec = s.nextRec + 1 ∧
      w.id = ⟨option.name, idx⟩ ∧ w.options = option)
  recs : s'.recs = Function.update s.recs r (some w)
  pid_eq : w.pid = pid
  opened : w.shm = true ↔ w.reader.isSome = true
  forked : pid = -1 ∨ (0 < pid ∧ pid ∉ s.children.map Child.pid)
  pidWorkers : s'.pidWorkers = s.pidWorkers.insert pid r
  workers : s'.workers = if s.workers.lookup w.id = none then s.workers.insert w.id r else s.workers
  children : s'.children = if 0 < pid then s.children ++ [⟨pid, w.id, true⟩] else s.children
  restartQueue : s'.restartQueue = s.restartQueue
  options : s'.options = s.options
  signals : s'.signals = s.signals
  pc : s'.pc = s.pc

/-- **What holds of the records in every run.** -/
structure Named (s : Master) : Prop where
  alloc : ∀ r, s.nextRec ≤ r → s.recs r = none
  opt : ∀ r w, s.recs r = some w → w.options.name = w.id.name
  named : ∀ id r, s.workers.lookup id = some r → ∃ w, s.recs r = some w ∧ w.id = id
  opened : ∀ r w, s.recs r = some w → (w.shm = true ↔ w.reader.isSome = true)

structure SameTables (s s' : Master) : Prop where
  recs : s'.recs = s.recs
  nextRec : s'.nextRec = s.nextRec
  workers : s'.workers = s.workers
  pidWorkers : s'.pidWorkers = s.pidWorkers
  signals : s'.signals = s.signals
  children : (s'.children.map Child.forkedFor).Sublist (s.children.map Child.forkedFor)
  restartQueue : ∀ e ∈ s'.restartQueue, e ∈ s.restartQueue ∨ ∃ todo next, s.pc = .drain todo next ∧ e ∈ next

/-- **What the function of `RestartWorker(pid)` does** to the record `w` at `r` that `pid_workers` has for the pid. -/
structure Destroyed (s : Master) (pid : Int) (r : Nat) (w : WorkerProcess) (s' : Master) : Prop where
  lookup : s.pidWorkers.lookup pid = some r
  record : s.recs r = some w
  recs : s'.recs = Function.update s.recs r
    (if s.workers.lookup w.id = none then none else some { w with shm := false, reader := none })
  restartQueue : ∃ t, s'.restartQueue =
    if s.workers.lookup w.id = none then s.restartQueue else s.restartQueue ++ [⟨w.options, w.id.idx, t⟩]
  nextRec : s'.nextRec = s.nextRec
  workers : s'.workers = s.workers
  pidWorkers : s'.pidWorkers = s.pidWorkers.erase w.pid
  children : s'.children = s.children
  signals : s'.signals = s.signals
  options : s'.options = s.options
  pc : s'.pc = s.pc

/-- **The inversion of a step**, for the tables. -/
inductive TableStep (s : Master) (a : Act) (s' : Master) : Prop
  | same (hf : s.forkOf a = none) (hch : (∃ pid, a = .exit pid ∨ a = .sigchld pid) ∨ s'.children = s.children)
      (h : SameTables s s')
  | created {option : WorkerOptions} {idx pid : Int} {r : Nat} {w : WorkerProcess} {s₁ : Master} (pc : MasterPc)
      (hf : s.forkOf a = some (⟨option.name, idx⟩, pid)) (hc : Created s option idx pid r w s₁)
      (hs' : s' = { s₁ with pc := pc })
  | destroyed {pid : Int} {r : Nat} {w : WorkerProcess} (hf : s.forkOf a = none) (hd : Destroyed s pid r w s')
  | killed {id : WorkerId} {sig : Int} {restart : Bool} {r : Nat} {w : WorkerProcess} {q : List Closure}
      (hf : s.forkOf a = none) (hl : s.workers.lookup id = some r) (hw : s.recs r = some w)
      (hs' : s' = { s with
        wakeQueue := q
        workers := if sig ≠ 0 ∧ restart = false then s.workers.erase id else s.workers
        signals := s.signals ++ [(id, w.pid, sig)] })

variable {s s' : Master} {option : WorkerOptions} {idx pid : Int} {shm : Bool}

theorem record_spec (s : Master) (option : WorkerOptions) (id : WorkerId)
    (hn : ∀ r, s.workers.lookup id = some r → ∃ w, s.recs r = some w ∧ w.id = id) :
    ∃ w₀, (s.record option id).1.recs (s.record option id).2 = some w₀ ∧ w₀.id = id ∧
      (s.record option id).1.recs = Function.update s.recs (s.record option id).2 (some w₀) ∧
      ((s.workers.lookup id = some (s.record option id).2 ∧ (s.record option id).1 = s) ∨
        (s.workers.lookup id = none ∧ (s.record option id).2 = s.nextRec ∧ w₀ = ⟨option, id, 0, false, none⟩ ∧
          (s.record option id).1 = { s with
            recs := Function.update s.recs s.nextRec (some ⟨option, id, 0, false, none⟩)
            nextRec := s.nextRec + 1 })) := by
  unfold Master.record
  split
  · rename_i r hr
    have hr : s.workers.lookup id = some r := hr
    obtain ⟨w₀, hw₀, hid⟩ := hn r hr
    exact ⟨w₀, hw₀, hid, by rw [← hw₀, Function.update_eq_self], .inl ⟨hr, rfl⟩⟩
  · rename_i hr
    exact ⟨_, Function.update_self .., rfl, rfl, .inr ⟨hr, rfl, rfl, rfl⟩⟩

theorem openReader_spec {r : Nat} {w₀ : WorkerProcess} (hw₀ : s.recs r = some w₀)
    (ho : w₀.shm = true ↔ w₀.reader.isSome = true) (hs : s.openReader r shm = some s') :
    ∃ w f q, w.id = w₀.id ∧ w.options = w₀.options ∧ w.shm = true ∧ w.reader.isSome = true ∧
      s' = { s with recs := Function.update s.recs r (some w), nextFifo := f, wakeQueue := q } := by
  unfold Master.openReader at hs
  rw [hw₀] at hs
  simp only at hs
  split at hs
  · rename_i hshm
    cases hs
    exact ⟨w₀, s.nextFifo, s.wakeQueue, rfl, rfl, hshm, ho.1 hshm, by rw [← hw₀, Function.update_eq_self]⟩
  · split at hs <;> cases hs
    exact ⟨{ w₀ with shm := true, reader := some s.nextFifo }, _, _, rfl, rfl, rfl, rfl, rfl⟩

theorem forkWorker_spec {r : Nat} {w : WorkerProcess} (hw : s.recs r = some w) (hs : s.forkWorker r pid = some s') :
    (pid = -1 ∨ (0 < pid ∧ pid ∉ s.children.map Child.pid)) ∧
      s' = { s with
        recs := Function.update s.recs r (some { w with pid := pid })
        pidWorkers := s.pidWorkers.insert pid r
        workers := if s.getWorker w.id = none then s.workers.insert w.id r else s.workers
        children := if 0 < pid then s.children ++ [⟨pid, w.id, true⟩] else s.children } := by
  unfold Master.forkWorker at hs
  rw [hw] at hs
  simp only at hs
  split at hs
  · cases hs
  · split at hs <;> cases hs
    rename_i hpid
    exact ⟨hpid, rfl⟩

namespace Named

theorem opened_record {id : WorkerId} {w : WorkerProcess} (h : Named s) (option : WorkerOptions)
    (hw : (s.record option id).1.recs (s.record option id).2 = some w) :
    w.shm = true ↔ w.reader.isSome = true := by
  obtain ⟨w₀, hw₀, -, -, ⟨-, hs⟩ | ⟨-, -, rfl, -⟩⟩ := record_spec s option id (h.named id)
  · cases hw.symm.trans hw₀
    rw [hs] at hw₀
    exact h.opened _ w hw₀
  · cases hw.symm.trans hw₀
    simp

/-- **The specification of `CreateWorker`.** -/
theorem createWorker (h : Named s) (hs : s.createWorker option idx shm pid = some s') :
    ∃ r w, Created s option idx pid r w s' := by
  obtain ⟨w₀, hw₀, hid, hrecs, horigin⟩ := record_spec s option ⟨option.name, idx⟩ (h.named _)
  have ho := h.opened_record option hw₀
  unfold Master.createWorker at hs
  simp only at hs
  generalize s.record option ⟨option.name, idx⟩ = x at hs hw₀ hrecs horigin
  obtain ⟨s₁, r⟩ := x
  simp only at hs hw₀ hrecs horigin
  split at hs
  · cases hs
  · rename_i s₂ hs₂
    obtain ⟨w, f, q, hwid, hwopt, hwshm, hwrd, rfl⟩ := openReader_spec hw₀ ho hs₂
    obtain ⟨hpid, rfl⟩ := forkWorker_spec (Function.update_self r (some w) s₁.recs) hs
    refine ⟨r, { w with pid := pid }, ?_⟩
    have hrecs' : Function.update (Function.update s₁.recs r (some w)) r (some { w with pid := pid }) =
        Function.update s.recs r (some { w with pid := pid }) := by
      rw [Function.update_idem, hrecs, Function.update_idem]
    rcases horigin with ⟨hl, rfl⟩ | ⟨hl, rfl, rfl, rfl⟩
    · exact {
        origin := .inl ⟨hl, rfl, w₀, hw₀, hwid, hwopt⟩
        recs := hrecs'
        pid_eq := rfl
        opened := by simp [hwshm, hwrd]
        forked := hpid
        pidWorkers := rfl
        workers := rfl
        children := rfl
        restartQueue := rfl
        options := rfl
        signals := rfl
        pc := rfl }
    · exact {
        origin := .inr ⟨hl, rfl, rfl, hwid, hwopt⟩
        recs := hrecs'
        pid_eq := rfl
        opened := by simp [hwshm, hwrd]
        forked := hpid
        pidWorkers := rfl
        workers := rfl
        children := rfl
        restartQueue := rfl
        options := rfl
        signals := rfl
        pc := rfl }

theorem openReader_succeeds {id : WorkerId} {w : WorkerProcess} (h : Named s) (option : WorkerOptions)
    (hw : (s.record option id).1.recs (s.record option id).2 = some w) (hshm : w.shm = true ∨ shm = true) :
    ∃ s₂ w₂ f, (s.record option id).1.openReader (s.record option id).2 shm = some s₂ ∧
      s₂.recs (s.record option id).2 = some w₂ ∧ w₂.reader = some f ∧ s₂.children = s.children := by
  have ho := h.opened_record option hw
  have hch : (s.record option id).1.children = s.children := by
    unfold Master.record
    split <;> rfl
  have hopen : ∃ s₂, (s.record option id).1.openReader (s.record option id).2 shm = some s₂ := by
    unfold Master.openReader
    rw [hw]
    simp only
    split
    · exact ⟨_, rfl⟩
    · rename_i hno
      rw [hshm.resolve_left hno]
      exact ⟨_, rfl⟩
  obtain ⟨s₂, hs₂⟩ := hopen
  obtain ⟨w₂, f, q, -, -, -, hrd, rfl⟩ := openReader_spec hw ho hs₂
  obtain ⟨f', hf'⟩ := Option.isSome_iff_exists.1 hrd
  exact ⟨_, w₂, f', hs₂, Function.update_self .., hf', hch⟩

theorem createWorker_succeeds (h : Named s) (option : WorkerOptions) (idx : Int) (hpid : 0 < pid)
    (hnew : pid ∉ s.children.map Child.pid) : ∃ s', s.createWorker option idx true pid = some s' := by
  obtain ⟨w₀, hw₀, -⟩ := record_spec s option ⟨option.name, idx⟩ (h.named _)
  obtain ⟨s₂, w₂, f, hs₂, hw₂, hf, hch⟩ := h.openReader_succeeds option hw₀ (.inr rfl)
  unfold Master.createWorker
  simp only [hs₂]
  unfold Master.forkWorker
  simp only [hw₂, hf]
  rw [if_pos (.inr ⟨hpid, by rw [hch]; exact hnew⟩)]
  exact ⟨_, rfl⟩

theorem runClosure {now : UInt64} {c : Closure} {q : List Closure} {a : Act} (hf : s.forkOf a = none)
    (hs : ({ s with wakeQueue := q } : Master).runClosure now c = some s') : TableStep s a s' := by
  cases c with
  | restartWorker pid afterMs =>
    simp only [Master.runClosure, Master.runRestartWorker] at hs
    split at hs
    · cases hs
      exact .same hf (.inr rfl) ⟨rfl, rfl, rfl, rfl, rfl, .refl _, fun _ => .inl⟩
    · rename_i r hl
      split at hs
      · rename_i w s₁ hw hd
        have hw : s.recs r = some w := hw
        unfold Master.destoryWorker at hd
        simp only [hw] at hd
        split at hd
        · cases hd
        · cases hd
          split at hs
          · rename_i hgone
            have hgone : s.workers.lookup w.id = none := hgone
            cases hs
            exact @TableStep.destroyed _ _ _ pid r w hf
              { lookup := hl, record := hw, nextRec := rfl, workers := rfl, pidWorkers := rfl, children := rfl,
                signals := rfl, options := rfl, pc := rfl
                recs := by rw [if_pos hgone]; exact Function.update_idem ..
                restartQueue := ⟨0, by rw [if_pos hgone]⟩ }
          · rename_i hthere
            have hthere : ¬ s.workers.lookup w.id = none := hthere
            cases hs
            exact @TableStep.destroyed _ _ _ pid r w hf
              { lookup := hl, record := hw, nextRec := rfl, workers := rfl, pidWorkers := rfl, children := rfl,
                signals := rfl, options := rfl, pc := rfl
                recs := by rw [if_neg hthere]
                restartQueue := ⟨now + afterMs, by rw [if_neg hthere]⟩ }
      · cases hs
  | kill id sig restart =>
    simp only [Master.runClosure, Master.runKill] at hs
    split at hs
    · cases hs
      exact .same hf (.inr rfl) ⟨rfl, rfl, rfl, rfl, rfl, .refl _, fun _ => .inl⟩
    · rename_i r hl
      split at hs
      · cases hs
      · rename_i w hw
        cases hs
        exact .killed hf hl hw rfl
  | attach fifo =>
    simp only [Master.runClosure, Master.runAttach] at hs
    split at hs <;> cases hs
    exact .same hf (.inr rfl) ⟨rfl, rfl, rfl, rfl, rfl, .refl _, fun _ => .inl⟩
  | other =>
    cases hs
    exact .same hf (.inr rfl) ⟨rfl, rfl, rfl, rfl, rfl, .refl _, fun _ => .inl⟩

theorem next {now : UInt64} (h : Named s) (hs : s.next now shm pid = some s') : TableStep s (.next now shm pid) s' := by
  unfold Master.next at hs
  split at hs
  · cases hs
  · cases hs
  · rename_i hpc
    cases hs
    exact .same (by unfold forkOf; rw [hpc]) (.inr rfl) ⟨rfl, rfl, rfl, rfl, rfl, .refl _, fun _ => .inl⟩
  · rename_i w i todo hpc
    split at hs
    · cases hs
    · rename_i s₁ hs₁
      cases hs
      obtain ⟨r, w', hc⟩ := h.createWorker hs₁
      exact .created _ (by unfold forkOf; rw [hpc]) hc rfl
  · rename_i kept hpc
    cases hs
    refine .same (by unfold forkOf; rw [hpc]) (.inr rfl) ⟨rfl, rfl, rfl, rfl, rfl, .refl _, fun e he => ?_⟩
    have he : e ∈ (if s.restartQueue.length ≠ kept.length then kept else s.restartQueue) := he
    split at he
    · exact .inr ⟨[], kept, hpc, he⟩
    · exact .inl he
  · rename_i e todo kept hpc
    split at hs
    · rename_i hdue
      split at hs
      · cases hs
      · rename_i s₁ hs₁
        cases hs
        obtain ⟨r, w', hc⟩ := h.createWorker hs₁
        exact .created _ (by unfold forkOf; rw [hpc]; simp only [if_pos hdue]; rfl) hc rfl
    · rename_i hdue
      cases hs
      exact .same (by unfold forkOf; rw [hpc]; simp only [if_neg hdue]) (.inr rfl) ⟨rfl, rfl, rfl, rfl, rfl, .refl _, fun _ => .inl⟩
  · rename_i hpc
    cases hs
    exact .same (by unfold forkOf; rw [hpc]) (.inr rfl) ⟨rfl, rfl, rfl, rfl, rfl, .refl _, fun _ => .inl⟩
  · rename_i w i todo hpc
    split at hs
    · rename_i hmiss
      split at hs
      · cases hs
      · rename_i s₁ hs₁
        cases hs
        obtain ⟨r, w', hc⟩ := h.createWorker hs₁
        exact .created _ (by unfold forkOf; rw [hpc]; simp only [if_pos hmiss]) hc rfl
    · rename_i hmiss
      cases hs
      exact .same (by unfold forkOf; rw [hpc]; simp only [if_neg hmiss]) (.inr rfl) ⟨rfl, rfl, rfl, rfl, rfl, .refl _, fun _ => .inl⟩

theorem tables {a : Act} (h : Named s) (hs : step s a = some s') : TableStep s a s' := by
  cases a with
  | start options mainShm =>
    simp only [step] at hs
    split at hs
    · split at hs <;> cases hs <;> exact .same rfl (.inr rfl) ⟨rfl, rfl, rfl, rfl, rfl, .refl _, fun _ => .inl⟩
    · cases hs
  | updateOptions options | kill id sig restart | wake =>
    simp only [step] at hs
    split at hs <;> cases hs <;> exact .same rfl (.inr rfl) ⟨rfl, rfl, rfl, rfl, rfl, .refl _, fun _ => .inl⟩
  | runWake now =>
    simp only [step] at hs
    split at hs
    · exact runClosure rfl hs
    · cases hs
  | restartWorkers now =>
    simp only [step] at hs
    split at hs <;> cases hs
    unfold Master.restartWorkers
    split <;> exact .same rfl (.inr rfl) ⟨rfl, rfl, rfl, rfl, rfl, .refl _, fun _ => .inl⟩
  | next now shm pid => exact h.next hs
  | exit pid =>
    simp only [step] at hs
    split at hs <;> cases hs
    refine .same rfl (.inl ⟨pid, .inl rfl⟩) ⟨rfl, rfl, rfl, rfl, rfl, ?_, fun _ => .inl⟩
    have he : s.children.map (Child.forkedFor ∘ fun c => if c.pid = pid then { c with alive := false } else c) =
        s.children.map Child.forkedFor := by
      refine List.map_congr_left (fun c _ => ?_)
      show Child.forkedFor (if c.pid = pid then { c with alive := false } else c) = c.forkedFor
      split <;> rfl
    rw [List.map_map, he]
  | sigchld pid =>
    simp only [step] at hs
    split at hs <;> cases hs
    exact .same rfl (.inl ⟨pid, .inr rfl⟩) ⟨rfl, rfl, rfl, rfl, rfl, List.filter_sublist.map _, fun _ => .inl⟩

theorem created {r : Nat} {w : WorkerProcess} (h : Named s) (hc : Created s option idx pid r w s') :
    w.id = ⟨option.name, idx⟩ ∧ w.options.name = w.id.name ∧ r < s'.nextRec ∧ s.nextRec ≤ s'.nextRec := by
  rcases hc.origin with ⟨hl, hn, w₀, hw₀, hwid, hwopt⟩ | ⟨-, rfl, hn, hwid, hwopt⟩
  · obtain ⟨w₁, hw₁, hid₁⟩ := h.named _ r hl
    rw [hw₀] at hw₁
    cases hw₁
    refine ⟨hwid.trans hid₁, by rw [hwid, hwopt]; exact h.opt r w₀ hw₀, ?_, by omega⟩
    by_contra hge
    rw [h.alloc r (by omega)] at hw₀
    cases hw₀
  · exact ⟨hwid, by rw [hwid, hwopt], by omega, by omega⟩

theorem step {a : Act} (h : Named s) (hs : Master.step s a = some s') : Named s' := by
  cases h.tables hs with
  | same hf hch hsame =>
    exact ⟨by rw [hsame.recs, hsame.nextRec]; exact h.alloc, by rw [hsame.recs]; exact h.opt,
      by rw [hsame.recs, hsame.workers]; exact h.named, by rw [hsame.recs]; exact h.opened⟩
  | @created option idx pid r w s₁ pc hf hc hs' =>
    subst hs'
    obtain ⟨hwid, hname, hlt, hle⟩ := h.created hc
    have hget : ∀ r', s₁.recs r' = if r' = r then some w else s.recs r' := by
      intro r'
      rw [hc.recs, Function.update_apply]
    refine ⟨fun r' hr' => ?_, fun r' w' hw' => ?_, fun id r' hl => ?_, fun r' w' hw' => ?_⟩
    · have hr' : s₁.nextRec ≤ r' := hr'
      show s₁.recs r' = none
      rw [hget, if_neg (by omega)]
      exact h.alloc r' (by omega)
    · have hw' : s₁.recs r' = some w' := hw'
      rw [hget] at hw'
      split at hw'
      · cases hw'
        exact hname
      · exact h.opt r' w' hw'
    · have hl : s₁.workers.lookup id = some r' := hl
      show ∃ w', s₁.recs r' = some w' ∧ w'.id = id
      have hold : s.workers.lookup id = some r' → ∃ w', s₁.recs r' = some w' ∧ w'.id = id := by
        intro hl
        obtain ⟨w₁, hw₁, hid₁⟩ := h.named id r' hl
        by_cases hr' : r' = r
        · subst hr'
          rcases hc.origin with ⟨-, -, w₀, hw₀, hwid', -⟩ | ⟨-, he, -⟩
          · rw [hw₀] at hw₁
            cases hw₁
            exact ⟨w, by rw [hget, if_pos rfl], hwid'.trans hid₁⟩
          · rw [h.alloc r' (by omega)] at hw₁
            cases hw₁
        · exact ⟨w₁, by rw [hget, if_neg hr']; exact hw₁, hid₁⟩
      rw [hc.workers] at hl
      split at hl
      · rcases lookup_insert_some.1 hl with ⟨rfl, rfl⟩ | ⟨-, hl⟩
        · exact ⟨w, by rw [hget, if_pos rfl], rfl⟩
        · exact hold hl
      · exact hold hl
    · have hw' : s₁.recs r' = some w' := hw'
      rw [hget] at hw'
      split at hw'
      · cases hw'
        exact hc.opened
      · exact h.opened r' w' hw'
  | @destroyed pid r w hf hd =>
    have hget : ∀ r' w', s'.recs r' = some w' → (s.recs r' = some w') ∨
        (r' = r ∧ w' = { w with shm := false, reader := none }) := by
      intro r' w' hw'
      rw [hd.recs, Function.update_apply] at hw'
      split at hw'
      · rename_i hr'
        split at hw' <;> cases hw'
        exact .inr ⟨hr', rfl⟩
      · exact .inl hw'
    refine ⟨fun r' hr' => ?_, fun r' w' hw' => ?_, fun id r' hl => ?_, fun r' w' hw' => ?_⟩
    · rw [hd.nextRec] at hr'
      have hne : r' ≠ r := by
        rintro rfl
        have := h.alloc _ hr'
        rw [hd.record] at this
        cases this
      rw [hd.recs, Function.update_of_ne hne]
      exact h.alloc r' hr'
    · rcases hget r' w' hw' with hw | ⟨rfl, rfl⟩
      · exact h.opt r' w' hw
      · exact h.opt r' w hd.record
    · rw [hd.workers] at hl
      obtain ⟨w₁, hw₁, hid₁⟩ := h.named id r' hl
      rw [hd.recs]
      by_cases hr' : r' = r
      · subst hr'
        rw [hd.record] at hw₁
        cases hw₁
        rw [Function.update_self, if_neg (by rw [hid₁, hl]; simp)]
        exact ⟨_, rfl, hid₁⟩
      · rw [Function.update_of_ne hr']
        exact ⟨w₁, hw₁, hid₁⟩
    · rcases hget r' w' hw' with hw | ⟨rfl, rfl⟩
      · exact h.opened r' w' hw
      · simp
  | killed hf hl hw hs' =>
    subst hs'
    refine ⟨h.alloc, h.opt, fun id r' hl' => ?_, h.opened⟩
    split at hl'
    · exact h.named id r' (lookup_erase_some.1 hl').2
    · exact h.named id r' hl'

theorem start : Named new where
  alloc := fun _ _ => rfl
  opt := fun r w h => by cases h
  named := fun id r h => by cases h
  opened := fun r w h => by cases h

end Named

theorem named_reach {G : Master → Act → Prop} (h : Reach step G new s) : Named s :=
  h.invariant .start (fun _ _ _ _ hi _ hs => hi.step hs)

end Master
end Shm
