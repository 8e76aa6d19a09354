import ShmMultiproc.OneEach
import ShmMultiproc.Records
/-!
# Kill — whom a signal reaches, and who comes back

A `WorkerProcess` keeps its `pid` when the process is gone: the handler of SIGCHLD reaps it, a queued function tears the
record down later, a later one still forks again, and `fork` may answer -1.  `Watched` records every call of `fork`; the
pid that `Kill` signals is what the last of them for the id returned (`LastForks`), so it is right as long as that one
gave a process and the handler has not reaped it (`kill_own_iff`).

`Kill(id, sig, false)` takes the id out of `workers` and nothing else: a restart that is queued already is carried out
(`killed_stays_down_iff`).
-/
namespace Shm
namespace Master

open Machine (Reach)
open Table (lookup_insert_some lookup_erase_some)

/-- A master and the calls of `fork` so far, oldest first, each with the id it was for and what it returned. -/
structure Watched where
  master : Master
  forks : List (WorkerId × Int)

namespace Watched

def start : Watched := ⟨.new, []⟩

def step (s : Watched) (a : Act) : Option Watched :=
  (s.master.step a).map (fun m => ⟨m, s.forks ++ (s.master.forkOf a).toList⟩)

def lastFork (s : Watched) (id : WorkerId) : Option Int :=
  ((s.forks.filter (fun f => f.1 = id)).getLast?).map Prod.snd

/-- **The signal goes to the worker's own process**: `pid` is the process most recently forked for `id`, and not yet
reaped. -/
def SignalsOwn (s : Watched) (id : WorkerId) (pid : Int) : Prop :=
  0 < pid ∧ s.lastFork id = some pid ∧ ∃ c ∈ s.master.children, c.pid = pid ∧ c.id = id

def Unreaped (s : Watched) (id : WorkerId) : Prop :=
  ∃ p ∈ s.lastFork id, ∃ c ∈ s.master.children, c.pid = p ∧ c.id = id

/-- **Every record in `workers` has the pid of the last `fork` for its id.** -/
structure LastForks (s : Watched) : Prop where
  named : Named s.master
  last : ∀ id r, s.master.workers.lookup id = some r → ∃ w, s.master.recs r = some w ∧ s.lastFork id = some w.pid
  children : ∀ c ∈ s.master.children, 0 < c.pid

theorem lastFork_append (m m' : Master) (forks : List (WorkerId × Int)) (id id' : WorkerId) (pid : Int) :
    (⟨m', forks ++ [(id', pid)]⟩ : Watched).lastFork id =
      if id' = id then some pid else (⟨m, forks⟩ : Watched).lastFork id := by
  unfold lastFork
  simp only
  rw [List.filter_append, List.filter_singleton]
  by_cases h : id' = id
  · rw [if_pos h, decide_eq_true h, cond_true, List.getLast?_append, List.getLast?_singleton]
    rfl
  · rw [if_neg h, decide_eq_false h, cond_false, List.append_nil]

theorem lastFork_congr {s : Watched} {m : Master} {forks : List (WorkerId × Int)} (h : forks = s.forks)
    (id : WorkerId) : (⟨m, forks⟩ : Watched).lastFork id = s.lastFork id := by
  unfold lastFork
  rw [h]

namespace LastForks

variable {s s' : Watched}

theorem start : LastForks start where
  named := .start
  last := fun id r h => by cases h
  children := fun c hc => by cases hc

theorem of_records {m : Master} (h : LastForks s) (hn : Named m)
    (hw : ∀ id r, m.workers.lookup id = some r → s.master.workers.lookup id = some r)
    (hr : ∀ id r w, s.master.workers.lookup id = some r → s.master.recs r = some w →
      ∃ w', m.recs r = some w' ∧ w'.pid = w.pid)
    (hc : ∀ c ∈ m.children, 0 < c.pid) : LastForks ⟨m, s.forks ++ []⟩ where
  named := hn
  last := fun id r hl => by
    obtain ⟨w, hrec, hlast⟩ := h.last id r (hw id r hl)
    obtain ⟨w', hrec', hpid⟩ := hr id r w (hw id r hl) hrec
    refine ⟨w', hrec', ?_⟩
    rw [lastFork_congr (List.append_nil _), hlast, hpid]
  children := hc

theorem created {option : WorkerOptions} {idx pid : Int} {r : Nat} {w : WorkerProcess} {m : Master} {pc : MasterPc}
    (h : LastForks s) (hc : Created s.master option idx pid r w m) (hn : Named { m with pc := pc }) :
    LastForks ⟨{ m with pc := pc }, s.forks ++ (some ((⟨option.name, idx⟩ : WorkerId), pid)).toList⟩ where
  named := hn
  last := fun id r' hl => by
    obtain ⟨hid, -⟩ := h.named.created hc
    have hl : m.workers.lookup id = some r' := hl
    rw [Option.toList_some, lastFork_append s.master]
    show ∃ w', m.recs r' = some w' ∧ _
    rw [hc.recs]
    by_cases hself : (⟨option.name, idx⟩ : WorkerId) = id
    · subst hself
      have hr : r' = r := by
        rw [hc.workers, hid] at hl
        rcases hc.origin with ⟨hold, -⟩ | ⟨hold, -⟩
        · rw [if_neg (by rw [hold]; simp), hold] at hl
          exact (Option.some.inj hl).symm
        · rw [if_pos hold, AList.lookup_insert] at hl
          exact (Option.some.inj hl).symm
      subst hr
      rw [if_pos rfl]
      exact ⟨w, Function.update_self .., by rw [hc.pid_eq]⟩
    · have hold : s.master.workers.lookup id = some r' := by
        rw [hc.workers] at hl
        split at hl
        · rcases lookup_insert_some.1 hl with ⟨he, -⟩ | ⟨-, hl⟩
          · exact absurd (he.trans hid).symm hself
          · exact hl
        · exact hl
      obtain ⟨w', hw', hlast⟩ := h.last id r' hold
      have hne : r' ≠ r := by
        rintro rfl
        obtain ⟨w₁, hw₁, hid₁⟩ := h.named.named id r' hold
        rcases hc.origin with ⟨-, -, w₀, hw₀, hwid, -⟩ | ⟨-, hnext, -⟩
        · rw [hw₀] at hw₁
          cases hw₁
          exact hself (hid.symm.trans (hwid.trans hid₁))
        · rw [h.named.alloc r' (by omega)] at hw₁
          cases hw₁
      rw [if_neg hself, Function.update_of_ne hne]
      exact ⟨w', hw', hlast⟩
  children := fun c hc' => by
    have hc' : c ∈ m.children := hc'
    rw [hc.children] at hc'
    split at hc'
    · rename_i hpid
      rcases List.mem_append.1 hc' with hc' | hc'
      · exact h.children c hc'
      · rw [List.mem_singleton.1 hc']
        exact hpid
    · exact h.children c hc'

theorem step {a : Act} (h : LastForks s) (hs : s.step a = some s') : LastForks s' := by
  obtain ⟨m, hm, rfl⟩ := Option.map_eq_some_iff.1 hs
  have hn := h.named.step hm
  cases h.named.tables hm with
  | same hf hch hsame =>
    rw [hf]
    refine h.of_records hn (fun id r hl => by rw [← hsame.workers]; exact hl) (fun id r w hl hw => ?_) (fun c hc => ?_)
    · exact ⟨w, by rw [hsame.recs]; exact hw, rfl⟩
    · obtain ⟨c₀, hc₀, he⟩ := List.mem_map.1 (hsame.children.subset (List.mem_map_of_mem hc))
      have := h.children c₀ hc₀
      rw [show c₀.pid = c.pid from congrArg Prod.fst he] at this
      exact this
  | created pc hf hc hs' =>
    subst hs'
    rw [hf]
    exact h.created hc hn
  | @destroyed pid r w hf hd =>
    rw [hf]
    refine h.of_records hn (fun id r' hl => by rw [← hd.workers]; exact hl) (fun id r' w' hl hw' => ?_)
      (fun c hc => h.children c (by rw [← hd.children]; exact hc))
    rw [hd.recs]
    by_cases hr : r' = r
    · subst hr
      cases hd.record.symm.trans hw'
      obtain ⟨w₁, hw₁, hid⟩ := h.named.named id r' hl
      cases hw₁.symm.trans hw'
      rw [Function.update_self, if_neg (by rw [hid, hl]; simp)]
      exact ⟨_, rfl, rfl⟩
    · rw [Function.update_of_ne hr]
      exact ⟨w', hw', rfl⟩
  | killed hf hl hw hs' =>
    subst hs'
    rw [hf]
    refine h.of_records hn (fun id r hl' => ?_) (fun id r w hl' hw' => ⟨w, hw', rfl⟩) h.children
    have hl' : (if _ then s.master.workers.erase _ else s.master.workers).lookup id = some r := hl'
    split at hl'
    · exact (lookup_erase_some.1 hl').2
    · exact hl'

end LastForks

theorem lastForks_reach {s : Watched} (h : Reach step Machine.anyStep start s) : LastForks s :=
  h.invariant .start (fun _ _ _ _ hi _ hs => hi.step hs)

/-- **When `Kill` signals the worker's own process**: exactly when the last `fork` for the id gave a process, and that
process is not yet reaped. -/
theorem kill_own_iff (s s' : Watched) (h : Reach step Machine.anyStep start s) (id : WorkerId) (sig : Int)
    (restart : Bool) (q : List Closure) (now : UInt64) (pid : Int) (hq : s.master.wakeQueue = .kill id sig restart :: q)
    (hs : s.step (.runWake now) = some s') (hpid : s'.master.signals = s.master.signals ++ [(id, pid, sig)]) :
    s.SignalsOwn id pid ↔ s.Unreaped id := by
  have hi := lastForks_reach h
  have hlast : s.lastFork id = some pid := by
    obtain ⟨m, hm, rfl⟩ := Option.map_eq_some_iff.1 hs
    simp only [Master.step] at hm
    split at hm
    · rename_i c q' hpc hq'
      rw [hq] at hq'
      cases hq'
      simp only [Master.runClosure, Master.runKill] at hm
      split at hm
      · cases hm
        exact absurd hpid (by simp)
      · rename_i r hl
        obtain ⟨w, hw, hlast⟩ := hi.last id r hl
        simp only [hw] at hm
        cases hm
        have hsig := List.append_cancel_left hpid
        cases hsig
        exact hlast
    · cases hm
  constructor
  · rintro ⟨-, -, c, hc, hcp, hcid⟩
    exact ⟨pid, hlast, c, hc, hcp, hcid⟩
  · rintro ⟨p, hp, c, hc, hcp, hcid⟩
    cases hlast.symm.trans hp
    exact ⟨hcp ▸ hi.children c hc, hlast, c, hc, hcp, hcid⟩

def forked : List Act := [.start [.new "w"] true, .next 0 true 100, .next 0 true 101, .runWake 500]

/-- `Kill(id, SIGTERM, true)` on a running worker. -/
theorem kill_own_iff_running : ∃ s s', Machine.exec step Machine.anyStep start (forked ++ [.kill ⟨"w", 0⟩ 15 true]) =
    some s ∧ s.step (.runWake 600) = some s' ∧ s'.master.signals = s.master.signals ++ [(⟨"w", 0⟩, 100, 15)] ∧
    (s.SignalsOwn ⟨"w", 0⟩ 100 ↔ s.Unreaped ⟨"w", 0⟩) ∧ s.Unreaped ⟨"w", 0⟩ :=
  ⟨_, _, rfl, rfl, rfl, kill_own_iff _ _ (Machine.reach_of_exec _ _ (forked ++ [.kill ⟨"w", 0⟩ 15 true]) _ rfl)
    ⟨"w", 0⟩ 15 true [] 600 100 rfl rfl rfl,
    ⟨100, rfl, ⟨100, ⟨"w", 0⟩, true⟩, List.mem_singleton.2 rfl, rfl, rfl⟩⟩

/-- **A signal to a process that is gone**: the worker exits and is reaped, and `Kill` runs before it is restarted. -/
theorem reaped_pid_signalled : ∃ s s', Machine.exec step Machine.anyStep start
    (forked ++ [.exit 100, .sigchld 100, .kill ⟨"w", 0⟩ 15 true, .runWake 600]) = some s ∧
    s.step (.runWake 700) = some s' ∧ s'.master.signals = s.master.signals ++ [(⟨"w", 0⟩, 100, 15)] ∧
    s.master.children = [] ∧ ¬ s.SignalsOwn ⟨"w", 0⟩ 100 := by
  refine ⟨_, _, rfl, rfl, rfl, rfl, ?_⟩
  rintro ⟨-, -, c, hc, -⟩
  cases hc

end Watched

/-! ## Killed without restart -/

def NotListed (id : WorkerId) (_ : Master) : Act → Prop
  | .updateOptions options => id ∉ (expand options).map creates
  | _ => True

instance (id : WorkerId) (s : Master) (a : Act) : Decidable (NotListed id s a) :=
  match a with
  | .updateOptions options => inferInstanceAs (Decidable (id ∉ (expand options).map creates))
  | .start _ _ | .kill _ _ _ | .wake | .runWake _ | .restartWorkers _ | .next _ _ _ | .exit _ | .sigchld _ =>
    .isTrue trivial

def Forks (id : WorkerId) (s s' : Master) : Prop := ∃ pid, s'.children = s.children ++ [⟨pid, id, true⟩]

/-- No reading of the clock lets the restart happen. -/
def Stuck (e : WorkerRestartOptions) : Prop := ∀ t : UInt64, ¬ e.startTime < t

/-- The worker that an iteration of the master's loop may create. -/
def Clear (id : WorkerId) : MasterPc → Prop
  | .starting todo | .check todo => id ∉ todo.map creates
  | .drain todo next => ∀ e ∈ todo ++ next, e.id = id → Stuck e
  | _ => True

/-- **Nothing of `id` is left to create**: it is in no table, no option and no queue. -/
structure StaysDown (id : WorkerId) (s : Master) : Prop where
  named : Named s
  started : s.pc ≠ .down
  absent : s.workers.lookup id = none
  unlisted : id ∉ (expand s.options).map creates
  queue : ∀ e ∈ s.restartQueue, e.id = id → Stuck e
  pc : Clear id s.pc

namespace StaysDown

variable {id : WorkerId} {s s' : Master}

theorem created {option : WorkerOptions} {idx pid : Int} {r : Nat} {w : WorkerProcess} {m : Master}
    (h : StaysDown id s) (hc : Created s option idx pid r w m) (hne : (⟨option.name, idx⟩ : WorkerId) ≠ id) :
    m.workers.lookup id = none ∧ ¬ Forks id s m := by
  obtain ⟨hid, -⟩ := h.named.created hc
  refine ⟨?_, ?_⟩
  · rw [hc.workers]
    split
    · rw [AList.lookup_insert_ne (by rw [hid]; exact Ne.symm hne)]
      exact h.absent
    · exact h.absent
  · rintro ⟨p, hp⟩
    rw [hc.children] at hp
    split at hp
    · have hlast := List.append_cancel_left hp
      simp only [List.cons.injEq, Child.mk.injEq, and_true] at hlast
      exact hne (hid ▸ hlast.2)
    · exact absurd hp (by simp)

theorem forkOf_ne {a : Act} {id' : WorkerId} {pid : Int} (h : StaysDown id s) (hf : s.forkOf a = some (id', pid)) :
    id' ≠ id := by
  have hpc := h.pc
  cases a with
  | next now shm p =>
    unfold forkOf at hf
    simp only at hf
    split at hf <;> rename_i heq
    · rw [heq] at hpc
      cases hf
      exact fun e => hpc (e ▸ List.mem_cons_self)
    · rw [heq] at hpc
      split at hf
      · rename_i hdue
        cases hf
        exact fun e => hpc _ (List.mem_append_left _ List.mem_cons_self) e now hdue
      · cases hf
    · rw [heq] at hpc
      split at hf
      · cases hf
        exact fun e => hpc (e ▸ List.mem_cons_self)
      · cases hf
    · cases hf
  | _ => cases hf

theorem not_forks {a : Act} (h : StaysDown id s) (hs : Master.step s a = some s') : ¬ Forks id s s' := by
  have hlen : ∀ {m : Master}, m.children.length ≤ s.children.length → ¬ Forks id s m := by
    rintro m hle ⟨p, hp⟩
    rw [hp, List.length_append, List.length_singleton] at hle
    omega
  cases h.named.tables hs with
  | same hf hch hsame => exact hlen (by simpa using hsame.children.length_le)
  | created pc hf hc hs' =>
    subst hs'
    exact (h.created hc (h.forkOf_ne hf)).2
  | destroyed hf hd => exact hlen (by rw [hd.children])
  | killed hf hl hw hs' =>
    subst hs'
    exact hlen (Nat.le_refl _)

theorem absent_step {a : Act} (h : StaysDown id s) (hs : Master.step s a = some s') : s'.workers.lookup id = none := by
  cases h.named.tables hs with
  | same hf hch hsame => rw [hsame.workers]; exact h.absent
  | created pc hf hc hs' =>
    subst hs'
    exact (h.created hc (h.forkOf_ne hf)).1
  | destroyed hf hd => rw [hd.workers]; exact h.absent
  | killed hf hl hw hs' =>
    subst hs'
    show (if _ then s.workers.erase _ else s.workers).lookup id = none
    split
    · cases hl' : (s.workers.erase _).lookup id with
      | none => rfl
      | some r =>
        have := (lookup_erase_some.1 hl').2
        rw [h.absent] at this
        cases this
    · exact h.absent

/-- **No restart of `id` is queued anew**: the function of an exit queues one for the ids in `workers`. -/
theorem queue_step {a : Act} (h : StaysDown id s) (hs : Master.step s a = some s') :
    ∀ e ∈ s'.restartQueue, e.id = id → Stuck e := by
  have hpc := h.pc
  intro e he hid
  cases h.named.tables hs with
  | same hf hch hsame =>
    rcases hsame.restartQueue e he with he | ⟨todo, next, hd, he⟩
    · exact h.queue e he hid
    · rw [hd] at hpc
      exact hpc e (List.mem_append_right _ he) hid
  | created pc hf hc hs' =>
    subst hs'
    exact h.queue e (hc.restartQueue ▸ he) hid
  | @destroyed pid r w hf hd =>
    obtain ⟨t, ht⟩ := hd.restartQueue
    rw [ht] at he
    split at he
    · exact h.queue e he hid
    · rename_i hthere
      rcases List.mem_append.1 he with he | he
      · exact h.queue e he hid
      · rw [List.mem_singleton.1 he] at hid
        have hwid : w.id = id := by
          rw [← hid]
          show w.id = ⟨w.options.name, w.id.idx⟩
          rw [h.named.opt r w hd.record]
        rw [hwid] at hthere
        exact absurd h.absent hthere
  | killed hf hl hw hs' =>
    subst hs'
    exact h.queue e he hid

theorem next_clear {now : UInt64} {shm : Bool} {pid : Int} (h : StaysDown id s)
    (hs : s.next now shm pid = some s') : s'.options = s.options ∧ s'.pc ≠ .down ∧ Clear id s'.pc := by
  have hpc := h.pc
  have hopt : ∀ {option idx m}, s.createWorker option idx shm pid = some m → m.options = s.options := by
    intro option idx m hm
    obtain ⟨r, w, hc⟩ := h.named.createWorker hm
    exact hc.options
  unfold Master.next at hs
  split at hs <;> rename_i heq <;> try rw [heq] at hpc
  · cases hs
  · cases hs
  · cases hs
    exact ⟨rfl, by simp, trivial⟩
  · split at hs
    · cases hs
    · rename_i s₁ hs₁
      have ho := hopt hs₁
      cases hs
      exact ⟨ho, by simp, fun hm => hpc (List.mem_cons_of_mem _ hm)⟩
  · cases hs
    exact ⟨rfl, by simp, h.unlisted⟩
  · split at hs
    · split at hs
      · cases hs
      · rename_i s₁ hs₁
        have ho := hopt hs₁
        cases hs
        exact ⟨ho, by simp, fun e he => hpc e (List.mem_cons_of_mem _ he)⟩
    · cases hs
      refine ⟨rfl, by simp, fun e he => hpc e ?_⟩
      rw [List.cons_append, List.mem_cons]
      rcases List.mem_append.1 he with he | he
      · exact .inr (List.mem_append_left _ he)
      · rcases List.mem_append.1 he with he | he
        · exact .inr (List.mem_append_right _ he)
        · exact .inl (List.mem_singleton.1 he)
  · cases hs
    exact ⟨rfl, by simp, trivial⟩
  · split at hs
    · split at hs
      · cases hs
      · rename_i s₁ hs₁
        have ho := hopt hs₁
        cases hs
        exact ⟨ho, by simp, fun hm => hpc (List.mem_cons_of_mem _ hm)⟩
    · cases hs
      exact ⟨rfl, by simp, fun hm => hpc (List.mem_cons_of_mem _ hm)⟩

end StaysDown

theorem runClosure_frame {s s' : Master} {now : UInt64} {c : Closure} (hs : s.runClosure now c = some s') :
    s'.options = s.options ∧ s'.pc = s.pc := by
  cases c with
  | restartWorker pid afterMs =>
    simp only [Master.runClosure, Master.runRestartWorker] at hs
    split at hs
    · cases hs
      exact ⟨rfl, rfl⟩
    · split at hs
      · rename_i w s₁ hw hd
        have hd' : s₁.options = s.options ∧ s₁.pc = s.pc := by
          unfold Master.destoryWorker at hd
          split at hd
          · cases hd
          · split at hd <;> cases hd
            exact ⟨rfl, rfl⟩
        split at hs <;> cases hs <;> exact hd'
      · cases hs
  | kill id sig restart =>
    simp only [Master.runClosure, Master.runKill] at hs
    split at hs
    · cases hs
      exact ⟨rfl, rfl⟩
    · split at hs <;> cases hs
      exact ⟨rfl, rfl⟩
  | attach fifo =>
    simp only [Master.runClosure, Master.runAttach] at hs
    split at hs <;> cases hs
    exact ⟨rfl, rfl⟩
  | other =>
    cases hs
    exact ⟨rfl, rfl⟩

namespace StaysDown

variable {id : WorkerId} {s s' : Master}

theorem step {a : Act} (h : StaysDown id s) (hg : NotListed id s a) (hs : Master.step s a = some s') :
    StaysDown id s' := by
  have hn := h.named.step hs
  have habs := h.absent_step hs
  have hq := h.queue_step hs
  have hpc := h.pc
  cases a with
  | start options mainShm =>
    simp only [Master.step] at hs
    split at hs
    · rename_i hdown
      exact absurd hdown h.started
    · cases hs
  | updateOptions options =>
    simp only [Master.step] at hs
    split at hs <;> cases hs
    · exact ⟨hn, h.started, habs, hg, hq, hpc⟩
    · exact ⟨hn, h.started, habs, hg, hq, hpc⟩
  | kill id' sig restart | wake =>
    simp only [Master.step] at hs
    split at hs <;> cases hs
    exact ⟨hn, h.started, habs, h.unlisted, hq, hpc⟩
  | runWake now =>
    simp only [Master.step] at hs
    split at hs
    · obtain ⟨ho, hp⟩ := runClosure_frame hs
      exact ⟨hn, by rw [hp]; exact h.started, habs, by rw [ho]; exact h.unlisted, hq, by rw [hp]; exact hpc⟩
    · cases hs
  | restartWorkers now =>
    simp only [Master.step] at hs
    split at hs <;> cases hs
    unfold Master.restartWorkers at hn habs hq ⊢
    split
    · exact h
    · rename_i hlater
      rw [if_neg hlater] at hn habs hq
      refine ⟨hn, ?_, habs, h.unlisted, hq, ?_⟩
      · show (if s.restartQueue = [] then _ else _) ≠ MasterPc.down
        split <;> simp
      · show Clear id (if s.restartQueue = [] then _ else _)
        split
        · exact h.unlisted
        · intro e he
          rw [List.append_nil] at he
          exact h.queue e he
  | next now shm pid =>
    obtain ⟨ho, hd, hc⟩ := h.next_clear hs
    exact ⟨hn, hd, habs, by rw [ho]; exact h.unlisted, hq, hc⟩
  | exit pid | sigchld pid =>
    simp only [Master.step] at hs
    split at hs <;> cases hs
    exact ⟨hn, h.started, habs, h.unlisted, hq, hpc⟩

theorem reach (h : StaysDown id s) (hr : Reach Master.step (NotListed id) s s') : StaysDown id s' :=
  hr.invariant h (fun _ _ _ _ hi hg hs => hi.step hg hs)

end StaysDown

/-! ## A restart that is queued already -/

theorem exists_new_pid (l : List Int) : ∃ p : Int, 0 < p ∧ ∀ q ∈ l, q < p := by
  induction l with
  | nil => exact ⟨1, by decide, fun q hq => by cases hq⟩
  | cons x l ih =>
    obtain ⟨p, hp, hlt⟩ := ih
    refine ⟨p + max x 0 + 1, by omega, fun q hq => ?_⟩
    rcases List.mem_cons.1 hq with rfl | hq
    · omega
    · have := hlt q hq
      omega

theorem drain_forks {id : WorkerId} {t : UInt64} : ∀ (todo kept : List WorkerRestartOptions) (s : Master), Named s →
    s.pc = .drain todo kept → (∃ e ∈ todo, e.id = id ∧ e.startTime < t) →
    ∃ s₁ s₂ a, Reach step (NotListed id) s s₁ ∧ NotListed id s₁ a ∧ step s₁ a = some s₂ ∧ Forks id s₁ s₂
  | [], _, _, _, _, he => by
    obtain ⟨e, he, -⟩ := he
    cases he
  | e :: todo, kept, s, hn, hpc, he => by
    by_cases hdue : e.startTime < t
    · obtain ⟨pid, hpid, hlt⟩ := exists_new_pid (s.children.map Child.pid)
      obtain ⟨m, hm⟩ := hn.createWorker_succeeds e.opt e.idx hpid (fun hmem => absurd (hlt pid hmem) (Int.lt_irrefl pid))
      have hs : step s (.next t true pid) = some { m with pc := .drain todo kept } := by
        simp only [step, Master.next, hpc, if_pos hdue, hm]
      by_cases hid : e.id = id
      · obtain ⟨r, w, hc⟩ := hn.createWorker hm
        refine ⟨s, _, .next t true pid, .init, trivial, hs, pid, ?_⟩
        show m.children = _
        rw [hc.children, if_pos hpid, (hn.created hc).1, ← hid]
        rfl
      · obtain ⟨e', he', hid', hdue'⟩ := he
        have hrest : ∃ x ∈ todo, x.id = id ∧ x.startTime < t := by
          rcases List.mem_cons.1 he' with rfl | he'
          · exact absurd hid' hid
          · exact ⟨e', he', hid', hdue'⟩
        obtain ⟨s₁, s₂, a, hr, hg, hs₁, hf⟩ := drain_forks todo kept _ (hn.step hs) rfl hrest
        exact ⟨s₁, s₂, a, (Reach.next .init trivial hs).trans hr, hg, hs₁, hf⟩
    · obtain ⟨e', he', hid', hdue'⟩ := he
      have hrest : ∃ x ∈ todo, x.id = id ∧ x.startTime < t := by
        rcases List.mem_cons.1 he' with rfl | he'
        · exact absurd hdue' hdue
        · exact ⟨e', he', hid', hdue'⟩
      have hs : step s (.next t true 0) = some { s with pc := .drain todo (kept ++ [e]) } := by
        simp only [step, Master.next, hpc, if_neg hdue]
      obtain ⟨s₁, s₂, a, hr, hg, hs₁, hf⟩ := drain_forks todo (kept ++ [e]) _ (hn.step hs) rfl hrest
      exact ⟨s₁, s₂, a, (Reach.next .init trivial hs).trans hr, hg, hs₁, hf⟩

/-- **When a worker killed without restart stays down**: exactly when no restart of it is queued already that the clock
will let through. -/
theorem killed_stays_down_iff (s s' : Master) (h : Reach step Machine.anyStep new s) (id : WorkerId) (sig : Int)
    (q : List Closure) (now : UInt64) (hq : s.wakeQueue = .kill id sig false :: q) (hsig : sig ≠ 0)
    (hopt : id ∉ (expand s.options).map creates) (hs : step s (.runWake now) = some s') :
    (∀ s₁ s₂ a, Reach step (NotListed id) s' s₁ → NotListed id s₁ a → step s₁ a = some s₂ → ¬ Forks id s₁ s₂) ↔
      ∀ e ∈ s.restartQueue, e.id = id → ∀ t : UInt64, ¬ e.startTime < t := by
  have hn := named_reach h
  have hafter : s'.workers.lookup id = none ∧ s'.restartQueue = s.restartQueue ∧ s'.options = s.options ∧
      s'.pc = .idle := by
    simp only [step] at hs
    split at hs
    · rename_i c q' hpc hq'
      rw [hq] at hq'
      cases hq'
      simp only [Master.runClosure, Master.runKill] at hs
      split at hs
      · rename_i hnone
        cases hs
        exact ⟨hnone, rfl, rfl, hpc⟩
      · split at hs <;> cases hs
        refine ⟨?_, rfl, rfl, hpc⟩
        show (if sig ≠ 0 ∧ True then s.workers.erase id else s.workers).lookup id = none
        rw [if_pos ⟨hsig, trivial⟩]
        exact AList.lookup_erase ..
    · cases hs
  obtain ⟨habs, hrq, ho, hpc⟩ := hafter
  constructor
  · intro hno e he hid t hdue
    have hne : s'.restartQueue ≠ [] := by
      rw [hrq]
      rintro hnil
      rw [hnil] at he
      cases he
    have hlater : ¬ s'.lastCheckRestartMs + 1000 - s'.lastCheckRestartMs < 1000 := by
      rw [UInt64.add_comm, UInt64.add_sub_cancel]
      decide
    have hr : step s' (.restartWorkers (s'.lastCheckRestartMs + 1000)) = some { s' with
        lastCheckRestartMs := s'.lastCheckRestartMs + 1000
        pc := .drain s'.restartQueue [] } := by
      simp only [step, hpc, Master.restartWorkers, if_neg hlater, if_neg hne]
    have hn' := hn.step hs
    obtain ⟨s₁, s₂, a, hr₁, hg, hs₁, hf⟩ := drain_forks s'.restartQueue [] _ (hn'.step hr) rfl
      ⟨e, by rw [hrq]; exact he, hid, hdue⟩
    exact hno s₁ s₂ a ((Reach.next .init trivial hr).trans hr₁) hg hs₁ hf
  · intro hstuck s₁ s₂ a hr _ hs₁
    have hdown : StaysDown id s' := {
      named := hn.step hs
      started := by rw [hpc]; simp
      absent := habs
      unlisted := by rw [ho]; exact hopt
      queue := by rw [hrq]; exact hstuck
      pc := by rw [hpc]; trivial }
    exact (hdown.reach hr).not_forks hs₁

/-- The worker's options are withdrawn, and `Kill` takes it out. -/
def withdrawn : List Act :=
  [.start [.new "w"] true, .next 0 true 100, .next 0 true 101, .runWake 500, .updateOptions [],
    .kill ⟨"w", 0⟩ 15 false]

theorem killed_stays_down_iff_unqueued : ∃ s s', Machine.exec step Machine.anyStep new withdrawn = some s ∧
    step s (.runWake 600) = some s' ∧ s.restartQueue = [] ∧
    ((∀ s₁ s₂ a, Reach step (NotListed ⟨"w", 0⟩) s' s₁ → NotListed ⟨"w", 0⟩ s₁ a → step s₁ a = some s₂ →
      ¬ Forks ⟨"w", 0⟩ s₁ s₂) ↔
      ∀ e ∈ s.restartQueue, e.id = ⟨"w", 0⟩ → ∀ t : UInt64, ¬ e.startTime < t) :=
  ⟨_, _, rfl, rfl, rfl, killed_stays_down_iff _ _ (Machine.reach_of_exec _ _ withdrawn _ rfl) ⟨"w", 0⟩ 15 [] 600 rfl
    (by decide) (by simp [expand]) rfl⟩

/-- The worker has exited and its restart is queued before it is withdrawn and killed. -/
def queuedFirst : List Act :=
  [.start [.new "w"] true, .next 0 true 100, .next 0 true 101, .runWake 500, .exit 100, .sigchld 100, .runWake 600,
    .updateOptions [], .kill ⟨"w", 0⟩ 15 false, .runWake 700]

/-- **A killed worker comes back**: the queued restart forks it. -/
theorem killed_worker_restarted : ∃ s s₁ s₂, Machine.exec step Machine.anyStep new queuedFirst = some s ∧
    s.workers.lookup ⟨"w", 0⟩ = none ∧ s.options = [] ∧
    Machine.exec step (NotListed ⟨"w", 0⟩) s [.restartWorkers 3000] = some s₁ ∧
    step s₁ (.next 3000 true 101) = some s₂ ∧ Forks ⟨"w", 0⟩ s₁ s₂ :=
  ⟨_, _, _, rfl, rfl, rfl, rfl, rfl, 101, rfl⟩

end Master
end Shm
