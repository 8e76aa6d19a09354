import ShmMultiproc.Supervise
/-!
# Backoff — a restart takes its second

As long as `Kill` takes no id out of `workers`, the periodic check creates nobody a second time: a worker that exits is
started again by the restart that its exit queued, once, and not before `start_time` has passed.  So two calls of `fork`
for one worker are more than a second apart, however often it exits (`restart_backoff`).
-/
namespace Shm
namespace Master

open Machine (Reach)
open Table (lookup_insert_some lookup_erase_some)

variable {s s' : Master}

/-! ## The wake queue -/

/-- Where a queued function comes from: a caller of `Kill`, the handler of SIGCHLD, or nobody who restarts anything. -/
inductive FromCaller (a : Act) : Closure → Prop
  | kill {id : WorkerId} {sig : Int} {restart : Bool} (ha : a = .kill id sig restart) :
      FromCaller a (.kill id sig restart)
  | exited {pid : Int} (ha : a = .sigchld pid) : FromCaller a (.restartWorker pid 1000)
  | attach (fifo : Nat) : FromCaller a (.attach fifo)
  | other : FromCaller a .other

theorem createWorker_wakeQueue {option : WorkerOptions} {idx : Int} {shm : Bool} {pid : Int}
    (hs : s.createWorker option idx shm pid = some s') : s'.wakeQueue = s.wakeQueue ∨
      ∃ f, s'.wakeQueue = s.wakeQueue ++ [.attach f] := by
  have hrec : (s.record option ⟨option.name, idx⟩).1.wakeQueue = s.wakeQueue := by
    unfold Master.record
    split <;> rfl
  have hfork : ∀ {s₂ : Master} {r : Nat}, s₂.forkWorker r pid = some s' → s'.wakeQueue = s₂.wakeQueue := by
    intro s₂ r hs
    unfold Master.forkWorker at hs
    split at hs
    · cases hs
    · split at hs
      · cases hs
      · split at hs <;> cases hs
        rfl
  unfold Master.createWorker at hs
  simp only at hs
  split at hs
  · cases hs
  · rename_i s₂ hs₂
    rw [hfork hs, ← hrec]
    unfold Master.openReader at hs₂
    split at hs₂
    · cases hs₂
    · split at hs₂
      · cases hs₂
        exact .inl rfl
      · split at hs₂ <;> cases hs₂
        exact .inr ⟨_, rfl⟩

/-- **The inversion of a step**, for the wake queue and the ids in `workers`: only a function of `Kill` takes one out. -/
structure QueueStep (s : Master) (a : Act) (s' : Master) : Prop where
  queued : ∀ c ∈ s'.wakeQueue, c ∈ s.wakeQueue ∨ FromCaller a c
  listed : ∀ id, s.workers.lookup id ≠ none → s'.workers.lookup id ≠ none ∨
    ∃ sig, sig ≠ 0 ∧ Closure.kill id sig false ∈ s.wakeQueue

theorem QueueStep.of_workers {a : Act} (hw : s'.workers = s.workers)
    (hq : s'.wakeQueue = s.wakeQueue ∨ ∃ c, FromCaller a c ∧ s'.wakeQueue = s.wakeQueue ++ [c]) : QueueStep s a s' where
  queued := fun c hc => by
    rcases hq with he | ⟨c', hfrom, he⟩
    · exact .inl (he ▸ hc)
    · rw [he] at hc
      rcases List.mem_append.1 hc with hc | hc
      · exact .inl hc
      · exact .inr (List.mem_singleton.1 hc ▸ hfrom)
  listed := fun id hid => .inl (hw ▸ hid)

theorem QueueStep.of_createWorker {a : Act} {option : WorkerOptions} {idx : Int} {shm : Bool} {pid : Int} {s₁ : Master}
    {pc : MasterPc} (h : Named s) (hs : s.createWorker option idx shm pid = some s₁) :
    QueueStep s a { s₁ with pc := pc } where
  queued := fun c hc => by
    have hc : c ∈ s₁.wakeQueue := hc
    rcases createWorker_wakeQueue hs with he | ⟨f, he⟩
    · exact .inl (he ▸ hc)
    · rw [he] at hc
      rcases List.mem_append.1 hc with hc | hc
      · exact .inl hc
      · exact .inr (List.mem_singleton.1 hc ▸ .attach f)
  listed := fun id hid => by
    have hk : s₁.workers.lookup id ≠ none := createWorker_lookup h hs hid
    exact .inl hk

theorem QueueStep.of_runClosure {a : Act} {now : UInt64} {c : Closure} {q : List Closure} (hq : s.wakeQueue = c :: q)
    (hs : ({ s with wakeQueue := q } : Master).runClosure now c = some s') : QueueStep s a s' := by
  have hrest : s'.wakeQueue = q → ∀ c' ∈ s'.wakeQueue, c' ∈ s.wakeQueue ∨ FromCaller a c' := fun he c' hc' =>
    .inl (hq ▸ List.mem_cons_of_mem _ (he ▸ hc'))
  cases c with
  | restartWorker pid afterMs =>
    simp only [runClosure, runRestartWorker] at hs
    split at hs
    · cases hs
      exact ⟨hrest rfl, fun id => .inl⟩
    · split at hs
      · rename_i hd
        unfold destoryWorker at hd
        split at hd
        · cases hd
        · split at hd
          · cases hd
          · cases hd
            split at hs <;> cases hs <;> exact ⟨hrest rfl, fun id => .inl⟩
      · cases hs
  | kill id sig restart =>
    simp only [runClosure, runKill] at hs
    split at hs
    · cases hs
      exact ⟨hrest rfl, fun id => .inl⟩
    · split at hs
      · cases hs
      · cases hs
        refine ⟨hrest rfl, fun id' hid' => ?_⟩
        show (if sig ≠ 0 ∧ restart = false then s.workers.erase id else s.workers).lookup id' ≠ none ∨ _
        split
        · rename_i herase
          by_cases he : id' = id
          · obtain ⟨hsig, rfl⟩ := herase
            exact .inr ⟨sig, hsig, by rw [hq, he]; exact List.mem_cons_self⟩
          · exact .inl (by rw [AList.lookup_erase_ne he]; exact hid')
        · exact .inl hid'
  | attach fifo =>
    simp only [runClosure, runAttach] at hs
    split at hs <;> cases hs
    exact ⟨hrest rfl, fun id => .inl⟩
  | other =>
    cases hs
    exact ⟨hrest rfl, fun id => .inl⟩

theorem queueStep {a : Act} (h : Named s) (hs : step s a = some s') : QueueStep s a s' := by
  cases a with
  | start options mainShm =>
    simp only [step] at hs
    split at hs
    · split at hs <;> cases hs <;> exact .of_workers rfl (.inl rfl)
    · cases hs
  | updateOptions options =>
    simp only [step] at hs
    split at hs <;> cases hs <;> exact .of_workers rfl (.inl rfl)
  | kill id sig restart =>
    simp only [step] at hs
    split at hs <;> cases hs
    exact .of_workers rfl (.inr ⟨_, .kill rfl, rfl⟩)
  | wake =>
    simp only [step] at hs
    split at hs <;> cases hs
    exact .of_workers rfl (.inr ⟨_, .other, rfl⟩)
  | runWake now =>
    simp only [step] at hs
    split at hs
    · rename_i c q hpc hq
      exact .of_runClosure hq hs
    · cases hs
  | restartWorkers now =>
    simp only [step] at hs
    split at hs <;> cases hs
    unfold Master.restartWorkers
    split <;> exact .of_workers rfl (.inl rfl)
  | next now shm pid =>
    have hs : s.next now shm pid = some s' := hs
    unfold Master.next at hs
    split at hs
    · cases hs
    · cases hs
    · cases hs
      exact .of_workers rfl (.inl rfl)
    · split at hs
      · cases hs
      · rename_i hs₁
        cases hs
        exact .of_createWorker h hs₁
    · cases hs
      exact .of_workers rfl (.inl rfl)
    · split at hs
      · split at hs
        · cases hs
        · rename_i hs₁
          cases hs
          exact .of_createWorker h hs₁
      · cases hs
        exact .of_workers rfl (.inl rfl)
    · cases hs
      exact .of_workers rfl (.inl rfl)
    · split at hs
      · split at hs
        · cases hs
        · rename_i hs₁
          cases hs
          exact .of_createWorker h hs₁
      · cases hs
        exact .of_workers rfl (.inl rfl)
  | exit pid =>
    simp only [step] at hs
    split at hs <;> cases hs
    exact .of_workers rfl (.inl rfl)
  | sigchld pid =>
    simp only [step] at hs
    split at hs <;> cases hs
    exact .of_workers rfl (.inr ⟨_, .exited rfl, rfl⟩)

/-! ## A master with a clock -/

/-- What `mstime()` reads during a step; in `Start`, what it would read. -/
def reading : Act → Option UInt64
  | .runWake now | .restartWorkers now | .next now _ _ => some now
  | _ => none

/-- A master, what `mstime()` read last, and the calls of `fork` so far, oldest first, each with the id it was for and
the reading it came at. -/
structure Clocked where
  master : Master
  clock : UInt64
  forks : List (WorkerId × UInt64)

namespace Clocked

def start : Clocked := ⟨.new, 0, []⟩

def step (s : Clocked) (a : Act) : Option Clocked :=
  (s.master.step a).map (fun m =>
    ⟨m, (reading a).getD s.clock, s.forks ++ ((s.master.forkOf a).toList.map (fun f => (f.1, (reading a).getD s.clock)))⟩)

/-- The clock does not run back, and is a second from its end. -/
def Ticks (s : Clocked) (a : Act) : Prop := ∀ t ∈ reading a, s.clock ≤ t ∧ t.toNat + 1000 < UInt64.size

/-- `Kill` takes nobody out of `workers`, and `fork` returns no pid whose last exit is still to be handled. -/
def Calm (s : Master) : Act → Prop
  | .kill _ sig restart => sig ≠ 0 → restart = true
  | .next _ _ pid => pid ∉ s.exitedPids
  | _ => True

instance (s : Clocked) (a : Act) : Decidable (s.Ticks a) :=
  match hr : reading a with
  | none => .isTrue (fun t ht => by rw [hr] at ht; cases ht)
  | some t =>
    decidable_of_iff (s.clock ≤ t ∧ t.toNat + 1000 < UInt64.size) (by
      unfold Ticks
      rw [hr]
      exact ⟨fun h u hu => Option.some.inj hu ▸ h, fun h => h t rfl⟩)

instance (s : Master) (a : Act) : Decidable (Calm s a) :=
  match a with
  | .kill _ sig restart => inferInstanceAs (Decidable (sig ≠ 0 → restart = true))
  | .next _ _ pid => inferInstanceAs (Decidable (pid ∉ s.exitedPids))
  | .start _ _ | .updateOptions _ | .wake | .runWake _ | .restartWorkers _ | .exit _ | .sigchld _ => .isTrue trivial

/-- **Two calls of `fork` for one worker are more than a second apart.** -/
def Backoff (s : Clocked) : Prop := s.forks.Pairwise (fun f g => f.1 = g.1 → f.2.toNat + 1000 < g.2.toNat)

structure BackoffInv (s : Clocked) : Prop where
  supervised : Supervised s.master
  kills : ∀ id sig, Closure.kill id sig false ∈ s.master.wakeQueue → sig = 0
  delay : ∀ pid ms, Closure.restartWorker pid ms ∈ s.master.wakeQueue → ms = 1000
  owned : ∀ p r w, s.master.pidWorkers.lookup p = some r → s.master.recs r = some w → s.master.workers.lookup w.id ≠ none
  queued : ∀ e ∈ s.master.restartQueue, s.master.workers.lookup e.id ≠ none
  listed : ∀ f ∈ s.forks, s.master.workers.lookup f.1 ≠ none
  starting : ∀ todo, s.master.pc = .starting todo → ∀ f ∈ s.forks, f.1 ∉ todo.map creates
  past : ∀ f ∈ s.forks, f.2 ≤ s.clock
  due : ∀ e ∈ s.master.entries, ∀ f ∈ s.forks, f.1 = e.id → f.2.toNat + 1000 ≤ e.startTime.toNat
  backoff : Backoff s

variable {s s' : Clocked} {a : Act}

theorem BackoffInv.free (h : BackoffInv s) (hc : Calm s.master a) : Free s.master a := by
  cases a with
  | next now shm pid =>
    refine ⟨hc, ?_⟩
    split
    · rename_i w i todo hpc
      intro hmiss
      refine ⟨fun p r w' hl hw hid => h.owned p r w' hl hw (by rw [hid]; exact hmiss), fun hmem => ?_⟩
      obtain ⟨e, he, hid⟩ := List.mem_map.1 hmem
      exact h.queued e he (by rw [hid]; exact hmiss)
    · trivial
  | _ => trivial

theorem Ticks.past (h : ∀ f ∈ s.forks, f.2 ≤ s.clock) (ht : s.Ticks a) :
    ∀ f ∈ s.forks, f.2 ≤ (reading a).getD s.clock := by
  intro f hf
  rcases hr : reading a with _ | t
  · exact h f hf
  · exact UInt64.le_trans (h f hf) (ht t (by rw [hr]; rfl)).1

theorem BackoffInv.down (h : BackoffInv s) (hpc : s.master.pc = .down) : s.forks = [] := by
  refine List.eq_nil_iff_forall_not_mem.2 (fun f hf => ?_)
  obtain ⟨hrq, hno⟩ := h.supervised.inv.down hpc
  obtain ⟨r, hl⟩ := Option.ne_none_iff_exists'.1 (h.listed f hf)
  rcases h.supervised.placed f.1 r hl with hsome | hwait
  · exact hsome (hno f.1)
  · simp only [tokens, hpc, hrq] at hwait
    cases hwait

namespace BackoffInv

theorem start : BackoffInv start where
  supervised := .start
  kills := fun id sig hc => by cases hc
  delay := fun pid ms hc => by cases hc
  owned := fun p r w hl => by cases hl
  queued := fun e he => by cases he
  listed := fun f hf => by cases hf
  starting := fun todo hpc => by cases hpc
  past := fun f hf => by cases hf
  due := fun e he => by cases he
  backoff := .nil

/-- What a step of the master does to the tables, the queues and the restarts. -/
structure Stepped (s : Clocked) (a : Act) (m : Master) : Prop where
  supervised : Supervised m
  tables : TableStep s.master a m
  queue : QueueStep s.master a m
  wait : WaitStep s.master a m
  listed : ∀ id, s.master.workers.lookup id ≠ none → m.workers.lookup id ≠ none

theorem stepped {m : Master} (h : BackoffInv s) (hd : Distinct a) (hok : Succeeds a) (hc : Calm s.master a)
    (hm : s.master.step a = some m) : Stepped s a m where
  supervised := h.supervised.step hd hok (h.free hc) hm
  tables := h.supervised.named.tables hm
  queue := queueStep h.supervised.named hm
  wait := waitStep h.supervised.inv hm
  listed := fun id hid => by
    rcases (queueStep h.supervised.named hm).listed id hid with hl | ⟨sig, hsig, hc⟩
    · exact hl
    · exact absurd (h.kills id sig hc) hsig

variable {m : Master}

theorem owned_step (h : BackoffInv s) (hm : Stepped s a m) {p : Int} {r : Nat} {w : WorkerProcess}
    (hl : m.pidWorkers.lookup p = some r) (hw : m.recs r = some w) : m.workers.lookup w.id ≠ none := by
  cases hm.tables with
  | same hf hch hsame =>
    rw [hsame.pidWorkers] at hl
    rw [hsame.recs] at hw
    exact hm.listed _ (h.owned p r w hl hw)
  | @created option idx pid r₀ w₀ s₁ pc hf hc hs' =>
    subst hs'
    have hl : s₁.pidWorkers.lookup p = some r := hl
    have hw : s₁.recs r = some w := hw
    show s₁.workers.lookup w.id ≠ none
    by_cases hr : r = r₀
    · rw [hc.recs, hr, Function.update_self] at hw
      cases hw
      rw [hc.workers]
      split
      · rw [AList.lookup_insert]
        simp
      · assumption
    · rw [hc.recs, Function.update_of_ne hr] at hw
      rw [hc.pidWorkers] at hl
      exact hm.listed _ (h.owned p r w ((lookup_insert_some.1 hl).resolve_left (fun he => hr he.2)).2 hw)
  | @destroyed pid r₀ w₀ hf hd =>
    rw [hd.pidWorkers] at hl
    have hl := (lookup_erase_some.1 hl).2
    by_cases hr : r = r₀
    · subst hr
      have hid : w.id = w₀.id := by
        rw [hd.recs, Function.update_self] at hw
        split at hw <;> cases hw
        rfl
      rw [hid]
      exact hm.listed _ (h.owned p r w₀ hl hd.record)
    · rw [hd.recs, Function.update_of_ne hr] at hw
      exact hm.listed _ (h.owned p r w hl hw)
  | killed hf hl' hw' hs' =>
    refine hm.listed _ (h.owned p r w ?_ ?_)
    · subst hs'
      exact hl
    · subst hs'
      exact hw

theorem queued_step (h : BackoffInv s) (hm : Stepped s a m) {e : WorkerRestartOptions} (he : e ∈ m.restartQueue) :
    m.workers.lookup e.id ≠ none := by
  cases hm.tables with
  | same hf hch hsame =>
    rcases hsame.restartQueue e he with he | ⟨todo, next, hpc, he⟩
    · exact hm.listed _ (h.queued e he)
    · exact hm.listed _ (h.queued e ((h.supervised.inv.drain _ _ hpc).subset (List.mem_append_left _ he)))
  | created pc hf hc hs' =>
    subst hs'
    exact hm.listed _ (h.queued e (hc.restartQueue ▸ he))
  | @destroyed pid r w hf hd =>
    obtain ⟨t, hrq⟩ := hd.restartQueue
    rw [hrq] at he
    split at he
    · exact hm.listed _ (h.queued e he)
    · rename_i hthere
      rcases List.mem_append.1 he with he | he
      · exact hm.listed _ (h.queued e he)
      · rw [List.mem_singleton.1 he, hd.workers]
        show s.master.workers.lookup ⟨w.options.name, w.id.idx⟩ ≠ none
        rw [h.supervised.named.opt r w hd.record]
        exact hthere
  | killed hf hl hw hs' =>
    have he : e ∈ s.master.restartQueue := by
      subst hs'
      exact he
    exact hm.listed _ (h.queued e he)

theorem forked_step {id : WorkerId} {pid : Int} (h : BackoffInv s) (hm : Stepped s a m)
    (hf : s.master.forkOf a = some (id, pid)) : m.workers.lookup id ≠ none ∧ id ∉ m.tokens := by
  cases hm.tables with
  | same hf' hch hsame => cases hf.symm.trans hf'
  | @created option idx pid' r w s₁ pc hf' hc hs' =>
    cases hf.symm.trans hf'
    obtain ⟨hwid, -⟩ := h.supervised.named.created hc
    have hl : m.pidWorkers.lookup pid = some r := by
      subst hs'
      show s₁.pidWorkers.lookup pid = some r
      rw [hc.pidWorkers, AList.lookup_insert]
    have hw : m.recs r = some w := by
      subst hs'
      show s₁.recs r = some w
      rw [hc.recs, Function.update_self]
    exact ⟨hwid ▸ h.owned_step hm hl hw, fun hid => hm.supervised.inv.core.toksFree _ hid pid r w hl hw hwid⟩
  | destroyed hf' hd => cases hf.symm.trans hf'
  | killed hf' hl hw hs' => cases hf.symm.trans hf'

theorem due_step (h : BackoffInv s) (hm : Stepped s a m) (ht : s.Ticks a) {e : WorkerRestartOptions}
    (he : e ∈ m.entries) {f : WorkerId × UInt64} (hf : f ∈ s.forks) (hid : f.1 = e.id) :
    f.2.toNat + 1000 ≤ e.startTime.toNat := by
  cases hm.wait with
  | kept hf' he' ht' hrq hst => exact h.due e (he' ▸ he) f hf hid
  | started ha hpc hs' =>
    rw [h.down hpc] at hf
    cases hf
  | forked hf' he' ht' hst hwhy => exact h.due e (he'.subset he) f hf hid
  | @ended pid afterMs now r w q ha hq hl hw hpc he' ht' =>
    rw [he'] at he
    rcases List.mem_append.1 he with he | he
    · exact h.due e he f hf hid
    · obtain ⟨hle, hlt⟩ := ht now (by rw [ha]; rfl)
      have hms : afterMs = 1000 := h.delay pid afterMs (hq ▸ List.mem_cons_self)
      have hpast := UInt64.le_iff_toNat_le.1 (UInt64.le_trans (h.past f hf) hle)
      rw [List.mem_singleton.1 he, hms]
      show f.2.toNat + 1000 ≤ (now + 1000).toNat
      have hsecond : (1000 : UInt64).toNat = 1000 := rfl
      have hlt : now.toNat + 1000 < 2 ^ 64 := hlt
      rw [UInt64.toNat_add, hsecond]
      omega

/-- **The new process comes more than a second after the last one of its worker.** -/
theorem backoff_step {id : WorkerId} {pid : Int} (h : BackoffInv s) (hm : Stepped s a m)
    (hf : s.master.forkOf a = some (id, pid)) {f : WorkerId × UInt64} (hmem : f ∈ s.forks) (hid : f.1 = id) :
    f.2.toNat + 1000 < ((reading a).getD s.clock).toNat := by
  cases hm.wait with
  | kept hf' he ht hrq hst => cases hf.symm.trans hf'
  | started ha hpc hs' =>
    rw [ha] at hf
    cases hf
  | forked hf' he ht hst hwhy =>
    cases hf.symm.trans hf'
    rcases hwhy with ⟨todo, hpc, hin⟩ | ⟨now, shm, e, ha, hin, -, he', hdue⟩ | hmiss
    · exact absurd (hid ▸ hin) (h.starting todo hpc f hmem)
    · have hd := h.due e hin f hmem (hid.trans he'.symm)
      have hlt := UInt64.lt_iff_toNat_lt.1 hdue
      rw [ha]
      show f.2.toNat + 1000 < now.toNat
      omega
    · exact absurd (hid ▸ hmiss) (h.listed f hmem)
  | ended ha hq hl hw hpc he ht =>
    rw [ha] at hf
    cases hf

theorem step (h : BackoffInv s) (hd : Distinct a) (hok : Succeeds a) (hc : Calm s.master a) (ht : s.Ticks a)
    (hs : s.step a = some s') : BackoffInv s' := by
  obtain ⟨m, hm, rfl⟩ := Option.map_eq_some_iff.1 hs
  have hst := h.stepped hd hok hc hm
  have hpast := ht.past h.past
  -- the calls of `fork` so far and the one of this step
  have hnew : ∀ f ∈ s.forks ++ (s.master.forkOf a).toList.map (fun f => (f.1, (reading a).getD s.clock)),
      f ∈ s.forks ∨ ∃ id pid, s.master.forkOf a = some (id, pid) ∧ f = (id, (reading a).getD s.clock) := by
    intro f hf
    rcases List.mem_append.1 hf with hf | hf
    · exact .inl hf
    · obtain ⟨g, hg, rfl⟩ := List.mem_map.1 hf
      exact .inr ⟨g.1, g.2, Option.mem_toList.1 hg, rfl⟩
  refine ⟨hst.supervised, fun id sig hk => ?_, fun pid ms hk => ?_, fun p r w => h.owned_step hst,
    fun e => h.queued_step hst, fun f hf => ?_, fun todo hpc f hf hin => ?_, fun f hf => ?_, fun e he f hf hid => ?_, ?_⟩
  · rcases hst.queue.queued _ hk with hk | hk
    · exact h.kills id sig hk
    · cases hk with
      | kill ha =>
        subst ha
        by_contra hsig
        exact absurd (hc hsig) (by decide)
  · rcases hst.queue.queued _ hk with hk | hk
    · exact h.delay pid ms hk
    · cases hk
      rfl
  · rcases hnew f hf with hf | ⟨id, pid, hfork, rfl⟩
    · exact hst.listed _ (h.listed f hf)
    · exact (h.forked_step hst hfork).1
  · rcases hnew f hf with hf | ⟨id, pid, hfork, rfl⟩
    · cases hst.wait with
      | kept hf' he ht' hrq hpc' => exact h.starting todo (hpc' todo hpc) f hf hin
      | started ha hdown hs' =>
        rw [h.down hdown] at hf
        cases hf
      | forked hf' he ht' hpc' hwhy =>
        obtain ⟨x, hx⟩ := hpc' todo hpc
        exact h.starting _ hx f hf (List.mem_cons_of_mem _ hin)
      | ended ha hq hl hw hidle he ht' =>
        rw [hidle] at hpc
        cases hpc
    · refine (h.forked_step hst hfork).2 ?_
      have hpc : m.pc = .starting todo := hpc
      unfold tokens
      rw [hpc]
      exact hin
  · rcases hnew f hf with hf | ⟨id, pid, hfork, rfl⟩
    · exact hpast f hf
    · exact UInt64.le_refl _
  · rcases hnew f hf with hf | ⟨id, pid, hfork, rfl⟩
    · exact h.due_step hst ht he hf hid
    · exact absurd (hst.supervised.inv.entries_tokens he) (hid ▸ (h.forked_step hst hfork).2)
  · refine List.pairwise_append.2 ⟨h.backoff, ?_, fun f hf g hg hid => ?_⟩
    · rcases s.master.forkOf a with _ | x
      · exact .nil
      · exact List.pairwise_singleton _ _
    · obtain ⟨x, hx, rfl⟩ := List.mem_map.1 hg
      exact h.backoff_step hst (Option.mem_toList.1 hx) hf hid

end BackoffInv

end Clocked

/-- One worker: it exits at once, its second is not over at the first check and is at the next. -/
def exitedAtOnce : List Act :=
  [.start [.new "w"] true, .next 5000 true 100, .next 5000 true 101, .runWake 5000, .exit 100, .sigchld 100,
    .runWake 5010, .restartWorkers 5020, .next 6005 true 101, .next 6005 true 101, .next 6005 true 101,
    .next 6005 true 101, .restartWorkers 6100, .next 6101 true 101]

end Master
end Shm
