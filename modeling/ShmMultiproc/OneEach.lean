import ShmMultiproc.Lib.Table
import ShmMultiproc.Master
/-!
# OneEach — at most one process per worker identity

`workers`, `pid_workers` and `restart_queue` are changed by different functions that do not consult one another.  What
ties them together (`Core`) is kept by every step but one: the periodic check creates a worker as soon as its id is
missing from `workers`, and `Kill(id, sig, false)` takes the id out while the process is still running, or its restart
still to come.  As long as the check finds nothing of the kind (`Free`), there is at most one process for each id
(`one_process_each`).
-/
namespace Shm
namespace Master

open Machine (Reach)
open Table (lookup_insert_some lookup_erase_some)

/-- **No record of `id` is entered in `pid_workers`.** -/
def NoPid (s : Master) (id : WorkerId) : Prop :=
  ∀ p r w, s.pidWorkers.lookup p = some r → s.recs r = some w → w.id ≠ id

/-- What ties the tables together, `toks` being the ids of the restarts still to come. -/
structure Core (s : Master) (toks : List WorkerId) : Prop where
  alloc : ∀ r, s.nextRec ≤ r → s.recs r = none
  opt : ∀ r w, s.recs r = some w → w.options.name = w.id.name
  named : ∀ id r, s.workers.lookup id = some r → ∃ w, s.recs r = some w ∧ w.id = id
  pid : ∀ p r, s.pidWorkers.lookup p = some r → ∃ w, s.recs r = some w ∧ w.pid = p
  ids : ∀ p q r r' w w', s.pidWorkers.lookup p = some r → s.pidWorkers.lookup q = some r' → s.recs r = some w →
    s.recs r' = some w' → w.id = w'.id → p = q
  child : ∀ c ∈ s.children, ∃ r w, s.pidWorkers.lookup c.pid = some r ∧ s.recs r = some w ∧ w.id = c.id
  pids : (s.children.map Child.pid).Nodup
  reaped : ∀ p r, s.pidWorkers.lookup p = some r → p ∈ s.children.map Child.pid ∨ p ∈ s.exitedPids
  exited : ∀ p ∈ s.exitedPids, p ∉ s.children.map Child.pid
  toksNodup : toks.Nodup
  toksFree : ∀ id ∈ toks, s.NoPid id

namespace Core

variable {s s' : Master} {toks toks' : List WorkerId} {id : WorkerId} {r : Nat} {w : WorkerProcess}

theorem sublist (h : Core s toks) (hsub : toks'.Sublist toks) : Core s toks' :=
  { h with
    toksNodup := h.toksNodup.sublist hsub
    toksFree := fun id hid => h.toksFree id (hsub.subset hid) }

theorem new : Core new [] where
  alloc := fun _ _ => rfl
  opt := fun r w h => by cases h
  named := fun id r h => by cases h
  pid := fun p r h => by cases h
  ids := fun p q r r' w w' h => by cases h
  child := fun c hc => by cases hc
  pids := List.nodup_nil
  reaped := fun p r h => by cases h
  exited := fun p hp => by cases hp
  toksNodup := List.nodup_nil
  toksFree := fun id hid => by cases hid

theorem setRec (h : Core s toks) (w : WorkerProcess) (hun : ∀ p, s.pidWorkers.lookup p ≠ some r)
    (hopt : w.options.name = w.id.name) (hold : ∀ w₀, s.recs r = some w₀ → w₀.id = w.id) {n : Nat}
    (hn : s.nextRec ≤ n) (hr : r < n) :
    Core { s with recs := Function.update s.recs r (some w), nextRec := n } toks where
  alloc := fun r' hr' => by
    have hr' : n ≤ r' := hr'
    show Function.update s.recs r (some w) r' = none
    rw [Function.update_of_ne (by omega)]
    exact h.alloc r' (by omega)
  opt := fun r' w' hw' => by
    have hw' : Function.update s.recs r (some w) r' = some w' := hw'
    by_cases hrr : r' = r
    · subst hrr
      rw [Function.update_self] at hw'
      cases hw'
      exact hopt
    · rw [Function.update_of_ne hrr] at hw'
      exact h.opt r' w' hw'
  named := fun id' r' hl => by
    obtain ⟨w₀, hw₀, hid₀⟩ := h.named id' r' hl
    show ∃ w', Function.update s.recs r (some w) r' = some w' ∧ w'.id = id'
    by_cases hrr : r' = r
    · subst hrr
      exact ⟨w, Function.update_self .., by rw [← hold w₀ hw₀, hid₀]⟩
    · exact ⟨w₀, by rw [Function.update_of_ne hrr]; exact hw₀, hid₀⟩
  pid := fun p r' hl => by
    show ∃ w', Function.update s.recs r (some w) r' = some w' ∧ w'.pid = p
    rw [Function.update_of_ne (by rintro rfl; exact hun p hl)]
    exact h.pid p r' hl
  ids := fun p q r₁ r₂ w₁ w₂ hp hq h₁ h₂ he => by
    have h₁ : Function.update s.recs r (some w) r₁ = some w₁ := h₁
    have h₂ : Function.update s.recs r (some w) r₂ = some w₂ := h₂
    rw [Function.update_of_ne (by rintro rfl; exact hun p hp)] at h₁
    rw [Function.update_of_ne (by rintro rfl; exact hun q hq)] at h₂
    exact h.ids p q r₁ r₂ w₁ w₂ hp hq h₁ h₂ he
  child := fun c hc => by
    obtain ⟨r', w', hl, hw', hid'⟩ := h.child c hc
    refine ⟨r', w', hl, ?_, hid'⟩
    show Function.update s.recs r (some w) r' = some w'
    rw [Function.update_of_ne (by rintro rfl; exact hun _ hl)]
    exact hw'
  pids := h.pids
  reaped := h.reaped
  exited := h.exited
  toksNodup := h.toksNodup
  toksFree := fun id' hid' p r' w' hl hw' => by
    have hw' : Function.update s.recs r (some w) r' = some w' := hw'
    rw [Function.update_of_ne (by rintro rfl; exact hun p hl)] at hw'
    exact h.toksFree id' hid' p r' w' hl hw'

end Core

/-! ## Creating a worker -/

/-- The record at `r` is for `id` and not entered in `pid_workers`. -/
structure Fresh (s : Master) (r : Nat) (id : WorkerId) : Prop where
  lt : r < s.nextRec
  exists_rec : ∃ w, s.recs r = some w ∧ w.id = id ∧ w.options.name = id.name
  unmapped : ∀ p, s.pidWorkers.lookup p ≠ some r
  noPid : s.NoPid id

variable {s s' : Master} {toks : List WorkerId}

theorem Core.record (h : Core s toks) (option : WorkerOptions) (id : WorkerId) (hname : option.name = id.name)
    (hno : s.NoPid id) :
    Core (s.record option id).1 toks ∧ Fresh (s.record option id).1 (s.record option id).2 id ∧
      (s.record option id).1.exitedPids = s.exitedPids := by
  unfold Master.record
  split
  · rename_i r hr
    obtain ⟨w, hw, hid⟩ := h.named id r hr
    have hun : ∀ p, s.pidWorkers.lookup p ≠ some r := fun p hp => hno p r w hp hw hid
    refine ⟨h, ⟨?_, ⟨w, hw, hid, by rw [h.opt r w hw, hid]⟩, hun, hno⟩, rfl⟩
    by_contra hge
    rw [h.alloc r (Nat.le_of_not_lt hge)] at hw
    cases hw
  · have hnone := h.alloc s.nextRec (Nat.le_refl _)
    have hun : ∀ p, s.pidWorkers.lookup p ≠ some s.nextRec := fun p hp => by
      obtain ⟨w, hw, -⟩ := h.pid p _ hp
      rw [hnone] at hw
      cases hw
    have hcore := h.setRec ⟨option, id, 0, false, none⟩ hun hname
      (fun w₀ hw₀ => by rw [hnone] at hw₀; cases hw₀) (n := s.nextRec + 1) (by omega) (by omega)
    refine ⟨hcore, ⟨Nat.lt_succ_self _, ⟨_, Function.update_self .., rfl, hname⟩, hun, fun p r w hp hw => ?_⟩, rfl⟩
    have hw : Function.update s.recs s.nextRec (some ⟨option, id, 0, false, none⟩) r = some w := hw
    rw [Function.update_of_ne (by rintro rfl; exact hun p hp)] at hw
    exact hno p r w hp hw

theorem Core.openReader {id : WorkerId} {r : Nat} {shm : Bool} (h : Core s toks) (hf : Fresh s r id)
    (hs : s.openReader r shm = some s') : Core s' toks ∧ Fresh s' r id ∧ s'.exitedPids = s.exitedPids := by
  obtain ⟨w, hw, hid, hopt⟩ := hf.exists_rec
  unfold Master.openReader at hs
  rw [hw] at hs
  simp only at hs
  split at hs
  · cases hs
    exact ⟨h, hf, rfl⟩
  · split at hs
    · cases hs
    · cases hs
      have hex : List.filterMap Closure.exited (s.wakeQueue ++ [.attach s.nextFifo]) = s.exitedPids := by
        rw [List.filterMap_append]
        exact List.append_nil _
      have hcore := h.setRec { w with shm := true, reader := some s.nextFifo } hf.unmapped (by rw [hopt, hid])
        (fun w₀ hw₀ => by rw [hw] at hw₀; cases hw₀; rfl) (n := s.nextRec) (Nat.le_refl _) hf.lt
      refine ⟨{ hcore with
          reaped := fun p r hp => by rw [exitedPids, hex]; exact h.reaped p r hp
          exited := fun p hp => by rw [exitedPids, hex] at hp; exact h.exited p hp },
        ⟨hf.lt, ⟨_, Function.update_self .., hid, hopt⟩, hf.unmapped, fun p r' w' hp hw' => ?_⟩, hex⟩
      have hw' : Function.update s.recs r (some { w with shm := true, reader := some s.nextFifo }) r' = some w' := hw'
      rw [Function.update_of_ne (by rintro rfl; exact hf.unmapped p hp)] at hw'
      exact hf.noPid p r' w' hp hw'

theorem Core.forkWorker {id : WorkerId} {r : Nat} {pid : Int} (h : Core s toks) (hf : Fresh s r id)
    (hpid : 0 < pid) (hex : pid ∉ s.exitedPids) (hid : id ∉ toks) (hs : s.forkWorker r pid = some s') :
    Core s' toks := by
  obtain ⟨w, hw, rfl, hopt⟩ := hf.exists_rec
  unfold Master.forkWorker at hs
  rw [hw] at hs
  simp only at hs
  split at hs
  · cases hs
  · split at hs
    · rename_i hnew
      have hfresh : pid ∉ s.children.map Child.pid := by
        rcases hnew with h1 | h1
        · omega
        · exact h1.2
      cases hs
      have hcore := h.setRec { w with pid := pid } hf.unmapped hopt
        (fun w₀ hw₀ => by rw [hw] at hw₀; cases hw₀; rfl) (n := s.nextRec) (Nat.le_refl _) hf.lt
      have hself : Function.update s.recs r (some { w with pid := pid }) r = some { w with pid := pid } :=
        Function.update_self ..
      have hlook : ∀ p r', (s.pidWorkers.insert pid r).lookup p = some r' →
          (p = pid ∧ r' = r) ∨ (p ≠ pid ∧ s.pidWorkers.lookup p = some r') := by
        intro p r' hp
        exact lookup_insert_some.1 hp
      have hother : ∀ p r' w', s.pidWorkers.lookup p = some r' →
          Function.update s.recs r (some { w with pid := pid }) r' = some w' → s.recs r' = some w' := by
        intro p r' w' hp hw'
        rwa [Function.update_of_ne (by rintro rfl; exact hf.unmapped p hp)] at hw'
      exact {
        alloc := hcore.alloc
        opt := hcore.opt
        named := fun id' r' hl => by
          have hl : (if s.getWorker w.id = none then s.workers.insert w.id r else s.workers).lookup id' = some r' := hl
          split at hl
          · rcases lookup_insert_some.1 hl with ⟨rfl, rfl⟩ | ⟨-, hl⟩
            · exact ⟨_, hself, rfl⟩
            · exact hcore.named id' r' hl
          · exact hcore.named id' r' hl
        pid := fun p r' hp => by
          rcases hlook p r' hp with ⟨rfl, rfl⟩ | ⟨-, hp⟩
          · exact ⟨_, hself, rfl⟩
          · exact hcore.pid p r' hp
        ids := fun p q r₁ r₂ w₁ w₂ hp hq h₁ h₂ he => by
          rcases hlook p r₁ hp with ⟨rfl, rfl⟩ | ⟨-, hp'⟩ <;> rcases hlook q r₂ hq with ⟨rfl, rfl⟩ | ⟨-, hq'⟩
          · rfl
          · cases hself.symm.trans h₁
            exact absurd he.symm (hf.noPid q r₂ w₂ hq' (hother q r₂ w₂ hq' h₂))
          · cases hself.symm.trans h₂
            exact absurd he (hf.noPid p r₁ w₁ hp' (hother p r₁ w₁ hp' h₁))
          · exact h.ids p q r₁ r₂ w₁ w₂ hp' hq' (hother p r₁ w₁ hp' h₁) (hother q r₂ w₂ hq' h₂) he
        child := fun c hc => by
          rcases List.mem_append.1 hc with hc | hc
          · obtain ⟨r', w', hl, hw', hid'⟩ := hcore.child c hc
            refine ⟨r', w', ?_, hw', hid'⟩
            show (s.pidWorkers.insert pid r).lookup c.pid = some r'
            rw [AList.lookup_insert_ne (fun he => hfresh (by rw [← he]; exact List.mem_map_of_mem hc))]
            exact hl
          · rw [List.mem_singleton.1 hc]
            exact ⟨r, _, AList.lookup_insert _, hself, rfl⟩
        pids := by
          show (List.map Child.pid (s.children ++ [⟨pid, w.id, true⟩])).Nodup
          rw [List.map_append]
          exact List.nodup_append.2 ⟨h.pids, by simp, fun a ha b hb => by
            rw [List.mem_singleton.1 hb]; rintro rfl; exact hfresh ha⟩
        reaped := fun p r' hp => by
          show p ∈ List.map Child.pid (s.children ++ [⟨pid, w.id, true⟩]) ∨ p ∈ s.exitedPids
          rw [List.map_append, List.mem_append]
          rcases hlook p r' hp with ⟨rfl, -⟩ | ⟨-, hp⟩
          · exact .inl (.inr (List.mem_singleton.2 rfl))
          · exact (h.reaped p r' hp).imp .inl id
        exited := fun p hp => by
          show p ∉ List.map Child.pid (s.children ++ [⟨pid, w.id, true⟩])
          rw [List.map_append, List.mem_append]
          rintro (hc | hc)
          · exact h.exited p hp hc
          · rw [List.mem_singleton.1 hc] at hp
            exact hex hp
        toksNodup := h.toksNodup
        toksFree := fun id' hid' p r' w' hp hw' => by
          rcases hlook p r' hp with ⟨rfl, rfl⟩ | ⟨-, hp⟩
          · cases hself.symm.trans hw'
            rintro rfl
            exact hid hid'
          · exact h.toksFree id' hid' p r' w' hp (hother p r' w' hp hw') }
    · cases hs

/-- **`CreateWorker` keeps the tables together** when no process of its id is left and no restart of it to come. -/
theorem Core.createWorker {option : WorkerOptions} {idx : Int} {shm : Bool} {pid : Int} (h : Core s toks)
    (hno : s.NoPid ⟨option.name, idx⟩) (hid : (⟨option.name, idx⟩ : WorkerId) ∉ toks) (hpid : 0 < pid)
    (hex : pid ∉ s.exitedPids) (hs : s.createWorker option idx shm pid = some s') : Core s' toks := by
  unfold Master.createWorker at hs
  obtain ⟨h₁, hf₁, hex₁⟩ := h.record option ⟨option.name, idx⟩ rfl hno
  simp only at hs
  split at hs
  · cases hs
  · rename_i s₂ hs₂
    obtain ⟨h₂, hf₂, hex₂⟩ := h₁.openReader hf₁ hs₂
    exact h₂.forkWorker hf₂ hpid (by rw [hex₂, hex₁]; exact hex) hid hs

theorem createWorker_restartQueue {option : WorkerOptions} {idx : Int} {shm : Bool} {pid : Int}
    (hs : s.createWorker option idx shm pid = some s') : s'.restartQueue = s.restartQueue := by
  have hrec : (s.record option ⟨option.name, idx⟩).1.restartQueue = s.restartQueue := by
    unfold Master.record; split <;> rfl
  unfold Master.createWorker at hs
  simp only at hs
  split at hs
  · cases hs
  · rename_i s₂ hs₂
    have hopen : s₂.restartQueue = s.restartQueue := by
      rw [← hrec]
      unfold Master.openReader at hs₂
      split at hs₂
      · cases hs₂
      · split at hs₂
        · cases hs₂; rfl
        · split at hs₂ <;> cases hs₂
          rfl
    rw [← hopen]
    unfold Master.forkWorker at hs
    split at hs
    · cases hs
    · split at hs
      · cases hs
      · split at hs <;> cases hs
        rfl

/-! ## The functions in the wake queue -/

theorem Core.setQueue (h : Core s toks) {q : List Closure} (hq : q.filterMap Closure.exited = s.exitedPids) :
    Core { s with wakeQueue := q } toks :=
  { h with
    reaped := fun p r hp => by
      have : exitedPids { s with wakeQueue := q } = s.exitedPids := hq
      rw [this]
      exact h.reaped p r hp
    exited := fun p hp => by
      have : exitedPids { s with wakeQueue := q } = s.exitedPids := hq
      rw [this] at hp
      exact h.exited p hp }

theorem Core.push {id : WorkerId} (h : Core s toks) (hno : s.NoPid id) (hid : id ∉ toks) : Core s (toks ++ [id]) :=
  { h with
    toksNodup := List.nodup_append.2 ⟨h.toksNodup, by simp, fun a ha b hb => by
      rw [List.mem_singleton.1 hb]; rintro rfl; exact hid ha⟩
    toksFree := fun id' hid' => by
      rcases List.mem_append.1 hid' with hid' | hid'
      · exact h.toksFree id' hid'
      · rw [List.mem_singleton.1 hid']; exact hno }

/-- **The function of an exit takes the pid out of `pid_workers`**, and its id is free then. -/
theorem Core.unmap {pid : Int} {r : Nat} {w : WorkerProcess} (h : Core s toks) (hl : s.pidWorkers.lookup pid = some r)
    (hw : s.recs r = some w) (hex : s.exitedPids = pid :: s'.exitedPids)
    (hmap : s'.pidWorkers = s.pidWorkers.erase pid) (hworkers : s'.workers = s.workers)
    (hchildren : s'.children = s.children) (hnext : s'.nextRec = s.nextRec) (hrecs : ∀ r' ≠ r, s'.recs r' = s.recs r')
    (hkept : (∃ w', s'.recs r = some w' ∧ w'.id = w.id ∧ w'.options = w.options) ∨
      (s'.recs r = none ∧ s.workers.lookup w.id = none)) :
    Core s' toks ∧ s'.NoPid w.id ∧ w.id ∉ toks := by
  have hlook : ∀ p r', s'.pidWorkers.lookup p = some r' → p ≠ pid ∧ s.pidWorkers.lookup p = some r' ∧ r' ≠ r := by
    intro p r' hp
    rw [hmap] at hp
    obtain ⟨hne, hp⟩ := lookup_erase_some.1 hp
    exact ⟨hne, hp, fun he => hne (h.ids p pid r' r w w hp hl (by rw [he]; exact hw) hw rfl)⟩
  have hpidOut : pid ∉ s.children.map Child.pid := h.exited pid (by rw [hex]; exact List.mem_cons_self)
  refine ⟨{
    alloc := fun r' hr' => ?_
    opt := fun r' w' hw' => ?_
    named := fun id r' hl' => ?_
    pid := fun p r' hp => ?_
    ids := fun p q r₁ r₂ w₁ w₂ hp hq h₁ h₂ he => ?_
    child := fun c hc => ?_
    pids := by rw [hchildren]; exact h.pids
    reaped := fun p r' hp => ?_
    exited := fun p hp => by
      rw [hchildren]
      exact h.exited p (by rw [hex]; exact List.mem_cons_of_mem _ hp)
    toksNodup := h.toksNodup
    toksFree := fun id hid p r' w' hp hw' => ?_ }, fun p r' w' hp hw' he => ?_, fun hid => ?_⟩
  · rw [hnext] at hr'
    have hne : r' ≠ r := by
      rintro rfl
      rw [h.alloc _ hr'] at hw
      cases hw
    rw [hrecs r' hne]
    exact h.alloc r' hr'
  · by_cases hr' : r' = r
    · subst hr'
      rcases hkept with ⟨w₁, hw₁, hid₁, hopt₁⟩ | ⟨hgone, -⟩
      · rw [hw₁] at hw'
        cases hw'
        rw [hid₁, hopt₁]
        exact h.opt r' w hw
      · rw [hgone] at hw'
        cases hw'
    · rw [hrecs r' hr'] at hw'
      exact h.opt r' w' hw'
  · rw [hworkers] at hl'
    obtain ⟨w₀, hw₀, rfl⟩ := h.named id r' hl'
    by_cases hr' : r' = r
    · subst hr'
      rw [hw] at hw₀
      cases hw₀
      rcases hkept with ⟨w₁, hw₁, hid₁, -⟩ | ⟨-, hgone⟩
      · exact ⟨w₁, hw₁, hid₁⟩
      · rw [hgone] at hl'
        cases hl'
    · exact ⟨w₀, by rw [hrecs r' hr']; exact hw₀, rfl⟩
  · obtain ⟨-, hp', hne⟩ := hlook p r' hp
    obtain ⟨w', hw', hpid⟩ := h.pid p r' hp'
    exact ⟨w', by rw [hrecs r' hne]; exact hw', hpid⟩
  · obtain ⟨-, hp', hne⟩ := hlook p r₁ hp
    obtain ⟨-, hq', hne'⟩ := hlook q r₂ hq
    rw [hrecs r₁ hne] at h₁
    rw [hrecs r₂ hne'] at h₂
    exact h.ids p q r₁ r₂ w₁ w₂ hp' hq' h₁ h₂ he
  · rw [hchildren] at hc
    obtain ⟨r', w', hl', hw', hid'⟩ := h.child c hc
    have hne : c.pid ≠ pid := fun he => hpidOut (by rw [← he]; exact List.mem_map_of_mem hc)
    have hlook' : s'.pidWorkers.lookup c.pid = some r' := by rw [hmap, AList.lookup_erase_ne hne]; exact hl'
    obtain ⟨-, -, hr'⟩ := hlook c.pid r' hlook'
    exact ⟨r', w', hlook', by rw [hrecs r' hr']; exact hw', hid'⟩
  · obtain ⟨hne, hp', -⟩ := hlook p r' hp
    rw [hchildren]
    rcases h.reaped p r' hp' with hc | hc
    · exact .inl hc
    · rw [hex] at hc
      exact .inr ((List.mem_cons.1 hc).resolve_left hne)
  · obtain ⟨-, hp', hne⟩ := hlook p r' hp
    rw [hrecs r' hne] at hw'
    exact h.toksFree id hid p r' w' hp' hw'
  · obtain ⟨hne, hp', hr'⟩ := hlook p r' hp
    rw [hrecs r' hr'] at hw'
    exact hne (h.ids p pid r' r w' w hp' hl hw' hw he)
  · exact h.toksFree w.id hid pid r w hl hw rfl

theorem Core.runRestartWorker {pid : Int} {afterMs now : UInt64} {q : List Closure} (h : Core s toks)
    (hq : s.wakeQueue = .restartWorker pid afterMs :: q)
    (hs : ({ s with wakeQueue := q } : Master).runRestartWorker pid afterMs now = some s') :
    ∃ new, s'.restartQueue = s.restartQueue ++ new ∧ s'.pc = s.pc ∧
      Core s' (toks ++ new.map WorkerRestartOptions.id) := by
  have hex : s.exitedPids = pid :: q.filterMap Closure.exited := by
    unfold exitedPids
    rw [hq]
    rfl
  unfold Master.runRestartWorker at hs
  split at hs
  · rename_i hnone
    have hnone : s.pidWorkers.lookup pid = none := hnone
    cases hs
    refine ⟨[], (List.append_nil _).symm, rfl, ?_⟩
    rw [List.map_nil, List.append_nil]
    exact { h with
      reaped := fun p r hp => by
        rcases h.reaped p r hp with hc | hc
        · exact .inl hc
        · rw [hex] at hc
          refine .inr ((List.mem_cons.1 hc).resolve_left ?_)
          rintro rfl
          have hp : s.pidWorkers.lookup p = some r := hp
          rw [hnone] at hp
          cases hp
      exited := fun p hp => h.exited p (by rw [hex]; exact List.mem_cons_of_mem _ hp) }
  · rename_i r hl
    have hl : s.pidWorkers.lookup pid = some r := hl
    obtain ⟨w, hw, rfl⟩ := h.pid pid r hl
    unfold Master.destoryWorker at hs
    simp only [hw] at hs
    cases hrd : w.reader with
    | none => simp only [hrd] at hs; cases hs
    | some f =>
      simp only [hrd] at hs
      have hself : Function.update s.recs r (some { w with shm := false, reader := none }) r =
          some { w with shm := false, reader := none } := Function.update_self ..
      split at hs
      · rename_i hgone
        cases hs
        refine ⟨[], (List.append_nil _).symm, rfl, ?_⟩
        rw [List.map_nil, List.append_nil]
        have hout : Core ({ s with
            wakeQueue := q
            attached := s.attached.erase f
            deletedFifos := s.deletedFifos ++ [f]
            pidWorkers := s.pidWorkers.erase w.pid
            recs := Function.update (Function.update s.recs r (some { w with shm := false, reader := none })) r none } :
              Master) toks ∧ _ :=
          h.unmap hl hw hex rfl rfl rfl rfl
            (fun r' hr' => (Function.update_of_ne hr' ..).trans (Function.update_of_ne hr' ..))
            (.inr ⟨Function.update_self .., hgone⟩)
        exact hout.1
      · cases hs
        have hout : Core ({ s with
            wakeQueue := q
            attached := s.attached.erase f
            deletedFifos := s.deletedFifos ++ [f]
            pidWorkers := s.pidWorkers.erase w.pid
            recs := Function.update s.recs r (some { w with shm := false, reader := none }) } : Master) toks ∧
            NoPid _ w.id ∧ w.id ∉ toks :=
          h.unmap hl hw hex rfl rfl rfl rfl (fun r' hr' => Function.update_of_ne hr' ..) (.inl ⟨_, hself, rfl, rfl⟩)
        obtain ⟨hcore, hno, hid⟩ := hout
        have htok : (⟨w.options, w.id.idx, now + afterMs⟩ : WorkerRestartOptions).id = w.id := by
          unfold WorkerRestartOptions.id
          rw [h.opt r w hw]
        refine ⟨[⟨w.options, w.id.idx, now + afterMs⟩], rfl, rfl, ?_⟩
        rw [List.map_singleton, htok]
        have hpush := hcore.push hno hid
        exact { hpush with }

theorem Core.runKill {id : WorkerId} {sig : Int} {restart : Bool} (h : Core s toks)
    (hs : s.runKill id sig restart = some s') :
    Core s' toks ∧ s'.restartQueue = s.restartQueue ∧ s'.pc = s.pc := by
  unfold Master.runKill at hs
  split at hs
  · cases hs
    exact ⟨h, rfl, rfl⟩
  · split at hs
    · cases hs
    · cases hs
      refine ⟨{ h with named := fun id' r hl => ?_ }, rfl, rfl⟩
      have hl : (if sig ≠ 0 ∧ restart = false then s.workers.erase id else s.workers).lookup id' = some r := hl
      split at hl
      · exact h.named id' r (lookup_erase_some.1 hl).2
      · exact h.named id' r hl

theorem Core.runClosure {now : UInt64} {c : Closure} {q : List Closure} (h : Core s toks) (hq : s.wakeQueue = c :: q)
    (hs : ({ s with wakeQueue := q } : Master).runClosure now c = some s') :
    ∃ new, s'.restartQueue = s.restartQueue ++ new ∧ s'.pc = s.pc ∧
      Core s' (toks ++ new.map WorkerRestartOptions.id) := by
  have hquiet : c.exited = none → Core { s with wakeQueue := q } toks := fun hc => h.setQueue (by
    unfold exitedPids
    rw [hq, List.filterMap_cons_none hc])
  cases c with
  | restartWorker pid afterMs => exact h.runRestartWorker hq hs
  | kill id sig restart =>
    obtain ⟨hcore, hrq, hpc⟩ := (hquiet rfl).runKill hs
    exact ⟨[], by rw [hrq, List.append_nil], hpc, by rw [List.map_nil, List.append_nil]; exact hcore⟩
  | attach fifo =>
    have hcore := hquiet rfl
    simp only [Master.runClosure, Master.runAttach] at hs
    split at hs
    · cases hs
    · cases hs
      exact ⟨[], (List.append_nil _).symm, rfl, by rw [List.map_nil, List.append_nil]; exact { hcore with }⟩
  | other =>
    cases hs
    exact ⟨[], (List.append_nil _).symm, rfl, by rw [List.map_nil, List.append_nil]; exact hquiet rfl⟩

/-! ## Exits -/

theorem Core.exit {pid : Int} (h : Core s toks) :
    Core { s with children := s.children.map (fun c => if c.pid = pid then { c with alive := false } else c) } toks := by
  have hpids : (s.children.map (fun c => if c.pid = pid then { c with alive := false } else c)).map Child.pid =
      s.children.map Child.pid := by
    rw [List.map_map]
    refine List.map_congr_left (fun c _ => ?_)
    show Child.pid (if c.pid = pid then { c with alive := false } else c) = c.pid
    split <;> rfl
  exact { h with
    child := fun c hc => by
      obtain ⟨c₀, hc₀, rfl⟩ := List.mem_map.1 hc
      obtain ⟨r, w, hl, hw, hid⟩ := h.child c₀ hc₀
      have hsame : (if c₀.pid = pid then { c₀ with alive := false } else c₀).pid = c₀.pid ∧
          (if c₀.pid = pid then { c₀ with alive := false } else c₀).id = c₀.id := by
        split <;> exact ⟨rfl, rfl⟩
      exact ⟨r, w, by rw [hsame.1]; exact hl, hw, by rw [hsame.2]; exact hid⟩
    pids := by rw [hpids]; exact h.pids
    reaped := fun p r hp => by rw [hpids]; exact h.reaped p r hp
    exited := fun p hp => by rw [hpids]; exact h.exited p hp }

theorem Core.sigchld {pid : Int} {afterMs : UInt64} (h : Core s toks) :
    Core { s with
      children := s.children.filter (fun c => c.pid ≠ pid)
      wakeQueue := s.wakeQueue ++ [.restartWorker pid afterMs] } toks := by
  have hex : (s.wakeQueue ++ [Closure.restartWorker pid afterMs]).filterMap Closure.exited = s.exitedPids ++ [pid] := by
    rw [List.filterMap_append]
    rfl
  have hsub : (s.children.filter (fun c => c.pid ≠ pid)).Sublist s.children := List.filter_sublist
  exact { h with
    child := fun c hc => h.child c (hsub.subset hc)
    pids := h.pids.sublist (hsub.map _)
    reaped := fun p r hp => by
      rw [exitedPids, hex, List.mem_append, List.mem_singleton]
      by_cases hpp : p = pid
      · exact .inr (.inr hpp)
      · rcases h.reaped p r hp with hc | hc
        · obtain ⟨c, hmem, rfl⟩ := List.mem_map.1 hc
          exact .inl (List.mem_map.2 ⟨c, List.mem_filter.2 ⟨hmem, by simpa using hpp⟩, rfl⟩)
        · exact .inr (.inl hc)
    exited := fun p hp hc => by
      rw [exitedPids, hex, List.mem_append, List.mem_singleton] at hp
      obtain ⟨c, hmem', rfl⟩ := List.mem_map.1 hc
      obtain ⟨hmem, hne⟩ := List.mem_filter.1 hmem'
      rcases hp with hp | hp
      · exact h.exited _ hp (List.mem_map_of_mem hmem)
      · exact (of_decide_eq_true hne) hp }

/-! ## Whole runs -/

def creates (x : WorkerOptions × Int) : WorkerId := ⟨x.1.name, x.2⟩

/-- **The ids that a process is to be created for**: in `Start` those of the rest of the loop, else those of the restart
queue; during the loop over the queue, of what it has kept and what it has not looked at. -/
def tokens (s : Master) : List WorkerId :=
  match s.pc with
  | .starting todo => todo.map creates
  | .drain todo next => (next ++ todo).map WorkerRestartOptions.id
  | _ => s.restartQueue.map WorkerRestartOptions.id

structure Inv (s : Master) : Prop where
  core : Core s s.tokens
  drain : ∀ todo next, s.pc = .drain todo next → (next ++ todo).Sublist s.restartQueue
  starting : ∀ todo, s.pc = .starting todo → s.restartQueue = []
  down : s.pc = .down → s.restartQueue = [] ∧ ∀ id, s.NoPid id

/-- The names of the options are pairwise distinct. -/
def Distinct : Act → Prop
  | .start options _ => (options.map WorkerOptions.name).Nodup
  | .updateOptions options => (options.map WorkerOptions.name).Nodup
  | _ => True

def Succeeds : Act → Prop
  | .next _ shm pid => shm = true ∧ 0 < pid
  | _ => True

/-- **What the periodic check finds**: when it misses an id, no record of it is left in `pid_workers` and no restart of
it is queued.  And `fork` does not return a pid whose last exit is still to be handled. -/
def Free (s : Master) : Act → Prop
  | .next _ _ pid => pid ∉ s.exitedPids ∧
    match s.pc with
    | .check ((w, i) :: _) =>
      s.getWorker ⟨w.name, i⟩ = none → s.NoPid ⟨w.name, i⟩ ∧ ⟨w.name, i⟩ ∉ s.restartQueue.map WorkerRestartOptions.id
    | _ => True
  | _ => True

theorem nodup_expand (options : List WorkerOptions) (h : (options.map WorkerOptions.name).Nodup) :
    ((expand options).map creates).Nodup := by
  unfold expand
  rw [List.map_flatMap, List.nodup_flatMap]
  refine ⟨fun w _ => ?_, ?_⟩
  · rw [List.map_map]
    refine List.nodup_range.map (fun i j hij => ?_)
    have hidx : ((i : Int)) = (j : Int) := congrArg WorkerId.idx hij
    omega
  · refine (List.pairwise_map.1 h).imp (fun {a b} hab x hx hx' => ?_)
    obtain ⟨y, hy, rfl⟩ := List.mem_map.1 hx
    obtain ⟨z, hz, he⟩ := List.mem_map.1 hx'
    obtain ⟨i, -, rfl⟩ := List.mem_map.1 hy
    obtain ⟨j, -, rfl⟩ := List.mem_map.1 hz
    exact hab (congrArg WorkerId.name he).symm

instance (a : Act) : Decidable (Distinct a) :=
  match a with
  | .start options _ => inferInstanceAs (Decidable (options.map WorkerOptions.name).Nodup)
  | .updateOptions options => inferInstanceAs (Decidable (options.map WorkerOptions.name).Nodup)
  | .kill _ _ _ | .wake | .runWake _ | .restartWorkers _ | .next _ _ _ | .exit _ | .sigchld _ => .isTrue trivial

instance (a : Act) : Decidable (Succeeds a) :=
  match a with
  | .next _ shm pid => inferInstanceAs (Decidable (shm = true ∧ 0 < pid))
  | .start _ _ | .updateOptions _ | .kill _ _ _ | .wake | .runWake _ | .restartWorkers _ | .exit _ | .sigchld _ =>
    .isTrue trivial

theorem noPid_iff (s : Master) (id : WorkerId) :
    s.NoPid id ↔ ∀ p ∈ s.pidWorkers.keys, ∀ r ∈ s.pidWorkers.lookup p, ∀ w ∈ s.recs r, w.id ≠ id := by
  constructor
  · intro h p _ r hr w hw
    exact h p r w hr hw
  · intro h p r w hr hw
    have hp : p ∈ s.pidWorkers := AList.lookup_isSome.1 (by rw [hr]; rfl)
    exact h p (AList.mem_keys.1 hp) r hr w hw

instance (s : Master) (id : WorkerId) : Decidable (s.NoPid id) := decidable_of_iff _ (s.noPid_iff id).symm

instance (s : Master) (a : Act) : Decidable (Free s a) :=
  match a with
  | .next _ _ pid =>
    match hpc : s.pc with
    | .check ((w, i) :: _) =>
      decidable_of_iff (pid ∉ s.exitedPids ∧ (s.getWorker ⟨w.name, i⟩ = none → s.NoPid ⟨w.name, i⟩ ∧
        ⟨w.name, i⟩ ∉ s.restartQueue.map WorkerRestartOptions.id)) (by unfold Free; rw [hpc])
    | .check [] | .down | .idle | .starting _ | .drain _ _ =>
      decidable_of_iff (pid ∉ s.exitedPids) (by unfold Free; rw [hpc]; simp)
  | .start _ _ | .updateOptions _ | .kill _ _ _ | .wake | .runWake _ | .restartWorkers _ | .exit _ | .sigchld _ =>
    .isTrue trivial

namespace Inv

theorem start : Inv new where
  core := .new
  drain := fun todo next h => by cases h
  starting := fun todo h => by cases h
  down := fun _ => ⟨rfl, fun id p r w h => by cases h⟩

theorem same (h : Inv s) (hcore : Core s' s.tokens) (hrq : s'.restartQueue = s.restartQueue) (hpc : s'.pc = s.pc)
    (hdown : s.pc = .down → ∀ id, s'.NoPid id) : Inv s' := by
  have htok : s'.tokens = s.tokens := by unfold tokens; rw [hpc, hrq]
  refine ⟨by rw [htok]; exact hcore, fun todo next hd => ?_, fun todo hd => ?_, fun hd => ?_⟩
  · rw [hpc] at hd
    rw [hrq]
    exact h.drain todo next hd
  · rw [hpc] at hd
    rw [hrq]
    exact h.starting todo hd
  · rw [hpc] at hd
    rw [hrq]
    exact ⟨(h.down hd).1, hdown hd⟩

theorem begin (h : Inv s) {options : List WorkerOptions} {mainShm : Bool} (hd : Distinct (.start options mainShm))
    (hs : Master.step s (.start options mainShm) = some s') : Inv s' := by
  simp only [Master.step] at hs
  split at hs
  · rename_i hpc
    obtain ⟨hrq, hno⟩ := h.down hpc
    split at hs
    · cases hs
      refine ⟨?_, fun todo next hp => (by cases hp), fun todo hp => hrq, fun hp => (by cases hp)⟩
      exact { h.core with
        toksNodup := nodup_expand options hd
        toksFree := fun id _ => hno id }
    · cases hs
      exact h.same { h.core with } rfl rfl (fun _ => hno)
  · cases hs

theorem next {now : UInt64} {shm : Bool} {pid : Int} (h : Inv s) (hok : Succeeds (.next now shm pid))
    (hfree : Free s (.next now shm pid)) (hs : s.next now shm pid = some s') : Inv s' := by
  obtain ⟨-, hpid⟩ := hok
  obtain ⟨hex, hcheck⟩ := hfree
  have hcore := h.core
  unfold Master.next at hs
  unfold tokens at hcore
  split at hs
  · cases hs
  · cases hs
  · rename_i hpc
    cases hs
    have hrq := h.starting [] hpc
    refine ⟨?_, fun todo next hp => (by cases hp), fun todo hp => (by cases hp), fun hp => (by cases hp)⟩
    rw [hpc] at hcore
    show Core _ (s.restartQueue.map WorkerRestartOptions.id)
    rw [hrq]
    exact { hcore with }
  · rename_i w i todo hpc
    rw [hpc] at hcore
    split at hs
    · cases hs
    · rename_i s₁ hs₁
      cases hs
      have hrq := h.starting _ hpc
      have hnew := (hcore.sublist (List.sublist_cons_self ..)).createWorker (hcore.toksFree _ List.mem_cons_self)
        (List.nodup_cons.1 hcore.toksNodup).1 hpid hex hs₁
      refine ⟨{ hnew with }, fun todo next hp => (by cases hp), fun _ _ => ?_, fun hp => (by cases hp)⟩
      exact (createWorker_restartQueue hs₁).trans hrq
  · rename_i kept hpc
    cases hs
    rw [hpc] at hcore
    dsimp only at hcore
    have hsub := h.drain _ _ hpc
    rw [List.append_nil] at hsub hcore
    refine ⟨?_, fun todo next hp => (by cases hp), fun todo hp => (by cases hp), fun hp => (by cases hp)⟩
    show Core _ ((if s.restartQueue.length ≠ kept.length then kept else s.restartQueue).map WorkerRestartOptions.id)
    split
    · exact { hcore with }
    · rename_i hlen
      rw [← hsub.eq_of_length (by omega)]
      exact { hcore with }
  · rename_i e todo kept hpc
    rw [hpc] at hcore
    have hsub := h.drain _ _ hpc
    split at hs
    · split at hs
      · cases hs
      · rename_i s₁ hs₁
        cases hs
        have hrest : (kept ++ todo).Sublist (kept ++ e :: todo) := (List.sublist_cons_self e todo).append_left kept
        have hmem : e.id ∈ (kept ++ e :: todo).map WorkerRestartOptions.id :=
          List.mem_map_of_mem (List.mem_append_right _ List.mem_cons_self)
        have hnot : e.id ∉ (kept ++ todo).map WorkerRestartOptions.id := by
          have hnd : ((kept ++ e :: todo).map WorkerRestartOptions.id).Nodup := hcore.toksNodup
          rw [List.map_append, List.map_cons, List.nodup_middle, ← List.map_append] at hnd
          exact (List.nodup_cons.1 hnd).1
        have hnew := (hcore.sublist (hrest.map WorkerRestartOptions.id)).createWorker (hcore.toksFree _ hmem) hnot hpid
          hex hs₁
        refine ⟨{ hnew with }, fun todo' next' hp => ?_, fun todo hp => (by cases hp), fun hp => (by cases hp)⟩
        cases hp
        show (kept ++ todo).Sublist s₁.restartQueue
        rw [createWorker_restartQueue hs₁]
        exact hrest.trans hsub
    · cases hs
      have happ : kept ++ [e] ++ todo = kept ++ e :: todo := by rw [List.append_assoc]; rfl
      refine ⟨?_, fun todo' next' hp => ?_, fun todo hp => (by cases hp), fun hp => (by cases hp)⟩
      · show Core _ ((kept ++ [e] ++ todo).map WorkerRestartOptions.id)
        rw [happ]
        exact { hcore with }
      · cases hp
        rw [happ]
        exact hsub
  · rename_i hpc
    cases hs
    rw [hpc] at hcore
    exact ⟨{ hcore with }, fun todo next hp => (by cases hp), fun todo hp => (by cases hp), fun hp => (by cases hp)⟩
  · rename_i w i todo hpc
    rw [hpc] at hcore hcheck
    split at hs
    · rename_i hmiss
      split at hs
      · cases hs
      · rename_i s₁ hs₁
        cases hs
        obtain ⟨hno, hid⟩ := hcheck hmiss
        have hnew := hcore.createWorker hno hid hpid hex hs₁
        refine ⟨?_, fun todo next hp => (by cases hp), fun todo hp => (by cases hp), fun hp => (by cases hp)⟩
        show Core _ (s₁.restartQueue.map WorkerRestartOptions.id)
        rw [createWorker_restartQueue hs₁]
        exact { hnew with }
    · cases hs
      exact ⟨{ hcore with }, fun todo next hp => (by cases hp), fun todo hp => (by cases hp), fun hp => (by cases hp)⟩

theorem step {a : Act} (h : Inv s) (hd : Distinct a) (hok : Succeeds a) (hfree : Free s a)
    (hs : Master.step s a = some s') : Inv s' := by
  cases a with
  | start options mainShm => exact h.begin hd hs
  | updateOptions options =>
    simp only [Master.step] at hs
    split at hs
    · rename_i hpc
      cases hs
      exact h.same { h.core with } rfl rfl (fun hp => (h.down hp).2)
    · cases hs
      exact h.same { h.core with } rfl rfl (fun hp => (h.down hp).2)
    · cases hs
  | kill id sig restart =>
    simp only [Master.step] at hs
    split at hs
    · cases hs
    · cases hs
      refine h.same (h.core.setQueue ?_) rfl rfl (fun hp => (h.down hp).2)
      rw [List.filterMap_append]
      exact List.append_nil _
  | wake =>
    simp only [Master.step] at hs
    split at hs
    · cases hs
    · cases hs
      refine h.same (h.core.setQueue ?_) rfl rfl (fun hp => (h.down hp).2)
      rw [List.filterMap_append]
      exact List.append_nil _
  | runWake now =>
    simp only [Master.step] at hs
    split at hs
    · rename_i c q hpc hq
      have hcore := h.core
      unfold tokens at hcore
      rw [hpc] at hcore
      obtain ⟨new, hrq, hpc', hnew⟩ := hcore.runClosure hq hs
      rw [hpc] at hpc'
      refine ⟨?_, fun todo next hp => ?_, fun todo hp => ?_, fun hp => ?_⟩
      · unfold tokens
        rw [hpc', hrq, List.map_append]
        exact hnew
      · rw [hpc'] at hp; cases hp
      · rw [hpc'] at hp; cases hp
      · rw [hpc'] at hp; cases hp
    · cases hs
  | restartWorkers now =>
    simp only [Master.step] at hs
    split at hs
    · rename_i hpc
      cases hs
      unfold Master.restartWorkers
      have hcore := h.core
      unfold tokens at hcore
      rw [hpc] at hcore
      split
      · exact h
      · by_cases hq : s.restartQueue = []
        · rw [if_pos hq]
          exact ⟨{ hcore with }, fun todo next hp => (by cases hp), fun todo hp => (by cases hp),
            fun hp => (by cases hp)⟩
        · rw [if_neg hq]
          refine ⟨{ hcore with }, fun todo next hp => ?_, fun todo hp => (by cases hp), fun hp => (by cases hp)⟩
          cases hp
          exact List.Sublist.refl _
    · cases hs
  | next now shm pid => exact h.next hok hfree hs
  | exit pid =>
    simp only [Master.step] at hs
    split at hs
    · cases hs
      exact h.same h.core.exit rfl rfl (fun hp => (h.down hp).2)
    · cases hs
  | sigchld pid =>
    simp only [Master.step] at hs
    split at hs
    · cases hs
      exact h.same h.core.sigchld rfl rfl (fun hp => (h.down hp).2)
    · cases hs

end Inv

/-- **At most one process for each worker identity**, and no record entered for two pids. -/
structure OneEach (s : Master) : Prop where
  live : ∀ id, (s.children.filter (fun c => c.alive ∧ c.id = id)).length ≤ 1
  records : ∀ p q r, s.pidWorkers.lookup p = some r → s.pidWorkers.lookup q = some r → p = q

theorem Core.oneEach (h : Core s toks) : OneEach s where
  live := fun id => by
    have hsub : (s.children.filter (fun c => c.alive ∧ c.id = id)).Sublist s.children := List.filter_sublist
    have hnd := h.pids.sublist (hsub.map Child.pid)
    have heq : ∀ a ∈ s.children.filter (fun c => c.alive ∧ c.id = id),
        ∀ b ∈ s.children.filter (fun c => c.alive ∧ c.id = id), a.pid = b.pid := by
      intro a ha b hb
      obtain ⟨ha, hia⟩ := List.mem_filter.1 ha
      obtain ⟨hb, hib⟩ := List.mem_filter.1 hb
      obtain ⟨r, w, hl, hw, hid⟩ := h.child a ha
      obtain ⟨r', w', hl', hw', hid'⟩ := h.child b hb
      exact h.ids _ _ r r' w w' hl hl' hw hw' (by
        rw [hid, hid', (of_decide_eq_true hia).2, (of_decide_eq_true hib).2])
    match hlist : s.children.filter (fun c => c.alive ∧ c.id = id) with
    | [] => rw [hlist]; exact Nat.zero_le _
    | [_] => rw [hlist]; exact Nat.le_refl _
    | a :: b :: l =>
      rw [hlist] at hnd heq
      have := heq a List.mem_cons_self b (List.mem_cons_of_mem _ List.mem_cons_self)
      rw [List.map_cons, List.nodup_cons, List.map_cons] at hnd
      exact absurd (by rw [this]; exact List.mem_cons_self) hnd.1
  records := fun p q r hp hq => by
    obtain ⟨w, hw, -⟩ := h.pid p r hp
    exact h.ids p q r r w w hp hq hw hw rfl

/-- **One process each**, in every run in which the periodic check misses no id that has still a process or a restart. -/
theorem one_process_each (s : Master)
    (h : Reach step (fun s a => (Distinct a ∧ Succeeds a) ∧ Free s a) new s) : OneEach s :=
  (h.invariant Inv.start (fun _ _ _ _ hi hg hs => hi.step hg.1.1 hg.1.2 hg.2 hs)).core.oneEach

/-- One worker: it exits and is restarted a second later, then it is killed without restart, exits, and is created again
by the next check. -/
def restarted : List Act :=
  [.start [.new "w"] true, .next 0 true 100, .next 0 true 101, .exit 100, .sigchld 100, .runWake 400, .runWake 500,
    .restartWorkers 1200, .next 1200 true 101, .next 1200 true 101, .next 1200 true 101, .next 1200 true 101,
    .restartWorkers 2300, .next 2300 true 101, .next 2300 true 102, .next 2300 true 102, .next 2300 true 102,
    .kill ⟨"w", 0⟩ 15 false, .runWake 2400, .runWake 2400, .exit 101, .sigchld 101, .runWake 2500,
    .restartWorkers 3400, .next 3400 true 102, .next 3400 true 103]

theorem one_process_each_restarted : ∃ s, Machine.exec step (fun s a => (Distinct a ∧ Succeeds a) ∧ Free s a) new
    restarted = some s ∧ s.children = [⟨102, ⟨"w", 0⟩, true⟩] ∧ s.signals = [(⟨"w", 0⟩, 101, 15)] ∧ OneEach s :=
  ⟨_, rfl, rfl, rfl, one_process_each _ (Machine.reach_of_exec _ _ restarted _ rfl)⟩

/-- `Kill(id, SIGTERM, false)` on a running worker, and the periodic check before it has exited. -/
def killedTwice : List Act :=
  [.start [.new "w"] true, .next 0 true 100, .next 0 true 101, .kill ⟨"w", 0⟩ 15 false, .runWake 1000, .runWake 1000,
    .restartWorkers 2000, .next 2000 true 101]

/-- **Two processes of one worker**: the check forks the second one while the first is running. -/
theorem killed_worker_forked_twice : ∃ s, Machine.exec step (fun _ a => Distinct a ∧ Succeeds a) new killedTwice =
    some s ∧ s.children = [⟨100, ⟨"w", 0⟩, true⟩, ⟨101, ⟨"w", 0⟩, true⟩] ∧ ¬ OneEach s := by
  refine ⟨_, rfl, rfl, fun h => ?_⟩
  have := h.live ⟨"w", 0⟩
  revert this
  decide

end Master
end Shm
