import Mathlib.Data.List.Perm.Basic
import ShmMultiproc.Records
/-!
# Sigchld — exits, signals and the handler

An exit makes SIGCHLD pending; a pending signal is one bit, and it is blocked while its handler runs.  The handler calls
`waitpid` once, with WNOHANG, and hands what it reaped to `RestartWorker`.  Two exits that share one delivery are one call
of `waitpid`: `Signalled` counts the exits that found the signal pending (`lost`), and that is how many exited children
are left whenever nothing is pending and no handler runs (`exits_noticed_iff`).
-/
namespace Shm
namespace Master

open Machine (Reach)

/-- Where the handler stands: not running, before `waitpid`, or with the pid it reaped. -/
inductive HandlerPc where
  | idle
  | entered
  | reaped (pid : Int)
  deriving DecidableEq, Repr

/-- `exits` are the pids that exited and `handed` those given to `RestartWorker`, oldest first. -/
structure Signalled where
  master : Master
  pending : Bool
  handler : HandlerPc
  exits : List Int
  handed : List Int
  lost : Nat

/-- The pid a child has left to be reaped. -/
def exitedChildren (s : Master) : List Int := (s.children.filter (fun c => c.alive = false)).map Child.pid

def reap (s : Master) (pid : Int) : Master := { s with children := s.children.filter (fun c => c.pid ≠ pid) }

/-- `RestartWorker(pid, 1000)`. -/
def callRestartWorker (s : Master) (pid : Int) : Master :=
  { s with wakeQueue := s.wakeQueue ++ [.restartWorker pid 1000] }

theorem step_sigchld (s : Master) (pid : Int) : step s (.sigchld pid) =
    if ⟨pid, false⟩ ∈ s.children.map (fun c => (c.pid, c.alive)) then some ((s.reap pid).callRestartWorker pid)
    else none := rfl

namespace Signalled

def start : Signalled := ⟨.new, false, .idle, [], [], 0⟩

/-- `run a` is a step of the master that is neither an exit nor its handling. -/
inductive Act where
  | run (a : Master.Act)
  | exit (pid : Int)
  | deliver
  | waitpid (pid : Int)
  | waitpidNone
  | restartWorker
  deriving DecidableEq, Repr

def step (s : Signalled) : Act → Option Signalled
  | .run (.exit _) => none
  | .run (.sigchld _) => none
  | .run a => (s.master.step a).map (fun m => { s with master := m })
  | .exit pid =>
    (s.master.step (.exit pid)).map (fun m =>
      { s with
        master := m
        pending := true
        exits := s.exits ++ [pid]
        lost := if s.pending = true then s.lost + 1 else s.lost })
  | .deliver =>
    if s.pending = true ∧ s.handler = .idle then some { s with pending := false, handler := .entered } else none
  | .waitpid pid =>
    if s.handler = .entered ∧ pid ∈ s.master.exitedChildren then
      some { s with master := s.master.reap pid, handler := .reaped pid }
    else none
  | .waitpidNone =>
    if s.handler = .entered ∧ s.master.exitedChildren = [] then some { s with handler := .idle } else none
  | .restartWorker =>
    match s.handler with
    | .reaped pid =>
      some { s with master := s.master.callRestartWorker pid, handler := .idle, handed := s.handed ++ [pid] }
    | _ => none

/-- **Every exit is noticed**: no child that has exited is left to be reaped, and each exit was handed over once. -/
structure Noticed (s : Signalled) : Prop where
  reaped : ∀ c ∈ s.master.children, c.alive = true
  handed : s.handed.Perm s.exits

def HandlerPc.holding : HandlerPc → List Int
  | .reaped pid => [pid]
  | _ => []

def HandlerPc.waits : HandlerPc → Nat
  | .entered => 1
  | _ => 0

/-- **Each exit is handed over, held by the handler or still to be reaped**, and the calls of `waitpid` to come are as
many as the children to be reaped, but for the exits lost. -/
structure SigInv (s : Signalled) : Prop where
  named : Named s.master
  pids : (s.master.children.map Child.pid).Nodup
  places : s.exits.Perm (s.handed ++ HandlerPc.holding s.handler ++ s.master.exitedChildren)
  count : s.master.exitedChildren.length = (if s.pending = true then 1 else 0) + HandlerPc.waits s.handler + s.lost

/-! ## What exits and reaps do to the children -/

theorem exitedChildren_exit {pid : Int} : ∀ (l : List Child), (l.map Child.pid).Nodup →
    (pid, true) ∈ l.map (fun c => (c.pid, c.alive)) →
    (((l.map (fun c => if c.pid = pid then { c with alive := false } else c)).filter
      (fun c => c.alive = false)).map Child.pid).Perm (pid :: (l.filter (fun c => c.alive = false)).map Child.pid)
  | [], _, h => by cases h
  | c :: l, hnd, h => by
    rw [List.map_cons, List.nodup_cons] at hnd
    obtain ⟨hnot, hnd⟩ := hnd
    rw [List.map_cons, List.mem_cons] at h
    rw [List.map_cons]
    by_cases hc : c.pid = pid
    · have hsame : l.map (fun c => if c.pid = pid then { c with alive := false } else c) = l := by
        conv => rhs; rw [← List.map_id l]
        refine List.map_congr_left (fun d hd => ?_)
        rw [if_neg (fun e => hnot (by rw [hc, ← e]; exact List.mem_map_of_mem hd))]
        rfl
      have halive : c.alive = true := by
        rcases h with h | h
        · exact (congrArg Prod.snd h).symm
        · obtain ⟨d, hd, he⟩ := List.mem_map.1 h
          have he : d.pid = pid := congrArg Prod.fst he
          exact absurd (by rw [hc, ← he]; exact List.mem_map_of_mem hd) hnot
      rw [hsame, if_pos hc, List.filter_cons_of_pos rfl, List.filter_cons_of_neg (by simp [halive]), List.map_cons]
      exact .of_eq (by rw [← hc])
    · have hl : (pid, true) ∈ l.map (fun c => (c.pid, c.alive)) :=
        h.resolve_left (fun e => hc (congrArg Prod.fst e).symm)
      rw [if_neg hc]
      by_cases hd : c.alive = false
      · rw [List.filter_cons_of_pos (by simpa using hd), List.filter_cons_of_pos (by simpa using hd), List.map_cons,
          List.map_cons]
        exact ((exitedChildren_exit l hnd hl).cons _).trans (.swap _ _ _)
      · rw [List.filter_cons_of_neg (by simpa using hd), List.filter_cons_of_neg (by simpa using hd)]
        exact exitedChildren_exit l hnd hl

theorem exitedChildren_reap {pid : Int} : ∀ (l : List Child), (l.map Child.pid).Nodup →
    pid ∈ (l.filter (fun c => c.alive = false)).map Child.pid →
    ((l.filter (fun c => c.alive = false)).map Child.pid).Perm
      (pid :: ((l.filter (fun c => c.pid ≠ pid)).filter (fun c => c.alive = false)).map Child.pid)
  | [], _, h => by cases h
  | c :: l, hnd, h => by
    rw [List.map_cons, List.nodup_cons] at hnd
    obtain ⟨hnot, hnd⟩ := hnd
    by_cases hc : c.pid = pid
    · have hsame : l.filter (fun c => c.pid ≠ pid) = l := by
        refine List.filter_eq_self.2 (fun d hd => ?_)
        exact decide_eq_true (fun e => hnot (by rw [hc, ← e]; exact List.mem_map_of_mem hd))
      have hdead : c.alive = false := by
        obtain ⟨d, hd, he⟩ := List.mem_map.1 h
        obtain ⟨hd, hdead⟩ := List.mem_filter.1 hd
        rcases List.mem_cons.1 hd with rfl | hd
        · exact of_decide_eq_true hdead
        · exact absurd (by rw [hc, ← he]; exact List.mem_map_of_mem hd) hnot
      rw [List.filter_cons_of_pos (by simpa using hdead), List.filter_cons_of_neg (by simpa using hc), hsame,
        List.map_cons, hc]
    · by_cases hd : c.alive = false
      · rw [List.filter_cons_of_pos (by simpa using hd), List.map_cons] at h ⊢
        rw [List.filter_cons_of_pos (by simpa using hc), List.filter_cons_of_pos (by simpa using hd), List.map_cons]
        have hl := (List.mem_cons.1 h).resolve_left (fun e => hc e.symm)
        exact ((exitedChildren_reap l hnd hl).cons _).trans (.swap _ _ _)
      · rw [List.filter_cons_of_neg (by simpa using hd)] at h ⊢
        rw [List.filter_cons_of_pos (by simpa using hc), List.filter_cons_of_neg (by simpa using hd)]
        exact exitedChildren_reap l hnd h

theorem children_run {m m' : Master} {a : Master.Act} (h : Named m) (ha : ∀ pid, a ≠ .exit pid ∧ a ≠ .sigchld pid)
    (hnd : (m.children.map Child.pid).Nodup) (hs : Master.step m a = some m') :
    m'.exitedChildren = m.exitedChildren ∧ (m'.children.map Child.pid).Nodup := by
  have hsame : m'.children = m.children →
      m'.exitedChildren = m.exitedChildren ∧ (m'.children.map Child.pid).Nodup := by
    intro he
    unfold exitedChildren
    rw [he]
    exact ⟨rfl, hnd⟩
  cases h.tables hs with
  | same hf hch hsame' =>
    rcases hch with ⟨pid, hp | hp⟩ | hch
    · exact absurd hp (ha pid).1
    · exact absurd hp (ha pid).2
    · exact hsame hch
  | @created option idx pid r w m₁ pc hf hc hs' =>
    subst hs'
    have hch := hc.children
    split at hch
    · rename_i hpid
      have hnew : pid ∉ m.children.map Child.pid := by
        rcases hc.forked with h | ⟨-, h⟩
        · omega
        · exact h
      unfold exitedChildren
      show List.map Child.pid (List.filter _ m₁.children) = _ ∧ (List.map Child.pid m₁.children).Nodup
      rw [hch, List.filter_append, List.map_append, List.map_append]
      refine ⟨by simp, List.nodup_append.2 ⟨hnd, by simp, fun a ha b hb => ?_⟩⟩
      rw [List.mem_singleton.1 hb]
      rintro rfl
      exact hnew ha
    · exact hsame hch
  | destroyed hf hd => exact hsame hd.children
  | killed hf hl hw hs' =>
    subst hs'
    exact hsame rfl

namespace SigInv

variable {s s' : Signalled}

theorem start : SigInv start where
  named := .start
  pids := List.nodup_nil
  places := .nil
  count := rfl

theorem run {a : Master.Act} {m : Master} (h : SigInv s) (ha : ∀ pid, a ≠ .exit pid ∧ a ≠ .sigchld pid)
    (hs : Master.step s.master a = some m) : SigInv { s with master := m } := by
  obtain ⟨he, hnd⟩ := children_run h.named ha h.pids hs
  exact ⟨h.named.step hs, hnd, by rw [he]; exact h.places, by rw [he]; exact h.count⟩

theorem exit {pid : Int} (h : SigInv s) (hs : s.step (.exit pid) = some s') : SigInv s' := by
  obtain ⟨m, hm, rfl⟩ := Option.map_eq_some_iff.1 hs
  have hn := h.named.step hm
  simp only [Master.step] at hm
  split at hm <;> cases hm
  rename_i hmem
  have hperm := exitedChildren_exit s.master.children h.pids hmem
  have hpids : ((s.master.children.map (fun c => if c.pid = pid then { c with alive := false } else c)).map
      Child.pid) = s.master.children.map Child.pid := by
    rw [List.map_map]
    refine List.map_congr_left (fun c _ => ?_)
    show Child.pid (if c.pid = pid then { c with alive := false } else c) = c.pid
    split <;> rfl
  refine ⟨hn, by rw [hpids]; exact h.pids, ?_, ?_⟩
  · refine (h.places.append_right [pid]).trans ?_
    rw [List.append_assoc]
    refine List.Perm.append_left _ (List.perm_append_comm.trans ?_)
    exact hperm.symm
  · have hlen := hperm.length_eq
    have hcount := h.count
    unfold exitedChildren at hcount ⊢
    rw [hlen, List.length_cons, hcount]
    show _ = 1 + HandlerPc.waits s.handler + (if s.pending = true then s.lost + 1 else s.lost)
    split <;> omega

theorem step {a : Act} (h : SigInv s) (hs : Signalled.step s a = some s') : SigInv s' := by
  have hcount := h.count
  have hplaces := h.places
  cases a with
  | run a =>
    cases a with
    | exit pid | sigchld pid => cases hs
    | start options mainShm | updateOptions options | kill id sig restart | wake | runWake now | restartWorkers now
    | next now shm pid =>
      obtain ⟨m, hm, rfl⟩ := Option.map_eq_some_iff.1 hs
      exact h.run (by simp) hm
  | exit pid => exact h.exit hs
  | deliver =>
    simp only [Signalled.step] at hs
    split at hs <;> cases hs
    rename_i hd
    rw [hd.1, hd.2] at hcount
    rw [hd.2] at hplaces
    exact ⟨h.named, h.pids, hplaces, by simpa [HandlerPc.waits] using hcount⟩
  | waitpid pid =>
    simp only [Signalled.step] at hs
    split at hs <;> cases hs
    rename_i hw
    have hperm := exitedChildren_reap s.master.children h.pids hw.2
    rw [hw.1] at hcount hplaces
    refine ⟨⟨h.named.alloc, h.named.opt, h.named.named, h.named.opened⟩,
      h.pids.sublist (List.filter_sublist.map _), ?_, ?_⟩
    · refine hplaces.trans ?_
      show (s.handed ++ [] ++ s.master.exitedChildren).Perm (s.handed ++ [pid] ++ (s.master.reap pid).exitedChildren)
      rw [List.append_nil, List.append_assoc]
      exact List.Perm.append_left _ hperm
    · have hlen : s.master.exitedChildren.length = (s.master.reap pid).exitedChildren.length + 1 := hperm.length_eq
      simp only [HandlerPc.waits] at hcount ⊢
      omega
  | waitpidNone =>
    simp only [Signalled.step] at hs
    split at hs <;> cases hs
    rename_i hw
    rw [hw.1, hw.2] at hcount
    simp only [HandlerPc.waits, List.length_nil] at hcount
    omega
  | restartWorker =>
    simp only [Signalled.step] at hs
    split at hs <;> cases hs
    rename_i pid hh
    rw [hh] at hcount hplaces
    refine ⟨⟨h.named.alloc, h.named.opt, h.named.named, h.named.opened⟩, h.pids, ?_, hcount⟩
    show s.exits.Perm (s.handed ++ [pid] ++ [] ++ s.master.exitedChildren)
    rw [List.append_nil]
    exact hplaces

end SigInv

/-- **When every exit is noticed**, with no signal pending and no handler running: exactly when no exit so far found
SIGCHLD pending. -/
theorem exits_noticed_iff (s : Signalled) (h : Reach step Machine.anyStep start s) (hp : s.pending = false)
    (hh : s.handler = .idle) : Noticed s ↔ s.lost = 0 := by
  have hi : SigInv s := h.invariant .start (fun _ _ _ _ hi _ hs => hi.step hs)
  have hcount := hi.count
  have hplaces := hi.places
  rw [hp, hh] at hcount
  rw [hh] at hplaces
  simp only [HandlerPc.waits] at hcount
  constructor
  · intro hn
    have hnil : s.master.exitedChildren = [] := by
      unfold exitedChildren
      rw [List.filter_eq_nil_iff.2 (fun c hc => by simp [hn.reaped c hc]), List.map_nil]
    rw [hnil, List.length_nil] at hcount
    simpa using hcount.symm
  · intro hl
    have hnil : s.master.exitedChildren = [] := by
      rw [← List.length_eq_zero_iff, hcount, hl]
      rfl
    refine ⟨fun c hc => ?_, ?_⟩
    · cases hal : c.alive with
      | true => rfl
      | false =>
        have hm : c.pid ∈ s.master.exitedChildren :=
          List.mem_map_of_mem (List.mem_filter.2 ⟨hc, by simpa using hal⟩)
        rw [hnil] at hm
        cases hm
    · rw [hnil, List.append_nil] at hplaces
      exact (List.append_nil s.handed ▸ hplaces).symm

def twoWorkers : List Act :=
  [.run (.start [.new "a", .new "b"] true), .run (.next 0 true 100), .run (.next 0 true 101), .run (.next 0 true 102)]

/-- They exit one after the other, the second while the first is being handled. -/
theorem exits_noticed_iff_spread : ∃ s, Machine.exec step Machine.anyStep start
    (twoWorkers ++ [.exit 100, .deliver, .exit 101, .waitpid 101, .restartWorker, .deliver, .waitpid 100,
      .restartWorker]) = some s ∧ s.handed = [101, 100] ∧ (Noticed s ↔ s.lost = 0) ∧ s.lost = 0 :=
  ⟨_, rfl, rfl, exits_noticed_iff _ (Machine.reach_of_exec _ _ (twoWorkers ++ [.exit 100, .deliver, .exit 101,
    .waitpid 101, .restartWorker, .deliver, .waitpid 100, .restartWorker]) _ rfl) rfl rfl, rfl⟩

/-- **An exit nobody notices**: both exit before the signal is delivered, and the handler reaps one of them. -/
theorem second_exit_unnoticed : ∃ s, Machine.exec step Machine.anyStep start
    (twoWorkers ++ [.exit 100, .exit 101, .deliver, .waitpid 100, .restartWorker]) = some s ∧ s.pending = false ∧
    s.handler = .idle ∧ s.master.pidWorkers.lookup 101 = some 1 ∧ s.master.exitedChildren = [101] ∧ ¬ Noticed s := by
  refine ⟨_, rfl, rfl, rfl, rfl, rfl, fun h => ?_⟩
  have := h.reaped ⟨101, ⟨"b", 0⟩, false⟩ (by decide)
  cases this

end Signalled
end Master
end Shm
