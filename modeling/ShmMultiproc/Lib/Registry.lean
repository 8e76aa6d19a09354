import Mathlib.Data.List.Basic
import Mathlib.Data.List.Nodup
import Mathlib.Logic.Function.Basic
import ShmMultiproc.Lib.Machine
/-!
# Registry — resources with one owner, watched and released through a queue

An owner is given a new resource at once; the resource is put on the watch list, and taken back from its owner, by jobs
that are queued and run one at a time.  A job may come long after it was queued: what it finds then is `Sound`, as long
as nobody becomes an owner again while a release of his is queued.
-/
namespace Registry

open Machine (Reach)

variable {κ : Type*}

/-- A queued job. -/
inductive Job (κ : Type*) where
  | watch (f : Nat)
  | release (k : κ)
  deriving DecidableEq, Repr

def Job.watches : Job κ → Option Nat
  | .watch f => some f
  | .release _ => none

structure State (κ : Type*) where
  owner : κ → Option Nat
  next : Nat
  watched : List Nat
  freed : List Nat
  jobs : List (Job κ)

inductive Act (κ : Type*) where
  | acquire (k : κ)
  | ask (k : κ)
  | run
  deriving DecidableEq, Repr

def new (κ : Type*) : State κ := ⟨fun _ => none, 0, [], [], []⟩

def State.pending (s : State κ) : List Nat := s.jobs.filterMap Job.watches

variable [DecidableEq κ]

/-- `none` when a job would touch a resource that is gone. -/
def step (s : State κ) : Act κ → Option (State κ)
  | .acquire k =>
    if s.owner k = none ∧ .release k ∉ s.jobs then
      some { s with
        owner := Function.update s.owner k (some s.next)
        next := s.next + 1
        jobs := s.jobs ++ [.watch s.next] }
    else none
  | .ask k => some { s with jobs := s.jobs ++ [.release k] }
  | .run =>
    match s.jobs with
    | [] => none
    | .watch f :: js => if f ∈ s.freed then none else some { s with watched := s.watched ++ [f], jobs := js }
    | .release k :: js =>
      match s.owner k with
      | none => some { s with jobs := js }
      | some f =>
        some { s with
          owner := Function.update s.owner k none
          watched := s.watched.erase f
          freed := s.freed ++ [f]
          jobs := js }

/-- **What a registry promises**: the resources watched, or about to be, are those that have an owner, each once; the
others given out so far have been freed, each once; and no release runs before the watch of what it releases. -/
structure Sound (s : State κ) : Prop where
  single : ∀ k k' f, s.owner k = some f → s.owner k' = some f → k = k'
  once : (s.watched ++ s.pending).Nodup
  exact : ∀ f, f ∈ s.watched ++ s.pending ↔ ∃ k, s.owner k = some f
  freedOnce : s.freed.Nodup
  freed : ∀ f, f ∈ s.freed ↔ f < s.next ∧ ∀ k, s.owner k ≠ some f
  given : ∀ k f, s.owner k = some f → f < s.next
  order : s.jobs.Pairwise (fun j j' => ∀ k f, j = .release k → j' = .watch f → s.owner k ≠ some f)

variable {s s' : State κ}

omit [DecidableEq κ] in
theorem Sound.new : Sound (new κ) where
  single := fun k k' f h => by cases h
  once := List.nodup_nil
  exact := fun f => ⟨fun h => (by cases h), fun ⟨k, h⟩ => by cases h⟩
  freedOnce := List.nodup_nil
  freed := fun f => ⟨fun h => (by cases h), fun h => absurd h.1 (Nat.not_lt_zero f)⟩
  given := fun k f h => by cases h
  order := .nil

theorem owner_update {owner : κ → Option Nat} {k k' : κ} {f f' : Nat} : Function.update owner k (some f) k' = some f' ↔
    (k' = k ∧ f' = f) ∨ (k' ≠ k ∧ owner k' = some f') := by
  by_cases hk : k' = k
  · subst hk
    simp [eq_comm]
  · simp [hk]

theorem owner_update_none {owner : κ → Option Nat} {k k' : κ} {f : Nat} : Function.update owner k none k' = some f ↔
    k' ≠ k ∧ owner k' = some f := by
  by_cases hk : k' = k
  · subst hk
    simp
  · simp [hk]

omit [DecidableEq κ] in
theorem pending_release {k : κ} {js : List (Job κ)} (hj : s.jobs = .release k :: js) :
    s.pending = js.filterMap Job.watches := by
  unfold State.pending
  rw [hj]
  rfl

namespace Sound

theorem acquire {k : κ} (h : Sound s) (hs : step s (.acquire k) = some s') : Sound s' := by
  simp only [step] at hs
  split at hs
  swap
  · cases hs
  rename_i hfree
  obtain ⟨hnone, hno⟩ := hfree
  cases hs
  have hown : ∀ k' f, Function.update s.owner k (some s.next) k' = some f ↔
      (k' = k ∧ f = s.next) ∨ (k' ≠ k ∧ s.owner k' = some f) := fun _ _ => owner_update
  have hpend : (s.jobs ++ [Job.watch s.next]).filterMap Job.watches = s.pending ++ [s.next] := by
    rw [List.filterMap_append]
    rfl
  have hnew : ∀ k', s.owner k' ≠ some s.next := fun k' hk' => Nat.lt_irrefl _ (h.given k' _ hk')
  refine ⟨fun k₁ k₂ f h₁ h₂ => ?_, ?_, fun f => ?_, h.freedOnce, fun f => ?_, fun k' f hk' => ?_, ?_⟩
  · rcases (hown k₁ f).1 h₁ with ⟨e₁, rfl⟩ | ⟨-, h₁'⟩ <;> rcases (hown k₂ _).1 h₂ with ⟨e₂, he⟩ | ⟨-, h₂'⟩
    · exact e₁.trans e₂.symm
    · exact absurd h₂' (hnew k₂)
    · exact absurd (he ▸ h₁') (hnew k₁)
    · exact h.single k₁ k₂ f h₁' h₂'
  · show (s.watched ++ (s.jobs ++ [Job.watch s.next]).filterMap Job.watches).Nodup
    rw [hpend, ← List.append_assoc]
    refine List.nodup_append.2 ⟨h.once, List.nodup_singleton _, fun a ha b hb => ?_⟩
    rw [List.mem_singleton.1 hb]
    rintro rfl
    obtain ⟨k', hk'⟩ := (h.exact _).1 ha
    exact hnew k' hk'
  · show f ∈ s.watched ++ (s.jobs ++ [Job.watch s.next]).filterMap Job.watches ↔ _
    rw [hpend, ← List.append_assoc, List.mem_append, h.exact, List.mem_singleton]
    constructor
    · rintro (⟨k', hk'⟩ | rfl)
      · refine ⟨k', (hown k' f).2 (.inr ⟨?_, hk'⟩)⟩
        rintro rfl
        rw [hnone] at hk'
        cases hk'
      · exact ⟨k, (hown k _).2 (.inl ⟨rfl, rfl⟩)⟩
    · rintro ⟨k', hk'⟩
      rcases (hown k' f).1 hk' with ⟨-, rfl⟩ | ⟨-, hk'⟩
      · exact .inr rfl
      · exact .inl ⟨k', hk'⟩
  · show f ∈ s.freed ↔ f < s.next + 1 ∧ ∀ k', Function.update s.owner k (some s.next) k' ≠ some f
    rw [h.freed]
    constructor
    · rintro ⟨hlt, hno'⟩
      refine ⟨by omega, fun k' hk' => ?_⟩
      rcases (hown k' f).1 hk' with ⟨-, rfl⟩ | ⟨-, hk'⟩
      · exact Nat.lt_irrefl _ hlt
      · exact hno' k' hk'
    · rintro ⟨hlt, hno'⟩
      refine ⟨?_, fun k' hk' => ?_⟩
      · rcases Nat.lt_succ_iff_lt_or_eq.1 hlt with hlt | rfl
        · exact hlt
        · exact absurd ((hown k _).2 (.inl ⟨rfl, rfl⟩)) (hno' k)
      · refine hno' k' ((hown k' f).2 (.inr ⟨?_, hk'⟩))
        rintro rfl
        rw [hnone] at hk'
        cases hk'
  · show f < s.next + 1
    rcases (hown k' f).1 hk' with ⟨-, rfl⟩ | ⟨-, hk'⟩
    · exact Nat.lt_succ_self _
    · exact Nat.lt_succ_of_lt (h.given k' f hk')
  · refine List.pairwise_append.2 ⟨h.order.imp_of_mem (fun {j j'} hj hj' hsep k' f hrel hw hk' => ?_),
      List.pairwise_singleton _ _, fun j hj j' hj' k' f hrel hw hk' => ?_⟩
    · rcases (hown k' f).1 hk' with ⟨rfl, -⟩ | ⟨-, hk'⟩
      · exact hno (hrel ▸ hj)
      · exact hsep k' f hrel hw hk'
    · rcases (hown k' f).1 hk' with ⟨rfl, -⟩ | ⟨-, hk'⟩
      · exact hno (hrel ▸ hj)
      · rw [List.mem_singleton.1 hj'] at hw
        cases hw
        exact hnew k' hk'

theorem ask {k : κ} (h : Sound s) (hs : step s (.ask k) = some s') : Sound s' := by
  cases hs
  have hpend : (s.jobs ++ [Job.release k]).filterMap Job.watches = s.pending := by
    rw [List.filterMap_append]
    exact List.append_nil _
  refine { h with once := ?_, exact := ?_, order := ?_ }
  · show (s.watched ++ (s.jobs ++ [Job.release k]).filterMap Job.watches).Nodup
    rw [hpend]
    exact h.once
  · show ∀ f, f ∈ s.watched ++ (s.jobs ++ [Job.release k]).filterMap Job.watches ↔ _
    rw [hpend]
    exact h.exact
  · refine List.pairwise_append.2 ⟨h.order, List.pairwise_singleton _ _, fun j hj j' hj' k' f hrel hw => ?_⟩
    rw [List.mem_singleton.1 hj'] at hw
    cases hw

omit [DecidableEq κ] in
theorem pending_live {f : Nat} (h : Sound s) (hf : f ∈ s.pending) : f ∉ s.freed := by
  obtain ⟨k, hk⟩ := (h.exact f).1 (List.mem_append_right _ hf)
  exact fun hfreed => ((h.freed f).1 hfreed).2 k hk

omit [DecidableEq κ] in
theorem watch {f : Nat} {js : List (Job κ)} (h : Sound s) (hj : s.jobs = .watch f :: js) :
    Sound { s with watched := s.watched ++ [f], jobs := js } := by
  have hpend : s.pending = f :: js.filterMap Job.watches := by
    unfold State.pending
    rw [hj]
    rfl
  have happ : s.watched ++ s.pending = s.watched ++ [f] ++ js.filterMap Job.watches := by
    rw [hpend, List.append_assoc]
    rfl
  refine { h with once := ?_, exact := ?_, order := ?_ }
  · exact happ ▸ h.once
  · exact happ ▸ h.exact
  · have hord := h.order
    rw [hj] at hord
    exact (List.pairwise_cons.1 hord).2

omit [DecidableEq κ] in
theorem releaseNone {k : κ} {js : List (Job κ)} (h : Sound s) (hj : s.jobs = .release k :: js) :
    Sound { s with jobs := js } := by
  have honce := h.once
  have hexact := h.exact
  have hord := h.order
  rw [pending_release hj] at honce
  simp only [pending_release hj] at hexact
  rw [hj] at hord
  exact { h with
    once := honce
    exact := hexact
    order := (List.pairwise_cons.1 hord).2 }

omit [DecidableEq κ] in
theorem fresh_of_release {k : κ} {f : Nat} {js : List (Job κ)} (h : Sound s) (hj : s.jobs = .release k :: js)
    (hk : s.owner k = some f) : f ∉ js.filterMap Job.watches := by
  have hord := h.order
  rw [hj] at hord
  intro hf
  obtain ⟨j, hjmem, hw⟩ := List.mem_filterMap.1 hf
  cases j with
  | watch f' =>
    cases hw
    exact (List.pairwise_cons.1 hord).1 _ hjmem k f rfl rfl hk
  | release k' => cases hw

theorem release {k : κ} {f : Nat} {js : List (Job κ)} (h : Sound s) (hj : s.jobs = .release k :: js)
    (hk : s.owner k = some f) : Sound { s with
      owner := Function.update s.owner k none, watched := s.watched.erase f, freed := s.freed ++ [f], jobs := js } := by
  have hpend := pending_release hj
  have hord := h.order
  rw [hj] at hord
  obtain ⟨-, htail⟩ := List.pairwise_cons.1 hord
  have hown : ∀ k' f', Function.update s.owner k none k' = some f' ↔ k' ≠ k ∧ s.owner k' = some f' :=
    fun _ _ => owner_update_none
  -- no other owner has it
  have helse : ∀ {k' f'}, s.owner k' = some f' → f' ≠ f → k' ≠ k := by
    rintro k' f' hk' hne rfl
    rw [hk] at hk'
    cases hk'
    exact hne rfl
  have hfresh := h.fresh_of_release hj hk
  have honce := h.once
  rw [hpend] at honce
  obtain ⟨hnw, hnp, hdis⟩ := List.nodup_append.1 honce
  refine ⟨fun k₁ k₂ f' h₁ h₂ => ?_, ?_, fun f' => ?_, ?_, fun f' => ?_, fun k' f' hk' => ?_, ?_⟩
  · exact h.single k₁ k₂ f' ((hown _ _).1 h₁).2 ((hown _ _).1 h₂).2
  · exact List.nodup_append.2 ⟨hnw.erase f, hnp, fun a ha b hb => hdis a (List.mem_of_mem_erase ha) b hb⟩
  · show f' ∈ s.watched.erase f ++ js.filterMap Job.watches ↔ _
    have hex := h.exact f'
    rw [hpend, List.mem_append] at hex
    rw [List.mem_append, hnw.mem_erase_iff]
    constructor
    · rintro (⟨hne, hf'⟩ | hf')
      · obtain ⟨k', hk'⟩ := hex.1 (.inl hf')
        exact ⟨k', (hown k' f').2 ⟨helse hk' hne, hk'⟩⟩
      · obtain ⟨k', hk'⟩ := hex.1 (.inr hf')
        exact ⟨k', (hown k' f').2 ⟨helse hk' (fun he => hfresh (he ▸ hf')), hk'⟩⟩
    · rintro ⟨k', hk'⟩
      obtain ⟨hne, hold⟩ := (hown k' f').1 hk'
      rcases hex.2 ⟨k', hold⟩ with hf' | hf'
      · refine .inl ⟨?_, hf'⟩
        rintro rfl
        exact hne (h.single k' k _ hold hk)
      · exact .inr hf'
  · refine List.nodup_append.2 ⟨h.freedOnce, List.nodup_singleton _, fun a ha b hb => ?_⟩
    rw [List.mem_singleton.1 hb]
    rintro rfl
    exact ((h.freed _).1 ha).2 k hk
  · show f' ∈ s.freed ++ [f] ↔ f' < s.next ∧ ∀ k', Function.update s.owner k none k' ≠ some f'
    rw [List.mem_append, h.freed, List.mem_singleton]
    constructor
    · rintro (⟨hlt, hno⟩ | rfl)
      · exact ⟨hlt, fun k' hk' => hno k' ((hown k' f').1 hk').2⟩
      · refine ⟨h.given k _ hk, fun k' hk' => ?_⟩
        obtain ⟨hne, hold⟩ := (hown k' _).1 hk'
        exact hne (h.single k' k _ hold hk)
    · rintro ⟨hlt, hno⟩
      by_cases he : f' = f
      · exact .inr he
      · exact .inl ⟨hlt, fun k' hk' => hno k' ((hown k' f').2 ⟨helse hk' he, hk'⟩)⟩
  · exact h.given k' f' ((hown k' f').1 hk').2
  · exact htail.imp (fun {j j'} hsep k' f' hrel hw hk' => hsep k' f' hrel hw ((hown k' f').1 hk').2)

theorem run (h : Sound s) (hs : step s .run = some s') : Sound s' := by
  simp only [step] at hs
  split at hs
  · cases hs
  · rename_i f js hj
    split at hs
    · cases hs
    · cases hs
      exact h.watch hj
  · rename_i k js hj
    split at hs
    · cases hs
      exact h.releaseNone hj
    · rename_i f hk
      cases hs
      exact h.release hj hk

theorem step {a : Act κ} (h : Sound s) (hs : Registry.step s a = some s') : Sound s' := by
  cases a with
  | acquire k => exact h.acquire hs
  | ask k => exact h.ask hs
  | run => exact h.run hs

end Sound

/-- **Every run of a registry is sound.** -/
theorem sound_reach (h : Reach step Machine.anyStep (new κ) s) : Sound s :=
  h.invariant .new (fun _ _ _ _ hi _ hs => hi.step hs)

end Registry
