import Mathlib.Data.List.Basic
import Mathlib.Logic.Function.Basic
import ShmMultiproc.Lib.Machine
/-!
# Mutex — a lock that is not recursive, and handlers

Any number of threads call one operation, whose body runs under a lock.  A call may begin in a thread that is in the
middle of another one, as a signal handler does; the lower call goes on when the upper one has returned.  One body runs at
a time (`Exclusive`), so all the threads together are one client (`simulates`).  A handler that begins in the thread which
has the lock waits for its own thread: after that no call returns (`Jammed.forever`), and this is the only way to get
there (`returns`, `not_jammed`).
-/
namespace Mutex

open Machine (Reach)

variable {θ ω π σ β γ : Type*} [DecidableEq θ]

/-- A shared state with an operation: where its body begins, its steps, where it is over, and what others may do to the
shared state without the lock. -/
structure Component (ω π σ β γ : Type*) where
  begin : ω → π
  body : π → σ → β → Option (π × σ)
  ended : π → Bool
  other : σ → γ → Option σ

/-- A call under way: it waits for the lock, or is in the body. -/
inductive Frame (ω π : Type*) where
  | waiting (op : ω)
  | inside (op : ω) (pc : π)
  deriving DecidableEq, Repr

/-- The calls under way of each thread, the uppermost first, and the calls that have returned, oldest first. -/
structure State (θ ω π σ : Type*) where
  shared : σ
  owner : Option θ
  stack : θ → List (Frame ω π)
  returned : List (θ × ω)

inductive Act (θ ω β γ : Type*) where
  | call (t : θ) (op : ω)
  | lock (t : θ)
  | body (t : θ) (b : β)
  | unlock (t : θ)
  | other (c : γ)
  deriving DecidableEq, Repr

def start (θ ω π : Type*) (x : σ) : State θ ω π σ := ⟨x, none, fun _ => [], []⟩

/-- A step of the uppermost call of a thread, or of the others. -/
def step (C : Component ω π σ β γ) (s : State θ ω π σ) : Act θ ω β γ → Option (State θ ω π σ)
  | .call t op => some { s with stack := Function.update s.stack t (.waiting op :: s.stack t) }
  | .lock t =>
    match s.owner, s.stack t with
    | none, .waiting op :: rest =>
      some { s with owner := some t, stack := Function.update s.stack t (.inside op (C.begin op) :: rest) }
    | _, _ => none
  | .body t b =>
    match s.stack t with
    | .inside op pc :: rest =>
      (C.body pc s.shared b).map (fun p =>
        { s with shared := p.2, stack := Function.update s.stack t (.inside op p.1 :: rest) })
    | _ => none
  | .unlock t =>
    match s.stack t with
    | .inside op pc :: rest =>
      if C.ended pc = true then
        some { s with
          owner := none, stack := Function.update s.stack t rest, returned := s.returned ++ [(t, op)] }
      else none
    | _ => none
  | .other c => (C.other s.shared c).map (fun x => { s with shared := x })

/-! ## One body at a time -/

def Frame.body : Frame ω π → Option (ω × π)
  | .waiting _ => none
  | .inside op pc => some (op, pc)

def bodies (s : State θ ω π σ) (t : θ) : List (ω × π) := (s.stack t).filterMap Frame.body

/-- **One body at a time**, in the thread that has the lock. -/
structure Exclusive (s : State θ ω π σ) : Prop where
  free : ∀ t, s.owner ≠ some t → bodies s t = []
  held : ∀ t, s.owner = some t → ∃ x, bodies s t = [x]

variable {C : Component ω π σ β γ} {s s' : State θ ω π σ} {t : θ}

theorem bodies_update {u : θ} {l : List (Frame ω π)} (hs : s'.stack = Function.update s.stack t l) :
    bodies s' u = if u = t then l.filterMap Frame.body else bodies s u := by
  unfold bodies
  rw [hs]
  split
  · rename_i he
    rw [he, Function.update_self]
  · rename_i hne
    rw [Function.update_of_ne hne]

theorem bodies_call (s : State θ ω π σ) (t : θ) (op : ω) (u : θ) :
    bodies { s with stack := Function.update s.stack t (.waiting op :: s.stack t) } u = bodies s u := by
  rw [bodies_update (s := s) rfl]
  split
  · rename_i he
    rw [he]
    rfl
  · rfl

namespace Exclusive

omit [DecidableEq θ] in
theorem start (x : σ) : Exclusive (start θ ω π x) where
  free _ _ := rfl
  held _ h := by cases h

theorem top {op : ω} {pc : π} {rest : List (Frame ω π)} (h : Exclusive s) (hs : s.stack t = .inside op pc :: rest) :
    s.owner = some t ∧ rest.filterMap Frame.body = [] := by
  have hb : bodies s t = (op, pc) :: rest.filterMap Frame.body := by
    unfold bodies
    rw [hs]
    rfl
  have ho : s.owner = some t := by
    by_contra hne
    rw [h.free t hne] at hb
    cases hb
  obtain ⟨x, hx⟩ := h.held t ho
  rw [hb] at hx
  exact ⟨ho, (List.cons.inj hx).2⟩

theorem stay {op : ω} {pc : π} {rest : List (Frame ω π)} (h : Exclusive s) (ho : s.owner = some t)
    (hrest : rest.filterMap Frame.body = []) (hs : s'.stack = Function.update s.stack t (.inside op pc :: rest))
    (ho' : s'.owner = some t) : Exclusive s' where
  free u hu := by
    have hne : u ≠ t := by
      rintro rfl
      exact hu ho'
    rw [bodies_update hs, if_neg hne]
    exact h.free u (fun he => hne (Option.some.inj (he.symm.trans ho)))
  held u hu := by
    obtain rfl : t = u := Option.some.inj (ho'.symm.trans hu)
    refine ⟨(op, pc), ?_⟩
    rw [bodies_update hs, if_pos rfl]
    exact congrArg ((op, pc) :: ·) hrest

theorem step {a : Act θ ω β γ} (h : Exclusive s) (hs : Mutex.step C s a = some s') : Exclusive s' := by
  cases a with
  | call t op =>
    cases hs
    exact ⟨fun u hu => (bodies_call s t op u).trans (h.free u hu), fun u hu => by rw [bodies_call]; exact h.held u hu⟩
  | lock t =>
    simp only [Mutex.step] at hs
    split at hs
    · rename_i op rest ho hst
      cases hs
      have hrest : rest.filterMap Frame.body = [] := by
        have hb := h.free t (by rw [ho]; exact fun he => by cases he)
        unfold bodies at hb
        rw [hst] at hb
        exact hb
      refine ⟨fun u hu => ?_, fun u hu => ?_⟩
      · have hne : u ≠ t := by
          rintro rfl
          exact hu rfl
        rw [bodies_update (s := s) rfl, if_neg hne]
        exact h.free u (by rw [ho]; exact fun he => by cases he)
      · obtain rfl : t = u := Option.some.inj hu
        refine ⟨(op, C.begin op), ?_⟩
        rw [bodies_update (s := s) rfl, if_pos rfl]
        exact congrArg ((op, C.begin op) :: ·) hrest
    · cases hs
  | body t b =>
    simp only [Mutex.step] at hs
    split at hs
    · rename_i op pc rest hst
      obtain ⟨p, -, rfl⟩ := Option.map_eq_some_iff.1 hs
      obtain ⟨ho, hrest⟩ := h.top hst
      exact h.stay ho hrest rfl ho
    · cases hs
  | unlock t =>
    simp only [Mutex.step] at hs
    split at hs
    · rename_i op pc rest hst
      obtain ⟨ho, hrest⟩ := h.top hst
      split at hs
      · cases hs
        refine ⟨fun u _ => ?_, fun u hu => by cases hu⟩
        rw [bodies_update (s := s) rfl]
        split
        · exact hrest
        · rename_i hne
          exact h.free u (fun he => hne (Option.some.inj (he.symm.trans ho)))
      · cases hs
    · cases hs
  | other c =>
    obtain ⟨x, -, rfl⟩ := Option.map_eq_some_iff.1 hs
    exact ⟨h.free, h.held⟩

end Exclusive

theorem exclusive_reach {G : State θ ω π σ → Act θ ω β γ → Prop} {x : σ} (h : Reach (step C) G (start θ ω π x) s) :
    Exclusive s :=
  h.invariant (.start x) (fun _ _ _ _ hi _ hs => hi.step hs)

/-! ## One client -/

/-- The same component with one client, which makes a call when it has none under way. -/
structure Client (ω π σ : Type*) where
  shared : σ
  call : Option (ω × π)
  returned : List ω

inductive ClientAct (ω β γ : Type*) where
  | begin (op : ω)
  | body (b : β)
  | finish
  | other (c : γ)
  deriving DecidableEq, Repr

def clientStep (C : Component ω π σ β γ) (x : Client ω π σ) : ClientAct ω β γ → Option (Client ω π σ)
  | .begin op =>
    match x.call with
    | none => some { x with call := some (op, C.begin op) }
    | some _ => none
  | .body b =>
    match x.call with
    | none => none
    | some (op, pc) => (C.body pc x.shared b).map (fun p => { x with shared := p.2, call := some (op, p.1) })
  | .finish =>
    match x.call with
    | none => none
    | some (op, pc) =>
      if C.ended pc = true then some { x with call := none, returned := x.returned ++ [op] } else none
  | .other c => (C.other x.shared c).map (fun y => { x with shared := y })

def running (s : State θ ω π σ) : Option (ω × π) := s.owner.bind (fun t => (bodies s t).head?)

/-- **The threads as one client.** -/
def client (s : State θ ω π σ) : Client ω π σ := ⟨s.shared, running s, s.returned.map Prod.snd⟩

omit [DecidableEq θ] in
theorem running_top {op : ω} {pc : π} {rest : List (Frame ω π)} (ho : s.owner = some t)
    (hs : s.stack t = .inside op pc :: rest) : running s = some (op, pc) := by
  unfold running bodies
  rw [ho, Option.bind_some, hs]
  rfl

theorem client_step {a : Act θ ω β γ} (h : Exclusive s) (hs : step C s a = some s') : client s' = client s ∨
    ∃ a', clientStep C (client s) a' = some (client s') ∧ ((∀ c, a' ≠ .other c) ∨ ∃ c, a = .other c ∧ a' = .other c) := by
  cases a with
  | call t op =>
    cases hs
    left
    have hrun : running { s with stack := Function.update s.stack t (.waiting op :: s.stack t) } = running s := by
      unfold running
      simp only [bodies_call]
    unfold client
    rw [hrun]
  | lock t =>
    simp only [step] at hs
    split at hs
    · rename_i op rest ho hst
      cases hs
      refine .inr ⟨.begin op, ?_, .inl (by simp)⟩
      have hnone : running s = none := by
        unfold running
        rw [ho]
        rfl
      unfold clientStep client
      rw [hnone, running_top rfl (Function.update_self ..)]
    · cases hs
  | body t b =>
    simp only [step] at hs
    split at hs
    · rename_i op pc rest hst
      obtain ⟨p, hp, rfl⟩ := Option.map_eq_some_iff.1 hs
      have hrun := running_top (h.top hst).1 hst
      refine .inr ⟨.body b, ?_, .inl (by simp)⟩
      have hrun' := running_top (s := { s with shared := p.2, stack := Function.update s.stack t (.inside op p.1 :: rest) })
        (h.top hst).1 (Function.update_self ..)
      unfold clientStep client
      simp only [hrun, hrun', hp, Option.map_some]
    · cases hs
  | unlock t =>
    simp only [step] at hs
    split at hs
    · rename_i op pc rest hst
      have hrun := running_top (h.top hst).1 hst
      split at hs
      · rename_i hended
        cases hs
        refine .inr ⟨.finish, ?_, .inl (by simp)⟩
        unfold clientStep client
        simp only [hrun, if_pos hended, List.map_append]
        rfl
      · cases hs
    · cases hs
  | other c =>
    obtain ⟨x, hx, rfl⟩ := Option.map_eq_some_iff.1 hs
    refine .inr ⟨.other c, ?_, .inr ⟨c, rfl, rfl⟩⟩
    unfold clientStep client
    simp only [hx, Option.map_some]
    rfl

/-- **Any number of threads are one client**: a guard that asks something of the others only carries over. -/
theorem simulates {G : State θ ω π σ → Act θ ω β γ → Prop} {H : Client ω π σ → ClientAct ω β γ → Prop} {x : σ}
    (h : Reach (step C) G (start θ ω π x) s) (hother : ∀ s c, G s (.other c) → H (client s) (.other c))
    (hown : ∀ y a, (∀ c, a ≠ .other c) → H y a) : Reach (clientStep C) H ⟨x, none, []⟩ (client s) := by
  show Reach _ _ (client (start θ ω π x)) (client s)
  refine h.simulate (fun s₁ a s₂ hr hg hs => ?_)
  rcases client_step (exclusive_reach hr) hs with he | ⟨a', ha', hkind⟩
  · rw [he]
    exact .init
  · refine .single ?_ ha'
    rcases hkind with hne | ⟨c, rfl, rfl⟩
    · exact hown _ _ hne
    · exact hother _ _ hg

/-! ## When a thread waits for itself -/

/-- **A handler waits for the lock that its own thread has.** -/
def Jammed (s : State θ ω π σ) : Prop :=
  ∃ t op rest, s.owner = some t ∧ s.stack t = .waiting op :: rest

theorem Jammed.step {a : Act θ ω β γ} (hj : Jammed s) (h : Exclusive s) (hs : Mutex.step C s a = some s') :
    Jammed s' ∧ s'.returned = s.returned := by
  obtain ⟨t, op, rest, ho, hst⟩ := hj
  -- the only thread that may be in the body is the one that waits
  have hnone : ∀ {u op' pc rest'}, s.stack u ≠ .inside op' pc :: rest' := by
    intro u op' pc rest' hu
    obtain rfl : t = u := Option.some.inj (ho.symm.trans (h.top hu).1)
    cases hst.symm.trans hu
  cases a with
  | call u op' =>
    cases hs
    refine ⟨?_, rfl⟩
    by_cases hu : t = u
    · subst hu
      exact ⟨t, op', _, ho, Function.update_self ..⟩
    · exact ⟨t, op, rest, ho, (Function.update_of_ne hu ..).trans hst⟩
  | lock u =>
    simp only [Mutex.step] at hs
    split at hs
    · rename_i hfree _
      cases ho.symm.trans hfree
    · cases hs
  | body u b =>
    simp only [Mutex.step] at hs
    split at hs
    · rename_i hu
      exact absurd hu hnone
    · cases hs
  | unlock u =>
    simp only [Mutex.step] at hs
    split at hs
    · rename_i hu
      exact absurd hu hnone
    · cases hs
  | other c =>
    obtain ⟨x, -, rfl⟩ := Option.map_eq_some_iff.1 hs
    exact ⟨⟨t, op, rest, ho, hst⟩, rfl⟩

/-- **No call returns any more**, in any run. -/
theorem Jammed.forever {G : State θ ω π σ → Act θ ω β γ → Prop} (hj : Jammed s) (h : Exclusive s)
    (hr : Reach (Mutex.step C) G s s') : Jammed s' ∧ s'.returned = s.returned := by
  have hi : Exclusive s' ∧ Jammed s' ∧ s'.returned = s.returned := by
    refine hr.invariant (I := fun x => Exclusive x ∧ Jammed x ∧ x.returned = s.returned) ⟨h, hj, rfl⟩
      (fun x a x' _ hi _ hs => ?_)
    obtain ⟨he, hj, hret⟩ := hi
    obtain ⟨hj', hret'⟩ := hj.step he hs
    exact ⟨he.step hs, hj', hret'.trans hret⟩
  exact hi.2

/-- No call begins in the thread that has the lock. -/
def NoneInside (s : State θ ω π σ) : Act θ ω β γ → Prop
  | .call t _ => s.owner ≠ some t
  | .lock _ | .body _ _ | .unlock _ | .other _ => True

/-- **There is no other way to jam.** -/
theorem not_jammed_step {a : Act θ ω β γ} (hj : ¬ Jammed s) (hg : NoneInside s a) (hs : step C s a = some s') :
    ¬ Jammed s' := by
  rintro ⟨u, op, rest, ho, hst⟩
  refine hj ?_
  cases a with
  | call t op' =>
    cases hs
    have hne : u ≠ t := by
      rintro rfl
      exact hg ho
    exact ⟨u, op, rest, ho, (Function.update_of_ne hne ..).symm.trans hst⟩
  | lock t =>
    simp only [step] at hs
    split at hs
    · cases hs
      obtain rfl : t = u := Option.some.inj ho
      cases (Function.update_self ..).symm.trans hst
    · cases hs
  | body t b =>
    simp only [step] at hs
    split at hs
    · obtain ⟨p, -, rfl⟩ := Option.map_eq_some_iff.1 hs
      by_cases hu : u = t
      · subst hu
        cases (Function.update_self ..).symm.trans hst
      · exact ⟨u, op, rest, ho, (Function.update_of_ne hu ..).symm.trans hst⟩
    · cases hs
  | unlock t =>
    simp only [step] at hs
    split at hs
    · split at hs
      · cases hs
        cases ho
      · cases hs
    · cases hs
  | other c =>
    obtain ⟨x, -, rfl⟩ := Option.map_eq_some_iff.1 hs
    exact ⟨u, op, rest, ho, hst⟩

theorem not_jammed {G : State θ ω π σ → Act θ ω β γ → Prop} {x : σ} (h : Reach (step C) G (start θ ω π x) s)
    (hG : ∀ s a, G s a → NoneInside s a) : ¬ Jammed s :=
  h.invariant (I := fun s => ¬ Jammed s) (fun ⟨_, _, _, ho, _⟩ => by cases ho)
    (fun s a _ _ hi hg hs => not_jammed_step hi (hG s a hg) hs)

/-- The body comes to its end when nothing else moves. -/
inductive Finishes (C : Component ω π σ β γ) : π → σ → Prop
  | ended {pc : π} {x : σ} : C.ended pc = true → Finishes C pc x
  | step {pc pc' : π} {x x' : σ} {b : β} : C.body pc x b = some (pc', x') → Finishes C pc' x' → Finishes C pc x

/-- Only calls under way go on. -/
def GoOn (_ : State θ ω π σ) : Act θ ω β γ → Prop
  | .lock _ | .body _ _ | .unlock _ => True
  | .call _ _ | .other _ => False

/-- **Who is in the body returns**, by induction on its steps. -/
theorem Finishes.returns {op : ω} {pc : π} {x : σ} (hf : Finishes C pc x) : ∀ (s : State θ ω π σ) (rest : List (Frame ω π)),
    s.shared = x → s.stack t = .inside op pc :: rest →
    ∃ s', Reach (Mutex.step C) GoOn s s' ∧ s'.returned = s.returned ++ [(t, op)] := by
  induction hf with
  | ended hended =>
    intro s rest _ hst
    refine ⟨{ s with owner := none, stack := Function.update s.stack t rest, returned := s.returned ++ [(t, op)] },
      .single (a := .unlock t) trivial ?_, rfl⟩
    simp only [Mutex.step, hst, if_pos hended]
  | @step pc pc' x x' b hb _ ih =>
    intro s rest hx hst
    obtain ⟨s', hr, hret⟩ := ih
      { s with shared := x', stack := Function.update s.stack t (.inside op pc' :: rest) } rest rfl (Function.update_self ..)
    refine ⟨s', Reach.trans (.single (a := .body t b) trivial ?_) hr, hret⟩
    simp only [Mutex.step, hst, hx, hb, Option.map_some]

/-- **While no handler waits for its own thread, a call under way can return**: the body that is running if there is one,
else any call that waits. -/
theorem returns (h : Exclusive s) (hj : ¬ Jammed s) (ht : s.stack t ≠ [])
    (hrun : ∀ op pc, running s = some (op, pc) → Finishes C pc s.shared)
    (hbegin : running s = none → ∀ op, Finishes C (C.begin op) s.shared) :
    ∃ s' c, Reach (step C) GoOn s s' ∧ s'.returned = s.returned ++ [c] := by
  cases ho : s.owner with
  | some u =>
    obtain ⟨y, hy⟩ := h.held u ho
    cases hst : s.stack u with
    | nil =>
      unfold bodies at hy
      rw [hst] at hy
      cases hy
    | cons f rest =>
      cases f with
      | waiting op => exact absurd ⟨u, op, rest, ho, hst⟩ hj
      | inside op pc =>
        obtain ⟨s', hr, hret⟩ := (hrun op pc (running_top ho hst)).returns (t := u) s rest rfl hst
        exact ⟨s', (u, op), hr, hret⟩
  | none =>
    have hnone : running s = none := by
      unfold running
      rw [ho]
      rfl
    cases hst : s.stack t with
    | nil => exact absurd hst ht
    | cons f rest =>
      cases f with
      | inside op pc => cases ho.symm.trans (h.top hst).1
      | waiting op =>
        obtain ⟨s', hr, hret⟩ := (hbegin hnone op).returns (t := t)
          { s with owner := some t, stack := Function.update s.stack t (.inside op (C.begin op) :: rest) } rest rfl
          (Function.update_self ..)
        refine ⟨s', (t, op), Reach.trans (.single (a := .lock t) trivial ?_) hr, hret⟩
        simp only [step, ho, hst]

end Mutex
