import Mathlib.Data.List.Basic
/-!
# Machine — guarded runs of a machine with a partial step

A machine is a partial step `σ → α → Option σ`: `none` says that the action is not enabled.  `Reach step G s₀ s` is a
run from `s₀` to `s` every step of which met the guard `G` at the state before it, so "in every run whose steps all
meet a condition" is a statement about `Reach`.  `exec` is the same run by evaluation.
-/
namespace Machine

variable {σ τ α β : Type*}

/-- **The states a run reaches** when each of its steps meets `G` at the state before it. -/
inductive Reach (step : σ → α → Option σ) (G : σ → α → Prop) (s₀ : σ) : σ → Prop
  | init : Reach step G s₀ s₀
  | next {s s' : σ} {a : α} : Reach step G s₀ s → G s a → step s a = some s' → Reach step G s₀ s'

/-- The guard that asks nothing. -/
def anyStep : σ → α → Prop := fun _ _ => True

instance (s : σ) (a : α) : Decidable (anyStep s a) := .isTrue trivial

namespace Reach

variable {step : σ → α → Option σ} {G H : σ → α → Prop} {s₀ s s' : σ}

/-- **The invariant rule**: what holds first and is preserved by every guarded step from a reached state holds of every
reached state. -/
theorem invariant {I : σ → Prop} (h : Reach step G s₀ s) (h0 : I s₀)
    (hstep : ∀ s a s', Reach step G s₀ s → I s → G s a → step s a = some s' → I s') : I s := by
  induction h with
  | init => exact h0
  | next hr hg hs ih => exact hstep _ _ _ hr ih hg hs

/-- **A guard implied at every reached state may be weakened to.** -/
theorem imp (h : Reach step G s₀ s) (hGH : ∀ s a, Reach step G s₀ s → G s a → H s a) : Reach step H s₀ s := by
  induction h with
  | init => exact .init
  | next hr hg hs ih => exact .next ih (hGH _ _ hr hg) hs

theorem mono (h : Reach step G s₀ s) (hGH : ∀ s a, G s a → H s a) : Reach step H s₀ s :=
  h.imp (fun s a _ hg => hGH s a hg)

theorem any (h : Reach step G s₀ s) : Reach step anyStep s₀ s := h.mono (fun _ _ _ => trivial)

theorem trans (h : Reach step G s₀ s) (h' : Reach step G s s') : Reach step G s₀ s' := by
  induction h' with
  | init => exact h
  | next _ hg hs ih => exact .next ih hg hs

/-- **Simulation**: when every step is answered by a run of another machine between the images of its two states, so is
every run. -/
theorem simulate {step' : τ → β → Option τ} {H : τ → β → Prop} {abs : σ → τ} (h : Reach step G s₀ s)
    (hstep : ∀ s a s', Reach step G s₀ s → G s a → step s a = some s' → Reach step' H (abs s) (abs s')) :
    Reach step' H (abs s₀) (abs s) := by
  induction h with
  | init => exact .init
  | next hr hg hs ih => exact ih.trans (hstep _ _ _ hr hg hs)

theorem single {a : α} (hg : G s a) (hs : step s a = some s') : Reach step G s s' := .next .init hg hs

end Reach

/-- **A run during which an operation is under way**: none of its steps is one that completes it (`done`); `n` of them
are the steps of its own process. -/
inductive Pending (step : σ → α → Option σ) (G : σ → α → Prop) (own : α → Bool) (done : σ → α → σ → Prop) (s₀ : σ) :
    σ → Nat → Prop
  | init : Pending step G own done s₀ s₀ 0
  | next {s s' : σ} {a : α} {n : Nat} : Pending step G own done s₀ s n → G s a → step s a = some s' → ¬ done s a s' →
      Pending step G own done s₀ s' (n + if own a = true then 1 else 0)

namespace Pending

variable {step : σ → α → Option σ} {G : σ → α → Prop} {own : α → Bool} {done : σ → α → σ → Prop} {s₀ s : σ} {n : Nat}

/-- **The rule of bounded waiting**: a rank that own steps lower, and that no other step raises, bounds the own steps that
an operation takes, whatever the other processes do. -/
theorem le {I : σ → Prop} (rank : σ → Nat) (h : Pending step G own done s₀ s n) (h0 : I s₀)
    (hstep : ∀ s a s', I s → G s a → step s a = some s' → ¬ done s a s' →
      I s' ∧ rank s' + (if own a = true then 1 else 0) ≤ rank s) : I s ∧ n + rank s ≤ rank s₀ := by
  induction h with
  | init => exact ⟨h0, by omega⟩
  | next _ hg hs hd ih =>
    obtain ⟨hi, hr⟩ := ih
    obtain ⟨hi', hr'⟩ := hstep _ _ _ hi hg hs hd
    exact ⟨hi', by omega⟩

end Pending

/-- A run by evaluation: `none` when an action is not enabled or does not meet the guard. -/
def exec (step : σ → α → Option σ) (G : σ → α → Prop) [∀ s a, Decidable (G s a)] : σ → List α → Option σ
  | s, [] => some s
  | s, a :: as =>
    if G s a then
      match step s a with
      | none => none
      | some s' => exec step G s' as
    else none

theorem reach_of_exec (step : σ → α → Option σ) (G : σ → α → Prop) [∀ s a, Decidable (G s a)] {s : σ} :
    ∀ (as : List α) (s₀ : σ), exec step G s₀ as = some s → Reach step G s₀ s
  | [], s₀, h => by
    simp only [exec, Option.some.injEq] at h
    exact h ▸ .init
  | a :: as, s₀, h => by
    simp only [exec] at h
    split at h
    · rename_i hg
      split at h
      · cases h
      · rename_i s₁ hs
        exact (Reach.next .init hg hs).trans (reach_of_exec step G as s₁ h)
    · cases h

/-! ## Components with answers -/

/-- **The answers of a sequence of calls** on a component whose calls may fail to return, with the last state. -/
def calls (call : σ → α → Option (σ × β)) : σ → List α → Option (σ × List β)
  | s, [] => some (s, [])
  | s, a :: as =>
    match call s a with
    | none => none
    | some (s', b) =>
      match calls call s' as with
      | none => none
      | some (s'', bs) => some (s'', b :: bs)

/-- **Refinement of a total specification**: when every call that returns answers what the specification answers and
keeps the states related, so does every sequence of calls that all return. -/
theorem calls_refine {call : σ → α → Option (σ × β)} {spec : τ → α → τ × β} {R : σ → τ → Prop} {P : α → Prop}
    (h : ∀ s t a s' b, P a → R s t → call s a = some (s', b) → b = (spec t a).2 ∧ R s' (spec t a).1) :
    ∀ (as : List α) (s : σ) (t : τ) (s' : σ) (bs : List β), (∀ a ∈ as, P a) → R s t →
      calls call s as = some (s', bs) →
      ∃ t', calls (fun t a => some (spec t a)) t as = some (t', bs) ∧ R s' t'
  | [], s, t, s', bs, _, hR, hc => by
    simp only [calls, Option.some.injEq, Prod.mk.injEq] at hc
    obtain ⟨rfl, rfl⟩ := hc
    exact ⟨t, rfl, hR⟩
  | a :: as, s, t, s', bs, hP, hR, hc => by
    simp only [calls] at hc
    split at hc
    · cases hc
    · rename_i s₁ b hb
      split at hc
      · cases hc
      · rename_i s₂ bs' hbs
        simp only [Option.some.injEq, Prod.mk.injEq] at hc
        obtain ⟨rfl, rfl⟩ := hc
        obtain ⟨hb', hR'⟩ := h s t a s₁ b (hP a List.mem_cons_self) hR hb
        obtain ⟨t', ht', hR''⟩ := calls_refine h as s₁ (spec t a).1 _ _
          (fun x hx => hP x (List.mem_cons_of_mem a hx)) hR' hbs
        exact ⟨t', by simp only [calls, ht', hb'], hR''⟩

end Machine
