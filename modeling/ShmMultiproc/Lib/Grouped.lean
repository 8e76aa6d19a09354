import Mathlib.Data.List.Basic
/-!
# Grouped — messages that go out one call at a time

A list of messages, `none` for a call whose message is not made yet.  Its copies are `Together` when nothing stands
between two copies of one message but further copies of it.  A list stays so when copies are taken out, when a call is put
at its end, and when a call is filled in with copies of a new message.  Receivers that each see a part of such
a list agree on the order of the messages they share (`agree`).
-/
namespace Grouped

variable {α : Type*} {l l₁ l₂ : List (Option α)} {x : α}

/-- **Nothing else stands between two copies of a message.** -/
def Together (l : List (Option α)) : Prop := ∀ a b, b ≠ some a → ¬ [some a, b, some a].Sublist l

section Sublists

variable {β : Type*} {x y z : β} {l l' : List β}

theorem pair_sublist_append (h : [x, y].Sublist (l ++ l')) :
    [x, y].Sublist l ∨ (x ∈ l ∧ y ∈ l') ∨ [x, y].Sublist l' := by
  obtain ⟨p, q, hpq, hp, hq⟩ := List.sublist_append_iff.1 h
  match p, hpq with
  | [], hpq => exact .inr (.inr (hpq ▸ hq))
  | [_], hpq =>
    cases hpq
    exact .inr (.inl ⟨List.singleton_sublist.1 hp, List.singleton_sublist.1 hq⟩)
  | _ :: _ :: p, hpq =>
    simp only [List.cons_append, List.cons.injEq, List.nil_eq, List.append_eq_nil_iff] at hpq
    obtain ⟨rfl, rfl, rfl, -⟩ := hpq
    exact .inl hp

theorem triple_sublist_append (h : [x, y, z].Sublist (l ++ l')) :
    [x, y, z].Sublist l ∨ ([x, y].Sublist l ∧ z ∈ l') ∨ (x ∈ l ∧ [y, z].Sublist l') ∨ [x, y, z].Sublist l' := by
  obtain ⟨p, q, hpq, hp, hq⟩ := List.sublist_append_iff.1 h
  match p, hpq with
  | [], hpq => exact .inr (.inr (.inr (hpq ▸ hq)))
  | [_], hpq =>
    cases hpq
    exact .inr (.inr (.inl ⟨List.singleton_sublist.1 hp, hq⟩))
  | [_, _], hpq =>
    cases hpq
    exact .inr (.inl ⟨hp, List.singleton_sublist.1 hq⟩)
  | _ :: _ :: _ :: p, hpq =>
    simp only [List.cons_append, List.cons.injEq, List.nil_eq, List.append_eq_nil_iff] at hpq
    obtain ⟨rfl, rfl, rfl, rfl, -⟩ := hpq
    exact .inl hp

end Sublists

theorem nil : Together ([] : List (Option α)) := fun _ _ _ h => by cases h

theorem of_sublist (h : Together l₂) (hs : l₁.Sublist l₂) : Together l₁ := fun a b hab hp => h a b hab (hp.trans hs)

theorem concat_none (h : Together l) : Together (l ++ [none]) := by
  intro a b hab hp
  rcases triple_sublist_append hp with hp | ⟨-, ha⟩ | ⟨-, hp⟩ | hp
  · exact h a b hab hp
  · cases List.mem_singleton.1 ha
  · have := hp.length_le
    simp at this
  · have := hp.length_le
    simp at this

theorem fill (n : Nat) (h : Together (l₁ ++ none :: l₂)) (h₁ : some x ∉ l₁) (h₂ : some x ∉ l₂) :
    Together (l₁ ++ (List.replicate n (some x) ++ l₂)) := by
  have hl : (l₁ ++ l₂).Sublist (l₁ ++ none :: l₂) := List.Sublist.append_left (List.sublist_cons_self none l₂) l₁
  have hcopy : ∀ {b : Option α}, b ∈ List.replicate n (some x) → b = some x := fun hb => List.eq_of_mem_replicate hb
  intro a b hab hp
  by_cases hax : a = x
  · -- the copies of the new message are next to each other
    subst hax
    rcases triple_sublist_append hp with hp | ⟨hp, -⟩ | ⟨ha, -⟩ | hp
    · exact h₁ (hp.subset List.mem_cons_self)
    · exact h₁ (hp.subset List.mem_cons_self)
    · exact h₁ ha
    · rcases triple_sublist_append hp with hp | ⟨hp, -⟩ | ⟨-, hp⟩ | hp
      · exact hab (hcopy (hp.subset (by simp)))
      · exact hab (hcopy (hp.subset (by simp)))
      · exact h₂ (hp.subset (by simp))
      · exact h₂ (hp.subset List.mem_cons_self)
  · have hne : some a ∉ List.replicate n (some x) := fun ha => hax (Option.some.inj (hcopy ha))
    rcases triple_sublist_append hp with hp | ⟨hp, ha⟩ | ⟨ha, hp⟩ | hp
    · exact h a b hab (hp.trans (List.sublist_append_left l₁ _))
    · have ha₂ := (List.mem_append.1 ha).resolve_left hne
      exact h a b hab ((hp.append (List.singleton_sublist.2 ha₂)).trans hl)
    · rcases pair_sublist_append hp with hp | ⟨hb, ha₂⟩ | hp
      · exact hne (hp.subset (by simp))
      · -- a copy of the new message stands where the call stood
        refine h a none (by simp) ((List.singleton_sublist.2 ha).append ?_)
        exact (List.singleton_sublist.2 ha₂).cons_cons none
      · exact h a b hab (((List.singleton_sublist.2 ha).append hp).trans hl)
    · rcases triple_sublist_append hp with hp | ⟨hp, -⟩ | ⟨ha, -⟩ | hp
      · exact hne (hp.subset List.mem_cons_self)
      · exact hne (hp.subset List.mem_cons_self)
      · exact hne ha
      · exact h a b hab (hp.trans ((List.sublist_append_right l₁ l₂).trans hl))

theorem append_replicate (n : Nat) (h : Together l) (hx : some x ∉ l) : Together (l ++ List.replicate n (some x)) := by
  have := fill n (concat_none h) hx List.not_mem_nil
  rwa [List.append_nil] at this

/-! ## Receivers -/

/-- The messages that the receiver `r` got, of those sent as pairs of a receiver and a message. -/
def received {ρ : Type*} [DecidableEq ρ] (sent : List (ρ × α)) (r : ρ) : List α :=
  (sent.filter (fun p => p.1 = r)).map Prod.snd

variable {ρ : Type*} [DecidableEq ρ] {sent : List (ρ × α)}

theorem received_sublist (sent : List (ρ × α)) (r : ρ) : (received sent r).Sublist (sent.map Prod.snd) :=
  List.filter_sublist.map Prod.snd

/-- Two messages that stand in both orders: one of them has two copies around the other. -/
theorem crossed {β : Type*} {x y : β} (hne : x ≠ y) : ∀ {l : List β}, [x, y].Sublist l → [y, x].Sublist l →
    [x, y, x].Sublist l ∨ [y, x, y].Sublist l
  | [], h, _ => by cases h
  | z :: l, h, h' => by
    rcases List.sublist_cons_iff.1 h with hl | ⟨p, he, hl⟩
    · rcases List.sublist_cons_iff.1 h' with hl' | ⟨p', he', -⟩
      · exact (crossed hne hl hl').imp (.cons z) (.cons z)
      · cases he'
        exact .inr (hl.cons_cons _)
    · cases he
      rcases List.sublist_cons_iff.1 h' with hl' | ⟨p', he', -⟩
      · exact .inl (hl'.cons_cons _)
      · cases he'
        exact absurd rfl hne

/-- **Receivers agree on the order**: of what went out with its copies together, no two receivers got two messages in
two orders. -/
theorem agree (h : Together ((sent.map Prod.snd).map some)) {r r' : ρ} {m m' : α} (hne : m ≠ m')
    (hr : [m, m'].Sublist (received sent r)) : ¬ [m', m].Sublist (received sent r') := by
  intro hr'
  have hone := hr.trans (received_sublist sent r)
  have hother := hr'.trans (received_sublist sent r')
  rcases crossed hne hone hother with hp | hp
  · exact h m (some m') (fun he => hne (Option.some.inj he).symm) (hp.map some)
  · exact h m' (some m) (fun he => hne (Option.some.inj he)) (hp.map some)

end Grouped
