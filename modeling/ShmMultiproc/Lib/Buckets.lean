import Mathlib.Order.Lattice
import Mathlib.Data.List.Basic
/-!
# Buckets — an ordered map of queues

A map from ordered keys to queues, as the list of its entries with the keys strictly increasing (`Sorted`).  `push` puts
an item at the end of the queue of its key and enters the key if it is missing; the first entry is that of the least key.
-/
namespace Buckets

variable {κ α : Type*}

def keys (q : List (κ × List α)) : List κ := q.map Prod.fst

def items (q : List (κ × List α)) : List α := q.flatMap Prod.snd

theorem items_cons (e : κ × List α) (q : List (κ × List α)) : items (e :: q) = e.2 ++ items q := rfl

variable [LinearOrder κ]

/-- **The keys are strictly increasing.** -/
def Sorted (q : List (κ × List α)) : Prop := (keys q).Pairwise (· < ·)

def push (k : κ) (x : α) : List (κ × List α) → List (κ × List α)
  | [] => [(k, [x])]
  | (k', xs) :: q =>
    if k < k' then (k, [x]) :: (k', xs) :: q
    else if k = k' then (k', xs ++ [x]) :: q
    else (k', xs) :: push k x q

theorem mem_keys_push {k k' : κ} {x : α} : ∀ {q : List (κ × List α)}, k' ∈ keys (push k x q) ↔ k' = k ∨ k' ∈ keys q
  | [] => by
    show k' ∈ [k] ↔ _
    rw [List.mem_singleton]
    exact ⟨.inl, fun h => h.resolve_right List.not_mem_nil⟩
  | (k₀, xs) :: q => by
    unfold push
    split
    · exact List.mem_cons
    · split
      · rename_i he
        rw [he]
        show k' ∈ k₀ :: keys q ↔ k' = k₀ ∨ k' ∈ k₀ :: keys q
        rw [List.mem_cons, or_self_left]
      · show k' ∈ k₀ :: keys (push k x q) ↔ k' = k ∨ k' ∈ k₀ :: keys q
        rw [List.mem_cons, mem_keys_push, List.mem_cons]
        exact or_left_comm

/-- **A push keeps the keys strictly increasing.** -/
theorem sorted_push {k : κ} {x : α} : ∀ {q : List (κ × List α)}, Sorted q → Sorted (push k x q)
  | [], _ => List.pairwise_singleton _ _
  | (k₀, xs) :: q, h => by
    obtain ⟨hlt, hq⟩ := List.pairwise_cons.1 h
    unfold push
    split
    · rename_i hk
      refine List.pairwise_cons.2 ⟨fun k' hk' => ?_, h⟩
      rcases List.mem_cons.1 hk' with rfl | hk'
      · exact hk
      · exact hk.trans (hlt k' hk')
    · rename_i hk
      split
      · exact List.pairwise_cons.2 ⟨hlt, hq⟩
      · rename_i hne
        refine List.pairwise_cons.2 ⟨fun k' hk' => ?_, sorted_push hq⟩
        rcases mem_keys_push.1 hk' with rfl | hk'
        · exact lt_of_le_of_ne (not_lt.1 hk) (Ne.symm hne)
        · exact hlt k' hk'

/-- **A push adds its item** and moves none to another queue. -/
theorem items_push {k : κ} {x : α} : ∀ {q : List (κ × List α)}, (items (push k x q)).Perm (x :: items q)
  | [] => .refl _
  | (k₀, xs) :: q => by
    unfold push
    split
    · exact .refl _
    · split
      · rw [items_cons, items_cons, List.append_assoc]
        exact List.perm_middle
      · rw [items_cons, items_cons]
        exact (List.Perm.append_left xs items_push).trans List.perm_middle

theorem Sorted.head_le {k k' : κ} {xs : List α} {q : List (κ × List α)} (h : Sorted ((k, xs) :: q))
    (hk : k' ∈ keys ((k, xs) :: q)) : k ≤ k' := by
  rcases List.mem_cons.1 hk with rfl | hk
  · exact le_refl _
  · exact ((List.pairwise_cons.1 h).1 k' hk).le

theorem Sorted.tail {e : κ × List α} {q : List (κ × List α)} (h : Sorted (e :: q)) : Sorted q :=
  (List.pairwise_cons.1 h).2

/-! ## The queues up to a key -/

/-- The entries whose keys are at most `k`. -/
def upTo (k : κ) (q : List (κ × List α)) : List (κ × List α) := q.filter (fun e => e.1 ≤ k)

theorem upTo_cons_of_le {k : κ} {e : κ × List α} (q : List (κ × List α)) (h : e.1 ≤ k) :
    upTo k (e :: q) = e :: upTo k q := List.filter_cons_of_pos (decide_eq_true h)

theorem upTo_cons_of_lt {k : κ} {e : κ × List α} (q : List (κ × List α)) (h : k < e.1) : upTo k (e :: q) = upTo k q :=
  List.filter_cons_of_neg (by simpa using h)

theorem Sorted.upTo_eq_nil {k k' : κ} {xs : List α} {q : List (κ × List α)} (h : Sorted ((k', xs) :: q)) (hk : k < k') :
    upTo k ((k', xs) :: q) = [] := by
  refine List.filter_eq_nil_iff.2 (fun e he => ?_)
  have := h.head_le (List.mem_map_of_mem he)
  simpa using lt_of_lt_of_le hk this

theorem upTo_push_of_lt {k k' : κ} {x : α} (h : k < k') : ∀ {q : List (κ × List α)}, upTo k (push k' x q) = upTo k q
  | [] => upTo_cons_of_lt [] h
  | (k₀, xs) :: q => by
    unfold push
    split
    · exact upTo_cons_of_lt _ h
    · split
      · rename_i he
        subst he
        rw [upTo_cons_of_lt q h, upTo_cons_of_lt q h]
      · rcases le_or_gt k₀ k with hk | hk
        · rw [upTo_cons_of_le _ hk, upTo_cons_of_le _ hk, upTo_push_of_lt h]
        · rw [upTo_cons_of_lt _ hk, upTo_cons_of_lt _ hk, upTo_push_of_lt h]

theorem mem_items_upTo {k : κ} {x : α} {q : List (κ × List α)} :
    x ∈ items (upTo k q) ↔ ∃ e ∈ q, e.1 ≤ k ∧ x ∈ e.2 := by
  unfold items upTo
  rw [List.mem_flatMap]
  constructor
  · rintro ⟨e, he, hx⟩
    obtain ⟨he, hk⟩ := List.mem_filter.1 he
    exact ⟨e, he, of_decide_eq_true hk, hx⟩
  · rintro ⟨e, he, hk, hx⟩
    exact ⟨e, List.mem_filter.2 ⟨he, decide_eq_true hk⟩, hx⟩

theorem mem_push {k k' : κ} {x y : α} : ∀ {q : List (κ × List α)}, ∀ e ∈ push k x q, e.1 = k' → y ∈ e.2 →
    (y = x ∧ k' = k) ∨ ∃ e' ∈ q, e'.1 = k' ∧ y ∈ e'.2
  | [], e, he, hk, hy => by
    cases List.mem_singleton.1 he
    exact .inl ⟨List.mem_singleton.1 hy, hk.symm⟩
  | (k₀, xs) :: q, e, he, hk, hy => by
    unfold push at he
    split at he
    · rcases List.mem_cons.1 he with rfl | he
      · exact .inl ⟨List.mem_singleton.1 hy, hk.symm⟩
      · exact .inr ⟨e, he, hk, hy⟩
    · split at he
      · rename_i hk₀
        rcases List.mem_cons.1 he with rfl | he
        · rcases List.mem_append.1 hy with hy | hy
          · exact .inr ⟨(k₀, xs), List.mem_cons_self, hk, hy⟩
          · exact .inl ⟨List.mem_singleton.1 hy, by rw [hk₀]; exact hk.symm⟩
        · exact .inr ⟨e, List.mem_cons_of_mem _ he, hk, hy⟩
      · rcases List.mem_cons.1 he with rfl | he
        · exact .inr ⟨(k₀, xs), List.mem_cons_self, hk, hy⟩
        · rcases mem_push e he hk hy with h | ⟨e', he', hk', hy'⟩
          · exact .inl h
          · exact .inr ⟨e', List.mem_cons_of_mem _ he', hk', hy'⟩

theorem exists_push {k : κ} {x : α} : ∀ {q : List (κ × List α)}, ∃ e ∈ push k x q, e.1 = k ∧ x ∈ e.2
  | [] => ⟨(k, [x]), List.mem_cons_self, rfl, List.mem_cons_self⟩
  | (k₀, xs) :: q => by
    unfold push
    split
    · exact ⟨(k, [x]), List.mem_cons_self, rfl, List.mem_cons_self⟩
    · split
      · rename_i he
        exact ⟨(k₀, xs ++ [x]), List.mem_cons_self, he.symm, List.mem_append_right _ List.mem_cons_self⟩
      · obtain ⟨e, he, hk, hx⟩ := exists_push (k := k) (x := x) (q := q)
        exact ⟨e, List.mem_cons_of_mem _ he, hk, hx⟩

theorem push_keeps {k : κ} {x : α} : ∀ {q : List (κ × List α)}, ∀ e ∈ q, ∃ e' ∈ push k x q, e'.1 = e.1 ∧ e.2 ⊆ e'.2
  | [], e, he => absurd he List.not_mem_nil
  | (k₀, xs) :: q, e, he => by
    unfold push
    split
    · exact ⟨e, List.mem_cons_of_mem _ he, rfl, fun _ h => h⟩
    · split
      · rcases List.mem_cons.1 he with rfl | he
        · exact ⟨(k₀, xs ++ [x]), List.mem_cons_self, rfl, List.subset_append_left xs [x]⟩
        · exact ⟨e, List.mem_cons_of_mem _ he, rfl, fun _ h => h⟩
      · rcases List.mem_cons.1 he with rfl | he
        · exact ⟨(k₀, xs), List.mem_cons_self, rfl, fun _ h => h⟩
        · obtain ⟨e', he', hk, hsub⟩ := push_keeps (k := k) (x := x) e he
          exact ⟨e', List.mem_cons_of_mem _ he', hk, hsub⟩

theorem mem_upTo_push {k k' : κ} {x y : α} {q : List (κ × List α)} (h : y ∈ items (upTo k q) ∨ (y = x ∧ k' ≤ k)) :
    y ∈ items (upTo k (push k' x q)) := by
  rcases h with h | ⟨rfl, hk⟩
  · obtain ⟨e, he, hk, hy⟩ := mem_items_upTo.1 h
    obtain ⟨e', he', hk', hsub⟩ := push_keeps (k := k') (x := x) e he
    exact mem_items_upTo.2 ⟨e', he', hk' ▸ hk, hsub hy⟩
  · obtain ⟨e, he, hke, hy⟩ := exists_push (k := k') (x := y) (q := q)
    exact mem_items_upTo.2 ⟨e, he, hke ▸ hk, hy⟩

/-! ## The queues above a key -/

/-- The entries whose keys are above `k`. -/
def above (k : κ) (q : List (κ × List α)) : List (κ × List α) := q.filter (fun e => k < e.1)

theorem above_cons_of_lt {k : κ} {e : κ × List α} (q : List (κ × List α)) (h : k < e.1) :
    above k (e :: q) = e :: above k q := List.filter_cons_of_pos (decide_eq_true h)

theorem above_cons_of_le {k : κ} {e : κ × List α} (q : List (κ × List α)) (h : e.1 ≤ k) : above k (e :: q) = above k q :=
  List.filter_cons_of_neg (by simpa using h)

theorem Sorted.above_eq {k k' : κ} {xs : List α} {q : List (κ × List α)} (h : Sorted ((k', xs) :: q)) (hk : k < k') :
    above k ((k', xs) :: q) = (k', xs) :: q := by
  refine List.filter_eq_self.2 (fun e he => decide_eq_true ?_)
  exact lt_of_lt_of_le hk (h.head_le (List.mem_map_of_mem he))

theorem above_push_of_lt {k k' : κ} {x : α} (h : k < k') : ∀ {q : List (κ × List α)},
    above k (push k' x q) = push k' x (above k q)
  | [] => above_cons_of_lt [] h
  | (k₀, xs) :: q => by
    rcases le_or_gt k₀ k with hk | hk
    · have hlt : k₀ < k' := lt_of_le_of_lt hk h
      have hpush : push k' x ((k₀, xs) :: q) = (k₀, xs) :: push k' x q := by
        show (if k' < k₀ then _ else if k' = k₀ then _ else _) = _
        rw [if_neg (not_lt.2 hlt.le), if_neg hlt.ne']
      rw [hpush, above_cons_of_le _ hk, above_cons_of_le _ hk, above_push_of_lt h]
    · rw [above_cons_of_lt _ hk]
      unfold push
      split
      · rw [above_cons_of_lt _ h, above_cons_of_lt _ hk]
      · split
        · rw [above_cons_of_lt _ hk]
        · rw [above_cons_of_lt _ hk, above_push_of_lt h]

end Buckets
