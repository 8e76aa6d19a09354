import Mathlib.Algebra.BigOperators.Group.List.Basic
import Mathlib.Algebra.GroupWithZero.Nat
/-!
# Worklist — a queue whose items append to it when they are run

`spawn f` is what running `f` appends.  `Runs spawn q ran` says that running the queue from its head until it is empty
runs `ran`, in this order.  The order is breadth first: `ran` is the queue and then, item by item, what each of them
spawned (`Runs.eq`).  A weight that exceeds, for each item that may come up, the weights of all that it spawns bounds the
run (`exists_runs`).
-/
namespace Worklist

variable {α : Type*} {spawn : α → List α} {q ran : List α} {weight : α → Nat}

/-- **The queue `q` is run down to nothing**, the items of `ran` one after the other. -/
inductive Runs (spawn : α → List α) : List α → List α → Prop
  | nil : Runs spawn [] []
  | cons {f : α} {q ran : List α} : Runs spawn (q ++ spawn f) ran → Runs spawn (f :: q) (f :: ran)

/-- The weight of all items of a queue. -/
def total (weight : α → Nat) (q : List α) : Nat := (q.map weight).sum

@[simp] theorem total_nil (weight : α → Nat) : total weight [] = 0 := rfl

@[simp] theorem total_cons (weight : α → Nat) (f : α) (q : List α) :
    total weight (f :: q) = weight f + total weight q := by
  unfold total; rw [List.map_cons, List.sum_cons]

@[simp] theorem total_append (weight : α → Nat) (q q' : List α) :
    total weight (q ++ q') = total weight q + total weight q' := by
  unfold total; rw [List.map_append, List.sum_append]

theorem length_le_total : ∀ {q : List α}, (∀ f ∈ q, 0 < weight f) → q.length ≤ total weight q
  | [], _ => Nat.le_refl 0
  | f :: q, h => by
    have hf := h f List.mem_cons_self
    have hq := length_le_total (fun g hg => h g (List.mem_cons_of_mem f hg))
    rw [List.length_cons, total_cons]
    omega

/-- The items that come up when `q` is run down. -/
inductive Comes (spawn : α → List α) (q : List α) : α → Prop
  | queued {f : α} : f ∈ q → Comes spawn q f
  | spawned {f g : α} : Comes spawn q f → g ∈ spawn f → Comes spawn q g

theorem Comes.run {f g : α} (h : Comes spawn (q ++ spawn f) g) : Comes spawn (f :: q) g := by
  induction h with
  | queued hm =>
    rcases List.mem_append.1 hm with hm | hm
    · exact .queued (List.mem_cons_of_mem f hm)
    · exact .spawned (.queued List.mem_cons_self) hm
  | spawned _ hm ih => exact .spawned ih hm

/-- **Each item that comes up outweighs all that it spawns.** -/
def Shrinks (weight : α → Nat) (spawn : α → List α) (q : List α) : Prop :=
  ∀ f, Comes spawn q f → total weight (spawn f) < weight f

namespace Shrinks

theorem run {f : α} (hw : Shrinks weight spawn (f :: q)) : Shrinks weight spawn (q ++ spawn f) :=
  fun g hg => hw g hg.run

theorem length_le (hw : Shrinks weight spawn q) : q.length ≤ total weight q :=
  length_le_total (fun f hf => Nat.zero_lt_of_lt (hw f (.queued hf)))

theorem run_lt {f : α} (hw : Shrinks weight spawn (f :: q)) :
    total weight (q ++ spawn f) < total weight (f :: q) := by
  have hf := hw f (.queued List.mem_cons_self)
  rw [total_append, total_cons]
  omega

end Shrinks

/-- **Breadth first**: the items queued, then what each item run has spawned, in the order in which they are run. -/
theorem Runs.eq (h : Runs spawn q ran) : ran = q ++ ran.flatMap spawn := by
  induction h with
  | nil => rfl
  | @cons f q ran _ ih =>
    rw [List.flatMap_cons, List.cons_append, ← List.append_assoc]
    exact congrArg (f :: ·) ih

/-- **Every queue is run down**, by induction on its weight. -/
theorem exists_runs (n : Nat) : ∀ q : List α, Shrinks weight spawn q → total weight q ≤ n →
    ∃ ran, Runs spawn q ran ∧ ran.length ≤ total weight q := by
  induction n with
  | zero =>
    intro q hw hq
    have hlen := hw.length_le
    cases q with
    | nil => exact ⟨[], .nil, Nat.le_refl 0⟩
    | cons f q => rw [List.length_cons] at hlen; omega
  | succ n ih =>
    intro q hw hq
    cases q with
    | nil => exact ⟨[], .nil, Nat.le_refl 0⟩
    | cons f q =>
      have hlt := hw.run_lt
      obtain ⟨ran, hran, hlen⟩ := ih (q ++ spawn f) hw.run (by omega)
      refine ⟨f :: ran, .cons hran, ?_⟩
      rw [List.length_cons]
      omega

end Worklist
