import ShmMultiproc.Fifo
/-!
# Access — which slot accesses throw

`data->at(i)` throws when `i` is out of range.  `OpenWrite` may change the size under indices that were stored before:
`consumeItem`, `tryCleanConsumedItems` and `Offer` wrap theirs first, a `done` closure and `OpenRead` do not, and only
`consumeItem` looks again whether there is a slot at all.  `Shared` is a ring with the closures made on it, and a run is
any sequence of calls; the callbacks of a `Take` run between its `consumeItem`s.
-/
namespace Shm.Access

open Cyclic (wrap wrap_lt)
open RingBuffer

variable {α : Type}

/-- `made` are the slots that the `done` closures made so far remember. -/
structure Shared (α : Type) where
  data : Option (RingBuffer α)
  made : List Nat
  deriving DecidableEq, Repr

/-- `consume` is one `consumeItem` up to the return of a callback that keeps its closure, `done k` the closure of the
`k`-th delivery; what a callback does comes after its `consume`. -/
inductive Act (α : Type) where
  | openWrite (maxsize : Nat) (resize : Bool)
  | offer (v : α)
  | consume
  | done (k : Nat)
  | openRead (fuel : Nat)
  deriving DecidableEq, Repr

/-- A callback that keeps its closure. -/
def keep : Callback α := fun _ _ r => .ok r

def step (s : Shared α) : Act α → Except Fault (Shared α)
  | .openWrite maxsize resize => .ok { s with data := some (openWrite s.data maxsize resize) }
  | .offer v =>
    match s.data with
    | none => .ok s
    | some r =>
      match RingBuffer.offer v r with
      | .error e => .error e
      | .ok o => .ok { s with data := some o.ring }
  | .consume =>
    match s.data with
    | none => .ok s
    | some r =>
      match consumeItem keep (-1) 0 r with
      | .error e => .error e
      | .ok c => .ok ⟨some c.ring, if c.given = [] then s.made else s.made ++ [wrap r.size r.consumeIdx]⟩
  | .done k =>
    match s.data, s.made[k]? with
    | some r, some i =>
      match RingBuffer.done i r with
      | .error e => .error e
      | .ok r' => .ok { s with data := some r' }
    | _, _ => .ok s
  | .openRead fuel =>
    match RingBuffer.openRead (fuel + 1) s.data with
    | .error e => .error e
    | .ok (_, data) => .ok { s with data := data }

/-- **What keeps a call in range**: a slot for `Offer`, the closure's slot still there, and `OpenRead` starting in range
unless it has nothing to walk. -/
def InRange (s : Shared α) : Act α → Prop
  | .offer _ => ∀ r ∈ s.data, 0 < r.size
  | .done k => ∀ r ∈ s.data, ∀ i ∈ s.made[k]?, i < r.size
  | .openRead _ => ∀ r ∈ s.data, r.cleanedIdx = r.consumeIdx ∨ r.cleanedIdx < r.size
  | _ => True

def Throws : Shared α → List (Act α) → Prop
  | _, [] => False
  | s, a :: as => step s a = .error .outOfRange ∨ ∃ s', step s a = .ok s' ∧ Throws s' as

def AllInRange : Shared α → List (Act α) → Prop
  | _, [] => True
  | s, a :: as => InRange s a ∧ ∀ s', step s a = .ok s' → AllInRange s' as

/-! ## One call -/

variable {r : RingBuffer α}

theorem statusAt_none {i : Nat} (h : r.statusAt i = none) : r.size ≤ i := by
  by_contra hlt
  obtain ⟨st, hst⟩ := exists_statusAt (Nat.not_le.1 hlt)
  rw [h] at hst
  cases hst

theorem statusAt_eq_none {i : Nat} (h : r.size ≤ i) : r.statusAt i = none := by
  cases hst : r.statusAt i with
  | none => rfl
  | some st => exact absurd (lt_of_statusAt hst) (Nat.not_lt.2 h)

theorem cleanPass_of_pos (h : 0 < r.size) : cleanPass r ≠ .error .outOfRange := by
  unfold cleanPass
  simp only
  split
  · rename_i hst
    exact absurd (statusAt_none hst) (Nat.not_le.2 (wrap_lt h _))
  · intro e; cases e
  · intro e; cases e

theorem cleanLoop_of_pos : ∀ (fuel : Nat) (r : RingBuffer α), 0 < r.size → cleanLoop fuel r ≠ .error .outOfRange ∧
    ∀ r' xs, cleanLoop fuel r = .ok (r', xs) → r'.size = r.size
  | 0, r, _ => ⟨(fun e => by cases e), fun r' xs e => by cases e⟩
  | fuel + 1, r, h => by
    unfold cleanLoop
    split
    · rename_i e he
      exact ⟨(fun h' => by cases h'; exact cleanPass_of_pos h he), fun r' xs h' => by cases h'⟩
    · rename_i r₁ hp
      refine ⟨(fun e => by cases e), fun r' xs e => ?_⟩
      cases e
      unfold cleanPass at hp
      simp only at hp
      split at hp <;> cases hp
      rfl
    · rename_i r₁ x hp
      have hsize := (cleanPass_again hp).2
      obtain ⟨hno, hok⟩ := cleanLoop_of_pos fuel r₁ (by omega)
      split
      · rename_i e he
        exact ⟨(fun h' => by cases h'; exact hno he), fun r' xs h' => by cases h'⟩
      · rename_i r₂ ys he
        refine ⟨(fun e => by cases e), fun r' xs e => ?_⟩
        cases e
        rw [hok _ _ he, hsize]

theorem place_of_pos (v : α) (h : 0 < r.size) : place v r ≠ .error .outOfRange := by
  unfold place
  simp only
  split
  · rename_i hst
    exact absurd (statusAt_none hst) (Nat.not_le.2 (wrap_lt h _))
  · intro e; cases e
  · intro e; cases e

theorem offer_throws_iff (v : α) (r : RingBuffer α) : RingBuffer.offer v r = .error .outOfRange ↔ r.size = 0 := by
  constructor
  · intro h
    by_contra hne
    have hpos : 0 < r.size := Nat.pos_of_ne_zero hne
    obtain ⟨hno, hok⟩ := cleanLoop_of_pos (r.size + 1) r hpos
    unfold RingBuffer.offer tryCleanConsumedItems at h
    split at h
    · rename_i e he
      cases h
      exact hno he
    · rename_i r' xs he
      split at h
      · rename_i e hp
        cases h
        exact place_of_pos v (by rw [hok _ _ he]; exact hpos) hp
      · cases h
  · intro h
    have hcl : cleanPass r = .error .outOfRange := by
      unfold cleanPass
      simp only
      rw [statusAt_eq_none (by omega)]
    unfold RingBuffer.offer tryCleanConsumedItems cleanLoop
    rw [hcl]

theorem done_throws_iff (i : Nat) (r : RingBuffer α) : RingBuffer.done i r = .error .outOfRange ↔ r.size ≤ i := by
  unfold RingBuffer.done
  constructor
  · intro h
    split at h
    · rename_i hst
      exact statusAt_none hst
    · cases h
    · cases h
  · intro h
    rw [statusAt_eq_none h]

theorem consumeItem_in_range (max : Int) (counter : Nat) (r : RingBuffer α) :
    consumeItem keep max counter r ≠ .error .outOfRange := by
  unfold consumeItem
  simp only
  split
  · intro e; cases e
  · rename_i hlt
    split
    · rename_i hst
      exact absurd (statusAt_none hst) hlt
    · intro e; cases e
    · intro e; cases e
    · intro e; cases e

theorem openReadLoop_of_lt : ∀ (fuel idx : Nat), idx < r.size → openReadLoop fuel idx r ≠ .error .outOfRange
  | 0, idx, _ => fun e => by cases e
  | fuel + 1, idx, h => by
    unfold openReadLoop
    split
    · intro e; cases e
    · split
      · rename_i hst
        exact absurd (statusAt_none hst) (Nat.not_le.2 h)
      · intro e; cases e
      · exact openReadLoop_of_lt fuel _ (wrap_lt (Nat.lt_of_le_of_lt (Nat.zero_le idx) h) _)

theorem openReadLoop_throws_iff (fuel : Nat) (r : RingBuffer α) :
    openReadLoop (fuel + 1) r.cleanedIdx r = .error .outOfRange ↔
      ¬ (r.cleanedIdx = r.consumeIdx ∨ r.cleanedIdx < r.size) := by
  constructor
  · rintro h (he | hlt)
    · unfold openReadLoop at h
      rw [if_pos he] at h
      cases h
    · exact openReadLoop_of_lt (fuel + 1) _ hlt h
  · intro h
    unfold openReadLoop
    rw [if_neg (fun e => h (.inl e)), statusAt_eq_none (Nat.not_lt.1 (fun hlt => h (.inr hlt)))]

/-- **One call throws exactly when it is not in range.** -/
theorem step_throws_iff (s : Shared α) (a : Act α) : step s a = .error .outOfRange ↔ ¬ InRange s a := by
  cases a with
  | openWrite maxsize resize => exact ⟨(fun h => by cases h), fun h => absurd trivial h⟩
  | offer v =>
    unfold step InRange
    cases s.data with
    | none => exact ⟨fun h => (by cases h), fun h => absurd (fun r hr => (by cases hr)) h⟩
    | some r =>
      simp only [Option.mem_some_iff, forall_eq']
      rw [Nat.not_lt, Nat.le_zero, ← offer_throws_iff v r]
      split
      · rename_i e he
        rw [he]
        exact ⟨(fun h => by cases h; rfl), fun h => by cases h; rfl⟩
      · rename_i o ho
        rw [ho]
        exact ⟨(fun h => by cases h), fun h => by cases h⟩
  | consume =>
    refine ⟨fun h => ?_, fun h => absurd trivial h⟩
    unfold step at h
    simp only at h
    split at h
    · cases h
    · split at h
      · rename_i e he
        cases h
        exact absurd he (consumeItem_in_range _ _ _)
      · cases h
  | done k =>
    unfold step InRange
    simp only
    cases s.data with
    | none => exact ⟨fun h => (by cases h), fun h => absurd (fun r hr => (by cases hr)) h⟩
    | some r =>
      cases s.made[k]? with
      | none => exact ⟨fun h => (by cases h), fun h => absurd (fun r _ i hi => (by cases hi)) h⟩
      | some i =>
        simp only [Option.mem_some_iff, forall_eq']
        rw [Nat.not_lt, ← done_throws_iff i r]
        split
        · rename_i e he
          rw [he]
          exact ⟨(fun h => by cases h; rfl), fun h => by cases h; rfl⟩
        · rename_i r' hr'
          rw [hr']
          exact ⟨(fun h => by cases h), fun h => by cases h⟩
  | openRead fuel =>
    unfold step InRange RingBuffer.openRead
    cases s.data with
    | none => exact ⟨fun h => (by cases h), fun h => absurd (fun r hr => (by cases hr)) h⟩
    | some r =>
      simp only [Option.mem_some_iff, forall_eq']
      rw [← openReadLoop_throws_iff fuel r]
      cases openReadLoop (fuel + 1) r.cleanedIdx r with
      | error e => exact ⟨(fun h => by cases h; rfl), fun h => by cases h; rfl⟩
      | ok r' => exact ⟨(fun h => by cases h), fun h => by cases h⟩

/-! ## Whole runs -/

/-- **No call of a run throws exactly when each is in range as it is made.** -/
theorem no_throw_iff : ∀ (as : List (Act α)) (s : Shared α), ¬ Throws s as ↔ AllInRange s as
  | [], s => ⟨fun _ => trivial, fun _ h => h⟩
  | a :: as, s => by
    have hone := step_throws_iff s a
    constructor
    · intro h
      refine ⟨not_not.1 (fun hn => h (.inl (hone.2 hn))), fun s' hs => ?_⟩
      exact (no_throw_iff as s').1 (fun ht => h (.inr ⟨s', hs, ht⟩))
    · rintro ⟨hin, hrest⟩ (ht | ⟨s', hs, ht⟩)
      · exact hone.1 ht hin
      · exact (no_throw_iff as s').2 (hrest s' hs) ht

/-- `OpenWrite(0)`, then `Offer` throws where `consumeItem` answers that there is nothing. -/
theorem offer_without_slots_throws : ∃ s : Shared Nat, step ⟨none, []⟩ (.openWrite 0 true) = .ok s ∧
    step s (.offer 7) = .error .outOfRange ∧ step s .consume = .ok s :=
  ⟨_, rfl, rfl, rfl⟩

/-- An item taken, the ring cut to one slot: its closure throws, and so does the next reader's `OpenRead`. -/
theorem cut_ring_throws : Throws (⟨none, []⟩ : Shared Nat)
    [.openWrite 2 true, .offer 7, .offer 8, .consume, .consume, .openWrite 1 true, .done 1] :=
  .inr ⟨_, rfl, .inr ⟨_, rfl, .inr ⟨_, rfl, .inr ⟨_, rfl, .inr ⟨_, rfl, .inr ⟨_, rfl, .inl rfl⟩⟩⟩⟩⟩⟩

end Shm.Access
