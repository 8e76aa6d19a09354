import Mathlib.Data.List.Basic
import ShmMultiproc.Lib.Cyclic
/-!
# Ring — the shared ring buffer and the writes on it

`ShmFIFORefItem` and `ShmFIFORingBuffer` of `shm_fifo.hpp`.  An `α` stands for the `TypeRefItem` a slot's `val` points
to, with its type and payload.  `setVal` and `setStatus` are the only writes the code makes on a slot; `statusAt` and
`valAt` are the reads.
-/
namespace Shm

/-- `SHMITEM_STATUS_INIT`, `SHMITEM_STATUS_CONSUMED` and `SHMITEM_STATUS_CLEANED`. -/
inductive Status where
  | init | consumed | cleaned
  deriving DecidableEq, Repr

/-- `ShmFIFORefItem`; `val = none` is the NULL pointer. -/
structure RefItem (α : Type) where
  val : Option α
  status : Status
  deriving DecidableEq, Repr

/-- The constructor `ShmFIFORefItem()`. -/
def RefItem.new (α : Type) : RefItem α := ⟨none, .cleaned⟩

/-- `ShmFIFORingBuffer`: a vector of slots with three indices. -/
structure RingBuffer (α : Type) where
  slots : List (RefItem α)
  consumeIdx : Nat
  produceIdx : Nat
  cleanedIdx : Nat
  deriving DecidableEq, Repr

namespace RingBuffer

variable {α : Type}

def size (r : RingBuffer α) : Nat := r.slots.length

/-- A ring buffer just constructed and resized to `n` slots. -/
def fresh (α : Type) (n : Nat) : RingBuffer α := ⟨List.replicate n (RefItem.new α), 0, 0, 0⟩

def setVal (r : RingBuffer α) (i : Nat) (v : Option α) : RingBuffer α :=
  { r with slots := r.slots.modify i (fun it => { it with val := v }) }

def setStatus (r : RingBuffer α) (i : Nat) (st : Status) : RingBuffer α :=
  { r with slots := r.slots.modify i (fun it => { it with status := st }) }

/-- The status of `data->at(i)`; `none` is out of range. -/
def statusAt (r : RingBuffer α) (i : Nat) : Option Status := r.slots[i]?.map RefItem.status

/-- The `val` of `data->at(i)`; `none` is out of range, `some none` a NULL `val`. -/
def valAt (r : RingBuffer α) (i : Nat) : Option (Option α) := r.slots[i]?.map RefItem.val

/-- `data->at(i).Get()` and `GetType()`: `none` is NULL. -/
def get (r : RingBuffer α) (i : Nat) : Option α := (r.valAt i).join

@[simp] theorem size_fresh (n : Nat) : (fresh α n).size = n := by simp [size, fresh]
@[simp] theorem size_setVal (r : RingBuffer α) (i : Nat) (v : Option α) : (r.setVal i v).size = r.size := by
  simp [size, setVal]
@[simp] theorem size_setStatus (r : RingBuffer α) (i : Nat) (st : Status) : (r.setStatus i st).size = r.size := by
  simp [size, setStatus]

/-! ## What the reads see after a write -/

@[simp] theorem statusAt_setVal (r : RingBuffer α) (i j : Nat) (v : Option α) :
    (r.setVal i v).statusAt j = r.statusAt j := by
  simp only [statusAt, setVal, List.getElem?_modify]
  cases r.slots[j]? <;> simp
  split <;> rfl

@[simp] theorem valAt_setStatus (r : RingBuffer α) (i j : Nat) (st : Status) :
    (r.setStatus i st).valAt j = r.valAt j := by
  simp only [valAt, setStatus, List.getElem?_modify]
  cases r.slots[j]? <;> simp
  split <;> rfl

theorem statusAt_setStatus (r : RingBuffer α) (i j : Nat) (st : Status) :
    (r.setStatus i st).statusAt j = if i = j then (r.statusAt j).map (fun _ => st) else r.statusAt j := by
  simp only [statusAt, setStatus, List.getElem?_modify]
  by_cases h : i = j <;> cases r.slots[j]? <;> simp [h]

theorem valAt_setVal (r : RingBuffer α) (i j : Nat) (v : Option α) :
    (r.setVal i v).valAt j = if i = j then (r.valAt j).map (fun _ => v) else r.valAt j := by
  simp only [valAt, setVal, List.getElem?_modify]
  by_cases h : i = j <;> cases r.slots[j]? <;> simp [h]

theorem statusAt_setStatus_ne (r : RingBuffer α) {i j : Nat} (st : Status) (h : i ≠ j) :
    (r.setStatus i st).statusAt j = r.statusAt j := by rw [statusAt_setStatus, if_neg h]

theorem statusAt_setStatus_self {r : RingBuffer α} {i : Nat} {st₀ : Status} (st : Status)
    (h : r.statusAt i = some st₀) : (r.setStatus i st).statusAt i = some st := by
  rw [statusAt_setStatus, if_pos rfl, h]; rfl

theorem statusAt_isSome {r : RingBuffer α} {i : Nat} : (r.statusAt i).isSome = true ↔ i < r.size := by
  simp [statusAt, size]

theorem exists_statusAt {r : RingBuffer α} {i : Nat} (h : i < r.size) : ∃ st, r.statusAt i = some st :=
  Option.isSome_iff_exists.1 (statusAt_isSome.2 h)

theorem exists_valAt {r : RingBuffer α} {i : Nat} (h : i < r.size) : ∃ v, r.valAt i = some v :=
  ⟨_, congrArg (Option.map RefItem.val) (List.getElem?_eq_getElem h)⟩

theorem lt_of_statusAt {r : RingBuffer α} {i : Nat} {st : Status} (h : r.statusAt i = some st) : i < r.size :=
  statusAt_isSome.1 (by rw [h]; rfl)

@[simp] theorem statusAt_fresh (n i : Nat) : (fresh α n).statusAt i = if i < n then some .cleaned else none := by
  unfold statusAt fresh RefItem.new
  rw [List.getElem?_replicate]
  split <;> rfl

@[simp] theorem valAt_fresh (n i : Nat) : (fresh α n).valAt i = if i < n then some none else none := by
  unfold valAt fresh RefItem.new
  rw [List.getElem?_replicate]
  split <;> rfl

/-! ## Index updates leave the slots alone -/

@[simp] theorem size_mk (r : RingBuffer α) (a b c : Nat) : (RingBuffer.mk r.slots a b c).size = r.size := rfl
@[simp] theorem statusAt_mk (r : RingBuffer α) (a b c i : Nat) :
    (RingBuffer.mk r.slots a b c).statusAt i = r.statusAt i := rfl
@[simp] theorem valAt_mk (r : RingBuffer α) (a b c i : Nat) : (RingBuffer.mk r.slots a b c).valAt i = r.valAt i := rfl

theorem statusAt_congr {r r' : RingBuffer α} (h : r'.slots = r.slots) (i : Nat) : r'.statusAt i = r.statusAt i := by
  unfold statusAt; rw [h]

theorem valAt_congr {r r' : RingBuffer α} (h : r'.slots = r.slots) (i : Nat) : r'.valAt i = r.valAt i := by
  unfold valAt; rw [h]

/-! ## Counting slots -/

theorem countP_modify {β : Type} (p : β → Bool) (f : β → β) : ∀ (l : List β) (i : Nat) (x : β), l[i]? = some x →
    (l.modify i f).countP p + (if p x then 1 else 0) = l.countP p + (if p (f x) then 1 else 0)
  | [], i, x, h => by simp at h
  | y :: l, 0, x, h => by
    simp only [List.getElem?_cons_zero, Option.some.injEq] at h
    subst h
    simp only [List.modify_zero_cons, List.countP_cons]
    omega
  | y :: l, i + 1, x, h => by
    simp only [List.getElem?_cons_succ] at h
    have := countP_modify p f l i x h
    simp only [List.modify_succ_cons, List.countP_cons]
    omega

/-- The number of slots of status `st`. -/
def countStatus (r : RingBuffer α) (st : Status) : Nat := r.slots.countP (fun it => it.status = st)

theorem countStatus_le (r : RingBuffer α) (st : Status) : r.countStatus st ≤ r.size := List.countP_le_length

@[simp] theorem countStatus_mk (r : RingBuffer α) (a b c : Nat) (st : Status) :
    (RingBuffer.mk r.slots a b c).countStatus st = r.countStatus st := rfl

@[simp] theorem countStatus_setVal (r : RingBuffer α) (i : Nat) (v : Option α) (st : Status) :
    (r.setVal i v).countStatus st = r.countStatus st := by
  unfold countStatus setVal
  cases h : r.slots[i]? with
  | none => rw [List.modify_eq_self (List.getElem?_eq_none_iff.1 h)]
  | some it =>
    have := countP_modify (fun it : RefItem α => decide (it.status = st)) (fun it => { it with val := v }) _ _ _ h
    simp only [decide_eq_true_eq] at this ⊢
    omega

theorem countStatus_setStatus {r : RingBuffer α} {i : Nat} {st₀ : Status} (h : r.statusAt i = some st₀)
    (st st' : Status) : (r.setStatus i st).countStatus st' + (if st₀ = st' then 1 else 0) =
      r.countStatus st' + (if st = st' then 1 else 0) := by
  obtain ⟨it, hit, rfl⟩ := Option.map_eq_some_iff.1 h
  have := countP_modify (fun it : RefItem α => decide (it.status = st')) (fun it => { it with status := st }) _ _ _ hit
  simpa only [decide_eq_true_eq, countStatus, setStatus] using this

theorem countStatus_pos {r : RingBuffer α} {st : Status} :
    0 < r.countStatus st ↔ ∃ i, r.statusAt i = some st := by
  simp only [countStatus, List.countP_pos_iff, decide_eq_true_eq, statusAt, Option.map_eq_some_iff]
  constructor
  · rintro ⟨it, hm, hs⟩
    obtain ⟨i, hi⟩ := List.getElem?_of_mem hm
    exact ⟨i, it, hi, hs⟩
  · rintro ⟨i, it, hi, hs⟩
    exact ⟨it, List.mem_of_getElem? hi, hs⟩

end RingBuffer
end Shm
