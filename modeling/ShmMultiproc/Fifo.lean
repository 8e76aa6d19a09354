import ShmMultiproc.Ring
/-!
# Fifo — the functions of `ShmFIFO` on the ring

Each definition is one function of `shm_fifo.cpp`, on the ring its `data` points to.  `data->at(i)` throws when `i` is
out of range (`Fault.outOfRange`).  `Take` and `OpenRead` loop without a bound, so they take fuel and answer
`Fault.running` when it is spent.
-/
namespace Shm

open Cyclic (wrap)

inductive Fault where
  | outOfRange
  | running
  deriving DecidableEq, Repr

/-! ## Notification -/

/-- The writer's private fields of `ShmFIFO` and the kernel counter behind `eventfd_desc`. -/
structure Notifier where
  eventfd : Nat
  lastNotifyWriteMs : Int
  minNotifyIntervalMs : Int
  writeEventCounter : Int
  deriving DecidableEq, Repr

namespace Notifier

/-- As the constructor `ShmFIFO::ShmFIFO` leaves them. -/
def new : Notifier := ⟨0, 0, 10, 0⟩

/-- `NotifyReader(now, force)`; `t` is what `mstime()` reads if it is asked. -/
def notifyReader (n : Notifier) (t now : Int) (force : Bool) : Notifier :=
  if 0 < n.writeEventCounter ∨ force = true then
    { n with eventfd := n.eventfd + 1, writeEventCounter := 0, lastNotifyWriteMs := if now = 0 then t else now }
  else n

/-- `TryNotifyReader(now)`; `t` and `t'` are what `mstime()` reads here and inside `NotifyReader`. -/
def tryNotifyReader (n : Notifier) (t t' now : Int) : Notifier :=
  let now := if now = 0 then t else now
  if 128 ≤ n.writeEventCounter ∨ n.minNotifyIntervalMs = 0 ∨ n.minNotifyIntervalMs ≤ now - n.lastNotifyWriteMs then
    n.notifyReader t' now (decide (n.minNotifyIntervalMs ≤ now - n.lastNotifyWriteMs))
  else n

/-- What `Offer` does to them once it has set a slot to INIT. -/
def accepted (n : Notifier) (t t' : Int) : Notifier :=
  ({ n with writeEventCounter := n.writeEventCounter + 1 } : Notifier).tryNotifyReader t t' 0

/-- What `Offer` does to them before it answers `ERR_SHMFIFO_OVERLOAD`. -/
def refused (n : Notifier) (t t' : Int) : Notifier := n.tryNotifyReader t t' 0

end Notifier

variable {α : Type}

namespace RingBuffer

/-! ## The reader -/

/-- The `done` closure that `consumeItem` made for slot `i`. -/
def done (i : Nat) (r : RingBuffer α) : Except Fault (RingBuffer α) :=
  match r.statusAt i with
  | none => .error .outOfRange
  | some .init => .ok (r.setStatus i .consumed)
  | some _ => .ok r

/-- A `ConsumeDoneFunction`: what `Get` answered, the `done` closure, and the ring it runs on. -/
abbrev Callback (α : Type) :=
  Option α → (RingBuffer α → Except Fault (RingBuffer α)) → RingBuffer α → Except Fault (RingBuffer α)

/-- A callback that calls `done` before it returns. -/
def callDone : Callback α := fun _ done r => done r

/-- `kConsumeFail`, `kConsumeContinue` and `kConsumeExit`. -/
inductive Code where
  | fail | cont | exit
  deriving DecidableEq, Repr

/-- What one `consumeItem` answers, the ring and counter it leaves, and what it passed to the callback. -/
structure Consumed (α : Type) where
  code : Code
  ring : RingBuffer α
  counter : Nat
  given : List (Option α)
  deriving DecidableEq, Repr

def consumeItem (cb : Callback α) (max : Int) (counter : Nat) (r : RingBuffer α) : Except Fault (Consumed α) :=
  let i := wrap r.size r.consumeIdx
  if r.size ≤ i then .ok ⟨.fail, { r with consumeIdx := i }, counter, []⟩
  else
    match r.statusAt i with
    | none => .error .outOfRange
    | some .consumed => .ok ⟨.cont, { r with consumeIdx := i + 1 }, counter, []⟩
    | some .cleaned => .ok ⟨.fail, { r with consumeIdx := i }, counter, []⟩
    | some .init =>
      match cb (r.get i) (done i) { r with consumeIdx := i + 1 } with
      | .error e => .error e
      | .ok r' => .ok ⟨if 0 ≤ max ∧ max ≤ counter + 1 then .exit else .cont, r', counter + 1, [r.get i]⟩

/-- What a `Take` that returned answers, the ring it leaves, and what it passed to the callback. -/
structure Taken (α : Type) where
  count : Nat
  ring : RingBuffer α
  items : List (Option α)
  deriving DecidableEq, Repr

def takeLoop (cb : Callback α) (max : Int) : Nat → Nat → RingBuffer α → Except Fault (Taken α)
  | 0, _, _ => .error .running
  | fuel + 1, counter, r =>
    match consumeItem cb max counter r with
    | .error e => .error e
    | .ok c =>
      match c.code with
      | .fail => .ok ⟨c.counter, c.ring, c.given⟩
      | .exit => .ok ⟨c.counter, c.ring, c.given⟩
      | .cont =>
        match takeLoop cb max fuel c.counter c.ring with
        | .error e => .error e
        | .ok t => .ok ⟨t.count, t.ring, c.given ++ t.items⟩

/-- `Take(cb, max, 0)` once `data` is set, within `fuel` iterations. -/
def take (cb : Callback α) (max : Int) (fuel : Nat) (r : RingBuffer α) : Except Fault (Taken α) :=
  takeLoop cb max fuel 0 r

def openReadLoop : Nat → Nat → RingBuffer α → Except Fault (RingBuffer α)
  | 0, _, _ => .error .running
  | fuel + 1, idx, r =>
    if idx = r.consumeIdx then .ok r
    else
      match r.statusAt idx with
      | none => .error .outOfRange
      | some .init => .ok { r with consumeIdx := idx }
      | some _ => openReadLoop fuel (wrap r.size (idx + 1)) r

/-- `OpenRead()` on the object that `GetNamingObject(name, false)` finds, within `fuel` iterations. -/
def openRead (fuel : Nat) : Option (RingBuffer α) → Except Fault (Int × Option (RingBuffer α))
  | none => .ok (-1, none)
  | some r =>
    match openReadLoop fuel r.cleanedIdx r with
    | .error e => .error e
    | .ok r' => .ok (0, some r')

/-! ## The writer -/

/-- `vector::resize`: cut off, or filled up with new items. -/
def resize (r : RingBuffer α) (n : Nat) : RingBuffer α :=
  { r with slots := r.slots.take n ++ List.replicate (n - r.size) (RefItem.new α) }

/-- `OpenWrite(maxsize, resize)` on the object that `GetNamingObject(name, true)` finds or creates. -/
def openWrite (data : Option (RingBuffer α)) (maxsize : Nat) (resize : Bool) : RingBuffer α :=
  let r := data.getD (fresh α 0)
  if r.size = 0 ∨ resize = true then r.resize maxsize else r

theorem openWrite_new (n : Nat) : openWrite none n true = fresh α n := by
  unfold openWrite
  rw [if_pos (.inr rfl)]
  show (⟨[].take n ++ List.replicate n (RefItem.new α), 0, 0, 0⟩ : RingBuffer α) = fresh α n
  rw [List.take_nil, List.nil_append]
  rfl

/-- How one pass through the loop of `tryCleanConsumedItems` ends; `again` carries the `val` it dropped. -/
inductive CleanPass (α : Type) where
  | stop (r : RingBuffer α)
  | again (r : RingBuffer α) (dropped : Option α)
  deriving DecidableEq, Repr

def cleanPass (r : RingBuffer α) : Except Fault (CleanPass α) :=
  let i := wrap r.size r.cleanedIdx
  match r.statusAt i with
  | none => .error .outOfRange
  | some .consumed =>
    .ok (.again { (r.setVal i none).setStatus i .cleaned with cleanedIdx := i + 1 } (r.get i))
  | some _ => .ok (.stop { r with cleanedIdx := i })

def cleanLoop : Nat → RingBuffer α → Except Fault (RingBuffer α × List (Option α))
  | 0, _ => .error .running
  | fuel + 1, r =>
    match cleanPass r with
    | .error e => .error e
    | .ok (.stop r') => .ok (r', [])
    | .ok (.again r' x) =>
      match cleanLoop fuel r' with
      | .error e => .error e
      | .ok (r'', xs) => .ok (r'', x :: xs)

/-- The ring it leaves and the `val`s whose reference it dropped, in order.  Every pass but the last turns a CONSUMED
slot into a CLEANED one, so the fuel is never spent (`cleanLoop_ne_running`). -/
def tryCleanConsumedItems (r : RingBuffer α) : Except Fault (RingBuffer α × List (Option α)) :=
  cleanLoop (r.size + 1) r

/-- `ERR_SHMFIFO_OVERLOAD`. -/
def errOverload : Int := -1000

/-- The rest of `Offer` after `tryCleanConsumedItems`. -/
def place (v : α) (r : RingBuffer α) : Except Fault (RingBuffer α × Int) :=
  let i := wrap r.size r.produceIdx
  match r.statusAt i with
  | none => .error .outOfRange
  | some .cleaned => .ok ({ (r.setVal i (some v)).setStatus i .init with produceIdx := i + 1 }, 0)
  | some _ => .ok ({ r with produceIdx := i }, errOverload)

/-- What `Offer` answers, the ring it leaves, and the `val`s whose reference it dropped. -/
structure Offered (α : Type) where
  code : Int
  ring : RingBuffer α
  dropped : List (Option α)
  deriving DecidableEq, Repr

def offer (v : α) (r : RingBuffer α) : Except Fault (Offered α) :=
  match tryCleanConsumedItems r with
  | .error e => .error e
  | .ok (r', xs) =>
    match place v r' with
    | .error e => .error e
    | .ok (r'', code) => .ok ⟨code, r'', xs⟩

theorem offer_of_place {r r' r'' : RingBuffer α} {v : α} {xs : List (Option α)} {code : Int}
    (hclean : tryCleanConsumedItems r = .ok (r', xs)) (hplace : place v r' = .ok (r'', code)) :
    offer v r = .ok ⟨code, r'', xs⟩ := by
  unfold offer
  rw [hclean]
  simp only [hplace]

/-! ## One iteration, by the status of the slot it looks at -/

theorem consumeItem_consumed {r : RingBuffer α} (cb : Callback α) (max : Int) (counter : Nat)
    (h : r.statusAt (wrap r.size r.consumeIdx) = some .consumed) : consumeItem cb max counter r =
      .ok ⟨.cont, { r with consumeIdx := wrap r.size r.consumeIdx + 1 }, counter, []⟩ := by
  have hlt := lt_of_statusAt h
  unfold consumeItem
  simp only [if_neg (Nat.not_le.2 hlt), h]

theorem consumeItem_cleaned {r : RingBuffer α} (cb : Callback α) (max : Int) (counter : Nat)
    (h : r.statusAt (wrap r.size r.consumeIdx) = some .cleaned) : consumeItem cb max counter r =
      .ok ⟨.fail, { r with consumeIdx := wrap r.size r.consumeIdx }, counter, []⟩ := by
  have hlt := lt_of_statusAt h
  unfold consumeItem
  simp only [if_neg (Nat.not_le.2 hlt), h]

theorem consumeItem_init {r r' : RingBuffer α} {cb : Callback α} (max : Int) (counter : Nat)
    (h : r.statusAt (wrap r.size r.consumeIdx) = some .init)
    (hcb : cb (r.get (wrap r.size r.consumeIdx)) (done (wrap r.size r.consumeIdx))
      { r with consumeIdx := wrap r.size r.consumeIdx + 1 } = .ok r') : consumeItem cb max counter r =
      .ok ⟨if 0 ≤ max ∧ max ≤ counter + 1 then .exit else .cont, r', counter + 1,
        [r.get (wrap r.size r.consumeIdx)]⟩ := by
  have hlt := lt_of_statusAt h
  unfold consumeItem
  simp only [if_neg (Nat.not_le.2 hlt), h, hcb]

theorem done_init {r : RingBuffer α} {i : Nat} (h : r.statusAt i = some .init) :
    done i r = .ok (r.setStatus i .consumed) := by
  unfold done; rw [h]

theorem consumeItem_callDone {r : RingBuffer α} (max : Int) (counter : Nat)
    (h : r.statusAt (wrap r.size r.consumeIdx) = some .init) : consumeItem callDone max counter r =
      .ok ⟨if 0 ≤ max ∧ max ≤ counter + 1 then .exit else .cont,
        { r.setStatus (wrap r.size r.consumeIdx) .consumed with consumeIdx := wrap r.size r.consumeIdx + 1 },
        counter + 1, [r.get (wrap r.size r.consumeIdx)]⟩ :=
  consumeItem_init max counter h (done_init (r := { r with consumeIdx := wrap r.size r.consumeIdx + 1 }) h)

theorem consumeItem_empty {r : RingBuffer α} (cb : Callback α) (max : Int) (counter : Nat) (h : r.size = 0) :
    consumeItem cb max counter r = .ok ⟨.fail, { r with consumeIdx := 0 }, counter, []⟩ := by
  have hw : wrap r.size r.consumeIdx = 0 := by unfold wrap; rw [if_pos (by omega)]
  unfold consumeItem
  simp only [hw]
  rw [if_pos (by omega)]

/-! ## The clean loop ends -/

theorem cleanPass_again {r r' : RingBuffer α} {x : Option α} (h : cleanPass r = .ok (.again r' x)) :
    r'.countStatus .consumed < r.countStatus .consumed ∧ r'.size = r.size := by
  unfold cleanPass at h
  simp only at h
  split at h
  · cases h
  · rename_i hst
    simp only [Except.ok.injEq, CleanPass.again.injEq] at h
    obtain ⟨rfl, -⟩ := h
    have hst' : (r.setVal (wrap r.size r.cleanedIdx) none).statusAt (wrap r.size r.cleanedIdx) = some .consumed := by
      simpa using hst
    have := countStatus_setStatus hst' .cleaned .consumed
    refine ⟨?_, by simp⟩
    simp at this ⊢
    omega
  · cases h

theorem cleanLoop_ne_running : ∀ (fuel : Nat) (r : RingBuffer α), r.countStatus .consumed < fuel →
    cleanLoop fuel r ≠ .error .running
  | 0, r, h => absurd h (Nat.not_lt_zero _)
  | fuel + 1, r, h => by
    unfold cleanLoop
    split
    · rename_i e he
      intro hc
      cases hc
      unfold cleanPass at he
      simp only at he
      split at he <;> cases he
    · intro hc; cases hc
    · rename_i r' x hp
      have := cleanLoop_ne_running fuel r' (by have := (cleanPass_again hp).1; omega)
      split
      · rename_i e he
        intro hc; cases hc
        exact this he
      · intro hc; cases hc

theorem tryCleanConsumedItems_ne_running (r : RingBuffer α) : tryCleanConsumedItems r ≠ .error .running :=
  cleanLoop_ne_running _ r (Nat.lt_succ_of_le (countStatus_le r .consumed))

end RingBuffer
end Shm
