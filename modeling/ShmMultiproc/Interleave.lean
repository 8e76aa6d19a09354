import ShmMultiproc.Lib.Machine
import ShmMultiproc.Window
/-!
# Interleave — one producer and one reader, a memory access at a time

The producer runs `Offer`, the reader `consumeItem`; each step is one read or write of shared memory (sequentially
consistent), so a run is any interleaving.  The `done` closures the reader handed out are called by steps of their own
(`doneTest`, `doneStore`), at any time and any number of times, but one after the other: no test falls between the test
and the store of another.  What a callback does with its closure is a condition on runs (`CallsOnce`, `CallsDone`).

`Hist` is a record kept beside the program and read by no step: what was accepted, passed to the callback, marked and
dropped so far.  Items are numbered in the order in which `Offer` set their slots to INIT, and `owner i` is the number
of the item that slot `i` was last set to INIT for.
-/
namespace Shm

open Cyclic (wrap)
open RingBuffer (Code errOverload)

variable {α : Type}

/-- Where the producer stands in `Offer(v)`: `clean` to `advance` are the loop of `tryCleanConsumedItems`. -/
inductive ProdPc (α : Type) where
  | idle
  | clean (v : α)
  | cleanTest (v : α)
  | drop (v : α)
  | null (v : α)
  | mark (v : α)
  | advance (v : α)
  | wrap (v : α)
  | test (v : α)
  | refuse (v : α)
  | store (v : α)
  | publish (v : α)
  | notify (v : α)
  | bump (v : α)
  deriving DecidableEq, Repr

/-- Where the reader stands: between two iterations (the last one answered `last`), in `consumeItem`, or in the
callback of delivery `k`.  `call i` has moved `consume_idx` on and not yet called back. -/
inductive ConsPc where
  | between (last : Code)
  | test
  | skip
  | test2
  | take
  | call (i : Nat)
  | callback (k : Nat)
  deriving DecidableEq, Repr

/-- A reference to an item as the code saw it: its number, and what `val` was read. -/
structure Ref (α : Type) where
  seq : Nat
  item : Option α
  deriving DecidableEq, Repr

/-- One call of the callback; the `done` closure of delivery `k` remembers `slot`. -/
structure Delivery (α : Type) where
  slot : Nat
  ref : Ref α
  deriving DecidableEq, Repr

structure Hist (α : Type) where
  accepted : List α
  owner : Nat → Nat
  dropped : List (Ref α)
  cleaned : Nat
  delivered : List (Delivery α)
  called : List Nat
  marked : List Nat
  finished : List (α × Int)

/-- `storing = some i`: a `done` closure has read INIT in slot `i` and is about to write CONSUMED. -/
structure St (α : Type) where
  ring : RingBuffer α
  notifier : Notifier
  prod : ProdPc α
  cons : ConsPc
  storing : Option Nat
  hist : Hist α

/-- `OpenWrite(n)` on a new object; nothing has run. -/
def St.start (α : Type) (n : Nat) : St α :=
  ⟨RingBuffer.openWrite none n true, .new, .idle, .between .fail, none, ⟨[], fun _ => 0, [], 0, [], [], [], []⟩⟩

/-- `t` and `t'` are what `mstime()` would read in a notifying step. -/
inductive Act (α : Type) where
  | offer (v : α)
  | prod (t t' : Int)
  | cons
  | doneTest (k : Nat)
  | doneStore
  deriving DecidableEq, Repr

/-- The next access of `Offer`. -/
def prodStep (t t' : Int) (s : St α) : Option (St α) :=
  match s.prod with
  | .idle => none
  | .clean v =>
    some { s with ring := { s.ring with cleanedIdx := wrap s.ring.size s.ring.cleanedIdx }, prod := .cleanTest v }
  | .cleanTest v =>
    match s.ring.statusAt s.ring.cleanedIdx with
    | none => none
    | some .consumed => some { s with prod := .drop v }
    | some _ => some { s with prod := .wrap v }
  | .drop v =>
    some { s with
      prod := .null v
      hist := { s.hist with
        dropped := s.hist.dropped ++ [⟨s.hist.owner s.ring.cleanedIdx, s.ring.get s.ring.cleanedIdx⟩] } }
  | .null v => some { s with ring := s.ring.setVal s.ring.cleanedIdx none, prod := .mark v }
  | .mark v =>
    some { s with
      ring := s.ring.setStatus s.ring.cleanedIdx .cleaned
      prod := .advance v
      hist := { s.hist with cleaned := s.hist.cleaned + 1 } }
  | .advance v => some { s with ring := { s.ring with cleanedIdx := s.ring.cleanedIdx + 1 }, prod := .clean v }
  | .wrap v =>
    some { s with ring := { s.ring with produceIdx := wrap s.ring.size s.ring.produceIdx }, prod := .test v }
  | .test v =>
    match s.ring.statusAt s.ring.produceIdx with
    | none => none
    | some .cleaned => some { s with prod := .store v }
    | some _ => some { s with prod := .refuse v }
  | .refuse v =>
    some { s with
      notifier := s.notifier.refused t t'
      prod := .idle
      hist := { s.hist with finished := s.hist.finished ++ [(v, errOverload)] } }
  | .store v => some { s with ring := s.ring.setVal s.ring.produceIdx (some v), prod := .publish v }
  | .publish v =>
    some { s with
      ring := s.ring.setStatus s.ring.produceIdx .init
      prod := .notify v
      hist := { s.hist with
        accepted := s.hist.accepted ++ [v]
        owner := Function.update s.hist.owner s.ring.produceIdx s.hist.accepted.length } }
  | .notify v => some { s with notifier := s.notifier.accepted t t', prod := .bump v }
  | .bump v =>
    some { s with
      ring := { s.ring with produceIdx := s.ring.produceIdx + 1 }
      prod := .idle
      hist := { s.hist with finished := s.hist.finished ++ [(v, 0)] } }

/-- The next access of the reader; in the callback, the callback returns. -/
def consStep (s : St α) : Option (St α) :=
  match s.cons with
  | .between _ =>
    some { s with
      ring := { s.ring with consumeIdx := wrap s.ring.size s.ring.consumeIdx }
      cons := if s.ring.size ≤ wrap s.ring.size s.ring.consumeIdx then .between .fail else .test }
  | .test =>
    match s.ring.statusAt s.ring.consumeIdx with
    | none => none
    | some .consumed => some { s with cons := .skip }
    | some _ => some { s with cons := .test2 }
  | .skip =>
    some { s with ring := { s.ring with consumeIdx := s.ring.consumeIdx + 1 }, cons := .between .cont }
  | .test2 =>
    match s.ring.statusAt s.ring.consumeIdx with
    | none => none
    | some .init => some { s with cons := .take }
    | some _ => some { s with cons := .between .fail }
  | .take =>
    some { s with
      ring := { s.ring with consumeIdx := s.ring.consumeIdx + 1 }
      cons := .call s.ring.consumeIdx }
  | .call i =>
    some { s with
      cons := .callback s.hist.delivered.length
      hist := { s.hist with delivered := s.hist.delivered ++ [⟨i, s.hist.owner i, s.ring.get i⟩] } }
  | .callback _ => some { s with cons := .between .cont }

/-- The test of the `done` closure of delivery `k`; no two closures run at once. -/
def doneTestStep (k : Nat) (s : St α) : Option (St α) :=
  match s.storing, s.hist.delivered[k]? with
  | none, some d =>
    match s.ring.statusAt d.slot with
    | none => none
    | some .init => some { s with storing := some d.slot, hist := { s.hist with called := s.hist.called ++ [k] } }
    | some _ => some { s with hist := { s.hist with called := s.hist.called ++ [k] } }
  | _, _ => none

/-- The store of a `done` closure. -/
def doneStoreStep (s : St α) : Option (St α) :=
  match s.storing with
  | none => none
  | some i =>
    some { s with
      ring := s.ring.setStatus i .consumed
      storing := none
      hist := { s.hist with marked := s.hist.marked ++ [s.hist.owner i] } }

def step (s : St α) : Act α → Option (St α)
  | .offer v =>
    match s.prod with
    | .idle => some { s with prod := .clean v }
    | _ => none
  | .prod t t' => prodStep t t' s
  | .cons => consStep s
  | .doneTest k => doneTestStep k s
  | .doneStore => doneStoreStep s

/-! ## What callbacks do with their closures -/

/-- The delivery whose callback is running. -/
def ConsPc.running : ConsPc → Option Nat
  | .callback k => some k
  | _ => none

/-- Each `done` closure is called at most once. -/
def CallsOnce (s : St α) : Act α → Prop
  | .doneTest k => k ∉ s.hist.called
  | _ => True

/-- Each callback calls its `done` closure once, before it returns, and nothing else calls one. -/
def CallsDone (s : St α) : Act α → Prop
  | .doneTest k => s.cons = .callback k ∧ k ∉ s.hist.called
  | .cons => ∀ k ∈ s.cons.running, k ∈ s.hist.called ∧ s.storing = none
  | _ => True

instance (s : St α) (a : Act α) : Decidable (CallsOnce s a) :=
  match a with
  | .doneTest k => inferInstanceAs (Decidable (k ∉ s.hist.called))
  | .offer _ | .prod _ _ | .cons | .doneStore => .isTrue trivial

instance (s : St α) (a : Act α) : Decidable (CallsDone s a) :=
  match a with
  | .doneTest k => inferInstanceAs (Decidable (s.cons = .callback k ∧ k ∉ s.hist.called))
  | .cons => inferInstanceAs (Decidable (∀ k ∈ s.cons.running, k ∈ s.hist.called ∧ s.storing = none))
  | .offer _ | .prod _ _ | .doneStore => .isTrue trivial

theorem CallsDone.callsOnce {s : St α} {a : Act α} (h : CallsDone s a) : CallsOnce s a := by
  cases a with
  | doneTest k => exact h.2
  | offer v => trivial
  | prod t t' => trivial
  | cons => trivial
  | doneStore => trivial

end Shm
