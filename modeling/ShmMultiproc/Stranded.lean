import ShmMultiproc.Delivery
import ShmMultiproc.Restart
/-!
# Stranded — that no message is left lying

The reader of a ring sleeps in `epoll_wait` on its eventfd; a round of `Poll` reads the eventfd and takes all it finds.
The producer writes the eventfd at most once in `min_notify_interval_ms`, and counts what it has not yet announced in
`write_event_counter`.  The reader may crash at any step, and a new one opens the ring with `OpenRead`, an access at a
time and while the producer goes on.  `none_stranded` says which runs leave no item waiting for nobody.
-/
namespace Shm

open Cyclic (wrap Phase wrap_lt wrap_of_lt)
open Machine (Reach)

variable {α : Type}

/-- The reader process: not running, in the scan of `OpenRead` at slot `idx`, with the ring open, asleep in
`epoll_wait`, or in a round of `Poll`. -/
inductive Life where
  | down
  | opening (idx : Nat)
  | opened
  | waiting
  | round
  deriving DecidableEq, Repr

def Life.scanning : Life → Option Nat
  | .opening idx => some idx
  | _ => none

structure Polled (α : Type) where
  st : St α
  life : Life

/-- `tryNotify` is a call of `TryNotifyReader(now)`; `wake` is `epoll_wait` returning and the read of the eventfd. -/
inductive Polled.Act (α : Type) where
  | offer (v : α)
  | prod (t t' : Int)
  | tryNotify (t t' now : Int)
  | start
  | scan
  | attach
  | wake
  | cons
  | doneTest (k : Nat)
  | doneStore
  | endRound
  | crash
  deriving DecidableEq, Repr

/-- The producer has set a slot to INIT and is about to count and announce it. -/
def ProdPc.notifying : ProdPc α → Bool
  | .notify _ => true
  | _ => false

namespace Polled

def start (α : Type) (n : Nat) : Polled α := ⟨.start α n, .down⟩

/-- One round of the loop of `OpenRead`; `data->at(idx)` out of range ends the process. -/
def scanAt (s : Polled α) (idx : Nat) : Polled α :=
  if idx = s.st.ring.consumeIdx then { s with life := .opened }
  else
    match s.st.ring.statusAt idx with
    | none => { s with life := .down }
    | some .init => { st := { s.st with ring := { s.st.ring with consumeIdx := idx } }, life := .opened }
    | some _ => { s with life := .opening (wrap s.st.ring.size (idx + 1)) }

def step (s : Polled α) : Act α → Option (Polled α)
  | .offer v => (Shm.step s.st (.offer v)).map (fun st => { s with st := st })
  | .prod t t' => (Shm.step s.st (.prod t t')).map (fun st => { s with st := st })
  | .tryNotify t t' now =>
    match s.st.prod with
    | .idle => some { s with st := { s.st with notifier := s.st.notifier.tryNotifyReader t t' now } }
    | _ => none
  | .start => if s.life = .down then some { s with life := .opening s.st.ring.cleanedIdx } else none
  | .scan =>
    match s.life with
    | .opening idx => some (s.scanAt idx)
    | _ => none
  | .attach => if s.life = .opened then some { s with life := .waiting } else none
  | .wake =>
    if s.life = .waiting ∧ 0 < s.st.notifier.eventfd then
      some { st := { s.st with notifier := { s.st.notifier with eventfd := 0 }, cons := .between .cont }, life := .round }
    else none
  | .cons =>
    if s.life = .round ∧ s.st.cons ≠ .between .fail then (Shm.step s.st .cons).map (fun st => { s with st := st })
    else none
  | .doneTest k => if s.life = .round then (Shm.step s.st (.doneTest k)).map (fun st => { s with st := st }) else none
  | .doneStore => if s.life = .round then (Shm.step s.st .doneStore).map (fun st => { s with st := st }) else none
  | .endRound => if s.life = .round ∧ s.st.cons = .between .fail then some { s with life := .waiting } else none
  | .crash =>
    if s.life ≠ .down then
      some { st := { s.st with cons := .between .fail, storing := none }, life := .down }
    else none

/-- **No message is left lying**: a reader asleep that nobody has notified or is about to has nothing left to do. -/
def NoneStranded (s : Polled α) : Prop :=
  s.life = .waiting → s.st.notifier.eventfd = 0 → s.st.notifier.writeEventCounter = 0 → s.st.prod = .idle →
    s.st.hist.unmarked = []

/-! ## What is asked of the steps -/

/-- `done` is called inside the callback. -/
def Inside (s : Polled α) : Act α → Prop
  | .cons => CallsDone s.st .cons
  | .doneTest k => CallsDone s.st (.doneTest k)
  | _ => True

/-- A notification is there, or due. -/
def Notified (s : St α) : Prop :=
  0 < s.notifier.eventfd ∨ 0 < s.notifier.writeEventCounter ∨ s.prod.notifying = true

/-- Where the scan of `OpenRead` ends, the oldest item that is not marked done is. -/
def Rewinds (s : Polled α) : Prop :=
  ∀ idx ∈ s.life.scanning, idx = s.st.ring.consumeIdx ∨ s.st.ring.statusAt idx = some .init →
    ∀ k ∈ s.st.hist.unmarked.head?, k % s.st.ring.size = wrap s.st.ring.size idx

/-- **The steps that strand nothing**: the reader does not test a slot of a ring of CONSUMED slots, `OpenRead` goes back
to the oldest item that is not marked done, and a reader that has opened the ring goes to sleep with nothing to do or
with a notification there or due. -/
def Serves (s : Polled α) : Act α → Prop
  | .cons => CallsDone s.st .cons ∧ SomeLeft s.st .cons
  | .doneTest k => CallsDone s.st (.doneTest k)
  | .scan => Rewinds s
  | .attach => s.st.hist.unmarked = [] ∨ Notified s.st
  | _ => True

instance (s : St α) : Decidable (Notified s) := inferInstanceAs (Decidable (_ ∨ _ ∨ _))

instance (s : Polled α) : Decidable (Rewinds s) :=
  inferInstanceAs (Decidable (∀ idx ∈ s.life.scanning, _ → ∀ k ∈ s.st.hist.unmarked.head?, _))

instance (s : Polled α) (a : Act α) : Decidable (Inside s a) :=
  match a with
  | .cons => inferInstanceAs (Decidable (CallsDone s.st .cons))
  | .doneTest k => inferInstanceAs (Decidable (CallsDone s.st (.doneTest k)))
  | .offer _ | .prod _ _ | .tryNotify _ _ _ | .start | .scan | .attach | .wake | .doneStore | .endRound | .crash =>
    .isTrue trivial

instance (s : Polled α) (a : Act α) : Decidable (Serves s a) :=
  match a with
  | .cons => inferInstanceAs (Decidable (_ ∧ _))
  | .doneTest k => inferInstanceAs (Decidable (CallsDone s.st (.doneTest k)))
  | .scan => inferInstanceAs (Decidable (Rewinds s))
  | .attach => inferInstanceAs (Decidable (_ ∨ _))
  | .offer _ | .prod _ _ | .tryNotify _ _ _ | .start | .wake | .doneStore | .endRound | .crash => .isTrue trivial

/-! ## Notifications -/

/-- The eventfd has been written, or there is something to announce. -/
def Due (n : Notifier) : Prop := 0 < n.eventfd ∨ 0 < n.writeEventCounter

theorem due_notifyReader {n : Notifier} (t now : Int) (force : Bool) (h : Due n) : Due (n.notifyReader t now force) := by
  unfold Notifier.notifyReader
  split
  · exact .inl (Nat.succ_pos _)
  · exact h

theorem due_tryNotifyReader {n : Notifier} (t t' now : Int) (h : Due n) : Due (n.tryNotifyReader t t' now) := by
  unfold Notifier.tryNotifyReader
  generalize (if now = 0 then t else now) = now'
  simp only
  split
  · exact due_notifyReader _ _ _ h
  · exact h

theorem counter_notifyReader {n : Notifier} (t now : Int) (force : Bool) (h : 0 ≤ n.writeEventCounter) :
    0 ≤ (n.notifyReader t now force).writeEventCounter := by
  unfold Notifier.notifyReader
  split
  · exact Int.le_refl 0
  · exact h

theorem counter_tryNotifyReader {n : Notifier} (t t' now : Int) (h : 0 ≤ n.writeEventCounter) :
    0 ≤ (n.tryNotifyReader t t' now).writeEventCounter := by
  unfold Notifier.tryNotifyReader
  generalize (if now = 0 then t else now) = now'
  simp only
  split
  · exact counter_notifyReader _ _ _ h
  · exact h

theorem Notified.due {s : St α} (h : Notified s) (hp : s.prod.notifying = false) : Due s.notifier := by
  rcases h with h | h | h
  · exact .inl h
  · exact .inr h
  · rw [hp] at h
    cases h

theorem Due.notified {s : St α} (h : Due s.notifier) : Notified s := h.imp_right .inl

theorem notified_prod {m : Nat} {st st' : St α} {t t' : Int} (hs : Shm.step st (.prod t t') = some st')
    (hc : 0 ≤ st.notifier.writeEventCounter) (h : m < st.hist.accepted.length → Notified st)
    (hm : m < st'.hist.accepted.length) : Notified st' := by
  obtain ⟨r, nf, pc, cs, so, hi⟩ := st
  cases pc with
  | idle => cases hs
  | clean v | drop v | null v | mark v | advance v | wrap v | store v | bump v =>
    cases hs
    exact ((h hm).due rfl).notified
  | cleanTest v | test v =>
    simp only [Shm.step, prodStep] at hs
    split at hs <;> cases hs <;> exact ((h hm).due rfl).notified
  | refuse v =>
    cases hs
    exact (due_tryNotifyReader t t' 0 ((h hm).due rfl)).notified
  | publish v =>
    cases hs
    exact .inr (.inr rfl)
  | notify v =>
    cases hs
    have hc : 0 ≤ nf.writeEventCounter := hc
    have hdue : Due ({ nf with writeEventCounter := nf.writeEventCounter + 1 } : Notifier) :=
      .inr (Int.lt_add_one_of_le hc)
    exact (due_tryNotifyReader t t' 0 hdue).notified

theorem prod_others {st st' : St α} {t t' : Int} (hs : Shm.step st (.prod t t') = some st') :
    st'.hist.marked = st.hist.marked ∧ (0 ≤ st.notifier.writeEventCounter → 0 ≤ st'.notifier.writeEventCounter) := by
  obtain ⟨r, nf, pc, cs, so, hi⟩ := st
  cases pc with
  | idle => cases hs
  | clean v | drop v | null v | mark v | advance v | wrap v | store v | publish v | bump v =>
    cases hs
    exact ⟨rfl, fun h => h⟩
  | cleanTest v | test v =>
    simp only [Shm.step, prodStep] at hs
    split at hs <;> cases hs <;> exact ⟨rfl, fun h => h⟩
  | refuse v =>
    cases hs
    exact ⟨rfl, counter_tryNotifyReader t t' 0⟩
  | notify v =>
    cases hs
    refine ⟨rfl, fun h => counter_tryNotifyReader t t' 0 ?_⟩
    exact Int.le_add_one h

/-! ## Where the reader is -/

/-- **The reader's place**, all items before the count `m` being marked done and no other: before item `m`, or past it
with the item in its hands. -/
inductive Place (N m : Nat) (s : St α) : Life → Prop
  | gone {l : Life} (hl : l = .down ∨ ∃ idx, l = .opening idx)
      (hp : Phase N s.ring.consumeIdx m ∨ (m < s.hist.accepted.length ∧ Phase N s.ring.consumeIdx (m + 1)))
      (hso : s.storing = none) : Place N m s l
  | ready {l : Life} (hl : l = .opened ∨ l = .waiting) (hp : Phase N s.ring.consumeIdx m) (hso : s.storing = none) :
      Place N m s l
  | looking (hc : s.cons = .test ∨ s.cons = .test2 ∨ ∃ last, s.cons = .between last)
      (hp : Phase N s.ring.consumeIdx m) (hso : s.storing = none) : Place N m s .round
  | skipping (hc : s.cons = .skip) (hN : N = 1) (hp : Phase N s.ring.consumeIdx m) (hso : s.storing = none) :
      Place N m s .round
  | taking (hc : s.cons = .take) (hlt : m < s.hist.accepted.length) (hp : Phase N s.ring.consumeIdx m)
      (hso : s.storing = none) : Place N m s .round
  | taken (hc : s.cons = .call (m % N)) (hlt : m < s.hist.accepted.length) (hp : Phase N s.ring.consumeIdx (m + 1))
      (hso : s.storing = none) : Place N m s .round
  | given (k : Nat) (d : Delivery α) (hc : s.cons = .callback k) (hlt : m < s.hist.accepted.length)
      (hp : Phase N s.ring.consumeIdx (m + 1)) (hd : s.hist.delivered[k]? = some d) (hslot : d.slot = m % N)
      (hcall : (k ∉ s.hist.called ∧ s.storing = none) ∨ (k ∈ s.hist.called ∧ s.storing = some (m % N))) :
      Place N m s .round
  | finished (k : Nat) (hc : s.cons = .callback k) (hm : k ∈ s.hist.called) (hp : Phase N s.ring.consumeIdx m)
      (hso : s.storing = none) : Place N m s .round

theorem Place.position {N m : Nat} {st : St α} {l : Life} (h : Place N m st l) :
    Phase N st.ring.consumeIdx m ∨ (m < st.hist.accepted.length ∧ Phase N st.ring.consumeIdx (m + 1)) := by
  cases h with
  | gone hl hp hso => exact hp
  | ready hl hp hso => exact .inl hp
  | looking hc hp hso => exact .inl hp
  | skipping hc hN hp hso => exact .inl hp
  | taking hc hlt hp hso => exact .inl hp
  | taken hc hlt hp hso => exact .inr ⟨hlt, hp⟩
  | given k d hc hlt hp hd hslot hcall => exact .inr ⟨hlt, hp⟩
  | finished k hc hm hp hso => exact .inl hp

theorem Place.at_rest {N m : Nat} {st : St α} {l : Life} (h : Place N m st l) (hl : l = .opened ∨ l = .waiting) :
    Phase N st.ring.consumeIdx m ∧ st.storing = none := by
  cases h with
  | gone hl' _ _ => rcases hl with rfl | rfl <;> rcases hl' with hl' | ⟨_, hl'⟩ <;> cases hl'
  | ready _ hp hso => exact ⟨hp, hso⟩
  | looking | skipping | taking | taken | given | finished => rcases hl with hl | hl <;> cases hl

theorem Place.between {N m : Nat} {st : St α} {last : RingBuffer.Code} (h : Place N m st .round)
    (hc : st.cons = .between last) : Phase N st.ring.consumeIdx m ∧ st.storing = none := by
  cases h with
  | gone hl _ _ => rcases hl with hl | ⟨_, hl⟩ <;> cases hl
  | ready hl _ _ => rcases hl with hl | hl <;> cases hl
  | looking _ hp hso => exact ⟨hp, hso⟩
  | skipping hc' _ _ _ | taking hc' _ _ _ | taken hc' _ _ _ | given _ _ hc' _ _ _ _ _ | finished _ hc' _ _ _ =>
    rw [hc] at hc'
    cases hc'

theorem Place.in_hand {N m k : Nat} {st : St α} (h : Place N m st .round) (hc : st.cons = .callback k)
    (hk : k ∉ st.hist.called) : m < st.hist.accepted.length ∧ Phase N st.ring.consumeIdx (m + 1) ∧
      ∃ d, st.hist.delivered[k]? = some d ∧ d.slot = m % N := by
  cases h with
  | gone hl _ _ => rcases hl with hl | ⟨_, hl⟩ <;> cases hl
  | ready hl _ _ => rcases hl with hl | hl <;> cases hl
  | looking hc' _ _ => rcases hc' with hc' | hc' | ⟨last, hc'⟩ <;> rw [hc] at hc' <;> cases hc'
  | skipping hc' _ _ _ | taking hc' _ _ _ | taken hc' _ _ _ => rw [hc] at hc'; cases hc'
  | finished j hc' hm _ _ =>
    rw [hc] at hc'
    cases hc'
    exact absurd hm hk
  | given j d hc' hlt hp hd hslot _ =>
    rw [hc] at hc'
    cases hc'
    exact ⟨hlt, hp, d, hd, hslot⟩

theorem Place.storing {N m i : Nat} {st : St α} {l : Life} (h : Place N m st l) (hi : st.storing = some i) :
    i = m % N ∧ m < st.hist.accepted.length ∧ Phase N st.ring.consumeIdx (m + 1) ∧
      ∃ k, st.cons = .callback k ∧ k ∈ st.hist.called := by
  cases h with
  | gone _ _ hso | ready _ _ hso | looking _ _ hso | skipping _ _ _ hso | taking _ _ _ hso | taken _ _ _ hso
  | finished _ _ _ _ hso =>
    rw [hi] at hso
    cases hso
  | given k d hc hlt hp _ _ hcall =>
    rcases hcall with ⟨-, hso⟩ | ⟨hk, hso⟩
    · rw [hi] at hso
      cases hso
    · rw [hi] at hso
      cases hso
      exact ⟨rfl, hlt, hp, k, hc, hk⟩

theorem Place.storing_none {N m : Nat} {st : St α} {l : Life} (h : Place N m st l) (hl : l ≠ .round) :
    st.storing = none := by
  cases h with
  | gone _ _ hso | ready _ _ hso => exact hso
  | looking | skipping | taking | taken | given | finished => exact absurd rfl hl

theorem Place.frame {N m : Nat} {st st' : St α} {l : Life} (h : Place N m st l) (hf : ProdFrame N st st') :
    Place N m st' l := by
  have hacc : st.hist.accepted.length ≤ st'.hist.accepted.length := by
    rcases hf.accepted with e | ⟨v, e, -⟩
    · rw [e]
    · rw [e, List.length_append]
      exact Nat.le_add_right _ _
  have hlt : m < st.hist.accepted.length → m < st'.hist.accepted.length := fun h' => Nat.lt_of_lt_of_le h' hacc
  have hphase : ∀ {q}, Phase N st.ring.consumeIdx q → Phase N st'.ring.consumeIdx q := by
    intro q hp
    rw [hf.consumeIdx]
    exact hp
  have hstoring : ∀ {o}, st.storing = o → st'.storing = o := fun e => hf.storing.trans e
  have hcons : ∀ {c}, st.cons = c → st'.cons = c := fun e => hf.cons.trans e
  cases h with
  | gone hl hp hso => exact .gone hl (hp.imp hphase (fun h' => ⟨hlt h'.1, hphase h'.2⟩)) (hstoring hso)
  | ready hl hp hso => exact .ready hl (hphase hp) (hstoring hso)
  | looking hc hp hso => exact .looking (by rw [hf.cons]; exact hc) (hphase hp) (hstoring hso)
  | skipping hc hN hp hso => exact .skipping (hcons hc) hN (hphase hp) (hstoring hso)
  | taking hc h' hp hso => exact .taking (hcons hc) (hlt h') (hphase hp) (hstoring hso)
  | taken hc h' hp hso => exact .taken (hcons hc) (hlt h') (hphase hp) (hstoring hso)
  | given k d hc h' hp hd hslot hcall =>
    exact .given k d (hcons hc) (hlt h') (hphase hp) (by rw [hf.delivered]; exact hd) hslot
      (by rw [hf.called, hf.storing]; exact hcall)
  | finished k hc hm hp hso =>
    exact .finished k (hcons hc) (by rw [hf.called]; exact hm) (hphase hp) (hstoring hso)

/-- The reader sleeps, or has found nothing more and is about to. -/
def Settling (s : Polled α) : Prop := s.life = .waiting ∨ (s.life = .round ∧ s.st.cons = .between .fail)

theorem not_settling {st : St α} (hc : st.cons ≠ .between .fail) : ¬ Settling ⟨st, .round⟩ := by
  rintro (h | ⟨-, h⟩)
  · cases h
  · exact hc h

/-- **The items before the count `m` are marked done and no others**, the reader stands there, and it sleeps only when
nothing is left or a notification is there or due. -/
structure Live (N m : Nat) (s : Polled α) : Prop where
  ring : RingInv N s.st
  le : m ≤ s.st.hist.accepted.length
  marked : ∀ k, k ∈ s.st.hist.marked ↔ k < m
  counter : 0 ≤ s.st.notifier.writeEventCounter
  calledLt : ∀ k ∈ s.st.hist.called, k < s.st.hist.delivered.length
  place : Place N m s.st s.life
  noted : s.Settling → m < s.st.hist.accepted.length → Notified s.st

namespace Live

variable {N m : Nat} {s s' : Polled α}

theorem start (N : Nat) (hN : 0 < N) : Live N 0 (start α N) where
  ring := .start N hN
  le := Nat.le_refl 0
  marked := fun k => ⟨fun hk => absurd hk List.not_mem_nil, fun hk => absurd hk (Nat.not_lt_zero k)⟩
  counter := Int.le_refl 0
  calledLt := fun _ hk => absurd hk List.not_mem_nil
  place := .gone (.inl rfl) (.inl (.zero N)) rfl
  noted := fun _ h => absurd h (Nat.lt_irrefl 0)

theorem cleaned_le (h : Live N m s) : s.st.hist.cleaned ≤ m := by
  by_contra hlt
  have := (h.marked m).1 (h.ring.markedOld m (by omega))
  exact Nat.lt_irrefl m this

theorem init_of_lt (h : Live N m s) {k : Nat} (hk : m ≤ k) (hlt : k < s.st.hist.accepted.length) :
    s.st.ring.statusAt (k % N) = some .init := by
  have hcl := h.cleaned_le
  rcases h.ring.window.occ k (by omega) hlt with hst | hst
  · exact hst
  · have := (h.marked k).1 ((h.ring.markedIn k (by omega) hlt).2 hst)
    omega

theorem exists_of_init (h : Live N m s) {i : Nat} (hi : s.st.ring.statusAt i = some .init) :
    ∃ k, m ≤ k ∧ k < s.st.hist.accepted.length ∧ k % N = i := by
  obtain ⟨k, hk, hlt, rfl⟩ := h.ring.window.exists_count hi (by simp)
  refine ⟨k, ?_, hlt, rfl⟩
  by_contra hkm
  have := (h.ring.markedIn k hk hlt).1 ((h.marked k).2 (by omega))
  rw [hi] at this
  cases this

theorem unmarked_eq (h : Live N m s) : s.st.hist.unmarked = List.range' m (s.st.hist.accepted.length - m) := by
  rw [s.st.hist.unmarked_eq_range' m (fun j hj _ => (h.marked j).2 hj)]
  refine List.filter_eq_self.2 (fun j hj => ?_)
  have hmem := List.mem_range'_1.1 hj
  rw [decide_eq_true_eq, h.marked j]
  omega

theorem unmarked_nil (h : Live N m s) : s.st.hist.unmarked = [] ↔ ¬ m < s.st.hist.accepted.length := by
  rw [h.unmarked_eq, List.range'_eq_nil_iff]
  omega

theorem unmarked_head (h : Live N m s) (hlt : m < s.st.hist.accepted.length) : s.st.hist.unmarked.head? = some m := by
  rw [h.unmarked_eq, List.head?_range', if_neg (by omega)]

theorem frame {st' : St α} (h : Live N m s) (hr : RingInv N st') (hf : ProdFrame N s.st st')
    (hm : st'.hist.marked = s.st.hist.marked) (hc : 0 ≤ st'.notifier.writeEventCounter)
    (hn : (m < s.st.hist.accepted.length → Notified s.st) → m < st'.hist.accepted.length → Notified st') :
    Live N m { s with st := st' } where
  ring := hr
  le := by
    have hle := h.le
    show m ≤ st'.hist.accepted.length
    rcases hf.accepted with e | ⟨v, e, -⟩
    · rw [e]
      exact hle
    · rw [e, List.length_append]
      exact Nat.le_add_right_of_le hle
  marked := by rw [hm]; exact h.marked
  counter := hc
  calledLt := by rw [hf.called, hf.delivered]; exact h.calledLt
  place := h.place.frame hf
  noted := fun hset => by
    unfold Settling at hset
    rw [hf.cons] at hset
    exact hn (h.noted hset)

theorem offer {v : α} (h : Live N m s) (hs : Polled.step s (.offer v) = some s') : Live N m s' := by
  obtain ⟨st', hst, rfl⟩ := Option.map_eq_some_iff.1 hs
  have hr := h.ring.offer hst
  have hf : ProdFrame N s.st st' := prodFrame_offer hst
  simp only [Shm.step] at hst
  split at hst <;> cases hst
  rename_i hidle
  refine h.frame hr hf rfl h.counter (fun hn hm => Due.notified ?_)
  exact (hn hm).due (by rw [hidle]; rfl)

theorem prod {t t' : Int} (h : Live N m s) (hs : Polled.step s (.prod t t') = some s') : Live N m s' := by
  obtain ⟨st', hst, rfl⟩ := Option.map_eq_some_iff.1 hs
  obtain ⟨hm, hc⟩ := prod_others hst
  exact h.frame (h.ring.prod hst) (prodFrame_prod h.ring hst) hm (hc h.counter) (notified_prod hst h.counter)

theorem tryNotify {t t' now : Int} (h : Live N m s) (hs : Polled.step s (.tryNotify t t' now) = some s') :
    Live N m s' := by
  simp only [Polled.step] at hs
  split at hs <;> cases hs
  rename_i hidle
  have hr := h.ring
  refine h.frame { hr with } ⟨rfl, rfl, rfl, rfl, rfl, .inl rfl, .inl rfl, fun _ _ _ => rfl⟩ rfl
    (counter_tryNotifyReader t t' now h.counter) (fun hn hm => ?_)
  exact (due_tryNotifyReader t t' now ((hn hm).due (by rw [hidle]; rfl))).notified

theorem quiet {st' : St α} {l : Life} (h : Live N m s) (hr : RingInv N st') (hh : st'.hist = s.st.hist)
    (hn : st'.notifier = s.st.notifier) (hp : Place N m st' l) (hw : l ≠ .waiting) (hl : l ≠ .round) :
    Live N m ⟨st', l⟩ where
  ring := hr
  le := by rw [hh]; exact h.le
  marked := by rw [hh]; exact h.marked
  counter := by rw [hn]; exact h.counter
  calledLt := by rw [hh]; exact h.calledLt
  place := hp
  noted := fun hset => by
    rcases hset with hset | ⟨hset, -⟩
    · exact absurd hset hw
    · exact absurd hset hl

theorem openRead {idx : Nat} (h : Live N m s) (hl : s.life = .opening idx) (hg : Rewinds s) :
    Live N m (s.scanAt idx) := by
  have hsize : s.st.ring.size = N := h.ring.window.size
  have hg := hg idx (by rw [hl]; rfl)
  rw [hsize] at hg
  have hp := h.place.position
  have hso := h.place.storing_none (by rw [hl]; simp)
  have hr := h.ring
  unfold scanAt
  split
  · rename_i hidx
    refine h.quiet hr rfl rfl (.ready (.inl rfl) ?_ hso) (by simp) (by simp)
    rcases hp with hp | ⟨hlt, hp⟩
    · exact hp
    · have hm := hg (.inl hidx) m (h.unmarked_head hlt)
      rw [hidx, hp.wrap] at hm
      exact ⟨hp.le, by rw [hp.mod, hm]⟩
  · split
    · exact h.quiet hr rfl rfl (.gone (.inl rfl) hp hso) (by simp) (by simp)
    · rename_i hst
      obtain ⟨k, hk, hlt, hki⟩ := h.exists_of_init hst
      have hidx : idx < N := by rw [← hki]; exact Nat.mod_lt _ hr.pos
      have hm := hg (.inr hst) m (h.unmarked_head (by omega))
      rw [wrap_of_lt hidx] at hm
      refine h.quiet { hr with
        window := hr.window.of_slots rfl
        consumeLe := hidx.le
        consumeLt := fun _ => hidx } rfl rfl (.ready (.inl rfl) ⟨hidx.le, ?_⟩ hso) (by simp) (by simp)
      rw [Nat.mod_eq_of_lt hidx, hm]
    · exact h.quiet hr rfl rfl (.gone (.inr ⟨_, rfl⟩) hp hso) (by simp) (by simp)

theorem crash (h : Live N m s) (hs : Polled.step s .crash = some s') : Live N m s' := by
  simp only [Polled.step] at hs
  split at hs <;> cases hs
  have hr := h.ring
  refine h.quiet { hr with
    consumeLt := fun h' => by cases h'
    storing := fun i hi => by cases hi } rfl rfl (.gone (.inl rfl) h.place.position rfl) (by simp) (by simp)

theorem all_consumed (h : Live N m s) (hst : s.st.ring.statusAt (m % N) = some .consumed) {i : Nat} (hi : i < N) :
    s.st.ring.statusAt i = some .consumed := by
  have hle := h.le
  have hcl := h.cleaned_le
  have hm : m = s.st.hist.accepted.length := by
    by_contra hne
    have := h.init_of_lt (Nat.le_refl m) (by omega)
    rw [hst] at this
    cases this
  have hfull : s.st.hist.cleaned + N ≤ m := by
    by_contra hlt
    have := h.ring.window.free m (by omega) (by omega)
    rw [hst] at this
    cases this
  obtain ⟨k, hk, hk', rfl⟩ := Cyclic.exists_window s.st.hist.cleaned hi
  exact (h.ring.markedIn k hk (by omega)).1 ((h.marked k).2 (by omega))

theorem stepped {st' : St α} (h : Live N m s) (hr : RingInv N st') (hh : st'.hist = s.st.hist)
    (hn : st'.notifier = s.st.notifier) (hp : Place N m st' .round)
    (hfail : st'.cons = .between .fail → ¬ m < s.st.hist.accepted.length) : Live N m ⟨st', .round⟩ where
  ring := hr
  le := by rw [hh]; exact h.le
  marked := by rw [hh]; exact h.marked
  counter := by rw [hn]; exact h.counter
  calledLt := by rw [hh]; exact h.calledLt
  place := hp
  noted := fun hset hlt => by
    rcases hset with hset | ⟨-, hset⟩
    · cases hset
    · rw [hh] at hlt
      exact absurd hlt (hfail hset)

theorem cons (h : Live N m s) (hg : CallsDone s.st .cons ∧ SomeLeft s.st .cons)
    (hs : Polled.step s .cons = some s') : Live N m s' := by
  obtain ⟨hdone, hleft⟩ := hg
  simp only [Polled.step] at hs
  split at hs
  swap
  · cases hs
  rename_i hround
  obtain ⟨st', hst, rfl⟩ := Option.map_eq_some_iff.1 hs
  have hr := h.ring.cons hst
  have hsize : s.st.ring.size = N := h.ring.window.size
  have hN := h.ring.pos
  have hplace := h.place
  obtain ⟨⟨r, nf, pc, cs, so, hi⟩, life⟩ := s
  obtain ⟨hlife, hne⟩ := hround
  cases hlife
  cases hplace with
  | gone hl _ _ => rcases hl with hl | ⟨_, hl⟩ <;> cases hl
  | ready hl _ _ => rcases hl with hl | hl <;> cases hl
  | looking hc hp hso =>
    rcases hc with hc | hc | ⟨last, hc⟩ <;> cases hc
    · have hq : r.consumeIdx = m % N := hp.eq_mod (h.ring.consumeLt rfl)
      simp only [Shm.step, consStep] at hst
      split at hst
      · cases hst
      · rename_i hcon
        cases hst
        refine h.stepped hr rfl rfl (.skipping rfl ?_ hp hso) (by simp)
        rw [hq] at hcon
        rcases hleft rfl with h1 | ⟨i, hi', hne'⟩
        · exact hsize.symm.trans h1
        · exact absurd (h.all_consumed hcon (hsize ▸ hi')) hne'
      · cases hst
        exact h.stepped hr rfl rfl (.looking (.inr (.inl rfl)) hp hso) (by simp)
    · have hq : r.consumeIdx = m % N := hp.eq_mod (h.ring.consumeLt rfl)
      simp only [Shm.step, consStep] at hst
      split at hst
      · cases hst
      · rename_i hini
        cases hst
        obtain ⟨k, hk, hlt, -⟩ := h.exists_of_init hini
        exact h.stepped hr rfl rfl (.taking rfl (Nat.lt_of_le_of_lt hk hlt) hp hso) (by simp)
      · rename_i st hno hsome
        cases hst
        refine h.stepped hr rfl rfl (.looking (.inr (.inr ⟨_, rfl⟩)) hp hso) (fun _ hlt => ?_)
        have hini := h.init_of_lt (Nat.le_refl m) hlt
        rw [← hq] at hini
        exact hno (Option.some.inj (hsome.symm.trans hini))
    · simp only [Shm.step, consStep, Option.some.injEq, hsize] at hst
      subst hst
      have hlt := wrap_lt hN r.consumeIdx
      rw [if_neg (by omega)] at hr ⊢
      exact h.stepped hr rfl rfl (.looking (.inl rfl) (hp.wrapped hN) hso) (by simp)
  | skipping hc h1 hp hso =>
    cases hc
    cases hst
    have hlt : r.consumeIdx < N := h.ring.consumeLt rfl
    refine h.stepped hr rfl rfl (.looking (.inr (.inr ⟨_, rfl⟩)) ⟨hlt, ?_⟩ hso) (by simp)
    rw [h1, Nat.mod_one, Nat.mod_one]
  | taking hc hlt hp hso =>
    cases hc
    cases hst
    have hq : r.consumeIdx = m % N := hp.eq_mod (h.ring.consumeLt rfl)
    exact h.stepped hr rfl rfl (.taken (congrArg ConsPc.call hq) hlt (hp.succ (h.ring.consumeLt rfl)) hso) (by simp)
  | taken hc hlt hp hso =>
    cases hc
    cases hst
    have hnew : hi.delivered.length ∉ hi.called := fun hm => absurd (h.calledLt _ hm) (Nat.lt_irrefl _)
    exact { h with
      ring := hr
      calledLt := fun k hk => by
        rw [List.length_append]
        exact Nat.lt_add_right _ (h.calledLt k hk)
      place := .given hi.delivered.length ⟨m % N, hi.owner (m % N), r.get (m % N)⟩ rfl hlt hp
        (by simp) rfl (.inl ⟨hnew, hso⟩)
      noted := fun hset => absurd hset (not_settling (by simp)) }
  | given k d hc hlt hp hd hslot hcall =>
    cases hc
    obtain ⟨hk, hso⟩ := hdone k rfl
    rcases hcall with ⟨hk', -⟩ | ⟨-, hso'⟩
    · exact absurd hk hk'
    · rw [hso'] at hso
      cases hso
  | finished k hc hm hp hso =>
    cases hc
    cases hst
    exact h.stepped hr rfl rfl (.looking (.inr (.inr ⟨_, rfl⟩)) hp hso) (by simp)

theorem doneTest {k : Nat} (h : Live N m s) (hg : CallsDone s.st (.doneTest k))
    (hs : Polled.step s (.doneTest k) = some s') : Live N m s' := by
  obtain ⟨hcb, hnew⟩ := hg
  simp only [Polled.step] at hs
  split at hs
  swap
  · cases hs
  rename_i hround
  obtain ⟨st', hst, rfl⟩ := Option.map_eq_some_iff.1 hs
  have hr := h.ring.doneTest hst
  have hplace := h.place
  obtain ⟨st, life⟩ := s
  cases hround
  obtain ⟨hlt, hp, d, hd, hslot⟩ := hplace.in_hand hcb hnew
  have hini := h.init_of_lt (Nat.le_refl m) hlt
  rw [← hslot] at hini
  simp only [Shm.step, doneTestStep, hd] at hst
  split at hst
  · rename_i d' hso hd'
    cases hd'
    simp only [hini, Option.some.injEq] at hst
    subst hst
    have hlen : k < st.hist.delivered.length := (List.getElem?_eq_some_iff.1 hd).1
    have hcb : st.cons = .callback k := hcb
    exact { h with
      ring := hr
      calledLt := fun j hj => by
        rcases List.mem_append.1 hj with hj | hj
        · exact h.calledLt j hj
        · rw [List.mem_singleton.1 hj]
          exact hlen
      place := .given k d hcb hlt hp hd hslot (.inr ⟨List.mem_append_right _ List.mem_cons_self, congrArg some hslot⟩)
      noted := fun hset => absurd hset (not_settling (by simp [hcb])) }
  · cases hst

theorem doneStore (h : Live N m s) (hs : Polled.step s .doneStore = some s') : ∃ m', Live N m' s' := by
  simp only [Polled.step] at hs
  split at hs
  swap
  · cases hs
  rename_i hround
  obtain ⟨st', hst, rfl⟩ := Option.map_eq_some_iff.1 hs
  have hr := h.ring.doneStore hst
  have hplace := h.place
  have hcl := h.cleaned_le
  obtain ⟨st, life⟩ := s
  cases hround
  simp only [Shm.step, doneStoreStep] at hst
  split at hst
  · cases hst
  · rename_i i hso
    cases hst
    obtain ⟨rfl, hlt, hp, k, hc, hk⟩ := hplace.storing hso
    have hc : st.cons = .callback k := hc
    refine ⟨m + 1, { h with
      ring := hr
      le := hlt
      marked := fun j => ?_
      place := .finished k hc hk hp rfl
      noted := fun hset => absurd hset (not_settling (by simp [hc])) }⟩
    show j ∈ st.hist.marked ++ [st.hist.owner (m % N)] ↔ j < m + 1
    rw [h.ring.owner m hcl hlt, List.mem_append, List.mem_singleton, show j ∈ st.hist.marked ↔ j < m from h.marked j]
    omega

theorem step {a : Act α} (h : Live N m s) (hg : Serves s a) (hs : Polled.step s a = some s') : ∃ m', Live N m' s' := by
  have hr := h.ring
  cases a with
  | offer v => exact ⟨m, h.offer hs⟩
  | prod t t' => exact ⟨m, h.prod hs⟩
  | tryNotify t t' now => exact ⟨m, h.tryNotify hs⟩
  | start =>
    simp only [Polled.step] at hs
    split at hs <;> cases hs
    rename_i hl
    exact ⟨m, h.quiet hr rfl rfl (.gone (.inr ⟨_, rfl⟩) h.place.position (h.place.storing_none (by rw [hl]; simp)))
      (by simp) (by simp)⟩
  | scan =>
    simp only [Polled.step] at hs
    split at hs <;> cases hs
    rename_i idx hl
    exact ⟨m, h.openRead hl hg⟩
  | attach =>
    simp only [Polled.step] at hs
    split at hs <;> cases hs
    rename_i hl
    obtain ⟨hp, hso⟩ := h.place.at_rest (.inl hl)
    exact ⟨m, { h with
      place := .ready (.inr rfl) hp hso
      noted := fun _ hlt => hg.resolve_left (fun hnil => h.unmarked_nil.1 hnil hlt) }⟩
  | wake =>
    simp only [Polled.step] at hs
    split at hs <;> cases hs
    rename_i hw
    obtain ⟨hp, hso⟩ := h.place.at_rest (.inr hw.1)
    exact ⟨m, { h with
      ring := { hr with consumeLt := fun h' => by cases h' }
      place := .looking (.inr (.inr ⟨_, rfl⟩)) hp hso
      noted := fun hset => absurd hset (not_settling (by simp)) }⟩
  | cons => exact ⟨m, h.cons hg hs⟩
  | doneTest k => exact ⟨m, h.doneTest hg hs⟩
  | doneStore => exact h.doneStore hs
  | endRound =>
    simp only [Polled.step] at hs
    split at hs <;> cases hs
    rename_i hend
    have hplace := h.place
    rw [hend.1] at hplace
    obtain ⟨hp, hso⟩ := hplace.between hend.2
    exact ⟨m, { h with place := .ready (.inr rfl) hp hso, noted := fun _ => h.noted (.inr hend) }⟩
  | crash => exact ⟨m, h.crash hs⟩

end Live

theorem live_reach {N : Nat} (hN : 0 < N) {s : Polled α} (h : Reach step Serves (start α N) s) : ∃ m, Live N m s :=
  h.invariant (I := fun s => ∃ m, Live N m s) ⟨0, .start N hN⟩ (fun _ _ _ _ hi hg hs => by
    obtain ⟨m, hi⟩ := hi
    exact hi.step hg hs)

theorem slotless_step {s s' : Polled α} {a : Act α} (h : Slotless s.st) (hs : step s a = some s') : Slotless s'.st := by
  have hring : ∀ {b : Shm.Act α} {l : Life}, (Shm.step s.st b).map (fun st => (⟨st, l⟩ : Polled α)) = some s' →
      Slotless s'.st := fun hs => by
    obtain ⟨st', hst, rfl⟩ := Option.map_eq_some_iff.1 hs
    exact h.step hst
  cases a with
  | offer v => exact hring hs
  | prod t t' => exact hring hs
  | tryNotify t t' now =>
    simp only [step] at hs
    split at hs <;> cases hs
    exact ⟨h.size, h.prod, h.accepted⟩
  | scan =>
    simp only [step] at hs
    split at hs <;> cases hs
    unfold scanAt
    split
    · exact h
    · split
      · exact h
      · exact ⟨h.size, h.prod, h.accepted⟩
      · exact h
  | start | attach =>
    simp only [step] at hs
    split at hs <;> cases hs
    exact h
  | wake | endRound | crash =>
    simp only [step] at hs
    split at hs <;> cases hs
    exact ⟨h.size, h.prod, h.accepted⟩
  | cons | doneTest k | doneStore =>
    simp only [step] at hs
    split at hs
    · exact hring hs
    · cases hs

/-- **No message is left lying** in a run whose reader tests no slot of a ring of CONSUMED slots, goes back to the oldest
item not marked done when it opens the ring, and then goes to sleep with nothing to do or with a notification there or
due. -/
theorem none_stranded (N : Nat) (s : Polled α) (h : Reach step Serves (start α N) s) : NoneStranded s := by
  intro hw he hc hp
  rcases Nat.eq_zero_or_pos N with rfl | hN
  · have hnone : Slotless s.st := h.invariant (I := fun s => Slotless s.st) (.start α)
      (fun _ _ _ _ hi _ hs => slotless_step hi hs)
    unfold Hist.unmarked
    rw [hnone.accepted]
    rfl
  · obtain ⟨m, hl⟩ := live_reach hN h
    refine hl.unmarked_nil.2 (fun hlt => ?_)
    rcases hl.noted (.inl hw) hlt with hn | hn | hn
    · rw [he] at hn
      exact absurd hn (Nat.lt_irrefl 0)
    · rw [hc] at hn
      exact absurd hn (Int.lt_irrefl 0)
    · rw [hp] at hn
      cases hn

def starting : List (Act Nat) := [.start, .scan, .attach]

def offeredAt (t : Int) (v : Nat) : List (Act Nat) := .offer v :: List.replicate 8 (.prod t t)

def wokenUp : List (Act Nat) := .wake :: List.replicate 5 .cons

/-- The reader crashes with item 7 in its hands, and item 8 is offered before the next one goes to sleep. -/
def crashedOnce : List (Act Nat) :=
  starting ++ offeredAt 100 7 ++ wokenUp ++ [.crash, .start, .scan] ++ offeredAt 105 8 ++
    [.attach, .tryNotify 0 0 200] ++ wokenUp ++ [.doneTest 1, .doneStore] ++ List.replicate 6 .cons ++
    [.doneTest 2, .doneStore] ++ List.replicate 4 .cons ++ [.endRound]

theorem none_stranded_crash : ∃ s, Machine.exec step Serves (start Nat 3) crashedOnce = some s ∧ s.life = .waiting ∧
    s.st.hist.delivered.map (fun d => d.ref.seq) = [0, 0, 1] ∧ s.st.hist.marked = [0, 1] ∧ NoneStranded s :=
  ⟨_, rfl, rfl, rfl, rfl, none_stranded 3 _ (Machine.reach_of_exec _ _ crashedOnce _ rfl)⟩

/-- **A message nobody comes for**: the reader has read the eventfd and crashes in the callback; the next one finds the
item in its place, and sleeps. -/
theorem restarted_reader_sleeps : ∃ s, Machine.exec step Inside (start Nat 3)
    (starting ++ offeredAt 100 7 ++ wokenUp ++ [.crash] ++ starting) = some s ∧ s.life = .waiting ∧
    s.st.ring.consumeIdx = 0 ∧ s.st.ring.statusAt 0 = some .init ∧ s.st.hist.unmarked = [0] ∧ ¬ NoneStranded s := by
  refine ⟨_, rfl, rfl, rfl, rfl, rfl, fun h => ?_⟩
  have := h rfl rfl rfl rfl
  revert this
  decide

end Polled
end Shm
