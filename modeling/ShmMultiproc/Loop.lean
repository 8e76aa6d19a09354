import ShmMultiproc.Access
import ShmMultiproc.Drain
import ShmMultiproc.Throttle
/-!
# Loop — how long a wake function waits

A process calls `Routine` again and again; its `Poll` drains the wake queue when the queue's event is ready, or when
`epoll_wait` reports nothing at all.  `Wake` writes that event at most once in 10 ms.  `Master::Routine` makes up for it
by a `TryNotifyReader` on the wake queue, so that a function woken 10 ms before it is run by the next call of `Routine`
(`master_runs_wakes`).  `Worker::Routine` makes its own on the writer only: as long as there is other traffic, a function
may wait for ever (`worker_starves_wakes`).
-/
namespace Shm

open Cyclic (wrap)
open Machine (Reach)
open RingBuffer (openWrite)
open Access (keep)

variable {α : Type}

/-! ## The code -/

/-- Where `Routine` stands: between two calls, in `epoll_wait`, in the loop of `DoWake`, in a function that it runs,
behind the events, or behind its `TryNotifyReader`, where a master has `RestartWorkers` to do. -/
inductive LoopPc where
  | out
  | waiting
  | draining
  | running (idx : Nat)
  | polled
  | flushed
  deriving DecidableEq, Repr

/-- A process and its wake queue at the time `clock`.  `stored` are the functions whose slot is not done, with the time of
their `Wake`, and `ran` those that were run; `flushed` and `flushedBefore` are the times at which the last two calls of
`Routine` came to their `TryNotifyReader`, `returned` and `before` those at which the last two returned. -/
structure Looper (α : Type) where
  role : Routine.Role
  queue : Routine.Writer α
  pc : LoopPc
  clock : Int
  stored : List (α × Int)
  ran : List (Option α)
  flushed : Int
  flushedBefore : Int
  returned : Int
  before : Int

namespace Looper

def start (role : Routine.Role) (α : Type) (N : Nat) : Looper α :=
  ⟨role, ⟨openWrite none N true, .new⟩, .out, 0, [], [], 0, 0, 0, 0⟩

/-- `epoll_wait` reports the wake queue's event (`wakeEvent`), other events only (`others`), or none (`timeout`).
`consumeItem` is an iteration of the `TakeOne` of `DoWake` up to the function that it runs, `done` the end of that
function; `Wake` may be called at any time, also by the function. -/
inductive Act (α : Type) where
  | tick (now : Int)
  | wake (func : α)
  | poll
  | wakeEvent
  | others
  | timeout
  | consumeItem
  | done
  | flush
  | ret
  deriving DecidableEq, Repr

def accepts (func : α) (r : RingBuffer α) : Bool :=
  match RingBuffer.offer func r with
  | .error _ => false
  | .ok o => o.code = 0

def step (l : Looper α) : Act α → Option (Looper α)
  | .tick now => some { l with clock := now }
  | .wake func =>
    (l.queue.offer func l.clock l.clock).map (fun q =>
      { l with queue := q, stored := l.stored ++ if accepts func l.queue.ring = true then [(func, l.clock)] else [] })
  | .poll =>
    match l.pc with
    | .out => some { l with pc := .waiting }
    | _ => none
  -- `DoWake(true)` reads the eventfd first
  | .wakeEvent =>
    match l.pc with
    | .waiting =>
      if 0 < l.queue.notifier.eventfd then
        some { l with pc := .draining, queue := { l.queue with notifier := { l.queue.notifier with eventfd := 0 } } }
      else none
    | _ => none
  | .others =>
    match l.pc with
    | .waiting => some { l with pc := .polled }
    | _ => none
  | .timeout =>
    match l.pc with
    | .waiting => some { l with pc := .draining }
    | _ => none
  | .consumeItem =>
    match l.pc with
    | .draining =>
      match RingBuffer.consumeItem keep 1 0 l.queue.ring with
      | .error _ => none
      | .ok c =>
        some { l with
          queue := { l.queue with ring := c.ring }
          ran := l.ran ++ c.given
          pc := match c.code with
            -- `TakeOne` answers 0
            | .fail => .polled
            | .cont => .draining
            | .exit => .running (wrap l.queue.ring.size l.queue.ring.consumeIdx) }
    | _ => none
  | .done =>
    match l.pc with
    | .running idx =>
      match RingBuffer.done idx l.queue.ring with
      | .error _ => none
      | .ok r => some { l with queue := { l.queue with ring := r }, stored := l.stored.drop 1, pc := .draining }
    | _ => none
  -- a worker flushes its writer and not its wake queue
  | .flush =>
    match l.pc with
    | .polled =>
      some { l with
        pc := .flushed
        queue := match l.role with
          | .master => { l.queue with notifier := l.queue.notifier.tryNotifyReader l.clock l.clock 0 }
          | .worker => l.queue
        flushed := l.clock
        flushedBefore := l.flushed }
    | _ => none
  -- `RestartWorkers` or `CheckParent` is done
  | .ret =>
    match l.pc with
    | .flushed => some { l with pc := .out, returned := l.clock, before := l.returned }
    | _ => none

/-- **The clock does not go back, `epoll_wait` reports the wake queue when its event is ready**, which it does as long as
no more than `maxevents` are, **and no `DoWake` comes to a ring of CONSUMED slots**, as in `full_wake_queue_hangs`. -/
def Fair (l : Looper α) : Act α → Prop
  | .tick now => l.clock ≤ now
  | .others | .timeout => l.queue.notifier.eventfd = 0
  | .consumeItem => l.queue.ring.statusAt (wrap l.queue.ring.size l.queue.ring.consumeIdx) ≠ some .consumed
  | .wake _ | .poll | .wakeEvent | .done | .flush | .ret => True

instance (l : Looper α) (a : Act α) : Decidable (Fair l a) :=
  match a with
  | .tick _ => inferInstanceAs (Decidable (_ ≤ _))
  | .others | .timeout => inferInstanceAs (Decidable (_ = _))
  | .consumeItem => inferInstanceAs (Decidable (_ ≠ _))
  | .wake _ | .poll | .wakeEvent | .done | .flush | .ret => .isTrue trivial

/-! ## The notifier of the wake queue -/

/-- The throttle as the constructor leaves it, read by a clock that has come to `clock`. -/
structure Sane (n : Notifier) (clock : Int) : Prop where
  interval : n.minNotifyIntervalMs = 10
  counter : 0 ≤ n.writeEventCounter
  nonneg : 0 ≤ n.lastNotifyWriteMs
  past : n.lastNotifyWriteMs ≤ clock

/-- **Why a function stored since `since` will be run**: the event is ready, or there is one to be counted and the last one
was before it. -/
def Awaited (n : Notifier) (since : Int) : Prop :=
  0 < n.eventfd ∨ (0 < n.writeEventCounter ∧ n.lastNotifyWriteMs ≤ since)

variable {n : Notifier} {clock since : Int}

theorem Sane.flush (h : Sane n clock) : Sane (n.tryNotifyReader clock clock 0) clock ∧
    (0 < (n.tryNotifyReader clock clock 0).eventfd ∨
      (n.tryNotifyReader clock clock 0 = n ∧ clock - n.lastNotifyWriteMs < 10)) := by
  have hmin := h.interval
  rcases Polled.tryNotifyReader_writes n (by omega) h.nonneg (Int.le_refl clock) (Int.le_refl clock) (.inl rfl) with he | hw
  · refine ⟨by rw [he]; exact h, .inr ⟨he, ?_⟩⟩
    by_contra hdue
    -- past the interval the write is forced
    have hcond : n.minNotifyIntervalMs ≤ Routine.reading clock 0 - n.lastNotifyWriteMs := by
      show n.minNotifyIntervalMs ≤ clock - n.lastNotifyWriteMs
      omega
    rw [Routine.tryNotifyReader_eq, if_pos (.inr (.inr hcond))] at he
    unfold Notifier.notifyReader at he
    rw [if_pos (.inr (decide_eq_true hcond))] at he
    exact absurd (congrArg Notifier.eventfd he) (Nat.succ_ne_self _)
  · have hrecent := hw.recent
    have hpast := h.past
    have hnonneg := h.nonneg
    exact ⟨⟨hw.interval.trans hmin, by rw [hw.counter], by omega, hw.past⟩, .inl (by rw [hw.eventfd]; omega)⟩

theorem Awaited.flush (h : Sane n clock) (ha : Awaited n since) : Awaited (n.tryNotifyReader clock clock 0) since := by
  rcases h.flush.2 with hev | ⟨he, -⟩
  · exact .inl hev
  · rw [he]
    exact ha

theorem Sane.counted (h : Sane n clock) : Sane ({ n with writeEventCounter := n.writeEventCounter + 1 } : Notifier) clock ∧
    Awaited ({ n with writeEventCounter := n.writeEventCounter + 1 } : Notifier) clock := by
  have hc := h.counter
  refine ⟨⟨h.interval, ?_, h.nonneg, h.past⟩, .inr ⟨?_, h.past⟩⟩
  · show 0 ≤ n.writeEventCounter + 1
    omega
  · show 0 < n.writeEventCounter + 1
    omega

theorem Awaited.counted (h : Awaited n since) :
    Awaited ({ n with writeEventCounter := n.writeEventCounter + 1 } : Notifier) since :=
  h.imp id (fun ⟨hc, hl⟩ => ⟨by show 0 < n.writeEventCounter + 1; omega, hl⟩)

end Looper

/-! ## The ring of the wake queue, one `consumeItem` at a time -/

section

variable {N u i : Nat} {r : RingBuffer α} {q : List α} {f : α}

theorem offer_keeps_consumeIdx {o : RingBuffer.Offered α} (h : RingBuffer.offer f r = .ok o) :
    o.ring.consumeIdx = r.consumeIdx := by
  have h' : RingBuffer.offer f r = .ok { o with ring := { o.ring with consumeIdx := r.consumeIdx } } :=
    offer_consumeIdx r.consumeIdx h
  rw [h, Except.ok.injEq] at h'
  exact congrArg (fun o => o.ring.consumeIdx) h'

namespace Waits

theorem offer (hN : 0 < N) (h : Waits N r q u) (func : α) :
    ∃ o, RingBuffer.offer func r = .ok o ∧ ((q.length < N ∧ o.code = 0 ∧ Waits N o.ring (q ++ [func]) (q.length + 1)) ∨
      (¬ q.length < N ∧ o.code = RingBuffer.errOverload ∧ Waits N o.ring q q.length)) := by
  obtain ⟨acc, c, d, h, rfl, -⟩ := h
  obtain ⟨o, ho, hcase⟩ := h.offer hN func
  have hlen := h.len
  rw [List.length_drop]
  refine ⟨o, ho, hcase.imp (fun ⟨hroom, hcode, h'⟩ => ⟨hroom, hcode, _, _, _, h', ?_, ?_⟩)
    (fun ⟨hfull, hcode, h'⟩ => ⟨hfull, hcode, _, _, _, h', rfl, rfl⟩)⟩
  · exact (List.drop_append_of_le_length hlen).symm
  · rw [List.length_append, List.length_singleton]
    omega

theorem accept (hN : 0 < N) (h : Waits N r q u) (func : α) (hroom : q.length < N) :
    ∃ o, RingBuffer.offer func r = .ok o ∧ o.code = 0 ∧ Waits N o.ring (q ++ [func]) (q.length + 1) := by
  obtain ⟨o, ho, ⟨-, hcode, h'⟩ | ⟨hfull, -, -⟩⟩ := h.offer hN func
  · exact ⟨o, ho, hcode, h'⟩
  · exact absurd hroom hfull

theorem offer_running (hN : 0 < N) (h : Waits N { r with consumeIdx := i } q u) (func : α) :
    ∃ o, RingBuffer.offer func r = .ok o ∧ o.ring.consumeIdx = r.consumeIdx ∧
      ((q.length < N ∧ o.code = 0 ∧ Waits N { o.ring with consumeIdx := i } (q ++ [func]) (q.length + 1)) ∨
      (¬ q.length < N ∧ o.code = RingBuffer.errOverload ∧ Waits N { o.ring with consumeIdx := i } q q.length)) := by
  obtain ⟨o, ho, hcase⟩ := h.offer hN func
  have hi : o.ring.consumeIdx = i := offer_keeps_consumeIdx ho
  have hring : ({ o.ring with consumeIdx := i } : RingBuffer α) = o.ring := by rw [← hi]
  have ho' : RingBuffer.offer func r = .ok { o with ring := { o.ring with consumeIdx := r.consumeIdx } } :=
    offer_consumeIdx (r := { r with consumeIdx := i }) r.consumeIdx ho
  refine ⟨_, ho', rfl, ?_⟩
  show (q.length < N ∧ o.code = 0 ∧ Waits N { o.ring with consumeIdx := i } (q ++ [func]) (q.length + 1)) ∨
    (¬ q.length < N ∧ o.code = RingBuffer.errOverload ∧ Waits N { o.ring with consumeIdx := i } q q.length)
  rw [hring]
  exact hcase

theorem begin (hN : 0 < N) (h : Waits N r (f :: q) u) : ∃ i < N, wrap r.size r.consumeIdx = i ∧
    RingBuffer.consumeItem keep 1 0 r = .ok ⟨.exit, { r with consumeIdx := i + 1 }, 1, [some f]⟩ ∧
    r.statusAt i = some .init ∧ Waits N { r with consumeIdx := i } (f :: q) u := by
  obtain ⟨acc, c, d, -, -, -, -, hw, hst, hget⟩ := h.head
  refine ⟨d % N, Nat.mod_lt d hN, hw, ?_, hst, ?_⟩
  · rw [← hw] at hst hget ⊢
    have hc := RingBuffer.consumeItem_init 1 0 hst
      (show keep _ _ _ = .ok { r with consumeIdx := wrap r.size r.consumeIdx + 1 } from rfl)
    rw [hc, if_pos (by decide), hget]
  · rw [← hw]
    exact h.wrapped hN

theorem finish (hN : 0 < N) (h : Waits N { r with consumeIdx := i } (f :: q) u) (hi : i < N) (hc : r.consumeIdx = i + 1) :
    ∃ r', RingBuffer.done i r = .ok r' ∧ Waits N r' q u := by
  obtain ⟨acc, c, d, hr, hd, rfl, hu, -, hst, -⟩ := h.head
  have hid : i = d % N := hr.consume.eq_mod hi
  have hdone := hr.deliver hd hN
  rw [← hid] at hst hdone
  refine ⟨_, RingBuffer.done_init hst, acc, c, d + 1, ?_, rfl, hu⟩
  rw [← hc] at hdone
  exact hdone

theorem idle (hN : 0 < N) (h : Waits N r [] u) (hst : r.statusAt (wrap r.size r.consumeIdx) ≠ some .consumed) :
    ∃ r', RingBuffer.consumeItem keep 1 0 r = .ok ⟨.fail, r', 0, []⟩ ∧ Waits N r' [] u := by
  by_cases hu : u < N
  · exact ⟨_, RingBuffer.consumeItem_cleaned keep 1 0 (h.cleaned hu), h.wrapped hN⟩
  · obtain ⟨acc, c, d, hr, hq, rfl⟩ := h
    have hlen := List.drop_eq_nil_iff.1 hq.symm
    have hle := hr.le
    refine absurd ?_ hst
    -- all slots are in use, and all of them delivered
    have hlt : wrap r.size r.consumeIdx < N := by
      rw [hr.window.size]
      exact Cyclic.wrap_lt hN _
    obtain ⟨k, hk, hk', hmod⟩ := Cyclic.exists_window c hlt
    rw [← hmod]
    exact hr.done k hk (by omega)

end Waits

end

/-! ## The invariant of the master's loop -/

namespace LoopPc

def inWake : LoopPc → Bool
  | .draining | .running _ => true
  | .out | .waiting | .polled | .flushed => false

def oldest (pc : LoopPc) (consumeIdx : Nat) : Nat :=
  match pc with
  | .running idx => idx
  | .out | .waiting | .draining | .polled | .flushed => consumeIdx

theorem oldest_eq {pc : LoopPc} (h : ∀ idx, pc ≠ .running idx) (consumeIdx : Nat) : pc.oldest consumeIdx = consumeIdx := by
  cases pc with
  | running idx => exact absurd rfl (h idx)
  | out | waiting | draining | polled | flushed => rfl

end LoopPc

namespace Looper

/-- **What a master keeps, at any point of its loop.** -/
structure Serving (N : Nat) (l : Looper α) : Prop where
  role : l.role = .master
  ring : ∃ u, Waits N { l.queue.ring with consumeIdx := l.pc.oldest l.queue.ring.consumeIdx } (l.stored.map Prod.fst) u
  running : ∀ idx, l.pc = .running idx → l.queue.ring.consumeIdx = idx + 1 ∧ idx < N ∧ l.stored ≠ []
  sane : Sane l.queue.notifier l.clock
  fresh : ∀ e ∈ l.stored, e.2 ≤ l.clock
  past : l.flushedBefore ≤ l.flushed ∧ l.flushed ≤ l.clock
  awaited : l.pc.inWake = false → ∀ e ∈ l.stored, Awaited l.queue.notifier e.2
  told : l.pc = .flushed ∨ l.pc = .out ∨ l.pc = .waiting → ∀ e ∈ l.stored, e.2 + 10 ≤ l.flushed →
    0 < l.queue.notifier.eventfd
  polled : l.pc = .polled → ∀ e ∈ l.stored, l.flushed < e.2 + 10
  served : l.pc = .flushed ∨ l.pc = .out → ∀ e ∈ l.stored, l.flushedBefore < e.2 + 10

namespace Serving

variable {N : Nat} {l l' : Looper α}

theorem start (α : Type) (N : Nat) : Serving N (start .master α N) where
  role := rfl
  ring := ⟨0, Waits.start N⟩
  running idx h := by cases h
  sane := ⟨rfl, Int.le_refl 0, Int.le_refl 0, Int.le_refl 0⟩
  fresh _ he := absurd he List.not_mem_nil
  past := ⟨Int.le_refl 0, Int.le_refl 0⟩
  awaited _ _ he := absurd he List.not_mem_nil
  told _ _ he := absurd he List.not_mem_nil
  polled h := by cases h
  served _ _ he := absurd he List.not_mem_nil

theorem still {pc : LoopPc} (h : Serving N l) (hpc : l.pc = pc) (hstill : ∀ idx, pc ≠ .running idx) :
    ∃ u, Waits N l.queue.ring (l.stored.map Prod.fst) u := by
  obtain ⟨u, hw⟩ := h.ring
  rw [hpc, LoopPc.oldest_eq hstill] at hw
  exact ⟨u, hw⟩

theorem tick {now : Int} (h : Serving N l) (hg : l.clock ≤ now) : Serving N { l with clock := now } :=
  { h with
    sane := ⟨h.sane.interval, h.sane.counter, h.sane.nonneg, h.sane.past.trans hg⟩
    fresh := fun e he => (h.fresh e he).trans hg
    past := ⟨h.past.1, h.past.2.trans hg⟩ }

theorem offered {n : Notifier} {new : List (α × Int)} {r : RingBuffer α} (h : Serving N l)
    (hr : ∃ u, Waits N { r with consumeIdx := l.pc.oldest r.consumeIdx } ((l.stored ++ new).map Prod.fst) u)
    (hi : r.consumeIdx = l.queue.ring.consumeIdx) (hs : Sane n l.clock)
    (hev : n.eventfd = l.queue.notifier.eventfd) (hold : ∀ since, Awaited l.queue.notifier since → Awaited n since)
    (hnew : ∀ e ∈ new, e.2 = l.clock ∧ Awaited n l.clock) :
    Serving N { l with queue := ⟨r, n.tryNotifyReader l.clock l.clock 0⟩, stored := l.stored ++ new } := by
  obtain ⟨hsane, hflush⟩ := hs.flush
  have hpast := h.past
  refine ⟨h.role, hr, fun idx hpc => ?_, hsane, fun e he => ?_, hpast, fun hpc e he => ?_, fun hpc e he hdue => ?_,
    fun hpc e he => ?_, fun hpc e he => ?_⟩
  · obtain ⟨hidx, hlt, hne⟩ := h.running idx hpc
    exact ⟨hi.trans hidx, hlt, fun he => hne (List.append_eq_nil_iff.1 he).1⟩
  all_goals rcases List.mem_append.1 he with he | he
  · exact h.fresh e he
  · exact Int.le_of_eq (hnew e he).1
  · exact (hold _ (h.awaited hpc e he)).flush hs
  · rw [(hnew e he).1]
    exact (hnew e he).2.flush hs
  · have htold := h.told hpc e he hdue
    rcases hflush with hpos | ⟨hsame, -⟩
    · exact hpos
    · show 0 < (n.tryNotifyReader l.clock l.clock 0).eventfd
      rw [hsame, hev]
      exact htold
  · have heq := (hnew e he).1
    have hdue : e.2 + 10 ≤ l.flushed := hdue
    omega
  · exact h.polled hpc e he
  · have heq := (hnew e he).1
    show l.flushed < e.2 + 10
    omega
  · exact h.served hpc e he
  · have heq := (hnew e he).1
    show l.flushedBefore < e.2 + 10
    omega

theorem wake {func : α} (hN : 0 < N) (h : Serving N l) (hs : step l (.wake func) = some l') : Serving N l' := by
  obtain ⟨u, hw⟩ := h.ring
  obtain ⟨o, ho, hi, hcase⟩ := hw.offer_running hN func
  have hacc : accepts func l.queue.ring = decide (o.code = 0) := by
    unfold accepts
    simp only [ho]
  simp only [Looper.step, Routine.Writer.offer, ho, hacc, Option.map_some, Option.some.injEq] at hs
  have hring : ∀ {q u'}, Waits N { o.ring with consumeIdx := l.pc.oldest l.queue.ring.consumeIdx } q u' →
      Waits N { o.ring with consumeIdx := l.pc.oldest o.ring.consumeIdx } q u' := by
    intro q u' hw'
    rw [hi]
    exact hw'
  rcases hcase with ⟨-, hcode, h'⟩ | ⟨-, hcode, h'⟩
  · rw [if_pos hcode, if_pos (decide_eq_true hcode)] at hs
    subst hs
    refine h.offered ⟨_, by rw [List.map_append]; exact hring h'⟩ hi h.sane.counted.1 rfl (fun _ ha => ha.counted)
      (fun e he => ?_)
    rw [List.mem_singleton.1 he]
    exact ⟨rfl, h.sane.counted.2⟩
  · have hne : o.code ≠ 0 := by rw [hcode]; decide
    rw [if_neg hne, if_neg (by rw [decide_eq_true_iff]; exact hne)] at hs
    subst hs
    exact h.offered ⟨_, by rw [List.append_nil]; exact hring h'⟩ hi h.sane rfl (fun _ ha => ha)
      (fun e he => absurd he List.not_mem_nil)

theorem poll (h : Serving N l) (hpc : l.pc = .out) : Serving N { l with pc := .waiting } :=
  { h with
    ring := h.still hpc (fun _ => LoopPc.noConfusion)
    running := fun _ he => by cases he
    awaited := fun _ => h.awaited (by rw [hpc]; rfl)
    told := fun _ => h.told (.inr (.inl hpc))
    polled := fun he => by cases he
    served := fun he => by rcases he with he | he <;> cases he }

theorem others (h : Serving N l) (hpc : l.pc = .waiting) (hev : l.queue.notifier.eventfd = 0) :
    Serving N { l with pc := .polled } :=
  { h with
    ring := h.still hpc (fun _ => LoopPc.noConfusion)
    running := fun _ he => by cases he
    awaited := fun _ => h.awaited (by rw [hpc]; rfl)
    told := fun he => by rcases he with he | he | he <;> cases he
    polled := fun _ e he => by
      show l.flushed < e.2 + 10
      by_contra hdue
      have htold := h.told (.inr (.inr hpc)) e he (by omega)
      omega
    served := fun he => by rcases he with he | he <;> cases he }

theorem drain {n : Notifier} (h : Serving N l) (hpc : l.pc = .waiting) (hs : Sane n l.clock) :
    Serving N { l with pc := .draining, queue := { l.queue with notifier := n } } :=
  { h with
    ring := h.still hpc (fun _ => LoopPc.noConfusion)
    running := fun _ he => by cases he
    sane := hs
    awaited := fun he => by cases he
    told := fun he => by rcases he with he | he | he <;> cases he
    polled := fun he => by cases he
    served := fun he => by rcases he with he | he <;> cases he }

theorem consumeItem (hN : 0 < N) (h : Serving N l) (hpc : l.pc = .draining)
    (hg : l.queue.ring.statusAt (wrap l.queue.ring.size l.queue.ring.consumeIdx) ≠ some .consumed)
    (hs : step l .consumeItem = some l') : Serving N l' := by
  obtain ⟨u, hw⟩ := h.still hpc (fun _ => LoopPc.noConfusion)
  cases hst : l.stored with
  | nil =>
    rw [hst] at hw
    obtain ⟨r', hr', h'⟩ := hw.idle hN hg
    simp only [Looper.step, hpc, hr'] at hs
    cases hs
    exact { h with
      ring := ⟨_, by rw [hst]; exact h'⟩
      running := fun _ he => by cases he
      awaited := fun _ e he => by rw [hst] at he; exact absurd he List.not_mem_nil
      told := fun he => by rcases he with he | he | he <;> cases he
      polled := fun _ e he => by rw [hst] at he; exact absurd he List.not_mem_nil
      served := fun he => by rcases he with he | he <;> cases he }
  | cons e rest =>
    rw [hst] at hw
    obtain ⟨i, hi, hwrap, hr', -, h'⟩ := hw.begin hN
    simp only [Looper.step, hpc, hr', hwrap] at hs
    cases hs
    exact { h with
      ring := ⟨_, by rw [hst]; exact h'⟩
      running := fun idx he => by
        cases he
        exact ⟨rfl, hi, by rw [hst]; exact List.cons_ne_nil e rest⟩
      awaited := fun he => by cases he
      told := fun he => by rcases he with he | he | he <;> cases he
      polled := fun he => by cases he
      served := fun he => by rcases he with he | he <;> cases he }

theorem done {idx : Nat} (hN : 0 < N) (h : Serving N l) (hpc : l.pc = .running idx) (hs : step l .done = some l') :
    Serving N l' := by
  obtain ⟨u, hw⟩ := h.ring
  obtain ⟨hc, hi, hne⟩ := h.running idx hpc
  obtain ⟨e, rest, hst⟩ := List.exists_cons_of_ne_nil hne
  rw [hpc, hst] at hw
  have hw : Waits N { l.queue.ring with consumeIdx := idx } (e.1 :: rest.map Prod.fst) u := hw
  obtain ⟨r', hr', h'⟩ := Waits.finish (r := l.queue.ring) hN hw hi hc
  simp only [Looper.step, hpc, hr', hst] at hs
  cases hs
  exact { h with
    ring := ⟨_, h'⟩
    running := fun _ he => by cases he
    fresh := fun e' he => h.fresh e' (by rw [hst]; exact List.mem_cons_of_mem e he)
    awaited := fun he => by cases he
    told := fun he => by rcases he with he | he | he <;> cases he
    polled := fun he => by cases he
    served := fun he => by rcases he with he | he <;> cases he }

theorem flush (h : Serving N l) (hpc : l.pc = .polled) : Serving N { l with
    pc := .flushed
    queue := { l.queue with notifier := l.queue.notifier.tryNotifyReader l.clock l.clock 0 }
    flushed := l.clock
    flushedBefore := l.flushed } := by
  obtain ⟨hsane, hflush⟩ := h.sane.flush
  have hawaited := h.awaited (by rw [hpc]; rfl)
  refine ⟨h.role, h.still hpc (fun _ => LoopPc.noConfusion), (fun _ he => by cases he), hsane, h.fresh,
    ⟨h.past.2, Int.le_refl _⟩, fun _ e he => (hawaited e he).flush h.sane, fun _ e he hdue => ?_, (fun he => by cases he),
    fun _ => h.polled hpc⟩
  rcases hflush with hpos | ⟨hsame, hlt⟩
  · exact hpos
  · show 0 < (l.queue.notifier.tryNotifyReader l.clock l.clock 0).eventfd
    rw [hsame]
    rcases hawaited e he with hpos | ⟨-, hlast⟩
    · exact hpos
    · have hdue : e.2 + 10 ≤ l.clock := hdue
      omega

theorem ret (h : Serving N l) (hpc : l.pc = .flushed) :
    Serving N { l with pc := .out, returned := l.clock, before := l.returned } :=
  { h with
    ring := h.still hpc (fun _ => LoopPc.noConfusion)
    running := fun _ he => by cases he
    awaited := fun _ => h.awaited (by rw [hpc]; rfl)
    told := fun _ => h.told (.inl hpc)
    polled := fun he => by cases he
    served := fun _ => h.served (.inl hpc) }

theorem step {a : Act α} (hN : 0 < N) (h : Serving N l) (hg : Fair l a) (hs : Looper.step l a = some l') :
    Serving N l' := by
  cases a with
  | tick now =>
    cases hs
    exact h.tick hg
  | wake func => exact h.wake hN hs
  | poll =>
    simp only [Looper.step] at hs
    split at hs
    · rename_i hpc
      cases hs
      exact h.poll hpc
    · cases hs
  | wakeEvent =>
    simp only [Looper.step] at hs
    split at hs
    · rename_i hpc
      split at hs
      · cases hs
        exact h.drain hpc ⟨h.sane.interval, h.sane.counter, h.sane.nonneg, h.sane.past⟩
      · cases hs
    · cases hs
  | others =>
    simp only [Looper.step] at hs
    split at hs
    · rename_i hpc
      cases hs
      exact h.others hpc hg
    · cases hs
  | timeout =>
    simp only [Looper.step] at hs
    split at hs
    · rename_i hpc
      cases hs
      exact h.drain hpc h.sane
    · cases hs
  | consumeItem =>
    cases hpc : l.pc with
    | draining => exact h.consumeItem hN hpc hg hs
    | out | waiting | running idx | polled | flushed =>
      simp only [Looper.step, hpc] at hs
      cases hs
  | done =>
    cases hpc : l.pc with
    | running idx => exact h.done hN hpc hs
    | out | waiting | draining | polled | flushed =>
      simp only [Looper.step, hpc] at hs
      cases hs
  | flush =>
    simp only [Looper.step] at hs
    split at hs
    · rename_i hpc
      have hflush := h.flush hpc
      cases hs
      have hq : (match l.role with
          | .master => { l.queue with notifier := l.queue.notifier.tryNotifyReader l.clock l.clock 0 }
          | .worker => l.queue) = { l.queue with notifier := l.queue.notifier.tryNotifyReader l.clock l.clock 0 } := by
        rw [h.role]
      rw [hq]
      exact hflush
    · cases hs
  | ret =>
    simp only [Looper.step] at hs
    split at hs
    · rename_i hpc
      cases hs
      exact h.ret hpc
    · cases hs

end Serving

/-- **The master runs every wake function soon**: when `Master::Routine` returns, the functions stored are those waiting
in the ring, and the `Wake` of none of them came 10 ms before the `TryNotifyReader` of the call before. -/
theorem master_runs_wakes (N : Nat) (hN : 0 < N) (l : Looper α) (h : Reach step Fair (start .master α N) l)
    (hpc : l.pc = .out) :
    (∃ u, Waits N l.queue.ring (l.stored.map Prod.fst) u) ∧ ∀ e ∈ l.stored, l.flushedBefore < e.2 + 10 := by
  have hi : Serving N l := h.invariant (.start α N) (fun _ _ _ _ hi hg hs => hi.step hN hg hs)
  exact ⟨hi.still hpc (fun _ => LoopPc.noConfusion), hi.served (.inr hpc)⟩

/-- Function 7 wakes function 8, `RestartWorkers` takes 50 ms and wakes function 9 before them; two returns later it is
still there. -/
def twoRoutines : List (Act Nat) :=
  [.tick 100, .wake 7, .poll, .wakeEvent, .consumeItem, .wake 8, .done, .consumeItem, .done, .consumeItem, .flush, .wake 9,
    .tick 150, .ret, .poll, .others, .flush, .ret]

theorem master_runs_wakes_two : ∃ l, Machine.exec step Fair (start .master Nat 4) twoRoutines = some l ∧
    l.ran = [some 7, some 8] ∧ l.stored = [(9, 100)] ∧ l.flushedBefore = 100 ∧
    (∃ u, Waits 4 l.queue.ring (l.stored.map Prod.fst) u) ∧ ∀ e ∈ l.stored, l.flushedBefore < e.2 + 10 := by
  obtain ⟨l, he, hpc, hran, hst, hb⟩ : ∃ l, Machine.exec step Fair (start .master Nat 4) twoRoutines = some l ∧
    l.pc = .out ∧ l.ran = [some 7, some 8] ∧ l.stored = [(9, 100)] ∧ l.flushedBefore = 100 :=
    ⟨_, rfl, rfl, rfl, rfl, rfl⟩
  exact ⟨l, he, hran, hst, hb, master_runs_wakes 4 (by decide) l (Machine.reach_of_exec _ _ twoRoutines _ he) hpc⟩

/-! ## A worker does not flush its wake queue -/

/-- **A function waits for an event that nobody writes.** -/
structure Starved (func : α) (since : Int) (l : Looper α) : Prop where
  role : l.role = .worker
  pc : l.pc = .out
  event : l.queue.notifier.eventfd = 0
  stored : (func, since) ∈ l.stored

variable {N : Nat} {l l' : Looper α} {func : α}

/-- **A call of `Routine` in which there is other traffic** leaves it waiting, 10 ms later. -/
theorem Starved.round {since : Int} (h : Starved func since l) : ∃ l', Reach step Fair l l' ∧ Starved func since l' ∧
    l'.before = l.returned ∧ l'.returned = l.clock + 10 ∧ l'.clock = l.clock + 10 := by
  have h₁ : Reach step Fair l { l with clock := l.clock + 10 } :=
    .single (a := .tick (l.clock + 10)) (by show l.clock ≤ l.clock + 10; omega) rfl
  have hpoll : step { l with clock := l.clock + 10 } .poll = some { l with clock := l.clock + 10, pc := .waiting } := by
    simp only [step, h.pc]
  have h₂ := h₁.next (a := .poll) (show Fair _ .poll from trivial) hpoll
  have h₃ : Reach step Fair l { l with clock := l.clock + 10, pc := .polled } := by
    refine h₂.next (a := .others) ?_ rfl
    exact h.event
  have h₄ := h₃.next (a := .flush) (show Fair _ .flush from trivial) rfl
  refine ⟨_, h₄.next (a := .ret) (show Fair _ .ret from trivial) rfl, ⟨h.role, rfl, ?_, h.stored⟩, rfl, rfl, rfl⟩
  simp only [h.role]
  exact h.event

theorem Starved.rounds {since : Int} (h : Starved func since l) (hl : since ≤ l.returned) (hc : l.returned ≤ l.clock) :
    ∀ k : Nat, ∃ l', Reach step Fair l l' ∧ Starved func since l' ∧ since + 10 * k ≤ l'.returned ∧ l'.returned ≤ l'.clock
  | 0 => ⟨l, .init, h, by omega, hc⟩
  | k + 1 => by
    obtain ⟨l₁, hr, h₁, hk, hle⟩ := h.rounds hl hc k
    obtain ⟨l₂, hr', h₂, -, hret, hclock⟩ := h₁.round
    exact ⟨l₂, hr.trans hr', h₂, by omega, by omega⟩

theorem accepted_first {t : Int} (ht : 10 ≤ t) : Notifier.new.accepted t t = ⟨1, t, 10, 0⟩ := by
  have hcond : (10 : Int) ≤ Routine.reading t 0 - 0 := by
    show 10 ≤ t - 0
    omega
  have hne : Routine.reading t 0 ≠ 0 := by
    show t ≠ 0
    omega
  unfold Notifier.accepted
  rw [Routine.tryNotifyReader_eq, if_pos (.inr (.inr hcond))]
  unfold Notifier.notifyReader
  rw [if_pos (.inl (by decide)), if_neg hne]
  rfl

theorem accepted_next {t : Int} : (⟨0, t, 10, 0⟩ : Notifier).accepted t t = ⟨0, t, 10, 1⟩ := by
  have hcond : ¬ (10 : Int) ≤ Routine.reading t 0 - t := by
    show ¬ 10 ≤ t - t
    omega
  unfold Notifier.accepted
  rw [Routine.tryNotifyReader_eq, if_neg]
  · rfl
  · rintro (h | h | h)
    · have h : (128 : Int) ≤ 0 + 1 := h
      omega
    · have h : (10 : Int) = 0 := h
      omega
    · exact hcond h

theorem step_wake {o : RingBuffer.Offered α} (ho : RingBuffer.offer func l.queue.ring = .ok o) (hcode : o.code = 0) :
    step l (.wake func) = some { l with
      queue := ⟨o.ring, l.queue.notifier.accepted l.clock l.clock⟩, stored := l.stored ++ [(func, l.clock)] } := by
  have hacc : accepts func l.queue.ring = true := by
    unfold accepts
    simp only [ho]
    exact decide_eq_true hcode
  simp only [step, Routine.Writer.offer, ho, hacc, if_pos hcode, if_true, Option.map_some]

theorem exists_served (hN : 2 ≤ N) (func : α) {t : Int} (ht : 10 ≤ t) : ∃ r, Waits N r [] 1 ∧
    Reach step Fair (start .worker α N) ⟨.worker, ⟨r, ⟨0, t, 10, 0⟩⟩, .polled, t, [], [some func], 0, 0, 0, 0⟩ := by
  have hpos : 0 < N := by omega
  -- the ring: `func` is offered, run and done
  obtain ⟨o₁, ho₁, hcode, hw₁⟩ := (Waits.start (α := α) N).accept hpos func hpos
  obtain ⟨i, hi, hwrap, hbegin, hinit, hw₂⟩ := hw₁.begin hpos
  obtain ⟨r₃, hdone, hw₃⟩ := Waits.finish (r := { o₁.ring with consumeIdx := i + 1 }) hpos hw₂ hi rfl
  have hcleaned := hw₃.cleaned (show 1 < N from hN)
  obtain ⟨r₄, hidle, hw₄⟩ := hw₃.idle hpos (by rw [hcleaned]; exact fun he => by cases he)
  -- the run
  let l₁ : Looper α := ⟨.worker, ⟨openWrite none N true, .new⟩, .out, t, [], [], 0, 0, 0, 0⟩
  let l₂ : Looper α := ⟨.worker, ⟨o₁.ring, ⟨1, t, 10, 0⟩⟩, .out, t, [(func, t)], [], 0, 0, 0, 0⟩
  have h₁ : Reach step Fair (start .worker α N) l₁ :=
    .single (a := .tick t) (by show (0 : Int) ≤ t; omega) rfl
  have hwake : step l₁ (.wake func) = some l₂ := by
    rw [step_wake ho₁ hcode]
    show some (⟨.worker, ⟨o₁.ring, Notifier.new.accepted t t⟩, .out, t, [(func, t)], [], 0, 0, 0, 0⟩ : Looper α) = some l₂
    rw [accepted_first ht]
  have h₂ := h₁.next (a := .wake func) (show Fair _ (.wake func) from trivial) hwake
  have h₃ := h₂.next (a := .poll) (show Fair _ .poll from trivial) rfl
  have h₄ := h₃.next (a := .wakeEvent) (show Fair _ .wakeEvent from trivial) rfl
  let l₅ : Looper α :=
    ⟨.worker, ⟨{ o₁.ring with consumeIdx := i + 1 }, ⟨0, t, 10, 0⟩⟩, .running i, t, [(func, t)], [some func], 0, 0, 0, 0⟩
  have h₅ : Reach step Fair (start .worker α N) l₅ := by
    refine h₄.next (a := .consumeItem) ?_ ?_
    · show o₁.ring.statusAt (wrap o₁.ring.size o₁.ring.consumeIdx) ≠ some .consumed
      rw [hwrap, hinit]
      exact fun he => by cases he
    · simp only [step, l₂, hbegin, hwrap]
      rfl
  let l₆ : Looper α := ⟨.worker, ⟨r₃, ⟨0, t, 10, 0⟩⟩, .draining, t, [], [some func], 0, 0, 0, 0⟩
  have h₆ : Reach step Fair (start .worker α N) l₆ := by
    refine h₅.next (a := .done) (show Fair _ .done from trivial) ?_
    simp only [step, l₅, hdone]
    rfl
  refine ⟨r₄, hw₄, h₆.next (a := .consumeItem) ?_ ?_⟩
  · show r₃.statusAt (wrap r₃.size r₃.consumeIdx) ≠ some .consumed
    rw [hcleaned]
    exact fun he => by cases he
  · simp only [step, l₆, hidle]
    rfl

/-- **A worker comes to starve a function**: the event of its `Wake` went to the function before. -/
theorem exists_starved (hN : 2 ≤ N) (func : α) {t : Int} (ht : 10 ≤ t) : ∃ l, Reach step Fair (start .worker α N) l ∧
    Starved func t l ∧ l.returned = t ∧ l.clock = t := by
  have hpos : 0 < N := by omega
  obtain ⟨r, hw, h⟩ := exists_served hN func ht
  obtain ⟨o, ho, hcode, -⟩ := hw.accept hpos func hpos
  let l : Looper α := ⟨.worker, ⟨o.ring, ⟨0, t, 10, 1⟩⟩, .polled, t, [(func, t)], [some func], 0, 0, 0, 0⟩
  have h' : Reach step Fair (start .worker α N) l := by
    refine h.next (a := .wake func) (show Fair _ (.wake func) from trivial) ?_
    rw [step_wake ho hcode]
    show some (⟨.worker, ⟨o.ring, (⟨0, t, 10, 0⟩ : Notifier).accepted t t⟩, .polled, t, [(func, t)], [some func], 0, 0, 0, 0⟩ :
      Looper α) = some l
    rw [accepted_next]
  have h'' := h'.next (a := .flush) (show Fair _ .flush from trivial) rfl
  exact ⟨_, h''.next (a := .ret) (show Fair _ .ret from trivial) rfl, ⟨rfl, rfl, rfl, List.mem_singleton.2 rfl⟩, rfl, rfl⟩

/-- **A worker bounds no function's wait**: for every `d` it comes to return from `Routine` when the `Wake` of a function
still stored was `d` ms before the return before. -/
theorem worker_starves_wakes (N : Nat) (hN : 2 ≤ N) (func : α) (d : Nat) : ∃ l, Reach step Fair (start .worker α N) l ∧
    l.pc = .out ∧ ∃ since, (func, since) ∈ l.stored ∧ since + d ≤ l.before := by
  obtain ⟨l, hr, h, hret, hclock⟩ := exists_starved hN func (Int.le_refl 10)
  obtain ⟨l₁, hr₁, h₁, hk, -⟩ := h.rounds (by omega) (by omega) d
  obtain ⟨l₂, hr₂, h₂, hbefore, -⟩ := h₁.round
  exact ⟨l₂, (hr.trans hr₁).trans hr₂, h₂.pc, 10, h₂.stored, by omega⟩

theorem worker_starves_wakes_two : ∃ l, Reach step Fair (start .worker Nat 2) l ∧ l.pc = .out ∧
    ∃ since, (7, since) ∈ l.stored ∧ since + ((60000 : Nat) : Int) ≤ l.before :=
  worker_starves_wakes 2 (by decide) 7 60000

end Looper
end Shm
