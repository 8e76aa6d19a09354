import ShmMultiproc.Fifo
import ShmMultiproc.Lib.Machine
/-!
# Routine — the throttled notifications and who flushes them

`Offer` notifies the reader at most once in `min_notify_interval_ms`, or when 128 items have come together, and counts
the others in `write_event_counter` for a later call to flush.  `Worker::Routine` makes that call on its writer;
`Master::Routine` makes it on the wake queue only.  `Proc` is one process with its wake queue and the writers of its
message rings, and a run is any sequence of offers, reads by the other sides, and calls of `Routine`.

Beside each writer stands a record of the calls made on it, which no step reads: the readings of the clock and what was
added.  The calls fall into bursts by these readings alone (`lastBurst`), and what `Routine` leaves un-notified is said
in terms of them (`routine_flushes_iff`).
-/
namespace Shm.Routine

open Machine (Reach)

variable {α ω : Type}

inductive Role where
  | master | worker
  deriving DecidableEq, Repr

/-- A `ShmFIFO` open for writing. -/
structure Writer (α : Type) where
  ring : RingBuffer α
  notifier : Notifier
  deriving DecidableEq, Repr

/-- `Offer(v)`; `t` and `t'` are what `mstime()` reads. -/
def Writer.offer (v : α) (t t' : Int) (w : Writer α) : Option (Writer α) :=
  match RingBuffer.offer v w.ring with
  | .error _ => none
  | .ok o => some ⟨o.ring, if o.code = 0 then w.notifier.accepted t t' else w.notifier.refused t t'⟩

/-- A call of `Offer` or `TryNotifyReader` on a writer: what it took for the time, the time noted if it notified
(`mstime()` is read again when the first reading was 0), the interval then in force, and how many items it added. -/
structure Call where
  now : Int
  noted : Int
  interval : Int
  added : Int
  deriving DecidableEq, Repr

/-- A writer with the calls made on it. -/
structure Logged (α : Type) extends Writer α where
  calls : List Call
  deriving DecidableEq, Repr

def Logged.new (r : RingBuffer α) : Logged α := ⟨⟨r, .new⟩, []⟩

/-- `now`, or what `mstime()` reads. -/
def reading (t now : Int) : Int := if now = 0 then t else now

/-- `Offer(v)` finds room. -/
def Writer.added (v : α) (w : Writer α) : Int :=
  match RingBuffer.offer v w.ring with
  | .error _ => 0
  | .ok o => if o.code = 0 then 1 else 0

def Logged.offer (v : α) (t t' : Int) (w : Logged α) : Option (Logged α) :=
  (w.toWriter.offer v t t').map (fun w' =>
    ⟨w', w.calls ++ [⟨t, reading t' t, w.notifier.minNotifyIntervalMs, w.toWriter.added v⟩]⟩)

def Logged.tryNotifyReader (t t' now : Int) (w : Logged α) : Logged α :=
  { w with
    notifier := w.notifier.tryNotifyReader t t' now
    calls := w.calls ++ [⟨reading t now, reading t' (reading t now), w.notifier.minNotifyIntervalMs, 0⟩] }

/-- `writers` are those of the entries of `workers`, or the one of a `Worker`; no reading of the clock is before
`clock`. -/
structure Proc (α ω : Type) where
  role : Role
  clock : Int
  wake : Writer ω
  writers : List (Logged α)

/-- A process that has opened its wake queue `q`, and a worker its own writer on `r`. -/
def Proc.start (ω : Type) (q : RingBuffer ω) : Option (RingBuffer α) → Proc α ω
  | none => ⟨.master, 0, ⟨q, .new⟩, []⟩
  | some r => ⟨.worker, 0, ⟨q, .new⟩, [.new r]⟩

/-- `taken` and `ran` are what the readers of writer `i` and of the wake queue did to the rings.  `routine` is the part of
`Routine` after `Poll`, which returns at `ret` and in a master may have created workers with the rings `created`. -/
inductive Act (α ω : Type) where
  | offer (i : Nat) (v : α) (t t' : Int)
  | wake (f : ω) (t t' : Int)
  | taken (i : Nat) (r : RingBuffer α)
  | ran (r : RingBuffer ω)
  | setMinNotifyIntervalMS (i : Nat) (ms : Int)
  | createWorker (r : RingBuffer α)
  | erase (i : Nat)
  | routine (t t' : Int) (created : List (RingBuffer α)) (ret : Int)
  deriving DecidableEq, Repr

def Act.readings : Act α ω → List Int
  | .offer _ _ t t' | .wake _ t t' => [t, t']
  | .routine t t' _ ret => [t, t', ret]
  | _ => []

/-- `Master::Routine` after `Poll`. -/
def masterRoutine (t t' : Int) (created : List (RingBuffer α)) (s : Proc α ω) : Proc α ω :=
  { s with
    wake := { s.wake with notifier := s.wake.notifier.tryNotifyReader t t' 0 }
    writers := s.writers ++ created.map .new }

/-- `Worker::Routine` after `Poll`: `now` is `t`. -/
def workerRoutine (t t' : Int) (s : Proc α ω) : Proc α ω :=
  { s with writers := s.writers.map (.tryNotifyReader t' t' t) }

def act (s : Proc α ω) : Act α ω → Option (Proc α ω)
  | .offer i v t t' =>
    match s.writers[i]? with
    | none => none
    | some w => (w.offer v t t').map (fun w' => { s with writers := s.writers.set i w' })
  | .wake f t t' => (s.wake.offer f t t').map (fun q => { s with wake := q })
  | .taken i r => some { s with writers := s.writers.modify i (fun w => { w with ring := r }) }
  | .ran r => some { s with wake := { s.wake with ring := r } }
  | .setMinNotifyIntervalMS i ms =>
    some { s with writers := s.writers.modify i (fun w =>
      { w with notifier := { w.notifier with minNotifyIntervalMs := ms } }) }
  | .createWorker r =>
    match s.role with
    | .master => some { s with writers := s.writers ++ [.new r] }
    | .worker => none
  | .erase i =>
    match s.role with
    | .master => some { s with writers := s.writers.eraseIdx i }
    | .worker => none
  | .routine t t' created _ =>
    match s.role with
    | .master => some (masterRoutine t t' created s)
    | .worker => some (workerRoutine t t' s)

/-- The readings of the clock do not decrease. -/
def step (s : Proc α ω) (a : Act α ω) : Option (Proc α ω) :=
  if (s.clock :: a.readings).IsChain (· ≤ ·) then
    (act s a).map (fun s' => { s' with clock := (s.clock :: a.readings).getLastD s.clock })
  else none

/-! ## Bursts -/

/-- **Nothing is left un-notified past the throttle interval** at time `t`. -/
def Flushed (n : Notifier) (t : Int) : Prop := n.writeEventCounter = 0 ∨ t - n.lastNotifyWriteMs < n.minNotifyIntervalMs

instance (n : Notifier) (t : Int) : Decidable (Flushed n t) :=
  inferInstanceAs (Decidable (n.writeEventCounter = 0 ∨ t - n.lastNotifyWriteMs < n.minNotifyIntervalMs))

/-- The time of the call that opened a burst, and the items added since. -/
structure Burst where
  opened : Int
  added : Int
  deriving DecidableEq, Repr

/-- **A call opens a burst** when it comes an interval or more after the call that opened the last one, or adds the
128th item since. -/
def Burst.next (b : Burst) (c : Call) : Burst :=
  if c.interval ≤ c.now - b.opened ∨ 128 ≤ b.added + c.added then ⟨c.noted, 0⟩ else ⟨b.opened, b.added + c.added⟩

def lastBurst (calls : List Call) : Burst := calls.foldl Burst.next ⟨0, 0⟩

/-- **The last burst on a writer is over with nothing to announce**, or goes on when `Routine` returns at `ret`, or was
over when a worker took the reading `now`. -/
def OnTime (role : Role) (now ret : Int) (w : Logged α) : Prop :=
  (lastBurst w.calls).added = 0 ∨ ret - (lastBurst w.calls).opened < w.notifier.minNotifyIntervalMs ∨
    (role = .worker ∧ w.notifier.minNotifyIntervalMs ≤ now - (lastBurst w.calls).opened)

instance (role : Role) (now ret : Int) (w : Logged α) : Decidable (OnTime role now ret w) :=
  inferInstanceAs (Decidable (_ ∨ _ ∨ (_ ∧ _)))

/-- The offers made before, with their readings, leave `Routine` nothing that it does not flush. -/
def Enough (t t' ret : Int) (s : Proc α ω) : Prop := ∀ w ∈ s.writers, OnTime s.role (reading t' t) ret w

/-! ## One notifier -/

/-- **What holds of every notifier of the process**: fewer than 128 items are counted, and it last notified in the past. -/
structure Counted (clock : Int) (n : Notifier) : Prop where
  nonneg : 0 ≤ n.writeEventCounter
  lt : n.writeEventCounter < 128
  past : n.lastNotifyWriteMs ≤ clock

variable {n : Notifier} {clock t t' now : Int}

theorem tryNotifyReader_eq (n : Notifier) (t t' now : Int) : n.tryNotifyReader t t' now =
    if 128 ≤ n.writeEventCounter ∨ n.minNotifyIntervalMs = 0 ∨
      n.minNotifyIntervalMs ≤ reading t now - n.lastNotifyWriteMs
    then n.notifyReader t' (reading t now) (decide (n.minNotifyIntervalMs ≤ reading t now - n.lastNotifyWriteMs))
    else n := rfl

theorem notifyReader_cases (n : Notifier) (t now : Int) (force : Bool) :
    (n.notifyReader t now force = n ∧ ¬ 0 < n.writeEventCounter) ∨
      ((n.notifyReader t now force).writeEventCounter = 0 ∧
        (n.notifyReader t now force).lastNotifyWriteMs = reading t now) := by
  unfold Notifier.notifyReader
  split
  · exact .inr ⟨rfl, rfl⟩
  · rename_i hno
    exact .inl ⟨rfl, fun h => hno (.inl h)⟩

theorem tryNotifyReader_cases (n : Notifier) (t t' now : Int) :
    (n.tryNotifyReader t t' now = n) ∨ ((n.tryNotifyReader t t' now).writeEventCounter = 0 ∧
      (n.tryNotifyReader t t' now).lastNotifyWriteMs = reading t' (reading t now)) := by
  rw [tryNotifyReader_eq]
  split
  · exact (notifyReader_cases n _ _ _).imp And.left id
  · exact .inl rfl

theorem tryNotifyReader_counter (h : 0 ≤ n.writeEventCounter) (t t' now : Int) :
    (n.tryNotifyReader t t' now).writeEventCounter =
      if 128 ≤ n.writeEventCounter ∨ n.minNotifyIntervalMs = 0 ∨
        n.minNotifyIntervalMs ≤ reading t now - n.lastNotifyWriteMs then 0 else n.writeEventCounter := by
  rw [tryNotifyReader_eq]
  split
  · rcases notifyReader_cases n t' (reading t now)
      (decide (n.minNotifyIntervalMs ≤ reading t now - n.lastNotifyWriteMs)) with ⟨e, hc⟩ | ⟨e, -⟩
    · rw [e]
      omega
    · exact e
  · rfl

namespace Counted

theorem new : Counted 0 .new := ⟨Int.le_refl 0, by decide, Int.le_refl 0⟩

theorem later (h : Counted clock n) (hle : clock ≤ t) : Counted t n := ⟨h.nonneg, h.lt, Int.le_trans h.past hle⟩

theorem reading_le {T : Int} (ht : t ≤ T) (hnow : now ≤ T) : reading t now ≤ T := by
  unfold reading
  split
  · exact ht
  · exact hnow

theorem tryNotifyReader (h : Counted clock n) (hc : clock ≤ t') (ht : t ≤ t') (hnow : now ≤ t') :
    Counted t' (n.tryNotifyReader t t' now) := by
  rcases tryNotifyReader_cases n t t' now with e | ⟨e, hl⟩
  · rw [e]
    exact h.later hc
  · exact ⟨by rw [e], by rw [e]; decide, by rw [hl]; exact reading_le (Int.le_refl t') (reading_le ht hnow)⟩

theorem accepted (h : Counted clock n) (hc : clock ≤ t) (ht : t ≤ t') (h0 : 0 ≤ t') :
    Counted t' (n.accepted t t') := by
  have hnonneg := h.nonneg
  have hlt := h.lt
  have hcount := tryNotifyReader_counter (n := { n with writeEventCounter := n.writeEventCounter + 1 })
    (show 0 ≤ n.writeEventCounter + 1 by omega) t t' 0
  unfold Notifier.accepted
  refine ⟨?_, ?_, ?_⟩
  · rw [hcount]
    split
    · exact Int.le_refl 0
    · show 0 ≤ n.writeEventCounter + 1
      omega
  · rw [hcount]
    split
    · decide
    · rename_i hno
      show n.writeEventCounter + 1 < 128
      by_contra hge
      exact hno (.inl (show 128 ≤ n.writeEventCounter + 1 by omega))
  · rcases tryNotifyReader_cases { n with writeEventCounter := n.writeEventCounter + 1 } t t' 0 with e | ⟨-, e⟩
    · rw [e]
      show n.lastNotifyWriteMs ≤ t'
      have := h.past
      omega
    · rw [e]
      exact reading_le (Int.le_refl t') (reading_le ht h0)

theorem flushed_iff {ret : Int} (h : Counted clock n) (hr : clock ≤ reading t now) :
    Flushed (n.tryNotifyReader t t' now) ret ↔
      Flushed n ret ∨ n.minNotifyIntervalMs ≤ reading t now - n.lastNotifyWriteMs := by
  have hlt := h.lt
  have hpast := h.past
  rw [tryNotifyReader_eq]
  by_cases hdue : n.minNotifyIntervalMs ≤ reading t now - n.lastNotifyWriteMs
  · rw [if_pos (.inr (.inr hdue)), Notifier.notifyReader, if_pos (.inr (decide_eq_true hdue))]
    exact ⟨fun _ => .inr hdue, fun _ => .inl rfl⟩
  · rw [if_neg (by omega)]
    exact ⟨.inl, fun hf => hf.resolve_right hdue⟩

end Counted

theorem next_told {b : Burst} {k : Int} (t t' now : Int) (ho : b.opened = n.lastNotifyWriteMs)
    (ha : b.added + k = n.writeEventCounter) (hpos : 0 ≤ n.writeEventCounter) (hr : n.lastNotifyWriteMs ≤ reading t now) :
    (b.next ⟨reading t now, reading t' (reading t now), n.minNotifyIntervalMs, k⟩).opened =
        (n.tryNotifyReader t t' now).lastNotifyWriteMs ∧
      (b.next ⟨reading t now, reading t' (reading t now), n.minNotifyIntervalMs, k⟩).added =
        (n.tryNotifyReader t t' now).writeEventCounter := by
  unfold Burst.next
  rw [tryNotifyReader_eq, ho, ha]
  by_cases hdue : n.minNotifyIntervalMs ≤ reading t now - n.lastNotifyWriteMs
  · rw [if_pos (.inl hdue), if_pos (.inr (.inr hdue)), Notifier.notifyReader, if_pos (.inr (decide_eq_true hdue))]
    exact ⟨rfl, rfl⟩
  · by_cases hmany : 128 ≤ n.writeEventCounter
    · rw [if_pos (.inr hmany), if_pos (.inl hmany), Notifier.notifyReader, if_pos (.inl (by omega))]
      exact ⟨rfl, rfl⟩
    · rw [if_neg (fun h => h.elim hdue hmany), if_neg (by omega)]
      exact ⟨rfl, rfl⟩

theorem lastBurst_append (calls : List Call) (c : Call) : lastBurst (calls ++ [c]) = (lastBurst calls).next c := by
  unfold lastBurst
  rw [List.foldl_append]
  rfl

/-! ## Runs -/

/-- **The notifier of a writer knows the last burst on it.** -/
structure Told (clock : Int) (w : Logged α) : Prop extends Counted clock w.notifier where
  opened : (lastBurst w.calls).opened = w.notifier.lastNotifyWriteMs
  added : (lastBurst w.calls).added = w.notifier.writeEventCounter

namespace Told

variable {w w' : Logged α} {ret : Int}

theorem new (r : RingBuffer α) (h : 0 ≤ clock) : Told clock (.new r) :=
  { Counted.new.later h with opened := rfl, added := rfl }

theorem later (h : Told clock w) (hle : clock ≤ t) : Told t w :=
  { h.toCounted.later hle with opened := h.opened, added := h.added }

theorem offer {v : α} (h : Told clock w) (h0 : 0 ≤ clock) (hc : clock ≤ t) (ht : t ≤ t')
    (ho : w.offer v t t' = some w') : Told t' w' := by
  have hpast := h.past
  have hnonneg := h.nonneg
  obtain ⟨w₁, hw₁, rfl⟩ := Option.map_eq_some_iff.1 ho
  unfold Writer.offer at hw₁
  unfold Writer.added
  split at hw₁
  · cases hw₁
  · rename_i o hoffer
    cases hw₁
    by_cases hcode : o.code = 0
    · simp only [if_pos hcode]
      obtain ⟨hopened, hadded⟩ := next_told
        (n := { w.notifier with writeEventCounter := w.notifier.writeEventCounter + 1 }) (k := 1) t t' 0 h.opened
        (congrArg (· + 1) h.added) (show 0 ≤ w.notifier.writeEventCounter + 1 by omega)
        (show w.notifier.lastNotifyWriteMs ≤ t by omega)
      exact
        { h.toCounted.accepted hc ht (by omega) with
          opened := by rw [lastBurst_append]; exact hopened
          added := by rw [lastBurst_append]; exact hadded }
    · simp only [if_neg hcode]
      obtain ⟨hopened, hadded⟩ := next_told (n := w.notifier) (k := 0) t t' 0 h.opened
        ((Int.add_zero _).trans h.added) hnonneg (show w.notifier.lastNotifyWriteMs ≤ t by omega)
      exact
        { h.toCounted.tryNotifyReader (by omega) ht (by omega) with
          opened := by rw [lastBurst_append]; exact hopened
          added := by rw [lastBurst_append]; exact hadded }

theorem tryNotifyReader (h : Told clock w) (hc : clock ≤ t') (ht : t ≤ t') (hnow : now ≤ t')
    (hr : clock ≤ reading t now) : Told t' (w.tryNotifyReader t t' now) := by
  obtain ⟨hopened, hadded⟩ := next_told (k := 0) t t' now h.opened
    ((Int.add_zero _).trans h.added) h.nonneg (h.past.trans hr)
  exact
    { h.toCounted.tryNotifyReader hc ht hnow with
      opened := by
        show (lastBurst (w.calls ++ [_])).opened = _
        rw [lastBurst_append]
        exact hopened
      added := by
        show (lastBurst (w.calls ++ [_])).added = _
        rw [lastBurst_append]
        exact hadded }

theorem interval (h : Told clock w) (ms : Int) :
    Told clock { w with notifier := { w.notifier with minNotifyIntervalMs := ms } } :=
  ⟨⟨h.nonneg, h.lt, h.past⟩, h.opened, h.added⟩

theorem onTime_master (h : Told clock w) (now : Int) : OnTime .master now ret w ↔ Flushed w.notifier ret := by
  unfold OnTime Flushed
  rw [h.opened, h.added]
  exact or_congr_right ⟨fun hf => hf.resolve_right (fun hw => by cases hw.1), .inl⟩

theorem onTime_worker (h : Told clock w) (hr : clock ≤ reading t now) :
    OnTime .worker (reading t now) ret w ↔ Flushed (w.notifier.tryNotifyReader t t' now) ret := by
  rw [h.toCounted.flushed_iff hr]
  unfold OnTime Flushed
  rw [h.opened, h.added, or_assoc]
  exact or_congr_right (or_congr_right (and_iff_right rfl))

end Told

/-- **Every writer of the process is in order.** -/
structure ProcInv (s : Proc α ω) : Prop where
  clock : 0 ≤ s.clock
  writers : ∀ w ∈ s.writers, Told s.clock w

namespace ProcInv

variable {s s' : Proc α ω}

theorem start (q : RingBuffer ω) (r : Option (RingBuffer α)) : ProcInv (Proc.start ω q r) := by
  cases r with
  | none => exact ⟨Int.le_refl 0, fun w hw => by cases hw⟩
  | some r => exact ⟨Int.le_refl 0, fun w hw => by rw [List.mem_singleton.1 hw]; exact .new r (Int.le_refl 0)⟩

theorem new_of_mem {clock : Int} {created : List (RingBuffer α)} (h : 0 ≤ clock) :
    ∀ w ∈ created.map Logged.new, Told clock w := by
  intro w hw
  obtain ⟨r, -, rfl⟩ := List.mem_map.1 hw
  exact .new r h

theorem of_mem_set {ws : List (Logged α)} {clock : Int} {w : Logged α} {i : Nat} (h : ∀ w ∈ ws, Told clock w)
    (hw : Told clock w) : ∀ w' ∈ ws.set i w, Told clock w' := by
  intro w' hw'
  rcases List.mem_or_eq_of_mem_set hw' with hm | rfl
  · exact h w' hm
  · exact hw

theorem of_mem_modify {ws : List (Logged α)} {clock : Int} {f : Logged α → Logged α} {i : Nat}
    (h : ∀ w ∈ ws, Told clock w) (hf : ∀ w, Told clock w → Told clock (f w)) : ∀ w ∈ ws.modify i f, Told clock w := by
  intro w hw
  obtain ⟨j, hj⟩ := List.getElem?_of_mem hw
  rw [List.getElem?_modify] at hj
  obtain ⟨w₀, hw₀, he⟩ := Option.map_eq_some_iff.1 hj
  have hm := h w₀ (List.mem_of_getElem? hw₀)
  rw [← he]
  split
  · exact hf w₀ hm
  · exact hm

theorem reading_ge {clock t t' : Int} (h1 : clock ≤ t) (h2 : t ≤ t') : clock ≤ reading t' t := by
  unfold reading
  split <;> omega

theorem step {a : Act α ω} (h : ProcInv s) (hs : Routine.step s a = some s') : ProcInv s' := by
  have h0 := h.clock
  unfold Routine.step at hs
  split at hs
  · rename_i hch
    obtain ⟨s₁, ha, rfl⟩ := Option.map_eq_some_iff.1 hs
    cases a with
    | offer i v t t' =>
      simp only [Act.readings, List.isChain_cons_cons, List.IsChain.singleton, and_true] at hch
      simp only [act] at ha
      split at ha
      · cases ha
      · rename_i w hw
        obtain ⟨w', hw', rfl⟩ := Option.map_eq_some_iff.1 ha
        have hin := h.writers w (List.mem_of_getElem? hw)
        exact ⟨show 0 ≤ t' by omega, of_mem_set (fun x hx => (h.writers x hx).later (show s.clock ≤ t' by omega))
          (hin.offer h0 hch.1 hch.2 hw')⟩
    | wake f t t' =>
      simp only [Act.readings, List.isChain_cons_cons, List.IsChain.singleton, and_true] at hch
      obtain ⟨q, -, rfl⟩ := Option.map_eq_some_iff.1 ha
      exact ⟨show 0 ≤ t' by omega, fun x hx => (h.writers x hx).later (show s.clock ≤ t' by omega)⟩
    | taken i r =>
      cases ha
      exact ⟨h0, of_mem_modify h.writers (fun w hw => ⟨hw.toCounted, hw.opened, hw.added⟩)⟩
    | ran r =>
      cases ha
      exact ⟨h0, h.writers⟩
    | setMinNotifyIntervalMS i ms =>
      cases ha
      exact ⟨h0, of_mem_modify h.writers (fun w hw => hw.interval ms)⟩
    | createWorker r =>
      simp only [act] at ha
      split at ha <;> cases ha
      refine ⟨h0, fun w hw => ?_⟩
      rcases List.mem_append.1 hw with hw | hw
      · exact h.writers w hw
      · rw [List.mem_singleton.1 hw]
        exact .new r h0
    | erase i =>
      simp only [act] at ha
      split at ha <;> cases ha
      exact ⟨h0, fun w hw => h.writers w (List.mem_of_mem_eraseIdx hw)⟩
    | routine t t' created ret =>
      simp only [Act.readings, List.isChain_cons_cons, List.IsChain.singleton, and_true] at hch
      obtain ⟨h1, h2, h3⟩ := hch
      simp only [act] at ha
      split at ha <;> cases ha
      · refine ⟨show 0 ≤ ret by omega, fun w hw => ?_⟩
        rcases List.mem_append.1 hw with hw | hw
        · exact (h.writers w hw).later (show s.clock ≤ ret by omega)
        · exact new_of_mem (show 0 ≤ ret by omega) w hw
      · refine ⟨show 0 ≤ ret by omega, fun w hw => ?_⟩
        obtain ⟨w₀, hw₀, rfl⟩ := List.mem_map.1 hw
        have hin := h.writers w₀ hw₀
        exact (hin.tryNotifyReader (show s.clock ≤ t' by omega) (Int.le_refl t') h2 (reading_ge h1 h2)).later h3
  · cases hs

end ProcInv

theorem procInv_reach {q : RingBuffer ω} {r : Option (RingBuffer α)} {G : Proc α ω → Act α ω → Prop} {s : Proc α ω}
    (h : Reach step G (Proc.start ω q r) s) : ProcInv s :=
  h.invariant (ProcInv.start q r) (fun _ _ _ _ hi _ hs => hi.step hs)

theorem role_step {s s' : Proc α ω} {a : Act α ω} (hs : step s a = some s') : s'.role = s.role := by
  unfold step at hs
  split at hs
  · obtain ⟨s₁, ha, rfl⟩ := Option.map_eq_some_iff.1 hs
    cases a with
    | offer i v t t' =>
      simp only [act] at ha
      split at ha
      · cases ha
      · obtain ⟨w', -, rfl⟩ := Option.map_eq_some_iff.1 ha
        rfl
    | wake f t t' =>
      obtain ⟨q, -, rfl⟩ := Option.map_eq_some_iff.1 ha
      rfl
    | taken i r | ran r | setMinNotifyIntervalMS i ms => cases ha; rfl
    | createWorker r | erase i | routine t t' created ret =>
      simp only [act] at ha
      split at ha <;> cases ha <;> rfl
  · cases hs

theorem ProcInv.flushes_iff {s s' : Proc α ω} {t t' ret : Int} {created : List (RingBuffer α)} (h : ProcInv s)
    (hs : Routine.step s (.routine t t' created ret) = some s') :
    (∀ w ∈ s'.writers, Flushed w.notifier ret) ↔ Enough t t' ret s := by
  unfold Routine.step at hs
  split at hs
  · rename_i hch
    simp only [Act.readings, List.isChain_cons_cons, List.IsChain.singleton, and_true] at hch
    obtain ⟨h1, h2, -⟩ := hch
    obtain ⟨s₁, ha, rfl⟩ := Option.map_eq_some_iff.1 hs
    unfold Enough
    simp only [act] at ha
    cases hrole : s.role <;> rw [hrole] at ha <;> cases ha
    · constructor
      · intro hf w hw
        exact ((h.writers w hw).onTime_master _).2 (hf w (List.mem_append_left _ hw))
      · intro hd w hw
        rcases List.mem_append.1 hw with hw | hw
        · exact ((h.writers w hw).onTime_master _).1 (hd w hw)
        · obtain ⟨r, -, rfl⟩ := List.mem_map.1 hw
          exact .inl rfl
    · have hr := ProcInv.reading_ge h1 h2
      constructor
      · intro hf w hw
        exact ((h.writers w hw).onTime_worker hr).2 (hf _ (List.mem_map_of_mem hw))
      · intro hd w hw
        obtain ⟨w₀, hw₀, rfl⟩ := List.mem_map.1 hw
        exact ((h.writers w₀ hw₀).onTime_worker hr).1 (hd w₀ hw₀)
  · cases hs

/-- **A worker leaves nothing**, as of the reading it takes after `Poll`. -/
theorem worker_routine_flushes (q : RingBuffer ω) (r : RingBuffer α) (s s' : Proc α ω) (t : Int)
    (h : Reach step Machine.anyStep (Proc.start ω q (some r)) s) (hs : step s (.routine t t [] t) = some s') :
    ∀ w ∈ s'.writers, Flushed w.notifier t := by
  have hrole : s.role = .worker := h.invariant (I := fun s => s.role = .worker) rfl
    (fun _ _ _ _ hi _ hs => (role_step hs).trans hi)
  have hr : reading t t = t := ite_self t
  rw [(procInv_reach h).flushes_iff hs]
  intro w hw
  unfold OnTime
  rw [hrole, hr]
  have hcases := Int.lt_or_le (t - (lastBurst w.calls).opened) w.notifier.minNotifyIntervalMs
  exact .inr (hcases.imp id (fun hle => ⟨rfl, hle⟩))

/-- **When `Routine` returns with every throttled notification flushed**: exactly when the offers came so that no burst
with something to announce is over at the return, or, in a worker, was over at its reading of the clock. -/
theorem routine_flushes_iff (q : RingBuffer ω) (r : Option (RingBuffer α)) (s s' : Proc α ω) (t t' ret : Int)
    (created : List (RingBuffer α)) (h : Reach step Machine.anyStep (Proc.start ω q r) s)
    (hs : step s (.routine t t' created ret) = some s') :
    (∀ w ∈ s'.writers, Flushed w.notifier ret) ↔ Enough t t' ret s :=
  (procInv_reach h).flushes_iff hs

def twoOffers : List (Act Nat Unit) :=
  [.createWorker (RingBuffer.openWrite none 4 true), .offer 0 7 1000 1000, .offer 0 8 1001 1001]

/-- A master that keeps calling `Routine` and offers nothing more. -/
theorem routine_leaves_unnotified : ∃ s s', Machine.exec step Machine.anyStep
    (Proc.start Unit (RingBuffer.openWrite none 8 true) none) twoOffers = some s ∧
    step s (.routine 1050 1050 [] 1050) = some s' ∧ s'.writers.map (fun w => w.ring.produceIdx) = [2] ∧
    ¬ ∀ w ∈ s'.writers, Flushed w.notifier 1050 :=
  ⟨_, _, rfl, rfl, rfl, fun h => absurd (h _ (List.mem_singleton.2 rfl)) (by decide)⟩

/-- The same master, when it returns within the interval. -/
theorem routine_flushes_iff_in_time : ∃ s s', Machine.exec step Machine.anyStep
    (Proc.start Unit (RingBuffer.openWrite none 8 true) none) twoOffers = some s ∧
    step s (.routine 1005 1005 [] 1005) = some s' ∧
    ((∀ w ∈ s'.writers, Flushed w.notifier 1005) ↔ Enough 1005 1005 1005 s) ∧ Enough 1005 1005 1005 s :=
  ⟨_, _, rfl, rfl, routine_flushes_iff _ none _ _ 1005 1005 1005 [] (Machine.reach_of_exec _ _ twoOffers _ rfl) rfl,
    fun w hw => by rw [List.mem_singleton.1 hw]; decide⟩

end Shm.Routine
