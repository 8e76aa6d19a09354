import ShmMultiproc.Lib.Worklist
import ShmMultiproc.Queue
import ShmMultiproc.Wake
/-!
# Drain — `DoWake` on a queue that its own functions feed

`DoWake` takes one function at a time from `wake_queue`, runs it and calls its `done`.  A function that calls `Wake` is
served in the same call of `DoWake`, after all that were queued before it; while it runs, its own slot is still INIT,
so that one slot less is to be had.  Delivered slots are reclaimed by the next `Offer` only: when the last functions
have filled the ring and none of them has called `Wake`, `TakeOne` finds nothing but CONSUMED slots and never returns.
`Drains` is the exact account, `doWake_iff` says that the code follows it.
-/
namespace Shm

open Cyclic (wrap Phase)
open RingBuffer
open Machine (Reach)

variable {α : Type}

/-! ## The code -/

/-- The calls of `Wake` that a function makes, in order; none of them looks at the answer. -/
def wakeAll : List α → RingBuffer α → Except Fault (RingBuffer α)
  | [], r => .ok r
  | func :: funcs, r =>
    match wake func r with
    | .error e => .error e
    | .ok (r', _) => wakeAll funcs r'

/-- The callback of `DoWake`, when running `func` calls `Wake` on `spawn func`. -/
def runFunc (spawn : α → List α) : Callback α
  -- `*func` on the NULL that `Get` answered: no such call is served
  | none, _, _ => .error .outOfRange
  | some func, done, r =>
    match wakeAll (spawn func) r with
    | .error e => .error e
    | .ok r' => done r'

/-- The loop of `DoWake`, within `fuel` iterations of its own and `takeFuel` of each `TakeOne(f, 0)`: the ring it leaves
and the functions it ran. -/
def doWake (spawn : α → List α) (takeFuel : Nat) : Nat → RingBuffer α → Except Fault (RingBuffer α × List (Option α))
  | 0, _ => .error .running
  | fuel + 1, r =>
    match take (runFunc spawn) 1 takeFuel r with
    | .error e => .error e
    | .ok t =>
      if t.count ≠ 1 then .ok (t.ring, t.items)
      else
        match doWake spawn takeFuel fuel t.ring with
        | .error e => .error e
        | .ok (r', items) => .ok (r', t.items ++ items)

/-! ## `Offer` leaves `consume_idx` alone -/

section

variable {r r' : RingBuffer α} {v : α}

theorem cleanPass_consumeIdx (r : RingBuffer α) (i : Nat) : cleanPass { r with consumeIdx := i } =
    (cleanPass r).map (fun p => match p with
      | .stop r' => .stop { r' with consumeIdx := i }
      | .again r' x => .again { r' with consumeIdx := i } x) := by
  unfold cleanPass
  simp only [size_mk, statusAt_mk]
  cases r.statusAt (wrap r.size r.cleanedIdx) with
  | none => rfl
  | some st => cases st <;> rfl

theorem cleanLoop_consumeIdx (i : Nat) : ∀ (fuel : Nat) (r r' : RingBuffer α) (xs : List (Option α)),
    cleanLoop fuel r = .ok (r', xs) → cleanLoop fuel { r with consumeIdx := i } = .ok ({ r' with consumeIdx := i }, xs)
  | 0, _, _, _, h => by cases h
  | fuel + 1, r, r', xs, h => by
    unfold cleanLoop at h ⊢
    rw [cleanPass_consumeIdx]
    cases hp : cleanPass r with
    | error e => rw [hp] at h; cases h
    | ok p =>
      rw [hp] at h
      cases p with
      | stop r₁ => cases h; rfl
      | again r₁ x =>
        simp only at h
        cases hl : cleanLoop fuel r₁ with
        | error e => rw [hl] at h; cases h
        | ok p =>
          obtain ⟨r₂, xs'⟩ := p
          rw [hl] at h
          cases h
          simp only [Except.map, cleanLoop_consumeIdx i fuel r₁ r' xs' hl]

theorem place_consumeIdx (v : α) (r : RingBuffer α) (i : Nat) : place v { r with consumeIdx := i } =
    (place v r).map (fun p => ({ p.1 with consumeIdx := i }, p.2)) := by
  unfold place
  simp only [size_mk, statusAt_mk]
  cases r.statusAt (wrap r.size r.produceIdx) with
  | none => rfl
  | some st => cases st <;> rfl

theorem offer_consumeIdx {o : Offered α} (i : Nat) (h : offer v r = .ok o) :
    offer v { r with consumeIdx := i } = .ok { o with ring := { o.ring with consumeIdx := i } } := by
  unfold offer at h
  cases hc : tryCleanConsumedItems r with
  | error e => rw [hc] at h; cases h
  | ok p =>
    obtain ⟨r₁, xs⟩ := p
    rw [hc] at h
    simp only at h
    cases hp : place v r₁ with
    | error e => rw [hp] at h; cases h
    | ok p =>
      rw [hp] at h
      cases h
      refine offer_of_place (cleanLoop_consumeIdx i _ r r₁ xs hc) ?_
      rw [place_consumeIdx, hp]
      rfl

theorem wakeAll_consumeIdx (i : Nat) : ∀ (funcs : List α) (r r' : RingBuffer α), wakeAll funcs r = .ok r' →
    wakeAll funcs { r with consumeIdx := i } = .ok { r' with consumeIdx := i }
  | [], r, r', h => by cases h; rfl
  | func :: funcs, r, r', h => by
    unfold wakeAll wake at h ⊢
    cases ho : offer func r with
    | error e => simp only [ho] at h; cases h
    | ok o =>
      simp only [ho] at h
      simp only [offer_consumeIdx i ho]
      exact wakeAll_consumeIdx i funcs o.ring r' h

end

/-! ## What one `TakeOne` does -/

/-- The functions that a running function gets into the queue: `q` are those waiting behind it. -/
def kept (N : Nat) (q funcs : List α) : List α := funcs.take (N - 1 - q.length)

/-- The slots in use afterwards: all delivered before it have been reclaimed, if it called `Wake` at all. -/
def usedAfter (N : Nat) (q funcs : List α) (u : Nat) : Nat :=
  if funcs = [] then u else q.length + 1 + (kept N q funcs).length

/-- **The ring of `wake_queue`**: `q` are the functions waiting, `u` slots are not CLEANED. -/
def Waits (N : Nat) (r : RingBuffer α) (q : List α) (u : Nat) : Prop :=
  ∃ acc c d, Holds N r acc c d ∧ q = acc.drop d ∧ u = acc.length - c

variable {N c d u : Nat} {r r' : RingBuffer α} {acc q : List α} {spawn : α → List α}

theorem Holds.wakeAll (hN : 0 < N) : ∀ (funcs : List α) (r : RingBuffer α) (acc : List α) (c : Nat),
    Holds N r acc c d → ∃ r', Shm.wakeAll funcs r = .ok r' ∧
      Holds N r' (acc ++ funcs.take (N - (acc.length - d))) (if funcs = [] then c else d) d
  | [], r, acc, c, h => ⟨r, rfl, by rw [List.take_nil, List.append_nil, if_pos rfl]; exact h⟩
  | func :: funcs, r, acc, c, h => by
    obtain ⟨o, ho, hcase⟩ := h.offer hN func
    have hc : (if funcs = [] then d else d) = d := ite_self d
    have hrun : ∀ r', Shm.wakeAll funcs o.ring = .ok r' → Shm.wakeAll (func :: funcs) r = .ok r' := by
      intro r' hr'
      unfold Shm.wakeAll wake
      simp only [ho]
      exact hr'
    rw [if_neg (List.cons_ne_nil func funcs)]
    rcases hcase with ⟨hroom, -, ho'⟩ | ⟨hroom, -, ho'⟩
    · obtain ⟨r', hr', h'⟩ := Holds.wakeAll hN funcs o.ring _ d ho'
      rw [hc, List.append_assoc, List.length_append, List.length_singleton] at h'
      refine ⟨r', hrun r' hr', ?_⟩
      have hlen := h.len
      rw [show N - (acc.length - d) = N - (acc.length + 1 - d) + 1 by omega, List.take_succ_cons]
      exact h'
    · obtain ⟨r', hr', h'⟩ := Holds.wakeAll hN funcs o.ring _ d ho'
      have hfull : N - (acc.length - d) = 0 := by omega
      rw [hc, hfull, List.take_zero] at h'
      rw [hfull, List.take_zero]
      exact ⟨r', hrun r' hr', h'⟩

theorem Waits.head {f : α} (h : Waits N r (f :: q) u) : ∃ acc c d, Holds N r acc c d ∧ d < acc.length ∧
    acc.drop (d + 1) = q ∧ u = acc.length - c ∧ wrap r.size r.consumeIdx = d % N ∧ r.statusAt (d % N) = some .init ∧
    r.get (d % N) = some f := by
  obtain ⟨acc, c, d, h, hq, hu⟩ := h
  have hd : d < acc.length := by
    by_contra hge
    rw [List.drop_of_length_le (by omega)] at hq
    cases hq
  rw [List.drop_eq_getElem_cons hd, List.cons.injEq] at hq
  obtain ⟨rfl, rfl⟩ := hq
  refine ⟨acc, c, d, h, hd, rfl, hu, ?_, h.queued d (Nat.le_refl d) hd, ?_⟩
  · rw [h.window.size, h.consume.wrap]
  · rw [h.window.get_eq h.le hd, List.getElem?_eq_getElem hd]

theorem Waits.run {f : α} (h : Waits N r (f :: q) u) (hN : 0 < N) (spawn : α → List α) :
    ∃ r', (∀ n, take (runFunc spawn) 1 (n + 1) r = .ok ⟨1, r', [some f]⟩) ∧
      Waits N r' (q ++ kept N q (spawn f)) (usedAfter N q (spawn f) u) := by
  obtain ⟨acc, c, d, hr, hd, rfl, hu, hw, hst, hget⟩ := h.head
  rw [← hw] at hst hget
  obtain ⟨r₁, hr₁, h₁⟩ := hr.wakeAll hN (spawn f)
  have hlen₁ : d < (acc ++ (spawn f).take (N - (acc.length - d))).length := by
    rw [List.length_append]; omega
  -- the callback runs after `consume_idx++`, and the calls of `Wake` do not look at it
  have hcb : runFunc spawn (r.get (wrap r.size r.consumeIdx)) (done (wrap r.size r.consumeIdx))
      { r with consumeIdx := wrap r.size r.consumeIdx + 1 } =
      .ok { r₁.setStatus (d % N) .consumed with consumeIdx := d % N + 1 } := by
    rw [hget]
    unfold runFunc
    simp only [wakeAll_consumeIdx _ _ _ _ hr₁, hw]
    exact done_init (r := { r₁ with consumeIdx := d % N + 1 }) (h₁.queued d (Nat.le_refl d) hlen₁)
  have hc := consumeItem_init 1 0 hst hcb
  rw [if_pos (by decide), hget] at hc
  refine ⟨_, fun n => takeLoop_stop hc (by simp) n, _, _, d + 1, h₁.deliver hlen₁ hN, ?_, ?_⟩
  · rw [List.drop_append_of_le_length hd]
    unfold kept
    rw [List.length_drop, show N - (acc.length - d) = N - 1 - (acc.length - (d + 1)) by omega]
  · unfold usedAfter kept
    rw [List.length_append, List.length_drop, show N - (acc.length - d) = N - 1 - (acc.length - (d + 1)) by omega]
    split
    · rename_i he
      rw [he, List.take_nil, List.length_nil]
      exact hu
    · have := hr.len
      omega

theorem Waits.cleaned (h : Waits N r [] u) (hu : u < N) : r.statusAt (wrap r.size r.consumeIdx) = some .cleaned := by
  obtain ⟨acc, c, d, h, hq, rfl⟩ := h
  have hd : d = acc.length := Nat.le_antisymm h.len (List.drop_eq_nil_iff.1 hq.symm)
  subst hd
  have hle := h.window.le
  rw [h.window.size, h.consume.wrap]
  exact h.window.free _ (Nat.le_refl _) (by omega)

theorem Waits.wrapped (hN : 0 < N) (h : Waits N r q u) :
    Waits N { r with consumeIdx := wrap r.size r.consumeIdx } q u := by
  obtain ⟨acc, c, d, h, hq, hu⟩ := h
  refine ⟨acc, c, d, { h with window := h.window.of_slots rfl, consume := ?_ }, hq, hu⟩
  rw [h.window.size]
  exact h.consume.wrapped hN

theorem Waits.empty (hN : 0 < N) (h : Waits N r [] u) (hu : u < N) (cb : Callback α) :
    ∃ r', (∀ n, take cb 1 (n + 1) r = .ok ⟨0, r', []⟩) ∧ Waits N r' [] u :=
  ⟨_, fun n => takeLoop_stop (consumeItem_cleaned cb 1 0 (h.cleaned hu)) (by simp) n, h.wrapped hN⟩

theorem takeLoop_consumed (cb : Callback α) (max : Int) : ∀ (fuel counter : Nat) (r : RingBuffer α), 0 < r.size →
    (∀ i < r.size, r.statusAt i = some .consumed) → takeLoop cb max fuel counter r = .error .running
  | 0, _, _, _, _ => rfl
  | fuel + 1, counter, r, hN, h => by
    have hst := h _ (Cyclic.wrap_lt hN r.consumeIdx)
    rw [takeLoop_cont (consumeItem_consumed cb max counter hst),
      takeLoop_consumed cb max fuel counter { r with consumeIdx := wrap r.size r.consumeIdx + 1 } hN h]
    rfl

/-- **An empty queue on a ring without a CLEANED slot spins.** -/
theorem Waits.spins (hN : 0 < N) (h : Waits N r [] u) (hu : ¬ u < N) (cb : Callback α) (n : Nat) :
    take cb 1 n r = .error .running := by
  obtain ⟨acc, c, d, h, hq, rfl⟩ := h
  have hlen := List.drop_eq_nil_iff.1 hq.symm
  refine takeLoop_consumed cb 1 n 0 r (by rw [h.window.size]; exact hN) (fun i hi => ?_)
  rw [h.window.size] at hi
  obtain ⟨k, hk, hk', rfl⟩ := Cyclic.exists_window c hi
  exact h.done k hk (by omega)

/-! ## What a call of `DoWake` does -/

/-- **What `DoWake` is to run**, from a queue `q` with `u` slots in use: the functions of `ran`, in this order, with `u'`
slots in use when it returns.  There is no way to return for an empty queue with all `N` slots in use. -/
inductive Drains (N : Nat) (spawn : α → List α) : List α → Nat → List α → Nat → Prop
  | empty {u : Nat} : u < N → Drains N spawn [] u [] u
  | run {f : α} {q ran : List α} {u u' : Nat} :
    Drains N spawn (q ++ kept N q (spawn f)) (usedAfter N q (spawn f) u) ran u' → Drains N spawn (f :: q) u (f :: ran) u'

theorem doWake_stop {n : Nat} (h : take (runFunc spawn) 1 n r = .ok ⟨0, r', []⟩) (fuel : Nat) :
    doWake spawn n (fuel + 1) r = .ok (r', []) := by
  unfold doWake
  simp only [h]
  rw [if_pos (by decide)]

theorem doWake_next {n : Nat} {f : α} (h : take (runFunc spawn) 1 n r = .ok ⟨1, r', [some f]⟩) (fuel : Nat) :
    doWake spawn n (fuel + 1) r = (doWake spawn n fuel r').map (fun p => (p.1, some f :: p.2)) := by
  rw [doWake]
  simp only [h]
  rw [if_neg (by decide)]
  cases doWake spawn n fuel r' <;> rfl

/-- **A call that returns has run what it is to run**, by induction on its iterations. -/
theorem Waits.drains (hN : 0 < N) (n : Nat) : ∀ (fuel : Nat) (r r' : RingBuffer α) (q : List α) (u : Nat)
    (items : List (Option α)), Waits N r q u → doWake spawn n fuel r = .ok (r', items) →
    ∃ ran u', items = ran.map some ∧ Drains N spawn q u ran u' ∧ Waits N r' [] u'
  | 0, _, _, _, _, _, _, hd => by cases hd
  | fuel + 1, r, r', q, u, items, h, hd => by
    cases n with
    | zero => cases hd
    | succ n =>
      cases q with
      | nil =>
        by_cases hu : u < N
        · obtain ⟨r₁, ht, h₁⟩ := h.empty hN hu (runFunc spawn)
          rw [doWake_stop (ht n)] at hd
          cases hd
          exact ⟨[], u, rfl, .empty hu, h₁⟩
        · unfold doWake at hd
          rw [h.spins hN hu] at hd
          cases hd
      | cons f q =>
        obtain ⟨r₁, ht, h₁⟩ := h.run hN spawn
        rw [doWake_next (ht n)] at hd
        cases hrest : doWake spawn (n + 1) fuel r₁ with
        | error e => rw [hrest] at hd; cases hd
        | ok p =>
          obtain ⟨r₂, items'⟩ := p
          rw [hrest] at hd
          cases hd
          obtain ⟨ran, u', rfl, hran, h'⟩ := Waits.drains hN (n + 1) fuel r₁ r₂ _ _ items' h₁ hrest
          exact ⟨f :: ran, u', rfl, .run hran, h'⟩

theorem Drains.returns {ran : List α} {u' : Nat} (hN : 0 < N) (hd : Drains N spawn q u ran u') :
    ∀ r, Waits N r q u → ∃ r' fuel, (∀ n, doWake spawn (n + 1) fuel r = .ok (r', ran.map some)) ∧ Waits N r' [] u' := by
  induction hd with
  | empty hu =>
    intro r h
    obtain ⟨r', ht, h'⟩ := h.empty hN hu (runFunc spawn)
    exact ⟨r', 1, fun n => doWake_stop (ht n) 0, h'⟩
  | run _ ih =>
    intro r h
    obtain ⟨r₁, ht, h₁⟩ := h.run hN spawn
    obtain ⟨r', fuel, hrun, h'⟩ := ih r₁ h₁
    refine ⟨r', fuel + 1, fun n => ?_, h'⟩
    rw [doWake_next (ht n), hrun n]
    rfl

theorem Drains.lt {ran : List α} {u' : Nat} (hd : Drains N spawn q u ran u') : u' < N := by
  induction hd with
  | empty hu => exact hu
  | run _ ih => exact ih

/-- **While all that there is fits, none is refused**: the calls of `DoWake` follow the unbounded queue. -/
theorem drains_of_runs {weight : α → Nat} {ran : List α} (h : Worklist.Runs spawn q ran) :
    Worklist.Shrinks weight spawn q → ∀ u, u < N → Worklist.total weight q < N → ∃ u', Drains N spawn q u ran u' := by
  induction h with
  | nil => exact fun _ u hu _ => ⟨u, .empty hu⟩
  | @cons f q ran _ ih =>
    intro hw u hu hq
    have hlt := hw.run_lt
    have hlen := hw.run.length_le
    rw [List.length_append] at hlen
    have hall : kept N q (spawn f) = spawn f := List.take_of_length_le (by omega)
    have hused : usedAfter N q (spawn f) u < N := by
      unfold usedAfter
      split
      · exact hu
      · have hf := List.length_pos_of_ne_nil ‹_›
        rw [hall]
        omega
    obtain ⟨u', hd⟩ := ih hw.run _ hused (by omega)
    exact ⟨u', .run (by rw [hall]; exact hd)⟩

theorem drains_quiet : ∀ {q ran : List α} {u u' : Nat}, (∀ f ∈ q, spawn f = []) → Drains N spawn q u ran u' →
    u < N ∧ ran = q ∧ u' = u
  | [], _, _, _, _, .empty hu => ⟨hu, rfl, rfl⟩
  | f :: q, _ :: ran, u, u', hq, .run h => by
    have hf : spawn f = [] := hq f List.mem_cons_self
    rw [hf, show kept N q ([] : List α) = [] from List.take_nil, List.append_nil,
      show usedAfter N q ([] : List α) u = u from if_pos rfl] at h
    obtain ⟨hu, rfl, rfl⟩ := drains_quiet (fun g hg => hq g (List.mem_cons_of_mem f hg)) h
    exact ⟨hu, rfl, rfl⟩

/-! ## Any sequence of calls of the poller's thread -/

/-- A call of `Wake` from outside the functions run, or of `DoWake`. -/
inductive WakeCall (α : Type) where
  | wake (func : α)
  | doWake (takeFuel fuel : Nat)
  deriving DecidableEq, Repr

/-- The call on the ring of `wake_queue`; `none` when it does not return. -/
def wakeStep (spawn : α → List α) (r : RingBuffer α) : WakeCall α → Option (RingBuffer α)
  | .wake func => (wake func r).toOption.map Prod.fst
  | .doWake takeFuel fuel => (doWake spawn takeFuel fuel r).toOption.map Prod.fst

theorem Waits.start (N : Nat) : Waits N (openWrite none N true) ([] : List α) 0 := ⟨[], 0, 0, .start N, rfl, rfl⟩

theorem Waits.wake (hN : 0 < N) (h : Waits N r q u) (func : α) : ∃ r', Shm.wake func r = .ok (r', 0) ∧
    Waits N r' (q ++ [func].take (N - q.length)) (q ++ [func].take (N - q.length)).length := by
  obtain ⟨acc, c, d, h, rfl, -⟩ := h
  obtain ⟨o, ho, hcase⟩ := h.offer hN func
  refine ⟨o.ring, ?_⟩
  have hwake : Shm.wake func r = .ok (o.ring, 0) := by
    unfold Shm.wake wakeResult
    simp only [ho]
  rw [List.length_drop]
  rcases hcase with ⟨hroom, -, h'⟩ | ⟨hroom, -, h'⟩
  · rw [List.take_of_length_le (by rw [List.length_singleton]; omega)]
    refine ⟨hwake, acc ++ [func], d, d, h', (List.drop_append_of_le_length h.len).symm, ?_⟩
    rw [← List.drop_append_of_le_length h.len, List.length_drop]
  · rw [show N - (acc.length - d) = 0 by omega, List.take_zero, List.append_nil]
    exact ⟨hwake, acc, d, d, h', rfl, List.length_drop⟩

theorem waits_reach (hN : 0 < N) (h : Reach (wakeStep spawn) Machine.anyStep (openWrite none N true) r) :
    ∃ q u, Waits N r q u := by
  refine h.invariant (I := fun r => ∃ q u, Waits N r q u) ⟨[], 0, .start N⟩ (fun r a r' _ hi _ hs => ?_)
  obtain ⟨q, u, hi⟩ := hi
  cases a with
  | wake func =>
    obtain ⟨r₁, hr, h₁⟩ := hi.wake hN func
    simp only [wakeStep, hr] at hs
    cases hs
    exact ⟨_, _, h₁⟩
  | doWake takeFuel fuel =>
    simp only [wakeStep] at hs
    cases hd : doWake spawn takeFuel fuel r with
    | error e => rw [hd] at hs; cases hs
    | ok p =>
      obtain ⟨r₁, items⟩ := p
      rw [hd] at hs
      cases hs
      obtain ⟨ran, u', -, -, h'⟩ := Waits.drains hN takeFuel fuel r r₁ q u items hi hd
      exact ⟨[], u', h'⟩

/-- **`DoWake` returns exactly when its queue drains**, and has then run what the account of the queue says, in its
order: after any calls of `Wake` and `DoWake`, whatever the functions run wake in their turn. -/
theorem doWake_iff (N : Nat) (hN : 0 < N) (spawn : α → List α) (r : RingBuffer α)
    (h : Reach (wakeStep spawn) Machine.anyStep (openWrite none N true) r) : ∃ q u, Waits N r q u ∧ ∀ items,
      (∃ takeFuel fuel r', doWake spawn takeFuel fuel r = .ok (r', items)) ↔
        ∃ ran u', items = ran.map some ∧ Drains N spawn q u ran u' := by
  obtain ⟨q, u, hw⟩ := waits_reach hN h
  refine ⟨q, u, hw, fun items => ⟨?_, ?_⟩⟩
  · rintro ⟨takeFuel, fuel, r', hd⟩
    obtain ⟨ran, u', rfl, hran, -⟩ := Waits.drains hN takeFuel fuel r r' q u items hw hd
    exact ⟨ran, u', rfl, hran⟩
  · rintro ⟨ran, u', rfl, hran⟩
    obtain ⟨r', fuel, hrun, -⟩ := hran.returns hN r hw
    exact ⟨1, fuel, r', hrun 0⟩

/-- **All that is queued and all that it wakes is run breadth first**, once each, when the functions that there can be
are fewer than the slots and a slot is CLEANED. -/
theorem doWake_breadth_first (N : Nat) (hN : 0 < N) (spawn : α → List α) (weight : α → Nat) (r : RingBuffer α)
    (q : List α) (hw : Worklist.Shrinks weight spawn q) (u : Nat) (h : Waits N r q u) (hu : u < N)
    (hq : Worklist.total weight q < N) : ∃ ran r' fuel u', (∀ n, doWake spawn (n + 1) fuel r = .ok (r', ran.map some)) ∧
      Worklist.Runs spawn q ran ∧ ran = q ++ ran.flatMap spawn ∧ ran.length ≤ Worklist.total weight q ∧
      Waits N r' [] u' ∧ u' < N := by
  obtain ⟨ran, hran, hlen⟩ := Worklist.exists_runs _ q hw (Nat.le_refl _)
  obtain ⟨u', hd⟩ := drains_of_runs hran hw u hu hq
  obtain ⟨r', fuel, hrun, h'⟩ := hd.returns hN r h
  exact ⟨ran, r', fuel, u', hrun, hran, hran.eq, hlen, h', hd.lt⟩

/-- Function 1 wakes 2, 3 and 4; the others wake nothing. -/
def wakesThree : Nat → List Nat
  | 1 => [2, 3, 4]
  | _ => []

/-- On three slots the call for 4 finds the ring full, and the loop does not return. -/
theorem doWake_iff_fed : ∃ r, Machine.exec (wakeStep wakesThree) Machine.anyStep (openWrite none 3 true)
    [.wake 0, .wake 5, .doWake 1 3, .wake 1] = some r ∧ ∃ q u, Waits 3 r q u ∧ ∀ items,
      (∃ takeFuel fuel r', doWake wakesThree takeFuel fuel r = .ok (r', items)) ↔
        ∃ ran u', items = ran.map some ∧ Drains 3 wakesThree q u ran u' := by
  obtain ⟨r, he⟩ : ∃ r, Machine.exec (wakeStep wakesThree) Machine.anyStep (openWrite none 3 true)
    [.wake 0, .wake 5, .doWake 1 3, .wake 1] = some r := ⟨_, rfl⟩
  exact ⟨r, he, doWake_iff 3 (by decide) wakesThree r (Machine.reach_of_exec _ _ _ _ he)⟩

theorem doWake_breadth_first_fed : ∃ r, wake 1 (openWrite none 5 true) = .ok (r, 0) ∧ ∃ ran r' fuel u',
    (∀ n, doWake wakesThree (n + 1) fuel r = .ok (r', ran.map some)) ∧ Worklist.Runs wakesThree [1] ran ∧
      ran = [1] ++ ran.flatMap wakesThree ∧ ran.length ≤ 4 ∧ Waits 5 r' [] u' ∧ u' < 5 := by
  obtain ⟨r, hr, h⟩ := (Waits.start 5).wake (by decide) 1
  refine ⟨r, hr, doWake_breadth_first 5 (by decide) wakesThree (fun f => if f = 1 then 4 else 1) r [1] (fun f _ => ?_) 1 h
    (by decide) (by decide)⟩
  by_cases hf : f = 1
  · subst hf; decide
  · have hnone : wakesThree f = [] := by
      unfold wakesThree
      split
      · exact absurd rfl hf
      · rfl
    rw [hnone]
    show 0 < if f = 1 then 4 else 1
    rw [if_neg hf]
    exact Nat.zero_lt_one

/-- **As many functions as slots hang the loop**: when the first `N` functions woken wake nothing themselves, `DoWake`
runs them all, finds every slot CONSUMED and never returns. -/
theorem full_wake_queue_hangs (N : Nat) (hN : 0 < N) (spawn : α → List α) (funcs : List α) (hlen : N ≤ funcs.length)
    (hq : ∀ f ∈ funcs.take N, spawn f = []) : ∃ r, wakeAll funcs (openWrite none N true) = .ok r ∧
      ∀ takeFuel fuel p, doWake spawn takeFuel fuel r ≠ .ok p := by
  obtain ⟨r, hr, h⟩ := (Holds.start (α := α) N).wakeAll hN funcs
  rw [List.nil_append, List.length_nil, Nat.zero_sub, Nat.sub_zero, ite_self] at h
  refine ⟨r, hr, fun takeFuel fuel p hd => ?_⟩
  have hw : Waits N r (funcs.take N) N := ⟨_, 0, 0, h, rfl, by rw [List.length_take]; omega⟩
  obtain ⟨ran, u', -, hran, -⟩ := Waits.drains hN takeFuel fuel r p.1 _ _ p.2 hw hd
  exact Nat.lt_irrefl N (drains_quiet hq hran).1

theorem full_wake_queue_hangs_two : ∃ r, wakeAll [2, 3] (openWrite none 2 true) = .ok r ∧
    ∀ takeFuel fuel p, doWake wakesThree takeFuel fuel r ≠ .ok p :=
  full_wake_queue_hangs 2 (by decide) wakesThree [2, 3] (by decide) (by decide)

end Shm
