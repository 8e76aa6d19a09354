import Mathlib.Algebra.Group.Int.Defs
import ShmMultiproc.Pass
/-!
# Sleep — `Poll` does not sleep past a timer

`Poll` hands to `epoll_wait` the wait its caller asks for, but no more than `nearest_timertask_interval`, the last answer
of `TriggerExpiredTimerTasks`.  The comparison is one of `uint64_t`, so a negative wait is cut as well; the argument of
`epoll_wait` is an `int`, so an interval of `2^31` ms can come out negative, which is no bound at all.  The answer is
counted from the reading at which that call began, and the thread comes to `epoll_wait` later: a timer is late by what
the thread does outside `epoll_wait`, and by no more (`punctual`).
-/
namespace Shm

open Machine (Reach)
open Buckets (keys Sorted)

/-! ## The code -/

/-- An `int64_t` as `uint64_t`. -/
def toUInt64 (n : Int) : Nat := (n % 2 ^ 64).toNat

/-- The timeout that `Poll` hands to `epoll_wait`: the `int64_t` is cut to an `int`. -/
def epollTimeout (nearest : Nat) (maxwaitMs : Int) : Int :=
  if 0 < nearest ∧ nearest < toUInt64 maxwaitMs then Int.bmod (Int.bmod nearest (2 ^ 64)) (2 ^ 32)
  else Int.bmod maxwaitMs (2 ^ 32)

/-- Where `Poll` stands: between two calls, in `epoll_wait`, at the events, or in `TriggerExpiredTimerTasks`; with the
times at which the thread entered `epoll_wait` and left it. -/
inductive PollPc where
  | out
  | asleep (since : Nat) (timeout : Int)
  | serving (since woke : Nat)
  | expiring
  deriving DecidableEq, Repr

/-- At the time `now` the thread may still be where it is: `epoll_wait` overruns a timeout by `slack` at most. -/
def PollPc.lasts (slack now : Nat) : PollPc → Prop
  | .asleep since timeout => 0 ≤ timeout → (now : Int) ≤ since + timeout + slack
  | .out | .serving _ _ | .expiring => True

instance (slack now : Nat) (pc : PollPc) : Decidable (pc.lasts slack now) :=
  match pc with
  | .asleep since timeout => inferInstanceAs (Decidable (0 ≤ timeout → (now : Int) ≤ since + timeout + slack))
  | .out | .serving _ _ | .expiring => .isTrue trivial

/-- The `Poll` of a call of `TriggerExpiredTimerTasks`: `seen` is the reading at which the call before began, and `known`
the keys that were queued in `epoll_wait`. -/
structure Nap where
  since : Nat
  woke : Nat
  seen : Nat
  known : List Nat
  deriving DecidableEq, Repr

def Nap.awake (nap : Nap) (now : Nat) : Nat := (nap.since - nap.seen) + (now - nap.woke)

/-- A poller and its timers at the time `clock`, with the reading `seen` at which `TriggerExpiredTimerTasks` was last
called, the keys that were queued in `epoll_wait`, and the `Poll` of each call. -/
structure Poller where
  timers : Timers
  nearest : Nat
  pc : PollPc
  clock : Nat
  seen : Nat
  known : List Nat
  naps : Nat → Option Nap

namespace Poller

def start : Poller := ⟨Timers.start, 0, .out, 0, 0, [], fun _ => none⟩

/-- `tick` lets time pass; whatever else is done is done at the time `clock`. -/
inductive Act where
  | tick (now : Nat)
  | poll (maxwaitMs : Int)
  | wake
  | timers (a : Timers.Act)
  | ret
  deriving DecidableEq, Repr

def withTimers (p : Poller) (a : Timers.Act) : Option Poller :=
  (Timers.step p.timers a).map (fun t => { p with timers := t })

/-- `TriggerExpiredTimerTasks` is called, in the `Poll` that slept from `since` to `woke`. -/
def withTrigger (p : Poller) (since woke now : Nat) : Option Poller :=
  (Timers.step p.timers (.trigger now)).map (fun t => { p with
    timers := t
    pc := .expiring
    seen := now
    naps := Function.update p.naps t.calls (some ⟨since, woke, p.seen, p.known⟩) })

/-- A step of `Poll`: the closures of `AddTimerTask` and `CancelTimerTask` are run among the events. -/
def step (p : Poller) : Act → Option Poller
  | .tick now => some { p with clock := now }
  | .poll maxwaitMs =>
    match p.pc with
    | .out => some { p with
        pc := .asleep p.clock (epollTimeout p.nearest maxwaitMs), known := keys p.timers.timerTaskQueue }
    | _ => none
  | .wake =>
    match p.pc with
    | .asleep since _ => some { p with pc := .serving since p.clock }
    | _ => none
  | .timers a =>
    match p.pc, a with
    | .serving _ _, .add addr id now afterMs repeate => p.withTimers (.add addr id now afterMs repeate)
    | .serving _ _, .cancel id => p.withTimers (.cancel id)
    | .serving since woke, .trigger now => p.withTrigger since woke now
    | .expiring, .step t => p.withTimers (.step t)
    | _, _ => none
  | .ret =>
    match p.pc, p.timers.pc with
    | .expiring, .returned _ res => some { p with nearest := res, pc := .out }
    | _, _ => none

/-! ## What the runs are asked, and what they give -/

/-- **The time does not go back**, and no `Poll` begins when the next timer is `2^31` ms away or more. -/
def Timely (slack : Nat) (p : Poller) : Act → Prop
  | .tick now => p.clock ≤ now ∧ p.pc.lasts slack now
  | .poll maxwaitMs => p.nearest < 2 ^ 31 ∧ -2 ^ 63 ≤ maxwaitMs ∧ maxwaitMs < 2 ^ 63
  | .timers (.trigger now) => Timers.Proper p.timers (.trigger now) ∧ now = p.clock
  | .timers (.step t) => Timers.Proper p.timers (.step t) ∧ t = p.clock
  | .timers (.add addr id now afterMs repeate) => Timers.Proper p.timers (.add addr id now afterMs repeate)
  | .timers (.cancel _) | .wake | .ret => True

instance (slack : Nat) (p : Poller) (a : Act) : Decidable (Timely slack p a) :=
  match a with
  | .tick _ | .timers (.trigger _) | .timers (.step _) => inferInstanceAs (Decidable (_ ∧ _))
  | .poll _ => inferInstanceAs (Decidable (_ ∧ _ ∧ _))
  | .timers (.add addr id now afterMs r) => inferInstanceAs (Decidable (Timers.Proper p.timers (.add addr id now afterMs r)))
  | .timers (.cancel _) => .isTrue trivial
  | .wake | .ret => .isTrue trivial

/-- **No timer is slept past**: while the thread is in `epoll_wait` with a timer queued, there is a timeout and it ends when
the timer is due or no later than the thread's own time after it; what is invoked and was queued then is late by the
thread's own time and `slack`; and when `Poll` returns nothing is queued that was due at its reading. -/
structure Punctual (slack : Nat) (p : Poller) : Prop where
  sleep : ∀ since timeout, p.pc = .asleep since timeout → ∀ k ∈ keys p.timers.timerTaskQueue,
    0 ≤ timeout ∧ (since : Int) + timeout ≤ k + (since - p.seen)
  late : ∀ n now id key, .invoked n now id key ∈ p.timers.log → ∃ nap, p.naps n = some nap ∧
    (key ∈ nap.known → now ≤ key + slack + nap.awake now)
  caughtUp : p.pc = .out → ∀ k ∈ keys p.timers.timerTaskQueue, p.seen < k

/-! ## The timeout -/

/-- **A timeout below the answer of the last call**, whatever wait is asked for: the answer fits an `int`. -/
theorem epollTimeout_le {nearest : Nat} {maxwaitMs : Int} (h : 0 < nearest) (hlt : nearest < 2 ^ 31)
    (hmin : -2 ^ 63 ≤ maxwaitMs) (hmax : maxwaitMs < 2 ^ 63) :
    0 ≤ epollTimeout nearest maxwaitMs ∧ epollTimeout nearest maxwaitMs ≤ nearest := by
  unfold epollTimeout toUInt64
  split
  · have h64 : Int.bmod nearest (2 ^ 64) = nearest := Int.bmod_eq_of_le (by omega) (by omega)
    have h32 : Int.bmod nearest (2 ^ 32) = nearest := Int.bmod_eq_of_le (by omega) (by omega)
    rw [h64, h32]
    omega
  · rename_i hle
    rw [Int.bmod_eq_of_le (by omega) (by omega)]
    omega

/-- A timer `2^31` ms away: the timeout asked for is cut to one that never ends. -/
example : epollTimeout (2 ^ 31) (2 ^ 40) = -2 ^ 31 := by decide

end Poller

/-! ## The steps of the timers -/

def TriggerPc.reads (now : Nat) : TriggerPc → Prop
  | .loop n | .bucket n _ _ | .returned n _ => n = now
  | .idle => False

namespace Timers

variable {s s' : Timers} {now t : Nat}

/-- **A closure invokes nothing** and is no call. -/
structure Closes (s s' : Timers) : Prop where
  log : ∀ n now id key, .invoked n now id key ∈ s'.log → .invoked n now id key ∈ s.log
  calls : s'.calls = s.calls

theorem closes_of_log {e : TimerEvent} (hlog : s'.log = s.log ++ [e]) (he : ∀ n now id key, e ≠ .invoked n now id key)
    (hcalls : s'.calls = s.calls) : Closes s s' :=
  ⟨fun n now id key hm => mem_of_concat (hlog ▸ hm) (he n now id key).symm, hcalls⟩

theorem closes_add {addr id afterMs : Nat} {repeate : Bool} (hs : step s (.add addr id now afterMs repeate) = some s') :
    Closes s s' := by
  simp only [step] at hs
  split at hs
  · cases hs
    exact closes_of_log rfl (by simp) rfl
  · cases hs

theorem closes_cancel {id : Nat} (hs : step s (.cancel id) = some s') : Closes s s' := by
  simp only [step] at hs
  split at hs
  · unfold runCancelTimerTask at hs
    split at hs
    · cases hs
      exact closes_of_log rfl (by simp) rfl
    · split at hs
      · cases hs
      · cases hs
        exact closes_of_log rfl (by simp) rfl
  · cases hs

/-- **A step of a call** invokes for this call and at its reading. -/
structure Calls (now : Nat) (s s' : Timers) : Prop where
  reads : s'.pc.reads now
  calls : s'.calls = s.calls
  log : ∀ n now' id key, .invoked n now' id key ∈ s'.log → .invoked n now' id key ∈ s.log ∨ (n = s.calls ∧ now' = now)

theorem calls_step (hr : s.pc.reads now) (hs : step s (.step t) = some s') : Calls now s s' := by
  simp only [step] at hs
  split at hs
  · cases hs
  · cases hs
  · rename_i n hpc
    rw [hpc] at hr
    cases hr
    cases hs
    unfold nextBucket
    split
    · exact ⟨rfl, rfl, fun _ _ _ _ hm => .inl hm⟩
    · split <;> exact ⟨rfl, rfl, fun _ _ _ _ hm => .inl hm⟩
  · rename_i n key hpc
    rw [hpc] at hr
    cases hs
    exact ⟨hr, rfl, fun _ _ _ _ hm => .inl hm⟩
  · rename_i n key a todo hpc
    rw [hpc] at hr
    cases hr
    unfold runTask at hs
    simp only at hs
    have hinv : ∀ {log : List TimerEvent} {c id₀ n now' id key'},
        .invoked n now' id key' ∈ log ++ [.invoked c now id₀ key] →
        .invoked n now' id key' ∈ log ∨ (n = c ∧ now' = now) := by
      intro log c id₀ n now' id key' hm
      rcases List.mem_append.1 hm with hm | hm
      · exact .inl hm
      · cases List.mem_singleton.1 hm
        exact .inr ⟨rfl, rfl⟩
    split at hs
    · cases hs
    · split at hs
      · split at hs <;> cases hs <;> exact ⟨rfl, rfl, fun _ _ _ _ hm => hinv hm⟩
      · cases hs
        exact ⟨rfl, rfl, fun _ _ _ _ hm => .inl hm⟩

theorem Answers.le {res : Nat} (h : Answers s now res) (hsort : Sorted s.timerTaskQueue) {k : Nat}
    (hk : k ∈ keys s.timerTaskQueue) : 0 < res ∧ now + res ≤ k := by
  have hlt := h.notDue k hk
  cases hq : s.timerTaskQueue with
  | nil => rw [hq] at hk; cases hk
  | cons e q =>
    obtain ⟨key, xs⟩ := e
    rw [hq] at hsort
    have hhead : ∀ k' ∈ keys s.timerTaskQueue, key ≤ k' := by
      rw [hq]
      exact fun k' hk' => hsort.head_le hk'
    have hmem : key ∈ keys s.timerTaskQueue := by
      rw [hq]
      exact List.mem_cons_self
    have hnow := h.notDue key hmem
    have hres := h.least key hmem hhead
    have hle := hhead k hk
    omega

end Timers

/-! ## The invariant -/

/-- The thread is between two calls or in `epoll_wait`, where nothing touches the queue. -/
def PollPc.rests : PollPc → Prop
  | .out | .asleep _ _ => True
  | .serving _ _ | .expiring => False

namespace Poller

/-- **What is known of a poller at each place of `Poll`.** -/
structure Inv (slack : Nat) (p : Poller) : Prop where
  timers : Reach Timers.step Timers.Proper Timers.start p.timers
  past : p.seen ≤ p.clock
  rests : p.pc.rests → ∀ k ∈ keys p.timers.timerTaskQueue, 0 < p.nearest ∧ p.seen + p.nearest ≤ k
  asleep : ∀ since timeout, p.pc = .asleep since timeout → p.seen ≤ since ∧ p.known = keys p.timers.timerTaskQueue ∧
    p.pc.lasts slack p.clock ∧
    ∀ k ∈ keys p.timers.timerTaskQueue, 0 ≤ timeout ∧ (since : Int) + timeout ≤ k + (since - p.seen)
  serving : ∀ since woke, p.pc = .serving since woke → p.seen ≤ since ∧ woke ≤ p.clock ∧
    ∀ k ∈ p.known, woke ≤ k + slack + (since - p.seen)
  expiring : p.pc = .expiring → p.timers.pc.reads p.seen ∧ ∃ nap, p.naps p.timers.calls = some nap ∧
    ∀ k ∈ nap.known, p.seen ≤ k + slack + nap.awake p.seen
  late : ∀ n now id key, .invoked n now id key ∈ p.timers.log → ∃ nap, p.naps n = some nap ∧
    (key ∈ nap.known → now ≤ key + slack + nap.awake now)

namespace Inv

variable {slack : Nat} {p p' : Poller}

theorem start (slack : Nat) : Inv slack Poller.start where
  timers := .init
  past := Nat.le_refl 0
  rests _ _ hk := by cases hk
  asleep _ _ h := by cases h
  serving _ _ h := by cases h
  expiring h := by cases h
  late _ _ _ _ hm := absurd hm List.not_mem_nil

theorem tick {now : Nat} (h : Inv slack p) (hg : Timely slack p (.tick now)) : Inv slack { p with clock := now } where
  timers := h.timers
  past := h.past.trans hg.1
  rests := h.rests
  asleep since timeout hpc := by
    obtain ⟨hseen, hknown, -, hk⟩ := h.asleep since timeout hpc
    exact ⟨hseen, hknown, hg.2, hk⟩
  serving since woke hpc := by
    obtain ⟨hseen, hwoke, hk⟩ := h.serving since woke hpc
    exact ⟨hseen, hwoke.trans hg.1, hk⟩
  expiring := h.expiring
  late := h.late

theorem poll {maxwaitMs : Int} (h : Inv slack p) (hpc : p.pc = .out) (hg : Timely slack p (.poll maxwaitMs)) :
    Inv slack { p with
      pc := .asleep p.clock (epollTimeout p.nearest maxwaitMs), known := keys p.timers.timerTaskQueue } where
  timers := h.timers
  past := h.past
  rests _ := h.rests (by rw [hpc]; trivial)
  asleep since timeout he := by
    cases he
    have hpast := h.past
    refine ⟨hpast, rfl, fun h0 => ?_, fun k hk => ?_⟩
    · show (p.clock : Int) ≤ p.clock + epollTimeout p.nearest maxwaitMs + slack
      omega
    · obtain ⟨hpos, hle⟩ := h.rests (by rw [hpc]; trivial) k hk
      obtain ⟨hmin, hmax⟩ := epollTimeout_le hpos hg.1 hg.2.1 hg.2.2
      refine ⟨hmin, ?_⟩
      show (p.clock : Int) + epollTimeout p.nearest maxwaitMs ≤ k + (p.clock - p.seen)
      omega
  serving _ _ he := by cases he
  expiring he := by cases he
  late := h.late

theorem wake {since : Nat} {timeout : Int} (h : Inv slack p) (hpc : p.pc = .asleep since timeout) :
    Inv slack { p with pc := .serving since p.clock } where
  timers := h.timers
  past := h.past
  rests he := he.elim
  asleep _ _ he := by cases he
  serving since' woke he := by
    cases he
    obtain ⟨hseen, hknown, hlast, hk⟩ := h.asleep since timeout hpc
    refine ⟨hseen, Nat.le_refl _, fun k hm => ?_⟩
    rw [hknown] at hm
    obtain ⟨hmin, hle⟩ := hk k hm
    rw [hpc] at hlast
    have hclock := hlast hmin
    show p.clock ≤ k + slack + (since - p.seen)
    omega
  expiring he := by cases he
  late := h.late

theorem closure {since woke : Nat} {a : Timers.Act} {t : Timers} (h : Inv slack p) (hpc : p.pc = .serving since woke)
    (hg : Timers.Proper p.timers a) (hs : Timers.step p.timers a = some t) (hc : Timers.Closes p.timers t) :
    Inv slack { p with timers := t } where
  timers := .next h.timers hg hs
  past := h.past
  rests he := by
    have he : p.pc.rests := he
    rw [hpc] at he
    exact he.elim
  asleep _ _ he := by cases hpc.symm.trans he
  serving := h.serving
  expiring he := by cases hpc.symm.trans he
  late n now id key hm := h.late n now id key (hc.log n now id key hm)

theorem trigger {since woke : Nat} {t : Timers} (h : Inv slack p) (hpc : p.pc = .serving since woke)
    (hg : Timers.Proper p.timers (.trigger p.clock)) (hs : Timers.step p.timers (.trigger p.clock) = some t) :
    Inv slack { p with
      timers := t
      pc := .expiring
      seen := p.clock
      naps := Function.update p.naps t.calls (some ⟨since, woke, p.seen, p.known⟩) } := by
  obtain ⟨-, -, ho⟩ := Timers.reach_inv h.timers
  obtain ⟨hseen, hwoke, hk⟩ := h.serving since woke hpc
  have ht := Reach.next h.timers hg hs
  simp only [Timers.step] at hs
  split at hs
  · cases hs
    refine ⟨ht, Nat.le_refl _, fun he => he.elim, (fun _ _ he => by cases he), (fun _ _ he => by cases he),
      fun _ => ⟨rfl, _, Function.update_self .., fun k hm => ?_⟩, fun n now id key hm => ?_⟩
    · have hle := hk k hm
      show p.clock ≤ k + slack + ((since - p.seen) + (p.clock - woke))
      omega
    · have hlt := ho.numbered n now id key hm
      obtain ⟨nap, hnap, hlate⟩ := h.late n now id key hm
      refine ⟨nap, ?_, hlate⟩
      show Function.update p.naps (p.timers.calls + 1) _ n = some nap
      rw [Function.update_of_ne (by omega)]
      exact hnap
  · cases hs

theorem expire {x : Nat} {t : Timers} (h : Inv slack p) (hpc : p.pc = .expiring)
    (hg : Timers.Proper p.timers (.step x)) (hs : Timers.step p.timers (.step x) = some t) :
    Inv slack { p with timers := t } := by
  obtain ⟨hreads, nap, hnap, hk⟩ := h.expiring hpc
  have hc := Timers.calls_step hreads hs
  refine ⟨.next h.timers hg hs, h.past, fun he => ?_, fun _ _ he => ?_, fun _ _ he => ?_, fun _ => ⟨hc.reads, nap, ?_, hk⟩,
    fun n now id key hm => ?_⟩
  · have he : p.pc.rests := he
    rw [hpc] at he
    exact he.elim
  · cases hpc.symm.trans he
  · cases hpc.symm.trans he
  · show p.naps t.calls = some nap
    rw [hc.calls]
    exact hnap
  · rcases hc.log n now id key hm with hm | ⟨rfl, rfl⟩
    · exact h.late n now id key hm
    · exact ⟨nap, hnap, hk key⟩

theorem ret {now res : Nat} (h : Inv slack p) (hpc : p.pc = .expiring) (hret : p.timers.pc = .returned now res) :
    Inv slack { p with nearest := res, pc := .out } where
  timers := h.timers
  past := h.past
  rests _ k hk := by
    obtain ⟨ht, -, ho⟩ := Timers.reach_inv h.timers
    obtain ⟨hreads, -⟩ := h.expiring hpc
    rw [hret] at hreads
    cases hreads
    exact (ho.answers _ res hret).le ht.sorted hk
  asleep _ _ he := by cases he
  serving _ _ he := by cases he
  expiring he := by cases he
  late := h.late

theorem step {a : Act} (h : Inv slack p) (hg : Timely slack p a) (hs : Poller.step p a = some p') : Inv slack p' := by
  cases a with
  | tick now =>
    cases hs
    exact h.tick hg
  | poll maxwaitMs =>
    simp only [Poller.step] at hs
    split at hs
    · rename_i hpc
      cases hs
      exact h.poll hpc hg
    · cases hs
  | wake =>
    simp only [Poller.step] at hs
    split at hs
    · rename_i since timeout hpc
      cases hs
      exact h.wake hpc
    · cases hs
  | timers a =>
    simp only [Poller.step] at hs
    split at hs
    · rename_i since woke addr id now afterMs repeate hpc
      obtain ⟨t, ht, rfl⟩ := Option.map_eq_some_iff.1 hs
      exact h.closure (a := .add addr id now afterMs repeate) hpc hg ht (Timers.closes_add ht)
    · rename_i since woke id hpc
      obtain ⟨t, ht, rfl⟩ := Option.map_eq_some_iff.1 hs
      exact h.closure (a := .cancel id) hpc trivial ht (Timers.closes_cancel ht)
    · rename_i since woke now hpc
      obtain ⟨hg, rfl⟩ := hg
      obtain ⟨t, ht, rfl⟩ := Option.map_eq_some_iff.1 hs
      exact h.trigger hpc hg ht
    · rename_i x hpc
      obtain ⟨t, ht, rfl⟩ := Option.map_eq_some_iff.1 hs
      exact h.expire hpc hg.1 ht
    · cases hs
  | ret =>
    simp only [Poller.step] at hs
    split at hs
    · rename_i now res hpc hret
      cases hs
      exact h.ret hpc hret
    · cases hs

end Inv

/-- **No timer is slept past**: in every run of `Poll` with a clock that does not go back, where `epoll_wait` overruns its
timeout by `slack` at most, no sum of a reading and an interval overflows, ids are not used twice and no `Poll` begins
with the next timer `2^31` ms away or more. -/
theorem punctual (slack : Nat) (p : Poller) (h : Reach step (Timely slack) start p) : Punctual slack p := by
  have hi : Inv slack p := h.invariant (.start slack) (fun _ _ _ _ hi hg hs => hi.step hg hs)
  refine ⟨fun since timeout hpc => (hi.asleep since timeout hpc).2.2.2, hi.late, fun hpc k hk => ?_⟩
  obtain ⟨hpos, hle⟩ := hi.rests (by rw [hpc]; trivial) k hk
  omega

/-- A task of 10 ms that repeats: the thread leaves `Poll` at 101, is back at 103, and `epoll_wait` overruns by 1 ms. -/
def oneTimer : List Act :=
  [.tick 101, .poll 5, .wake, .timers (.add 0 7 101 10 true), .timers (.trigger 101), .timers (.step 101), .ret, .tick 103,
    .poll (-1), .tick 114, .wake, .tick 115, .timers (.trigger 115), .timers (.step 115), .timers (.step 115)]

theorem punctual_one : ∃ p, Machine.exec step (Timely 1) start oneTimer = some p ∧
    p.timers.log = [.added 7 true, .invoked 2 115 7 111] ∧ p.naps 2 = some ⟨103, 114, 101, [111]⟩ ∧ Punctual 1 p := by
  obtain ⟨p, he, hlog, hnap⟩ : ∃ p, Machine.exec step (Timely 1) start oneTimer = some p ∧
    p.timers.log = [.added 7 true, .invoked 2 115 7 111] ∧ p.naps 2 = some ⟨103, 114, 101, [111]⟩ := ⟨_, rfl, rfl, rfl⟩
  exact ⟨p, he, hlog, hnap, punctual 1 p (Machine.reach_of_exec _ _ oneTimer _ he)⟩

end Poller
end Shm
