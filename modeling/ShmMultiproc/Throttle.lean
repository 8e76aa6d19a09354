import ShmMultiproc.Routine
import ShmMultiproc.Stranded
/-!
# Throttle — how often a reader is woken

A producer writes the eventfd of its ring when 128 items are counted or `min_notify_interval_ms` have passed since it
last did, and a reader wakes only when it has been written.  So the rounds of a reader are bounded by the items and the
time, not by the number of calls of `Offer`: whatever the reader does, crashes and restarts included, there is at most
one round for 128 items, one for 10 ms, and one more (`rounds_throttled`).
-/
namespace Shm
namespace Polled

open Machine (Reach)
open Routine (tryNotifyReader_eq)

variable {α : Type}

/-- A ring and its reader, the last reading of the clock, and the rounds of `Poll` that the reader has begun. -/
structure Metered (α : Type) where
  sys : Polled α
  clock : Int
  rounds : Nat

def Act.latest (clock : Int) : Act α → Int
  | .prod _ t' | .tryNotify _ t' _ => t'
  | _ => clock

def Act.begins : Act α → Nat
  | .wake => 1
  | _ => 0

def meteredStep (m : Metered α) (a : Act α) : Option (Metered α) :=
  (step m.sys a).map (fun s => ⟨s, a.latest m.clock, m.rounds + a.begins⟩)

/-- **The readings of the clock do not go back**, that which `Routine` passes to `TryNotifyReader` included. -/
def Timely (m : Metered α) : Act α → Prop
  | .prod t t' => m.clock ≤ t ∧ t ≤ t'
  | .tryNotify t t' now => m.clock ≤ t ∧ t ≤ t' ∧ (now = 0 ∨ (m.clock ≤ now ∧ now ≤ t'))
  | _ => True

instance (m : Metered α) (a : Act α) : Decidable (Timely m a) :=
  match a with
  | .prod _ _ => inferInstanceAs (Decidable (_ ∧ _))
  | .tryNotify _ _ _ => inferInstanceAs (Decidable (_ ∧ _))
  | .offer _ | .start | .scan | .attach | .wake | .cons | .doneTest _ | .doneStore | .endRound | .crash =>
    .isTrue trivial

def Metered.start (α : Type) (N : Nat) (t₀ : Int) : Metered α := ⟨Polled.start α N, t₀, 0⟩

/-! ## One notification -/

/-- **What a write of the eventfd takes**: 128 items counted, or the interval; it is made between `clock` and `t'`. -/
structure Writes (n n' : Notifier) (clock t' : Int) : Prop where
  eventfd : n'.eventfd = n.eventfd + 1
  counter : n'.writeEventCounter = 0
  interval : n'.minNotifyIntervalMs = n.minNotifyIntervalMs
  recent : clock ≤ n'.lastNotifyWriteMs
  past : n'.lastNotifyWriteMs ≤ t'
  cause : 128 ≤ n.writeEventCounter ∨ n.minNotifyIntervalMs ≤ n'.lastNotifyWriteMs - n.lastNotifyWriteMs

variable {n n' : Notifier} {clock t t' now t₀ : Int}

theorem tryNotifyReader_writes (n : Notifier) (hmin : 0 < n.minNotifyIntervalMs) (h0 : 0 ≤ n.lastNotifyWriteMs)
    (hc : clock ≤ t) (ht : t ≤ t') (hnow : now = 0 ∨ (clock ≤ now ∧ now ≤ t')) :
    n.tryNotifyReader t t' now = n ∨ Writes n (n.tryNotifyReader t t' now) clock t' := by
  have hr : clock ≤ Routine.reading t now ∧ Routine.reading t now ≤ t' := by
    unfold Routine.reading
    split
    · exact ⟨hc, ht⟩
    · rename_i hne
      exact hnow.resolve_left hne
  generalize hrd : Routine.reading t now = r at hr
  rw [tryNotifyReader_eq, hrd]
  split
  · rename_i hdue
    right
    unfold Notifier.notifyReader
    rw [if_pos (by
      rcases hdue with hd | hd | hd
      · exact .inl (by omega)
      · omega
      · exact .inr (decide_eq_true hd))]
    -- a reading of 0 is read again, and is no sign that the interval has passed
    have hlast : (if r = 0 then t' else r) ≤ t' ∧ clock ≤ (if r = 0 then t' else r) := by
      split <;> omega
    refine ⟨rfl, rfl, rfl, hlast.2, hlast.1, ?_⟩
    show 128 ≤ n.writeEventCounter ∨ n.minNotifyIntervalMs ≤ (if r = 0 then t' else r) - n.lastNotifyWriteMs
    rcases hdue with hd | hd | hd
    · exact .inl hd
    · omega
    · rw [if_neg (by omega)]
      exact .inr hd
  · exact .inl rfl

/-! ## The budget of a run -/

/-- **The rounds are paid for**: `a` of the writes took 128 items each, and `b` of them the interval; `accepted` are the
items accepted and counted. -/
def Paid (n : Notifier) (rounds accepted : Nat) (t₀ : Int) : Prop :=
  ∃ a b : Nat, rounds + (if 0 < n.eventfd then 1 else 0) ≤ a + b ∧ 128 * (a : Int) + n.writeEventCounter ≤ accepted ∧
    (b = 0 ∨ 10 * ((b : Int) - 1) ≤ n.lastNotifyWriteMs - t₀)

theorem Paid.writes {rounds accepted : Nat} (h : Paid n rounds accepted t₀) (hmin : n.minNotifyIntervalMs = 10)
    (hc : 0 ≤ n.writeEventCounter) (hl : n.lastNotifyWriteMs ≤ clock) (ht : t₀ ≤ clock) (hw : Writes n n' clock t') :
    Paid n' rounds accepted t₀ := by
  obtain ⟨a, b, hsum, ha, hb⟩ := h
  have hrecent := hw.recent
  have hround : rounds + (if 0 < n'.eventfd then 1 else 0) ≤ a + b + 1 := by
    have : rounds ≤ a + b := Nat.le_trans (Nat.le_add_right _ _) hsum
    split <;> omega
  rcases hw.cause with hcause | hcause
  · refine ⟨a + 1, b, by omega, ?_, ?_⟩
    · rw [hw.counter]
      omega
    · omega
  · rw [hmin] at hcause
    refine ⟨a, b + 1, by omega, ?_, .inr ?_⟩
    · rw [hw.counter]
      omega
    · omega

/-- The items set to INIT and not yet counted. -/
def uncounted (s : St α) : Nat := if s.prod.notifying = true then 1 else 0

/-- **The invariant of the budget.** -/
structure Budget (t₀ : Int) (m : Metered α) : Prop where
  interval : m.sys.st.notifier.minNotifyIntervalMs = 10
  counter : 0 ≤ m.sys.st.notifier.writeEventCounter
  nonneg : 0 ≤ m.sys.st.notifier.lastNotifyWriteMs
  past : m.sys.st.notifier.lastNotifyWriteMs ≤ m.clock
  started : t₀ ≤ m.clock
  counted : uncounted m.sys.st ≤ m.sys.st.hist.accepted.length
  paid : Paid m.sys.st.notifier m.rounds (m.sys.st.hist.accepted.length - uncounted m.sys.st) t₀

namespace Budget

variable {m m' : Metered α}

theorem start (N : Nat) (h0 : 0 ≤ t₀) : Budget t₀ (Metered.start α N t₀) where
  interval := rfl
  counter := Int.le_refl 0
  nonneg := Int.le_refl 0
  past := h0
  started := Int.le_refl t₀
  counted := Nat.le_refl 0
  paid := ⟨0, 0, Nat.le_refl 0, Int.le_refl 0, .inl rfl⟩

theorem of_same (h : Budget t₀ m) (hn : m'.sys.st.notifier = m.sys.st.notifier)
    (ha : m'.sys.st.hist.accepted.length = m.sys.st.hist.accepted.length) (hu : uncounted m'.sys.st = uncounted m.sys.st)
    (hc : m.clock ≤ m'.clock) (hr : m'.rounds = m.rounds) : Budget t₀ m' where
  interval := by rw [hn]; exact h.interval
  counter := by rw [hn]; exact h.counter
  nonneg := by rw [hn]; exact h.nonneg
  past := by rw [hn]; exact Int.le_trans h.past hc
  started := Int.le_trans h.started hc
  counted := by rw [ha, hu]; exact h.counted
  paid := by rw [hn, ha, hu, hr]; exact h.paid

theorem announce (h : Budget t₀ m) (hmin : n.minNotifyIntervalMs = 10) (hc : 0 ≤ n.writeEventCounter)
    (hl : n.lastNotifyWriteMs = m.sys.st.notifier.lastNotifyWriteMs)
    (hp : Paid n m.rounds (m'.sys.st.hist.accepted.length - uncounted m'.sys.st) t₀)
    (hu : uncounted m'.sys.st ≤ m'.sys.st.hist.accepted.length) (hr : m'.rounds = m.rounds) (ht : m.clock ≤ t)
    (ht' : t ≤ t') (hnow : now = 0 ∨ (m.clock ≤ now ∧ now ≤ t')) (hclock : m'.clock = t')
    (hn : m'.sys.st.notifier = n.tryNotifyReader t t' now) : Budget t₀ m' := by
  have h0 := h.nonneg
  have hpast := h.past
  have hstart := h.started
  have hle : m.clock ≤ t' := Int.le_trans ht ht'
  rcases tryNotifyReader_writes n (by omega) (by omega) ht ht' hnow with he | hw
  · rw [he] at hn
    exact ⟨by rw [hn]; exact hmin, by rw [hn]; exact hc, by rw [hn]; omega, by rw [hn]; omega, by omega, hu,
      by rw [hn, hr]; exact hp⟩
  · rw [← hn] at hw
    have hrecent := hw.recent
    have hpaid := hp.writes hmin hc (by omega) hstart hw
    exact ⟨by rw [hw.interval]; exact hmin, by rw [hw.counter], by omega, by rw [hclock]; exact hw.past, by omega, hu,
      by rw [hr]; exact hpaid⟩

theorem prod (h : Budget t₀ m) (hg : Timely m (.prod t t')) (hs : meteredStep m (.prod t t') = some m') : Budget t₀ m' := by
  obtain ⟨s, he, rfl⟩ := Option.map_eq_some_iff.1 hs
  obtain ⟨st, hst, rfl⟩ := Option.map_eq_some_iff.1 he
  obtain ⟨ht, ht'⟩ := hg
  have hclock : m.clock ≤ t' := Int.le_trans ht ht'
  have hpaid := h.paid
  have hcounted := h.counted
  have hmin := h.interval
  have hc := h.counter
  obtain ⟨⟨⟨r, nf, pc, cs, so, hi⟩, life⟩, clock, rounds⟩ := m
  cases pc with
  | idle => cases hst
  | clean v | drop v | null v | mark v | advance v | wrap v | store v | bump v =>
    cases hst
    exact h.of_same rfl rfl rfl hclock rfl
  | cleanTest v | test v =>
    simp only [Shm.step, prodStep] at hst
    split at hst <;> cases hst <;> exact h.of_same rfl rfl rfl hclock rfl
  | refuse v =>
    cases hst
    exact h.announce hmin hc rfl hpaid hcounted rfl ht ht' (.inl rfl) rfl rfl
  | publish v =>
    cases hst
    have hlen : (hi.accepted ++ [v]).length - 1 = hi.accepted.length := by simp
    refine ⟨hmin, hc, h.nonneg, Int.le_trans h.past hclock, Int.le_trans h.started hclock, ?_, ?_⟩
    · show 1 ≤ (hi.accepted ++ [v]).length
      simp
    · show Paid nf rounds ((hi.accepted ++ [v]).length - 1) t₀
      rw [hlen]
      exact hpaid
  | notify v =>
    cases hst
    have hone : 1 ≤ hi.accepted.length := hcounted
    refine h.announce (n := { nf with writeEventCounter := nf.writeEventCounter + 1 }) hmin (Int.le_add_one hc) rfl ?_
      (Nat.zero_le _) rfl ht ht' (.inl rfl) rfl rfl
    obtain ⟨a, b, hsum, ha, hb⟩ := hpaid
    have ha : 128 * (a : Int) + nf.writeEventCounter ≤ (hi.accepted.length - 1 : Nat) := ha
    refine ⟨a, b, hsum, ?_, hb⟩
    show 128 * (a : Int) + (nf.writeEventCounter + 1) ≤ (hi.accepted.length - 0 : Nat)
    omega

theorem cons_same {st st' : St α} (hs : consStep st = some st') : st'.notifier = st.notifier ∧ st'.prod = st.prod ∧
    st'.hist.accepted = st.hist.accepted := by
  obtain ⟨r, nf, pc, cs, so, hi⟩ := st
  cases cs with
  | between last | skip | take | call i | callback k => cases hs; exact ⟨rfl, rfl, rfl⟩
  | test | test2 =>
    simp only [consStep] at hs
    split at hs <;> cases hs <;> exact ⟨rfl, rfl, rfl⟩

theorem doneTest_same {st st' : St α} {k : Nat} (hs : doneTestStep k st = some st') : st'.notifier = st.notifier ∧
    st'.prod = st.prod ∧ st'.hist.accepted = st.hist.accepted := by
  unfold doneTestStep at hs
  split at hs
  · split at hs <;> cases hs <;> exact ⟨rfl, rfl, rfl⟩
  · cases hs

theorem doneStore_same {st st' : St α} (hs : doneStoreStep st = some st') : st'.notifier = st.notifier ∧
    st'.prod = st.prod ∧ st'.hist.accepted = st.hist.accepted := by
  unfold doneStoreStep at hs
  split at hs <;> cases hs
  exact ⟨rfl, rfl, rfl⟩

theorem reader (h : Budget t₀ m) (hn : m'.sys.st.notifier = m.sys.st.notifier) (hp : m'.sys.st.prod = m.sys.st.prod)
    (ha : m'.sys.st.hist.accepted = m.sys.st.hist.accepted) (hc : m'.clock = m.clock) (hr : m'.rounds = m.rounds) :
    Budget t₀ m' :=
  h.of_same hn (by rw [ha]) (by unfold uncounted; rw [hp]) (Int.le_of_eq hc.symm) hr

theorem wake (h : Budget t₀ m) (hs : meteredStep m .wake = some m') : Budget t₀ m' := by
  obtain ⟨s, he, rfl⟩ := Option.map_eq_some_iff.1 hs
  simp only [Polled.step] at he
  split at he
  · rename_i hw
    cases he
    obtain ⟨a, b, hsum, ha, hb⟩ := h.paid
    rw [if_pos hw.2] at hsum
    exact ⟨h.interval, h.counter, h.nonneg, h.past, h.started, h.counted, a, b, hsum, ha, hb⟩
  · cases he

theorem step {a : Act α} (h : Budget t₀ m) (hg : Timely m a) (hs : meteredStep m a = some m') : Budget t₀ m' := by
  cases a with
  | prod t t' => exact h.prod hg hs
  | wake => exact h.wake hs
  | offer v =>
    obtain ⟨s, he, rfl⟩ := Option.map_eq_some_iff.1 hs
    obtain ⟨st, hst, rfl⟩ := Option.map_eq_some_iff.1 he
    simp only [Shm.step] at hst
    split at hst
    · rename_i hidle
      cases hst
      exact h.of_same rfl rfl (by unfold uncounted; rw [hidle]; rfl) (Int.le_refl _) rfl
    · cases hst
  | tryNotify t t' now =>
    obtain ⟨s, he, rfl⟩ := Option.map_eq_some_iff.1 hs
    obtain ⟨ht, ht', hnow⟩ := hg
    simp only [Polled.step] at he
    split at he
    · cases he
      exact h.announce h.interval h.counter rfl h.paid h.counted rfl ht ht' hnow rfl rfl
    · cases he
  | cons =>
    obtain ⟨s, he, rfl⟩ := Option.map_eq_some_iff.1 hs
    simp only [Polled.step] at he
    split at he
    · obtain ⟨st, hst, rfl⟩ := Option.map_eq_some_iff.1 he
      obtain ⟨hn, hp, ha⟩ := cons_same hst
      exact h.reader hn hp ha rfl rfl
    · cases he
  | doneTest k =>
    obtain ⟨s, he, rfl⟩ := Option.map_eq_some_iff.1 hs
    simp only [Polled.step] at he
    split at he
    · obtain ⟨st, hst, rfl⟩ := Option.map_eq_some_iff.1 he
      obtain ⟨hn, hp, ha⟩ := doneTest_same hst
      exact h.reader hn hp ha rfl rfl
    · cases he
  | doneStore =>
    obtain ⟨s, he, rfl⟩ := Option.map_eq_some_iff.1 hs
    simp only [Polled.step] at he
    split at he
    · obtain ⟨st, hst, rfl⟩ := Option.map_eq_some_iff.1 he
      obtain ⟨hn, hp, ha⟩ := doneStore_same hst
      exact h.reader hn hp ha rfl rfl
    · cases he
  | start | attach | endRound | crash =>
    obtain ⟨s, he, rfl⟩ := Option.map_eq_some_iff.1 hs
    simp only [Polled.step] at he
    split at he <;> cases he
    exact h.reader rfl rfl rfl rfl rfl
  | scan =>
    obtain ⟨s, he, rfl⟩ := Option.map_eq_some_iff.1 hs
    simp only [Polled.step] at he
    split at he
    · cases he
      unfold scanAt
      split
      · exact h.reader rfl rfl rfl rfl rfl
      · split <;> exact h.reader rfl rfl rfl rfl rfl
    · cases he

end Budget

/-- **A reader is woken at most once for 128 items, once for 10 ms, and once more**, in every run of the producer and of
a reader that may crash and come back at any step, the readings of the clock not going back. -/
theorem rounds_throttled (N : Nat) (t₀ : Int) (h0 : 0 ≤ t₀) (m : Metered α)
    (h : Reach meteredStep Timely (Metered.start α N t₀) m) :
    m.rounds ≤ m.sys.st.hist.accepted.length / 128 + (m.clock - t₀).toNat / 10 + 1 := by
  have hb : Budget t₀ m := h.invariant (.start N h0) (fun _ _ _ _ hi hg hs => hi.step hg hs)
  have hpast := hb.past
  have hstart := hb.started
  have hc := hb.counter
  obtain ⟨a, b, hsum, ha, hb⟩ := hb.paid
  have hrounds : m.rounds ≤ a + b := Nat.le_trans (Nat.le_add_right _ _) hsum
  have ha' : a ≤ m.sys.st.hist.accepted.length / 128 := by omega
  have hb' : b ≤ (m.clock - t₀).toNat / 10 + 1 := by omega
  omega

def oneRound : List (Act Nat) :=
  [.offer 7] ++ List.replicate 8 (.prod 100 100) ++ [.start, .scan, .attach, .wake]

theorem rounds_throttled_one : ∃ m, Machine.exec meteredStep Timely (Metered.start Nat 2 100) oneRound = some m ∧
    m.rounds = 1 ∧ m.rounds ≤ m.sys.st.hist.accepted.length / 128 + (m.clock - 100).toNat / 10 + 1 := by
  obtain ⟨m, he, hm⟩ : ∃ m, Machine.exec meteredStep Timely (Metered.start Nat 2 100) oneRound = some m ∧ m.rounds = 1 :=
    ⟨_, rfl, rfl⟩
  exact ⟨m, he, hm, rounds_throttled 2 100 (by decide) m (Machine.reach_of_exec _ _ oneRound _ he)⟩

end Polled
end Shm
