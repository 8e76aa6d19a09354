import ShmMultiproc.Lib.Machine
import ShmMultiproc.Window
import ShmMultiproc.TakeEnds
/-!
# Queue — whole calls refine a bounded queue

`Offer` and `Take(cb, max, 0)` called one after the other, `cb` calling `done` before it returns: as long as every call
returns, the answers are those of a FIFO queue of at most `N` items (`bounded_queue`).  Reclaiming is delayed to the
next `Offer`, so the relation (`Holds`) has three counts where the queue has one length.
-/
namespace Shm

open Cyclic (wrap Phase)
open RingBuffer
open Machine (calls calls_refine)

variable {α : Type}

/-- A call on a ring; `Take` has a bound on its iterations that the code has not. -/
inductive Call (α : Type) where
  | offer (v : α)
  | take (max : Int) (fuel : Nat)
  deriving DecidableEq, Repr

/-- What the caller sees of it. -/
inductive Answer (α : Type) where
  | offered (code : Int)
  | taken (count : Nat) (items : List (Option α))
  deriving DecidableEq, Repr

/-- The values of `max` that `Poll` and `TakeOne` use, or larger. -/
def Call.Proper : Call α → Prop
  | .offer _ => True
  | .take max _ => max < 0 ∨ 1 ≤ max

/-- A call on the ring; `none` when it does not return. -/
def ringCall (r : RingBuffer α) : Call α → Option (RingBuffer α × Answer α)
  | .offer v =>
    match offer v r with
    | .error _ => none
    | .ok o => some (o.ring, .offered o.code)
  | .take max fuel =>
    match take callDone max fuel r with
    | .error _ => none
    | .ok t => some (t.ring, .taken t.count t.items)

/-- The number of items a `Take` is to deliver from a queue of `len`. -/
def quota (max : Int) (len : Nat) : Nat := if max < 0 then len else min max.toNat len

/-- **The same call on a queue bounded by `N`**, the abstract behaviour. -/
def queueCall (N : Nat) (q : List α) : Call α → List α × Answer α
  | .offer v => if q.length < N then (q ++ [v], .offered 0) else (q, .offered errOverload)
  | .take max _ => (q.drop (quota max q.length), .taken (quota max q.length) ((q.take (quota max q.length)).map some))

/-- **The ring holds the queue `q`**: with `acc` all items accepted, `c` of them reclaimed and `d` delivered, the slots
of the counts from `c` to `d` are CONSUMED and those of the counts from `d` on are INIT. -/
structure Holds (N : Nat) (r : RingBuffer α) (acc : List α) (c d : Nat) : Prop where
  window : Window N r acc c false none
  cleaned : Phase N r.cleanedIdx c
  produce : Phase N r.produceIdx acc.length
  consume : Phase N r.consumeIdx d
  le : c ≤ d
  len : d ≤ acc.length
  done : ∀ k, c ≤ k → k < d → r.statusAt (k % N) = some .consumed
  queued : ∀ k, d ≤ k → k < acc.length → r.statusAt (k % N) = some .init

namespace Holds

variable {N c d : Nat} {r : RingBuffer α} {acc : List α}

theorem start (N : Nat) : Holds N (openWrite none N true) ([] : List α) 0 0 := by
  rw [openWrite_new]
  exact ⟨.fresh N, .zero N, .zero N, .zero N, Nat.le_refl 0, Nat.le_refl 0, fun k _ hk => absurd hk (Nat.not_lt_zero k),
    fun k _ hk => absurd hk (Nat.not_lt_zero k)⟩

theorem clean (h : Holds N r acc c d) (hN : 0 < N) :
    ∃ r' xs, tryCleanConsumedItems r = .ok (r', xs) ∧ Holds N r' acc d d := by
  obtain ⟨n, r', hr', hcl⟩ := tryCleanConsumedItems_spec hN h.window h.cleaned
  have hle := hcl.window.le
  have hge := h.window.ge
  have hlen := h.len
  have hn : c + n = d := by
    rcases Nat.lt_trichotomy (c + n) d with hlt | heq | hgt
    · have hi := hcl.stop (Nat.lt_of_lt_of_le hlt h.len)
      rw [h.done (c + n) (Nat.le_add_right c n) hlt] at hi
      cases hi
    · exact heq
    · have hc := hcl.run d h.le hgt
      rw [h.queued d (Nat.le_refl d) (by omega)] at hc
      cases hc
  subst hn
  refine ⟨r', _, hr', hcl.window, hcl.phase, ?_, ?_, Nat.le_refl _, h.len, fun k hk hk' => by omega, fun k hk hk' => ?_⟩
  · rw [hcl.produceIdx]; exact h.produce
  · rw [hcl.consumeIdx]; exact h.consume
  · rw [hcl.rest k hk (by omega)]
    exact h.queued k hk hk'

theorem offer (h : Holds N r acc c d) (hN : 0 < N) (v : α) : ∃ o, RingBuffer.offer v r = .ok o ∧
    ((acc.length - d < N ∧ o.code = 0 ∧ Holds N o.ring (acc ++ [v]) d d) ∨
      (¬ acc.length - d < N ∧ o.code = errOverload ∧ Holds N o.ring acc d d)) := by
  obtain ⟨r', xs, hr', h'⟩ := h.clean hN
  have hlen := h'.len
  by_cases hroom : acc.length - d < N
  · have hlt : acc.length < d + N := by omega
    have hcur : (r'.setVal (acc.length % N) (some v)).statusAt (acc.length % N) = some .cleaned := by
      rw [statusAt_setVal]; exact h'.window.free _ (Nat.le_refl _) hlt
    refine ⟨_, offer_of_place hr' (place_accepts h'.window h'.produce hlt v), .inl ⟨hroom, rfl, ?_⟩⟩
    refine ⟨((h'.window.store hlt v).publish hlt).of_slots rfl, h'.cleaned, ?_, h'.consume, Nat.le_refl d, ?_,
      fun k hk hk' => by omega, fun k hk hk' => ?_⟩
    · rw [List.length_append]
      exact (Phase.of_mod hN acc.length).succ (Nat.mod_lt _ hN)
    · rw [List.length_append]; omega
    · rw [List.length_append, List.length_singleton] at hk'
      by_cases hkp : k = acc.length
      · subst hkp
        exact statusAt_setStatus_self _ hcur
      · rw [statusAt_mk, statusAt_setStatus_ne _ _
          (Window.mod_ne h'.window.le hlt hk (by omega) (Ne.symm hkp)), statusAt_setVal]
        exact h'.queued k hk (by omega)
  · have hge : d + N ≤ acc.length := by omega
    refine ⟨_, offer_of_place hr' (place_refuses h'.window h'.produce hge hN v), .inr ⟨hroom, rfl, ?_⟩⟩
    exact { h' with window := h'.window.of_slots rfl, produce := .of_mod hN acc.length }

theorem deliver (h : Holds N r acc c d) (hd : d < acc.length) (hN : 0 < N) :
    Holds N { r.setStatus (d % N) .consumed with consumeIdx := d % N + 1 } acc c (d + 1) where
  window := (h.window.consume h.le hd).of_slots rfl
  cleaned := h.cleaned
  produce := h.produce
  consume := (Phase.of_mod hN d).succ (Nat.mod_lt d hN)
  le := Nat.le_succ_of_le h.le
  len := hd
  done := fun k hk hk' => by
    have hge := h.window.ge
    by_cases hkd : k = d
    · subst hkd
      exact statusAt_setStatus_self _ (h.queued k (Nat.le_refl k) hd)
    · rw [statusAt_mk, statusAt_setStatus_ne _ _ (Window.mod_ne h.le (by omega) hk (by omega) (Ne.symm hkd))]
      exact h.done k hk (by omega)
  queued := fun k hk hk' => by
    have hge := h.window.ge
    rw [statusAt_mk, statusAt_setStatus_ne _ _ (Window.mod_ne h.le (by omega) (by have := h.le; omega) (by omega)
      (by omega))]
    exact h.queued k (by omega) hk'

theorem not_canEnd (h : Holds N r acc c acc.length) (hfull : c + N ≤ acc.length) (max : Int)
    (counter : Nat) : ¬ CanEnd r max counter := by
  have hall : ∀ i st, r.statusAt i = some st → st = .consumed := by
    intro i st hi
    have hlt := lt_of_statusAt hi
    rw [h.window.size] at hlt
    obtain ⟨k, hk, hk', rfl⟩ := Cyclic.exists_window c hlt
    rw [h.done k hk (by omega)] at hi
    cases hi
    rfl
  rintro (hcl | ⟨-, hin, -⟩)
  · obtain ⟨i, hi⟩ := countStatus_pos.1 hcl
    cases hall i _ hi
  · obtain ⟨i, hi⟩ := countStatus_pos.1 hin
    cases hall i _ hi

theorem takeLoop (hN : 0 < N) (max : Int) : ∀ (fuel counter : Nat) (r : RingBuffer α) (d : Nat) (t : Taken α),
    Holds N r acc c d → max < 0 ∨ (counter : Int) < max → takeLoop callDone max fuel counter r = .ok t →
    ∃ n, n = quota (if max < 0 then max else max - counter) (acc.length - d) ∧ t.count = counter + n ∧
      t.items = ((acc.drop d).take n).map some ∧ Holds N t.ring acc c (d + n)
  | 0, _, _, _, _, _, _, ht => by cases ht
  | fuel + 1, counter, r, d, t, h, hmax, ht => by
    have hw : wrap r.size r.consumeIdx = d % N := by rw [h.window.size, h.consume.wrap]
    by_cases hd : d < acc.length
    · have hst : r.statusAt (wrap r.size r.consumeIdx) = some .init := by
        rw [hw]; exact h.queued d (Nat.le_refl d) hd
      have hc := consumeItem_callDone max counter hst
      rw [hw, h.window.get_eq h.le hd] at hc
      have hdrop : acc.drop d = acc[d] :: acc.drop (d + 1) := List.drop_eq_getElem_cons hd
      have hget : acc[d]? = some acc[d] := List.getElem?_eq_getElem hd
      by_cases hexit : 0 ≤ max ∧ max ≤ (counter : Int) + 1
      · rw [if_pos hexit] at hc
        rw [takeLoop_stop hc (by simp)] at ht
        cases ht
        refine ⟨1, ?_, rfl, ?_, h.deliver hd hN⟩
        · unfold quota
          rw [if_neg (by omega), if_neg (by omega)]
          omega
        · rw [hdrop, hget]; rfl
      · rw [if_neg hexit] at hc
        rw [takeLoop_cont hc] at ht
        cases hrest : RingBuffer.takeLoop callDone max fuel (counter + 1)
            { r.setStatus (d % N) .consumed with consumeIdx := d % N + 1 } with
        | error e => rw [hrest] at ht; cases ht
        | ok t' =>
          rw [hrest] at ht
          cases ht
          obtain ⟨n, hn, hcount, hitems, hrel⟩ := takeLoop hN max fuel (counter + 1) _ (d + 1) t' (h.deliver hd hN)
            (by omega) hrest
          refine ⟨n + 1, ?_, ?_, ?_, ?_⟩
          · rw [hn]
            unfold quota
            by_cases hneg : max < 0
            · rw [if_pos hneg, if_pos hneg, if_pos hneg, if_pos hneg]; omega
            · rw [if_neg hneg, if_neg hneg, if_neg (by omega), if_neg (by omega)]; omega
          · show t'.count = counter + (n + 1)
            rw [hcount]; omega
          · show [acc[d]?] ++ t'.items = _
            rw [hitems, hdrop, hget]; rfl
          · rw [show d + (n + 1) = d + 1 + n by omega]; exact hrel
    · have hlen : d = acc.length := Nat.le_antisymm h.len (Nat.le_of_not_lt hd)
      subst hlen
      by_cases hfull : c + N ≤ acc.length
      · rw [takeLoop_running max (fuel + 1) counter r (by rw [h.window.size]; exact hN)
          (h.not_canEnd hfull max counter)] at ht
        cases ht
      · have hst : r.statusAt (wrap r.size r.consumeIdx) = some .cleaned := by
          rw [hw]; exact h.window.free _ (Nat.le_refl _) (by omega)
        have hc := consumeItem_cleaned callDone max counter hst
        rw [takeLoop_stop hc (by simp)] at ht
        cases ht
        refine ⟨0, ?_, rfl, rfl, ?_⟩
        · unfold quota
          rw [Nat.sub_self]
          split <;> simp
        · rw [hw]
          exact { h with window := h.window.of_slots rfl, consume := .of_mod hN acc.length }

end Holds

/-- The ring holds the queue `q`, whatever else was accepted before. -/
def IsQueue (N : Nat) (r : RingBuffer α) (q : List α) : Prop := ∃ acc c d, Holds N r acc c d ∧ q = acc.drop d

/-- **One call that returns answers what the queue answers.** -/
theorem ringCall_refines {N : Nat} (hN : 1 ≤ N) {r r' : RingBuffer α} {q : List α} {a : Call α} {b : Answer α}
    (ha : a.Proper) (hR : IsQueue N r q) (hc : ringCall r a = some (r', b)) :
    b = (queueCall N q a).2 ∧ IsQueue N r' (queueCall N q a).1 := by
  obtain ⟨acc, c, d, h, rfl⟩ := hR
  cases a with
  | offer v =>
    obtain ⟨o, ho, hcase⟩ := h.offer hN v
    simp only [ringCall, ho, Option.some.injEq, Prod.mk.injEq] at hc
    obtain ⟨rfl, rfl⟩ := hc
    unfold queueCall
    simp only [List.length_drop]
    rcases hcase with ⟨hroom, hcode, h'⟩ | ⟨hroom, hcode, h'⟩
    · rw [if_pos hroom, hcode]
      exact ⟨rfl, acc ++ [v], d, d, h', (List.drop_append_of_le_length h.len).symm⟩
    · rw [if_neg hroom, hcode]
      exact ⟨rfl, acc, d, d, h', rfl⟩
  | take max fuel =>
    unfold ringCall at hc
    cases ht : take callDone max fuel r with
    | error e => simp only [ht] at hc; cases hc
    | ok t =>
      simp only [ht, Option.some.injEq, Prod.mk.injEq] at hc
      obtain ⟨rfl, rfl⟩ := hc
      have hmax : max < 0 ∨ ((0 : Nat) : Int) < max := by
        rcases ha with ha | ha <;> omega
      obtain ⟨n, hn, hcount, hitems, h'⟩ := h.takeLoop hN max fuel 0 r d t hmax ht
      have hquota : n = quota max (acc.drop d).length := by
        rw [hn, List.length_drop]
        congr 1
        split <;> simp
      unfold queueCall
      dsimp only
      rw [← hquota, List.drop_drop, hcount, hitems, Nat.zero_add]
      exact ⟨rfl, acc, c, d + n, h', rfl⟩

/-- **Sequential refinement of a bounded queue**: from a ring opened with `N` slots, the answers of any sequence of
calls that all return are the answers of the queue bounded by `N`. -/
theorem bounded_queue (N : Nat) (hN : 1 ≤ N) (as : List (Call α)) (hP : ∀ a ∈ as, a.Proper) (r' : RingBuffer α)
    (bs : List (Answer α)) (h : calls ringCall (openWrite none N true) as = some (r', bs)) :
    ∃ q', calls (fun q a => some (queueCall N q a)) [] as = some (q', bs) := by
  have hcall : ∀ (r : RingBuffer α) (q : List α) (a : Call α) (r' : RingBuffer α) (b : Answer α), a.Proper →
      IsQueue N r q → ringCall r a = some (r', b) → b = (queueCall N q a).2 ∧ IsQueue N r' (queueCall N q a).1 :=
    fun r q a r' b ha hR hc => ringCall_refines hN ha hR hc
  obtain ⟨q', hq', -⟩ := calls_refine hcall as _ [] r' bs hP ⟨[], 0, 0, .start N, rfl⟩ h
  exact ⟨q', hq'⟩

/-- A ring of two: a refused offer, a wrap-around, and a `Take` that asks for more than there is. -/
def tenCalls : List (Call Nat) :=
  [.offer 1, .take 1 9, .offer 2, .offer 3, .offer 4, .take 1 9, .offer 5, .take 1 9, .offer 6, .take 1 9]

def tenAnswers : List (Answer Nat) :=
  [.offered 0, .taken 1 [some 1], .offered 0, .offered 0, .offered errOverload, .taken 1 [some 2], .offered 0,
    .taken 1 [some 3], .offered 0, .taken 1 [some 5]]

theorem bounded_queue_two : ∃ r' q', calls ringCall (openWrite none 2 true) tenCalls = some (r', tenAnswers) ∧
    calls (fun q a => some (queueCall 2 q a)) [] tenCalls = some (q', tenAnswers) := by
  obtain ⟨r', hr'⟩ : ∃ r', calls ringCall (openWrite none 2 true) tenCalls = some (r', tenAnswers) := ⟨_, rfl⟩
  have hproper : ∀ a ∈ tenCalls, a.Proper := by
    intro a ha
    simp only [tenCalls, List.mem_cons, List.not_mem_nil, or_false] at ha
    rcases ha with rfl | rfl | rfl | rfl | rfl | rfl | rfl | rfl | rfl | rfl <;> simp [Call.Proper]
  obtain ⟨q', hq'⟩ := bounded_queue 2 (by decide) tenCalls hproper r' tenAnswers hr'
  exact ⟨r', q', hr', hq'⟩

end Shm
