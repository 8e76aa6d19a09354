import ShmMultiproc.Interleave
/-!
# RingInv — the producer's invariant, whatever the reader does

`RingInv N s` holds in every state of every run on a ring of `N ≥ 1` slots (`ringInv_reach`): the reader, its closures
and the closures of earlier laps may run at any point of an `Offer`.  Nothing here mentions where the reader should be;
that is `Delivery`.  `Slotless` is what there is on a ring without slots.
-/
namespace Shm

open Cyclic (wrap Phase wrap_lt)
open Machine (Reach)

variable {α : Type}

namespace ProdPc

/-- The `val` of the slot being reclaimed is already NULL. -/
def nulled : ProdPc α → Bool
  | .mark _ => true
  | _ => false

/-- The `val` already stored in the slot to be published. -/
def pend : ProdPc α → Option α
  | .publish v => some v
  | _ => none

def reclaims : ProdPc α → Bool
  | .drop _ | .null _ | .mark _ => true
  | _ => false

def fills : ProdPc α → Bool
  | .store _ | .publish _ => true
  | _ => false

def cleanedFits : ProdPc α → Bool
  | .clean _ => false
  | _ => true

def produceFits : ProdPc α → Bool
  | .test _ | .refuse _ | .store _ | .publish _ | .notify _ | .bump _ => true
  | _ => false

/-- What `cleaned_idx` lags behind the number of slots reclaimed. -/
def cleanedLag : ProdPc α → Nat
  | .advance _ => 1
  | _ => 0

/-- What `produce_idx` lags behind the number of items accepted. -/
def produceLag : ProdPc α → Nat
  | .notify _ | .bump _ => 1
  | _ => 0

/-- The reference of the slot being reclaimed is already dropped. -/
def dropLead : ProdPc α → Nat
  | .null _ | .mark _ => 1
  | _ => 0

/-- The offer that has been accepted and not yet answered. -/
def arriving : ProdPc α → List α
  | .notify v | .bump v => [v]
  | _ => []

end ProdPc

def ConsPc.fits : ConsPc → Bool
  | .test | .skip | .test2 | .take => true
  | _ => false

/-- The first `n` references to accepted items. -/
def refs (acc : List α) (n : Nat) : List (Ref α) := (List.range n).map (fun k => ⟨k, acc[k]?⟩)

theorem refs_succ (acc : List α) (n : Nat) : refs acc (n + 1) = refs acc n ++ [⟨n, acc[n]?⟩] := by
  unfold refs
  rw [List.range_succ, List.map_append]
  rfl

theorem refs_prefix {acc acc' : List α} {n : Nat} (h : acc <+: acc') (hn : n ≤ acc.length) :
    refs acc' n = refs acc n := by
  obtain ⟨more, rfl⟩ := h
  unfold refs
  refine List.map_congr_left (fun k hk => ?_)
  rw [List.getElem?_append_left (by have := List.mem_range.1 hk; omega)]

theorem refs_append (acc : List α) (v : α) {n : Nat} (h : n ≤ acc.length) : refs (acc ++ [v]) n = refs acc n :=
  refs_prefix (List.prefix_append _ _) h

theorem refs_take (acc : List α) {n m : Nat} (h : n ≤ m) : (refs acc m).take n = refs acc n := by
  unfold refs
  rw [← List.map_take, List.take_range, Nat.min_eq_left h]

theorem refs_mono (acc : List α) {n m : Nat} (h : n ≤ m) : refs acc n <+: refs acc m := by
  rw [← refs_take acc h]
  exact List.take_prefix _ _

theorem refs_item (acc : List α) (n : Nat) (h : n ≤ acc.length) :
    (refs acc n).map Ref.item = (acc.take n).map some := by
  induction n with
  | zero => rfl
  | succ n ih =>
    rw [refs_succ, List.map_append, ih (by omega), List.take_add_one, List.map_append,
      List.getElem?_eq_getElem (by omega)]
    rfl

structure RingInv (N : Nat) (s : St α) : Prop where
  pos : 0 < N
  window : Window N s.ring s.hist.accepted s.hist.cleaned s.prod.nulled s.prod.pend
  cleanedPhase : Phase N (s.ring.cleanedIdx + s.prod.cleanedLag) s.hist.cleaned
  producePhase : Phase N (s.ring.produceIdx + s.prod.produceLag) s.hist.accepted.length
  cleanedLt : s.prod.cleanedFits = true → s.ring.cleanedIdx < N
  produceLt : s.prod.produceFits = true → s.ring.produceIdx < N
  oldest : s.prod.reclaims = true → s.hist.cleaned < s.hist.accepted.length ∧
    s.ring.statusAt (s.hist.cleaned % N) = some .consumed
  room : s.prod.fills = true → s.hist.accepted.length < s.hist.cleaned + N
  consumeLe : s.ring.consumeIdx ≤ N
  consumeLt : s.cons.fits = true → s.ring.consumeIdx < N
  storing : ∀ i, s.storing = some i → s.ring.statusAt i = some .init
  dropped : s.hist.dropped = refs s.hist.accepted (s.hist.cleaned + s.prod.dropLead)
  owner : ∀ k, s.hist.cleaned ≤ k → k < s.hist.accepted.length → s.hist.owner (k % N) = k
  markedOld : ∀ k, k < s.hist.cleaned → k ∈ s.hist.marked
  markedIn : ∀ k, s.hist.cleaned ≤ k → k < s.hist.accepted.length →
    (k ∈ s.hist.marked ↔ s.ring.statusAt (k % N) = some .consumed)
  markedLt : ∀ k ∈ s.hist.marked, k < s.hist.accepted.length

namespace RingInv

variable {N : Nat} {s s' : St α}

theorem start (N : Nat) (hN : 0 < N) : RingInv N (St.start α N) := by
  have hr : (St.start α N).ring = RingBuffer.fresh α N := RingBuffer.openWrite_new N
  exact {
    pos := hN
    window := by rw [hr]; exact Window.fresh N
    cleanedPhase := .zero N
    producePhase := .zero N
    cleanedLt := fun _ => hN
    produceLt := fun h => by cases h
    oldest := fun h => by cases h
    room := fun h => by cases h
    consumeLe := Nat.zero_le N
    consumeLt := fun h => by cases h
    storing := fun i h => by cases h
    dropped := rfl
    owner := fun k _ hk => absurd hk (Nat.not_lt_zero k)
    markedOld := fun k hk => absurd hk (Nat.not_lt_zero k)
    markedIn := fun k _ hk => absurd hk (Nat.not_lt_zero k)
    markedLt := fun k hk => by cases hk }

theorem offer {v : α} (h : RingInv N s) (hs : step s (.offer v) = some s') : RingInv N s' := by
  obtain ⟨r, nf, pc, cs, so, hi⟩ := s
  cases pc <;> simp only [step, Option.some.injEq, reduceCtorEq] at hs
  subst hs
  exact { h with
    cleanedLt := fun h' => by cases h'
    produceLt := fun h' => by cases h'
    oldest := fun h' => by cases h'
    room := fun h' => by cases h' }

theorem prod {t t' : Int} (h : RingInv N s) (hs : step s (.prod t t') = some s') : RingInv N s' := by
  obtain ⟨r, nf, pc, cs, so, hi⟩ := s
  have hN := h.pos
  have hsize : r.size = N := h.window.size
  cases pc with
  | idle => cases hs
  | clean v =>
    simp only [step, prodStep, Option.some.injEq, hsize] at hs
    subst hs
    exact { h with
      window := h.window.of_slots rfl
      cleanedPhase := h.cleanedPhase.wrapped hN
      cleanedLt := fun _ => wrap_lt hN _ }
  | cleanTest v =>
    simp only [step, prodStep] at hs
    have hc : r.cleanedIdx = hi.cleaned % N := h.cleanedPhase.eq_mod (h.cleanedLt rfl)
    split at hs
    · cases hs
    · rename_i hst
      cases hs
      rw [hc] at hst
      have hlt : hi.cleaned < hi.cleaned + N := Nat.lt_add_of_pos_right hN
      exact { h with
        oldest := fun _ => ⟨h.window.lt_of_not_cleaned hlt (by rw [hst]; simp), hst⟩ }
    · cases hs
      exact { h with oldest := fun h' => by cases h' }
  | drop v =>
    simp only [step, prodStep, Option.some.injEq] at hs
    subst hs
    have hc : r.cleanedIdx = hi.cleaned % N := h.cleanedPhase.eq_mod (h.cleanedLt rfl)
    have hlt := (h.oldest rfl).1
    exact { h with
      dropped := by
        have hd : hi.dropped = refs hi.accepted (hi.cleaned + 0) := h.dropped
        show hi.dropped ++ [⟨hi.owner r.cleanedIdx, r.get r.cleanedIdx⟩] = refs hi.accepted (hi.cleaned + 1)
        rw [refs_succ, hd, hc, h.owner _ (Nat.le_refl _) hlt, h.window.get_eq (Nat.le_refl _) hlt]
        rfl }
  | null v =>
    simp only [step, prodStep, Option.some.injEq] at hs
    subst hs
    have hc : r.cleanedIdx = hi.cleaned % N := h.cleanedPhase.eq_mod (h.cleanedLt rfl)
    exact { h with
      window := by rw [hc]; exact h.window.null (h.oldest rfl).1
      oldest := fun _ => ⟨(h.oldest rfl).1, by rw [RingBuffer.statusAt_setVal]; exact (h.oldest rfl).2⟩
      storing := fun i hi' => by rw [RingBuffer.statusAt_setVal]; exact h.storing i hi'
      markedIn := fun k hk hk' => by rw [RingBuffer.statusAt_setVal]; exact h.markedIn k hk hk' }
  | mark v =>
    simp only [step, prodStep, Option.some.injEq] at hs
    subst hs
    have hc : r.cleanedIdx = hi.cleaned % N := h.cleanedPhase.eq_mod (h.cleanedLt rfl)
    obtain ⟨hlt, hcons⟩ := h.oldest rfl
    have hge : hi.accepted.length ≤ hi.cleaned + N := h.window.ge
    exact { h with
      window := by rw [hc]; exact h.window.mark hlt
      cleanedPhase := h.cleanedPhase.succ (h.cleanedLt rfl)
      oldest := fun h' => by cases h'
      room := fun h' => by cases h'
      storing := fun i hi' => by
        have := h.storing i hi'
        rw [hc, RingBuffer.statusAt_setStatus_ne _ _ (by rintro rfl; rw [hcons] at this; cases this)]
        exact this
      dropped := by
        have hd : hi.dropped = refs hi.accepted (hi.cleaned + 1) := h.dropped
        exact hd
      owner := fun k hk hk' => h.owner k (Nat.le_of_succ_le hk) hk'
      markedOld := fun k hk => by
        rcases Nat.lt_succ_iff_lt_or_eq.1 hk with hlt' | rfl
        · exact h.markedOld k hlt'
        · exact (h.markedIn _ (Nat.le_refl _) hlt).2 hcons
      markedIn := fun k hk hk' => by
        have hk : hi.cleaned + 1 ≤ k := hk
        have hk' : k < hi.accepted.length := hk'
        rw [hc, RingBuffer.statusAt_setStatus_ne _ _ (Window.mod_ne (Nat.le_refl hi.cleaned) (by omega) (by omega)
          (by omega) (by omega))]
        exact h.markedIn k (Nat.le_of_succ_le hk) hk' }
  | advance v =>
    simp only [step, prodStep, Option.some.injEq] at hs
    subst hs
    exact { h with
      window := h.window.of_slots rfl
      cleanedLt := fun h' => by cases h' }
  | wrap v =>
    simp only [step, prodStep, Option.some.injEq, hsize] at hs
    subst hs
    exact { h with
      window := h.window.of_slots rfl
      producePhase := h.producePhase.wrapped hN
      produceLt := fun _ => wrap_lt hN _ }
  | test v =>
    simp only [step, prodStep] at hs
    have hp : r.produceIdx = hi.accepted.length % N := h.producePhase.eq_mod (h.produceLt rfl)
    split at hs
    · cases hs
    · rename_i hst
      cases hs
      rw [hp] at hst
      have hge : hi.accepted.length ≤ hi.cleaned + N := h.window.ge
      have hroom : hi.accepted.length < hi.cleaned + N := by
        by_contra hfull
        have hlen : hi.accepted.length = hi.cleaned + N := by omega
        rw [hlen, Nat.add_mod_right] at hst
        have : hi.accepted.length ≤ hi.cleaned := h.window.le_of_cleaned (Nat.le_refl _) hst
        omega
      exact { h with room := fun _ => hroom }
    · cases hs
      exact { h with room := fun h' => by cases h' }
  | refuse v =>
    simp only [step, prodStep, Option.some.injEq] at hs
    subst hs
    exact { h with produceLt := fun h' => by cases h' }
  | store v =>
    simp only [step, prodStep, Option.some.injEq] at hs
    subst hs
    have hp : r.produceIdx = hi.accepted.length % N := h.producePhase.eq_mod (h.produceLt rfl)
    exact { h with
      window := by rw [hp]; exact h.window.store (h.room rfl) v
      oldest := fun h' => by cases h'
      storing := fun i hi' => by rw [RingBuffer.statusAt_setVal]; exact h.storing i hi'
      markedIn := fun k hk hk' => by rw [RingBuffer.statusAt_setVal]; exact h.markedIn k hk hk' }
  | publish v =>
    simp only [step, prodStep, Option.some.injEq] at hs
    subst hs
    have hp : r.produceIdx = hi.accepted.length % N := h.producePhase.eq_mod (h.produceLt rfl)
    have hroom : hi.accepted.length < hi.cleaned + N := h.room rfl
    have hle : hi.cleaned ≤ hi.accepted.length := h.window.le
    have hfree := h.window.free _ (Nat.le_refl _) hroom
    have hother : ∀ k, hi.cleaned ≤ k → k < hi.accepted.length → hi.accepted.length % N ≠ k % N :=
      fun k hk hk' => Window.mod_ne hle hroom hk (by omega) (by omega)
    exact { h with
      window := by rw [hp]; exact h.window.publish hroom
      producePhase := by
        rw [List.length_append, List.length_singleton]
        exact h.producePhase.succ (h.produceLt rfl)
      oldest := fun h' => by cases h'
      room := fun h' => by cases h'
      storing := fun i hi' => by
        have := h.storing i hi'
        rw [hp, RingBuffer.statusAt_setStatus_ne _ _ (by rintro rfl; rw [hfree] at this; cases this)]
        exact this
      dropped := by
        have hd : hi.dropped = refs hi.accepted hi.cleaned := h.dropped
        show hi.dropped = refs (hi.accepted ++ [v]) hi.cleaned
        rw [refs_append _ _ hle, hd]
      owner := fun k hk hk' => by
        simp only [List.length_append, List.length_singleton] at hk'
        show Function.update hi.owner r.produceIdx hi.accepted.length (k % N) = k
        rw [hp, Function.update_apply]
        rcases Nat.lt_succ_iff_lt_or_eq.1 hk' with hlt | rfl
        · rw [if_neg (Ne.symm (hother k hk hlt))]
          exact h.owner k hk hlt
        · rw [if_pos rfl]
      markedIn := fun k hk hk' => by
        simp only [List.length_append, List.length_singleton] at hk'
        rw [hp]
        rcases Nat.lt_succ_iff_lt_or_eq.1 hk' with hlt | rfl
        · rw [RingBuffer.statusAt_setStatus_ne _ _ (hother k hk hlt)]
          exact h.markedIn k hk hlt
        · rw [RingBuffer.statusAt_setStatus_self _ hfree]
          exact ⟨fun hm => absurd (h.markedLt _ hm) (Nat.lt_irrefl _), fun e => by cases e⟩
      markedLt := fun k hk => by
        rw [List.length_append]
        exact Nat.lt_add_right _ (h.markedLt k hk) }
  | notify v =>
    simp only [step, prodStep, Option.some.injEq] at hs
    subst hs
    exact { h with }
  | bump v =>
    simp only [step, prodStep, Option.some.injEq] at hs
    subst hs
    exact { h with
      window := h.window.of_slots rfl
      produceLt := fun h' => by cases h' }

theorem cons (h : RingInv N s) (hs : step s .cons = some s') : RingInv N s' := by
  obtain ⟨r, nf, pc, cs, so, hi⟩ := s
  have hN := h.pos
  have hsize : r.size = N := h.window.size
  cases cs with
  | between last =>
    simp only [step, consStep, Option.some.injEq, hsize] at hs
    subst hs
    have hlt := wrap_lt hN r.consumeIdx
    exact { h with
      window := h.window.of_slots rfl
      consumeLe := hlt.le
      consumeLt := fun _ => hlt }
  | test =>
    simp only [step, consStep] at hs
    split at hs
    · cases hs
    · cases hs; exact { h with consumeLt := fun _ => h.consumeLt rfl }
    · cases hs; exact { h with consumeLt := fun _ => h.consumeLt rfl }
  | skip =>
    simp only [step, consStep, Option.some.injEq] at hs
    subst hs
    exact { h with
      window := h.window.of_slots rfl
      consumeLe := h.consumeLt rfl
      consumeLt := fun h' => by cases h' }
  | test2 =>
    simp only [step, consStep] at hs
    split at hs
    · cases hs
    · cases hs; exact { h with consumeLt := fun _ => h.consumeLt rfl }
    · cases hs; exact { h with consumeLt := fun h' => by cases h' }
  | take =>
    simp only [step, consStep, Option.some.injEq] at hs
    subst hs
    exact { h with
      window := h.window.of_slots rfl
      consumeLe := h.consumeLt rfl
      consumeLt := fun h' => by cases h' }
  | call i =>
    simp only [step, consStep, Option.some.injEq] at hs
    subst hs
    exact { h with consumeLt := fun h' => by cases h' }
  | callback k =>
    simp only [step, consStep, Option.some.injEq] at hs
    subst hs
    exact { h with consumeLt := fun h' => by cases h' }

theorem doneTest {k : Nat} (h : RingInv N s) (hs : step s (.doneTest k) = some s') : RingInv N s' := by
  simp only [step, doneTestStep] at hs
  split at hs
  · split at hs
    · cases hs
    · rename_i hst
      cases hs
      exact { h with storing := fun i hi => by cases hi; exact hst }
    · cases hs
      exact { h with }
  · cases hs

theorem doneStore (h : RingInv N s) (hs : step s .doneStore = some s') : RingInv N s' := by
  simp only [step, doneStoreStep] at hs
  split at hs
  · cases hs
  · rename_i i hso
    cases hs
    have hst := h.storing i hso
    obtain ⟨k, hk, hk', rfl⟩ := h.window.exists_count hst (by simp)
    have hge := h.window.ge
    have hother : ∀ j, s.hist.cleaned ≤ j → j < s.hist.accepted.length → j ≠ k → k % N ≠ j % N :=
      fun j hj hj' hne => Window.mod_ne hk (by omega) hj (by omega) (Ne.symm hne)
    exact { h with
      window := h.window.consume hk hk'
      oldest := fun h' => by
        obtain ⟨hlt, hc⟩ := h.oldest h'
        refine ⟨hlt, ?_⟩
        rw [RingBuffer.statusAt_setStatus_ne _ _ (fun e => by rw [e, hc] at hst; cases hst)]
        exact hc
      storing := fun i hi => by cases hi
      markedOld := fun j hj => List.mem_append_left _ (h.markedOld j hj)
      markedIn := fun j hj hj' => by
        show j ∈ s.hist.marked ++ [s.hist.owner (k % N)] ↔ _
        rw [h.owner k hk hk', List.mem_append, List.mem_singleton]
        by_cases hjk : j = k
        · subst hjk
          simp [RingBuffer.statusAt_setStatus_self _ hst]
        · rw [RingBuffer.statusAt_setStatus_ne _ _ (hother j hj hj' hjk), ← h.markedIn j hj hj']
          simp [hjk]
      markedLt := fun j hj => by
        rcases List.mem_append.1 hj with hj | hj
        · exact h.markedLt j hj
        · rw [List.mem_singleton.1 hj, h.owner k hk hk']
          exact hk' }

theorem step {a : Act α} (h : RingInv N s) (hs : Shm.step s a = some s') : RingInv N s' := by
  cases a with
  | offer v => exact h.offer hs
  | prod t t' => exact h.prod hs
  | cons => exact h.cons hs
  | doneTest k => exact h.doneTest hs
  | doneStore => exact h.doneStore hs

end RingInv

/-- **The run lemma**: the invariant holds in every state of every run. -/
theorem ringInv_reach {N : Nat} (hN : 0 < N) {G : St α → Act α → Prop} {s : St α}
    (h : Reach step G (St.start α N) s) : RingInv N s :=
  h.invariant (RingInv.start N hN) (fun _ _ _ _ hi _ hs => hi.step hs)

/-! ## A ring without slots -/

/-- **A ring without slots**: no `Offer` gets past the first `data->at`. -/
structure Slotless (s : St α) : Prop where
  size : s.ring.size = 0
  prod : s.prod = .idle ∨ ∃ v, s.prod = .clean v ∨ s.prod = .cleanTest v
  accepted : s.hist.accepted = []

namespace Slotless

variable {s s' : St α}

theorem start (α : Type) : Slotless (St.start α 0) := ⟨rfl, .inl rfl, rfl⟩

theorem statusAt_eq_none (h : Slotless s) (i : Nat) : s.ring.statusAt i = none := by
  cases hst : s.ring.statusAt i with
  | none => rfl
  | some st =>
    have hlt := RingBuffer.lt_of_statusAt hst
    rw [h.size] at hlt
    exact absurd hlt (Nat.not_lt_zero i)

theorem step {a : Act α} (h : Slotless s) (hs : Shm.step s a = some s') : Slotless s' := by
  cases a with
  | offer v =>
    simp only [Shm.step] at hs
    split at hs <;> cases hs
    exact ⟨h.size, .inr ⟨v, .inl rfl⟩, h.accepted⟩
  | prod t t' =>
    rcases h.prod with hidle | ⟨v, hclean | htest⟩
    · simp only [Shm.step, prodStep, hidle] at hs
      cases hs
    · simp only [Shm.step, prodStep, hclean, Option.some.injEq] at hs
      subst hs
      exact ⟨h.size, .inr ⟨v, .inr rfl⟩, h.accepted⟩
    · simp only [Shm.step, prodStep, htest, h.statusAt_eq_none] at hs
      cases hs
  | cons =>
    obtain ⟨r, nf, pc, cs, so, hi⟩ := s
    cases cs with
    | between last | skip | take | call i | callback k => cases hs; exact ⟨h.size, h.prod, h.accepted⟩
    | test | test2 =>
      simp only [Shm.step, consStep] at hs
      split at hs <;> cases hs <;> exact ⟨h.size, h.prod, h.accepted⟩
  | doneTest k =>
    simp only [Shm.step, doneTestStep] at hs
    split at hs
    · split at hs <;> cases hs <;> exact ⟨h.size, h.prod, h.accepted⟩
    · cases hs
  | doneStore =>
    simp only [Shm.step, doneStoreStep] at hs
    split at hs <;> cases hs
    exact ⟨(RingBuffer.size_setStatus ..).trans h.size, h.prod, h.accepted⟩

end Slotless

/-- An INIT slot still holds its item, wherever the producer stands. -/
theorem RingInv.get_of_init {N k : Nat} {s : St α} (h : RingInv N s) (hk : s.hist.cleaned ≤ k)
    (hk' : k < s.hist.accepted.length) (hst : s.ring.statusAt (k % N) = some .init) :
    s.ring.get (k % N) = s.hist.accepted[k]? := by
  unfold RingBuffer.get
  rw [h.window.held k hk hk', if_neg]
  · rfl
  · rintro ⟨hn, rfl⟩
    have hr : s.prod.reclaims = true := by
      cases hp : s.prod <;> rw [hp] at hn <;> first | rfl | cases hn
    rw [(h.oldest hr).2] at hst
    cases hst

/-! ## What the reader sees of a producer step -/

/-- **A producer step as the reader sees it**: at most the oldest CONSUMED slot becomes CLEANED, or the first CLEANED
one INIT. -/
structure ProdFrame (N : Nat) (s s' : St α) : Prop where
  cons : s'.cons = s.cons
  storing : s'.storing = s.storing
  consumeIdx : s'.ring.consumeIdx = s.ring.consumeIdx
  delivered : s'.hist.delivered = s.hist.delivered
  called : s'.hist.called = s.hist.called
  cleaned : s'.hist.cleaned = s.hist.cleaned ∨ (s'.hist.cleaned = s.hist.cleaned + 1 ∧
    s.hist.cleaned < s.hist.accepted.length ∧ s.ring.statusAt (s.hist.cleaned % N) = some .consumed)
  accepted : s'.hist.accepted = s.hist.accepted ∨ (∃ v, s'.hist.accepted = s.hist.accepted ++ [v] ∧
    s'.ring.statusAt (s.hist.accepted.length % N) = some .init)
  status : ∀ k, s'.hist.cleaned ≤ k → k < s.hist.accepted.length →
    s'.ring.statusAt (k % N) = s.ring.statusAt (k % N)

theorem prodFrame_offer {N : Nat} {s s' : St α} {v : α} (hs : step s (.offer v) = some s') : ProdFrame N s s' := by
  simp only [step] at hs
  split at hs
  · cases hs
    exact ⟨rfl, rfl, rfl, rfl, rfl, .inl rfl, .inl rfl, fun _ _ _ => rfl⟩
  · cases hs

theorem prodFrame_prod {N : Nat} {s s' : St α} {t t' : Int} (h : RingInv N s)
    (hs : step s (.prod t t') = some s') : ProdFrame N s s' := by
  obtain ⟨r, nf, pc, cs, so, hi⟩ := s
  cases pc with
  | idle => cases hs
  | clean v => cases hs; exact ⟨rfl, rfl, rfl, rfl, rfl, .inl rfl, .inl rfl, fun _ _ _ => rfl⟩
  | cleanTest v =>
    simp only [step, prodStep] at hs
    split at hs <;> cases hs <;> exact ⟨rfl, rfl, rfl, rfl, rfl, .inl rfl, .inl rfl, fun _ _ _ => rfl⟩
  | drop v => cases hs; exact ⟨rfl, rfl, rfl, rfl, rfl, .inl rfl, .inl rfl, fun _ _ _ => rfl⟩
  | null v =>
    cases hs
    exact ⟨rfl, rfl, rfl, rfl, rfl, .inl rfl, .inl rfl, fun _ _ _ => RingBuffer.statusAt_setVal r _ _ _⟩
  | mark v =>
    cases hs
    have hc : r.cleanedIdx = hi.cleaned % N := h.cleanedPhase.eq_mod (h.cleanedLt rfl)
    have hge : hi.accepted.length ≤ hi.cleaned + N := h.window.ge
    refine ⟨rfl, rfl, rfl, rfl, rfl, .inr ⟨rfl, h.oldest rfl⟩, .inl rfl, fun k hk hk' => ?_⟩
    have hk : hi.cleaned + 1 ≤ k := hk
    have hk' : k < hi.accepted.length := hk'
    exact RingBuffer.statusAt_setStatus_ne r _ (hc ▸ Window.mod_ne (Nat.le_refl _) (by omega) (by omega) (by omega)
      (by omega))
  | advance v => cases hs; exact ⟨rfl, rfl, rfl, rfl, rfl, .inl rfl, .inl rfl, fun _ _ _ => rfl⟩
  | wrap v => cases hs; exact ⟨rfl, rfl, rfl, rfl, rfl, .inl rfl, .inl rfl, fun _ _ _ => rfl⟩
  | test v =>
    simp only [step, prodStep] at hs
    split at hs <;> cases hs <;> exact ⟨rfl, rfl, rfl, rfl, rfl, .inl rfl, .inl rfl, fun _ _ _ => rfl⟩
  | refuse v => cases hs; exact ⟨rfl, rfl, rfl, rfl, rfl, .inl rfl, .inl rfl, fun _ _ _ => rfl⟩
  | store v =>
    cases hs
    exact ⟨rfl, rfl, rfl, rfl, rfl, .inl rfl, .inl rfl, fun _ _ _ => RingBuffer.statusAt_setVal r _ _ _⟩
  | publish v =>
    cases hs
    have hp : r.produceIdx = hi.accepted.length % N := h.producePhase.eq_mod (h.produceLt rfl)
    have hroom : hi.accepted.length < hi.cleaned + N := h.room rfl
    have hfree : r.statusAt (hi.accepted.length % N) = some .cleaned := h.window.free _ (Nat.le_refl _) hroom
    refine ⟨rfl, rfl, rfl, rfl, rfl, .inl rfl, .inr ⟨v, rfl, ?_⟩, fun k hk hk' => ?_⟩
    · show (r.setStatus r.produceIdx .init).statusAt (hi.accepted.length % N) = some .init
      rw [hp]
      exact RingBuffer.statusAt_setStatus_self _ hfree
    · have hk : hi.cleaned ≤ k := hk
      have hk' : k < hi.accepted.length := hk'
      have hle : hi.cleaned ≤ hi.accepted.length := h.window.le
      exact RingBuffer.statusAt_setStatus_ne r _ (hp ▸ Window.mod_ne hle hroom hk (by omega) (by omega))
  | notify v => cases hs; exact ⟨rfl, rfl, rfl, rfl, rfl, .inl rfl, .inl rfl, fun _ _ _ => rfl⟩
  | bump v => cases hs; exact ⟨rfl, rfl, rfl, rfl, rfl, .inl rfl, .inl rfl, fun _ _ _ => rfl⟩

/-! ## Between two calls of `Offer` -/

/-- **The ring between two calls of `Offer`**, `n` of its slots being in use. -/
structure Settled (N : Nat) (s : St α) (n : Nat) : Prop where
  size : s.ring.size = N
  le : n ≤ N
  newest : n ≤ s.hist.accepted.length
  cleanedLt : s.ring.cleanedIdx < N
  produceLe : s.ring.produceIdx ≤ N
  consumeLe : s.ring.consumeIdx ≤ N
  ends : s.ring.produceIdx % N = (s.ring.cleanedIdx + n) % N
  used : ∀ i < N, s.ring.statusAt i ≠ some .cleaned ↔ ∃ j < n, i = (s.ring.cleanedIdx + j) % N
  holds : ∀ j < n, s.ring.valAt ((s.ring.cleanedIdx + j) % N) =
    some (s.hist.accepted[s.hist.accepted.length - n + j]?)
  null : ∀ i < N, s.ring.statusAt i = some .cleaned → s.ring.valAt i = some none
  reclaimed : s.hist.dropped = refs s.hist.accepted (s.hist.accepted.length - n)

theorem RingInv.settled {N : Nat} {s : St α} (h : RingInv N s) (hidle : s.prod = .idle) :
    Settled N s (s.hist.accepted.length - s.hist.cleaned) := by
  have hw := h.window
  have hcl := h.cleanedPhase
  have hpp := h.producePhase
  have hd := h.dropped
  have hlt := h.cleanedLt
  rw [hidle] at hw hcl hpp hd hlt
  have hle := hw.le
  have hge := hw.ge
  have hc : s.ring.cleanedIdx = s.hist.cleaned % N := hcl.eq_mod (hlt rfl)
  have hmod : ∀ j, (s.ring.cleanedIdx + j) % N = (s.hist.cleaned + j) % N := fun j => by rw [hc, Nat.mod_add_mod]
  refine ⟨hw.size, by omega, by omega, hlt rfl, hpp.le, h.consumeLe, ?_, fun i hi => ⟨fun hs => ?_, ?_⟩, fun j hj => ?_,
    fun i hi hs => ?_, ?_⟩
  · rw [hmod, show s.hist.cleaned + (s.hist.accepted.length - s.hist.cleaned) = s.hist.accepted.length by omega]
    exact hpp.mod
  · obtain ⟨k, hk, hk', rfl⟩ := Cyclic.exists_window s.hist.cleaned hi
    have := hw.lt_of_not_cleaned hk' hs
    exact ⟨k - s.hist.cleaned, by omega, by rw [hmod, show s.hist.cleaned + (k - s.hist.cleaned) = k by omega]⟩
  · rintro ⟨j, hj, rfl⟩
    rw [hmod]
    rcases hw.occ (s.hist.cleaned + j) (by omega) (by omega) with hs | hs <;> rw [hs] <;> simp
  · rw [hmod, hw.held (s.hist.cleaned + j) (by omega) (by omega)]
    simp [ProdPc.nulled,
      show s.hist.accepted.length - (s.hist.accepted.length - s.hist.cleaned) + j = s.hist.cleaned + j by omega]
  · obtain ⟨k, hk, hk', rfl⟩ := Cyclic.exists_window s.hist.cleaned hi
    rw [hw.empty k (hw.le_of_cleaned hk hs) hk']
    simp [ProdPc.pend]
  · rw [hd, show s.hist.accepted.length - (s.hist.accepted.length - s.hist.cleaned) = s.hist.cleaned by omega]
    rfl

/-- **The producer's view of the ring is exact between its calls**, whatever the reader and its closures do. -/
theorem ring_between_offers (N : Nat) (hN : 0 < N) (s : St α) (h : Reach step Machine.anyStep (St.start α N) s)
    (hidle : s.prod = .idle) : ∃ n, Settled N s n :=
  ⟨_, (ringInv_reach hN h).settled hidle⟩

/-- A call of `Offer(v)` and `n` steps of the producer. -/
def offering (v n : Nat) : List (Act Nat) := .offer v :: List.replicate n (.prod 0 0)

/-- `n` steps of the reader. -/
def reading (n : Nat) : List (Act Nat) := List.replicate n .cons

def threeOffers : List (Act Nat) :=
  offering 7 8 ++ offering 8 8 ++ reading 6 ++ [.doneTest 0, .doneStore] ++ offering 9 14

theorem ring_between_offers_three : ∃ s, Machine.exec step Machine.anyStep (St.start Nat 2) threeOffers = some s ∧
    s.hist.accepted = [7, 8, 9] ∧ ∃ n, Settled 2 s n :=
  ⟨_, rfl, rfl, ring_between_offers 2 (by decide) _ (Machine.reach_of_exec _ _ threeOffers _ rfl) rfl⟩

end Shm
