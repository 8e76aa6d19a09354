import ShmMultiproc.Accepts
import ShmMultiproc.Access
import ShmMultiproc.Lined
/-!
# Parted — a growth that parts the reader from the producer

As long as a ring has the size it was made with, its indices stand for counts modulo that size, and `0` and the size are
one place.  On a ring that has grown they are two.  Where the reader, once everything pending is delivered, is at one of
them and the producer at the other, the next item accepted is not the next one delivered (`parted`).
-/
namespace Shm

open Cyclic (Phase wrap wrap_of_lt exists_window)
open Machine (Reach)
open RingBuffer (cleanPass cleanLoop tryCleanConsumedItems place)

variable {α : Type}

/-! ## Runs without a growth -/

section

variable {N : Nat} {s s' : St α}

theorem DelivInv.unlapped {a : Act α} (h : DelivInv N s) (hg : StaysBehind s a) : Unlapped s a := by
  cases a with
  | cons =>
    intro ht
    have hN := h.ring.pos
    have hsize := h.ring.window.size
    have hge := h.ring.window.ge
    have hle := h.le
    have hphase := h.phase
    rw [ht, show ConsPc.test.lead = 0 from rfl, Nat.add_zero] at hphase
    rcases hg ht with hne | hcl | hone
    · have hpos := List.length_pos_iff.2 hne
      rw [length_pending] at hpos
      exact .inl (by omega)
    · refine .inl (Nat.lt_of_not_le (fun hlap => ?_))
      have hq : s.hist.delivered.length = s.hist.cleaned + N := by omega
      rw [hphase.eq_mod (h.ring.consumeLt (by rw [ht]; rfl)), hq, Nat.add_mod_right] at hcl
      rcases h.ring.window.occ s.hist.cleaned (Nat.le_refl _) (by omega) with hst | hst <;> rw [hst] at hcl <;> cases hcl
    · exact .inr hone
  | offer v => trivial
  | prod t t' => trivial
  | doneTest k => trivial
  | doneStore => trivial

/-- **A closure that was called has made its store, or is about to.** -/
def Marks (N : Nat) (s : St α) : Prop :=
  ∀ k ∈ s.hist.called, s.hist.cleaned ≤ k → s.ring.statusAt (k % N) = some .consumed ∨ s.storing = some (k % N)

theorem DelivInv.slot (h : DelivInv N s) {k : Nat} {d : Delivery α} (hd : s.hist.delivered[k]? = some d) :
    k < s.hist.delivered.length ∧ d.slot = k % N := by
  have hlt := (List.getElem?_eq_some_iff.1 hd).1
  rw [h.delivered, inOrder_getElem?, if_pos hlt] at hd
  cases hd
  exact ⟨hlt, rfl⟩

namespace Marks

theorem frame (h : Marks N s) (hd : DelivInv N s) (hf : ProdFrame N s s') : Marks N s' := by
  intro k hk hc
  rw [hf.called] at hk
  have hlt := hd.calledLt k hk
  have hle := hd.le
  rw [hf.status k hc (by omega), hf.storing]
  exact h k hk (by rcases hf.cleaned with e | ⟨e, -, -⟩ <;> omega)

theorem step {a : Act α} (h : Marks N s) (hd : DelivInv N s) (hs : step s a = some s') : Marks N s' := by
  cases a with
  | offer v => exact h.frame hd (prodFrame_offer hs)
  | prod t t' => exact h.frame hd (prodFrame_prod hd.ring hs)
  | cons =>
    obtain ⟨r, nf, pc, cs, so, hi⟩ := s
    cases cs with
    | between last | skip | take | call i | callback k => cases hs; exact h
    | test | test2 =>
      simp only [Shm.step, consStep] at hs
      split at hs <;> cases hs <;> exact h
  | doneTest k =>
    simp only [Shm.step, doneTestStep] at hs
    split at hs
    · rename_i d hso hdk
      obtain ⟨hlt, hslot⟩ := hd.slot hdk
      have hle := hd.le
      have hold : ∀ j ∈ s.hist.called, s.hist.cleaned ≤ j → s.ring.statusAt (j % N) = some .consumed := fun j hj hc =>
        (h j hj hc).resolve_right (fun e => by rw [hso] at e; cases e)
      split at hs
      · cases hs
      · cases hs
        intro j hj hc
        rcases List.mem_append.1 hj with hj | hj
        · exact .inl (hold j hj hc)
        · cases List.mem_singleton.1 hj
          exact .inr (congrArg some hslot)
      · rename_i st hne hst
        cases hs
        intro j hj hc
        rcases List.mem_append.1 hj with hj | hj
        · exact .inl (hold j hj hc)
        · cases List.mem_singleton.1 hj
          refine .inl ((hd.ring.window.occ k hc (by omega)).resolve_left (fun hin => hne ?_))
          rw [hslot, hin] at hst
          exact (Option.some.inj hst).symm
    · cases hs
  | doneStore =>
    simp only [Shm.step, doneStoreStep] at hs
    split at hs <;> cases hs
    rename_i i hso
    intro k hk hc
    refine .inl ?_
    show (s.ring.setStatus i .consumed).statusAt (k % N) = some .consumed
    rcases h k hk hc with hst | hi
    · by_cases he : i = k % N
      · rw [he]
        exact RingBuffer.statusAt_setStatus_self _ hst
      · rw [RingBuffer.statusAt_setStatus_ne _ _ he]
        exact hst
    · rw [hso] at hi
      cases hi
      exact RingBuffer.statusAt_setStatus_self _ (hd.ring.storing _ hso)

end Marks

theorem DelivInv.init_owed {i : Nat} (h : DelivInv N s) (hm : Marks N s) (hi : s.ring.statusAt i = some .init) :
    s.storing = some i ∨ ∃ k < s.hist.accepted.length, k ∉ s.hist.called ∧ k % N = i := by
  have hiN : i < N := by
    rw [← h.ring.window.size]
    exact RingBuffer.lt_of_statusAt hi
  obtain ⟨k, hk, hk', rfl⟩ := exists_window s.hist.cleaned hiN
  by_cases hcalled : k ∈ s.hist.called
  · refine .inl ((hm k hcalled hk).resolve_left (fun hst => ?_))
    cases hst.symm.trans hi
  · refine .inr ⟨k, Nat.lt_of_not_le (fun hge => ?_), hcalled, rfl⟩
    cases (h.ring.window.free k hge hk').symm.trans hi

theorem DelivInv.free_or_next (h : DelivInv N s) (hidle : s.prod = .idle) :
    s.ring.statusAt (s.hist.accepted.length % N) = some .cleaned ∨
      s.ring.cleanedIdx = s.hist.accepted.length % N := by
  have hcl := h.ring.cleanedPhase
  have hlt := h.ring.cleanedLt
  rw [hidle] at hcl hlt
  refine (Nat.lt_or_eq_of_le h.ring.window.ge).imp (h.ring.window.free _ (Nat.le_refl _)) (fun heq => ?_)
  rw [heq, Nat.add_mod_right]
  exact hcl.eq_mod (hlt rfl)

/-- **A run whose ring still has its first size is one without a growth.** -/
theorem Growing.ungrown_reach (h : Reach Growing.step InLine (St.start α N) s) (hN : 0 < N) :
    N ≤ s.ring.size ∧ (s.ring.size = N → DelivInv N s ∧ Marks N s) := by
  have hstart := DelivInv.start (α := α) N hN
  refine h.invariant (I := fun s => N ≤ s.ring.size ∧ (s.ring.size = N → DelivInv N s ∧ Marks N s))
    ⟨hstart.ring.window.size.ge, fun _ => ⟨hstart, fun k hk => by cases hk⟩⟩ (fun s₁ a s₂ _ hi hg hs => ?_)
  obtain ⟨hle, hinv⟩ := hi
  cases a with
  | ring a =>
    have hsize : s₂.ring.size = s₁.ring.size := (onward_step hs).size
    refine ⟨hsize ▸ hle, fun he => ?_⟩
    obtain ⟨hd, hset⟩ := hinv (hsize ▸ he)
    exact ⟨hd.step hg.1 (hd.unlapped hg.2) hs, hset.step hd hs⟩
  | openWrite maxsize =>
    simp only [Growing.step] at hs
    split at hs <;> cases hs
    have hM : s₁.ring.size ≤ maxsize := by
      rcases hg with rfl | ⟨hM, -⟩
      · exact Nat.le_refl _
      · exact hM
    rw [size_opened hM]
    refine ⟨hle.trans hM, fun he => ?_⟩
    obtain rfl : s₁.ring.size = maxsize := by omega
    rw [opened_self]
    exact hinv he

end

/-! ## Everything pending is delivered -/

/-- After the deliveries `D`, one slot after the other. -/
def St.read (s : St α) (D : List (Delivery α)) (last : RingBuffer.Code) : St α :=
  { s with
    ring := { s.ring with consumeIdx := s.ring.consumeIdx + D.length }
    cons := .between last
    hist := { s.hist with delivered := s.hist.delivered ++ D } }

theorem read_nil {s : St α} {last : RingBuffer.Code} (hc : s.cons = .between last) : s.read [] last = s := by
  unfold St.read
  rw [List.append_nil, ← hc]
  rfl

theorem read_read (s : St α) (D D' : List (Delivery α)) (last last' : RingBuffer.Code) :
    (s.read D last).read D' last' = s.read (D ++ D') last' := by
  unfold St.read
  simp only [List.append_assoc, List.length_append, Nat.add_assoc]

theorem pending_read (s : St α) (D : List (Delivery α)) (last : RingBuffer.Code) :
    (s.read D last).pending = s.pending.drop D.length := by
  unfold St.pending St.read
  rw [List.drop_drop, List.length_append]

theorem deliver_one {s : St α} {last : RingBuffer.Code} (hc : s.cons = .between last)
    (hst : s.ring.statusAt s.ring.consumeIdx = some .init) (hp : s.pending ≠ []) :
    ∃ d, d.slot = s.ring.consumeIdx ∧ Reach step Orderly s (s.read [d] .cont) := by
  have hlt := RingBuffer.lt_of_statusAt hst
  have hw := wrap_of_lt hlt
  obtain ⟨r, nf, pc, cs, so, hi⟩ := s
  cases hc
  have hread : step ⟨r, nf, pc, .between last, so, hi⟩ .cons = some ⟨r, nf, pc, .test, so, hi⟩ := by
    simp only [step, consStep, hw]
    rw [if_neg (Nat.not_le.2 hlt)]
  have htest : step ⟨r, nf, pc, .test, so, hi⟩ .cons = some ⟨r, nf, pc, .test2, so, hi⟩ := by
    simp only [step, consStep, hst]
  have htest2 : step ⟨r, nf, pc, .test2, so, hi⟩ .cons = some ⟨r, nf, pc, .take, so, hi⟩ := by
    simp only [step, consStep, hst]
  have quiet : ∀ {s₁ s₂ : St α}, s₁.cons ≠ .test → step s₁ .cons = some s₂ → Reach step Orderly s₁ s₂ := fun hne hs =>
    .single (a := Act.cons) ⟨trivial, fun ht => absurd ht hne⟩ hs
  have hseen : Reach step Orderly ⟨r, nf, pc, .test, so, hi⟩ ⟨r, nf, pc, .test2, so, hi⟩ :=
    .single (a := Act.cons) ⟨trivial, fun _ => .inl hp⟩ htest
  exact ⟨_, rfl, (quiet (by simp) hread).trans (hseen.trans ((quiet (by simp) htest2).trans
    ((quiet (by simp) rfl).trans ((quiet (by simp) rfl).trans (quiet (by simp) rfl)))))⟩

/-- **The reader takes everything pending** from the slots that lie ahead of it. -/
theorem deliver_all : ∀ (n : Nat) (s : St α) (last : RingBuffer.Code), s.cons = .between last → s.pending.length = n →
    (∀ j < n, s.ring.statusAt (s.ring.consumeIdx + j) = some .init) →
    ∃ D last', D.map Delivery.slot = List.range' s.ring.consumeIdx n ∧ Reach step Orderly s (s.read D last')
  | 0, s, last, hc, _, _ => ⟨[], last, rfl, by rw [read_nil hc]; exact .init⟩
  | n + 1, s, last, hc, hlen, hst => by
    obtain ⟨d, hd, hone⟩ := deliver_one hc (hst 0 (Nat.succ_pos n)) (List.length_pos_iff.1 (by omega))
    obtain ⟨D, last', hD, hrest⟩ := deliver_all n (s.read [d] .cont) .cont rfl
      (by rw [pending_read, List.length_drop, hlen]; rfl)
      (fun j hj => by
        have := hst (j + 1) (by omega)
        rw [show s.ring.consumeIdx + (j + 1) = s.ring.consumeIdx + 1 + j by omega] at this
        exact this)
    rw [read_read] at hrest
    refine ⟨d :: D, last', ?_, hone.trans hrest⟩
    rw [List.map_cons, hD, hd, List.range'_succ]
    rfl

/-! ## The closures are called -/

/-- **Everything is delivered**, the reader is at `e` and the producer at `p`, on a ring of `M` slots that had `N`; and a
slot is INIT only for a closure that has still to be called or to make its store. -/
structure Split (N M e p : Nat) (D : List (Delivery α)) (s : St α) : Prop where
  prod : s.prod = .idle
  cons : ∃ last, s.cons = .between last
  size : s.ring.size = M
  consumeIdx : s.ring.consumeIdx = e
  produceIdx : s.ring.produceIdx = p
  delivered : s.hist.delivered = D
  accepted : s.hist.accepted.length = D.length
  last : s.ring.statusAt N = some .cleaned
  first : s.ring.statusAt 0 = some .cleaned ∨ s.ring.cleanedIdx = 0
  slots : ∀ d ∈ D, d.slot < M
  storing : ∀ i, s.storing = some i → s.ring.statusAt i = some .init
  owed : ∀ i, s.ring.statusAt i = some .init →
    s.storing = some i ∨ ∃ k d, D[k]? = some d ∧ k ∉ s.hist.called ∧ d.slot = i

namespace Split

variable {N M e p : Nat} {D : List (Delivery α)} {s s' : St α}

theorem doneTest {k : Nat} (h : Split N M e p D s) (hs : step s (.doneTest k) = some s') : Split N M e p D s' := by
  simp only [step, doneTestStep] at hs
  split at hs
  · rename_i d hso hd
    rw [h.delivered] at hd
    have hmem : ∀ {j}, j ∉ s.hist.called → j ≠ k → j ∉ s.hist.called ++ [k] := fun {j} hj hne hm =>
      (List.mem_append.1 hm).elim hj (fun hm => hne (List.mem_singleton.1 hm))
    have howed : ∀ i, s.ring.statusAt i = some .init → ∃ j c, D[j]? = some c ∧ j ∉ s.hist.called ∧ c.slot = i :=
      fun i hi => (h.owed i hi).resolve_left (fun he => by rw [hso] at he; cases he)
    split at hs
    · cases hs
    · rename_i hst
      cases hs
      refine { h with storing := fun i hi => by cases hi; exact hst, owed := fun i hi => ?_ }
      obtain ⟨j, c, hc, hj, rfl⟩ := howed i hi
      by_cases hjk : j = k
      · subst hjk
        cases hc.symm.trans hd
        exact .inl rfl
      · exact .inr ⟨j, c, hc, hmem hj hjk, rfl⟩
    · rename_i st hne hst
      cases hs
      refine { h with owed := fun i hi => ?_ }
      obtain ⟨j, c, hc, hj, rfl⟩ := howed i hi
      refine .inr ⟨j, c, hc, hmem hj (fun hjk => hne ?_), rfl⟩
      subst hjk
      cases hc.symm.trans hd
      exact Option.some.inj (hst.symm.trans hi)
  · cases hs

theorem doneStore (h : Split N M e p D s) (hs : step s .doneStore = some s') :
    Split N M e p D s' ∧ s'.storing = none ∧ s'.hist.called = s.hist.called := by
  simp only [step, doneStoreStep] at hs
  split at hs <;> cases hs
  rename_i i hso
  have hi := h.storing i hso
  have hother : ∀ {j}, s.ring.statusAt j = some .cleaned → (s.ring.setStatus i .consumed).statusAt j = some .cleaned :=
    fun {j} hj => (RingBuffer.statusAt_setStatus_ne _ _ (by rintro rfl; rw [hi] at hj; cases hj)).trans hj
  refine ⟨{ h with
    size := (RingBuffer.size_setStatus ..).trans h.size
    last := hother h.last
    first := h.first.imp_left hother
    storing := fun j hj => by cases hj
    owed := fun j hj => ?_ }, rfl, rfl⟩
  have hne : i ≠ j := by
    rintro rfl
    have hc := RingBuffer.statusAt_setStatus_self .consumed hi
    cases hc.symm.trans hj
  rw [RingBuffer.statusAt_setStatus_ne _ _ hne] at hj
  exact (h.owed j hj).imp_left (fun he => absurd (Option.some.inj (hso.symm.trans he)) hne)

theorem store (h : Split N M e p D s) : ∃ s', Reach step Orderly s s' ∧ Split N M e p D s' ∧ s'.storing = none ∧
    s'.hist.called = s.hist.called := by
  cases hso : s.storing with
  | none => exact ⟨s, .init, h, hso, rfl⟩
  | some i =>
    have hs : step s .doneStore = some { s with
        ring := s.ring.setStatus i .consumed
        storing := none
        hist := { s.hist with marked := s.hist.marked ++ [s.hist.owner i] } } := by
      simp only [step, doneStoreStep, hso]
    exact ⟨_, .single (a := Act.doneStore) ⟨trivial, trivial⟩ hs, h.doneStore hs⟩

theorem call {n : Nat} (h : Split N M e p D s) (hso : s.storing = none) (hn : n < D.length) :
    ∃ s', Reach step Orderly s s' ∧ Split N M e p D s' ∧ s'.storing = none ∧ n ∈ s'.hist.called ∧
      ∀ k ∈ s.hist.called, k ∈ s'.hist.called := by
  by_cases hmem : n ∈ s.hist.called
  · exact ⟨s, .init, h, hso, hmem, fun k hk => hk⟩
  · have hd : D[n]? = some D[n] := List.getElem?_eq_getElem hn
    obtain ⟨st, hst⟩ := RingBuffer.exists_statusAt (r := s.ring) (h.size.symm ▸ h.slots _ (List.mem_of_getElem? hd))
    obtain ⟨s₁, hs, hcalled⟩ : ∃ s₁, step s (.doneTest n) = some s₁ ∧ s₁.hist.called = s.hist.called ++ [n] := by
      simp only [step, doneTestStep, hso, h.delivered, hd, hst]
      cases st <;> exact ⟨_, rfl, rfl⟩
    obtain ⟨s₂, hr, h₂, hso₂, hcalled₂⟩ := (h.doneTest hs).store
    rw [hcalled] at hcalled₂
    refine ⟨s₂, (Reach.single (a := Act.doneTest n) ⟨hmem, trivial⟩ hs).trans hr, h₂, hso₂, ?_, fun k hk => ?_⟩ <;>
      rw [hcalled₂]
    · exact List.mem_append_right _ List.mem_cons_self
    · exact List.mem_append_left _ hk

theorem close (h : Split N M e p D s) : ∃ s', Reach step Orderly s s' ∧ Split N M e p D s' ∧
    ∀ i, s'.ring.statusAt i ≠ some .init := by
  have hall : ∀ n ≤ D.length, ∃ s', Reach step Orderly s s' ∧ Split N M e p D s' ∧ s'.storing = none ∧
      ∀ k < n, k ∈ s'.hist.called := by
    intro n
    induction n with
    | zero =>
      obtain ⟨s', hr, h', hso, -⟩ := h.store
      exact fun _ => ⟨s', hr, h', hso, fun k hk => absurd hk (Nat.not_lt_zero k)⟩
    | succ n ih =>
      intro hn
      obtain ⟨s₁, hr, h₁, hso, hk⟩ := ih (Nat.le_of_succ_le hn)
      obtain ⟨s₂, hr', h₂, hso', hmem, hold⟩ := h₁.call hso hn
      refine ⟨s₂, hr.trans hr', h₂, hso', fun k hlt => ?_⟩
      rcases Nat.lt_succ_iff_lt_or_eq.1 hlt with hlt | rfl
      · exact hold k (hk k hlt)
      · exact hmem
  obtain ⟨s', hr, h', hso, hk⟩ := hall D.length (Nat.le_refl _)
  refine ⟨s', hr, h', fun i hi => ?_⟩
  rcases h'.owed i hi with he | ⟨k, d, hd, hno, -⟩
  · rw [hso] at he
    cases he
  · exact hno (hk k (List.getElem?_eq_some_iff.1 hd).1)

end Split

/-! ## The next item -/

namespace RingBuffer

variable {r r' : RingBuffer α}

/-- What `tryCleanConsumedItems` leaves as it is. -/
structure Tidied (r r' : RingBuffer α) : Prop where
  size : r'.size = r.size
  consumeIdx : r'.consumeIdx = r.consumeIdx
  produceIdx : r'.produceIdx = r.produceIdx
  cleaned : ∀ i, r.statusAt i = some .cleaned → r'.statusAt i = some .cleaned

theorem tidied_pass {c : CleanPass α} (h : cleanPass r = .ok c) :
    (∃ r₁ x, c = .again r₁ x ∧ Tidied r r₁ ∧ r₁.statusAt (wrap r.size r.cleanedIdx) = some .cleaned) ∨
      ∃ r₁, c = .stop r₁ ∧ Tidied r r₁ ∧ r.statusAt (wrap r.size r.cleanedIdx) ≠ some .consumed := by
  unfold cleanPass at h
  simp only at h
  split at h <;> cases h
  · rename_i hst
    have hst' : (r.setVal (wrap r.size r.cleanedIdx) none).statusAt (wrap r.size r.cleanedIdx) = some .consumed :=
      (statusAt_setVal ..).trans hst
    refine .inl ⟨_, _, rfl, ⟨?_, rfl, rfl, fun i hi => ?_⟩, statusAt_setStatus_self _ hst'⟩
    · exact (size_setStatus ..).trans (size_setVal ..)
    · refine (statusAt_setStatus_ne _ _ (fun he => ?_)).trans ((statusAt_setVal ..).trans hi)
      rw [he, hi] at hst
      cases hst
  · rename_i st hne hst
    exact .inr ⟨_, rfl, ⟨rfl, rfl, rfl, fun i hi => hi⟩, fun he => hne (Option.some.inj (hst.symm.trans he))⟩

theorem Tidied.trans {r'' : RingBuffer α} (h : Tidied r r') (h' : Tidied r' r'') : Tidied r r'' :=
  ⟨h'.size.trans h.size, h'.consumeIdx.trans h.consumeIdx, h'.produceIdx.trans h.produceIdx,
    fun i hi => h'.cleaned i (h.cleaned i hi)⟩

theorem tidied_loop : ∀ (fuel : Nat) (r : RingBuffer α) (xs : List (Option α)), cleanLoop fuel r = .ok (r', xs) →
    Tidied r r' ∧ (r.statusAt (wrap r.size r.cleanedIdx) = some .consumed →
      r'.statusAt (wrap r.size r.cleanedIdx) = some .cleaned)
  | 0, _, _, h => by cases h
  | fuel + 1, r, xs, h => by
    unfold cleanLoop at h
    split at h
    · cases h
    · rename_i r₁ hp
      cases h
      rcases tidied_pass hp with ⟨_, _, hc, -, -⟩ | ⟨_, hc, ht, hne⟩ <;> cases hc
      exact ⟨ht, fun hst => absurd hst hne⟩
    · rename_i r₁ x hp
      split at h
      · cases h
      · rename_i r₂ ys hrest
        cases h
        rcases tidied_pass hp with ⟨_, _, hc, ht, hst⟩ | ⟨_, hc, -, -⟩ <;> cases hc
        have hloop := (tidied_loop fuel r₁ ys hrest).1
        exact ⟨ht.trans hloop, fun _ => hloop.cleaned _ hst⟩

theorem exists_tidied (h : 0 < r.size) : ∃ r' xs, tryCleanConsumedItems r = .ok (r', xs) := by
  cases ht : tryCleanConsumedItems r with
  | ok p => exact ⟨p.1, p.2, rfl⟩
  | error e =>
    cases e with
    | outOfRange => exact absurd ht (Access.cleanLoop_of_pos _ r h).1
    | running => exact absurd ht (tryCleanConsumedItems_ne_running r)

theorem exists_offer {n : Nat} (v : α) (hn : n < r.size) (hp : r.produceIdx = 0 ∨ r.produceIdx = n)
    (hlast : r.statusAt n = some .cleaned) (hfirst : r.statusAt 0 = some .cleaned ∨ r.cleanedIdx = 0)
    (hinit : r.statusAt 0 ≠ some .init) : ∃ o, offer v r = .ok o ∧ o.code = 0 ∧ o.ring.size = r.size ∧
      o.ring.consumeIdx = r.consumeIdx ∧
      ∀ i, i = 0 ∨ i = n → i ≠ r.produceIdx → o.ring.statusAt i = some .cleaned := by
  have hpos : 0 < r.size := Nat.zero_lt_of_lt hn
  obtain ⟨r', xs, hr'⟩ := exists_tidied hpos
  obtain ⟨ht, hthis⟩ := tidied_loop _ r xs hr'
  have hzero : r'.statusAt 0 = some .cleaned := by
    rcases hfirst with hcl | hidx
    · exact ht.cleaned 0 hcl
    · obtain ⟨st, hst⟩ := exists_statusAt hpos
      rw [hidx, wrap_of_lt hpos] at hthis
      cases st with
      | init => exact absurd hst hinit
      | consumed => exact hthis hst
      | cleaned => exact ht.cleaned 0 hst
  have hboth : ∀ i, i = 0 ∨ i = n → r'.statusAt i = some .cleaned := by
    rintro i (rfl | rfl)
    · exact hzero
    · exact ht.cleaned _ hlast
  have hidx : wrap r'.size r'.produceIdx = r.produceIdx := by
    rw [ht.produceIdx]
    exact wrap_of_lt (by rw [ht.size]; omega)
  have hfree := hboth _ hp
  have hplace : place v r' = .ok ({ (r'.setVal r.produceIdx (some v)).setStatus r.produceIdx .init with
      produceIdx := r.produceIdx + 1 }, 0) := by
    unfold place
    simp only [hidx, hfree]
  refine ⟨_, offer_of_place hr' hplace, rfl, ?_, ht.consumeIdx, fun i hi hne => ?_⟩
  · exact (size_setStatus ..).trans ((size_setVal ..).trans ht.size)
  · exact (statusAt_setStatus_ne _ _ (Ne.symm hne)).trans ((statusAt_setVal ..).trans (hboth i hi))

end RingBuffer

theorem alone_delivered {s s' : St α} (h : Reach step Alone s s') : s'.hist.delivered = s.hist.delivered := by
  refine h.invariant (I := fun s' => s'.hist.delivered = s.hist.delivered) rfl (fun s₁ a s₂ _ hi hg hs => ?_)
  obtain ⟨t, t', rfl⟩ := hg
  refine Eq.trans ?_ hi
  obtain ⟨r, nf, pc, cs, so, hist⟩ := s₁
  cases pc with
  | idle => cases hs
  | cleanTest v | test v =>
    simp only [step, prodStep] at hs
    split at hs <;> cases hs <;> rfl
  | _ => cases hs; rfl

/-- **The next item is accepted, and the reader does not find it.** -/
theorem Split.parted [Nonempty α] {N M e p : Nat} {D : List (Delivery α)} {s : St α} (h : Split N M e p D s) (hM : N < M)
    (hep : e = 0 ∧ p = N ∨ e = N ∧ p = 0) (hne : e ≠ p) :
    ∃ s' last v, Reach step Orderly s s' ∧ s'.cons = .between last ∧ s'.pending.map Ref.item = [some v] ∧
      ∀ cb max, RingBuffer.handed cb max M 0 s'.ring = [] := by
  obtain ⟨v⟩ := ‹Nonempty α›
  obtain ⟨s₁, hr, h₁, hinit⟩ := h.close
  have hp := h₁.produceIdx
  have hsize := h₁.size
  obtain ⟨last, hc⟩ := h₁.cons
  obtain ⟨o, ho, hcode, hosize, hocons, hfree⟩ := RingBuffer.exists_offer v (by omega)
    (by rw [hp]; exact hep.symm.imp And.right And.right) h₁.last h₁.first (hinit 0)
  obtain ⟨s₂, s₃, hoffer, halone, -, hring, hcons, -, hacc, -⟩ := offer_alone h₁.prod ho
  rw [if_pos hcode] at hacc
  have hdel : s₃.hist.delivered = s₁.hist.delivered := by
    refine (alone_delivered halone).trans ?_
    simp only [step, h₁.prod, Option.some.injEq] at hoffer
    rw [← hoffer]
  have hnil : s₁.pending = [] := by
    rw [← List.length_eq_zero_iff, length_pending, h₁.accepted, h₁.delivered, Nat.sub_self]
  have hlone : Reach step Orderly s₁ s₃ := (Reach.single (a := Act.offer v) ⟨trivial, trivial⟩ hoffer).trans
    (halone.mono (fun s a ha => by obtain ⟨t, t', rfl⟩ := ha; exact ⟨trivial, trivial⟩))
  refine ⟨s₃, last, v, hr.trans hlone, hcons.trans hc, ?_, fun cb max => ?_⟩
  · rw [pending_accepted hacc hdel (by rw [h₁.accepted, h₁.delivered]), hnil]
    rfl
  · obtain ⟨m, rfl⟩ : ∃ m, M = m + 1 := ⟨M - 1, by omega⟩
    have he : s₃.ring.consumeIdx = e := by rw [hring, hocons, h₁.consumeIdx]
    have hM₃ : s₃.ring.size = m + 1 := by rw [hring, hosize, hsize]
    have hat : s₃.ring.statusAt (wrap s₃.ring.size s₃.ring.consumeIdx) = some .cleaned := by
      rw [he, hM₃, wrap_of_lt (by omega), hring]
      exact hfree e (hep.imp And.left And.left) (hp ▸ hne)
    unfold RingBuffer.handed
    rw [RingBuffer.consumeItem_cleaned cb max 0 hat]

namespace DelivInv

variable {N M : Nat} {s : St α} {D : List (Delivery α)}

theorem pending_slot (hphase : Phase N s.ring.consumeIdx s.hist.delivered.length)
    (hfit : s.ring.consumeIdx + s.pending.length ≤ N) {j : Nat} (hj : j < s.pending.length) :
    s.ring.consumeIdx + j = (s.hist.delivered.length + j) % N := by
  rw [Nat.add_mod, ← hphase.mod, ← Nat.add_mod, Nat.mod_eq_of_lt (by omega)]

/-- **The grown ring when everything pending is delivered**, the next item being for the first slot. -/
theorem split (last : RingBuffer.Code) (h : DelivInv N s) (hm : Marks N s) (hidle : s.prod = .idle)
    (hphase : Phase N s.ring.consumeIdx s.hist.delivered.length) (hM : N < M)
    (hfit : s.ring.consumeIdx + s.pending.length ≤ N) (hnew : s.hist.accepted.length % N = 0)
    (hD : D.map Delivery.slot = List.range' s.ring.consumeIdx s.pending.length) :
    Split N M (s.ring.consumeIdx + s.pending.length) s.ring.produceIdx (s.hist.delivered ++ D)
      ((s.opened M).read D last) := by
  have hN := h.ring.pos
  have hsize := h.ring.window.size
  have hgrow : s.ring.size ≤ M := by omega
  have hle := h.le
  have hlen := length_pending s
  have hat : ∀ i < N, (s.opened M).ring.statusAt i = s.ring.statusAt i := fun i hi =>
    statusAt_opened hgrow (hsize.symm ▸ hi)
  have hDlen : D.length = s.pending.length := by
    rw [← List.length_map (f := Delivery.slot), hD, List.length_range']
  refine
    { prod := hidle
      cons := ⟨last, rfl⟩
      size := size_opened hgrow
      consumeIdx := ?_
      produceIdx := produceIdx_opened s M
      delivered := rfl
      accepted := ?_
      last := ?_
      first := (h.free_or_next hidle).imp (fun hfree => ?_) (fun hnext => ?_)
      slots := fun d hd => ?_
      storing := fun i hi => ?_
      owed := fun i hi => ?_ }
  · rw [← hDlen, ← consumeIdx_opened s M]
    rfl
  · rw [List.length_append, hDlen, hlen]
    exact (Nat.add_sub_cancel' hle).symm
  · show (s.opened M).ring.statusAt N = some .cleaned
    rw [ring_opened]
    exact RingBuffer.statusAt_grown (by omega) hM
  · rw [hnew] at hfree
    exact (hat 0 hN).trans hfree
  · exact (cleanedIdx_opened s M).trans (hnext.trans hnew)
  · rcases List.mem_append.1 hd with hd | hd
    · obtain ⟨k, hk⟩ := List.getElem?_of_mem hd
      rw [(h.slot hk).2]
      exact (Nat.mod_lt k hN).trans hM
    · have hmem := List.mem_map_of_mem (f := Delivery.slot) hd
      rw [hD] at hmem
      have := List.mem_range'_1.1 hmem
      omega
  · have hst := h.ring.storing i hi
    exact (hat i (hsize ▸ RingBuffer.lt_of_statusAt hst)).trans hst
  · have hi : (s.opened M).ring.statusAt i = some .init := hi
    have hiN : i < N := by
      by_contra hge
      have hiM : i < M := by
        rw [← size_opened hgrow]
        exact RingBuffer.lt_of_statusAt hi
      rw [ring_opened, RingBuffer.statusAt_grown (by omega) hiM] at hi
      cases hi
    rw [hat i hiN] at hi
    rcases h.init_owed hm hi with hso | ⟨k, hk, hcalled, rfl⟩
    · exact .inl hso
    refine .inr ⟨k, ?_⟩
    rcases Nat.lt_or_ge k s.hist.delivered.length with hkq | hkq
    · refine ⟨s.hist.delivered[k], ?_, hcalled, (h.slot (List.getElem?_eq_getElem hkq)).2⟩
      rw [List.getElem?_append_left hkq, List.getElem?_eq_getElem hkq]
    · have hj : k - s.hist.delivered.length < D.length := by omega
      refine ⟨D[k - s.hist.delivered.length], ?_, hcalled, ?_⟩
      · rw [List.getElem?_append_right hkq, List.getElem?_eq_getElem hj]
      · have hslot : (D.map Delivery.slot)[k - s.hist.delivered.length]? =
            some D[k - s.hist.delivered.length].slot := by
          rw [List.getElem?_map, List.getElem?_eq_getElem hj]
          rfl
        rw [hD, List.getElem?_range' (by omega), Nat.one_mul] at hslot
        rw [← Option.some.inj hslot, pending_slot hphase hfit (by omega), Nat.add_sub_cancel' hkq]

end DelivInv

/-- **A growth that parts the two**: the pending items do not go past the last slot, and yet `produce_idx` is not the
index behind them.  Some item offered later is then pending where the next `Take` is handed nothing. -/
theorem parted [Nonempty α] {N M : Nat} {s : St α} {last : RingBuffer.Code} (h : DelivInv N s) (hm : Marks N s)
    (hidle : s.prod = .idle) (hc : s.cons = .between last) (hM : N < M)
    (hfit : s.ring.consumeIdx + s.pending.length ≤ N) (hstr : ¬ Straight s) :
    ∃ s' last' v, Reach step Orderly (s.opened M) s' ∧ s'.cons = .between last' ∧ s'.pending.map Ref.item = [some v] ∧
      ∀ cb max, RingBuffer.handed cb max M 0 s'.ring = [] := by
  have hsize := h.ring.window.size
  have hlen := length_pending s
  have hle := h.le
  have hphase := h.phase
  rw [hc, show (ConsPc.between last).lead = 0 from rfl, Nat.add_zero] at hphase
  have hprod := h.ring.producePhase
  rw [hidle] at hprod
  have hend : Phase N (s.ring.consumeIdx + s.pending.length) s.hist.accepted.length := by
    have hadd := hphase.add hfit
    rwa [show s.hist.delivered.length + s.pending.length = s.hist.accepted.length by omega] at hadd
  have hep := hend.ends hprod (Ne.symm hstr)
  have hnew : s.hist.accepted.length % N = 0 := by
    rw [← hend.mod]
    rcases hep with ⟨he, -⟩ | ⟨he, -⟩ <;> rw [he]
    · exact Nat.zero_mod N
    · exact Nat.mod_self N
  obtain ⟨D, last', hD, hread⟩ := deliver_all s.pending.length (s.opened M) last hc rfl (fun j hj => by
    rw [consumeIdx_opened, statusAt_opened (by omega) (by omega), DelivInv.pending_slot hphase hfit hj]
    exact h.init_of_not_delivered (Nat.le_add_right _ _) (by omega))
  rw [consumeIdx_opened] at hD
  obtain ⟨s', last'', v, hr, hs'⟩ :=
    (h.split last' hm hidle hphase hM hfit hnew hD).parted hM hep (Ne.symm hstr)
  exact ⟨s', last'', v, hread.trans hr, hs'⟩

end Shm
