import ShmMultiproc.Parted
/-!
# Resize — growing a ring that holds items

`OpenWrite(maxsize, true)` on a ring that exists adds CLEANED slots behind the last one and leaves the three indices
alone.  A reader that has gone past the last slot finds a CLEANED one where it used to go on with the first, so the
items it was to find there stay behind; so do later ones when the producer has gone round and the reader has not.
`resize_keeps_iff` says which growths leave the queue as it is, on a ring that may have grown before.
-/
namespace Shm

open Cyclic (Phase wrap wrap_of_lt)
open Machine (Reach)
open RingBuffer (openWrite handed CallsOrKeeps)

variable {α : Type}

/-- The references delivered from `s` on, in order. -/
def deliveredSince (s s' : St α) : List (Ref α) :=
  (s'.hist.delivered.drop s.hist.delivered.length).map Delivery.ref

/-- The references accepted from `s` on, in order. -/
def acceptedSince (s s' : St α) : List (Ref α) :=
  (refs s'.hist.accepted s'.hist.accepted.length).drop s.hist.accepted.length

/-- **`OpenWrite(maxsize, true)` leaves the queue as it is.**  Whatever calls of `Offer` and `Take` and closures follow,
the pending items are delivered in order and before anything else (`order`).  While the reader stays behind the producer,
what is delivered is the pending items and then what has been offered since, in order (`later`), and wherever a `Take`
begins it is handed all that is pending there (`handed`). -/
structure PendingKept (s : St α) (maxsize : Nat) : Prop where
  order : ∀ s', Reach step CallsOnce (s.opened maxsize) s' →
    deliveredSince s s' <+: s.pending ∨ s.pending <+: deliveredSince s s'
  later : ∀ s', Reach step Orderly (s.opened maxsize) s' →
    deliveredSince s s' ++ s'.pending = s.pending ++ acceptedSince s s'
  handed : ∀ s' last, Reach step Orderly (s.opened maxsize) s' → s'.cons = .between last →
    ∀ cb max, CallsOrKeeps cb → max < 0 → s'.pending.map Ref.item <+: handed cb max maxsize 0 s'.ring

/-! ## A growth -/

theorem RingBuffer.length_walk_grown {r : RingBuffer α} {N : Nat} (hr : N < r.size)
    (hN : r.statusAt N = some .cleaned) : ∀ (n i : Nat), i ≤ N → (r.walk n i).length ≤ N - i
  | 0, _, _ => Nat.zero_le _
  | n + 1, i, hi => by
    have hnext : r.statusAt i ≠ some .cleaned → (r.walk n (wrap r.size (i + 1))).length + 1 ≤ N - i := by
      intro hne
      have hlt : i < N := Nat.lt_of_le_of_ne hi (by rintro rfl; exact hne hN)
      rw [wrap_of_lt (by omega)]
      have := length_walk_grown hr hN n (i + 1) hlt
      omega
    unfold walk
    split
    · rename_i hs
      rw [List.length_cons]
      exact hnext (by rw [hs]; simp)
    · rename_i hs
      exact (Nat.le_succ _).trans (hnext (by rw [hs]; simp))
    · exact Nat.zero_le _

/-- **What lies ahead of the reader stays ahead of it** on the ring that has grown, when it does not go past the end of
the old one. -/
theorem Ahead.opened {N M q : Nat} {P : List (Ref α)} {s : St α} {last : RingBuffer.Code} (h : Ahead N q P s)
    (hc : s.cons = .between last) (hM : N ≤ M) (hfit : s.ring.consumeIdx + P.length ≤ N) :
    Ahead M s.ring.consumeIdx P (s.opened M) := by
  have hN := h.pos
  have hsize : s.ring.size = N := h.size
  have hphase := h.phase
  rw [hc, show (ConsPc.between last).lead = 0 from rfl, Nat.add_zero] at hphase
  have hsame : ∀ j < P.length, (s.ring.consumeIdx + j) % M = (q + j) % N := fun j hj => by
    rw [Nat.mod_eq_of_lt (by omega), Nat.add_mod, ← hphase.mod, ← Nat.add_mod, Nat.mod_eq_of_lt (by omega)]
  have hcons : (s.opened M).cons = .between last := hc
  refine ⟨by omega, size_opened (by omega), by omega, ?_, fun h' => ?_, fun i h' => ?_, fun h' => ?_, fun j x hx => ?_,
    fun k d hd hk j hj => ?_, fun i hi j hj => ?_⟩
  · rw [consumeIdx_opened, hcons]
    exact ⟨by omega, rfl⟩
  · rw [hcons] at h'
    cases h'
  · rw [hcons] at h'
    cases h'
  · rw [hcons] at h'
    cases h'
  · have hj : j < P.length := (List.getElem?_eq_some_iff.1 hx).1
    have hlt : (q + j) % N < s.ring.size := by rw [hsize]; exact Nat.mod_lt _ hN
    rw [hsame j hj, ring_opened, RingBuffer.statusAt_resize (by omega) hlt, RingBuffer.get_resize (by omega) hlt]
    exact h.slots j x hx
  · rw [hsame j hj]
    exact h.uncalled k d hd hk j hj
  · rw [hsame j hj]
    exact h.storing i hi j hj

theorem Seen.opened {s : St α} {M : Nat} (h : Seen s) (hp : s.prod = .idle) (hM : s.ring.size ≤ M) :
    Seen (s.opened M) := by
  refine .of_idle hp (fun i hi => ?_)
  have hst := h.storing i hi
  exact (statusAt_opened hM (RingBuffer.lt_of_statusAt hst)).trans hst

namespace Lined

variable {M q : Nat} {s s' : St α}

theorem opened {N : Nat} {last : RingBuffer.Code} (h : Lined N q s) (hp : s.prod = .idle) (hc : s.cons = .between last)
    (hM : N ≤ M) (hline : Straight s) : Lined M s.ring.consumeIdx (s.opened M) := by
  have hsize : s.ring.size = N := h.ahead.size
  have hcons : (s.opened M).cons = .between last := hc
  have hend := h.produce.le
  rw [hp] at hend
  have hfit : s.ring.consumeIdx + s.pending.length ≤ N := by
    rw [← hline]
    exact hend
  refine ⟨h.seen.opened hp (by omega), h.ahead.opened hc hM hfit, h.le, h.ordered, ?_, fun v hv => ?_,
    fun k d hd hk => ?_, h.apart, fun h' => ?_, fun h' => ?_⟩
  · show Phase M ((s.opened M).ring.produceIdx + s.prod.produceLag) (s.ring.consumeIdx + s.pending.length)
    rw [produceIdx_opened, hp, ← hline]
    exact ⟨hend.trans hM, rfl⟩
  · have hv : v ∈ s.prod.pend := hv
    rw [hp] at hv
    cases hv
  · obtain ⟨hst, hne⟩ := h.owed k d hd hk
    exact ⟨(statusAt_opened (by omega) (RingBuffer.lt_of_statusAt hst)).trans hst, hne⟩
  · rw [hcons] at h'
    cases h'
  · rw [hcons] at h'
    cases h'

end Lined

theorem pending_split {s s' : St α} (hle : s.hist.delivered.length ≤ s.hist.accepted.length)
    (hle' : s'.hist.delivered.length ≤ s'.hist.accepted.length) (hacc : s.hist.accepted <+: s'.hist.accepted)
    (hdel : s.hist.delivered.length ≤ s'.hist.delivered.length)
    (hord : s'.hist.delivered.map Delivery.ref = refs s'.hist.accepted s'.hist.delivered.length) :
    deliveredSince s s' ++ s'.pending = s.pending ++ acceptedSince s s' := by
  have hlen : (refs s'.hist.accepted s'.hist.accepted.length).length = s'.hist.accepted.length := by
    unfold refs
    rw [List.length_map, List.length_range]
  have hdrop : ∀ n ≤ s'.hist.accepted.length, s.hist.delivered.length ≤ n →
      (refs s'.hist.accepted n).drop s.hist.delivered.length ++
        (refs s'.hist.accepted s'.hist.accepted.length).drop n =
      (refs s'.hist.accepted s'.hist.accepted.length).drop s.hist.delivered.length := fun n hn hk => by
    rw [← refs_take _ hn, ← List.drop_append_of_le_length (by rw [List.length_take]; omega), List.take_append_drop]
  unfold deliveredSince acceptedSince St.pending
  rw [List.map_drop, hord, hdrop _ hle' hdel, ← refs_prefix hacc (Nat.le_refl _), hdrop _ hacc.length_le hle]

/-- **A ring whose pending items lie before a reader that is behind the producer is a queue.** -/
theorem PendingKept.of_lined {M q : Nat} {s : St α} (h : Lined M q (s.opened M)) : PendingKept s M := by
  have hrun : ∀ {s'}, Reach step Orderly (s.opened M) s' → ∃ q', Lined M q' s' := fun {s'} hr =>
    hr.invariant (I := fun s' => ∃ q', Lined M q' s') ⟨q, h⟩ (fun _ _ _ _ ⟨_, hi⟩ hg hs => hi.step hg.1 hg.2 hs)
  refine ⟨fun s' hr => ?_, fun s' hr => ?_, fun s' last' hr hc' cb max hcb hmax => ?_⟩
  · obtain ⟨-, D, hD, hcase⟩ := Ahead.reach hr h.seen h.ahead
    have hsince : deliveredSince s s' = D.map Delivery.ref := by
      have hD : s'.hist.delivered = s.hist.delivered ++ D := hD
      unfold deliveredSince
      rw [hD, List.drop_left]
    rw [hsince]
    rcases hcase with ⟨rest, hrest, -⟩ | hpre
    · exact .inl (hrest ▸ List.prefix_append _ _)
    · exact .inr hpre
  · obtain ⟨q', h'⟩ := hrun hr
    have hon := onward_reach hr
    exact pending_split h.le h'.le hon.accepted hon.delivered.length_le h'.ordered
  · obtain ⟨q', h'⟩ := hrun hr
    exact h'.ahead.handed_first (by rw [hc']; rfl) hcb hmax

/-- Pending items that a growth leaves alone do not go past the end of the old ring: the next `Take` ends at the first
new slot. -/
theorem PendingKept.fits {M : Nat} {s : St α} {last : RingBuffer.Code} (hk : PendingKept s M) (hc : s.cons = .between last)
    (hM : s.ring.size < M) (hle : s.ring.consumeIdx ≤ s.ring.size) :
    s.ring.consumeIdx + s.pending.length ≤ s.ring.size := by
  have hrs : (s.ring.resize M).size = M := RingBuffer.size_resize hM.le
  have hcl : (s.ring.resize M).statusAt s.ring.size = some .cleaned := RingBuffer.statusAt_grown (Nat.le_refl _) hM
  have hpre := hk.handed (s.opened M) last .init hc RingBuffer.callDone (-1) (fun v i r => .inl rfl) (by decide)
  rw [ring_opened, RingBuffer.handed_eq_walk (fun v i r => .inl rfl) (by decide) hrs M 0 s.ring.consumeIdx
    (s.ring.resize M) (Nat.le_refl M) hrs (by omega) (wrap_of_lt (show s.ring.consumeIdx < M by omega))
    (fun _ _ => rfl) (fun _ => rfl)] at hpre
  have hlen : s.pending.length ≤ ((s.ring.resize M).walk M s.ring.consumeIdx).length := by
    have := hpre.length_le
    rwa [List.length_map, List.length_map] at this
  have hwalk := RingBuffer.length_walk_grown (by omega) hcl M s.ring.consumeIdx hle
  omega

theorem PendingKept.straight [Nonempty α] {N M : Nat} {s : St α} {last : RingBuffer.Code} (hk : PendingKept s M)
    (h : DelivInv N s) (hm : Marks N s) (hidle : s.prod = .idle) (hc : s.cons = .between last) (hM : N < M) :
    Straight s := by
  have hsize : s.ring.size = N := h.ring.window.size
  by_contra hstr
  have hfit := hk.fits hc (hsize ▸ hM) (hsize ▸ h.ring.consumeLe)
  obtain ⟨s', last', v, hr, hc', hp, hnone⟩ := parted h hm hidle hc hM (hsize ▸ hfit) hstr
  have hpre := hk.handed s' last' hr hc' RingBuffer.callDone (-1) (fun v i r => .inl rfl) (by decide)
  rw [hp, hnone] at hpre
  cases List.prefix_nil.1 hpre

/-! ## Runs -/

/-- Nothing has happened on a ring without slots. -/
structure Untouched (s : St α) : Prop extends Slotless s where
  cons : ∃ last, s.cons = .between last
  storing : s.storing = none
  delivered : s.hist.delivered = []
  consumeIdx : s.ring.consumeIdx = 0
  produceIdx : s.ring.produceIdx = 0

theorem Untouched.step {s s' : St α} {a : Act α} (h : Untouched s) (hs : step s a = some s') : Untouched s' := by
  obtain ⟨hnone, ⟨last, hcons⟩, hso, hdel, hc, hp⟩ := h
  have hnone' := hnone.step hs
  cases a with
  | offer v =>
    simp only [Shm.step] at hs
    split at hs <;> cases hs
    exact ⟨hnone', ⟨last, hcons⟩, hso, hdel, hc, hp⟩
  | prod t t' =>
    rcases hnone.prod with hidle | ⟨v, hclean | htest⟩
    · simp only [Shm.step, prodStep, hidle] at hs
      cases hs
    · simp only [Shm.step, prodStep, hclean, Option.some.injEq] at hs
      subst hs
      exact ⟨hnone', ⟨last, hcons⟩, hso, hdel, hc, hp⟩
    · simp only [Shm.step, prodStep, htest, hnone.statusAt_eq_none] at hs
      cases hs
  | cons =>
    simp only [Shm.step, consStep, hcons, hnone.size, hc, Option.some.injEq] at hs
    subst hs
    exact ⟨hnone', ⟨.fail, rfl⟩, hso, hdel, rfl, hp⟩
  | doneTest k =>
    simp only [Shm.step, doneTestStep, hso, hdel, List.getElem?_nil] at hs
    cases hs
  | doneStore =>
    simp only [Shm.step, doneStoreStep, hso] at hs
    cases hs

theorem Untouched.pending {s : St α} (h : Untouched s) : s.pending = [] := by
  unfold St.pending
  rw [h.accepted]
  exact List.drop_nil

theorem Untouched.kept {s : St α} {M : Nat} (h : Untouched (s.opened M)) : PendingKept s M := by
  have hrun : ∀ {G : St α → Act α → Prop} {s'}, Reach Shm.step G (s.opened M) s' → Untouched s' := fun hr =>
    hr.invariant (I := Untouched) h (fun _ _ _ _ hi _ hs => hi.step hs)
  have hnil : s.pending = [] := h.pending
  have hsince : ∀ {s'}, Untouched s' → deliveredSince s s' = [] := fun {s'} hn => by
    unfold deliveredSince
    rw [hn.delivered, List.drop_nil]
    rfl
  refine ⟨fun s' hr => .inl (hsince (hrun hr) ▸ List.nil_prefix), fun s' hr => ?_, fun s' last hr _ cb max _ _ => ?_⟩
  · have hn := hrun hr
    unfold acceptedSince
    rw [hsince hn, hn.pending, hnil, hn.accepted]
    exact List.drop_nil.symm
  · rw [(hrun hr).pending]
    exact List.nil_prefix

theorem Untouched.opened {s : St α} {M : Nat} (h : Untouched s) (hp : s.prod = .idle) :
    (∃ M' q, Lined M' q (s.opened M)) ∨ Untouched (s.opened M) := by
  obtain ⟨⟨hsize, -, hacc⟩, ⟨last, hcons⟩, hso, hdel, hc, hpi⟩ := h
  obtain ⟨r, nf, pc, cs, so, hi⟩ := s
  cases hp
  cases hcons
  cases hso
  have hgrown : (openWrite (some r) M true).size = M := by
    rw [RingBuffer.openWrite_some]
    exact RingBuffer.size_resize (hsize.le.trans (Nat.zero_le M))
  have hci : (openWrite (some r) M true).consumeIdx = 0 := by rw [RingBuffer.openWrite_some]; exact hc
  have hpi' : (openWrite (some r) M true).produceIdx = 0 := by rw [RingBuffer.openWrite_some]; exact hpi
  rcases Nat.eq_zero_or_pos M with rfl | hM
  · exact .inr ⟨⟨hgrown, .inl rfl, hacc⟩, ⟨last, rfl⟩, rfl, hdel, hci, hpi'⟩
  · exact .inl ⟨M, 0, .empty hM hgrown hacc hdel hci hpi'⟩

namespace Growing

theorem start (α : Type) (N : Nat) : (∃ M q, Lined M q (St.start α N)) ∨ Untouched (St.start α N) := by
  have hring : (St.start α N).ring = RingBuffer.fresh α N := RingBuffer.openWrite_new N
  have hsize : (St.start α N).ring.size = N := by rw [hring, RingBuffer.size_fresh]
  rcases Nat.eq_zero_or_pos N with rfl | hN
  · exact .inr ⟨.start α, ⟨_, rfl⟩, rfl, rfl, congrArg RingBuffer.consumeIdx hring, congrArg RingBuffer.produceIdx hring⟩
  · exact .inl ⟨N, 0, .empty hN hsize rfl rfl (congrArg RingBuffer.consumeIdx hring)
      (congrArg RingBuffer.produceIdx hring)⟩

theorem opened {N q maxsize : Nat} {s : St α} {last : RingBuffer.Code} (h : Lined N q s) (hp : s.prod = .idle)
    (hc : s.cons = .between last) (hg : InLine s (.openWrite maxsize)) : ∃ M q', Lined M q' (s.opened maxsize) := by
  rcases hg with rfl | ⟨hM, hline⟩
  · rw [opened_self]
    exact ⟨N, q, h⟩
  · rw [h.ahead.size] at hM
    exact ⟨maxsize, _, h.opened hp hc hM hline⟩

/-- **The run lemma**: in every run whose growths find the pending items in line, the reader stays behind the producer,
or there is no slot yet. -/
theorem lined_reach {N : Nat} {s : St α} (h : Reach step InLine (St.start α N) s) :
    (∃ M q, Lined M q s) ∨ Untouched s := by
  refine h.invariant (I := fun s => (∃ M q, Lined M q s) ∨ Untouched s) (start α N) (fun s a s' _ hi hg hs => ?_)
  cases a with
  | ring a =>
    rcases hi with ⟨M, q, hl⟩ | hn
    · exact .inl ⟨M, hl.step hg.1 hg.2 hs⟩
    · exact .inr (hn.step hs)
  | openWrite maxsize =>
    simp only [step] at hs
    split at hs <;> cases hs
    rename_i last hp hc
    rcases hi with ⟨M, q, hl⟩ | hn
    · exact .inl (opened hl hp hc hg)
    · exact hn.opened hp

def onRing (as : List (Shm.Act Nat)) : List (Act Nat) := as.map .ring

/-- A ring of two slots grows to three with item 7 in the first; items 8 and 9 then wait in the second and third. -/
def grownOnce : List (Act Nat) :=
  onRing (offering 7 8) ++ [.openWrite 3] ++
    onRing (offering 8 8 ++ offering 9 8 ++ reading 5 ++ [.doneTest 0, .doneStore] ++ reading 1)

/-- Item 8 waits in the last slot of a ring of two and item 9 in the first. -/
def aroundTheEnd : List (Act Nat) :=
  onRing (offering 7 8 ++ offering 8 8 ++ reading 5 ++ [.doneTest 0, .doneStore] ++ reading 1 ++ offering 9 14)

end Growing

end Shm
