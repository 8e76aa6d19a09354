import ShmMultiproc.Stranded
/-!
# Redeliver — what a reader that crashes is given again

The reader process may crash at any step and be restarted, any number of times, while the producer goes on.  `Tallied`
keeps a list of the items whose callback a crash interrupted.  In the runs that leave no message lying (`Serves`) every
item is delivered at least once, in order, and again only for a crash in its own callback (`at_least_once`).
-/
namespace Shm

open Machine (Reach)

variable {α : Type}

namespace Polled

def item (s : Polled α) : Option Nat :=
  match s.life, s.st.cons with
  | .round, .callback k => s.st.hist.delivered[k]?.map (fun d => d.ref.seq)
  | _, _ => none

/-- The reader has an item in its hands that is not marked done. -/
def inHand (s : Polled α) : Bool :=
  match s.life, s.st.cons with
  | .round, .callback k => decide (k ∉ s.st.hist.called) || s.st.storing.isSome
  | _, _ => false

end Polled

def Hist.seqs (hi : Hist α) : List Nat := hi.delivered.map (fun d => d.ref.seq)

/-- A reader process, with the items whose callback was interrupted by a crash. -/
structure Tallied (α : Type) where
  base : Polled α
  interrupted : List Nat

namespace Tallied

open Polled (Serves Live)

def start (α : Type) (n : Nat) : Tallied α := ⟨.start α n, []⟩

def step (t : Tallied α) (a : Polled.Act α) : Option (Tallied α) :=
  (Polled.step t.base a).map (fun s => ⟨s, match a with
    | .crash => t.interrupted ++ t.base.item.toList
    | _ => t.interrupted⟩)

/-- **At least once, and again only for a crash**: deliveries come in order, none before all earlier items are done, each
reads the item accepted; an item done has been delivered, and one delivered twice was interrupted. -/
structure AtLeastOnce (t : Tallied α) : Prop where
  order : t.base.st.hist.seqs.Pairwise (· ≤ ·)
  earlier : ∀ k ∈ t.base.st.hist.seqs, ∀ j < k, j ∈ t.base.st.hist.marked
  reads : ∀ d ∈ t.base.st.hist.delivered, ∃ v, d.ref.item = some v ∧ t.base.st.hist.accepted[d.ref.seq]? = some v
  done : ∀ k ∈ t.base.st.hist.marked, k ∈ t.base.st.hist.seqs
  again : ∀ k, t.base.st.hist.seqs.count k ≤ t.interrupted.count k + 1
  atRest : t.base.life = .waiting → t.base.st.notifier.eventfd = 0 → t.base.st.notifier.writeEventCounter = 0 →
    t.base.st.prod = .idle → ∀ k < t.base.st.hist.accepted.length, k ∈ t.base.st.hist.seqs

/-- **The deliveries so far**, all items before the count `m` being marked done and no others. -/
structure Tally (m : Nat) (t : Tallied α) : Prop where
  before : ∀ k < m, k ∈ t.base.st.hist.seqs
  again : ∀ k < m, t.base.st.hist.seqs.count k ≤ t.interrupted.count k + 1
  here : t.base.st.hist.seqs.count m ≤ t.interrupted.count m + if t.base.inHand = true then 1 else 0
  beyond : ∀ k ∈ t.base.st.hist.seqs, k ≤ m
  order : t.base.st.hist.seqs.Pairwise (· ≤ ·)
  hand : t.base.inHand = true → t.base.item = some m
  reads : ∀ d ∈ t.base.st.hist.delivered, ∃ v, d.ref.item = some v ∧ t.base.st.hist.accepted[d.ref.seq]? = some v

namespace Tally

variable {N m : Nat} {t : Tallied α} {s' : Polled α}

theorem start (N : Nat) : Tally 0 (start α N) where
  before := fun _ hk => absurd hk (Nat.not_lt_zero _)
  again := fun _ hk => absurd hk (Nat.not_lt_zero _)
  here := Nat.le_refl 0
  beyond := fun _ hk => absurd hk List.not_mem_nil
  order := .nil
  hand := fun h => by cases h
  reads := fun _ hd => absurd hd List.not_mem_nil

theorem frame (h : Tally m t) (hd : s'.st.hist.delivered = t.base.st.hist.delivered)
    (hacc : t.base.st.hist.accepted <+: s'.st.hist.accepted) (hh : s'.inHand = t.base.inHand)
    (hi : s'.inHand = true → s'.item = t.base.item) : Tally m ⟨s', t.interrupted⟩ := by
  have hseqs : s'.st.hist.seqs = t.base.st.hist.seqs := by unfold Hist.seqs; rw [hd]
  refine {
    before := by rw [hseqs]; exact h.before
    again := by rw [hseqs]; exact h.again
    here := by rw [hseqs, hh]; exact h.here
    beyond := by rw [hseqs]; exact h.beyond
    order := by rw [hseqs]; exact h.order
    hand := fun hs => ?_
    reads := fun d hmem => ?_ }
  · rw [hi hs]
    exact h.hand (hh ▸ hs)
  · rw [hd] at hmem
    obtain ⟨v, hv, hk⟩ := h.reads d hmem
    obtain ⟨l, hl⟩ := hacc
    refine ⟨v, hv, ?_⟩
    rw [← hl, List.getElem?_append_left (List.getElem?_eq_some_iff.1 hk).1]
    exact hk

theorem empty (h : Tally m t) (hd : s'.st.hist.delivered = t.base.st.hist.delivered)
    (hacc : t.base.st.hist.accepted <+: s'.st.hist.accepted) (h0 : t.base.inHand = false) (h1 : s'.inHand = false) :
    Tally m ⟨s', t.interrupted⟩ :=
  h.frame hd hacc (h1.trans h0.symm) (fun hs => by rw [h1] at hs; cases hs)

theorem prod {st' : St α} (h : Tally m t) (hf : ProdFrame N t.base.st st') :
    Tally m ⟨{ t.base with st := st' }, t.interrupted⟩ := by
  have hacc : t.base.st.hist.accepted <+: st'.hist.accepted := by
    rcases hf.accepted with e | ⟨v, e, -⟩
    · exact e ▸ List.prefix_rfl
    · exact e ▸ List.prefix_append _ _
  refine h.frame hf.delivered hacc ?_ (fun _ => ?_)
  · unfold Polled.inHand
    rw [hf.cons, hf.called, hf.storing]
  · unfold Polled.item
    rw [hf.cons, hf.delivered]

theorem crash (h : Tally m t) {l : List Nat} (hl : t.base.inHand = true → l = [m])
    (hd : s'.st.hist = t.base.st.hist) (h1 : s'.inHand = false) : Tally m ⟨s', t.interrupted ++ l⟩ := by
  have hcount : ∀ k, t.interrupted.count k ≤ (t.interrupted ++ l).count k := fun k => by
    rw [List.count_append]
    exact Nat.le_add_right _ _
  refine {
    before := by rw [hd]; exact h.before
    again := fun k hk => by rw [hd]; exact Nat.le_trans (h.again k hk) (Nat.add_le_add_right (hcount k) 1)
    here := ?_
    beyond := by rw [hd]; exact h.beyond
    order := by rw [hd]; exact h.order
    hand := fun hs => by rw [h1] at hs; cases hs
    reads := by rw [hd]; exact h.reads }
  have hhere := h.here
  rw [hd, h1]
  by_cases hh : t.base.inHand = true
  · rw [if_pos hh] at hhere
    rw [hl hh, List.count_append, List.count_singleton_self]
    exact hhere
  · rw [if_neg hh] at hhere
    exact Nat.le_trans hhere (hcount m)

theorem deliver (h : Tally m t) {d : Delivery α} {v : α} (h0 : t.base.inHand = false)
    (hd : s'.st.hist.delivered = t.base.st.hist.delivered ++ [d]) (hacc : s'.st.hist.accepted = t.base.st.hist.accepted)
    (hseq : d.ref.seq = m) (hv : d.ref.item = some v) (hm : t.base.st.hist.accepted[m]? = some v)
    (h1 : s'.inHand = true) (hi : s'.item = some m) : Tally m ⟨s', t.interrupted⟩ := by
  have hseqs : s'.st.hist.seqs = t.base.st.hist.seqs ++ [m] := by
    unfold Hist.seqs
    rw [hd, List.map_append, List.map_singleton, hseq]
  have hhere := h.here
  rw [h0] at hhere
  refine {
    before := fun k hk => by rw [hseqs]; exact List.mem_append_left _ (h.before k hk)
    again := fun k hk => ?_
    here := ?_
    beyond := fun k hk => ?_
    order := ?_
    hand := fun _ => hi
    reads := fun d' hd' => ?_ }
  · rw [hseqs, List.count_append, List.count_singleton, if_neg (by simp; omega)]
    exact h.again k hk
  · rw [hseqs, h1, List.count_append, List.count_singleton_self]
    exact Nat.add_le_add_right hhere 1
  · rw [hseqs] at hk
    rcases List.mem_append.1 hk with hk | hk
    · exact h.beyond k hk
    · exact Nat.le_of_eq (List.mem_singleton.1 hk)
  · rw [hseqs]
    exact List.pairwise_append.2 ⟨h.order, List.pairwise_singleton _ m, fun k hk j hj => by
      rw [List.mem_singleton.1 hj]
      exact h.beyond k hk⟩
  · rw [hacc]
    rw [hd] at hd'
    rcases List.mem_append.1 hd' with hd' | hd'
    · exact h.reads d' hd'
    · rw [List.mem_singleton.1 hd', hseq]
      exact ⟨v, hv, hm⟩

theorem finish (h : Tally m t) (hd : s'.st.hist.delivered = t.base.st.hist.delivered)
    (hacc : s'.st.hist.accepted = t.base.st.hist.accepted) (h0 : t.base.inHand = true) (h1 : s'.inHand = false)
    (hm : m ∈ t.base.st.hist.seqs) : Tally (m + 1) ⟨s', t.interrupted⟩ := by
  have hseqs : s'.st.hist.seqs = t.base.st.hist.seqs := by unfold Hist.seqs; rw [hd]
  have hhere := h.here
  rw [if_pos h0] at hhere
  refine {
    before := fun k hk => ?_
    again := fun k hk => ?_
    here := ?_
    beyond := fun k hk => by rw [hseqs] at hk; exact Nat.le_succ_of_le (h.beyond k hk)
    order := by rw [hseqs]; exact h.order
    hand := fun hs => by rw [h1] at hs; cases hs
    reads := by rw [hd, hacc]; exact h.reads }
  · rw [hseqs]
    rcases Nat.lt_succ_iff_lt_or_eq.1 hk with hk | rfl
    · exact h.before k hk
    · exact hm
  · rw [hseqs]
    rcases Nat.lt_succ_iff_lt_or_eq.1 hk with hk | rfl
    · exact h.again k hk
    · exact hhere
  · have hnot : m + 1 ∉ t.base.st.hist.seqs := fun hk => absurd (h.beyond _ hk) (Nat.not_succ_le_self m)
    rw [hseqs, List.count_eq_zero.2 hnot]
    exact Nat.zero_le _

theorem mem_of_hand (h : Tally m t) (hh : t.base.inHand = true) : m ∈ t.base.st.hist.seqs := by
  have hitem := h.hand hh
  unfold Polled.item at hitem
  split at hitem
  · obtain ⟨d, hd, rfl⟩ := Option.map_eq_some_iff.1 hitem
    exact List.mem_map_of_mem (List.mem_of_getElem? hd)
  · cases hitem

end Tally

theorem inHand_of_life {s : Polled α} (h : s.life ≠ .round) : s.inHand = false := by
  unfold Polled.inHand
  split
  · rename_i hl _
    exact absurd hl h
  · rfl

theorem inHand_of_cons {s : Polled α} (h : s.st.cons.running = none) : s.inHand = false := by
  unfold Polled.inHand
  split
  · rename_i hc
    rw [hc] at h
    cases h
  · rfl

theorem scanAt_frame (s : Polled α) (idx : Nat) : (s.scanAt idx).st.hist = s.st.hist ∧ (s.scanAt idx).life ≠ .round := by
  unfold Polled.scanAt
  split
  · exact ⟨rfl, by simp⟩
  · split <;> exact ⟨rfl, by simp⟩

theorem Tally.cons {N m : Nat} {t : Tallied α} {s' : Polled α} (h : Tally m t) (hl : Live N m t.base)
    (hg : CallsDone t.base.st .cons) (hs : Polled.step t.base .cons = some s') : Tally m ⟨s', t.interrupted⟩ := by
  simp only [Polled.step] at hs
  split at hs
  swap
  · cases hs
  rename_i hround
  obtain ⟨st', hst, rfl⟩ := Option.map_eq_some_iff.1 hs
  have hplace := hl.place
  have hquiet : t.base.st.cons.running = none → st'.cons.running = none → st'.hist = t.base.st.hist →
      Tally m ⟨{ t.base with st := st' }, t.interrupted⟩ := fun h0 h1 hh =>
    h.empty (congrArg Hist.delivered hh) (hh ▸ List.prefix_rfl) (inHand_of_cons h0) (inHand_of_cons h1)
  obtain ⟨⟨⟨r, nf, pc, cs, so, hi⟩, life⟩, intr⟩ := t
  obtain ⟨hlife, hne⟩ := hround
  cases hlife
  cases cs with
  | between last =>
    cases hst
    refine hquiet rfl ?_ rfl
    dsimp only
    split <;> rfl
  | skip | take => cases hst; exact hquiet rfl rfl rfl
  | test | test2 =>
    simp only [Shm.step, consStep] at hst
    split at hst <;> cases hst <;> exact hquiet rfl rfl rfl
  | call i =>
    cases hst
    have htaken : i = m % N ∧ m < hi.accepted.length := by
      cases hplace with
      | taken hc hlt => exact ⟨ConsPc.call.inj hc, hlt⟩
      | gone hl' => rcases hl' with hl' | ⟨_, hl'⟩ <;> cases hl'
      | ready hl' => rcases hl' with hl' | hl' <;> cases hl'
      | looking hc => rcases hc with hc | hc | ⟨_, hc⟩ <;> cases hc
      | skipping hc | taking hc | given _ _ hc | finished _ hc => cases hc
    obtain ⟨rfl, hlt⟩ := htaken
    have hcl : hi.cleaned ≤ m := hl.cleaned_le
    have hini := hl.init_of_lt (Nat.le_refl m) hlt
    have hget : r.get (m % N) = hi.accepted[m]? := hl.ring.get_of_init hcl hlt hini
    have hv : hi.accepted[m]? = some hi.accepted[m] := List.getElem?_eq_getElem hlt
    have hnew : hi.delivered.length ∉ hi.called := fun hm => absurd (hl.calledLt _ hm) (Nat.lt_irrefl _)
    refine h.deliver (d := ⟨m % N, hi.owner (m % N), r.get (m % N)⟩) (v := hi.accepted[m]) rfl rfl rfl
      (hl.ring.owner m hcl hlt) (hget.trans hv) hv ?_ ?_
    · simp [Polled.inHand, hnew]
    · simp [Polled.item]
      exact hl.ring.owner m hcl hlt
  | callback k =>
    cases hst
    obtain ⟨hk, hso⟩ := hg k rfl
    have hso : so = none := hso
    refine h.empty rfl List.prefix_rfl ?_ rfl
    have hk : k ∈ hi.called := hk
    simp [Polled.inHand, hk, hso]

theorem Tally.doneTest {N m k : Nat} {t : Tallied α} {s' : Polled α} (h : Tally m t) (hl : Live N m t.base)
    (hg : CallsDone t.base.st (.doneTest k)) (hs : Polled.step t.base (.doneTest k) = some s') :
    Tally m ⟨s', t.interrupted⟩ := by
  obtain ⟨hcb, hnew⟩ := hg
  simp only [Polled.step] at hs
  split at hs
  swap
  · cases hs
  rename_i hround
  obtain ⟨st', hst, rfl⟩ := Option.map_eq_some_iff.1 hs
  have hplace := hl.place
  rw [hround] at hplace
  obtain ⟨hlt, hp, d, hd, hslot⟩ := hplace.in_hand hcb hnew
  have hini := hl.init_of_lt (Nat.le_refl m) hlt
  rw [← hslot] at hini
  simp only [Shm.step, doneTestStep, hd] at hst
  split at hst
  · rename_i d' hso hd'
    cases hd'
    simp only [hini, Option.some.injEq] at hst
    subst hst
    refine h.frame rfl List.prefix_rfl ?_ (fun _ => rfl)
    simp [Polled.inHand, hround, hcb, hnew]
  · cases hst

theorem Tally.doneStore {N m : Nat} {t : Tallied α} {s' : Polled α} (h : Tally m t) (hl : Live N m t.base)
    (hs : Polled.step t.base .doneStore = some s') : s'.st.hist.marked = t.base.st.hist.marked ++ [m] ∧
      Tally (m + 1) ⟨s', t.interrupted⟩ := by
  simp only [Polled.step] at hs
  split at hs
  swap
  · cases hs
  rename_i hround
  obtain ⟨st', hst, rfl⟩ := Option.map_eq_some_iff.1 hs
  simp only [Shm.step, doneStoreStep] at hst
  split at hst
  · cases hst
  · rename_i i hso
    cases hst
    obtain ⟨rfl, hlt, -, k, hc, hk⟩ := hl.place.storing hso
    have h0 : t.base.inHand = true := by simp [Polled.inHand, hround, hc, hso]
    refine ⟨?_, h.finish rfl rfl h0 ?_ (h.mem_of_hand h0)⟩
    · show t.base.st.hist.marked ++ [t.base.st.hist.owner (m % N)] = _
      rw [hl.ring.owner m hl.cleaned_le hlt]
    · simp [Polled.inHand, hround, hc, hk]

theorem live_unique {N m m' : Nat} {s s' : Polled α} (h : Live N m s) (h' : Live N m' s')
    (he : s'.st.hist.marked = s.st.hist.marked) : m = m' := by
  have hiff : ∀ k, k < m ↔ k < m' := fun k => by rw [← h.marked, ← h'.marked, he]
  have := hiff m
  have := hiff m'
  omega

theorem tally_step {N m : Nat} {t t' : Tallied α} {a : Polled.Act α} (h : Tally m t) (hl : Live N m t.base)
    (hg : Serves t.base a) (hstep : step t a = some t') : ∃ m', Live N m' t'.base ∧ Tally m' t' := by
  obtain ⟨s', hs, rfl⟩ := Option.map_eq_some_iff.1 hstep
  obtain ⟨m', hl'⟩ := hl.step hg hs
  have hsame : s'.st.hist.marked = t.base.st.hist.marked → ∀ {l : List Nat}, Tally m ⟨s', l⟩ →
      ∃ m', Live N m' s' ∧ Tally m' ⟨s', l⟩ := fun he l ht => ⟨m, (live_unique hl hl' he).symm ▸ hl', ht⟩
  cases a with
  | offer v =>
    obtain ⟨st', hst, rfl⟩ := Option.map_eq_some_iff.1 hs
    refine hsame ?_ (h.prod (N := N) (prodFrame_offer hst))
    simp only [Shm.step] at hst
    split at hst <;> cases hst
    rfl
  | prod t₀ t₁ =>
    obtain ⟨st', hst, rfl⟩ := Option.map_eq_some_iff.1 hs
    exact hsame (Polled.prod_others hst).1 (h.prod (prodFrame_prod hl.ring hst))
  | tryNotify t₀ t₁ now =>
    simp only [Polled.step] at hs
    split at hs <;> cases hs
    exact hsame rfl (h.frame rfl List.prefix_rfl rfl (fun _ => rfl))
  | start =>
    simp only [Polled.step] at hs
    split at hs <;> cases hs
    rename_i hlife
    exact hsame rfl (h.empty rfl List.prefix_rfl (inHand_of_life (by rw [hlife]; simp)) rfl)
  | scan =>
    simp only [Polled.step] at hs
    split at hs <;> cases hs
    rename_i idx hlife
    obtain ⟨hh, hne⟩ := scanAt_frame t.base idx
    exact hsame (congrArg Hist.marked hh) (h.empty (congrArg Hist.delivered hh) (hh ▸ List.prefix_rfl)
      (inHand_of_life (by rw [hlife]; simp)) (inHand_of_life hne))
  | attach =>
    simp only [Polled.step] at hs
    split at hs <;> cases hs
    rename_i hlife
    exact hsame rfl (h.empty rfl List.prefix_rfl (inHand_of_life (by rw [hlife]; simp)) rfl)
  | wake =>
    simp only [Polled.step] at hs
    split at hs <;> cases hs
    rename_i hw
    exact hsame rfl (h.empty rfl List.prefix_rfl (inHand_of_life (by rw [hw.1]; simp)) rfl)
  | cons => exact ⟨m, hl.cons hg hs, h.cons hl hg.1 hs⟩
  | doneTest k => exact ⟨m, hl.doneTest hg hs, h.doneTest hl hg hs⟩
  | doneStore =>
    obtain ⟨he, ht⟩ := h.doneStore hl hs
    have hm' : m' = m + 1 := by
      have hiff : ∀ k, k < m' ↔ k < m ∨ k = m := fun k => by
        rw [← hl'.marked, he, List.mem_append, List.mem_singleton, hl.marked]
      have := hiff m
      have := hiff (m + 1)
      omega
    exact ⟨m', hl', hm' ▸ ht⟩
  | endRound =>
    simp only [Polled.step] at hs
    split at hs <;> cases hs
    rename_i hend
    exact hsame rfl (h.empty rfl List.prefix_rfl (inHand_of_cons (by rw [hend.2]; rfl)) rfl)
  | crash =>
    have hlist : t.base.inHand = true → t.base.item.toList = [m] := fun hh => by
      rw [h.hand hh]
      rfl
    simp only [Polled.step] at hs
    split at hs <;> cases hs
    exact hsame rfl (h.crash hlist rfl rfl)

/-- **At-least-once delivery, over any number of crashes**: in the runs that leave no message lying. -/
theorem at_least_once (N : Nat) (hN : 0 < N) (t : Tallied α)
    (h : Reach step (fun t a => Serves t.base a) (start α N) t) : AtLeastOnce t := by
  obtain ⟨m, hl, ht⟩ := h.invariant (I := fun t => ∃ m, Live N m t.base ∧ Tally m t) ⟨0, .start N hN, .start N⟩
    (fun _ _ _ _ hi hg hs => by
      obtain ⟨m, hl, ht⟩ := hi
      exact tally_step ht hl hg hs)
  refine ⟨ht.order, fun k hk j hj => ?_, ht.reads, fun k hk => ht.before k ((hl.marked k).1 hk), fun k => ?_,
    fun hw he hc hp k hk => ?_⟩
  · exact (hl.marked j).2 (Nat.lt_of_lt_of_le hj (ht.beyond k hk))
  · rcases Nat.lt_trichotomy k m with hlt | rfl | hgt
    · exact ht.again k hlt
    · have := ht.here
      split at this <;> omega
    · rw [List.count_eq_zero.2 (fun hk => absurd (ht.beyond k hk) (by omega))]
      exact Nat.zero_le _
  · have hbase : Reach Polled.step Serves (Polled.start α N) t.base :=
      h.simulate (fun t₁ a t₂ _ hg hs => by
        obtain ⟨s', hs', rfl⟩ := Option.map_eq_some_iff.1 hs
        exact .single hg hs')
    have hnil := Polled.none_stranded N t.base hbase hw he hc hp
    have := hl.unmarked_nil.1 hnil
    exact ht.before k (by omega)

/-- Item 7 is interrupted by a crash and delivered again, item 8 once. -/
theorem at_least_once_crash : ∃ t, Machine.exec step (fun t a => Serves t.base a) (start Nat 3) Polled.crashedOnce =
    some t ∧ t.base.st.hist.seqs = [0, 0, 1] ∧ t.interrupted = [0] ∧ AtLeastOnce t :=
  ⟨_, rfl, rfl, rfl, at_least_once 3 (by decide) _ (Machine.reach_of_exec _ _ Polled.crashedOnce _ rfl)⟩

end Tallied
end Shm
