import ShmMultiproc.Delivery
/-!
# WaitFree — how long an operation takes, whatever the other side does

`Offer` has a loop, and the reader marks slots CONSUMED while it runs; but every pass reclaims one of the slots that were
in use when it began, and nothing but this `Offer` fills one.  So it returns after at most `6 N + 8` accesses of its own
(`offer_wait_free`).  A reader that has not lapped the producer gets the next item after at most six steps
(`delivery_wait_free`).
-/
namespace Shm

open Cyclic (wrap Phase wrap_lt)
open Machine (Reach Pending)

variable {α : Type}

/-! ## The producer -/

/-- An upper bound of the accesses that the current `Offer` has still to make; six for each pass of the clean loop, and
eight from its last test on. -/
def offerRank (s : St α) : Nat :=
  let inUse := s.hist.accepted.length - s.hist.cleaned
  match s.prod with
  | .idle => 0
  | .clean _ => 6 * inUse + 8
  | .cleanTest _ => 6 * inUse + 7
  | .drop _ => 6 * inUse + 6
  | .null _ => 6 * inUse + 5
  | .mark _ => 6 * inUse + 4
  | .advance _ => 6 * inUse + 9
  | .wrap _ => 6
  | .test _ => 5
  | .store _ => 4
  | .publish _ => 3
  | .notify _ => 2
  | .bump _ | .refuse _ => 1

def Act.isProd : Act α → Bool
  | .prod _ _ => true
  | _ => false

def OfferReturns (_ : St α) (_ : Act α) (s' : St α) : Prop := s'.prod = .idle

theorem offerRank_pos {s : St α} (h : s.prod ≠ .idle) : 0 < offerRank s := by
  unfold offerRank
  cases hp : s.prod with
  | idle => exact absurd hp h
  | _ => dsimp only; omega

theorem cons_frame {s s' : St α} (hs : step s .cons = some s') : s'.prod = s.prod ∧
    s'.hist.accepted = s.hist.accepted ∧ s'.hist.cleaned = s.hist.cleaned := by
  obtain ⟨r, nf, pc, cs, so, hi⟩ := s
  cases cs with
  | between last | skip | take | call i | callback k => cases hs; exact ⟨rfl, rfl, rfl⟩
  | test | test2 =>
    simp only [step, consStep] at hs
    split at hs <;> cases hs <;> exact ⟨rfl, rfl, rfl⟩

theorem offerRank_frame {s s' : St α} {a : Act α} (ha : a.isProd = false) (hbusy : s.prod ≠ .idle)
    (hs : step s a = some s') : s'.prod = s.prod ∧ offerRank s' = offerRank s := by
  have hrank : ∀ {s' : St α}, s'.prod = s.prod → s'.hist.accepted = s.hist.accepted → s'.hist.cleaned = s.hist.cleaned →
      s'.prod = s.prod ∧ offerRank s' = offerRank s := fun hp hacc hc => by
    refine ⟨hp, ?_⟩
    unfold offerRank
    rw [hp, hacc, hc]
  cases a with
  | offer v =>
    simp only [step] at hs
    cases hs
  | prod t t' => cases ha
  | cons =>
    obtain ⟨hp, hacc, hc⟩ := cons_frame hs
    exact hrank hp hacc hc
  | doneTest k =>
    simp only [step, doneTestStep] at hs
    split at hs
    · split at hs <;> cases hs <;> exact hrank rfl rfl rfl
    · cases hs
  | doneStore =>
    simp only [step, doneStoreStep] at hs
    split at hs <;> cases hs
    exact hrank rfl rfl rfl

/-- **Every access of `Offer` that is not its last lowers the rank**: the only way back, from `advance` to `clean`, has
reclaimed a slot. -/
theorem offerRank_prod {N : Nat} {s s' : St α} {t t' : Int} (h : RingInv N s) (hs : step s (.prod t t') = some s')
    (hret : s'.prod ≠ .idle) : offerRank s' + 1 ≤ offerRank s := by
  obtain ⟨r, nf, pc, cs, so, hi⟩ := s
  cases pc with
  | idle => cases hs
  | clean v | drop v | null v | advance v | wrap v | store v | publish v | notify v =>
    cases hs
    simp only [offerRank]
    omega
  | cleanTest v =>
    simp only [step, prodStep] at hs
    split at hs <;> cases hs <;> simp only [offerRank] <;> omega
  | mark v =>
    cases hs
    have hlt : hi.cleaned < hi.accepted.length := (h.oldest rfl).1
    simp only [offerRank]
    omega
  | test v =>
    simp only [step, prodStep] at hs
    split at hs <;> cases hs <;> simp only [offerRank] <;> omega
  | refuse v | bump v =>
    cases hs
    exact absurd rfl hret

theorem RingInv.prod_enabled {N : Nat} {s : St α} (h : RingInv N s) (hbusy : s.prod ≠ .idle) (t t' : Int) :
    ∃ s', Shm.step s (.prod t t') = some s' := by
  have hsize := h.window.size
  have hclean := h.cleanedLt
  have hprod := h.produceLt
  simp only [Shm.step]
  unfold prodStep
  cases hp : s.prod with
  | idle => exact absurd hp hbusy
  | cleanTest v =>
    rw [hp] at hclean
    obtain ⟨st, hst⟩ := RingBuffer.exists_statusAt (r := s.ring) (hsize ▸ hclean rfl)
    cases st <;> simp only [hst] <;> exact ⟨_, rfl⟩
  | test v =>
    rw [hp] at hprod
    obtain ⟨st, hst⟩ := RingBuffer.exists_statusAt (r := s.ring) (hsize ▸ hprod rfl)
    cases st <;> simp only [hst] <;> exact ⟨_, rfl⟩
  | _ => exact ⟨_, rfl⟩

/-- **`Offer` is wait-free**: from any reachable state in which it begins, and whatever the reader and the closures do in
between, it has not made `6 N + 8` accesses before it returns, and each next one goes through. -/
theorem offer_wait_free (N : Nat) (hN : 0 < N) (s₀ s : St α) (v : α) (n : Nat)
    (hr : Reach step Machine.anyStep (St.start α N) s₀) (hv : s₀.prod = .clean v)
    (h : Pending step Machine.anyStep Act.isProd OfferReturns s₀ s n) :
    n < 6 * N + 8 ∧ ∀ t t', ∃ s', step s (.prod t t') = some s' := by
  have hi₀ := ringInv_reach hN hr
  obtain ⟨⟨hi, hbusy⟩, hle⟩ := h.le (I := fun s => RingInv N s ∧ s.prod ≠ .idle) offerRank
    ⟨hi₀, by rw [hv]; intro e; cases e⟩ (fun s a s' hs _ hstep hret => by
      obtain ⟨hi, hbusy⟩ := hs
      refine ⟨⟨hi.step hstep, hret⟩, ?_⟩
      cases ha : a.isProd with
      | false =>
        rw [(offerRank_frame ha hbusy hstep).2]
        exact Nat.le_refl _
      | true =>
        cases a with
        | prod t t' => exact offerRank_prod hi hstep hret
        | _ => cases ha)
  refine ⟨?_, hi.prod_enabled hbusy⟩
  have hrank : offerRank s₀ = 6 * (s₀.hist.accepted.length - s₀.hist.cleaned) + 8 := by
    unfold offerRank
    rw [hv]
  have hpos := offerRank_pos hbusy
  have hge := hi₀.window.ge
  omega

/-- A slot is CONSUMED when the second `Offer` begins; it makes two accesses, with a step of the reader in between. -/
theorem offer_wait_free_one : ∃ s₀ s, Machine.exec step Machine.anyStep (St.start Nat 1)
    (offering 7 8 ++ reading 5 ++ [.doneTest 0, .doneStore, .offer 8]) = some s₀ ∧
    Pending step Machine.anyStep Act.isProd OfferReturns s₀ s 2 ∧ s.prod = .drop 8 ∧
    (2 < 6 * 1 + 8 ∧ ∀ t t', ∃ s', step s (.prod t t') = some s') := by
  obtain ⟨s₀, he, hv, s, hp, hd⟩ : ∃ s₀, Machine.exec step Machine.anyStep (St.start Nat 1)
      (offering 7 8 ++ reading 5 ++ [.doneTest 0, .doneStore, .offer 8]) = some s₀ ∧ s₀.prod = .clean 8 ∧
      ∃ s, Pending step Machine.anyStep Act.isProd OfferReturns s₀ s 2 ∧ s.prod = .drop 8 :=
    ⟨_, rfl, rfl, _, .next (a := Act.prod 0 0) (.next (a := Act.cons) (.next (a := Act.prod 0 0) .init trivial rfl
      (by intro h; cases h)) trivial rfl (by intro h; cases h)) trivial rfl (by intro h; cases h), rfl⟩
  exact ⟨s₀, s, he, hp, hd, offer_wait_free 1 (by decide) s₀ s 8 2 (Machine.reach_of_exec _ _ _ _ he) hv hp⟩

/-! ## The reader -/

/-- An upper bound of the reader's steps up to the next call of the callback. -/
def readRank (s : St α) : Nat :=
  match s.cons with
  | .callback _ | .skip => 6
  | .between _ => 5
  | .test => 4
  | .test2 => 3
  | .take => 2
  | .call _ => 1

def Act.isCons : Act α → Bool
  | .cons => true
  | _ => false

def Delivers (s : St α) (_ : Act α) (s' : St α) : Prop := s'.hist.delivered.length ≠ s.hist.delivered.length

def Awaits (s : St α) : Prop := s.hist.delivered.length < s.hist.accepted.length

theorem DelivInv.next_init {N : Nat} {s : St α} (h : DelivInv N s) (hlead : s.cons.lead = 0)
    (hfits : s.cons.fits = true) (hw : Awaits s) : s.ring.statusAt s.ring.consumeIdx = some .init := by
  have hp := h.phase
  rw [hlead, Nat.add_zero] at hp
  rw [hp.eq_mod (h.ring.consumeLt hfits)]
  exact h.init_of_not_delivered (Nat.le_refl _) hw

theorem DelivInv.cons_progress {N : Nat} {s : St α} (h : DelivInv N s) (hw : Awaits s) :
    ∃ s', Shm.step s .cons = some s' ∧ (Delivers s .cons s' ∨ readRank s' + 1 ≤ readRank s) := by
  have hN := h.ring.pos
  have hsize : s.ring.size = N := h.ring.window.size
  have hnext := h.next_init
  obtain ⟨r, nf, pc, cs, so, hi⟩ := s
  simp only [Shm.step]
  cases cs with
  | between last =>
    have hlt : ¬ r.size ≤ wrap r.size r.consumeIdx := Nat.not_le.2 (wrap_lt (hsize ▸ hN) _)
    refine ⟨_, rfl, .inr ?_⟩
    simp only [readRank, if_neg hlt]
    omega
  | test =>
    have hst := hnext rfl rfl hw
    simp only [consStep, hst]
    exact ⟨_, rfl, .inr (Nat.le_refl 4)⟩
  | skip => exact ⟨_, rfl, .inr (Nat.le_refl 6)⟩
  | test2 =>
    have hst := hnext rfl rfl hw
    simp only [consStep, hst]
    exact ⟨_, rfl, .inr (Nat.le_refl 3)⟩
  | take => exact ⟨_, rfl, .inr (Nat.le_refl 2)⟩
  | call i =>
    refine ⟨_, rfl, .inl ?_⟩
    show (hi.delivered ++ [_]).length ≠ hi.delivered.length
    rw [List.length_append]
    simp
  | callback k => exact ⟨_, rfl, .inr (Nat.le_refl 6)⟩

theorem DelivInv.read_frame {N : Nat} {s s' : St α} {a : Act α} (h : DelivInv N s) (ha : a.isCons = false)
    (hw : Awaits s) (hs : Shm.step s a = some s') : Awaits s' ∧ readRank s' = readRank s := by
  have hkeep : ∀ {s' : St α}, s'.cons = s.cons → s'.hist.delivered = s.hist.delivered →
      s.hist.accepted.length ≤ s'.hist.accepted.length → Awaits s' ∧ readRank s' = readRank s :=
    fun hc hd hacc => by
      unfold Awaits readRank at *
      rw [hc, hd]
      exact ⟨by omega, rfl⟩
  cases a with
  | offer v =>
    have hf := prodFrame_offer (N := N) hs
    refine hkeep hf.cons hf.delivered ?_
    rcases hf.accepted with e | ⟨x, e, -⟩ <;> rw [e]
    simp
  | prod t t' =>
    have hf := prodFrame_prod h.ring hs
    refine hkeep hf.cons hf.delivered ?_
    rcases hf.accepted with e | ⟨x, e, -⟩ <;> rw [e]
    simp
  | cons => cases ha
  | doneTest k =>
    simp only [Shm.step, doneTestStep] at hs
    split at hs
    · split at hs <;> cases hs <;> exact hkeep rfl rfl (Nat.le_refl _)
    · cases hs
  | doneStore =>
    simp only [Shm.step, doneStoreStep] at hs
    split at hs <;> cases hs
    exact hkeep rfl rfl (Nat.le_refl _)

/-- **Delivery is wait-free**: from any reachable state with an item before the reader, and whatever the producer and the
closures do in between, the reader gets it at its sixth step at the latest, and each next step goes through. -/
theorem delivery_wait_free (N : Nat) (hN : 0 < N) (s₀ s : St α) (n : Nat)
    (hr : Reach step (fun s a => CallsOnce s a ∧ Unlapped s a) (St.start α N) s₀) (hw : Awaits s₀)
    (h : Pending step (fun s a => CallsOnce s a ∧ Unlapped s a) Act.isCons Delivers s₀ s n) :
    n < 6 ∧ ∃ s', step s .cons = some s' := by
  obtain ⟨⟨hi, hw'⟩, hle⟩ := h.le (I := fun s => DelivInv N s ∧ Awaits s) readRank ⟨delivInv_reach hN hr, hw⟩
    (fun s a s' hs hg hstep hdel => by
      obtain ⟨hi, hw⟩ := hs
      have hi' := hi.step hg.1 hg.2 hstep
      cases ha : a.isCons with
      | false =>
        obtain ⟨hw', hrank⟩ := hi.read_frame ha hw hstep
        rw [hrank]
        exact ⟨⟨hi', hw'⟩, Nat.le_refl _⟩
      | true =>
        cases a with
        | cons =>
          obtain ⟨s₁, hs₁, hcase⟩ := hi.cons_progress hw
          cases hs₁.symm.trans hstep
          have hlen : s'.hist.delivered.length = s.hist.delivered.length := not_not.1 hdel
          refine ⟨⟨hi', ?_⟩, hcase.resolve_left hdel⟩
          have hacc := (cons_frame hstep).2.1
          unfold Awaits at hw ⊢
          rw [hlen, hacc]
          exact hw
        | _ => cases ha)
  have hbound : readRank s₀ ≤ 6 := by
    unfold readRank
    split <;> omega
  have hpos : 0 < readRank s := by
    unfold readRank
    split <;> omega
  obtain ⟨s', hs', -⟩ := hi.cons_progress hw'
  exact ⟨by omega, s', hs'⟩

/-- The reader has come to its second test of the status; the producer begins another `Offer` in between. -/
theorem delivery_wait_free_one : ∃ s₀ s, Machine.exec step (fun s a => CallsOnce s a ∧ Unlapped s a) (St.start Nat 1)
    (offering 7 8) = some s₀ ∧ Awaits s₀ ∧
    Pending step (fun s a => CallsOnce s a ∧ Unlapped s a) Act.isCons Delivers s₀ s 2 ∧ s.cons = .test2 ∧
    (2 < 6 ∧ ∃ s', step s .cons = some s') := by
  obtain ⟨s₀, he, hw, s, hp, hc⟩ : ∃ s₀, Machine.exec step (fun s a => CallsOnce s a ∧ Unlapped s a) (St.start Nat 1)
      (offering 7 8) = some s₀ ∧ Awaits s₀ ∧
      ∃ s, Pending step (fun s a => CallsOnce s a ∧ Unlapped s a) Act.isCons Delivers s₀ s 2 ∧ s.cons = .test2 :=
    ⟨_, rfl, Nat.zero_lt_one, _, .next (a := Act.cons) (.next (a := Act.offer 8) (.next (a := Act.cons) .init
      (by decide) rfl (by intro h; exact h rfl)) (by decide) rfl (by intro h; exact h rfl)) (by decide) rfl
      (by intro h; exact h rfl), rfl⟩
  exact ⟨s₀, s, he, hw, hp, hc, delivery_wait_free 1 (by decide) s₀ s 2 (Machine.reach_of_exec _ _ _ _ he) hw hp⟩

end Shm
