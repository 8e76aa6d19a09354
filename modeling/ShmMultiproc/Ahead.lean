import ShmMultiproc.Delivery
import ShmMultiproc.Restart
/-!
# Ahead — items that lie in order before the reader

`Ahead M q rest s` says that the items `rest` are in the slots from the reader on, one after the other, and that nothing
but the reader will touch them.  `Ahead.reach` says that they are then delivered in order and before anything else,
whatever calls of `Offer` and `Take` and closures follow, and `Ahead.handed_first` that the next `Take` is handed them
first.  Neither asks how the items came to lie there.
-/
namespace Shm

open Cyclic (wrap Phase wrap_lt wrap_of_lt window_inj)
open Machine (Reach)
open RingBuffer (handed CallsOrKeeps)

variable {α : Type}

/-! ## What the producer and the closures leave alone -/

/-- **A slot about to be written has the status it was seen to have.** -/
structure Seen (s : St α) : Prop where
  reclaims : s.prod.reclaims = true → s.ring.statusAt s.ring.cleanedIdx = some .consumed
  fills : s.prod.fills = true → s.ring.statusAt s.ring.produceIdx = some .cleaned
  storing : ∀ i, s.storing = some i → s.ring.statusAt i = some .init

/-- **A producer step leaves every INIT slot as it is**, and the reader where it is. -/
structure InitKept (s s' : St α) : Prop where
  cons : s'.cons = s.cons
  storing : s'.storing = s.storing
  consumeIdx : s'.ring.consumeIdx = s.ring.consumeIdx
  delivered : s'.hist.delivered = s.hist.delivered
  called : s'.hist.called = s.hist.called
  size : s'.ring.size = s.ring.size
  slot : ∀ i, s.ring.statusAt i = some .init →
    s'.ring.statusAt i = some .init ∧ s'.ring.valAt i = s.ring.valAt i ∧ s'.hist.owner i = s.hist.owner i

theorem reader_frame {s s' : St α} (hs : step s .cons = some s') : s'.ring.slots = s.ring.slots ∧
    s'.ring.produceIdx = s.ring.produceIdx ∧ s'.ring.cleanedIdx = s.ring.cleanedIdx ∧ s'.prod = s.prod ∧
    s'.storing = s.storing := by
  obtain ⟨r, nf, pc, cs, so, hi⟩ := s
  cases cs with
  | between last | skip | take | call i | callback k => cases hs; exact ⟨rfl, rfl, rfl, rfl, rfl⟩
  | test | test2 =>
    simp only [step, consStep] at hs
    split at hs <;> cases hs <;> exact ⟨rfl, rfl, rfl, rfl, rfl⟩

namespace Seen

variable {s s' : St α}

theorem of_idle (hp : s.prod = .idle) (hst : ∀ i, s.storing = some i → s.ring.statusAt i = some .init) : Seen s where
  reclaims := fun h => by rw [hp] at h; cases h
  fills := fun h => by rw [hp] at h; cases h
  storing := hst

theorem of_status (h : Seen s) (hst : ∀ i, s'.ring.statusAt i = s.ring.statusAt i) (hso : s'.storing = s.storing)
    (hr : s'.prod.reclaims = true → s.ring.statusAt s'.ring.cleanedIdx = some .consumed)
    (hf : s'.prod.fills = true → s.ring.statusAt s'.ring.produceIdx = some .cleaned) : Seen s' where
  reclaims := fun h' => by rw [hst]; exact hr h'
  fills := fun h' => by rw [hst]; exact hf h'
  storing := fun i hi => by rw [hso] at hi; rw [hst]; exact h.storing i hi

theorem of_write {j : Nat} {st : Status} (h : Seen s) (hring : ∀ i, i ≠ j → s'.ring.statusAt i = s.ring.statusAt i)
    (hso : s'.storing = s.storing) (hj : s.ring.statusAt j = some st) (hne : st ≠ .init)
    (hr : s'.prod.reclaims = false) (hf : s'.prod.fills = false) : Seen s' where
  reclaims := fun h' => by rw [hr] at h'; cases h'
  fills := fun h' => by rw [hf] at h'; cases h'
  storing := fun i hi => by
    rw [hso] at hi
    have hsi := h.storing i hi
    rw [hring i ?_]
    · exact hsi
    · rintro rfl
      rw [hsi] at hj
      exact hne (Option.some.inj hj).symm

theorem prod {t t' : Int} (h : Seen s) (hs : step s (.prod t t') = some s') : Seen s' := by
  obtain ⟨r, nf, pc, cs, so, hi⟩ := s
  cases pc with
  | idle => cases hs
  | clean v | advance v | wrap v | refuse v | notify v | bump v =>
    cases hs
    exact h.of_status (fun _ => rfl) rfl (fun h' => by cases h') (fun h' => by cases h')
  | cleanTest v =>
    simp only [step, prodStep] at hs
    split at hs <;> cases hs
    · rename_i hst
      exact h.of_status (fun _ => rfl) rfl (fun _ => hst) (fun h' => by cases h')
    · exact h.of_status (fun _ => rfl) rfl (fun h' => by cases h') (fun h' => by cases h')
  | test v =>
    simp only [step, prodStep] at hs
    split at hs <;> cases hs
    · rename_i hst
      exact h.of_status (fun _ => rfl) rfl (fun h' => by cases h') (fun _ => hst)
    · exact h.of_status (fun _ => rfl) rfl (fun h' => by cases h') (fun h' => by cases h')
  | drop v =>
    cases hs
    exact h.of_status (fun _ => rfl) rfl (fun _ => h.reclaims rfl) (fun h' => by cases h')
  | null v =>
    cases hs
    exact h.of_status (fun i => RingBuffer.statusAt_setVal r _ i _) rfl (fun _ => h.reclaims rfl)
      (fun h' => by cases h')
  | store v =>
    cases hs
    exact h.of_status (fun i => RingBuffer.statusAt_setVal r _ i _) rfl (fun h' => by cases h') (fun _ => h.fills rfl)
  | mark v =>
    cases hs
    exact h.of_write (fun i hne => RingBuffer.statusAt_setStatus_ne r _ (Ne.symm hne)) rfl (h.reclaims rfl) (by simp)
      rfl rfl
  | publish v =>
    cases hs
    exact h.of_write (fun i hne => RingBuffer.statusAt_setStatus_ne r _ (Ne.symm hne)) rfl (h.fills rfl) (by simp)
      rfl rfl

theorem cons (h : Seen s) (hs : step s .cons = some s') : Seen s' := by
  obtain ⟨hslots, hp, hc, hprod, hso⟩ := reader_frame hs
  refine h.of_status (fun i => RingBuffer.statusAt_congr hslots i) hso (fun h' => ?_) (fun h' => ?_)
  · rw [hprod] at h'
    rw [hc]
    exact h.reclaims h'
  · rw [hprod] at h'
    rw [hp]
    exact h.fills h'

theorem step {a : Act α} (h : Seen s) (hs : Shm.step s a = some s') : Seen s' := by
  cases a with
  | offer v =>
    simp only [Shm.step] at hs
    split at hs <;> cases hs
    exact h.of_status (fun _ => rfl) rfl (fun h' => by cases h') (fun h' => by cases h')
  | prod t t' => exact h.prod hs
  | cons => exact h.cons hs
  | doneTest k =>
    simp only [Shm.step, doneTestStep] at hs
    split at hs
    · split at hs <;> cases hs
      · rename_i hst
        exact ⟨h.reclaims, h.fills, fun i hi => by cases hi; exact hst⟩
      · exact ⟨h.reclaims, h.fills, h.storing⟩
    · cases hs
  | doneStore =>
    simp only [Shm.step, doneStoreStep] at hs
    split at hs <;> cases hs
    rename_i i hso
    have hst := h.storing i hso
    have hother : ∀ {j st}, s.ring.statusAt j = some st → st ≠ .init →
        (s.ring.setStatus i .consumed).statusAt j = some st := by
      intro j st hj hne
      rw [RingBuffer.statusAt_setStatus_ne]
      · exact hj
      · rintro rfl
        rw [hst] at hj
        exact hne (Option.some.inj hj).symm
    exact ⟨fun h' => hother (h.reclaims h') (by simp), fun h' => hother (h.fills h') (by simp), fun j hj => by cases hj⟩

theorem initKept {t t' : Int} (h : Seen s) (hs : Shm.step s (.prod t t') = some s') : InitKept s s' := by
  obtain ⟨r, nf, pc, cs, so, hi⟩ := s
  have hne : ∀ {i j st}, r.statusAt i = some .init → r.statusAt j = some st → st ≠ .init → j ≠ i := by
    rintro i j st hi hj hst rfl
    rw [hi] at hj
    exact hst (Option.some.inj hj).symm
  cases pc with
  | idle => cases hs
  | clean v | drop v | advance v | wrap v | refuse v | notify v | bump v =>
    cases hs
    exact ⟨rfl, rfl, rfl, rfl, rfl, rfl, fun i hi => ⟨hi, rfl, rfl⟩⟩
  | cleanTest v =>
    simp only [Shm.step, prodStep] at hs
    split at hs <;> cases hs <;> exact ⟨rfl, rfl, rfl, rfl, rfl, rfl, fun i hi => ⟨hi, rfl, rfl⟩⟩
  | test v =>
    simp only [Shm.step, prodStep] at hs
    split at hs <;> cases hs <;> exact ⟨rfl, rfl, rfl, rfl, rfl, rfl, fun i hi => ⟨hi, rfl, rfl⟩⟩
  | null v =>
    cases hs
    refine ⟨rfl, rfl, rfl, rfl, rfl, RingBuffer.size_setVal .., fun i hi => ⟨?_, ?_, rfl⟩⟩
    · exact (RingBuffer.statusAt_setVal ..).trans hi
    · show (r.setVal r.cleanedIdx none).valAt i = r.valAt i
      rw [RingBuffer.valAt_setVal, if_neg (hne hi (h.reclaims rfl) (by simp))]
  | store v =>
    cases hs
    refine ⟨rfl, rfl, rfl, rfl, rfl, RingBuffer.size_setVal .., fun i hi => ⟨?_, ?_, rfl⟩⟩
    · exact (RingBuffer.statusAt_setVal ..).trans hi
    · show (r.setVal r.produceIdx (some v)).valAt i = r.valAt i
      rw [RingBuffer.valAt_setVal, if_neg (hne hi (h.fills rfl) (by simp))]
  | mark v =>
    cases hs
    refine ⟨rfl, rfl, rfl, rfl, rfl, RingBuffer.size_setStatus .., fun i hi => ⟨?_, RingBuffer.valAt_setStatus .., rfl⟩⟩
    exact (RingBuffer.statusAt_setStatus_ne r _ (hne hi (h.reclaims rfl) (by simp))).trans hi
  | publish v =>
    cases hs
    have hp : r.statusAt r.produceIdx = some .cleaned := h.fills rfl
    refine ⟨rfl, rfl, rfl, rfl, rfl, RingBuffer.size_setStatus .., fun i hi => ⟨?_, RingBuffer.valAt_setStatus .., ?_⟩⟩
    · exact (RingBuffer.statusAt_setStatus_ne r _ (hne hi hp (by simp))).trans hi
    · exact Function.update_of_ne (Ne.symm (hne hi hp (by simp))) ..

end Seen

/-! ## The items ahead of the reader -/

/-- **The items `rest` lie ahead of the reader**, which stands at the count `q`: in the slots of the counts from `q` on,
one after the other, and no closure that may still be called is that of one of these slots. -/
structure Ahead (M q : Nat) (rest : List (Ref α)) (s : St α) : Prop where
  pos : 0 < M
  size : s.ring.size = M
  short : rest.length ≤ M
  phase : Phase M s.ring.consumeIdx (q + s.cons.lead)
  fits : s.cons.fits = true → s.ring.consumeIdx < M
  call : ∀ i, s.cons = .call i → i = q % M
  skip : s.cons = .skip → M = 1
  slots : ∀ j x, rest[j]? = some x → s.ring.statusAt ((q + j) % M) = some .init ∧
    s.hist.owner ((q + j) % M) = x.seq ∧ s.ring.get ((q + j) % M) = x.item
  uncalled : ∀ k d, s.hist.delivered[k]? = some d → k ∉ s.hist.called → ∀ j < rest.length, d.slot ≠ (q + j) % M
  storing : ∀ i, s.storing = some i → ∀ j < rest.length, i ≠ (q + j) % M

namespace Ahead

variable {M q : Nat} {x : Ref α} {rest : List (Ref α)} {s s' : St α}

theorem initKept (h : Ahead M q rest s) (hk : InitKept s s') : Ahead M q rest s' where
  pos := h.pos
  size := hk.size.trans h.size
  short := h.short
  phase := by rw [hk.consumeIdx, hk.cons]; exact h.phase
  fits := by rw [hk.consumeIdx, hk.cons]; exact h.fits
  call := by rw [hk.cons]; exact h.call
  skip := by rw [hk.cons]; exact h.skip
  slots := fun j x hx => by
    obtain ⟨hst, ho, hg⟩ := h.slots j x hx
    obtain ⟨hst', hv, ho'⟩ := hk.slot _ hst
    refine ⟨hst', ho'.trans ho, ?_⟩
    rw [← hg]
    unfold RingBuffer.get
    rw [hv]
  uncalled := by rw [hk.delivered, hk.called]; exact h.uncalled
  storing := by rw [hk.storing]; exact h.storing

theorem append (h : Ahead M q rest s) (hk : InitKept s s')
    (hfree : s.ring.statusAt ((q + rest.length) % M) ≠ some .init)
    (hnew : s'.ring.statusAt ((q + rest.length) % M) = some .init ∧ s'.hist.owner ((q + rest.length) % M) = x.seq ∧
      s'.ring.get ((q + rest.length) % M) = x.item)
    (hun : ∀ k d, s.hist.delivered[k]? = some d → k ∉ s.hist.called → s.ring.statusAt d.slot = some .init)
    (hst : ∀ i, s.storing = some i → s.ring.statusAt i = some .init) : Ahead M q (rest ++ [x]) s' := by
  have ha := h.initKept hk
  have hne : ∀ {i}, s.ring.statusAt i = some .init → i ≠ (q + rest.length) % M := by
    rintro i hi rfl
    exact hfree hi
  have hcases : ∀ {j}, j < (rest ++ [x]).length → j < rest.length ∨ j = rest.length := fun {j} hj => by
    rw [List.length_append, List.length_singleton] at hj
    omega
  refine { ha with
    short := ?_
    slots := fun j y hy => ?_
    uncalled := fun k d hd hc j hj => ?_
    storing := fun i hi j hj => ?_ }
  · rw [List.length_append, List.length_singleton]
    refine Nat.lt_of_le_of_ne h.short (fun he => ?_)
    have hpos := h.pos
    have hst := (h.slots 0 _ (List.getElem?_eq_getElem (by omega))).1
    refine hne hst ?_
    rw [he, Nat.add_zero, Nat.add_mod_right]
  · rcases hcases (List.getElem?_eq_some_iff.1 hy).1 with hj | rfl
    · rw [List.getElem?_append_left hj] at hy
      exact ha.slots j y hy
    · rw [List.getElem?_concat_length] at hy
      cases hy
      exact hnew
  · rcases hcases hj with hj | rfl
    · exact ha.uncalled k d hd hc j hj
    · rw [hk.delivered] at hd
      rw [hk.called] at hc
      exact hne (hun k d hd hc)
  · rcases hcases hj with hj | rfl
    · exact ha.storing i hi j hj
    · rw [hk.storing] at hi
      exact hne (hst i hi)

theorem doneTest {k : Nat} (h : Ahead M q rest s) (hg : CallsOnce s (.doneTest k))
    (hs : step s (.doneTest k) = some s') : Ahead M q rest s' := by
  simp only [step, doneTestStep] at hs
  split at hs
  · rename_i d hso hd
    have hmem : ∀ j, j ∉ s.hist.called ++ [k] → j ∉ s.hist.called := fun j hj hm => hj (List.mem_append_left _ hm)
    split at hs <;> cases hs
    · exact { h with
        uncalled := fun j d' hd' hj => h.uncalled j d' hd' (hmem j hj)
        storing := fun i hi => by cases hi; exact h.uncalled k d hd hg }
    · exact { h with uncalled := fun j d' hd' hj => h.uncalled j d' hd' (hmem j hj) }
  · cases hs

theorem doneStore (h : Ahead M q rest s) (hs : step s .doneStore = some s') : Ahead M q rest s' := by
  simp only [step, doneStoreStep] at hs
  split at hs <;> cases hs
  rename_i i hso
  exact { h with
    size := (RingBuffer.size_setStatus ..).trans h.size
    slots := fun j x hx => by
      obtain ⟨hst, ho, hg⟩ := h.slots j x hx
      have hj : j < rest.length := (List.getElem?_eq_some_iff.1 hx).1
      refine ⟨(RingBuffer.statusAt_setStatus_ne _ _ (h.storing i hso j hj)).trans hst, ho, ?_⟩
      rw [← hg]
      unfold RingBuffer.get
      rw [RingBuffer.valAt_setStatus]
    storing := fun j hj => by cases hj }

theorem moved (h : Ahead M q rest s) {i : Nat} {cs : ConsPc} (hp : Phase M i (q + cs.lead))
    (hf : cs.fits = true → i < M) (hc : ∀ j, cs = .call j → j = q % M) (hk : cs = .skip → M = 1) :
    Ahead M q rest { s with ring := { s.ring with consumeIdx := i }, cons := cs } :=
  { h with phase := hp, fits := hf, call := hc, skip := hk }

theorem consumeIdx_eq (h : Ahead M q rest s) (hf : s.cons.fits = true) (hl : s.cons.lead = 0) :
    s.ring.consumeIdx = q % M := by
  have hp := h.phase
  rw [hl] at hp
  exact hp.eq_mod (h.fits hf)

theorem init_of_cons (h : Ahead M q (x :: rest) s) (hf : s.cons.fits = true) (hl : s.cons.lead = 0) :
    s.ring.statusAt s.ring.consumeIdx = some .init := by
  rw [h.consumeIdx_eq hf hl]
  exact (h.slots 0 x rfl).1

theorem quiet (h : Ahead M q rest s) (hc : ∀ i, s.cons ≠ .call i)
    (hskip : s.cons = .test → s.ring.statusAt s.ring.consumeIdx = some .consumed → M = 1)
    (hs : step s .cons = some s') : s'.hist = s.hist ∧ Ahead M q rest s' := by
  obtain ⟨r, nf, pc, cs, so, hi⟩ := s
  have hsize : r.size = M := h.size
  have hM := h.pos
  cases cs with
  | between last =>
    simp only [step, consStep, Option.some.injEq, hsize] at hs
    subst hs
    have hlt := wrap_lt hM r.consumeIdx
    rw [if_neg (by omega)]
    exact ⟨rfl, h.moved (h.phase.wrapped hM) (fun _ => hlt) (fun j h' => by cases h') (fun h' => by cases h')⟩
  | test =>
    simp only [step, consStep] at hs
    split at hs <;> cases hs
    · rename_i hst
      exact ⟨rfl, h.moved h.phase (fun _ => h.fits rfl) (fun j h' => by cases h') (fun _ => hskip rfl hst)⟩
    · exact ⟨rfl, h.moved h.phase (fun _ => h.fits rfl) (fun j h' => by cases h') (fun h' => by cases h')⟩
  | skip =>
    cases hs
    have hone : M = 1 := h.skip rfl
    have hlt : r.consumeIdx < M := h.fits rfl
    refine ⟨rfl, h.moved ⟨hlt, ?_⟩ (fun h' => by cases h') (fun j h' => by cases h') (fun h' => by cases h')⟩
    rw [hone, Nat.mod_one, Nat.mod_one]
  | test2 =>
    simp only [step, consStep] at hs
    split at hs <;> cases hs
    · exact ⟨rfl, h.moved h.phase (fun _ => h.fits rfl) (fun j h' => by cases h') (fun h' => by cases h')⟩
    · exact ⟨rfl, h.moved h.phase (fun h' => by cases h') (fun j h' => by cases h') (fun h' => by cases h')⟩
  | take =>
    cases hs
    exact ⟨rfl, h.moved (h.phase.succ (h.fits rfl)) (fun h' => by cases h')
      (fun j h' => by cases h'; exact h.consumeIdx_eq rfl rfl) (fun h' => by cases h')⟩
  | call i => exact absurd rfl (hc i)
  | callback k =>
    cases hs
    exact ⟨rfl, h.moved h.phase (fun h' => by cases h') (fun j h' => by cases h') (fun h' => by cases h')⟩

theorem deliver {i : Nat} (h : Ahead M q (x :: rest) s) (hc : s.cons = .call i) (hs : step s .cons = some s') :
    s'.hist = { s.hist with delivered := s.hist.delivered ++ [⟨q % M, x⟩] } ∧
      s'.cons = .callback s.hist.delivered.length ∧ Ahead M (q + 1) rest s' := by
  obtain ⟨r, nf, pc, cs, so, hi⟩ := s
  cases hc
  obtain ⟨hst, ho, hg⟩ := h.slots 0 x rfl
  rw [Nat.add_zero] at hst ho hg
  cases h.call i rfl
  cases hs
  have hx : Ref.mk (hi.owner (q % M)) (r.get (q % M)) = x := by rw [ho, hg]
  have hM := h.pos
  have hshort : rest.length + 1 ≤ M := h.short
  have hnext : ∀ j, q + 1 + j = q + (j + 1) := fun j => by omega
  refine ⟨by rw [hx], rfl, hM, h.size, by omega, h.phase, (fun h' => by cases h'), (fun j h' => by cases h'),
    (fun h' => by cases h'), fun j y hy => ?_, fun k d hd hk j hj => ?_, fun i hi' j hj => ?_⟩
  · rw [hnext]
    exact h.slots (j + 1) y hy
  · rw [hnext]
    rw [List.getElem?_append] at hd
    split at hd
    · exact h.uncalled k d hd hk (j + 1) (by rw [List.length_cons]; omega)
    · obtain ⟨hlt, rfl⟩ := List.getElem?_eq_some_iff.1 hd
      rw [List.length_singleton] at hlt
      rw [List.getElem_singleton]
      intro he
      have := window_inj (N := M) (c := q) (j := q) (k := q + (j + 1)) (by omega) (by omega) (by omega) (by omega) he
      omega
  · rw [hnext]
    exact h.storing i hi' (j + 1) (by rw [List.length_cons]; omega)

/-- What the next `Take` is handed first. -/
theorem handed_first (h : Ahead M q rest s) (hlead : s.cons.lead = 0) {cb : RingBuffer.Callback α} {max : Int}
    (hcb : CallsOrKeeps cb) (hmax : max < 0) : rest.map Ref.item <+: handed cb max M 0 s.ring := by
  have hp := h.phase
  rw [hlead, Nat.add_zero] at hp
  have hshort := h.short
  have hin : ∀ j, q ≤ j → j < q + rest.length → ∃ x, rest[j - q]? = some x ∧
      s.ring.statusAt (j % M) = some .init ∧ s.ring.get (j % M) = x.item := by
    intro j hj hj'
    have hlt : j - q < rest.length := by omega
    obtain ⟨hst, -, hg⟩ := h.slots (j - q) rest[j - q] (List.getElem?_eq_getElem hlt)
    rw [Nat.add_sub_cancel' hj] at hst hg
    exact ⟨_, List.getElem?_eq_getElem hlt, hst, hg⟩
  have hwalk := RingBuffer.walk_window h.size h.pos (M - rest.length) rest.length q (fun j hj hj' => by
    obtain ⟨x, -, hst, -⟩ := hin j hj hj'
    exact .inl hst)
  rw [Nat.add_sub_cancel' hshort, List.filter_eq_self.2 (fun j hj => by
    have hmem := List.mem_range'_1.1 hj
    obtain ⟨x, -, hst, -⟩ := hin j hmem.1 hmem.2
    simpa using hst)] at hwalk
  rw [RingBuffer.handed_eq_walk hcb hmax h.size M 0 (q % M) s.ring (Nat.le_refl M) h.size (Nat.mod_lt q h.pos) hp.wrap
    (fun _ _ => rfl) (fun _ => rfl), hwalk, List.map_append, List.map_map]
  have hitems : (List.range' q rest.length).map (s.ring.get ∘ (· % M)) = rest.map Ref.item := by
    refine List.ext_getElem? (fun i => ?_)
    rw [List.getElem?_map, List.getElem?_map]
    by_cases hi : i < rest.length
    · obtain ⟨x, hx, -, hg⟩ := hin (q + i) (Nat.le_add_right q i) (by omega)
      rw [Nat.add_sub_cancel_left] at hx
      rw [List.getElem?_range' hi, Nat.one_mul, hx]
      exact congrArg some hg
    · rw [List.getElem?_eq_none (by rw [List.length_range']; omega), List.getElem?_eq_none (by omega)]
      rfl
  rw [hitems]
  exact List.prefix_append _ _

end Ahead

/-! ## Runs from a ring with items ahead -/

/-- What no step undoes. -/
structure Onward (s s' : St α) : Prop where
  size : s'.ring.size = s.ring.size
  accepted : s.hist.accepted <+: s'.hist.accepted
  delivered : s.hist.delivered <+: s'.hist.delivered

theorem onward_step {s s' : St α} {a : Act α} (hs : step s a = some s') : Onward s s' := by
  have hsame : s'.ring.size = s.ring.size → s'.hist.accepted = s.hist.accepted →
      s'.hist.delivered = s.hist.delivered → Onward s s' :=
    fun hr ha hd => ⟨hr, ha ▸ List.prefix_rfl, hd ▸ List.prefix_rfl⟩
  obtain ⟨r, nf, pc, cs, so, hi⟩ := s
  cases a with
  | offer v =>
    simp only [step] at hs
    split at hs <;> cases hs
    exact hsame rfl rfl rfl
  | prod t t' =>
    cases pc with
    | idle => cases hs
    | cleanTest v | test v =>
      simp only [step, prodStep] at hs
      split at hs <;> cases hs <;> exact hsame rfl rfl rfl
    | clean v | drop v | advance v | wrap v | refuse v | notify v | bump v => cases hs; exact hsame rfl rfl rfl
    | null v | store v => cases hs; exact hsame (RingBuffer.size_setVal ..) rfl rfl
    | mark v => cases hs; exact hsame (RingBuffer.size_setStatus ..) rfl rfl
    | publish v => cases hs; exact ⟨RingBuffer.size_setStatus .., List.prefix_append _ _, List.prefix_rfl⟩
  | cons =>
    cases cs with
    | between last | skip | take | callback k => cases hs; exact hsame rfl rfl rfl
    | test | test2 =>
      simp only [step, consStep] at hs
      split at hs <;> cases hs <;> exact hsame rfl rfl rfl
    | call i => cases hs; exact ⟨rfl, List.prefix_rfl, List.prefix_append _ _⟩
  | doneTest k =>
    simp only [step, doneTestStep] at hs
    split at hs
    · split at hs <;> cases hs <;> exact hsame rfl rfl rfl
    · cases hs
  | doneStore =>
    simp only [step, doneStoreStep] at hs
    split at hs <;> cases hs
    exact hsame (RingBuffer.size_setStatus ..) rfl rfl

theorem onward_reach {G : St α → Act α → Prop} {s s' : St α} (h : Reach step G s s') : Onward s s' := by
  refine h.invariant (I := Onward s) ⟨rfl, List.prefix_rfl, List.prefix_rfl⟩ (fun s₁ a s₂ _ hi _ hs => ?_)
  have hone := onward_step hs
  exact ⟨hone.size.trans hi.size, hi.accepted.trans hone.accepted, hi.delivered.trans hone.delivered⟩

/-- **The run lemma**: the items ahead are delivered in order and before anything else. -/
theorem Ahead.reach {M q : Nat} {P : List (Ref α)} {s s' : St α} (h : Reach step CallsOnce s s') (hseen : Seen s)
    (ha : Ahead M q P s) : Seen s' ∧ ∃ D, s'.hist.delivered = s.hist.delivered ++ D ∧
      ((∃ rest, D.map Delivery.ref ++ rest = P ∧ Ahead M (q + D.length) rest s') ∨ P <+: D.map Delivery.ref) := by
  refine h.invariant (I := fun s' => Seen s' ∧ ∃ D, s'.hist.delivered = s.hist.delivered ++ D ∧
    ((∃ rest, D.map Delivery.ref ++ rest = P ∧ Ahead M (q + D.length) rest s') ∨ P <+: D.map Delivery.ref))
    ⟨hseen, [], (List.append_nil _).symm, .inl ⟨P, rfl, by exact ha⟩⟩ (fun s₁ a s₂ _ hi hg hs => ⟨hi.1.step hs, ?_⟩)
  obtain ⟨hseen, D, hD, hcase⟩ := hi
  obtain ⟨D', hD'⟩ := (onward_step hs).delivered
  have hall : s₂.hist.delivered = s.hist.delivered ++ (D ++ D') := by rw [← hD', hD, List.append_assoc]
  have hsame : s₂.hist.delivered = s₁.hist.delivered → s₂.hist.delivered = s.hist.delivered ++ D := fun e => e.trans hD
  rcases hcase with ⟨rest, hrest, ha⟩ | hpre
  · cases rest with
    | nil =>
      rw [List.append_nil] at hrest
      refine ⟨D ++ D', hall, .inr ?_⟩
      rw [List.map_append, hrest]
      exact List.prefix_append _ _
    | cons x rest =>
      cases a with
      | offer v =>
        simp only [step] at hs
        split at hs <;> cases hs
        exact ⟨D, hD, .inl ⟨_, hrest, ha.initKept ⟨rfl, rfl, rfl, rfl, rfl, rfl, fun i hi => ⟨hi, rfl, rfl⟩⟩⟩⟩
      | prod t t' =>
        have hk := hseen.initKept hs
        exact ⟨D, hsame hk.delivered, .inl ⟨_, hrest, ha.initKept hk⟩⟩
      | cons =>
        by_cases hc : ∃ i, s₁.cons = .call i
        · obtain ⟨i, hc⟩ := hc
          obtain ⟨hh, -, ha⟩ := ha.deliver hc hs
          refine ⟨D ++ [⟨(q + D.length) % M, x⟩], by rw [hh, hD, List.append_assoc], .inl ⟨rest, ?_, ?_⟩⟩
          · rw [List.map_append, List.map_singleton, List.append_assoc]
            exact hrest
          · rw [List.length_append, List.length_singleton, ← Nat.add_assoc]
            exact ha
        · obtain ⟨hh, ha'⟩ := ha.quiet (fun i hi => hc ⟨i, hi⟩) (fun ht hst => by
            rw [ha.init_of_cons (by rw [ht]; rfl) (by rw [ht]; rfl)] at hst
            cases hst) hs
          exact ⟨D, hsame (congrArg Hist.delivered hh), .inl ⟨_, hrest, ha'⟩⟩
      | doneTest k =>
        refine ⟨D, hsame ?_, .inl ⟨_, hrest, ha.doneTest hg hs⟩⟩
        simp only [step, doneTestStep] at hs
        split at hs
        · split at hs <;> cases hs <;> rfl
        · cases hs
      | doneStore =>
        refine ⟨D, hsame ?_, .inl ⟨_, hrest, ha.doneStore hs⟩⟩
        simp only [step, doneStoreStep] at hs
        split at hs <;> cases hs
        rfl
  · refine ⟨D ++ D', hall, .inr (hpre.trans ?_)⟩
    rw [List.map_append]
    exact List.prefix_append _ _

end Shm
