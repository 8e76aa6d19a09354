import ShmMultiproc.RingInv
/-!
# Restart — a new reader on the ring of a crashed one

`OpenRead` scans from `cleaned_idx` up to `consume_idx` for an INIT slot.  Wherever the old reader stopped, the walk from
the index it leaves meets exactly the accepted items that are not marked done, oldest first (`restart_skips_nothing`).
-/
namespace Shm

open Cyclic (wrap wrap_lt wrap_of_lt wrap_succ_add_mod Phase)
open Machine (Reach)

variable {α : Type}

namespace RingBuffer

/-- The INIT slots met walking from slot `i` over `n` slots, or up to a CLEANED slot. -/
def walk (r : RingBuffer α) : Nat → Nat → List Nat
  | 0, _ => []
  | n + 1, i =>
    match r.statusAt i with
    | some .init => i :: walk r n (wrap r.size (i + 1))
    | some .consumed => walk r n (wrap r.size (i + 1))
    | _ => []

/-- What the first `n` iterations of `Take(cb, max, 0)` pass to the callback. -/
def handed (cb : Callback α) (max : Int) : Nat → Nat → RingBuffer α → List (Option α)
  | 0, _, _ => []
  | n + 1, counter, r =>
    match consumeItem cb max counter r with
    | .error _ => []
    | .ok c =>
      match c.code with
      | .cont => c.given ++ handed cb max n c.counter c.ring
      | _ => c.given

/-- A callback that calls its `done` closure or keeps it. -/
def CallsOrKeeps (cb : Callback α) : Prop :=
  ∀ v i r, cb v (done i) r = done i r ∨ cb v (done i) r = .ok r

theorem handed_of_takeLoop {cb : Callback α} {max : Int} : ∀ (fuel n counter : Nat) (r : RingBuffer α) (t : Taken α),
    fuel ≤ n → takeLoop cb max fuel counter r = .ok t → handed cb max n counter r = t.items
  | 0, _, _, _, _, _, ht => by cases ht
  | fuel + 1, 0, _, _, _, hn, _ => absurd hn (by omega)
  | fuel + 1, n + 1, counter, r, t, hn, ht => by
    unfold takeLoop at ht
    unfold handed
    rcases hc : consumeItem cb max counter r with e | c
    · rw [hc] at ht
      cases ht
    · rw [hc] at ht
      simp only at ht ⊢
      split at ht
      · rename_i hcode
        cases ht
        simp only [hcode]
      · rename_i hcode
        cases ht
        simp only [hcode]
      · rename_i hcode
        split at ht
        · cases ht
        · rename_i t' ht'
          cases ht
          simp only [hcode, handed_of_takeLoop fuel n _ _ _ (by omega) ht']

theorem handed_mono {cb : Callback α} {max : Int} : ∀ (n m counter : Nat) (r : RingBuffer α), n ≤ m →
    handed cb max n counter r <+: handed cb max m counter r
  | 0, m, counter, r, _ => List.nil_prefix
  | n + 1, 0, _, _, h => absurd h (by omega)
  | n + 1, m + 1, counter, r, h => by
    unfold handed
    split
    · exact List.prefix_refl _
    · split
      · exact (List.prefix_append_right_inj _).2 (handed_mono n m _ _ (by omega))
      · exact List.prefix_refl _

variable {r : RingBuffer α} {N : Nat}

theorem walk_init {i : Nat} (h : r.statusAt i = some .init) (n : Nat) :
    r.walk (n + 1) i = i :: r.walk n (wrap r.size (i + 1)) := by simp only [walk, h]

theorem walk_consumed {i : Nat} (h : r.statusAt i = some .consumed) (n : Nat) :
    r.walk (n + 1) i = r.walk n (wrap r.size (i + 1)) := by simp only [walk, h]

theorem walk_none (hr : r.size = N) : ∀ (n i : Nat), i < N → (∀ j < n, r.statusAt ((i + j) % N) ≠ some .init) →
    r.walk n i = []
  | 0, _, _, _ => rfl
  | n + 1, i, hi, h => by
    have h0 := h 0 (Nat.succ_pos n)
    rw [Nat.add_zero, Nat.mod_eq_of_lt hi] at h0
    unfold walk
    split
    · rename_i hs
      exact absurd hs h0
    · rw [hr]
      refine walk_none hr n _ (wrap_lt (by omega) _) (fun j hj => ?_)
      rw [wrap_succ_add_mod hi]
      exact h (j + 1) (by omega)
    · rfl

theorem walk_window (hr : r.size = N) (hN : 0 < N) (n : Nat) : ∀ (m k : Nat),
    (∀ j, k ≤ j → j < k + m → r.statusAt (j % N) = some .init ∨ r.statusAt (j % N) = some .consumed) →
    r.walk (m + n) (k % N) =
      ((List.range' k m).filter (fun j => r.statusAt (j % N) = some .init)).map (· % N) ++ r.walk n ((k + m) % N)
  | 0, k, _ => by rw [Nat.zero_add]; rfl
  | m + 1, k, h => by
    have hnext : wrap r.size (k % N + 1) = (k + 1) % N := by
      rw [hr]; exact ((Phase.of_mod hN k).succ (Nat.mod_lt k hN)).wrap
    have ih := walk_window hr hN n m (k + 1) (fun j hj hj' => h j (by omega) (by omega))
    rw [show m + 1 + n = (m + n) + 1 by omega, List.range'_succ]
    rw [show k + 1 + m = k + (m + 1) by omega] at ih
    rcases h k (Nat.le_refl k) (by omega) with hs | hs
    · rw [walk_init hs, hnext, ih, List.filter_cons_of_pos (by simpa using hs)]
      rfl
    · rw [walk_consumed hs, hnext, ih, List.filter_cons_of_neg (by simp [hs])]

/-- **Over one lap the reader is handed what the walk meets**, whatever its callbacks do with their closures: no slot
is met twice. -/
theorem handed_eq_walk {cb : Callback α} (hcb : CallsOrKeeps cb) {max : Int} (hmax : max < 0) (hr : r.size = N) :
    ∀ (n counter i : Nat) (r₁ : RingBuffer α), n ≤ N → r₁.size = N → i < N → wrap N r₁.consumeIdx = i →
      (∀ j < n, r₁.statusAt ((i + j) % N) = r.statusAt ((i + j) % N)) → (∀ j, r₁.valAt j = r.valAt j) →
      handed cb max n counter r₁ = (r.walk n i).map r.get
  | 0, _, _, _, _, _, _, _, _, _ => rfl
  | n + 1, counter, i, r₁, hn, hr₁, hi, hw, hst, hval => by
    have hst0 := hst 0 (Nat.succ_pos n)
    rw [Nat.add_zero, Nat.mod_eq_of_lt hi] at hst0
    have hnext : ∀ j < n, r₁.statusAt ((wrap N (i + 1) + j) % N) = r.statusAt ((wrap N (i + 1) + j) % N) := by
      intro j hj
      rw [wrap_succ_add_mod hi]
      exact hst (j + 1) (by omega)
    have hlt : wrap N (i + 1) < N := wrap_lt (by omega) _
    have hget : r₁.get i = r.get i := by unfold RingBuffer.get; rw [hval]
    unfold walk
    unfold handed
    obtain ⟨st, hs⟩ := exists_statusAt (show i < r.size by omega)
    have hs₁ : r₁.statusAt (wrap r₁.size r₁.consumeIdx) = some st := by rw [hr₁, hw, hst0, hs]
    cases st with
    | cleaned =>
      rw [consumeItem_cleaned cb max counter hs₁]
      simp only [hs]
      rfl
    | consumed =>
      rw [consumeItem_consumed cb max counter hs₁]
      simp only [hs, hr₁, hw, hr, List.nil_append]
      exact handed_eq_walk hcb hmax hr n counter (wrap N (i + 1)) _ (by omega) hr₁ hlt rfl hnext hval
    | init =>
      have hs₂ : ({ r₁ with consumeIdx := i + 1 } : RingBuffer α).statusAt i = some .init := by
        rw [statusAt_mk, ← hs₁, hr₁, hw]
      have hcall : ∃ r₂, cb (r₁.get i) (done i) { r₁ with consumeIdx := i + 1 } = .ok r₂ ∧ r₂.size = N ∧
          r₂.consumeIdx = i + 1 ∧ (∀ j, j ≠ i → r₂.statusAt j = r₁.statusAt j) ∧ ∀ j, r₂.valAt j = r₁.valAt j := by
        rcases hcb (r₁.get i) i { r₁ with consumeIdx := i + 1 } with hc | hc
        · rw [done_init hs₂] at hc
          exact ⟨_, hc, by rw [size_setStatus, size_mk, hr₁], rfl,
            fun j hj => by rw [statusAt_setStatus_ne _ _ (Ne.symm hj), statusAt_mk],
            fun j => by rw [valAt_setStatus, valAt_mk]⟩
        · exact ⟨_, hc, hr₁, rfl, fun j _ => rfl, fun j => rfl⟩
      obtain ⟨r₂, hcb₂, hr₂, hc₂, hst₂, hval₂⟩ := hcall
      rw [← hw, ← hr₁] at hcb₂
      have hcons := consumeItem_init max counter hs₁ hcb₂
      rw [if_neg (by omega), hr₁, hw] at hcons
      rw [hcons]
      simp only [hs, hr, List.map_cons, hget]
      refine congrArg (r.get i :: ·) (handed_eq_walk hcb hmax hr n (counter + 1) (wrap N (i + 1)) r₂ (by omega) hr₂ hlt
        (by rw [hc₂]) (fun j hj => ?_) (fun j => by rw [hval₂, hval]))
      rw [hst₂ _ ?_, hnext j hj]
      rw [wrap_succ_add_mod hi]
      intro he
      have := Cyclic.window_inj (N := N) (c := i) (j := i + (j + 1)) (k := i) (by omega) (by omega) (by omega) (by omega)
        (by rw [he, Nat.mod_eq_of_lt hi])
      omega

end RingBuffer

open RingBuffer

variable {N c : Nat} {r : RingBuffer α} {acc : List α} {nulled : Bool} {pend : Option α}

/-- **Where the scan ends**: at `consume_idx`, or at the oldest INIT slot; `k` of the window have been scanned. -/
theorem openReadLoop_spec (hr : r.size = N) (hle : r.consumeIdx ≤ N) (hN : 0 < N) : ∀ (fuel k : Nat)
    (r' : RingBuffer α), c ≤ k → (∀ j, c ≤ j → j < k → r.statusAt (j % N) ≠ some .init) →
    openReadLoop fuel (k % N) r = .ok r' →
    ∃ k', c ≤ k' ∧ (∀ j, c ≤ j → j < k' → r.statusAt (j % N) ≠ some .init) ∧ r'.slots = r.slots ∧
      wrap N r'.consumeIdx = k' % N
  | 0, _, _, _, _, ho => by cases ho
  | fuel + 1, k, r', hk, hno, ho => by
    have hlt := Nat.mod_lt k hN
    unfold openReadLoop at ho
    split at ho
    · rename_i hx
      cases ho
      exact ⟨k, hk, hno, rfl, by rw [← hx, wrap_of_lt hlt]⟩
    · split at ho
      · cases ho
      · cases ho
        exact ⟨k, hk, hno, rfl, wrap_of_lt hlt⟩
      · rename_i st hni hs
        rw [hr, ((Phase.of_mod hN k).succ hlt).wrap] at ho
        refine openReadLoop_spec hr hle hN fuel (k + 1) r' (by omega) (fun j hj hj' => ?_) ho
        by_cases hjk : j = k
        · subst hjk
          rw [hs]
          simpa using hni
        · exact hno j hj (by omega)

/-! ## Every accepted item that is not marked done -/

/-- The accepted items that no `done` closure has marked. -/
def Hist.unmarked (hi : Hist α) : List Nat := (List.range hi.accepted.length).filter (fun k => k ∉ hi.marked)

theorem Hist.unmarked_eq_range' (hi : Hist α) (k : Nat) (h : ∀ j < k, j < hi.accepted.length → j ∈ hi.marked) :
    hi.unmarked = (List.range' k (hi.accepted.length - k)).filter (fun j => j ∉ hi.marked) := by
  unfold Hist.unmarked
  have hnil : ∀ m ≤ k, m ≤ hi.accepted.length → (List.range m).filter (fun j => decide (j ∉ hi.marked)) = [] := by
    intro m hm hm'
    refine List.filter_eq_nil_iff.2 (fun j hj => ?_)
    have hjm := List.mem_range.1 hj
    simpa using h j (by omega) (by omega)
  rcases Nat.le_total k hi.accepted.length with hle | hle
  · have hsplit : List.range hi.accepted.length = List.range k ++ List.range' k (hi.accepted.length - k) := by
      rw [List.range_eq_range', List.range_eq_range']
      have := List.range'_append_1 (s := 0) (m := k) (n := hi.accepted.length - k)
      rw [Nat.zero_add, Nat.add_sub_cancel' hle] at this
      exact this.symm
    rw [hsplit, List.filter_append, hnil k (Nat.le_refl k) hle, List.nil_append]
  · rw [hnil _ hle (Nat.le_refl _), Nat.sub_eq_zero_of_le hle]
    rfl

theorem RingInv.walk_eq {s : St α} (h : RingInv N s) (hidle : s.prod = .idle) {k : Nat} (hk : s.hist.cleaned ≤ k)
    (hkN : k < s.hist.cleaned + N) (hno : ∀ j, s.hist.cleaned ≤ j → j < k → s.ring.statusAt (j % N) ≠ some .init) :
    s.ring.walk N (k % N) = s.hist.unmarked.map (· % N) := by
  have hw := h.window
  rw [hidle] at hw
  have hge := hw.ge
  have hle := hw.le
  have hused : ∀ j, s.hist.cleaned ≤ j → j < s.hist.accepted.length →
      (s.ring.statusAt (j % N) = some .init ↔ j ∉ s.hist.marked) := by
    intro j hj hj'
    rw [h.markedIn j hj hj']
    rcases hw.occ j hj hj' with hs | hs <;> rw [hs] <;> simp
  have hold : ∀ j < k, j < s.hist.accepted.length → j ∈ s.hist.marked := by
    intro j hj hj'
    rcases Nat.lt_or_ge j s.hist.cleaned with hc | hc
    · exact h.markedOld j hc
    · by_contra hm
      exact hno j hc hj ((hused j hc hj').2 hm)
  have hsum : s.hist.accepted.length - k + (N - (s.hist.accepted.length - k)) = N := by omega
  have hwalk := walk_window hw.size h.pos (N - (s.hist.accepted.length - k)) (s.hist.accepted.length - k) k
    (fun j hj hj' => hw.occ j (by omega) (by omega))
  have hrest : s.ring.walk (N - (s.hist.accepted.length - k)) ((k + (s.hist.accepted.length - k)) % N) = [] := by
    refine walk_none hw.size _ _ (Nat.mod_lt _ h.pos) (fun j hj => ?_)
    rw [Nat.mod_add_mod]
    by_cases hfree : k + (s.hist.accepted.length - k) + j < s.hist.cleaned + N
    · rw [hw.free _ (by omega) hfree]; simp
    · have hlap : k + (s.hist.accepted.length - k) + j = (k + (s.hist.accepted.length - k) + j - N) + N := by omega
      rw [hlap, Nat.add_mod_right]
      exact hno _ (by omega) (by omega)
  rw [hsum, hrest, List.append_nil] at hwalk
  rw [hwalk, s.hist.unmarked_eq_range' k hold]
  refine congrArg _ (List.filter_congr (fun j hj => ?_))
  have hmem := List.mem_range'_1.1 hj
  simp only [hused j (by omega) (by omega)]

/-- **A ring just reopened**: the walk of one lap from `consume_idx`, and what the next `Take` does. -/
structure Reopened (N : Nat) (s : St α) (r' : RingBuffer α) : Prop where
  slots : r'.slots = s.ring.slots
  meets : ∀ i, r'.statusAt i = some .init → i ∈ r'.walk N (wrap N r'.consumeIdx)
  order : (r'.walk N (wrap N r'.consumeIdx)).map s.hist.owner = s.hist.unmarked
  handed : ∀ cb max, CallsOrKeeps cb → max < 0 →
    handed cb max N 0 r' = s.hist.unmarked.map (fun k => s.hist.accepted[k]?)
  taken : ∀ cb max fuel t, CallsOrKeeps cb → max < 0 → take cb max fuel r' = .ok t →
    s.hist.unmarked.map (fun k => s.hist.accepted[k]?) <+: t.items

theorem RingInv.reopened {s : St α} (h : RingInv N s) (hidle : s.prod = .idle) {fuel : Nat} {r' : RingBuffer α}
    (ho : openReadLoop fuel s.ring.cleanedIdx s.ring = .ok r') : Reopened N s r' := by
  have hw := h.window
  have hcl := h.cleanedPhase
  have hlt := h.cleanedLt
  rw [hidle] at hw hcl hlt
  have hc : s.ring.cleanedIdx = s.hist.cleaned % N := hcl.eq_mod (hlt rfl)
  have hle := hw.le
  rw [hc] at ho
  obtain ⟨k', hk', hno, hslots, hwrap⟩ := openReadLoop_spec hw.size h.consumeLe h.pos fuel s.hist.cleaned r'
    (Nat.le_refl _) (fun j hj hj' => by omega) ho
  obtain ⟨k, hk, hkN, hmod⟩ := Cyclic.exists_window s.hist.cleaned (Nat.mod_lt k' h.pos)
  have hnok : ∀ j, s.hist.cleaned ≤ j → j < k → s.ring.statusAt (j % N) ≠ some .init := by
    intro j hj hjk
    rcases Nat.lt_or_ge j k' with hlt | hge
    · exact hno j hj hlt
    · rcases Nat.lt_or_ge k' (s.hist.cleaned + N) with hin | hout
      · have := Cyclic.window_inj hk hkN hk' hin hmod
        omega
      · exact hno j hj (by omega)
  have hsize : r'.size = N := by unfold RingBuffer.size; rw [hslots]; exact hw.size
  have hwalk' : ∀ n i, r'.walk n i = s.ring.walk n i := by
    intro n
    induction n with
    | zero => intro i; rfl
    | succ n ih =>
      intro i
      unfold walk
      rw [statusAt_congr hslots, hsize, hw.size]
      simp only [ih]
  have hwalk := h.walk_eq hidle hk hkN hnok
  rw [hmod, ← hwrap, ← hwalk'] at hwalk
  have hunm : ∀ j ∈ s.hist.unmarked, s.hist.cleaned ≤ j ∧ j < s.hist.accepted.length := by
    intro j hj
    obtain ⟨hr, hm⟩ := List.mem_filter.1 hj
    have hm := of_decide_eq_true hm
    refine ⟨?_, List.mem_range.1 hr⟩
    by_contra hlt
    exact hm (h.markedOld j (by omega))
  have hgets : (r'.walk N (wrap N r'.consumeIdx)).map r'.get = s.hist.unmarked.map (fun k => s.hist.accepted[k]?) := by
    rw [hwalk, List.map_map]
    refine List.map_congr_left (fun j hj => ?_)
    obtain ⟨hj, hj'⟩ := hunm j hj
    show r'.get (j % N) = _
    rw [← hw.get_eq hj hj']
    unfold RingBuffer.get
    rw [valAt_congr hslots]
  have hhanded : ∀ cb max, CallsOrKeeps cb → max < 0 →
      RingBuffer.handed cb max N 0 r' = s.hist.unmarked.map (fun k => s.hist.accepted[k]?) := by
    intro cb max hcb hmax
    rw [handed_eq_walk hcb hmax hsize N 0 _ r' (Nat.le_refl N) hsize (wrap_lt h.pos _) rfl (fun _ _ => rfl)
      (fun _ => rfl), hgets]
  refine ⟨hslots, fun i hi => ?_, ?_, hhanded, fun cb max fuel t hcb hmax ht => ?_⟩
  · rw [statusAt_congr hslots] at hi
    obtain ⟨j, hj, hj', rfl⟩ := hw.exists_count hi (by simp)
    rw [hwalk]
    refine List.mem_map.2 ⟨j, List.mem_filter.2 ⟨List.mem_range.2 hj', ?_⟩, rfl⟩
    rw [decide_eq_true_eq, h.markedIn j hj hj', hi]
    simp
  · rw [hwalk, List.map_map]
    refine (List.map_congr_left (fun j hj => ?_)).trans (List.map_id _)
    obtain ⟨hj, hj'⟩ := hunm j hj
    exact h.owner j hj hj'
  · rw [← hhanded cb max hcb hmax, ← handed_of_takeLoop fuel (fuel + N) 0 r' t (by omega) ht]
    exact handed_mono N (fuel + N) 0 r' (by omega)

/-- **Reader restart skips nothing that is not done**: in every state between two calls of `Offer`, wherever the old
reader stopped, a reader whose `OpenRead` returns starts at the oldest item that is not marked done. -/
theorem restart_skips_nothing (N : Nat) (hN : 0 < N) (s : St α) (h : Reach step Machine.anyStep (St.start α N) s)
    (hidle : s.prod = .idle) (fuel : Nat) (r' : RingBuffer α) (ho : openRead fuel (some s.ring) = .ok (0, some r')) :
    Reopened N s r' := by
  unfold openRead at ho
  dsimp only at ho
  split at ho
  · cases ho
  · rename_i r₁ hr₁
    cases ho
    exact (ringInv_reach hN h).reopened hidle hr₁

/-- A full ring of three, both first items delivered and only the second one done. -/
def crashed : List (Act Nat) :=
  offering 7 8 ++ offering 8 8 ++ offering 9 8 ++ reading 14 ++ [.doneTest 1, .doneStore]

theorem restart_skips_nothing_three : ∃ s r', Machine.exec step Machine.anyStep (St.start Nat 3) crashed = some s ∧
    openRead 9 (some s.ring) = .ok (0, some r') ∧ s.hist.unmarked = [0, 2] ∧ Reopened 3 s r' :=
  ⟨_, _, rfl, rfl, rfl, restart_skips_nothing 3 (by decide) _ (Machine.reach_of_exec _ _ crashed _ rfl) rfl 9 _ rfl⟩

end Shm
