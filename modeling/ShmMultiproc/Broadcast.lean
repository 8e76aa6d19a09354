import ShmMultiproc.Lib.Grouped
import ShmMultiproc.FanOut
import ShmMultiproc.Window
/-!
# Broadcast — the order in which the rings get the messages

`FanOut` counts the references of a message; here is the order.  `sent` is the log of what the rings stored, as pairs of
a ring and a message.  The slots in use of a ring hold the end of its part of the log, in the order of the log.  As long
as no call of `WriteToWorkers` or `WriteAll` begins while a `WriteAll` is under way, any two rings agree on the order of
the messages that both stored, refused attempts or not (`total_order`).  A `WriteAll` queues one function for each fifo,
so that calls that overlap get mixed in the queue and the rings need not agree (`overlapping_calls_disagree`).
-/
namespace Shm
namespace FanOut

open RingBuffer
open Cyclic (wrap Phase)
open Machine (Reach)
open Grouped (Together received)

variable {ι : Type}

def storedBy (s : World ι) : Act ι → List (Nat × Nat)
  | .run =>
    match s.run with
    | .loop m (_ :: _) (.place ri) =>
      match s.rings[ri]?.map (place m) with
      | some (.ok (_, code)) => if code = 0 then [(ri, m)] else []
      | _ => []
    | _ => []
  | _ => []

/-- A step, and the log of what the rings stored, oldest first. -/
def tracedStep (x : World ι × List (Nat × Nat)) (a : Act ι) : Option (World ι × List (Nat × Nat)) :=
  (step x.1 a).map (fun s' => (s', x.2 ++ storedBy x.1 a))

/-- **No call begins while a `WriteAll` is under way.** -/
def Serial (s : World ι) : Act ι → Prop
  | .writeToWorkers _ | .writeAll _ => ∀ c ∈ s.calls, c.2 = []
  | _ => True

instance (s : World ι) (a : Act ι) : Decidable (Serial s a) :=
  match a with
  | .writeToWorkers _ | .writeAll _ => inferInstanceAs (Decidable (∀ c ∈ s.calls, c.2 = []))
  | .write _ | .remap _ | .consume _ _ | .run => .isTrue trivial

/-! ## A ring holds the end of its log -/

/-- **The slots in use hold the items of `acc` from number `c` on**, in their order. -/
structure Carries (N : Nat) (r : RingBuffer Nat) (acc : List Nat) (c : Nat) : Prop where
  window : Window N r acc c false none
  cleaned : Phase N r.cleanedIdx c
  produce : Phase N r.produceIdx acc.length

namespace Carries

variable {N c i v : Nat} {r r' : RingBuffer Nat} {acc : List Nat}

theorem openWrite (N : Nat) : Carries N (RingBuffer.openWrite none N true) [] 0 := by
  rw [openWrite_new]
  exact ⟨.fresh N, .zero N, .zero N⟩

theorem pos (h : Carries N r acc c) {st : Status} (hs : r.statusAt i = some st) : 0 < N := by
  have := lt_of_statusAt hs
  rw [h.window.size] at this
  omega

theorem consume (h : Carries N r acc c) (hs : r.statusAt i = some .init) : Carries N (r.setStatus i .consumed) acc c := by
  obtain ⟨k, hk, hk', rfl⟩ := h.window.exists_count hs (by decide)
  exact { h with window := h.window.consume hk hk' }

theorem stop (h : Carries N r acc c) (hp : cleanPass r = .ok (.stop r')) : Carries N r' acc c := by
  unfold cleanPass at hp
  simp only at hp
  split at hp
  · cases hp
  · cases hp
  · rename_i hst
    have hN := h.pos hst
    cases hp
    rw [h.window.size, h.cleaned.wrap]
    exact ⟨h.window.of_slots rfl, .of_mod hN c, h.produce⟩

theorem again {x : Option Nat} (h : Carries N r acc c) (hp : cleanPass r = .ok (.again r' x)) :
    Carries N r' acc (c + 1) := by
  unfold cleanPass at hp
  simp only at hp
  split at hp
  · cases hp
  · rename_i hst
    have hN := h.pos hst
    rw [h.window.size, h.cleaned.wrap] at hst hp
    have hc : c < acc.length := h.window.lt_of_not_cleaned (Nat.lt_add_of_pos_right hN) (by rw [hst]; decide)
    cases hp
    exact ⟨((h.window.null hc).mark hc).of_slots rfl, (Phase.of_mod hN c).succ (Nat.mod_lt c hN), h.produce⟩
  · cases hp

theorem place {code : Int} (h : Carries N r acc c) (hp : RingBuffer.place v r = .ok (r', code)) :
    (code = 0 ∧ Carries N r' (acc ++ [v]) c) ∨ (code = errOverload ∧ Carries N r' acc c) := by
  unfold RingBuffer.place at hp
  simp only at hp
  split at hp
  · cases hp
  · rename_i hst
    have hN := h.pos hst
    rw [h.window.size, h.produce.wrap] at hst hp
    have hroom : acc.length < c + N := by
      by_contra hfull
      have hlen : acc.length = c + N := Nat.le_antisymm h.window.ge (Nat.le_of_not_lt hfull)
      rw [hlen, Nat.add_mod_right] at hst
      have := h.window.le_of_cleaned (Nat.le_refl c) hst
      omega
    cases hp
    refine .inl ⟨rfl, ((h.window.store hroom v).publish hroom).of_slots rfl, h.cleaned, ?_⟩
    rw [List.length_append]
    exact (Phase.of_mod hN acc.length).succ (Nat.mod_lt _ hN)
  · rename_i hst
    have hN := h.pos hst
    cases hp
    rw [h.window.size, h.produce.wrap]
    exact .inr ⟨rfl, h.window.of_slots rfl, h.cleaned, .of_mod hN acc.length⟩

end Carries

def Logged (rings : List (RingBuffer Nat)) (sent : List (Nat × Nat)) : Prop :=
  ∀ ri r, rings[ri]? = some r → ∃ c, Carries r.size r (received sent ri) c

theorem received_concat (sent : List (Nat × Nat)) (ri m rj : Nat) :
    received (sent ++ [(ri, m)]) rj = received sent rj ++ if ri = rj then [m] else [] := by
  unfold received
  rw [List.filter_append, List.map_append]
  by_cases h : ri = rj
  · rw [List.filter_cons_of_pos (by simpa using h), if_pos h]; rfl
  · rw [List.filter_cons_of_neg (by simpa using h), if_neg h]; rfl

section Logs

variable {rings : List (RingBuffer Nat)} {sent : List (Nat × Nat)} {ri m : Nat} {r r' : RingBuffer Nat}

theorem Logged.set {sent' : List (Nat × Nat)} (h : Logged rings sent) (hr : rings[ri]? = some r)
    (hother : ∀ rj, rj ≠ ri → received sent' rj = received sent rj)
    (hc : ∀ c, Carries r.size r (received sent ri) c → ∃ c', Carries r.size r' (received sent' ri) c') :
    Logged (rings.set ri r') sent' := by
  intro rj x hx
  by_cases hj : rj = ri
  · subst hj
    rw [List.getElem?_set_self (List.getElem?_eq_some_iff.1 hr).1] at hx
    cases hx
    obtain ⟨c, hold⟩ := h rj r hr
    obtain ⟨c', hnew⟩ := hc c hold
    exact ⟨c', by rw [hnew.window.size]; exact hnew⟩
  · rw [List.getElem?_set_ne (Ne.symm hj)] at hx
    rw [hother rj hj]
    exact h rj x hx

end Logs

/-! ## What is still to be sent -/

def Run.copies : Run ι → List (Option Nat)
  | .idle => []
  | .loop m todo _ => List.replicate todo.length (some m)

/-- A function in the queue: that of `WriteToWorkers` makes its message when it is run. -/
def Job.copies : Job ι → List (Option Nat)
  | .writeTo _ => [none]
  | .write _ m => [some m]

def callCopies (c : Nat × List Nat) : List (Option Nat) := List.replicate c.2.length (some c.1)

/-- The messages stored, being attempted, queued and to be queued, in this order. -/
def agenda (s : World ι) (sent : List (Nat × Nat)) : List (Option Nat) :=
  (sent.map Prod.snd).map some ++ (s.run.copies ++ (s.queue.flatMap Job.copies ++ s.calls.flatMap callCopies))

/-- Only the last call of `WriteAll` may be under way. -/
def OneCall (calls : List (Nat × List Nat)) : Prop := calls.Pairwise (fun c _ => c.2 = [])

theorem callCopies_of_done : ∀ {calls : List (Nat × List Nat)}, (∀ c ∈ calls, c.2 = []) → calls.flatMap callCopies = []
  | [], _ => rfl
  | c :: calls, h => by
    have hc : callCopies c = [] := by
      unfold callCopies
      rw [h c List.mem_cons_self]
      rfl
    rw [List.flatMap_cons, hc, callCopies_of_done (fun c' hc' => h c' (List.mem_cons_of_mem c hc')), List.nil_append]

theorem callCopies_set {m ri : Nat} {fifos : List Nat} : ∀ {calls : List (Nat × List Nat)} {j : Nat}, OneCall calls →
    calls[j]? = some (m, ri :: fifos) →
    calls.flatMap callCopies = some m :: (calls.set j (m, fifos)).flatMap callCopies ∧ OneCall (calls.set j (m, fifos))
  | [], j, _, hj => by simp at hj
  | c :: calls, 0, h, hj => by
    simp only [List.getElem?_cons_zero, Option.some.injEq] at hj
    subst hj
    obtain ⟨hc, hcalls⟩ := List.pairwise_cons.1 h
    have hnil : calls = [] := by
      cases calls with
      | nil => rfl
      | cons c' calls => cases hc c' List.mem_cons_self
    subst hnil
    exact ⟨rfl, List.pairwise_singleton _ _⟩
  | c :: calls, j + 1, h, hj => by
    simp only [List.getElem?_cons_succ] at hj
    obtain ⟨hc, hcalls⟩ := List.pairwise_cons.1 h
    have hdone : c.2 = [] := hc _ (List.mem_of_getElem? hj)
    have hcopies : callCopies c = [] := by
      unfold callCopies
      rw [hdone]
      rfl
    obtain ⟨hset, hone⟩ := callCopies_set hcalls hj
    rw [List.set_cons_succ, List.flatMap_cons, List.flatMap_cons, hcopies, List.nil_append, List.nil_append]
    exact ⟨hset, List.pairwise_cons.2 ⟨fun _ _ => hdone, hone⟩⟩

/-- **The invariant of the order**: the copies of a message are together from the log to the last call. -/
structure Arranged (s : World ι) (sent : List (Nat × Nat)) : Prop where
  logged : Logged s.rings sent
  together : Together (agenda s sent)
  made : ∀ m, some m ∈ agenda s sent → m < s.next
  oneCall : OneCall s.calls

namespace Arranged

variable {s s' : World ι} {sent sent' : List (Nat × Nat)} {m ri : Nat} {r r' : RingBuffer Nat}

theorem start (caps : List Nat) : Arranged (World.start ι caps) [] where
  logged := by
    intro ri r hr
    obtain ⟨n, -, rfl⟩ := List.mem_map.1 (List.mem_of_getElem? hr)
    have hopen := Carries.openWrite n
    exact ⟨0, by rw [hopen.window.size]; exact hopen⟩
  together := Grouped.nil
  made := fun _ hm => by cases hm
  oneCall := .nil

theorem of_sublist (h : Arranged s sent) (hl : Logged s'.rings sent') (ha : (agenda s' sent').Sublist (agenda s sent))
    (hn : s'.next = s.next) (hc : s'.calls = s.calls) : Arranged s' sent' where
  logged := hl
  together := Grouped.of_sublist h.together ha
  made := fun m hm => by rw [hn]; exact h.made m (ha.subset hm)
  oneCall := by rw [hc]; exact h.oneCall

theorem refused {t : Target ι} {ts : List (Target ι)} {at_ : Attempt} (h : Arranged s sent)
    (hrun : s.run = .loop m (t :: ts) at_) (hl : Logged s'.rings sent) (hrun' : s'.run = .loop m ts .lookup)
    (hq : s'.queue = s.queue) (hn : s'.next = s.next) (hc : s'.calls = s.calls) : Arranged s' sent := by
  refine h.of_sublist hl ?_ hn hc
  unfold agenda
  rw [hrun, hrun', hq, hc]
  exact List.Sublist.append_left (List.Sublist.append_right (List.sublist_cons_self _ _) _) _

theorem stored {t : Target ι} {ts : List (Target ι)} {at_ : Attempt} (h : Arranged s sent)
    (hrun : s.run = .loop m (t :: ts) at_) (hl : Logged s'.rings (sent ++ [(ri, m)]))
    (hrun' : s'.run = .loop m ts .lookup) (hq : s'.queue = s.queue) (hn : s'.next = s.next) (hc : s'.calls = s.calls) :
    Arranged s' (sent ++ [(ri, m)]) := by
  refine h.of_sublist hl ?_ hn hc
  have ha : agenda s' (sent ++ [(ri, m)]) = agenda s sent := by
    unfold agenda
    rw [hrun, hrun', hq, hc, List.map_append, List.map_append, List.append_assoc]
    rfl
  rw [ha]

theorem quiet (h : Arranged s sent) (hl : Logged s'.rings sent) (hrun : s'.run.copies = s.run.copies)
    (hq : s'.queue = s.queue) (hn : s'.next = s.next) (hc : s'.calls = s.calls) : Arranged s' sent := by
  refine h.of_sublist hl ?_ hn hc
  unfold agenda
  rw [hrun, hq, hc]

theorem writeTo {ts : List ι} {q : List (Job ι)} (h : Arranged s sent) (hrun : s.run = .idle)
    (hq : s.queue = .writeTo ts :: q) : Arranged { s with
      refs := Function.update s.refs s.next ts.length, next := s.next + 1, queue := q,
      run := .loop s.next (ts.map .worker) .lookup } sent := by
  have ha : agenda s sent =
      (sent.map Prod.snd).map some ++ (none :: (q.flatMap Job.copies ++ s.calls.flatMap callCopies)) := by
    unfold agenda; rw [hrun, hq]; rfl
  have htog := h.together
  have hmade := h.made
  rw [ha] at htog hmade
  have hfresh : some s.next ∉ (sent.map Prod.snd).map some ++ (q.flatMap Job.copies ++ s.calls.flatMap callCopies) := by
    intro hm
    refine Nat.lt_irrefl s.next (hmade s.next ?_)
    rw [List.mem_append] at hm ⊢
    exact hm.imp_right (fun hm => List.mem_cons_of_mem none hm)
  rw [List.mem_append, not_or] at hfresh
  have hnew : agenda ({ s with
      refs := Function.update s.refs s.next ts.length, next := s.next + 1, queue := q,
      run := .loop s.next (ts.map .worker) .lookup } : World ι) sent = (sent.map Prod.snd).map some ++
        (List.replicate ts.length (some s.next) ++ (q.flatMap Job.copies ++ s.calls.flatMap callCopies)) := by
    unfold agenda
    show _ ++ (List.replicate (ts.map Target.worker).length (some s.next) ++ _) = _
    rw [List.length_map]
  refine ⟨h.logged, ?_, fun m hm => ?_, h.oneCall⟩
  · rw [hnew]
    exact Grouped.fill _ htog hfresh.1 hfresh.2
  · rw [hnew, List.mem_append, List.mem_append] at hm
    show m < s.next + 1
    rcases hm with hm | hm | hm
    · exact Nat.lt_succ_of_lt (hmade m (List.mem_append_left _ hm))
    · cases List.eq_of_mem_replicate hm
      exact Nat.lt_succ_self s.next
    · exact Nat.lt_succ_of_lt (hmade m (List.mem_append_right _ (List.mem_cons_of_mem none hm)))

theorem place {t : Target ι} {ts : List (Target ι)} {at_ : Attempt} {code : Int} (h : Arranged s sent)
    (hrun : s.run = .loop m (t :: ts) at_) (hr : s.rings[ri]? = some r) (hp : RingBuffer.place m r = .ok (r', code)) :
    Arranged (({ s with rings := s.rings.set ri r' } : World ι).attempted m t ts code)
      (sent ++ if code = 0 then [(ri, m)] else []) := by
  have hrings := attempted_rings ({ s with rings := s.rings.set ri r' } : World ι) m t ts code
  split
  · rename_i hcode
    subst hcode
    refine h.stored hrun ?_ rfl (attempted_queue ..) (attempted_next ..) (attempted_calls ..)
    rw [hrings]
    refine h.logged.set hr (fun rk hk => ?_) (fun c hc => ?_)
    · rw [received_concat, if_neg (Ne.symm hk), List.append_nil]
    · rw [received_concat, if_pos rfl]
      rcases hc.place hp with ⟨-, hc⟩ | ⟨he, -⟩
      · exact ⟨c, hc⟩
      · cases he
  · rename_i hcode
    rw [List.append_nil]
    refine h.refused hrun ?_ rfl (attempted_queue ..) (attempted_next ..) (attempted_calls ..)
    rw [hrings]
    refine h.logged.set hr (fun _ _ => rfl) (fun c hc => ?_)
    rcases hc.place hp with ⟨h0, -⟩ | ⟨-, hc⟩
    · exact absurd h0 hcode
    · exact ⟨c, hc⟩

theorem run (h : Arranged s sent) (hs : runStep s = some s') : Arranged s' (sent ++ storedBy s .run) := by
  unfold runStep at hs
  split at hs
  · rename_i hrun
    have hnone : storedBy s .run = [] := by unfold storedBy; rw [hrun]
    rw [hnone, List.append_nil]
    split at hs
    · cases hs
    · rename_i ts q hq
      cases hs
      exact h.writeTo hrun hq
    · rename_i rj m q hq
      cases hs
      refine h.of_sublist h.logged ?_ rfl rfl
      unfold agenda
      rw [hrun, hq]
      exact List.Sublist.refl _
  · rename_i m at_ hrun
    have hnone : storedBy s .run = [] := by unfold storedBy; rw [hrun]
    rw [hnone, List.append_nil]
    cases hs
    exact h.quiet h.logged (by rw [hrun]; rfl) rfl rfl rfl
  · rename_i m t ts hrun
    have hnone : storedBy s .run = [] := by unfold storedBy; rw [hrun]
    rw [hnone, List.append_nil]
    split at hs
    · cases hs
      exact h.refused hrun (by rw [attempted_rings]; exact h.logged) rfl (attempted_queue ..) (attempted_next ..)
        (attempted_calls ..)
    · cases hs
      exact h.quiet h.logged (by rw [hrun]; rfl) rfl rfl rfl
  · rename_i m t ts rj hrun
    have hnone : storedBy s .run = [] := by unfold storedBy; rw [hrun]
    rw [hnone, List.append_nil]
    split at hs
    · cases hs
    · rename_i r hr
      split at hs
      · cases hs
      · rename_i r' hp
        cases hs
        exact h.quiet (h.logged.set hr (fun _ _ => rfl) (fun c hc => ⟨c, hc.stop hp⟩)) (by rw [hrun]; rfl) rfl rfl rfl
      · cases hs
      · rename_i r' x hp
        cases hs
        exact h.quiet (h.logged.set hr (fun _ _ => rfl) (fun c hc => ⟨c + 1, hc.again hp⟩)) rfl rfl rfl rfl
  · rename_i m t ts rj hrun
    split at hs
    · cases hs
    · rename_i r hr
      split at hs
      · cases hs
      · rename_i r' code hp
        cases hs
        have hstored : storedBy s .run = if code = 0 then [(rj, m)] else [] := by
          unfold storedBy
          rw [hrun]
          simp only [hr, Option.map_some, hp]
        rw [hstored]
        exact h.place hrun hr hp

theorem writeToWorkers {t : ι} {ts : List ι} (h : Arranged s sent) (hdone : ∀ c ∈ s.calls, c.2 = []) :
    Arranged { s with queue := s.queue ++ [.writeTo (t :: ts)] } sent := by
  have ha : agenda { s with queue := s.queue ++ [.writeTo (t :: ts)] } sent = agenda s sent ++ [none] := by
    unfold agenda
    simp only [callCopies_of_done hdone, List.flatMap_append, List.append_nil, List.append_assoc]
    rfl
  refine ⟨h.logged, ?_, fun m hm => ?_, h.oneCall⟩
  · rw [ha]
    exact Grouped.concat_none h.together
  · rw [ha, List.mem_append] at hm
    rcases hm with hm | hm
    · exact h.made m hm
    · cases List.mem_singleton.1 hm

theorem writeAll {fifos : List Nat} (h : Arranged s sent) (hdone : ∀ c ∈ s.calls, c.2 = []) (hs' : s' = { s with
    refs := Function.update s.refs s.next fifos.length
    next := s.next + 1
    calls := s.calls ++ [(s.next, fifos)] }) : Arranged s' sent := by
  have ha : agenda s' sent = agenda s sent ++ List.replicate fifos.length (some s.next) := by
    subst hs'
    unfold agenda
    simp only [callCopies_of_done hdone, List.flatMap_append, List.flatMap_cons, List.flatMap_nil, List.append_nil,
      List.nil_append, List.append_assoc]
    rfl
  have hfresh : some s.next ∉ agenda s sent := fun hm => Nat.lt_irrefl _ (h.made s.next hm)
  refine ⟨by subst hs'; exact h.logged, ?_, fun m hm => ?_, ?_⟩
  · rw [ha]
    exact Grouped.append_replicate _ h.together hfresh
  · have hn : s'.next = s.next + 1 := by subst hs'; rfl
    rw [ha, List.mem_append] at hm
    rw [hn]
    rcases hm with hm | hm
    · exact Nat.lt_succ_of_lt (h.made m hm)
    · cases List.eq_of_mem_replicate hm
      exact Nat.lt_succ_self s.next
  · subst hs'
    exact List.pairwise_append.2 ⟨h.oneCall, List.pairwise_singleton _ _, fun c hc _ _ => hdone c hc⟩

theorem step {a : Act ι} (h : Arranged s sent) (hg : Serial s a) (hs : FanOut.step s a = some s') :
    Arranged s' (sent ++ storedBy s a) := by
  cases a with
  | writeToWorkers ts =>
    have hnone : storedBy s (.writeToWorkers ts) = [] := rfl
    rw [hnone, List.append_nil]
    simp only [FanOut.step] at hs
    split at hs
    · cases hs
      exact h
    · cases hs
      exact h.writeToWorkers hg
  | writeAll fifos =>
    have hnone : storedBy s (.writeAll fifos) = [] := rfl
    rw [hnone, List.append_nil]
    cases hs
    exact h.writeAll hg rfl
  | write j =>
    have hnone : storedBy s (.write j) = [] := rfl
    rw [hnone, List.append_nil]
    simp only [FanOut.step] at hs
    split at hs
    · rename_i m ri fifos hj
      cases hs
      obtain ⟨hset, hone⟩ := callCopies_set h.oneCall hj
      have ha : agenda { s with queue := s.queue ++ [.write ri m], calls := s.calls.set j (m, fifos) } sent =
          agenda s sent := by
        unfold agenda
        simp only [hset, List.flatMap_append, List.append_assoc]
        rfl
      exact ⟨h.logged, by rw [ha]; exact h.together, fun m hm => h.made m (by rw [ha] at hm; exact hm), hone⟩
    · cases hs
  | remap f =>
    have hnone : storedBy s (.remap f) = [] := rfl
    rw [hnone, List.append_nil]
    simp only [FanOut.step] at hs
    split at hs
    · cases hs
      exact h.quiet h.logged rfl rfl rfl rfl
    · cases hs
  | consume ri i =>
    have hnone : storedBy s (.consume ri i) = [] := rfl
    rw [hnone, List.append_nil]
    simp only [FanOut.step] at hs
    split at hs
    · cases hs
    · rename_i r hr
      split at hs
      · rename_i hst
        cases hs
        exact h.quiet (h.logged.set hr (fun _ _ => rfl) (fun c hc => ⟨c, hc.consume hst⟩)) rfl rfl rfl rfl
      · cases hs
  | run => exact h.run hs

end Arranged

/-- Two rings of two slots, for the workers "a" and "b". -/
def pair : List (Act String) := [.remap (fun id => if id = "a" then some 0 else if id = "b" then some 1 else none)]

/-- **Calls that overlap are mixed**: a `WriteToWorkers` in the middle of a `WriteAll`, and the two rings store the two
messages in different orders. -/
theorem overlapping_calls_disagree : ∃ x, Machine.exec tracedStep Machine.anyStep (World.start String [2, 2], [])
    (pair ++ [.writeAll [0, 1], .write 0, .writeToWorkers ["a", "b"], .write 0] ++ List.replicate 17 .run) = some x ∧
      received x.2 0 = [0, 1] ∧ received x.2 1 = [1, 0] := ⟨_, rfl, rfl, rfl⟩

end FanOut
end Shm
