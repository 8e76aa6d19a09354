import Mathlib.Logic.Function.Basic
import ShmMultiproc.Lib.Machine
import ShmMultiproc.Fifo
/-!
# FanOut — one message in several rings

`Master::WriteToWorkers` and `ShmFIFOPoller::WriteAll` offer one reference-counted message to several rings; its count
goes down in a refused attempt and in the clean loop of any later `Offer`.  In every state the count of a message is the
number of slots that hold it plus the number of its targets not yet attempted, and it is deleted at the step that makes
the count zero (`refcount_conserved`).

`DecRef` decrements the count and returns it; `Delete` frees the message.  A message is a number, a ring holds such
numbers, `ι` is the type of worker ids.
-/
namespace Shm
namespace FanOut

open RingBuffer (CleanPass cleanPass place errOverload size_setStatus size_setVal)
open Cyclic (wrap)
open Machine (Reach)

variable {ι : Type}

/-- Where an attempt goes: to the writer of a worker, or to a fifo itself. -/
inductive Target (ι : Type) where
  | worker (id : ι)
  | fifo (ring : Nat)
  deriving DecidableEq, Repr

/-- A function in the wake queue: the `write_func` of `WriteToWorkers`, or that of `ShmFIFOPoller::Write`. -/
inductive Job (ι : Type) where
  | writeTo (targets : List ι)
  | write (ring : Nat) (msg : Nat)
  deriving DecidableEq, Repr

/-- Where an attempt stands: before the lookup, in the clean loop of `Offer`, or after it. -/
inductive Attempt where
  | lookup
  | clean (ring : Nat)
  | place (ring : Nat)
  deriving DecidableEq, Repr

/-- The function being run: `todo` starts with the target being attempted. -/
inductive Run (ι : Type) where
  | idle
  | loop (msg : Nat) (todo : List (Target ι)) (at_ : Attempt)
  deriving DecidableEq, Repr

/-- `calls` are the calls of `WriteAll` so far: the message, and the fifos that it has still to call `Write` for. -/
structure World (ι : Type) where
  rings : List (RingBuffer Nat)
  lookup : ι → Option Nat
  refs : Nat → Nat
  next : Nat
  deleted : List Nat
  calls : List (Nat × List Nat)
  queue : List (Job ι)
  run : Run ι
  callbacks : List (ι × Nat × Int)

namespace World

def start (ι : Type) (caps : List Nat) : World ι :=
  ⟨caps.map (fun n => RingBuffer.openWrite none n true), fun _ => none, fun _ => 0, 0, [], [], [], .idle, []⟩

/-- `if (0 == ref->DecRef()) Delete(ref)`. -/
def decRef (s : World ι) (m : Nat) : World ι :=
  { s with
    refs := Function.update s.refs m (s.refs m - 1)
    deleted := if s.refs m - 1 = 0 then s.deleted ++ [m] else s.deleted }

/-- `GetWorker(id)` and its `writer`; `none` when either is NULL. -/
def writer (s : World ι) : Target ι → Option Nat
  | .worker id => s.lookup id
  | .fifo ri => some ri

/-- `callback(worker, err)`; `Write` has none. -/
def report (s : World ι) (m : Nat) (err : Int) : Target ι → World ι
  | .worker id => { s with callbacks := s.callbacks ++ [(id, m, err)] }
  | .fifo _ => s

/-- The end of an attempt that answered `err`. -/
def attempted (s : World ι) (m : Nat) (t : Target ι) (rest : List (Target ι)) (err : Int) : World ι :=
  let s := if err ≠ 0 then s.decRef m else s
  { s.report m err t with run := .loop m rest .lookup }

end World

/-- `writeAll` enters `WriteAll` with a new message of as many references as fifos, and `write j` is the next `Write` of
call `j`; `remap` is any change of the worker table between two functions; `consume` is what a `done` closure of a
reader does to slot `i`; `run` is the next step of the functions in the wake queue. -/
inductive Act (ι : Type) where
  | writeToWorkers (targets : List ι)
  | writeAll (fifos : List Nat)
  | write (call : Nat)
  | remap (lookup : ι → Option Nat)
  | consume (ring : Nat) (i : Nat)
  | run

/-- One step of the functions in the wake queue. -/
def runStep (s : World ι) : Option (World ι) :=
  match s.run with
  | .idle =>
    match s.queue with
    | [] => none
    | .writeTo ts :: q =>
      some { s with
        refs := Function.update s.refs s.next ts.length
        next := s.next + 1
        queue := q
        run := .loop s.next (ts.map .worker) .lookup }
    | .write ri m :: q => some { s with queue := q, run := .loop m [.fifo ri] .lookup }
  | .loop _ [] _ => some { s with run := .idle }
  | .loop m (t :: ts) .lookup =>
    match s.writer t with
    | none => some (s.attempted m t ts (-1))
    | some ri => some { s with run := .loop m (t :: ts) (.clean ri) }
  | .loop m (t :: ts) (.clean ri) =>
    match s.rings[ri]? with
    | none => none
    | some r =>
      match cleanPass r with
      | .error _ => none
      | .ok (.stop r') => some { s with rings := s.rings.set ri r', run := .loop m (t :: ts) (.place ri) }
      | .ok (.again _ none) => none
      | .ok (.again r' (some x)) => some { s.decRef x with rings := s.rings.set ri r' }
  | .loop m (t :: ts) (.place ri) =>
    match s.rings[ri]? with
    | none => none
    | some r =>
      match place m r with
      | .error _ => none
      | .ok (r', code) => some ({ s with rings := s.rings.set ri r' }.attempted m t ts code)

def step (s : World ι) : Act ι → Option (World ι)
  | .writeToWorkers ts =>
    match ts with
    | [] => some s
    | t :: ts => some { s with queue := s.queue ++ [.writeTo (t :: ts)] }
  | .writeAll fifos =>
    some { s with
      refs := Function.update s.refs s.next fifos.length
      next := s.next + 1
      calls := s.calls ++ [(s.next, fifos)] }
  | .write j =>
    match s.calls[j]? with
    | some (m, ri :: fifos) =>
      some { s with queue := s.queue ++ [.write ri m], calls := s.calls.set j (m, fifos) }
    | _ => none
  | .remap f =>
    match s.run with
    | .idle => some { s with lookup := f }
    | .loop _ _ _ => none
  | .consume ri i =>
    match s.rings[ri]? with
    | none => none
    | some r =>
      match r.statusAt i with
      | some .init => some { s with rings := s.rings.set ri (r.setStatus i .consumed) }
      | _ => none
  | .run => runStep s

/-! ## Counting -/

def countVal (m : Nat) (r : RingBuffer Nat) : Nat := r.slots.countP (fun it => it.val = some m)

def World.holds (s : World ι) (m : Nat) : Nat := (s.rings.map (countVal m)).sum

def World.holdsIn (s : World ι) (ri m : Nat) : Nat := (s.rings[ri]?.map (countVal m)).getD 0

def Run.pending (m : Nat) : Run ι → Nat
  | .idle => 0
  | .loop m' todo _ => if m' = m then todo.length else 0

def queuedWrites (m : Nat) (q : List (Job ι)) : Nat :=
  q.countP (fun j => match j with
    | .write _ m' => decide (m' = m)
    | .writeTo _ => false)

def callsLeft (m : Nat) (calls : List (Nat × List Nat)) : Nat :=
  (calls.map (fun c => if c.1 = m then c.2.length else 0)).sum

/-- **The targets of `m` not yet attempted.** -/
def World.pending (s : World ι) (m : Nat) : Nat := s.run.pending m + queuedWrites m s.queue + callsLeft m s.calls

theorem sum_map_set {β : Type} (f : β → Nat) : ∀ (l : List β) (i : Nat) (x y : β), l[i]? = some x →
    ((l.set i y).map f).sum + f x = (l.map f).sum + f y
  | [], _, _, _, h => by simp at h
  | z :: l, 0, x, y, h => by
    simp only [List.getElem?_cons_zero, Option.some.injEq] at h
    subst h
    simp only [List.set_cons_zero, List.map_cons, List.sum_cons]
    omega
  | z :: l, i + 1, x, y, h => by
    simp only [List.getElem?_cons_succ] at h
    have := sum_map_set f l i x y h
    simp only [List.set_cons_succ, List.map_cons, List.sum_cons]
    omega

theorem queuedWrites_append (m : Nat) (q q' : List (Job ι)) :
    queuedWrites m (q ++ q') = queuedWrites m q + queuedWrites m q' := List.countP_append

theorem callsLeft_append (m m' : Nat) (calls : List (Nat × List Nat)) (fifos : List Nat) :
    callsLeft m (calls ++ [(m', fifos)]) = callsLeft m calls + if m' = m then fifos.length else 0 := by
  unfold callsLeft
  rw [List.map_append, List.sum_append]
  rfl

theorem callsLeft_set {calls : List (Nat × List Nat)} {j ri m' : Nat} {fifos : List Nat}
    (h : calls[j]? = some (m', ri :: fifos)) (m : Nat) :
    callsLeft m (calls.set j (m', fifos)) + (if m' = m then 1 else 0) = callsLeft m calls := by
  have := sum_map_set (fun c : Nat × List Nat => if c.1 = m then c.2.length else 0) calls j _ (m', fifos) h
  unfold callsLeft
  by_cases hm : m' = m
  · simp only [if_pos hm, List.length_cons] at this ⊢
    omega
  · simp only [if_neg hm] at this ⊢
    omega

/-! ## What one pass and one placement do to a ring -/

/-- **A slot holds a message exactly when it is not CLEANED.** -/
def Tidy (r : RingBuffer Nat) : Prop := ∀ it ∈ r.slots, it.status = .cleaned ↔ it.val = none

section Ring

variable {r r' : RingBuffer Nat} {i : Nat}

theorem tidy_openWrite (n : Nat) : Tidy (RingBuffer.openWrite none n true) := by
  rw [RingBuffer.openWrite_new]
  intro it hit
  rw [List.eq_of_mem_replicate hit]
  exact ⟨fun _ => rfl, fun _ => rfl⟩

theorem countVal_openWrite (m n : Nat) : countVal m (RingBuffer.openWrite none n true) = 0 := by
  rw [RingBuffer.openWrite_new]
  refine List.countP_eq_zero.2 (fun it hit => ?_)
  rw [List.eq_of_mem_replicate hit]
  simp [RefItem.new]

theorem countVal_of_slots (h : r'.slots = r.slots) (m : Nat) : countVal m r' = countVal m r := by
  unfold countVal; rw [h]

theorem Tidy.of_slots (ht : Tidy r) (h : r'.slots = r.slots) : Tidy r' := by
  unfold Tidy; rw [h]; exact ht

theorem Tidy.modify (ht : Tidy r) {f : RefItem Nat → RefItem Nat} {it : RefItem Nat} (hi : r.slots[i]? = some it)
    (hf : (f it).status = .cleaned ↔ (f it).val = none) (hs : r'.slots = r.slots.modify i f) : Tidy r' := by
  intro x hx
  rw [hs] at hx
  obtain ⟨j, hj⟩ := List.getElem?_of_mem hx
  rw [List.getElem?_modify] at hj
  cases hget : r.slots[j]? with
  | none => rw [hget] at hj; cases hj
  | some y =>
    rw [hget] at hj
    by_cases hij : i = j
    · subst hij
      rw [hi] at hget
      cases hget
      simp only [↓reduceIte, Option.map_eq_map, Option.map_some, Option.some.injEq] at hj
      subst hj
      exact hf
    · simp only [if_neg hij, Option.map_eq_map, Option.map_some, Option.some.injEq] at hj
      subst hj
      exact ht y (List.mem_of_getElem? hget)

theorem countVal_modify (r' : RingBuffer Nat) {f : RefItem Nat → RefItem Nat} {it : RefItem Nat}
    (hi : r.slots[i]? = some it) (hs : r'.slots = r.slots.modify i f) (m : Nat) :
    countVal m r' + (if it.val = some m then 1 else 0) = countVal m r + (if (f it).val = some m then 1 else 0) := by
  have := RingBuffer.countP_modify (fun it : RefItem Nat => decide (it.val = some m)) f r.slots i it hi
  simp only [decide_eq_true_eq] at this
  unfold countVal
  rw [hs]
  exact this

theorem exists_item {st : Status} (h : r.statusAt i = some st) : ∃ it, r.slots[i]? = some it ∧ it.status = st :=
  Option.map_eq_some_iff.1 h

theorem slots_setVal_setStatus (r : RingBuffer Nat) (i : Nat) (v : Option Nat) (st : Status) :
    ((r.setVal i v).setStatus i st).slots = r.slots.modify i (fun _ => ⟨v, st⟩) := by
  unfold RingBuffer.setStatus RingBuffer.setVal
  rw [List.modify_modify_eq]
  rfl

theorem consume_count (h : r.statusAt i = some .init) (ht : Tidy r) :
    Tidy (r.setStatus i .consumed) ∧ ∀ m, countVal m (r.setStatus i .consumed) = countVal m r := by
  obtain ⟨it, hit, hst⟩ := exists_item h
  have hval := ht it (List.mem_of_getElem? hit)
  refine ⟨ht.modify hit ?_ rfl, fun m => ?_⟩
  · rw [hst] at hval
    simpa using hval
  · have := countVal_modify (r.setStatus i .consumed) hit rfl m
    simpa using this

theorem cleanPass_stop_slots (h : cleanPass r = .ok (.stop r')) : r'.slots = r.slots := by
  unfold cleanPass at h
  simp only at h
  split at h
  · cases h
  · cases h
  · cases h; rfl

theorem cleanPass_again_count {x : Option Nat} (h : cleanPass r = .ok (.again r' x)) (ht : Tidy r) :
    ∃ v, x = some v ∧ Tidy r' ∧ ∀ m, countVal m r' + (if v = m then 1 else 0) = countVal m r := by
  unfold cleanPass at h
  simp only at h
  split at h
  · cases h
  · rename_i hst
    cases h
    obtain ⟨it, hit, hs⟩ := exists_item hst
    have hval := ht it (List.mem_of_getElem? hit)
    rw [hs] at hval
    obtain ⟨v, hv⟩ := Option.ne_none_iff_exists'.1 (fun hn => by simpa using hval.2 hn)
    have hslots := slots_setVal_setStatus r (wrap r.size r.cleanedIdx) none .cleaned
    refine ⟨v, ?_, ht.modify hit ⟨fun _ => rfl, fun _ => rfl⟩ hslots, fun m => ?_⟩
    · unfold RingBuffer.get RingBuffer.valAt
      rw [hit]
      exact hv
    · have := countVal_modify ({ (r.setVal (wrap r.size r.cleanedIdx) none).setStatus
        (wrap r.size r.cleanedIdx) .cleaned with cleanedIdx := wrap r.size r.cleanedIdx + 1 }) hit hslots m
      simpa [hv] using this
  · cases h

theorem place_count {v : Nat} {code : Int} (h : place v r = .ok (r', code)) (ht : Tidy r) :
    Tidy r' ∧ ((code = 0 ∧ ∀ m, countVal m r' = countVal m r + if v = m then 1 else 0) ∨
      (code = errOverload ∧ ∀ m, countVal m r' = countVal m r)) := by
  unfold place at h
  simp only at h
  split at h
  · cases h
  · rename_i hst
    cases h
    obtain ⟨it, hit, hs⟩ := exists_item hst
    have hval := (ht it (List.mem_of_getElem? hit)).1 hs
    have hslots := slots_setVal_setStatus r (wrap r.size r.produceIdx) (some v) .init
    refine ⟨ht.modify hit (by simp) hslots, .inl ⟨rfl, fun m => ?_⟩⟩
    have := countVal_modify ({ (r.setVal (wrap r.size r.produceIdx) (some v)).setStatus
      (wrap r.size r.produceIdx) .init with produceIdx := wrap r.size r.produceIdx + 1 }) hit hslots m
    simpa [hval] using this
  · cases h
    exact ⟨ht.of_slots rfl, .inr ⟨rfl, fun m => rfl⟩⟩

end Ring

/-! ## What a step does -/

section Effect

variable {s s' : World ι} {ri : Nat} {r r' : RingBuffer Nat}

theorem holds_of_rings (h : s'.rings = s.rings) (m : Nat) : s'.holds m = s.holds m := by unfold World.holds; rw [h]

theorem holds_of_set (s' : World ι) (h : s'.rings = s.rings.set ri r') (hr : s.rings[ri]? = some r) (m : Nat) :
    s'.holds m + countVal m r = s.holds m + countVal m r' := by
  unfold World.holds
  rw [h]
  exact sum_map_set (countVal m) s.rings ri r r' hr

theorem holdsIn_of_rings (h : s'.rings = s.rings) (rj m : Nat) : s'.holdsIn rj m = s.holdsIn rj m := by
  unfold World.holdsIn; rw [h]

theorem holdsIn_of_set (h : s'.rings = s.rings.set ri r') (hr : s.rings[ri]? = some r) (m : Nat) :
    s.holdsIn ri m = countVal m r ∧ s'.holdsIn ri m = countVal m r' ∧
      ∀ rj, rj ≠ ri → s'.holdsIn rj m = s.holdsIn rj m := by
  have hlt : ri < s.rings.length := (List.getElem?_eq_some_iff.1 hr).1
  unfold World.holdsIn
  refine ⟨by rw [hr]; rfl, by rw [h, List.getElem?_set_self hlt]; rfl, fun rj hj => ?_⟩
  rw [h, List.getElem?_set_ne (Ne.symm hj)]

theorem tidy_of_set {rings : List (RingBuffer Nat)} (ht : ∀ r ∈ rings, Tidy r) (hr' : Tidy r') :
    ∀ r ∈ rings.set ri r', Tidy r := by
  intro x hx
  rcases List.mem_or_eq_of_mem_set hx with hx | rfl
  · exact ht x hx
  · exact hr'

section Attempted

variable (s) (m : Nat) (t : Target ι) (ts : List (Target ι)) (err : Int)

theorem attempted_rings : (s.attempted m t ts err).rings = s.rings := by
  unfold World.attempted; cases t <;> simp only [World.report] <;> split <;> rfl

theorem attempted_next : (s.attempted m t ts err).next = s.next := by
  unfold World.attempted; cases t <;> simp only [World.report] <;> split <;> rfl

theorem attempted_queue : (s.attempted m t ts err).queue = s.queue := by
  unfold World.attempted; cases t <;> simp only [World.report] <;> split <;> rfl

theorem attempted_calls : (s.attempted m t ts err).calls = s.calls := by
  unfold World.attempted; cases t <;> simp only [World.report] <;> split <;> rfl

theorem attempted_callbacks : (s.attempted m t ts err).callbacks = (s.report m err t).callbacks := by
  unfold World.attempted; cases t <;> simp only [World.report] <;> split <;> rfl

variable {err}

theorem attempted_refused (h : err ≠ 0) : (s.attempted m t ts err).refs = (s.decRef m).refs ∧
    (s.attempted m t ts err).deleted = (s.decRef m).deleted := by
  have he : s.attempted m t ts err = { (s.decRef m).report m err t with run := .loop m ts .lookup } := by
    unfold World.attempted; rw [if_pos h]
  rw [he]
  cases t <;> exact ⟨rfl, rfl⟩

theorem attempted_stored : (s.attempted m t ts 0).refs = s.refs ∧ (s.attempted m t ts 0).deleted = s.deleted := by
  unfold World.attempted; cases t <;> simp [World.report]

end Attempted

/-- **The effects of a step** on the counts: none, a new message, a slot reclaimed, a target that stored the message, a
target that did not. -/
inductive Effect (s s' : World ι) : Prop
  | quiet (hrefs : s'.refs = s.refs) (hdel : s'.deleted = s.deleted) (hnext : s'.next = s.next)
      (hcb : s'.callbacks = s.callbacks) (hholds : ∀ k, s'.holds k = s.holds k)
      (hpend : ∀ k, s'.pending k = s.pending k)
  | create (n : Nat) (hrefs : s'.refs = Function.update s.refs s.next n) (hdel : s'.deleted = s.deleted)
      (hnext : s'.next = s.next + 1) (hcb : s'.callbacks = s.callbacks) (hholds : ∀ k, s'.holds k = s.holds k)
      (hpend : ∀ k, s'.pending k = s.pending k + if s.next = k then n else 0)
  | reclaimed (x : Nat) (hrefs : s'.refs = (s.decRef x).refs) (hdel : s'.deleted = (s.decRef x).deleted)
      (hnext : s'.next = s.next) (hcb : s'.callbacks = s.callbacks)
      (hholds : ∀ k, s'.holds k + (if x = k then 1 else 0) = s.holds k) (hpend : ∀ k, s'.pending k = s.pending k)
  | stored (m : Nat) (t : Target ι) (ri : Nat) (hrefs : s'.refs = s.refs) (hdel : s'.deleted = s.deleted)
      (hnext : s'.next = s.next) (hcb : s'.callbacks = (s.report m 0 t).callbacks) (hwriter : s.writer t = some ri)
      (hin : s'.holdsIn ri m = s.holdsIn ri m + 1) (hholds : ∀ k, s'.holds k = s.holds k + if m = k then 1 else 0)
      (hpend : ∀ k, s'.pending k + (if m = k then 1 else 0) = s.pending k)
  | refused (m : Nat) (t : Target ι) (err : Int) (herr : err ≠ 0) (hrefs : s'.refs = (s.decRef m).refs)
      (hdel : s'.deleted = (s.decRef m).deleted) (hnext : s'.next = s.next)
      (hcb : s'.callbacks = (s.report m err t).callbacks) (hin : ∀ ri, s'.holdsIn ri m = s.holdsIn ri m)
      (hholds : ∀ k, s'.holds k = s.holds k) (hpend : ∀ k, s'.pending k + (if m = k then 1 else 0) = s.pending k)

theorem pending_attempted (s' : World ι) {m : Nat} {t : Target ι} {ts : List (Target ι)} {at_ : Attempt}
    (hrun : s.run = .loop m (t :: ts) at_) (hrun' : s'.run = .loop m ts .lookup) (hq : s'.queue = s.queue)
    (hc : s'.calls = s.calls) (k : Nat) : s'.pending k + (if m = k then 1 else 0) = s.pending k := by
  unfold World.pending
  rw [hrun, hrun', hq, hc]
  simp only [Run.pending, List.length_cons]
  split <;> omega

theorem pending_of_run {m : Nat} {todo : List (Target ι)} {a b : Attempt} (hrun : s.run = .loop m todo a)
    (hrun' : s'.run = .loop m todo b) (hq : s'.queue = s.queue) (hc : s'.calls = s.calls) (k : Nat) :
    s'.pending k = s.pending k := by
  unfold World.pending
  rw [hrun, hrun', hq, hc]
  rfl

structure Inv (s : World ι) : Prop where
  count : ∀ m, s.refs m = s.holds m + s.pending m
  tidy : ∀ r ∈ s.rings, Tidy r
  zero : ∀ m ∈ s.deleted, s.refs m = 0
  once : s.deleted.Nodup
  fresh : ∀ m, s.next ≤ m → s.refs m = 0 ∧ m ∉ s.deleted
  found : ∀ m t ts ri, s.run = .loop m (t :: ts) (.clean ri) ∨ s.run = .loop m (t :: ts) (.place ri) →
    s.writer t = some ri

/-- What `Effect` does not say. -/
structure Rest (s' : World ι) : Prop where
  tidy : ∀ r ∈ s'.rings, Tidy r
  found : ∀ m t ts ri, s'.run = .loop m (t :: ts) (.clean ri) ∨ s'.run = .loop m (t :: ts) (.place ri) →
    s'.writer t = some ri

theorem effect_unknown {m : Nat} {t : Target ι} {ts : List (Target ι)} (h : Inv s)
    (hrun : s.run = .loop m (t :: ts) .lookup) :
    Effect s (s.attempted m t ts (-1)) ∧ Rest (s.attempted m t ts (-1)) := by
  obtain ⟨hrefs, hdel⟩ := attempted_refused s m t ts (show (-1 : Int) ≠ 0 by decide)
  have hrings := attempted_rings s m t ts (-1)
  refine ⟨?_, by rw [hrings]; exact h.tidy, fun m' t' ts' ri hr => ?_⟩
  · exact .refused m t (-1) (by decide) hrefs hdel (attempted_next ..) (attempted_callbacks ..)
      (fun ri => holdsIn_of_rings hrings ri m) (holds_of_rings hrings)
      (pending_attempted _ hrun rfl (attempted_queue ..) (attempted_calls ..))
  · rcases hr with hr | hr <;> cases hr

theorem effect_again {x : Nat} (h : Inv s) (hr : s.rings[ri]? = some r)
    (hp : cleanPass r = .ok (.again r' (some x))) :
    Effect s { s.decRef x with rings := s.rings.set ri r' } ∧ Rest { s.decRef x with rings := s.rings.set ri r' } := by
  obtain ⟨v, hv, ht', hcount⟩ := cleanPass_again_count hp (h.tidy r (List.mem_of_getElem? hr))
  cases hv
  refine ⟨.reclaimed x rfl rfl rfl rfl (fun k => ?_) (fun k => rfl), tidy_of_set h.tidy ht', h.found⟩
  have := holds_of_set (s := s) { s.decRef x with rings := s.rings.set ri r' } rfl hr k
  have := hcount k
  omega

theorem effect_place {m : Nat} {t : Target ι} {ts : List (Target ι)} {code : Int} (h : Inv s)
    (hrun : s.run = .loop m (t :: ts) (.place ri)) (hr : s.rings[ri]? = some r) (hp : place m r = .ok (r', code)) :
    Effect s (({ s with rings := s.rings.set ri r' } : World ι).attempted m t ts code) ∧
      Rest (({ s with rings := s.rings.set ri r' } : World ι).attempted m t ts code) := by
  obtain ⟨ht', hcase⟩ := place_count hp (h.tidy r (List.mem_of_getElem? hr))
  have hrings : (({ s with rings := s.rings.set ri r' } : World ι).attempted m t ts code).rings = s.rings.set ri r' :=
    attempted_rings ..
  have hholds := holds_of_set _ hrings hr
  have hpend := pending_attempted (({ s with rings := s.rings.set ri r' } : World ι).attempted m t ts code) hrun rfl
    (attempted_queue ..) (attempted_calls ..)
  have hcb := attempted_callbacks ({ s with rings := s.rings.set ri r' } : World ι) m t ts code
  obtain ⟨hin, hin', hother⟩ := holdsIn_of_set (s := s) hrings hr m
  refine ⟨?_, by rw [hrings]; exact tidy_of_set h.tidy ht', fun m' t' ts' ri' hr => ?_⟩
  · rcases hcase with ⟨rfl, hcount⟩ | ⟨rfl, hcount⟩
    · obtain ⟨hrefs, hdel⟩ := attempted_stored ({ s with rings := s.rings.set ri r' } : World ι) m t ts
      refine .stored m t ri hrefs hdel (attempted_next ..) ?_ (h.found m t ts ri (.inr hrun)) ?_ (fun k => ?_) hpend
      · rw [hcb]; cases t <;> rfl
      · rw [hin, hin', hcount m, if_pos rfl]
      · have := hholds k
        have := hcount k
        omega
    · obtain ⟨hrefs, hdel⟩ := attempted_refused ({ s with rings := s.rings.set ri r' } : World ι) m t ts
        (show errOverload ≠ 0 by decide)
      refine .refused m t errOverload (by decide) hrefs hdel (attempted_next ..) ?_ (fun rj => ?_) (fun k => ?_) hpend
      · rw [hcb]; cases t <;> rfl
      · by_cases hj : rj = ri
        · rw [hj, hin, hin', hcount m]
        · exact hother rj hj
      · have := hholds k
        have := hcount k
        omega
  · rcases hr with hr | hr <;> cases hr

theorem effect_run (h : Inv s) (hs : runStep s = some s') : Effect s s' ∧ Rest s' := by
  unfold runStep at hs
  split at hs
  · rename_i hrun
    split at hs
    · cases hs
    · rename_i ts q hq
      cases hs
      refine ⟨.create ts.length rfl rfl rfl rfl (fun _ => rfl) (fun k => ?_), h.tidy, fun m t ts' ri hr => ?_⟩
      · unfold World.pending
        rw [hrun, hq]
        simp only [Run.pending, queuedWrites, List.countP_cons, List.length_map]
        simp
        omega
      · simp at hr
    · rename_i ri m q hq
      cases hs
      refine ⟨.quiet rfl rfl rfl rfl (fun _ => rfl) (fun k => ?_), h.tidy, fun m t ts' ri hr => ?_⟩
      · unfold World.pending
        rw [hrun, hq]
        simp only [Run.pending, queuedWrites, List.countP_cons, List.length_singleton, decide_eq_true_eq]
        omega
      · rcases hr with hr | hr <;> cases hr
  · rename_i m a hrun
    cases hs
    refine ⟨.quiet rfl rfl rfl rfl (fun _ => rfl) (fun k => ?_), h.tidy, fun m t ts' ri hr => ?_⟩
    · unfold World.pending
      rw [hrun]
      simp [Run.pending]
    · rcases hr with hr | hr <;> cases hr
  · rename_i m t ts hrun
    split at hs
    · cases hs
      exact effect_unknown h hrun
    · rename_i ri hw
      cases hs
      refine ⟨.quiet rfl rfl rfl rfl (fun _ => rfl) (pending_of_run hrun rfl rfl rfl), h.tidy,
        fun m' t' ts' ri' hr => ?_⟩
      rcases hr with hr | hr <;> cases hr
      exact hw
  · rename_i m t ts ri hrun
    have hw := h.found m t ts ri (.inl hrun)
    split at hs
    · cases hs
    · rename_i r hr
      have ht := h.tidy r (List.mem_of_getElem? hr)
      split at hs
      · cases hs
      · rename_i r' hp
        cases hs
        have hslots := cleanPass_stop_slots hp
        refine ⟨.quiet rfl rfl rfl rfl (fun k => ?_) (pending_of_run hrun rfl rfl rfl), ?_, fun m' t' ts' ri' hr => ?_⟩
        · have := holds_of_set { s with rings := s.rings.set ri r', run := .loop m (t :: ts) (.place ri) } rfl hr k
          rw [countVal_of_slots hslots] at this
          omega
        · exact tidy_of_set h.tidy (ht.of_slots hslots)
        · rcases hr with hr | hr <;> cases hr
          exact hw
      · cases hs
      · rename_i r' x hp
        cases hs
        exact effect_again h hr hp
  · rename_i m t ts ri hrun
    split at hs
    · cases hs
    · rename_i r hr
      split at hs
      · cases hs
      · rename_i r' code hp
        cases hs
        exact effect_place h hrun hr hp

theorem effect_step (h : Inv s) {a : Act ι} (hs : step s a = some s') : Effect s s' ∧ Rest s' := by
  cases a with
  | writeToWorkers ts =>
    simp only [step] at hs
    split at hs
    · cases hs
      exact ⟨.quiet rfl rfl rfl rfl (fun _ => rfl) (fun _ => rfl), h.tidy, h.found⟩
    · cases hs
      refine ⟨.quiet rfl rfl rfl rfl (fun _ => rfl) (fun k => ?_), h.tidy, h.found⟩
      unfold World.pending
      rw [queuedWrites_append]
      rfl
  | writeAll fifos =>
    cases hs
    refine ⟨.create fifos.length rfl rfl rfl rfl (fun _ => rfl) (fun k => ?_), h.tidy, h.found⟩
    unfold World.pending
    rw [callsLeft_append]
    exact (Nat.add_assoc _ _ _).symm
  | write j =>
    simp only [step] at hs
    split at hs
    · rename_i m ri fifos hj
      cases hs
      refine ⟨.quiet rfl rfl rfl rfl (fun _ => rfl) (fun k => ?_), h.tidy, h.found⟩
      have hleft := callsLeft_set hj k
      have hone : queuedWrites k [(.write ri m : Job ι)] = if m = k then 1 else 0 := by
        simp [queuedWrites, List.countP_cons]
      unfold World.pending
      rw [queuedWrites_append, hone]
      show s.run.pending k + _ + callsLeft k (s.calls.set j (m, fifos)) = _
      omega
    · cases hs
  | remap f =>
    simp only [step] at hs
    split at hs
    · rename_i hrun
      cases hs
      refine ⟨.quiet rfl rfl rfl rfl (fun _ => rfl) (fun _ => rfl), h.tidy, fun m t ts ri hr => ?_⟩
      rw [show ({ s with lookup := f } : World ι).run = .idle from hrun] at hr
      rcases hr with hr | hr <;> cases hr
    · cases hs
  | consume ri i =>
    simp only [step] at hs
    split at hs
    · cases hs
    · rename_i r hr
      split at hs
      · rename_i hst
        cases hs
        obtain ⟨ht', hcount⟩ := consume_count hst (h.tidy r (List.mem_of_getElem? hr))
        refine ⟨.quiet rfl rfl rfl rfl (fun k => ?_) (fun _ => rfl), ?_, h.found⟩
        · have := holds_of_set { s with rings := s.rings.set ri (r.setStatus i .consumed) } rfl hr k
          rw [hcount] at this
          omega
        · exact tidy_of_set h.tidy ht'
      · cases hs
  | run => exact effect_run h hs

/-! ## The count of a message -/

theorem Inv.decRef (h : Inv s) {x : Nat} (hx : s.refs x ≠ 0) :
    (∀ m ∈ (s.decRef x).deleted, (s.decRef x).refs m = 0) ∧ (s.decRef x).deleted.Nodup ∧
      (∀ m, s.next ≤ m → (s.decRef x).refs m = 0 ∧ m ∉ (s.decRef x).deleted) ∧
      (∀ m, (s.decRef x).refs m + (if x = m then 1 else 0) = s.refs m) ∧
      ∀ m, m ∈ (s.decRef x).deleted ↔ m ∈ s.deleted ∨ (m = x ∧ s.refs x = 1) := by
  have hnot : x ∉ s.deleted := fun hm => hx (h.zero x hm)
  have hlt : ¬ s.next ≤ x := fun hle => hx (h.fresh x hle).1
  have hrefs : ∀ m, (s.decRef x).refs m + (if x = m then 1 else 0) = s.refs m := by
    intro m
    simp only [World.decRef, Function.update_apply]
    by_cases hm : m = x
    · subst hm
      rw [if_pos rfl, if_pos rfl]
      omega
    · rw [if_neg hm, if_neg (Ne.symm hm), Nat.add_zero]
  have hdel : ∀ m, m ∈ (s.decRef x).deleted ↔ m ∈ s.deleted ∨ (m = x ∧ s.refs x = 1) := by
    intro m
    simp only [World.decRef]
    by_cases h1 : s.refs x - 1 = 0
    · rw [if_pos h1, List.mem_append, List.mem_singleton]
      have : s.refs x = 1 := by omega
      simp [this]
    · rw [if_neg h1]
      have : s.refs x ≠ 1 := by omega
      simp [this]
  refine ⟨fun m hm => ?_, ?_, fun m hm => ⟨?_, fun hm' => ?_⟩, hrefs, hdel⟩
  · have hr := hrefs m
    rcases (hdel m).1 hm with hm | ⟨rfl, h1⟩
    · rw [h.zero m hm] at hr; omega
    · rw [if_pos rfl] at hr; omega
  · simp only [World.decRef]
    split
    · exact List.nodup_append.2 ⟨h.once, by simp, fun a ha b hb => by
        rw [List.mem_singleton.1 hb]; rintro rfl; exact hnot ha⟩
    · exact h.once
  · have hr := hrefs m
    rw [(h.fresh m hm).1] at hr
    omega
  · rcases (hdel m).1 hm' with hm' | ⟨rfl, -⟩
    · exact (h.fresh m hm).2 hm'
    · exact hlt hm

theorem Inv.of_same (h : Inv s) (hr : Rest s') (hrefs : s'.refs = s.refs) (hdel : s'.deleted = s.deleted)
    (hnext : s'.next = s.next) (hsum : ∀ k, s'.holds k + s'.pending k = s.holds k + s.pending k) : Inv s' := by
  refine ⟨fun m => ?_, hr.tidy, ?_, ?_, ?_, hr.found⟩
  · rw [hrefs, h.count, hsum]
  · rw [hrefs, hdel]; exact h.zero
  · rw [hdel]; exact h.once
  · rw [hrefs, hdel, hnext]; exact h.fresh

theorem Inv.of_release (h : Inv s) (hr : Rest s') {x : Nat} (hrefs : s'.refs = (s.decRef x).refs)
    (hdel : s'.deleted = (s.decRef x).deleted) (hnext : s'.next = s.next)
    (hsum : ∀ k, s'.holds k + s'.pending k + (if x = k then 1 else 0) = s.holds k + s.pending k) :
    s.refs x ≠ 0 ∧ Inv s' := by
  have hx : s.refs x ≠ 0 := by
    have := hsum x
    rw [if_pos rfl] at this
    have := h.count x
    omega
  obtain ⟨hzero, honce, hfresh, hone, -⟩ := h.decRef hx
  refine ⟨hx, fun m => ?_, hr.tidy, ?_, ?_, ?_, hr.found⟩
  · have := h.count m
    have := hsum m
    have := hone m
    rw [hrefs]
    omega
  · rw [hrefs, hdel]; exact hzero
  · rw [hdel]; exact honce
  · rw [hrefs, hdel, hnext]; exact hfresh

theorem Inv.of_create (h : Inv s) (hr : Rest s') {n : Nat} (hrefs : s'.refs = Function.update s.refs s.next n)
    (hdel : s'.deleted = s.deleted) (hnext : s'.next = s.next + 1)
    (hsum : ∀ k, s'.holds k + s'.pending k = s.holds k + s.pending k + if s.next = k then n else 0) : Inv s' := by
  have h0 := h.fresh s.next (Nat.le_refl _)
  refine ⟨fun m => ?_, hr.tidy, fun m hm => ?_, ?_, fun m hm => ?_, hr.found⟩
  · have hc := h.count m
    rw [hrefs, hsum, Function.update_apply]
    by_cases hm : m = s.next
    · subst hm
      rw [if_pos rfl, if_pos rfl]
      omega
    · rw [if_neg hm, if_neg (Ne.symm hm)]; exact hc
  · rw [hdel] at hm
    rw [hrefs, Function.update_of_ne (by rintro rfl; exact h0.2 hm)]
    exact h.zero m hm
  · rw [hdel]; exact h.once
  · rw [hnext] at hm
    rw [hrefs, hdel, Function.update_of_ne (by omega)]
    exact h.fresh m (by omega)

/-- **Every effect keeps the count of every message.** -/
theorem Inv.of_effect (h : Inv s) (he : Effect s s') (hr : Rest s') : Inv s' := by
  cases he with
  | quiet hrefs hdel hnext hcb hholds hpend =>
    exact h.of_same hr hrefs hdel hnext (fun k => by rw [hholds, hpend])
  | create n hrefs hdel hnext hcb hholds hpend =>
    exact h.of_create hr hrefs hdel hnext (fun k => by rw [hholds, hpend]; omega)
  | reclaimed x hrefs hdel hnext hcb hholds hpend =>
    exact (h.of_release hr hrefs hdel hnext (fun k => by have := hholds k; rw [hpend]; omega)).2
  | stored m t ri hrefs hdel hnext hcb hwriter hin hholds hpend =>
    exact h.of_same hr hrefs hdel hnext (fun k => by have := hpend k; rw [hholds]; omega)
  | refused x t err herr hrefs hdel hnext hcb hin hholds hpend =>
    exact (h.of_release hr hrefs hdel hnext (fun k => by have := hpend k; rw [hholds]; omega)).2

theorem Inv.start (caps : List Nat) : Inv (World.start ι caps) := by
  have hholds : ∀ m, (World.start ι caps).holds m = 0 := by
    intro m
    unfold World.holds World.start
    induction caps with
    | nil => rfl
    | cons n caps ih =>
      simp only [List.map_cons, List.sum_cons, countVal_openWrite, Nat.zero_add]
      exact ih
  refine ⟨fun m => ?_, fun r hr => ?_, fun m hm => ?_, List.nodup_nil, fun m _ => ⟨rfl, fun hm => ?_⟩,
    fun m t ts ri hr => ?_⟩
  · rw [hholds]; rfl
  · obtain ⟨n, -, rfl⟩ := List.mem_map.1 hr
    exact tidy_openWrite n
  · cases hm
  · cases hm
  · rcases hr with hr | hr <;> cases hr

theorem Inv.step (h : Inv s) {a : Act ι} (hs : FanOut.step s a = some s') : Inv s' := by
  obtain ⟨he, hr⟩ := effect_step h hs
  exact h.of_effect he hr

end Effect

/-- **The count of each message is exact**, and a deleted message is referred to by nothing. -/
structure Conserved (s : World ι) : Prop where
  count : ∀ m, m ∉ s.deleted → s.refs m = s.holds m + s.pending m
  gone : ∀ m ∈ s.deleted, s.refs m = 0 ∧ s.holds m = 0 ∧ s.pending m = 0
  once : s.deleted.Nodup

/-- **What one step accounts for**: deleted is what reaches zero at this step, and `err` is 0 exactly when the ring of
the target stored the message. -/
structure Accounted (s s' : World ι) : Prop where
  kept : s.deleted <+: s'.deleted
  deletes : ∀ m, (m ∈ s'.deleted ∧ m ∉ s.deleted) ↔ (s.refs m ≠ 0 ∧ s'.refs m = 0)
  reports : ∀ id m err, s'.callbacks = s.callbacks ++ [(id, m, err)] →
    (err = 0 ↔ ∃ ri, s.lookup id = some ri ∧ s'.holdsIn ri m = s.holdsIn ri m + 1)

theorem Inv.conserved {s : World ι} (h : Inv s) : Conserved s where
  count := fun m _ => h.count m
  gone := fun m hm => by
    have h0 := h.zero m hm
    have hc := h.count m
    exact ⟨h0, by omega, by omega⟩
  once := h.once

theorem callbacks_ne {s s' : World ι} (h : s'.callbacks = s.callbacks) (x : ι × Nat × Int) :
    s'.callbacks ≠ s.callbacks ++ [x] := by
  intro he
  have := congrArg List.length (h.symm.trans he)
  rw [List.length_append, List.length_singleton] at this
  omega

theorem Accounted.of_same {s s' : World ι} (hdel : s'.deleted = s.deleted)
    (hzero : ∀ m, s.refs m ≠ 0 → s'.refs m ≠ 0)
    (hreports : ∀ id m err, s'.callbacks = s.callbacks ++ [(id, m, err)] →
      (err = 0 ↔ ∃ ri, s.lookup id = some ri ∧ s'.holdsIn ri m = s.holdsIn ri m + 1)) : Accounted s s' where
  kept := hdel ▸ List.prefix_refl _
  deletes := fun m => by
    rw [hdel]
    exact ⟨fun hm => absurd hm.1 hm.2, fun hm => absurd hm.2 (hzero m hm.1)⟩
  reports := hreports

theorem Accounted.of_release {s s' : World ι} (h : Inv s) {x : Nat} (hx : s.refs x ≠ 0)
    (hrefs : s'.refs = (s.decRef x).refs) (hdel : s'.deleted = (s.decRef x).deleted)
    (hreports : ∀ id m err, s'.callbacks = s.callbacks ++ [(id, m, err)] →
      (err = 0 ↔ ∃ ri, s.lookup id = some ri ∧ s'.holdsIn ri m = s.holdsIn ri m + 1)) : Accounted s s' := by
  obtain ⟨-, -, -, hone, hmem⟩ := h.decRef hx
  refine ⟨?_, fun m => ?_, hreports⟩
  · rw [hdel]
    simp only [World.decRef]
    split
    · exact List.prefix_append _ _
    · exact List.prefix_refl _
  · rw [hdel, hrefs, hmem]
    have hm := hone m
    constructor
    · rintro ⟨hd | ⟨rfl, h1⟩, hnot⟩
      · exact absurd hd hnot
      · rw [if_pos rfl] at hm
        exact ⟨hx, by omega⟩
    · rintro ⟨hne, hz⟩
      have hxm : x = m := by
        by_contra hxm
        rw [if_neg hxm] at hm
        omega
      subst hxm
      rw [if_pos rfl] at hm
      exact ⟨.inr ⟨rfl, by omega⟩, fun hd => hne (h.zero _ hd)⟩

theorem Inv.accounted {s s' : World ι} (h : Inv s) (he : Effect s s') (hr : Rest s') : Accounted s s' := by
  cases he with
  | quiet hrefs hdel hnext hcb hholds hpend =>
    exact .of_same hdel (fun m hm => by rw [hrefs]; exact hm) (fun id m err hc => absurd hc (callbacks_ne hcb _))
  | create n hrefs hdel hnext hcb hholds hpend =>
    refine .of_same hdel (fun m hm => ?_) (fun id m err hc => absurd hc (callbacks_ne hcb _))
    rw [hrefs, Function.update_of_ne]
    · exact hm
    · rintro rfl
      exact hm (h.fresh _ (Nat.le_refl _)).1
  | reclaimed x hrefs hdel hnext hcb hholds hpend =>
    have hx := (h.of_release hr hrefs hdel hnext (fun k => by have := hholds k; rw [hpend]; omega)).1
    exact .of_release h hx hrefs hdel (fun id m err hc => absurd hc (callbacks_ne hcb _))
  | stored m t ri hrefs hdel hnext hcb hwriter hin hholds hpend =>
    refine .of_same hdel (fun m hm => by rw [hrefs]; exact hm) (fun id m' err hc => ?_)
    rw [hcb] at hc
    cases t with
    | fifo rj => exact absurd hc (callbacks_ne rfl _)
    | worker id' =>
      have hlast := List.append_cancel_left hc
      simp only [List.cons.injEq, Prod.mk.injEq, and_true] at hlast
      obtain ⟨rfl, rfl, rfl⟩ := hlast
      exact ⟨fun _ => ⟨ri, hwriter, hin⟩, fun _ => rfl⟩
  | refused x t err herr hrefs hdel hnext hcb hin hholds hpend =>
    have hx := (h.of_release hr hrefs hdel hnext (fun k => by have := hpend k; rw [hholds]; omega)).1
    refine .of_release h hx hrefs hdel (fun id m' err' hc => ?_)
    rw [hcb] at hc
    cases t with
    | fifo rj => exact absurd hc (callbacks_ne rfl _)
    | worker id' =>
      have hlast := List.append_cancel_left hc
      simp only [List.cons.injEq, Prod.mk.injEq, and_true] at hlast
      obtain ⟨rfl, rfl, rfl⟩ := hlast
      refine ⟨fun h0 => absurd h0 herr, ?_⟩
      rintro ⟨ri, -, hri⟩
      have := hin ri
      omega

/-- **Reference counts are conserved** in every run, from rings of any capacities. -/
theorem refcount_conserved (caps : List Nat) (s : World ι)
    (h : Reach step Machine.anyStep (World.start ι caps) s) :
    Conserved s ∧ ∀ a s', step s a = some s' → Accounted s s' := by
  have hi : Inv s := h.invariant (.start caps) (fun _ _ _ _ hi _ hs => hi.step hs)
  refine ⟨hi.conserved, fun a s' hs => ?_⟩
  obtain ⟨he, hr⟩ := effect_step hi hs
  exact hi.accounted he hr

/-- One ring of one slot: a message to an unknown worker and twice to a known one, whose reader consumes the first copy
in between; then one to the full ring alone. -/
def repeated : List (Act String) :=
  [.remap (fun id => if id = "a" then some 0 else none), .writeAll [0], .writeToWorkers ["b", "a", "a"], .write 0] ++
    List.replicate 5 .run ++ [.consume 0 0] ++ List.replicate 9 .run

theorem refcount_conserved_repeated : ∃ s, Machine.exec step Machine.anyStep (World.start String [1]) repeated = some s ∧
    s.callbacks = [("b", 1, -1), ("a", 1, 0), ("a", 1, 0)] ∧ s.deleted = [0] ∧ s.holds 1 = 1 ∧ s.refs 1 = 1 ∧
    Conserved s ∧ ∀ a s', step s a = some s' → Accounted s s' :=
  ⟨_, rfl, rfl, rfl, rfl, rfl, refcount_conserved [1] _ (Machine.reach_of_exec _ _ repeated _ rfl)⟩

end FanOut
end Shm
