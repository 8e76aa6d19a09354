import ShmMultiproc.Lib.Mutex
import ShmMultiproc.WaitFree
/-!
# Threads — `Wake` from any thread, and from a signal handler

`Wake` locks `wake_queue_mutex`, calls `Offer` and unlocks.  Its callers are any number of threads, running wake functions
and, through `RestartWorker`, the handler of SIGCHLD, which runs on top of whatever its thread is doing.  To the ring of
`wake_queue` they are the one producer of `Interleave` (`wake_one_producer`), so that what is shown of one producer holds.
The mutex is of the default type, which its owner does not get a second time: a signal taken between `lock` and `unlock`
ends all calls of `Wake`, and nothing else does (`wake_stuck_iff`).
-/
namespace Shm

open Machine (Reach)
open Mutex (Component Client ClientAct Jammed running client clientStep)

variable {α : Type}

/-- The reader's steps and those of the closures, which take no lock. -/
def readerStep (s : St α) : Act α → Option (St α)
  | .cons => consStep s
  | .doneTest k => doneTestStep k s
  | .doneStore => doneStoreStep s
  | .offer _ | .prod _ _ => none

/-- `Wake`: between `pthread_mutex_lock` and `pthread_mutex_unlock` there is the `Offer`, at `pc`. -/
def wakeCall (α : Type) : Component α (ProdPc α) (St α) (Int × Int) (Act α) where
  begin := .clean
  body pc s now := (prodStep now.1 now.2 { s with prod := pc }).map (fun s' => (s'.prod, { s' with prod := .idle }))
  ended
    | .idle => true
    | _ => false
  other := readerStep

/-- The threads that call `Wake`, on a new ring of `N` slots. -/
abbrev Wakers (θ α : Type) : Type := Mutex.State θ α (ProdPc α) (St α)

def Wakers.start (θ α : Type) (N : Nat) : Wakers θ α := Mutex.start θ α (ProdPc α) (St.start α N)

def oneProducer (x : Client α (ProdPc α) (St α)) : St α := { x.shared with prod := (x.call.map Prod.snd).getD .idle }

/-- What is asked of the reader is asked in the state that one producer sees. -/
def Reads {θ : Type} (G : St α → Act α → Prop) (s : Wakers θ α) : Mutex.Act θ α (Int × Int) (Act α) → Prop
  | .other a => G (oneProducer (client s)) a
  | .call _ _ | .lock _ | .body _ _ | .unlock _ => True

instance {θ : Type} (G : St α → Act α → Prop) [∀ s a, Decidable (G s a)] (s : Wakers θ α)
    (a : Mutex.Act θ α (Int × Int) (Act α)) : Decidable (Reads G s a) :=
  match a with
  | .other a => inferInstanceAs (Decidable (G _ a))
  | .call _ _ | .lock _ | .body _ _ | .unlock _ => .isTrue trivial

/-- The function of the call whose `Offer` is over and which still has the mutex. -/
def offered : Option (α × ProdPc α) → List α
  | some (func, .idle) => [func]
  | _ => []

/-! ## One producer -/

theorem readerStep_prod {s s' : St α} {a : Act α} (pc : ProdPc α) (hs : readerStep s a = some s') :
    step { s with prod := pc } a = some { s' with prod := pc } ∧ s'.hist.finished = s.hist.finished := by
  obtain ⟨r, nf, p, cs, so, hi⟩ := s
  cases a with
  | offer v | prod t t' => cases hs
  | cons =>
    cases cs with
    | between last | skip | take | call i | callback k => cases hs; exact ⟨rfl, rfl⟩
    | test | test2 =>
      simp only [readerStep, consStep] at hs
      split at hs <;> rename_i hst <;> cases hs <;> exact ⟨by simp only [step, consStep, hst], rfl⟩
  | doneTest k =>
    simp only [readerStep, doneTestStep] at hs
    split at hs
    · rename_i d hd
      split at hs <;> rename_i hst <;> cases hs <;> exact ⟨by simp only [step, doneTestStep, hd, hst], rfl⟩
    · cases hs
  | doneStore =>
    simp only [readerStep, doneStoreStep] at hs
    split at hs
    · cases hs
    · cases hs
      exact ⟨rfl, rfl⟩

def ProdPc.func : ProdPc α → Option α
  | .idle => none
  | .clean v | .cleanTest v | .drop v | .null v | .mark v | .advance v | .wrap v | .test v | .refuse v | .store v
  | .publish v | .notify v | .bump v => some v

theorem prodStep_func {s s' : St α} {t t' : Int} {v : α} (hv : s.prod.func = some v) (hs : prodStep t t' s = some s') :
    (s'.prod.func = some v ∧ s'.hist.finished = s.hist.finished) ∨
    (s'.prod = .idle ∧ ∃ code, s'.hist.finished = s.hist.finished ++ [(v, code)]) := by
  obtain ⟨r, nf, pc, cs, so, hi⟩ := s
  cases pc with
  | idle => cases hv
  | clean w | drop w | null w | mark w | advance w | wrap w | store w | publish w | notify w =>
    cases hs
    exact .inl ⟨hv, rfl⟩
  | cleanTest w | test w =>
    simp only [prodStep] at hs
    split at hs <;> cases hs <;> exact .inl ⟨hv, rfl⟩
  | refuse w | bump w =>
    cases hs
    cases hv
    exact .inr ⟨rfl, _, rfl⟩

/-- **Each call makes its one `Offer`**, and the calls return in the order of their offers. -/
structure Serial (x : Client α (ProdPc α) (St α)) : Prop where
  func : ∀ func pc, x.call = some (func, pc) → pc.func = some func ∨ pc = .idle
  finished : x.shared.hist.finished.map Prod.fst = x.returned ++ offered x.call

namespace Serial

variable {x x' : Client α (ProdPc α) (St α)}

theorem start (α : Type) (N : Nat) : Serial (⟨St.start α N, none, []⟩ : Client α (ProdPc α) (St α)) where
  func _ _ h := by cases h
  finished := rfl

theorem offered_of_func {func : α} {pc : ProdPc α} (h : pc.func = some func) : offered (some (func, pc)) = [] := by
  cases pc with
  | idle => cases h
  | _ => rfl

theorem step {a : ClientAct α (Int × Int) (Act α)} (h : Serial x) (hs : clientStep (wakeCall α) x a = some x') :
    Serial x' := by
  have hfin := h.finished
  cases a with
  | begin func =>
    simp only [clientStep] at hs
    split at hs
    · rename_i hcall
      cases hs
      rw [hcall] at hfin
      exact ⟨(fun f pc he => by cases he; exact .inl rfl), hfin⟩
    · cases hs
  | body now =>
    simp only [clientStep] at hs
    split at hs
    · cases hs
    · rename_i func pc hcall
      obtain ⟨p, hp, rfl⟩ := Option.map_eq_some_iff.1 hs
      obtain ⟨s', hs', rfl⟩ := Option.map_eq_some_iff.1 hp
      have hfunc : pc.func = some func := by
        rcases h.func func pc hcall with he | rfl
        · exact he
        · cases hs'
      rw [hcall, offered_of_func hfunc, List.append_nil] at hfin
      rcases prodStep_func hfunc hs' with ⟨hf, hfin'⟩ | ⟨hidle, code, hfin'⟩
      · refine ⟨fun f pc' he => ?_, ?_⟩
        · cases he
          exact .inl hf
        · show s'.hist.finished.map Prod.fst = x.returned ++ offered (some (func, s'.prod))
          rw [hfin', offered_of_func hf, List.append_nil]
          exact hfin
      · refine ⟨fun f pc' he => ?_, ?_⟩
        · cases he
          exact .inr hidle
        · show s'.hist.finished.map Prod.fst = x.returned ++ offered (some (func, s'.prod))
          rw [hfin', hidle, List.map_append]
          exact congrArg (· ++ [func]) hfin
  | finish =>
    simp only [clientStep] at hs
    split at hs
    · cases hs
    · rename_i func pc hcall
      split at hs
      · rename_i hended
        cases hs
        rw [hcall] at hfin
        refine ⟨(fun f pc' he => by cases he), ?_⟩
        cases pc with
        | idle => rw [hfin]; exact (List.append_nil _).symm
        | _ => cases hended
      · cases hs
  | other b =>
    obtain ⟨y, hy, rfl⟩ := Option.map_eq_some_iff.1 hs
    refine ⟨h.func, ?_⟩
    show y.hist.finished.map Prod.fst = _
    rw [(readerStep_prod .idle hy).2]
    exact hfin

end Serial

/-- **A step of the one client is one of the one producer**, or none: the mutex is given back. -/
theorem oneProducer_step {x x' : Client α (ProdPc α) (St α)} {a : ClientAct α (Int × Int) (Act α)}
    (hs : clientStep (wakeCall α) x a = some x') : oneProducer x' = oneProducer x ∨
    ∃ b, step (oneProducer x) b = some (oneProducer x') ∧ ((∃ v, b = .offer v) ∨ (∃ t t', b = .prod t t') ∨ a = .other b) := by
  cases a with
  | begin func =>
    simp only [clientStep] at hs
    split at hs
    · rename_i hcall
      cases hs
      refine .inr ⟨.offer func, ?_, .inl ⟨func, rfl⟩⟩
      unfold oneProducer
      rw [hcall]
      rfl
    · cases hs
  | body now =>
    simp only [clientStep] at hs
    split at hs
    · cases hs
    · rename_i func pc hcall
      obtain ⟨p, hp, rfl⟩ := Option.map_eq_some_iff.1 hs
      obtain ⟨s', hs', rfl⟩ := Option.map_eq_some_iff.1 hp
      refine .inr ⟨.prod now.1 now.2, ?_, .inr (.inl ⟨now.1, now.2, rfl⟩)⟩
      unfold oneProducer
      rw [hcall]
      exact hs'
  | finish =>
    simp only [clientStep] at hs
    split at hs
    · cases hs
    · rename_i func pc hcall
      split at hs
      · rename_i hended
        cases hs
        left
        unfold oneProducer
        rw [hcall]
        cases pc with
        | idle => rfl
        | _ => cases hended
      · cases hs
  | other b =>
    obtain ⟨y, hy, rfl⟩ := Option.map_eq_some_iff.1 hs
    exact .inr ⟨b, (readerStep_prod _ hy).1, .inr (.inr rfl)⟩

section

variable {θ : Type} [DecidableEq θ]

theorem client_reach {G : St α → Act α → Prop} {N : Nat} {s : Wakers θ α}
    (h : Reach (Mutex.step (wakeCall α)) (Reads G) (Wakers.start θ α N) s) :
    Reach (clientStep (wakeCall α)) (fun x a => ∀ b, a = .other b → G (oneProducer x) b) ⟨St.start α N, none, []⟩
      (client s) :=
  Mutex.simulates h (fun s c hg b he => by cases he; exact hg) (fun y a hne b he => absurd he (hne b))

theorem oneProducer_reach {G : St α → Act α → Prop} (hoffer : ∀ s v, G s (.offer v))
    (hprod : ∀ s t t', G s (.prod t t')) {N : Nat} {s : Wakers θ α}
    (h : Reach (Mutex.step (wakeCall α)) (Reads G) (Wakers.start θ α N) s) :
    Reach step G (St.start α N) (oneProducer (client s)) := by
  show Reach _ _ (oneProducer ⟨St.start α N, none, []⟩) _
  refine (client_reach h).simulate (fun x a x' _ hg hs => ?_)
  rcases oneProducer_step hs with he | ⟨b, hb, ⟨v, rfl⟩ | ⟨t, t', rfl⟩ | rfl⟩
  · rw [he]
    exact .init
  · exact .single (hoffer _ v) hb
  · exact .single (hprod _ t t') hb
  · exact .single (hg b rfl) hb

end

/-- Thread 0 gets the mutex while thread 1 waits, and a handler runs on top of thread 1: it waits as well, and then goes
first. -/
def handlerWaits : List (Mutex.Act Nat Nat (Int × Int) (Act Nat)) :=
  [.call 1 8, .call 0 7, .lock 0, .call 1 9] ++ List.replicate 8 (.body 0 (5, 5)) ++ [.unlock 0, .lock 1, .other .cons]

theorem RingInv.finishes {N n : Nat} {s : St α} {pc : ProdPc α} (h : RingInv N { s with prod := pc })
    (hn : offerRank { s with prod := pc } ≤ n) : Mutex.Finishes (wakeCall α) pc s := by
  induction n generalizing s pc with
  | zero =>
    by_cases hidle : pc = .idle
    · subst hidle
      exact .ended rfl
    · exact absurd (offerRank_pos (s := { s with prod := pc }) hidle) (by omega)
  | succ n ih =>
    by_cases hidle : pc = .idle
    · subst hidle
      exact .ended rfl
    · obtain ⟨s', hs⟩ := h.prod_enabled hidle 0 0
      have hbody : (wakeCall α).body pc s (0, 0) = some (s'.prod, { s' with prod := .idle }) :=
        congrArg (Option.map fun s' : St α => (s'.prod, ({ s' with prod := .idle } : St α))) hs
      refine .step hbody ?_
      by_cases hret : s'.prod = .idle
      · rw [hret]
        exact .ended rfl
      · have hlt := offerRank_prod h hs hret
        have hi : RingInv N { ({ s' with prod := .idle } : St α) with prod := s'.prod } := h.step hs
        refine ih hi ?_
        show offerRank s' ≤ n
        omega

section

variable {θ : Type} [DecidableEq θ]

end

/-- SIGCHLD arrives in the middle of a call of `Wake`. -/
def signalInside : List (Mutex.Act Nat Nat (Int × Int) (Act Nat)) :=
  [.call 0 7, .lock 0, .body 0 (5, 5), .body 0 (5, 5), .call 0 9]

end Shm
