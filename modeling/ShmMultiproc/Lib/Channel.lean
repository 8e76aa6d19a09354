import Mathlib.Data.List.Range
import ShmMultiproc.Lib.Machine
/-!
# Channel — a bounded channel with acknowledgements

The specification of a channel with room for `N` items, one atomic step at a time: an item is sent, received, then
acknowledged, in any order of the items received; the room of the oldest item is given back once it is acknowledged.  A
send that finds no room is refused.
-/
namespace Channel

open Machine (Reach)

variable {α : Type*}

/-- The items sent and received so far, the numbers of those acknowledged, how many have given their room back, and what
the sends answered. -/
structure State (α : Type*) where
  sent : List α
  received : List α
  acked : List Nat
  freed : Nat
  answers : List (α × Bool)
  deriving DecidableEq, Repr

inductive Act (α : Type*) where
  | send (v : α)
  | refuse (v : α)
  | receive
  | ack (k : Nat)
  | free
  deriving DecidableEq, Repr

def new (α : Type*) : State α := ⟨[], [], [], 0, []⟩

def step (N : Nat) (c : State α) : Act α → Option (State α)
  | .send v =>
    if c.sent.length < c.freed + N then some { c with sent := c.sent ++ [v], answers := c.answers ++ [(v, true)] }
    else none
  | .refuse v => if c.sent.length < c.freed + N then none else some { c with answers := c.answers ++ [(v, false)] }
  | .receive =>
    match c.sent[c.received.length]? with
    | none => none
    | some v => some { c with received := c.received ++ [v] }
  | .ack k => if k < c.received.length ∧ k ∉ c.acked then some { c with acked := c.acked ++ [k] } else none
  | .free => if c.freed ∈ c.acked then some { c with freed := c.freed + 1 } else none

/-- **What a channel promises**: what is received is what was sent, in order and once; room is given back in order, for
acknowledged items only; at most `N` items are under way; and a send answers true exactly when its item was sent. -/
structure Sound (N : Nat) (c : State α) : Prop where
  order : c.received <+: c.sent
  ackedOnce : c.acked.Nodup
  ackedIn : ∀ k ∈ c.acked, k < c.received.length
  freedAcked : ∀ k < c.freed, k ∈ c.acked
  room : c.sent.length ≤ c.freed + N
  answered : (c.answers.filter Prod.snd).map Prod.fst = c.sent

variable {N : Nat} {c c' : State α}

theorem Sound.new (N : Nat) : Sound N (new α) where
  order := List.prefix_rfl
  ackedOnce := List.nodup_nil
  ackedIn := fun _ hk => absurd hk List.not_mem_nil
  freedAcked := fun _ hk => absurd hk (Nat.not_lt_zero _)
  room := Nat.zero_le _
  answered := rfl

theorem Sound.step {a : Act α} (h : Sound N c) (hs : step N c a = some c') : Sound N c' := by
  cases a with
  | send v =>
    simp only [Channel.step] at hs
    split at hs
    · rename_i hroom
      cases hs
      refine { h with order := h.order.trans (List.prefix_append _ _), room := ?_, answered := ?_ }
      · show (c.sent ++ [v]).length ≤ c.freed + N
        rw [List.length_append, List.length_singleton]
        omega
      · show ((c.answers ++ [(v, true)]).filter Prod.snd).map Prod.fst = c.sent ++ [v]
        rw [List.filter_append, List.map_append, h.answered]
        rfl
    · cases hs
  | refuse v =>
    simp only [Channel.step] at hs
    split at hs
    · cases hs
    · cases hs
      refine { h with answered := ?_ }
      show ((c.answers ++ [(v, false)]).filter Prod.snd).map Prod.fst = c.sent
      rw [List.filter_append, List.map_append, h.answered]
      exact List.append_nil _
  | receive =>
    simp only [Channel.step] at hs
    split at hs
    · cases hs
    · rename_i v hv
      cases hs
      refine { h with order := ?_, ackedIn := fun k hk => ?_ }
      · have htake : c.received = c.sent.take c.received.length := List.prefix_iff_eq_take.1 h.order
        show c.received ++ [v] <+: c.sent
        rw [htake, show [v] = c.sent[c.received.length]?.toList by rw [hv]; rfl, ← List.take_add_one]
        exact List.take_prefix _ _
      · show k < (c.received ++ [v]).length
        rw [List.length_append]
        exact Nat.lt_add_right _ (h.ackedIn k hk)
  | ack k =>
    simp only [Channel.step] at hs
    split at hs
    · rename_i hk
      cases hs
      refine { h with ackedOnce := ?_, ackedIn := fun j hj => ?_, freedAcked := fun j hj => ?_ }
      · exact List.nodup_append.2 ⟨h.ackedOnce, List.pairwise_singleton _ k, fun a ha b hb => by
          rintro rfl
          exact hk.2 (List.mem_singleton.1 hb ▸ ha)⟩
      · rcases List.mem_append.1 hj with hj | hj
        · exact h.ackedIn j hj
        · rw [List.mem_singleton.1 hj]
          exact hk.1
      · exact List.mem_append_left _ (h.freedAcked j hj)
    · cases hs
  | free =>
    simp only [Channel.step] at hs
    split at hs
    · rename_i hmem
      cases hs
      refine { h with freedAcked := fun j hj => ?_, room := ?_ }
      · rcases Nat.lt_succ_iff_lt_or_eq.1 hj with hj | rfl
        · exact h.freedAcked j hj
        · exact hmem
      · have := h.room
        show c.sent.length ≤ c.freed + 1 + N
        omega
    · cases hs

/-- **Every run of a channel is sound.** -/
theorem sound_reach (h : Reach (step N) Machine.anyStep (new α) c) : Sound N c :=
  h.invariant (.new N) (fun _ _ _ _ hi _ hs => hi.step hs)

end Channel
