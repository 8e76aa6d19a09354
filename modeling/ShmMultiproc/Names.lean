import Mathlib.Data.List.TFAE
import Mathlib.Order.Defs.Unbundled
import Mathlib.Tactic.TFAE
import ShmMultiproc.Lib.Decimal
import ShmMultiproc.Records
/-!
# Names — worker ids, ring names and directories

`workers` is a map in the order of `WorkerId::operator<`; the ring of a worker in `main_shm` and its directory go by the
string that `CreateWorker` prints from the same two fields.  The name may itself end in digits after an underscore, but
a decimal has no underscore, so the last one separates (`append_sep_inj`).  `names_agree` says that the order, the
fields and the strings tell the same workers apart, for names of any bytes.
-/
namespace Shm

open Decimal (decimal not_mem_decimal decimal_inj append_sep_inj)
open Machine (Reach)

/-- `std::string`: any bytes, in the order of `std::string::compare`. -/
abbrev Bytes := List UInt8

def bytes (s : String) : Bytes := s.toByteArray.data.toList

/-- `WorkerId` with a name of any bytes; `WorkerId.key` is that of a string. -/
structure WorkerKey where
  name : Bytes
  idx : Int
  deriving DecidableEq, Repr

def WorkerId.key (id : WorkerId) : WorkerKey := ⟨bytes id.name, id.idx⟩

namespace WorkerKey

/-- `WorkerId::operator<`. -/
def less (a b : WorkerKey) : Bool :=
  if a.idx = b.idx then decide (a.name < b.name) else decide (a.idx < b.idx)

/-- `name_idx` in `CreateWorker`: the name, an underscore and the index. -/
def nameIdx (a : WorkerKey) : Bytes := a.name ++ 95 :: decimal a.idx

/-- `write_key_path`, the directory of the worker. -/
def writeKeyPath (workerHome : Bytes) (a : WorkerKey) : Bytes := workerHome ++ 47 :: a.nameIdx

end WorkerKey

/-- The name of the ring that `CreateWorker` opened in `main_shm` when it made the record. -/
def WorkerProcess.ringName (w : WorkerProcess) : Bytes := (WorkerId.key ⟨w.options.name, w.id.idx⟩).nameIdx

namespace WorkerKey

/-! ## The string -/

theorem nameIdx_inj {a b : WorkerKey} (h : a.nameIdx = b.nameIdx) : a = b := by
  have hsep : ∀ i : Int, (95 : UInt8) ∉ decimal i := fun i => not_mem_decimal (by decide) (.inr (by decide)) i
  obtain ⟨hname, hidx⟩ := append_sep_inj (hsep a.idx) (hsep b.idx) h
  obtain ⟨n, i⟩ := a
  obtain ⟨m, j⟩ := b
  cases hname
  cases decimal_inj hidx
  rfl

/-! ## The order -/

theorem less_iff (a b : WorkerKey) : a.less b = true ↔ a.idx < b.idx ∨ (a.idx = b.idx ∧ a.name < b.name) := by
  unfold less
  by_cases h : a.idx = b.idx
  · rw [if_pos h, decide_eq_true_eq]
    exact ⟨fun hl => .inr ⟨h, hl⟩, fun hl => hl.elim (fun hl => absurd h (by omega)) And.right⟩
  · rw [if_neg h, decide_eq_true_eq]
    exact ⟨.inl, fun hl => hl.elim id (fun hl => absurd hl.1 h)⟩

theorem less_irrefl (a : WorkerKey) : ¬ a.less a = true := by
  rw [less_iff]
  rintro (h | ⟨-, h⟩)
  · omega
  · exact List.lt_irrefl _ h

theorem less_trans {a b c : WorkerKey} (hab : a.less b = true) (hbc : b.less c = true) : a.less c = true := by
  rw [less_iff] at hab hbc ⊢
  rcases hab with hab | ⟨hab, hn⟩
  · rcases hbc with hbc | ⟨hbc, -⟩
    · exact .inl (by omega)
    · exact .inl (by omega)
  · rcases hbc with hbc | ⟨hbc, hn'⟩
    · exact .inl (by omega)
    · exact .inr ⟨by omega, List.lt_trans hn hn'⟩

theorem eq_of_not_less {a b : WorkerKey} (hab : ¬ a.less b = true) (hba : ¬ b.less a = true) : a = b := by
  rw [less_iff] at hab hba
  obtain ⟨n, i⟩ := a
  obtain ⟨m, j⟩ := b
  obtain ⟨h1, h2⟩ := not_or.1 hab
  obtain ⟨h3, h4⟩ := not_or.1 hba
  have hidx : i = j := Int.le_antisymm (Int.not_lt.1 h3) (Int.not_lt.1 h1)
  subst hidx
  have hnm : n = m := List.le_antisymm (List.not_lt.1 (fun h => h4 ⟨rfl, h⟩)) (List.not_lt.1 (fun h => h2 ⟨rfl, h⟩))
  rw [hnm]

/-- **`operator<` is a strict total order.** -/
theorem strictTotal : IsStrictTotalOrder WorkerKey (fun a b => a.less b = true) where
  irrefl := less_irrefl
  trans := fun _ _ _ => less_trans
  trichotomous := fun _ _ => eq_of_not_less

end WorkerKey

theorem WorkerId.key_inj {a b : WorkerId} (h : a.key = b.key) : a = b := by
  obtain ⟨n, i⟩ := a
  obtain ⟨m, j⟩ := b
  have hn : bytes n = bytes m := congrArg WorkerKey.name h
  have hi : i = j := congrArg WorkerKey.idx h
  have hnm : n = m := String.toByteArray_inj.1 (ByteArray.ext (Array.toList_inj.1 hn))
  rw [hnm, hi]

/-! ## The same workers -/

/-- **The three views of a worker agree**: the order, the two fields, the strings. -/
theorem WorkerKey.tfae (workerHome : Bytes) (a b : WorkerKey) :
    [a.less b = false ∧ b.less a = false, a.name = b.name ∧ a.idx = b.idx, a.nameIdx = b.nameIdx,
      a.writeKeyPath workerHome = b.writeKeyPath workerHome].TFAE := by
  tfae_have 1 → 2 := fun ⟨hab, hba⟩ => by
    have he : a = b := eq_of_not_less (Bool.eq_false_iff.1 hab) (Bool.eq_false_iff.1 hba)
    rw [he]
    exact ⟨rfl, rfl⟩
  tfae_have 2 → 3 := fun ⟨hn, hi⟩ => by
    unfold nameIdx
    rw [hn, hi]
  tfae_have 3 → 4 := fun h => by
    unfold writeKeyPath
    rw [h]
  tfae_have 4 → 1 := fun h => by
    unfold writeKeyPath at h
    rw [nameIdx_inj (List.cons.inj (List.append_cancel_left h)).2]
    exact ⟨Bool.eq_false_iff.2 (less_irrefl b), Bool.eq_false_iff.2 (less_irrefl b)⟩
  tfae_finish

/-- **Each entry of `workers` has a ring of its own name.** -/
structure RingsNamed (s : Master) : Prop where
  named : ∀ id r, s.workers.lookup id = some r → ∃ w, s.recs r = some w ∧ w.ringName = id.key.nameIdx
  distinct : ∀ id id' r r' w w', id ≠ id' → s.workers.lookup id = some r → s.workers.lookup id' = some r' →
    s.recs r = some w → s.recs r' = some w' → w.ringName ≠ w'.ringName

namespace Master

theorem Named.rings {s : Master} (h : Named s) : RingsNamed s := by
  have hnamed : ∀ id r, s.workers.lookup id = some r → ∃ w, s.recs r = some w ∧ w.ringName = id.key.nameIdx := by
    intro id r hl
    obtain ⟨w, hw, hid⟩ := h.named id r hl
    refine ⟨w, hw, ?_⟩
    unfold WorkerProcess.ringName
    rw [h.opt r w hw, ← hid]
  refine ⟨hnamed, fun id id' r r' w w' hne hl hl' hw hw' he => hne ?_⟩
  obtain ⟨w₁, hw₁, hn⟩ := hnamed id r hl
  obtain ⟨w₂, hw₂, hn'⟩ := hnamed id' r' hl'
  cases hw.symm.trans hw₁
  cases hw'.symm.trans hw₂
  exact WorkerId.key_inj (WorkerKey.nameIdx_inj (by rw [← hn, ← hn', he]))

/-- **Worker tables and ring names identify the same workers**, in every run. -/
theorem names_agree (s : Master) (h : Reach step Machine.anyStep new s) :
    IsStrictTotalOrder WorkerKey (fun a b => a.less b = true) ∧
    (∀ workerHome a b, [WorkerKey.less a b = false ∧ WorkerKey.less b a = false, a.name = b.name ∧ a.idx = b.idx,
      a.nameIdx = b.nameIdx, a.writeKeyPath workerHome = b.writeKeyPath workerHome].TFAE) ∧ RingsNamed s :=
  ⟨WorkerKey.strictTotal, WorkerKey.tfae, (named_reach h).rings⟩

/-- Two workers, the name of one being `name_idx` of the other. -/
def nested : List Act :=
  [.start [.new "w", .new "w_0"] true, .next 0 true 100, .next 0 true 101]

theorem names_agree_nested : ∃ s, Machine.exec step Machine.anyStep new nested = some s ∧
    s.workers.keys = [⟨"w_0", 0⟩, ⟨"w", 0⟩] ∧ (WorkerId.key ⟨"w", -12⟩).nameIdx = bytes "w_-12" ∧ RingsNamed s :=
  ⟨_, rfl, rfl, rfl, (names_agree _ (Machine.reach_of_exec _ _ nested _ rfl)).2.2⟩

end Master
end Shm
