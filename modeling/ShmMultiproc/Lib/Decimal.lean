import Mathlib.Data.Nat.Digits.Defs
/-!
# Decimal — printed numbers as bytes

`decimal i` is what a program prints for the integer `i`: the decimal digits, behind a minus if it is negative.  A number
is read back from its print (`decimal_inj`), and a print behind a separator that it cannot hold splits off in one way
(`append_sep_inj`).
-/
namespace Decimal

/-- The decimal digits of `n`, as a stream prints them. -/
def digits (n : Nat) : List UInt8 := (Nat.toDigits 10 n).map (fun c => c.val.toUInt8)

/-- What a stream prints for an `int`. -/
def decimal (i : Int) : List UInt8 := if i < 0 then 45 :: digits i.natAbs else digits i.natAbs

variable {b : UInt8} {m n : Nat} {i j : Int}

theorem digit_spec {c : Char} (hc : c ∈ Nat.toDigits 10 n) :
    48 ≤ c.toNat ∧ c.toNat ≤ 57 ∧ c.val.toUInt8.toNat = c.toNat := by
  have hd := Nat.isDigit_of_mem_toDigits (by decide) (by decide) hc
  simp only [Char.isDigit, Bool.and_eq_true, decide_eq_true_eq, UInt32.le_iff_toNat_le] at hd
  have hle : c.toNat ≤ 57 := hd.2
  refine ⟨hd.1, hle, ?_⟩
  rw [UInt32.toNat_toUInt8]
  exact Nat.mod_eq_of_lt (by show c.toNat < 256; omega)

theorem digits_bounds (hb : b ∈ digits n) : 48 ≤ b.toNat ∧ b.toNat ≤ 57 := by
  obtain ⟨c, hc, rfl⟩ := List.mem_map.1 hb
  obtain ⟨hge, hle, hval⟩ := digit_spec hc
  rw [hval]
  exact ⟨hge, hle⟩

theorem map_digits (n : Nat) : (digits n).map (fun b => Char.ofNat b.toNat) = Nat.toDigits 10 n := by
  unfold digits
  rw [List.map_map]
  refine (List.map_congr_left (fun c hc => ?_)).trans (List.map_id _)
  show Char.ofNat c.val.toUInt8.toNat = c
  rw [(digit_spec hc).2.2, Char.ofNat_toNat]

theorem digits_inj (h : digits m = digits n) : m = n := by
  have hd : Nat.toDigits 10 m = Nat.toDigits 10 n := by rw [← map_digits m, ← map_digits n, h]
  rw [← Nat.ofDigitChars_ten_toDigits (n := m), ← Nat.ofDigitChars_ten_toDigits (n := n), hd]

theorem not_mem_digits (h : b.toNat < 48 ∨ 57 < b.toNat) (n : Nat) : b ∉ digits n := by
  intro hb
  have := digits_bounds hb
  omega

theorem not_mem_decimal (hb : b ≠ 45) (h : b.toNat < 48 ∨ 57 < b.toNat) (i : Int) : b ∉ decimal i := by
  have hd := not_mem_digits h i.natAbs
  unfold decimal
  split
  · intro hm
    rcases List.mem_cons.1 hm with he | hm
    · exact hb he
    · exact hd hm
  · exact hd

/-- **A number is read back from its print.** -/
theorem decimal_inj (h : decimal i = decimal j) : i = j := by
  have hsign : ∀ (n : Nat) (l : List UInt8), 45 :: l ≠ digits n :=
    fun n l he => not_mem_digits (.inl (by decide)) n (he ▸ List.mem_cons_self)
  unfold decimal at h
  split at h
  · split at h
    · have := digits_inj (List.cons.inj h).2
      omega
    · exact absurd h (hsign _ _)
  · split at h
    · exact absurd h.symm (hsign _ _)
    · have := digits_inj h
      omega

/-- **A separator that does not occur behind it** splits a string in one way. -/
theorem append_sep_inj {α : Type*} {c : α} {y y' : List α} (hy : c ∉ y) (hy' : c ∉ y') : ∀ {x x' : List α},
    x ++ c :: y = x' ++ c :: y' → x = x' ∧ y = y'
  | [], [], h => ⟨rfl, (List.cons.inj h).2⟩
  | [], d :: x', h => by
    simp only [List.nil_append, List.cons_append, List.cons.injEq] at h
    exact absurd (h.2 ▸ List.mem_append_right x' List.mem_cons_self) hy
  | d :: x, [], h => by
    simp only [List.nil_append, List.cons_append, List.cons.injEq] at h
    exact absurd (h.2 ▸ List.mem_append_right x List.mem_cons_self) hy'
  | d :: x, d' :: x', h => by
    simp only [List.cons_append, List.cons.injEq] at h
    obtain ⟨hx, hyy⟩ := append_sep_inj hy hy' h.2
    rw [h.1, hx]
    exact ⟨rfl, hyy⟩

end Decimal
