import Mathlib.Algebra.Ring.Nat
import Mathlib.Tactic.Common

/-! Bit fields of a sixty-four bit word read as arithmetic on its value. -/
namespace FlorestaDb.Word

theorem toNat_and_mask (x m : UInt64) (k : Nat) (hm : m.toNat = 2 ^ k - 1) :
    (x &&& m).toNat = x.toNat % 2 ^ k := by
  rw [UInt64.toNat_and, hm, Nat.and_two_pow_sub_one_eq_mod]

theorem toNat_shiftRight (x k : UInt64) (hk : k.toNat < 64) :
    (x >>> k).toNat = x.toNat / 2 ^ k.toNat := by
  rw [UInt64.toNat_shiftRight, Nat.mod_eq_of_lt hk, Nat.shiftRight_eq_div_pow]

theorem toNat_shiftLeft (x k : UInt64) (hk : k.toNat < 64) (hx : x.toNat * 2 ^ k.toNat < 2 ^ 64) :
    (x <<< k).toNat = x.toNat * 2 ^ k.toNat := by
  rw [UInt64.toNat_shiftLeft, Nat.mod_eq_of_lt hk, Nat.shiftLeft_eq, Nat.mod_eq_of_lt hx]

/-- Fields that do not overlap are combined by addition. -/
theorem toNat_or_disjoint (x y : UInt64) (k a : Nat) (hx : x.toNat = a * 2 ^ k)
    (hy : y.toNat < 2 ^ k) : (x ||| y).toNat = a * 2 ^ k + y.toNat := by
  rw [UInt64.toNat_or, hx, Nat.mul_comm a, ← Nat.two_pow_add_eq_or_of_lt hy]

theorem toNat_ofNat_of_lt {n : Nat} (h : n < 2 ^ 64) : (UInt64.ofNat n).toNat = n := by
  rw [UInt64.toNat_ofNat', Nat.mod_eq_of_lt h]

/-- A field in the middle of a word. -/
theorem toNat_field (x m k : UInt64) (j : Nat) (hk : k.toNat < 64)
    (hm : m.toNat = (2 ^ j - 1) * 2 ^ k.toNat) :
    ((x &&& m) >>> k).toNat = x.toNat / 2 ^ k.toNat % 2 ^ j := by
  rw [UInt64.toNat_shiftRight, Nat.mod_eq_of_lt hk, UInt64.toNat_and, hm,
    Nat.shiftRight_and_distrib, Nat.shiftRight_eq_div_pow, Nat.shiftRight_eq_div_pow,
    Nat.mul_div_cancel _ (Nat.two_pow_pos _), Nat.and_two_pow_sub_one_eq_mod]

/-- Clearing the low field of a word. -/
theorem toNat_and_not_mask (x m : UInt64) (k : Nat) (hk : k ≤ 64)
    (hm : m.toNat = 2 ^ k - 1) : (x &&& ~~~m).toNat = x.toNat / 2 ^ k * 2 ^ k := by
  have hx : x.toNat < 2 ^ 64 := x.toNat_lt
  apply Nat.eq_of_testBit_eq
  intro i
  rw [UInt64.toNat_and, UInt64.toNat_not, hm, Nat.testBit_and]
  have hmlt : 2 ^ k - 1 < 2 ^ 64 := by
    have h1 : 2 ^ k ≤ 2 ^ 64 := Nat.pow_le_pow_right (by decide) hk
    have h2 := Nat.two_pow_pos k
    omega
  have hnot : (UInt64.size - 1 - (2 ^ k - 1)).testBit i = (decide (i < 64) && !decide (i < k)) := by
    have hs : UInt64.size - 1 - (2 ^ k - 1) = 2 ^ 64 - (2 ^ k - 1 + 1) := by
      simp only [UInt64.size]
      omega
    rw [hs, Nat.testBit_two_pow_sub_succ hmlt, Nat.testBit_two_pow_sub_one]
  rw [hnot, ← Nat.shiftLeft_eq, Nat.testBit_shiftLeft, Nat.testBit_div_two_pow]
  by_cases hik : i < k
  · have hlt : ¬k ≤ i := by omega
    simp [hik, hlt]
  · by_cases hi : i < 64
    · have hge : k ≤ i := by omega
      simp [hik, hi, hge]
    · have hbit : x.toNat.testBit i = false :=
        Nat.testBit_lt_two_pow (Nat.lt_of_lt_of_le hx (Nat.pow_le_pow_right (by decide) (by omega)))
      have hge : k ≤ i := by omega
      simp [hbit, hge]

end FlorestaDb.Word
