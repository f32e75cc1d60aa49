import Mathlib.Data.Int.Bitwise
import Mathlib.Tactic.LinearCombination
import Mathlib.Tactic.Positivity
import Mathlib.Tactic.Ring

/-! # Bit fields of integers

An integer of unbounded width whose low bits hold one field and whose other bits hold
the rest, possibly negative. A shift and a bitwise or put the two together, and a mask
reads the low one.
-/

namespace BitFields

set_option autoImplicit false

theorem lor_zero (a : Int) : Int.lor a 0 = a := by
  cases a <;> simp [Int.lor, Nat.ldiff]

theorem land_zero (a : Int) : Int.land a 0 = 0 := by
  cases a <;> simp [Int.land, Nat.ldiff]

theorem exists_bit (n : Int) : ∃ b m, n = Int.bit b m ∧ n = 2 * m + cond b 1 0 :=
  ⟨n.bodd, n.div2, (Int.bit_decomp n).symm, by rw [← Int.bit_val, Int.bit_decomp]⟩

theorem lor_shiftLeft (k : Nat) (a b : Int) (hNonneg : 0 ≤ b) (hLt : b < 2 ^ k) :
    Int.lor (a <<< k) b = a * 2 ^ k + b := by
  rw [Int.shiftLeft_eq]
  induction k generalizing b with
  | zero =>
    have hb : b = 0 := by
      rw [pow_zero] at hLt
      omega
    rw [hb, lor_zero, pow_zero, add_zero]
  | succ k ih =>
    obtain ⟨c, m, hBit, hVal⟩ := exists_bit b
    have hm : 0 ≤ m ∧ m < 2 ^ k := by
      rw [pow_succ] at hLt
      cases c <;> simp only [cond_true, cond_false] at hVal <;> omega
    have hShift : a * 2 ^ (k + 1) = Int.bit false (a * 2 ^ k) := by
      rw [Int.bit_val, cond_false]
      ring
    rw [hBit, hShift, Int.lor_bit, ih m hm.1 hm.2, Bool.false_or, Int.bit_val, Int.bit_val,
      Int.bit_val, cond_false]
    ring

theorem land_mask (k : Nat) (a : Int) : Int.land a (2 ^ k - 1) = a % 2 ^ k := by
  induction k generalizing a with
  | zero => rw [pow_zero, sub_self, land_zero, Int.emod_one]
  | succ k ih =>
    obtain ⟨c, m, hBit, hVal⟩ := exists_bit a
    have hMask : (2 : Int) ^ (k + 1) - 1 = Int.bit true (2 ^ k - 1) := by
      rw [Int.bit_val, cond_true]
      ring
    have hMod : (2 * m + cond c 1 0) % (2 * 2 ^ k) = 2 * (m % 2 ^ k) + cond c 1 0 := by
      have hPos : (0 : Int) < 2 ^ k := by positivity
      have hDiv := Int.mul_ediv_add_emod m (2 ^ k)
      have hLt := Int.emod_lt_of_pos m hPos
      have hNonneg := Int.emod_nonneg m hPos.ne'
      rw [show 2 * m + cond c 1 0 = 2 * (m % 2 ^ k) + cond c 1 0 + 2 * 2 ^ k * (m / 2 ^ k) by
        linear_combination -2 * hDiv, Int.add_mul_emod_self_left]
      apply Int.emod_eq_of_lt
      · cases c <;> simp only [cond_true, cond_false] <;> omega
      · cases c <;> simp only [cond_true, cond_false] <;> omega
    rw [hMask, hBit, Int.land_bit, ih, Bool.and_true, ← hBit, hVal, Int.bit_val, pow_succ',
      hMod]

theorem shiftRight_eq_ediv (k : Nat) (a : Int) : a >>> k = a / 2 ^ k := by
  rw [Int.shiftRight_eq_div_pow, Nat.cast_pow, Nat.cast_ofNat]

end BitFields
