import Mathlib.Data.Int.Order.Basic
import Mathlib.Tactic.Ring
import Mathlib.Tactic.Linarith

namespace MeuOS.Lib

open BitVec

/-!
# Dividing by a power of two with shifts

An arithmetic shift rounds down, C's division rounds toward zero.  Adding `2 ^ n - 1` to a
negative dividend before the shift makes up for it.

* `ediv_bias` — the integers: the biased floor is the truncated quotient;
* `signMask`, `toInt_add_signMask` — the bias, computed from the sign, never overflows;
* `toInt_biasedShift` — the shifts and the mask give the truncated quotient.
-/

/-- For a negative dividend, the floor of the biased quotient is the truncated quotient. -/
theorem ediv_bias {a c : Int} (hc : 0 < c) (ha : a < 0) : (a + (c - 1)) / c = a.tdiv c := by
  obtain ⟨b, rfl⟩ : ∃ b, a = -b := ⟨-a, (neg_neg a).symm⟩
  rw [Int.neg_tdiv, Int.tdiv_eq_ediv_of_nonneg (by omega)]
  have hr := Int.emod_nonneg b (ne_of_gt hc)
  have hr' := Int.emod_lt_of_pos b hc
  have hb := Int.emod_add_mul_ediv b c
  -- `-b + (c - 1) = c * -(b / c) + (c - 1 - b % c)`
  have h : c - 1 - b % c + c * -(b / c) = -b + (c - 1) := by linarith
  exact ((Int.ediv_emod_unique hc).mpr ⟨h, by omega, by omega⟩).1

variable {w n : Nat}

/-- `2 ^ n - 1` for a negative number, else 0. -/
def signMask (x : BitVec w) (n : Nat) : BitVec w :=
  x.sshiftRight (w - 1) &&& BitVec.ofNat w (2 ^ n - 1)

/-- The sign, spread over all bits. -/
theorem sshiftRight_sign (hw : 0 < w) (x : BitVec w) :
    x.sshiftRight (w - 1) = if x.toInt < 0 then allOnes w else 0 := by
  apply toInt_inj.mp
  have hlo := le_toInt x
  have hhi := toInt_lt (x := x)
  have hpos : (0 : Int) < 2 ^ (w - 1) := Int.pow_pos (by decide)
  rw [toInt_sshiftRight, Int.shiftRight_eq_div_pow]
  push_cast
  split
  next h =>
    rw [toInt_allOnes, if_pos hw]
    have h : x.toInt + 2 ^ (w - 1) + 2 ^ (w - 1) * -1 = x.toInt := by ring
    exact ((Int.ediv_emod_unique hpos).mpr ⟨h, by linarith, by linarith⟩).1
  next h =>
    have h0 : (0 : BitVec w).toInt = 0 := by simp
    rw [h0]
    exact Int.ediv_eq_zero_of_lt (by omega) hhi

theorem signMask_eq (hw : 0 < w) (x : BitVec w) (n : Nat) :
    signMask x n = if x.toInt < 0 then BitVec.ofNat w (2 ^ n - 1) else 0 := by
  unfold signMask
  rw [sshiftRight_sign hw]
  split
  · exact allOnes_and
  · exact zero_and

/-- The mask, as an integer. -/
theorem toInt_mask (hn : n + 1 < w) : (BitVec.ofNat w (2 ^ n - 1)).toInt = 2 ^ n - 1 := by
  have h1 : 0 < 2 ^ n := Nat.pow_pos (by decide)
  have hlt : 2 ^ n < 2 ^ (w - 1) := Nat.pow_lt_pow_right (by decide) (by omega)
  have hw : 2 ^ w = 2 ^ (w - 1) * 2 := by rw [← Nat.pow_succ]; congr 1; omega
  have hnat : (BitVec.ofNat w (2 ^ n - 1)).toNat = 2 ^ n - 1 := by
    rw [toNat_ofNat]
    exact Nat.mod_eq_of_lt (by omega)
  rw [toInt_eq_toNat_cond, hnat, if_pos (by omega)]
  push_cast [Nat.one_le_two_pow]
  rfl

/-- Adding the bias does not overflow. -/
theorem toInt_add_signMask (hn : n + 1 < w) (x : BitVec w) :
    (x + signMask x n).toInt = x.toInt + if x.toInt < 0 then 2 ^ n - 1 else 0 := by
  have hlo := le_toInt x
  have hhi := toInt_lt (x := x)
  have h1 : (0 : Int) < 2 ^ n := Int.pow_pos (by decide)
  have hlt : (2 : Int) ^ n < 2 ^ (w - 1) := by
    have := @Nat.pow_lt_pow_right 2 n (w - 1) (by decide) (by omega)
    exact_mod_cast this
  have hw : (2 : Int) ^ w = 2 ^ (w - 1) * 2 := by
    rw [← pow_succ]
    congr 1
    omega
  rw [signMask_eq (by omega)]
  split
  next h =>
    rw [toInt_add, toInt_mask hn]
    apply Int.bmod_eq_of_le
    · push_cast
      rw [hw]
      omega
    · push_cast
      rw [hw]
      omega
  next => simp

/-- The biased shift is the quotient, rounded toward zero. -/
theorem toInt_biasedShift (hn : n + 1 < w) (x : BitVec w) :
    ((x + signMask x n).sshiftRight n).toInt = x.toInt.tdiv (2 ^ n) := by
  have h1 : (0 : Int) < 2 ^ n := Int.pow_pos (by decide)
  rw [toInt_sshiftRight, toInt_add_signMask hn, Int.shiftRight_eq_div_pow]
  push_cast
  split
  next h => exact ediv_bias h1 h
  next h =>
    rw [add_zero, Int.tdiv_eq_ediv_of_nonneg (by omega)]

end MeuOS.Lib
