import Mathlib.Algebra.Order.Ring.Int
import Mathlib.Tactic.Positivity
import Mathlib.Tactic.Common

namespace MeuOS.Lib

open BitVec

/-!
# Narrow numbers in wide registers

A number of `w` bits is held in a register of `n` bits, extended with zeros or with its sign.

* `ofInt_eq_iff` — registers that hold the same number, up to the register's size;
* `setWidth_ofInt`, `signExtend_ofInt`, `zeroExtend_ofInt` — the numbers that narrowing and
  extension yield;
* `shl_shr`, `shl_sar` — two shifts take a field out of a register and extend it.
-/

/-! ### Numbers in registers -/

theorem two_pow_pos_int (n : Nat) : (0 : Int) < 2 ^ n := by positivity

/-- The number in a register as a natural number. -/
theorem toNat_ofInt_cast (n : Nat) (v : Int) : ((BitVec.ofInt n v).toNat : Int) = v % 2 ^ n := by
  rw [toNat_ofInt, Int.toNat_of_nonneg]
  · push_cast
    rfl
  · push_cast
    exact Int.emod_nonneg v (two_pow_pos_int n).ne'

/-- A register of `n` bits holds a number up to multiples of `2 ^ n`. -/
theorem ofInt_eq_iff {n : Nat} {a b : Int} :
    BitVec.ofInt n a = BitVec.ofInt n b ↔ a % 2 ^ n = b % 2 ^ n := by
  rw [← toNat_inj, ← toNat_ofInt_cast, ← toNat_ofInt_cast, Int.natCast_inj]

/-- The low bits of a register hold the number as well. -/
theorem setWidth_ofInt {m n : Nat} (h : m ≤ n) (v : Int) :
    (BitVec.ofInt n v).setWidth m = BitVec.ofInt m v := by
  rw [← toNat_inj, ← Int.natCast_inj, toNat_setWidth, Int.natCast_mod,
    toNat_ofInt_cast, toNat_ofInt_cast]
  push_cast
  exact Int.emod_emod_of_dvd v (pow_dvd_pow 2 h)

/-- Extension with the sign. -/
theorem signExtend_ofInt (w n : Nat) (v : Int) :
    (BitVec.ofInt w v).signExtend n = BitVec.ofInt n (v.bmod (2 ^ w)) := by
  rw [BitVec.signExtend, toInt_ofInt]

/-- Extension with zeros. -/
theorem zeroExtend_ofInt (w n : Nat) (v : Int) :
    (BitVec.ofInt w v).setWidth n = BitVec.ofInt n (v % 2 ^ w) := by
  rw [← toNat_inj, ← Int.natCast_inj, toNat_setWidth, Int.natCast_mod,
    toNat_ofInt_cast, toNat_ofInt_cast]
  push_cast
  rfl

/-! ### Fields -/

/-- Shifted to the top and back, a field is extended with zeros. -/
theorem shl_shr {n lo w : Nat} (h : lo + w ≤ n) (x : BitVec n) :
    (x <<< (n - lo - w)) >>> (n - w) = (x.extractLsb' lo w).setWidth n := by
  apply eq_of_getLsbD_eq
  intro i hi
  simp only [getLsbD_ushiftRight, getLsbD_shiftLeft, getLsbD_setWidth,
    getLsbD_extractLsb', hi, decide_true, Bool.true_and]
  by_cases hw : i < w
  · have hshift : n - w + i - (n - lo - w) = lo + i := by omega
    rw [hshift]
    simp only [hw, decide_true, Bool.true_and, show n - w + i < n by omega,
      show ¬ n - w + i < n - lo - w by omega, decide_false, Bool.not_false]
  · simp [hw, show ¬ n - w + i < n by omega]

/-- Shifted to the top and back arithmetically, a field is extended with its sign. -/
theorem shl_sar {n lo w : Nat} (hw : 0 < w) (h : lo + w ≤ n) (x : BitVec n) :
    (x <<< (n - lo - w)).sshiftRight (n - w) = (x.extractLsb' lo w).signExtend n := by
  apply eq_of_getLsbD_eq
  intro i hi
  simp only [getLsbD_sshiftRight, getLsbD_shiftLeft, getLsbD_signExtend,
    getLsbD_extractLsb', msb_eq_getLsbD_last, hi, decide_true, Bool.true_and,
    show ¬ n ≤ i by omega, decide_false, Bool.not_false]
  by_cases hi' : i < w
  · have hshift : n - w + i - (n - lo - w) = lo + i := by omega
    rw [hshift, if_pos (show n - w + i < n by omega), if_pos hi']
    simp only [hi', decide_true, Bool.true_and, show n - w + i < n by omega,
      show ¬ n - w + i < n - lo - w by omega, decide_false, Bool.not_false]
  · have hshift : n - 1 - (n - lo - w) = lo + (w - 1) := by omega
    rw [if_neg (show ¬ n - w + i < n by omega), if_neg hi', hshift]
    simp only [show n - 1 < n by omega, show w - 1 < w by omega, decide_true, Bool.true_and,
      show ¬ n - 1 < n - lo - w by omega, decide_false, Bool.not_false]

end MeuOS.Lib
