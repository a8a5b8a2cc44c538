import MeuOS.Lib.Bytes
import Mathlib.Data.Nat.Digits.Lemmas

namespace MeuOS.Lib

open List

/-!
# Decimal numbers as text

* `decimal n` — the digits of `n`, most significant first, at least one;
* `digitsVal acc bs` — read digits behind a number, with a limit, and `none` at anything else;
* `digitsVal_decimal` — reading the digits of a number below the limit gives it back;
* `digit_of_mem_decimal`, `lt_of_length_decimal`, `length_decimal_le` — what the digits are and
  how many.
-/

/-- A digit's character. -/
def digitByte (d : Nat) : UInt8 := UInt8.ofNat (48 + d)

/-- The decimal digits of `n`. -/
def decimal (n : Nat) : Bytes :=
  if n = 0 then [digitByte 0] else (Nat.digits 10 n).reverse.map digitByte

/-- Read digits behind the number `acc`, as long as it stays at most `limit`. -/
def digitsVal (limit : Nat) : Nat → Bytes → Option Nat
  | acc, [] => some acc
  | acc, c :: cs =>
    if c < 48 ∨ 57 < c then none
    else
      let digit := c.toNat - 48
      if acc > (limit - digit) / 10 then none else digitsVal limit (acc * 10 + digit) cs

theorem decimal_ne_nil (n : Nat) : decimal n ≠ [] := by
  unfold decimal
  split
  next => simp
  next h => simpa using Nat.digits_ne_nil_iff_ne_zero.mpr h

/-- The value of a digit's character. -/
theorem digitByte_toNat {d : Nat} (h : d < 10) : (digitByte d).toNat = 48 + d := by
  unfold digitByte
  rw [UInt8.toNat_ofNat']
  omega

/-- Every character of a decimal number is a digit. -/
theorem digit_of_mem_decimal {n : Nat} {c : UInt8} (h : c ∈ decimal n) :
    48 ≤ c.toNat ∧ c.toNat ≤ 57 := by
  have hdigit : ∃ d, d < 10 ∧ c = digitByte d := by
    unfold decimal at h
    split at h
    next => exact ⟨0, by omega, by simpa using h⟩
    next =>
      obtain ⟨d, hd, rfl⟩ := mem_map.mp h
      exact ⟨d, Nat.digits_lt_base (by omega) (mem_reverse.mp hd), rfl⟩
  obtain ⟨d, hd, rfl⟩ := hdigit
  rw [digitByte_toNat hd]
  omega

/-- The number that digits stand for behind `acc`. -/
def digitsAfter (acc : Nat) (ds : List Nat) : Nat := ds.foldl (fun a d => a * 10 + d) acc

theorem le_digitsAfter (acc : Nat) (ds : List Nat) : acc ≤ digitsAfter acc ds := by
  induction ds generalizing acc with
  | nil => exact Nat.le_refl _
  | cons d ds ih => exact Nat.le_trans (by omega) (ih (acc * 10 + d))

/-- The digits of a number, read from the front. -/
theorem digitsAfter_digits (n : Nat) : digitsAfter 0 (Nat.digits 10 n).reverse = n := by
  unfold digitsAfter
  rw [foldl_reverse]
  conv_rhs => rw [← Nat.ofDigits_digits 10 n, Nat.ofDigits_eq_foldr]
  congr 1
  funext d a
  simp only [Nat.cast_id]
  omega

theorem digitsVal_map {limit : Nat} {ds : List Nat} (hds : ∀ d ∈ ds, d < 10) {acc : Nat}
    (h : digitsAfter acc ds ≤ limit) :
    digitsVal limit acc (ds.map digitByte) = some (digitsAfter acc ds) := by
  induction ds generalizing acc with
  | nil => rfl
  | cons d ds ih =>
    have hd : d < 10 := hds d mem_cons_self
    have hnat := digitByte_toNat hd
    have hle : acc * 10 + d ≤ limit := Nat.le_trans (le_digitsAfter (acc * 10 + d) ds) h
    rw [map_cons, digitsVal, if_neg]
    · simp only [hnat, Nat.add_sub_cancel_left]
      rw [if_neg (by omega)]
      exact ih (fun x hx => hds x (mem_cons_of_mem _ hx)) h
    · rw [UInt8.lt_iff_toNat_lt, UInt8.lt_iff_toNat_lt, hnat]
      have h48 : (48 : UInt8).toNat = 48 := rfl
      have h57 : (57 : UInt8).toNat = 57 := rfl
      omega

/-- Reading the digits of a number gives it back. -/
theorem digitsVal_decimal {limit n : Nat} (h : n ≤ limit) :
    digitsVal limit 0 (decimal n) = some n := by
  unfold decimal
  split
  next h0 =>
    subst h0
    exact @digitsVal_map limit [0] (by simp) 0 (Nat.zero_le _)
  next =>
    have hds : ∀ d ∈ (Nat.digits 10 n).reverse, d < 10 := fun d hd =>
      Nat.digits_lt_base (by omega) (mem_reverse.mp hd)
    rw [digitsVal_map hds, digitsAfter_digits]
    rw [digitsAfter_digits]
    exact h

/-- A number of `k` digits is below `10 ^ k`. -/
theorem lt_of_length_decimal {n k : Nat} (h : (decimal n).length ≤ k) : n < 10 ^ k := by
  unfold decimal at h
  split at h
  next h0 =>
    subst h0
    exact Nat.pow_pos (by omega)
  next =>
    rw [length_map, length_reverse] at h
    exact Nat.lt_of_lt_of_le (Nat.lt_base_pow_length_digits (by omega))
      (Nat.pow_le_pow_right (by omega) h)

/-- A number below `10 ^ k` has at most `k` digits. -/
theorem length_decimal_le {n k : Nat} (hk : 0 < k) (h : n < 10 ^ k) : (decimal n).length ≤ k := by
  unfold decimal
  split
  next => exact hk
  next =>
    rw [length_map, length_reverse]
    exact (Nat.digits_length_le_iff (by omega) n).mpr h

end MeuOS.Lib
