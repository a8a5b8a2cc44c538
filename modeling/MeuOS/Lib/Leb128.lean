import MeuOS.Lib.Bytes
import Mathlib.Data.Nat.Log

namespace MeuOS.Lib

/-!
# LEB128 numbers

A number in septets, the lowest first, each but the last with its high bit set.  The signed form
takes bit 6 of the last septet as the sign.

* `uleb` — the unsigned form of a number, and `readUleb`, which reads it;
* `readSleb`, `readSleb64` — the signed form, of any size and in 64 bits;
* `readUleb_uleb`, `length_uleb` — the unsigned form reads back, and its size;
* `SignClear` — the last septet leaves the sign alone;
* `readSleb_uleb`, `septets_eq_iff` — an unsigned form that is read as a signed one gives the
  number itself exactly then;
* `bmod_septets_small`, `bmod_septets_wrapped` — the same in 64 bits, for what fits into 56 bits
  and for a number below zero modulo `2 ^ 64`.
-/

/-- The unsigned form: `do { b = n & 0x7f; n >>= 7; if (n) b |= 0x80; } while (n)`. -/
def uleb (n : Nat) : Bytes :=
  if n / 128 = 0 then [UInt8.ofNat (n % 128)]
  else UInt8.ofNat (n % 128 + 128) :: uleb (n / 128)
termination_by n
decreasing_by omega

/-- The unsigned number at the start, and the bytes after it. -/
def readUleb : Bytes → Option (Nat × Bytes)
  | [] => none
  | b :: bs =>
    if b.toNat < 128 then some (b.toNat, bs)
    else (readUleb bs).map fun p => (b.toNat - 128 + 128 * p.1, p.2)

/-- The signed number at the start, and the bytes after it. -/
def readSleb : Bytes → Option (Int × Bytes)
  | [] => none
  | b :: bs =>
    if b.toNat < 64 then some (b.toNat, bs)
    else if b.toNat < 128 then some ((b.toNat : Int) - 128, bs)
    else (readSleb bs).map fun p => ((b.toNat : Int) - 128 + 128 * p.1, p.2)

/-- The signed number at the start in 64 bits: what lies beyond them is lost. -/
def readSleb64 (bs : Bytes) : Option (Int × Bytes) :=
  (readSleb bs).map fun p => (Int.bmod p.1 (2 ^ 64), p.2)

/-! ### The unsigned form -/

/-- A number below 128 is one septet. -/
theorem uleb_small {n : Nat} (h : n < 128) : uleb n = [UInt8.ofNat n] := by
  rw [uleb, if_pos (by omega), Nat.mod_eq_of_lt h]

/-- Another one has its low septet first. -/
theorem uleb_large {n : Nat} (h : 128 ≤ n) :
    uleb n = UInt8.ofNat (n % 128 + 128) :: uleb (n / 128) := by
  rw [uleb, if_neg (by omega)]

theorem toNat_septet {k : Nat} (h : k < 256) : (UInt8.ofNat k).toNat = k := by
  rw [UInt8.toNat_ofNat', Nat.mod_eq_of_lt h]

/-- The cases of the septets of a number. -/
theorem septet_rec {P : Nat → Prop} (small : ∀ n, n < 128 → P n)
    (large : ∀ n, 128 ≤ n → P (n / 128) → P n) (n : Nat) : P n := by
  induction n using Nat.strongRecOn with
  | ind n ih =>
    by_cases h : n < 128
    · exact small n h
    · exact large n (by omega) (ih (n / 128) (by omega))

/-- The unsigned form reads back. -/
@[simp] theorem readUleb_uleb (n : Nat) (rest : Bytes) :
    readUleb (uleb n ++ rest) = some (n, rest) := by
  induction n using septet_rec with
  | small n h =>
    rw [uleb_small h]
    simp [readUleb, toNat_septet (show n < 256 by omega), h]
  | large n h ih =>
    have hb := toNat_septet (show n % 128 + 128 < 256 by omega)
    rw [uleb_large h, List.cons_append, readUleb, hb, if_neg (by omega), ih]
    simp [Nat.mod_add_div]

/-- The number of septets. -/
theorem length_uleb (n : Nat) : (uleb n).length = Nat.log 128 n + 1 := by
  induction n using septet_rec with
  | small n h => rw [uleb_small h, Nat.log_of_lt h, List.length_singleton]
  | large n h ih =>
    rw [uleb_large h, List.length_cons, ih, Nat.log_of_one_lt_of_le (by omega) h]

/-- A number below `128 ^ k` has at most `k` septets. -/
theorem length_uleb_le {k n : Nat} (hk : k ≠ 0) (h : n < 128 ^ k) : (uleb n).length ≤ k := by
  rw [length_uleb]
  exact Nat.log_lt_of_lt_pow' hk h

/-- One from `128 ^ k` on has more. -/
theorem lt_length_uleb {k n : Nat} (h : 128 ^ k ≤ n) : k < (uleb n).length := by
  rw [length_uleb]
  exact Nat.lt_succ_of_le (Nat.le_log_of_pow_le (by omega) h)

/-! ### The unsigned form read as a signed number -/

/-- Bit 6 of the last septet is clear. -/
def SignClear (n : Nat) : Prop := ∀ k : Nat, ¬(64 * 128 ^ k ≤ n ∧ n < 128 * 128 ^ k)

/-- What the septets of a number stand for when the last one carries a sign. -/
def septets (n : Nat) : Int :=
  if n < 64 then n
  else if n < 128 then (n : Int) - 128
  else (n % 128 : Nat) + 128 * septets (n / 128)
termination_by n
decreasing_by omega

theorem septets_large {n : Nat} (h : 128 ≤ n) :
    septets n = (n % 128 : Nat) + 128 * septets (n / 128) := by
  rw [septets, if_neg (by omega), if_neg (by omega)]

/-- The signed reading of an unsigned form. -/
@[simp] theorem readSleb_uleb (n : Nat) (rest : Bytes) :
    readSleb (uleb n ++ rest) = some (septets n, rest) := by
  induction n using septet_rec with
  | small n h =>
    rw [uleb_small h, septets, List.cons_append, readSleb,
      toNat_septet (show n < 256 by omega)]
    by_cases h64 : n < 64
    · simp [h64]
    · simp [h64, h]
  | large n h ih =>
    have hb := toNat_septet (show n % 128 + 128 < 256 by omega)
    rw [uleb_large h, List.cons_append, readSleb, hb, if_neg (by omega), if_neg (by omega), ih,
      septets_large h]
    simp

/-- The sign is that of the septets without the lowest. -/
theorem signClear_large {n : Nat} (h : 128 ≤ n) : SignClear n ↔ SignClear (n / 128) := by
  constructor
  · intro hc k hk
    refine hc (k + 1) ?_
    rw [Nat.pow_succ]
    omega
  · intro hc k hk
    match k with
    | 0 => omega
    | k + 1 =>
      rw [Nat.pow_succ] at hk
      exact hc k (by omega)

theorem signClear_small {n : Nat} (h : n < 128) : SignClear n ↔ n < 64 := by
  constructor
  · intro hc
    have := hc 0
    omega
  · intro h64 k hk
    have : 0 < 128 ^ k := Nat.pow_pos (by omega)
    omega

/-- The septets stand for the number when the sign is clear, and lose a power of 128 else. -/
theorem septets_cases (n : Nat) :
    (SignClear n ∧ septets n = n) ∨
      ∃ k : Nat, ¬SignClear n ∧ 64 * 128 ^ k ≤ n ∧ septets n = (n : Int) - 128 * 128 ^ k := by
  induction n using septet_rec with
  | small n h =>
    rw [signClear_small h, septets]
    by_cases h64 : n < 64
    · exact Or.inl ⟨h64, if_pos h64⟩
    · refine Or.inr ⟨0, h64, by omega, ?_⟩
      rw [if_neg h64, if_pos h]
      simp
  | large n h ih =>
    rw [signClear_large h, septets_large h]
    rcases ih with ⟨hc, hs⟩ | ⟨k, hc, hk, hs⟩
    · exact Or.inl ⟨hc, by omega⟩
    · refine Or.inr ⟨k + 1, hc, ?_, ?_⟩
      · rw [Nat.pow_succ]
        omega
      · rw [hs, Int.pow_succ]
        omega

/-- The signed reading gives the number exactly when the sign is clear. -/
theorem septets_eq_iff (n : Nat) : septets n = n ↔ SignClear n := by
  rcases septets_cases n with ⟨hc, hs⟩ | ⟨k, hc, -, hs⟩
  · exact iff_of_true hs hc
  · refine iff_of_false ?_ hc
    have hp : (0 : Int) < 128 ^ k := Int.pow_pos (by omega)
    omega

/-- The 64-bit reading of an unsigned form. -/
@[simp] theorem readSleb64_uleb (n : Nat) (rest : Bytes) :
    readSleb64 (uleb n ++ rest) = some (Int.bmod (septets n) (2 ^ 64), rest) := by
  rw [readSleb64, readSleb_uleb, Option.map_some]

/-- In 64 bits a number of 56 bits reads as itself exactly when its sign is clear. -/
theorem bmod_septets_small {n : Nat} (h : n < 2 ^ 56) :
    Int.bmod (septets n) (2 ^ 64) = n ↔ SignClear n := by
  rw [← septets_eq_iff]
  have hrange : -2 ^ 57 ≤ septets n ∧ septets n ≤ 2 ^ 56 := by
    rcases septets_cases n with ⟨-, hs⟩ | ⟨k, -, hk, hs⟩
    · omega
    · have hk' : (64 : Int) * 128 ^ k ≤ n := by exact_mod_cast hk
      have hp : (0 : Int) < 128 ^ k := Int.pow_pos (by omega)
      omega
  rw [Int.bmod_eq_of_le (by omega) (by omega)]

/-- A number of 63 bits below zero, modulo `2 ^ 64`, reads as itself. -/
theorem bmod_septets_wrapped {d : Nat} (hd : 0 < d) (h : d ≤ 2 ^ 63) :
    Int.bmod (septets (2 ^ 64 - d)) (2 ^ 64) = -(d : Int) := by
  have hc : SignClear (2 ^ 64 - d) := by
    intro k hk
    by_cases h9 : k < 9
    · have : 128 ^ k ≤ 128 ^ 8 := Nat.pow_le_pow_right (by omega) (by omega)
      omega
    · have : 128 ^ 9 ≤ 128 ^ k := Nat.pow_le_pow_right (by omega) (by omega)
      omega
  rw [(septets_eq_iff _).mpr hc, Int.bmod_def]
  omega

end MeuOS.Lib
