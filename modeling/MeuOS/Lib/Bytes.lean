import Mathlib.Data.List.Basic
import Mathlib.Tactic.Ring

namespace MeuOS.Lib

open List

/-!
# Byte strings and fixed-width integers in them

* `leBytes k n` — the low `k` bytes of `n`, least significant first, and `leNat`, which
  reads such a string back (`leNat_leBytes`: modulo `256 ^ k`);
* `beBytes`, `beNat` — the same, most significant first;
* `slice bs off k` — the `k` bytes from `off` on, with the rules that find a piece of a
  concatenation again.
-/

/-- A byte string. -/
abbrev Bytes := List UInt8

/-! ### Little endian -/

/-- The low `k` bytes of `n`, least significant first. -/
def leBytes : Nat → Nat → Bytes
  | 0, _ => []
  | k + 1, n => UInt8.ofNat n :: leBytes k (n / 256)

/-- The number a little-endian byte string stands for. -/
def leNat : Bytes → Nat
  | [] => 0
  | b :: bs => b.toNat + 256 * leNat bs

@[simp] theorem length_leBytes (k n : Nat) : (leBytes k n).length = k := by
  induction k generalizing n with
  | zero => rfl
  | succ k ih => simp [leBytes, ih]

/-- Reading back gives the number modulo what `k` bytes can hold. -/
theorem leNat_leBytes (k n : Nat) : leNat (leBytes k n) = n % 256 ^ k := by
  induction k generalizing n with
  | zero => simp [leBytes, leNat, Nat.mod_one]
  | succ k ih =>
    have hb : (UInt8.ofNat n).toNat = n % 256 := UInt8.toNat_ofNat'
    rw [leBytes, leNat, ih, hb, Nat.pow_succ', Nat.mod_mul]

/-- A number that fits is read back as it was. -/
theorem leNat_leBytes_of_lt {k n : Nat} (h : n < 256 ^ k) : leNat (leBytes k n) = n := by
  rw [leNat_leBytes, Nat.mod_eq_of_lt h]

/-- A byte string is the one of its number. -/
theorem leBytes_leNat (bs : Bytes) : leBytes bs.length (leNat bs) = bs := by
  induction bs with
  | nil => rfl
  | cons b bs ih =>
    have hb : b.toNat < 256 := b.toNat_lt
    have hdiv : (b.toNat + 256 * leNat bs) / 256 = leNat bs := by omega
    have hhead : UInt8.ofNat (b.toNat + 256 * leNat bs) = b := by
      apply UInt8.toNat_inj.mp
      rw [UInt8.toNat_ofNat']
      omega
    rw [length_cons, leNat, leBytes, hdiv, hhead, ih]

/-- Two numbers have the same low bytes exactly when they agree modulo what the bytes hold. -/
theorem leBytes_eq_iff {k a b : Nat} :
    leBytes k a = leBytes k b ↔ a % 256 ^ k = b % 256 ^ k := by
  constructor
  · intro h
    rw [← leNat_leBytes, h, leNat_leBytes]
  · intro h
    rw [← leNat_leBytes, ← leNat_leBytes] at h
    have ha := leBytes_leNat (leBytes k a)
    have hb := leBytes_leNat (leBytes k b)
    rw [length_leBytes] at ha hb
    rw [← ha, h, hb]

theorem leNat_lt (bs : Bytes) : leNat bs < 256 ^ bs.length := by
  induction bs with
  | nil => simp [leNat]
  | cons b bs ih =>
    have hb : b.toNat < 256 := b.toNat_lt
    simp only [leNat, length_cons, pow_succ']
    omega

/-! ### Big endian -/

/-- The low `k` bytes of `n`, most significant first. -/
def beBytes (k n : Nat) : Bytes := (leBytes k n).reverse

/-- The number a big-endian byte string stands for. -/
def beNat (bs : Bytes) : Nat := leNat bs.reverse

@[simp] theorem length_beBytes (k n : Nat) : (beBytes k n).length = k := by simp [beBytes]

theorem beNat_beBytes (k n : Nat) : beNat (beBytes k n) = n % 256 ^ k := by
  rw [beNat, beBytes, reverse_reverse, leNat_leBytes]

/-! ### Pieces of a byte string -/

/-- The `k` bytes of `bs` from `off` on (fewer where `bs` ends). -/
def slice (bs : Bytes) (off k : Nat) : Bytes := (bs.drop off).take k

@[simp] theorem slice_zero_length (bs : Bytes) (off : Nat) : slice bs off 0 = [] := by
  simp [slice]

theorem length_slice (bs : Bytes) {off k : Nat} (h : off + k ≤ bs.length) :
    (slice bs off k).length = k := by
  rw [slice, length_take, length_drop]
  omega

/-- What follows a piece of known length starts at that length. -/
theorem slice_append_right (a b : Bytes) {off : Nat} (k : Nat) (h : a.length ≤ off) :
    slice (a ++ b) off k = slice b (off - a.length) k := by
  rw [slice, slice, drop_append, drop_eq_nil_of_le h, nil_append]

/-- A piece that lies in the first part does not see the second. -/
theorem slice_append_left (a b : Bytes) {off k : Nat} (h : off + k ≤ a.length) :
    slice (a ++ b) off k = slice a off k := by
  rw [slice, slice, drop_append, take_append]
  have hz : k - (a.drop off).length = 0 := by rw [length_drop]; omega
  rw [hz, take_zero, append_nil]

/-- The middle of a concatenation, at its place. -/
theorem slice_append_mid (a b c : Bytes) {off k : Nat} (ho : off = a.length)
    (hk : k = b.length) : slice (a ++ (b ++ c)) off k = b := by
  subst ho hk
  rw [slice_append_right a _ _ le_rfl, Nat.sub_self, slice, drop_zero, take_left]

end MeuOS.Lib
