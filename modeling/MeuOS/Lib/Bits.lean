import MeuOS.Lib.Bytes
import Mathlib.Data.Nat.Bitwise

namespace MeuOS.Lib

open List

/-!
# Bit strings

* `bitsOf n v` — the low `n` bits of `v`, most significant first;
* `bitsOf_add` — a number's bits split into the high and the low ones;
* `bitsOf_inj` — numbers that fit are told apart by their bits;
* `bitsOf_prefix` — a bit string in front of another is the number shifted down;
* `byteBits` — the bits of a byte string;
* `lowBits`, `streamBits` — the same with the least significant bits first.
-/

/-- The low `n` bits of `v`, most significant first. -/
def bitsOf : Nat → Nat → List Bool
  | 0, _ => []
  | n + 1, v => v.testBit n :: bitsOf n v

@[simp] theorem length_bitsOf (n v : Nat) : (bitsOf n v).length = n := by
  induction n with
  | zero => rfl
  | succ n ih => rw [bitsOf, length_cons, ih]

variable {n v w m : Nat}

/-- The bit at a place. -/
theorem getElem_bitsOf {i : Nat} (h : i < (bitsOf n v).length) :
    (bitsOf n v)[i] = v.testBit (n - 1 - i) := by
  induction n generalizing i with
  | zero => exact absurd h (Nat.not_lt_zero i)
  | succ n ih =>
    rcases i with _ | i
    · rfl
    · have hi : i < (bitsOf n v).length := Nat.lt_of_succ_lt_succ h
      show (bitsOf n v)[i] = _
      rw [ih hi]
      congr 1
      omega

/-- High bits first, low bits next. -/
theorem bitsOf_add (m n v : Nat) : bitsOf (m + n) v = bitsOf m (v / 2 ^ n) ++ bitsOf n v := by
  induction m with
  | zero => rw [Nat.zero_add]; rfl
  | succ m ih =>
    rw [Nat.succ_add, bitsOf, ih, bitsOf, cons_append, Nat.testBit_div_two_pow,
      Nat.add_comm]

/-- Only the low bits count. -/
theorem bitsOf_mod (n v : Nat) : bitsOf n (v % 2 ^ n) = bitsOf n v := by
  apply ext_getElem
  · rw [length_bitsOf, length_bitsOf]
  · intro i h h'
    rw [getElem_bitsOf, getElem_bitsOf, Nat.testBit_mod_two_pow]
    rw [length_bitsOf] at h
    simp only [Bool.and_eq_right_iff_imp, decide_eq_true_eq]
    omega

/-- Numbers that fit are told apart by their bits. -/
theorem bitsOf_inj (hv : v < 2 ^ n) (hw : w < 2 ^ n) (h : bitsOf n v = bitsOf n w) : v = w := by
  apply Nat.eq_of_testBit_eq
  intro i
  by_cases hi : i < n
  · have hb : ∀ u, (bitsOf n u)[n - 1 - i]? = some (u.testBit i) := by
      intro u
      have hlt : n - 1 - i < (bitsOf n u).length := by
        rw [length_bitsOf]
        omega
      rw [getElem?_eq_getElem hlt, getElem_bitsOf, show n - 1 - (n - 1 - i) = i by omega]
    apply Option.some.inj
    rw [← hb v, ← hb w, h]
  · have hle : 2 ^ n ≤ 2 ^ i := Nat.pow_le_pow_right (by decide) (by omega)
    rw [Nat.testBit_eq_false_of_lt (by omega), Nat.testBit_eq_false_of_lt (by omega)]

/-- A bit string in front of a longer one is the number shifted down. -/
theorem bitsOf_prefix (hv : v < 2 ^ m) (hw : w < 2 ^ n)
    (h : bitsOf m v <+: bitsOf n w) : m ≤ n ∧ w / 2 ^ (n - m) = v := by
  have hmn : m ≤ n := by
    have := h.length_le
    rwa [length_bitsOf, length_bitsOf] at this
  refine ⟨hmn, ?_⟩
  have hsplit := bitsOf_add m (n - m) w
  rw [Nat.add_sub_cancel' hmn] at hsplit
  rw [hsplit] at h
  have heq : bitsOf m v = bitsOf m (w / 2 ^ (n - m)) := by
    rw [prefix_iff_eq_take, length_bitsOf, take_left' (length_bitsOf _ _)] at h
    exact h
  refine (bitsOf_inj hv ?_ heq).symm
  rw [Nat.div_lt_iff_lt_mul (Nat.two_pow_pos _), ← Nat.pow_add, Nat.add_sub_cancel' hmn]
  exact hw

/-- The first bits of a number are those of the number shifted down. -/
theorem take_bitsOf (v : Nat) (h : m ≤ n) :
    (bitsOf n v).take m = bitsOf m (v / 2 ^ (n - m)) := by
  have hsplit := bitsOf_add m (n - m) v
  rw [Nat.add_sub_cancel' h] at hsplit
  rw [hsplit, take_left' (length_bitsOf _ _)]

/-- The last bits of a number are its low ones. -/
theorem drop_bitsOf (v : Nat) (h : m ≤ n) :
    (bitsOf n v).drop m = bitsOf (n - m) v := by
  have hsplit := bitsOf_add m (n - m) v
  rw [Nat.add_sub_cancel' h] at hsplit
  rw [hsplit, drop_left' (length_bitsOf _ _)]

/-- The bits of a byte string, each byte's most significant bit first. -/
def byteBits (bs : Bytes) : List Bool := bs.flatMap fun b => bitsOf 8 b.toNat

theorem byteBits_cons (b : UInt8) (bs : Bytes) :
    byteBits (b :: bs) = bitsOf 8 b.toNat ++ byteBits bs := rfl

theorem byteBits_append (a b : Bytes) : byteBits (a ++ b) = byteBits a ++ byteBits b :=
  flatMap_append

/-! ### Least significant bits first -/

/-- The low `n` bits of `v`, least significant first. -/
def lowBits : Nat → Nat → List Bool
  | 0, _ => []
  | n + 1, v => decide (v % 2 = 1) :: lowBits n (v / 2)

@[simp] theorem length_lowBits (n v : Nat) : (lowBits n v).length = n := by
  induction n generalizing v with
  | zero => rfl
  | succ n ih => rw [lowBits, length_cons, ih]

/-- Low bits first, high bits next. -/
theorem lowBits_add (m n v : Nat) : lowBits (m + n) v = lowBits m v ++ lowBits n (v / 2 ^ m) := by
  induction m generalizing v with
  | zero => simp [lowBits]
  | succ m ih =>
    rw [Nat.succ_add, lowBits, ih, lowBits, cons_append, Nat.div_div_eq_div_mul,
      Nat.pow_succ, Nat.mul_comm]

/-- Only the low bits count. -/
theorem lowBits_mod (n v : Nat) : lowBits n (v % 2 ^ n) = lowBits n v := by
  induction n generalizing v with
  | zero => rfl
  | succ n ih =>
    have hhalf : v % 2 ^ (n + 1) / 2 = v / 2 % 2 ^ n := by
      rw [Nat.pow_succ, Nat.mul_comm, Nat.mod_mul_right_div_self]
    have hodd : v % 2 ^ (n + 1) % 2 = v % 2 := by
      rw [Nat.pow_succ, Nat.mul_comm, Nat.mod_mul_right_mod]
    rw [lowBits, lowBits, hodd, hhalf, ih]

/-- Numbers that fit are told apart by their low bits. -/
theorem lowBits_inj (hv : v < 2 ^ n) (hw : w < 2 ^ n) (h : lowBits n v = lowBits n w) : v = w := by
  induction n generalizing v w with
  | zero => omega
  | succ n ih =>
    rw [lowBits, lowBits, cons.injEq, decide_eq_decide] at h
    rw [Nat.pow_succ] at hv hw
    have hhalf := ih (by omega) (by omega) h.2
    have hodd := h.1
    omega

/-- The bits of a byte string, each byte's least significant bit first. -/
def streamBits (bs : Bytes) : List Bool := bs.flatMap fun b => lowBits 8 b.toNat

theorem streamBits_cons (b : UInt8) (bs : Bytes) :
    streamBits (b :: bs) = lowBits 8 b.toNat ++ streamBits bs := rfl

theorem streamBits_append (a b : Bytes) : streamBits (a ++ b) = streamBits a ++ streamBits b :=
  flatMap_append

@[simp] theorem length_streamBits (bs : Bytes) : (streamBits bs).length = 8 * bs.length := by
  induction bs with
  | nil => rfl
  | cons b bs ih =>
    rw [streamBits_cons, length_append, length_lowBits, ih, length_cons]
    omega

/-- The bits from a byte boundary on. -/
theorem drop_streamBits (bs : Bytes) (n : Nat) :
    (streamBits bs).drop (8 * n) = streamBits (bs.drop n) := by
  induction n generalizing bs with
  | zero => rfl
  | succ n ih =>
    cases bs with
    | nil => simp [streamBits]
    | cons b bs =>
      rw [streamBits_cons, Nat.mul_succ, Nat.add_comm, ← drop_drop,
        drop_left' (length_lowBits _ _), ih, drop_succ_cons]

/-- Byte strings are told apart by their bits. -/
theorem streamBits_inj {a b : Bytes} (h : streamBits a = streamBits b) : a = b := by
  induction a generalizing b with
  | nil =>
    have hlen := congrArg length h
    rw [length_streamBits, length_streamBits, length_nil] at hlen
    exact (length_eq_zero_iff.mp (by omega)).symm
  | cons x a ih =>
    cases b with
    | nil =>
      have hlen := congrArg length h
      rw [length_streamBits, length_streamBits, length_nil, length_cons] at hlen
      omega
    | cons y b =>
      rw [streamBits_cons, streamBits_cons] at h
      obtain ⟨hbyte, hrest⟩ := append_inj h (by rw [length_lowBits, length_lowBits])
      rw [ih hrest, UInt8.toNat_inj.mp
        (lowBits_inj (UInt8.toNat_lt x) (UInt8.toNat_lt y) hbyte)]

end MeuOS.Lib
