import Mathlib.Data.List.Basic
import Mathlib.Algebra.Group.Nat.Defs

namespace MeuOS.Lib

open BitVec

/-!
# Flat byte memory

A memory maps 64-bit addresses to bytes.  `Mem.write m a n v` stores the low `n` bytes
of `v` at `a`, least significant byte first, and `Mem.read m a n` reads `n` bytes back
(zero-extended to 64 bits).  The window of an access is the set of addresses `x` with
`(x - a).toNat < n`, which is right across the wrap of the address space.

* `read_write` — a read of no more bytes than were written at the same place gives the
  low bytes of the written value;
* `read_congr`, `write_outside` — the frame rules.
-/

/-- A byte memory. -/
abbrev Mem := BitVec 64 → BitVec 8

/-- `x` is one of the `n` bytes from `a` on. -/
def InWin (a : BitVec 64) (n : Nat) (x : BitVec 64) : Prop := (x - a).toNat < n

instance (a : BitVec 64) (n : Nat) (x : BitVec 64) : Decidable (InWin a n x) :=
  inferInstanceAs (Decidable (_ < _))

/-- Read `n` bytes, least significant first. -/
def Mem.read (m : Mem) (a : BitVec 64) : Nat → BitVec 64
  | 0 => 0
  | n + 1 => (m a).setWidth 64 ||| (Mem.read m (a + 1) n <<< 8)

/-- Write the low `n` bytes of `v`. -/
def Mem.write (m : Mem) (a : BitVec 64) (n : Nat) (v : BitVec 64) : Mem := fun x =>
  if InWin a n x then (v >>> (8 * (x - a).toNat)).setWidth 8 else m x

theorem Mem.write_outside (m : Mem) (a : BitVec 64) (n : Nat) (v x : BitVec 64)
    (h : ¬ InWin a n x) : m.write a n v x = m x := by simp [Mem.write, h]

theorem Mem.write_inside (m : Mem) (a : BitVec 64) (n : Nat) (v x : BitVec 64)
    (h : InWin a n x) : m.write a n v x = (v >>> (8 * (x - a).toNat)).setWidth 8 := by
  simp [Mem.write, h]

/-- Offsets below the size of the address space are told apart. -/
theorem inWin_add (a : BitVec 64) (n i : Nat) (h : i < 2 ^ 64) :
    InWin a n (a + BitVec.ofNat 64 i) ↔ i < n := by
  unfold InWin
  rw [show a + BitVec.ofNat 64 i - a = BitVec.ofNat 64 i by
    rw [BitVec.add_comm, BitVec.add_sub_cancel], BitVec.toNat_ofNat, Nat.mod_eq_of_lt h]

/-- An address of a window is its base plus an offset. -/
theorem InWin.eq_add {a x : BitVec 64} {n : Nat} (h : InWin a n x) :
    ∃ i, i < n ∧ i < 2 ^ 64 ∧ x = a + BitVec.ofNat 64 i :=
  ⟨(x - a).toNat, h, (x - a).isLt, by
    rw [BitVec.ofNat_toNat, BitVec.setWidth_eq, BitVec.add_comm, BitVec.sub_add_cancel]⟩

/-- The byte behind `a` starts the rest of its window. -/
theorem succ_add_ofNat (a : BitVec 64) (i : Nat) :
    a + 1 + BitVec.ofNat 64 i = a + BitVec.ofNat 64 (i + 1) := by
  rw [BitVec.add_assoc, Nat.add_comm i 1, BitVec.ofNat_add]
  rfl

/-- Reads see only the bytes of their window. -/
theorem Mem.read_congr (m m' : Mem) (n : Nat) : ∀ a : BitVec 64,
    (∀ i, i < n → m (a + BitVec.ofNat 64 i) = m' (a + BitVec.ofNat 64 i)) →
      m.read a n = m'.read a n := by
  induction n with
  | zero => intro a _; rfl
  | succ n ih =>
    intro a h
    have h0 : m a = m' a := by simpa using h 0 (Nat.succ_pos n)
    have hs : m.read (a + 1) n = m'.read (a + 1) n := by
      refine ih (a + 1) fun i hi => ?_
      rw [succ_add_ofNat]
      exact h (i + 1) (by omega)
    simp only [Mem.read, h0, hs]

/-- Bit `i` of a read is bit `i % 8` of byte `i / 8`. -/
theorem Mem.getLsbD_read (m : Mem) (n : Nat) : ∀ (a : BitVec 64) (i : Nat), n ≤ 8 →
    (m.read a n).getLsbD i =
      (decide (i < 8 * n) && (m (a + BitVec.ofNat 64 (i / 8))).getLsbD (i % 8)) := by
  induction n with
  | zero => intro a i _; simp [Mem.read]
  | succ n ih =>
    intro a i hn
    simp only [Mem.read, getLsbD_or, getLsbD_setWidth, getLsbD_shiftLeft]
    by_cases hi : i < 8
    · have h0 : i / 8 = 0 := by omega
      have h1 : i % 8 = i := by omega
      simp [hi, h0, h1, show i < 64 by omega, show i < 8 * (n + 1) by omega]
    · have hb : (m a).getLsbD i = false := getLsbD_of_ge _ _ (by omega)
      have hidx : a + 1 + BitVec.ofNat 64 ((i - 8) / 8) = a + BitVec.ofNat 64 (i / 8) := by
        rw [succ_add_ofNat, show (i - 8) / 8 + 1 = i / 8 by omega]
      rw [ih (a + 1) (i - 8) (by omega), hidx, show (i - 8) % 8 = i % 8 by omega, hb]
      by_cases hlt : i < 8 * (n + 1)
      · simp [hi, hlt, show i < 64 by omega, show i - 8 < 8 * n by omega]
      · simp [hlt, show ¬ (i - 8 < 8 * n) by omega]

/-- **Read after write.** Reading `k` of the `n` bytes just written gives the low `k`
    bytes of the value. -/
theorem Mem.read_write (m : Mem) (a v : BitVec 64) {n k : Nat} (hk : k ≤ n) (hn : n ≤ 8) :
    (m.write a n v).read a k = (v.setWidth (8 * k)).setWidth 64 := by
  apply BitVec.eq_of_getLsbD_eq
  intro i hi
  rw [Mem.getLsbD_read _ _ _ _ (by omega)]
  simp only [BitVec.getLsbD_setWidth]
  by_cases hlt : i < 8 * k
  · have hin : InWin a n (a + BitVec.ofNat 64 (i / 8)) :=
      (inWin_add a n (i / 8) (by omega)).mpr (by omega)
    have hoff : (a + BitVec.ofNat 64 (i / 8) - a).toNat = i / 8 := by
      rw [show a + BitVec.ofNat 64 (i / 8) - a = BitVec.ofNat 64 (i / 8) by
        rw [BitVec.add_comm, BitVec.add_sub_cancel], BitVec.toNat_ofNat]
      exact Nat.mod_eq_of_lt (by omega)
    rw [Mem.write_inside _ _ _ _ _ hin, hoff]
    simp only [BitVec.getLsbD_setWidth, BitVec.getLsbD_ushiftRight]
    simp [hlt, hi, show i % 8 < 8 by omega, show 8 * (i / 8) + i % 8 = i by omega]
  · simp [hlt]

/-- A shorter read gives the low bytes of a longer one. -/
theorem Mem.read_le (m : Mem) (a : BitVec 64) {k n : Nat} (hk : k ≤ n) (hn : n ≤ 8) :
    m.read a k = ((m.read a n).setWidth (8 * k)).setWidth 64 := by
  apply eq_of_getLsbD_eq
  intro i hi
  simp only [getLsbD_setWidth]
  rw [Mem.getLsbD_read _ _ _ _ (by omega), Mem.getLsbD_read _ _ _ _ hn]
  by_cases hlt : i < 8 * k
  · simp [hlt, hi, show i < 8 * n by omega]
  · simp [hlt]

end MeuOS.Lib
