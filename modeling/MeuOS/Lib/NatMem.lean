import MeuOS.Lib.Bytes
import Mathlib.Data.List.GetD
import Mathlib.Logic.Function.Basic

namespace MeuOS.Lib

open List

/-!
# Byte memory at natural addresses

A memory is a function from addresses to bytes.  `bytesAt` reads a piece of it and `poke` writes
one; `peek` and `store` do the same with little-endian numbers.

* `bytesAt_poke`, `peek_store` — what was written is read back;
* `poke_cons`, `poke_concat` — a piece written byte by byte;
* `poke_outside`, `peek_store_disjoint` — what a write leaves alone;
* `peek_congr` — a read sees its own bytes only;
* `copyMem_inside`, `fillMem_inside` — copying and filling.
-/

/-- A memory. -/
abbrev NatMem := Nat → UInt8

/-- The `n` bytes from `a` on. -/
def bytesAt (m : NatMem) (a n : Nat) : Bytes := (List.range n).map fun i => m (a + i)

/-- The bytes `bs` written from `a` on. -/
def poke (m : NatMem) (a : Nat) (bs : Bytes) : NatMem :=
  fun x => if a ≤ x ∧ x < a + bs.length then bs.getD (x - a) 0 else m x

/-- The little-endian number in the `n` bytes from `a` on. -/
def peek (m : NatMem) (a n : Nat) : Nat := leNat (bytesAt m a n)

/-- A number written in `n` bytes from `a` on. -/
def store (m : NatMem) (a n v : Nat) : NatMem := poke m a (leBytes n v)

/-- `n` bytes from `src` on copied to `dst`. -/
def copyMem (m : NatMem) (dst src n : Nat) : NatMem := poke m dst (bytesAt m src n)

/-- `n` bytes from `a` on set to `b`. -/
def fillMem (m : NatMem) (a : Nat) (b : UInt8) (n : Nat) : NatMem := poke m a (List.replicate n b)

/-! ### Pieces -/

@[simp] theorem length_bytesAt (m : NatMem) (a n : Nat) : (bytesAt m a n).length = n := by
  simp [bytesAt]

variable {n i a x : Nat}

theorem getD_bytesAt (m : NatMem) (a : Nat) (h : i < n) :
    (bytesAt m a n).getD i 0 = m (a + i) := by
  simp [bytesAt, getD_eq_getElem?_getD, h]

/-- Pieces are equal where their bytes are. -/
theorem bytesAt_congr {m m' : NatMem} {a' : Nat} (h : ∀ i < n, m' (a' + i) = m (a + i)) :
    bytesAt m' a' n = bytesAt m a n := by
  apply map_congr_left
  intro i hi
  exact h i (mem_range.mp hi)

theorem poke_outside (m : NatMem) {bs : Bytes} (h : x < a ∨ a + bs.length ≤ x) :
    poke m a bs x = m x := by
  unfold poke
  rw [if_neg (by omega)]

theorem poke_inside (m : NatMem) {a i : Nat} {bs : Bytes} (h : i < bs.length) :
    poke m a bs (a + i) = bs.getD i 0 := by
  unfold poke
  rw [if_pos (by omega), Nat.add_sub_cancel_left]

@[simp] theorem poke_nil (m : NatMem) (a : Nat) : poke m a [] = m := by
  funext x
  rw [poke_outside m (by simp; omega)]

/-- A piece is written byte by byte from its front. -/
theorem poke_cons (m : NatMem) (a : Nat) (b : UInt8) (bs : Bytes) :
    poke m a (b :: bs) = poke (Function.update m a b) (a + 1) bs := by
  funext x
  rcases Nat.lt_trichotomy x a with hlt | rfl | hgt
  · rw [poke_outside m (by omega), poke_outside _ (by omega), Function.update_of_ne (by omega)]
  · rw [poke_outside (Function.update m x b) (by omega), Function.update_self]
    exact @poke_inside m x 0 (b :: bs) (Nat.succ_pos _)
  · by_cases hin : x < a + 1 + bs.length
    · obtain ⟨k, rfl⟩ := Nat.exists_eq_add_of_lt hgt
      rw [show a + k + 1 = a + (k + 1) by omega,
        poke_inside m (by rw [length_cons]; omega), getD_cons_succ,
        show a + (k + 1) = a + 1 + k by omega, poke_inside _ (by omega)]
    · rw [poke_outside m (by rw [length_cons]; omega), poke_outside _ (by omega),
        Function.update_of_ne (by omega)]

/-- A byte behind a piece. -/
theorem poke_concat (m : NatMem) (a : Nat) (b : UInt8) (bs : Bytes) :
    Function.update (poke m a bs) (a + bs.length) b = poke m a (bs ++ [b]) := by
  induction bs generalizing m a with
  | nil =>
    rw [nil_append, poke_cons, poke_nil, poke_nil]
    rfl
  | cons c bs ih =>
    rw [cons_append, poke_cons, poke_cons, ← ih, length_cons,
      show a + (bs.length + 1) = a + 1 + bs.length by omega]

/-- What was written is read back. -/
theorem bytesAt_poke (m : NatMem) (a : Nat) (bs : Bytes) :
    bytesAt (poke m a bs) a bs.length = bs := by
  apply ext_getElem
  · simp
  intro i hi hi'
  simp only [bytesAt, getElem_map, getElem_range]
  rw [poke_inside m hi', getD_eq_getElem _ _ hi']

/-! ### Numbers -/

/-- A read sees its own bytes only. -/
theorem peek_congr {m m' : NatMem} (h : ∀ i < n, m' (a + i) = m (a + i)) :
    peek m' a n = peek m a n := by
  unfold peek
  rw [bytesAt_congr h]

/-- A number that fits is read back. -/
theorem peek_store (m : NatMem) (a : Nat) {v : Nat} (h : v < 256 ^ n) :
    peek (store m a n v) a n = v := by
  have hread := bytesAt_poke m a (leBytes n v)
  rw [length_leBytes] at hread
  unfold peek store
  rw [hread, leNat_leBytes_of_lt h]

theorem store_outside (m : NatMem) (v : Nat) (h : x < a ∨ a + n ≤ x) :
    store m a n v x = m x :=
  poke_outside m (by rwa [length_leBytes])

/-- A write leaves numbers beside it alone. -/
theorem peek_store_disjoint (m : NatMem) {b k : Nat} (v : Nat) (h : a + n ≤ b ∨ b + k ≤ a) :
    peek (store m b k v) a n = peek m a n :=
  peek_congr fun i hi => store_outside m v (by omega)

/-! ### Copying and filling -/

theorem copyMem_inside (m : NatMem) (dst src : Nat) (h : i < n) :
    copyMem m dst src n (dst + i) = m (src + i) := by
  unfold copyMem
  rw [poke_inside m (by rwa [length_bytesAt]), getD_bytesAt m src h]

theorem copyMem_outside (m : NatMem) {dst src : Nat} (h : x < dst ∨ dst + n ≤ x) :
    copyMem m dst src n x = m x :=
  poke_outside m (by rwa [length_bytesAt])

theorem fillMem_inside (m : NatMem) (a : Nat) (b : UInt8) (h : i < n) :
    fillMem m a b n (a + i) = b := by
  unfold fillMem
  rw [poke_inside m (by rwa [length_replicate])]
  simp [getD_eq_getElem?_getD, h]

theorem fillMem_outside (m : NatMem) (b : UInt8) (h : x < a ∨ a + n ≤ x) :
    fillMem m a b n x = m x :=
  poke_outside m (by rwa [length_replicate])

end MeuOS.Lib
