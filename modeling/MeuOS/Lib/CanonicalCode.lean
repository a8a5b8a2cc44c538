import MeuOS.Lib.Bits
import MeuOS.Lib.CountingSort

namespace MeuOS.Lib

/-!
# Canonical codes of unsorted lengths

Symbols `0, …, n - 1` have lengths; a symbol of length 0 has no word.  The words of each length
are consecutive numbers, in the order of the symbols, behind those that the shorter words begin.

* `CanonicalCode`, `nextCode`, `number`, `IsWord` — the words that lengths assign;
* `Fits` — every number has a word of its length; `Fits.count_le`: no length runs over;
* `shift_ge`, `number_mem` — the numbers of a length are told from the beginnings of longer words
  by comparing them with the first number of the length.
-/

/-- Lengths of symbols. -/
structure CanonicalCode where
  n : Nat
  len : Nat → Nat

namespace CanonicalCode

variable (c : CanonicalCode)

/-- The number of words of a length. -/
def count (k : Nat) : Nat := if k = 0 then 0 else tally c.len c.n k

@[simp] theorem count_zero : c.count 0 = 0 := rfl

theorem count_pos {k : Nat} (h : k ≠ 0) : c.count k = tally c.len c.n k := if_neg h

/-- The first number of a length. -/
def nextCode : Nat → Nat
  | 0 => 0
  | k + 1 => (nextCode k + c.count k) * 2

@[simp] theorem nextCode_one : c.nextCode 1 = 0 := rfl

/-- The number of a symbol. -/
def number (s : Nat) : Nat := c.nextCode (c.len s) + tally c.len s (c.len s)

/-- The word of a symbol. -/
structure IsWord (s : Nat) (w : List Bool) : Prop where
  lt : s < c.n
  used : c.len s ≠ 0
  word : w = bitsOf (c.len s) (c.number s)

/-- Every number has a word of its length. -/
def Fits : Prop := ∀ s < c.n, c.len s ≠ 0 → c.number s < 2 ^ c.len s

variable {c}

theorem IsWord.pos {s : Nat} {w : List Bool} (h : c.IsWord s w) : 0 < w.length := by
  rw [h.word, length_bitsOf]
  exact Nat.pos_of_ne_zero h.used

/-- The numbers of a length are those from its first one on. -/
theorem number_mem {s : Nat} (hs : s < c.n) (hused : c.len s ≠ 0) :
    c.nextCode (c.len s) ≤ c.number s ∧
      c.number s < c.nextCode (c.len s) + c.count (c.len s) := by
  have hlt := tally_lt c.len hs
  rw [c.count_pos hused]
  unfold number
  omega

/-- Behind a length the numbers go on where its own end. -/
theorem nextCode_le {j k : Nat} (h : j < k) :
    (c.nextCode j + c.count j) * 2 ^ (k - j) ≤ c.nextCode k := by
  induction k with
  | zero => exact absurd h (Nat.not_lt_zero j)
  | succ k ih =>
    rw [nextCode]
    rcases Nat.lt_succ_iff_lt_or_eq.mp h with hlt | rfl
    · rw [show k + 1 - j = (k - j) + 1 by omega, Nat.pow_succ, ← Nat.mul_assoc]
      exact Nat.mul_le_mul_right 2 ((ih hlt).trans (Nat.le_add_right _ _))
    · rw [show j + 1 - j = 1 by omega, Nat.pow_one]

/-- The shortest words start with 0. -/
theorem nextCode_eq_zero {k : Nat} (h : ∀ j < k, c.count j = 0) : c.nextCode k = 0 := by
  induction k with
  | zero => rfl
  | succ k ih =>
    rw [nextCode, ih fun j hj => h j (Nat.lt_succ_of_lt hj), h k (Nat.lt_succ_self k)]

/-- A number that is shifted down to a smaller length lies behind the numbers of that length. -/
theorem shift_ge {s j : Nat} (hj : j < c.len s) :
    c.nextCode j + c.count j ≤ c.number s / 2 ^ (c.len s - j) := by
  rw [Nat.le_div_iff_mul_le (Nat.two_pow_pos _)]
  exact (nextCode_le hj).trans (Nat.le_add_right _ _)

/-- The numbers of no length run over. -/
theorem Fits.count_le (h : c.Fits) (k : Nat) : c.nextCode k + c.count k ≤ 2 ^ k := by
  induction k with
  | zero => exact Nat.zero_le _
  | succ k ih =>
    by_cases hnone : c.count (k + 1) = 0
    · rw [hnone, nextCode, Nat.pow_succ]
      omega
    · -- The last symbol of the length has its last number.
      have hcount := c.count_pos (show k + 1 ≠ 0 by omega)
      rw [hcount] at hnone ⊢
      obtain ⟨s, hs, hlen, hlast⟩ := exists_last hnone
      have hlt := h s hs (by omega)
      rw [number, hlen] at hlt
      omega

end CanonicalCode

end MeuOS.Lib
