import Mathlib.Algebra.BigOperators.Intervals
import Mathlib.Algebra.Order.BigOperators.Group.Finset
import Mathlib.Data.Nat.Count

namespace MeuOS.Lib

/-!
# Places of a counting sort

Items `0, …, n - 1` have keys.  A counting sort counts the items of each key, gives every key
the range behind the ranges of the smaller keys, and puts the items one after another into the
ranges of their keys.

* `tally` — the items before `n` with a key;
* `rangeStart` — where the range of a key starts, given the size of each range;
* `sum_tally_le` — no more items are counted than there are;
* `slot_lt`, `slot_inj` — every item's slot lies before the end of the last range, and is its own.
-/

/-- How many of the items before `n` have the key `k`. -/
def tally (key : Nat → Nat) (n k : Nat) : Nat := Nat.count (fun i => key i = k) n

@[simp] theorem tally_zero (key : Nat → Nat) (k : Nat) : tally key 0 k = 0 := Nat.count_zero _

theorem tally_succ (key : Nat → Nat) (n k : Nat) :
    tally key (n + 1) k = tally key n k + if key n = k then 1 else 0 :=
  Nat.count_succ _ _

variable {n k : Nat} {key : Nat → Nat}

theorem tally_mono (key : Nat → Nat) {m : Nat} (h : m ≤ n) (k : Nat) :
    tally key m k ≤ tally key n k :=
  Nat.count_monotone _ h

theorem tally_congr {key' : Nat → Nat} (h : ∀ i < n, key i = key' i) (k : Nat) :
    tally key n k = tally key' n k := by
  induction n with
  | zero => rfl
  | succ n ih =>
    rw [tally_succ, tally_succ, ih fun i hi => h i (by omega), h n (Nat.lt_succ_self n)]

theorem tally_of_forall_ne (h : ∀ i < n, key i ≠ k) :
    tally key n k = 0 :=
  Nat.count_iff_forall_not.mpr h

/-- An item is counted behind itself. -/
theorem tally_lt (key : Nat → Nat) {i : Nat} (hi : i < n) :
    tally key i (key i) < tally key n (key i) := by
  have hle := tally_mono key (Nat.succ_le_of_lt hi) (key i)
  rw [Nat.succ_eq_add_one, tally_succ, if_pos rfl] at hle
  exact hle

/-- Where a key is counted at all, one item is the last of it. -/
theorem exists_last (h : tally key n k ≠ 0) :
    ∃ i < n, key i = k ∧ tally key i k + 1 = tally key n k := by
  induction n with
  | zero => exact absurd (tally_zero key k) h
  | succ n ih =>
    rw [tally_succ] at h ⊢
    by_cases hk : key n = k
    · exact ⟨n, Nat.lt_succ_self n, hk, by rw [if_pos hk]⟩
    · rw [if_neg hk, Nat.add_zero] at h ⊢
      obtain ⟨i, hi, hkey, hlast⟩ := ih h
      exact ⟨i, Nat.lt_succ_of_lt hi, hkey, hlast⟩

/-- The start of the range of key `k`. -/
def rangeStart (size : Nat → Nat) (k : Nat) : Nat := ∑ j ∈ Finset.range k, size j

theorem rangeStart_succ (size : Nat → Nat) (k : Nat) :
    rangeStart size (k + 1) = rangeStart size k + size k :=
  Finset.sum_range_succ _ _

theorem rangeStart_mono (size : Nat → Nat) {j : Nat} (h : j ≤ k) :
    rangeStart size j ≤ rangeStart size k :=
  Finset.sum_le_sum_of_subset_of_nonneg (Finset.range_mono h) fun _ _ _ => Nat.zero_le _

/-- Every item is counted for one key at most. -/
theorem sum_tally_le (key : Nat → Nat) (n m : Nat) : rangeStart (tally key n) m ≤ n := by
  unfold rangeStart
  induction n with
  | zero => simp
  | succ n ih =>
    have hone : ∑ j ∈ Finset.range m, (if key n = j then 1 else 0) ≤ 1 := by
      rw [Finset.sum_ite_eq]
      split <;> omega
    simp only [tally_succ, Finset.sum_add_distrib]
    omega

/-- The slot of item `i` lies before the end of the last range when its key has a range and
the range has room for all items of the key. -/
theorem slot_lt {key size : Nat → Nat} {n m i : Nat} (hi : i < n) (hkey : key i < m)
    (hsize : size (key i) = tally key n (key i)) :
    rangeStart size (key i) + tally key i (key i) < rangeStart size m := by
  have hlt := tally_lt key hi
  have hend := rangeStart_mono size (Nat.succ_le_of_lt hkey)
  rw [Nat.succ_eq_add_one, rangeStart_succ] at hend
  omega

/-- Two items have two slots. -/
theorem slot_inj {size : Nat → Nat} {i j : Nat} (hi : i < n) (hj : j < n)
    (hsizei : size (key i) = tally key n (key i)) (hsizej : size (key j) = tally key n (key j))
    (h : rangeStart size (key i) + tally key i (key i)
      = rangeStart size (key j) + tally key j (key j)) : i = j := by
  rcases Nat.lt_trichotomy (key i) (key j) with hkey | hkey | hkey
  · have := slot_lt hi hkey hsizei
    omega
  · rw [hkey] at h
    rcases Nat.lt_trichotomy i j with hij | hij | hij
    · have := tally_lt key hij
      rw [hkey] at this
      omega
    · exact hij
    · have := tally_lt key hij
      omega
  · have := slot_lt hj hkey hsizej
    omega

end MeuOS.Lib
