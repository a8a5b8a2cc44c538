import Mathlib.Data.List.Perm.Basic
import Mathlib.Data.Nat.Bitwise
import Mathlib.Tactic.Ring

namespace MeuOS.Lib

open List

/-!
# Placing items with a cursor

A cursor walks over a list of items.  Each item starts at the cursor rounded up to the
item's alignment; an advancing item moves the cursor behind its last byte, any other item
leaves it at its own start.

* `alignUp` — rounding up;
* `walk`, `walkEnd` — the starts, and the cursor after the last item;
* `walk_pairwise` — starts never decrease, and advancing items end before the next start.
-/

/-! ### Rounding up -/

/-- The least multiple of `a` that is at least `v`. -/
def alignUp (v a : Nat) : Nat := (v + (a - 1)) / a * a

theorem le_alignUp (v : Nat) {a : Nat} (ha : 0 < a) : v ≤ alignUp v a := by
  have h := Nat.lt_div_mul_add ha (a := v + (a - 1))
  unfold alignUp
  omega

theorem alignUp_lt (v : Nat) {a : Nat} (ha : 0 < a) : alignUp v a < v + a := by
  have h := Nat.div_mul_le_self (v + (a - 1)) a
  unfold alignUp
  omega

theorem dvd_alignUp (v a : Nat) : a ∣ alignUp v a := Dvd.intro_left _ rfl

/-- Clearing the low bits of a word rounds down to a power of two. -/
theorem and_high_bits {w k x : Nat} (hk : k ≤ w) (hx : x < 2 ^ w) :
    x &&& (2 ^ w - 2 ^ k) = x / 2 ^ k * 2 ^ k := by
  have hpos : 0 < 2 ^ k := Nat.two_pow_pos k
  have hle : 2 ^ k ≤ 2 ^ w := Nat.pow_le_pow_right (by decide) hk
  apply Nat.eq_of_testBit_eq
  intro i
  rw [Nat.testBit_and, show 2 ^ w - 2 ^ k = 2 ^ w - ((2 ^ k - 1) + 1) by omega,
    Nat.testBit_two_pow_sub_succ (by omega), Nat.testBit_two_pow_sub_one,
    Nat.testBit_mul_two_pow, Nat.testBit_div_two_pow]
  by_cases hi : i < k
  · simp [hi]
  · by_cases hw : i < w
    · have hki : k ≤ i := by omega
      simp [hi, hw, hki, Nat.sub_add_cancel hki]
    · have : x.testBit i = false :=
        Nat.testBit_lt_two_pow (hx.trans_le (Nat.pow_le_pow_right (by decide) (by omega)))
      have hki : k ≤ i := by omega
      simp [this, Nat.sub_add_cancel hki]

/-! ### The walk -/

section walk

variable {α : Type*} (align size : α → Nat) (adv : α → Bool)

/-- The cursor after an item. -/
def cursorAfter (o : Nat) (x : α) : Nat :=
  alignUp o (align x) + if adv x then size x else 0

/-- The items with their starts, from cursor `o` on. -/
def walk : Nat → List α → List (α × Nat)
  | _, [] => []
  | o, x :: xs => (x, alignUp o (align x)) :: walk (cursorAfter align size adv o x) xs

/-- The cursor behind all items. -/
def walkEnd : Nat → List α → Nat
  | o, [] => o
  | o, x :: xs => walkEnd (cursorAfter align size adv o x) xs

theorem walk_append (o : Nat) (xs ys : List α) :
    walk align size adv o (xs ++ ys)
      = walk align size adv o xs
        ++ walk align size adv (walkEnd align size adv o xs) ys := by
  induction xs generalizing o with
  | nil => rfl
  | cons x xs ih => simp only [cons_append, walk, walkEnd, ih]

theorem walkEnd_append (o : Nat) (xs ys : List α) :
    walkEnd align size adv o (xs ++ ys)
      = walkEnd align size adv (walkEnd align size adv o xs) ys := by
  induction xs generalizing o with
  | nil => rfl
  | cons x xs ih => exact ih _

theorem map_fst_walk (o : Nat) (xs : List α) :
    (walk align size adv o xs).map Prod.fst = xs := by
  induction xs generalizing o with
  | nil => rfl
  | cons x xs ih => simp only [walk, map_cons, ih]

variable {align size adv}

/-- A placed item is one of the items. -/
theorem mem_of_walk {o : Nat} {xs : List α} {p : α × Nat}
    (h : p ∈ walk align size adv o xs) : p.1 ∈ xs := by
  rw [← map_fst_walk align size adv o xs]
  exact mem_map_of_mem h

theorem le_cursorAfter {x : α} (hx : 0 < align x) (o : Nat) :
    o ≤ cursorAfter align size adv o x :=
  (le_alignUp o hx).trans (Nat.le_add_right _ _)

theorem le_walkEnd {xs : List α} (h : ∀ x ∈ xs, 0 < align x) (o : Nat) :
    o ≤ walkEnd align size adv o xs := by
  induction xs generalizing o with
  | nil => exact le_rfl
  | cons x xs ih =>
    have hx := h x mem_cons_self
    exact (le_cursorAfter hx o).trans (ih (fun y hy => h y (mem_cons_of_mem x hy)) _)

/-- A placed item starts at the cursor or later, at a multiple of its alignment, and the
    cursor ends behind it. -/
theorem walk_bounds {xs : List α} (h : ∀ x ∈ xs, 0 < align x) {o : Nat} {p : α × Nat}
    (hp : p ∈ walk align size adv o xs) :
    o ≤ p.2 ∧ align p.1 ∣ p.2
      ∧ (p.2 + if adv p.1 then size p.1 else 0) ≤ walkEnd align size adv o xs := by
  induction xs generalizing o with
  | nil => cases hp
  | cons x xs ih =>
    have hx := h x mem_cons_self
    have hxs : ∀ y ∈ xs, 0 < align y := fun y hy => h y (mem_cons_of_mem x hy)
    rcases mem_cons.mp hp with rfl | hp
    · exact ⟨le_alignUp o hx, dvd_alignUp _ _, le_walkEnd hxs _⟩
    · obtain ⟨hlo, hdvd, hend⟩ := ih hxs hp
      exact ⟨(le_cursorAfter hx o).trans hlo, hdvd, hend⟩

/-- Starts never decrease, and an advancing item ends before the next one starts. -/
theorem walk_pairwise {xs : List α} (h : ∀ x ∈ xs, 0 < align x) (o : Nat) :
    (walk align size adv o xs).Pairwise
      fun p q => p.2 ≤ q.2 ∧ (adv p.1 → p.2 + size p.1 ≤ q.2) := by
  induction xs generalizing o with
  | nil => exact .nil
  | cons x xs ih =>
    have hxs : ∀ y ∈ xs, 0 < align y := fun y hy => h y (mem_cons_of_mem x hy)
    refine pairwise_cons.mpr ⟨fun q hq => ?_, ih hxs _⟩
    have hlo := (walk_bounds hxs hq).1
    unfold cursorAfter at hlo
    refine ⟨by dsimp only; omega, fun hadv => ?_⟩
    rw [if_pos hadv] at hlo
    exact hlo

/-- How far the cursor can get. -/
theorem walkEnd_le {xs : List α} (h : ∀ x ∈ xs, 0 < align x) (o : Nat) :
    walkEnd align size adv o xs ≤ o + (xs.map fun x => size x + align x).sum := by
  induction xs generalizing o with
  | nil => exact le_rfl
  | cons x xs ih =>
    have hx := alignUp_lt o (h x mem_cons_self)
    have hrec := ih (fun y hy => h y (mem_cons_of_mem x hy)) (cursorAfter align size adv o x)
    have hcur : cursorAfter align size adv o x ≤ o + (size x + align x) := by
      unfold cursorAfter
      split <;> omega
    show walkEnd align size adv (cursorAfter align size adv o x) xs ≤ _
    rw [map_cons, sum_cons]
    omega

/-- Every item ends within the sizes and alignments of all of them. -/
theorem walk_end_le {xs : List α} (h : ∀ x ∈ xs, 0 < align x) {o : Nat} {p : α × Nat}
    (hp : p ∈ walk align size adv o xs) :
    p.2 + size p.1 ≤ o + (xs.map fun x => size x + align x).sum := by
  induction xs generalizing o with
  | nil => cases hp
  | cons x xs ih =>
    have hx := alignUp_lt o (h x mem_cons_self)
    rw [map_cons, sum_cons]
    rcases mem_cons.mp hp with rfl | hp
    · dsimp only
      omega
    · have hrec := ih (fun y hy => h y (mem_cons_of_mem x hy)) hp
      have hcur : cursorAfter align size adv o x ≤ o + (size x + align x) := by
        unfold cursorAfter
        split <;> omega
      omega

end walk

end MeuOS.Lib
