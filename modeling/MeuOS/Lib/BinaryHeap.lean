import Mathlib.Order.Nat
import Mathlib.Order.Lattice

namespace MeuOS.Lib

/-!
# The order of a binary heap

A heap in an array, by its keys: `f` gives the key at an index, and `n` keys are in use.

* `HeapOrdered`              — no key is below the one of its parent;
* `HeapOrdered.root_le`      — so the first key is the least;
* `HeapUp`, `HeapDown`       — ordered but for one place, which a sift moves up or down;
* `HeapUp.swap`, `HeapDown.swap` — one turn of a sift.
-/

/-- The index of the parent. -/
def heapParent (i : Nat) : Nat := (i - 1) / 2

theorem heapParent_lt {i : Nat} (h : 0 < i) : heapParent i < i := by
  unfold heapParent
  omega

/-- The children of a place. -/
theorem heapParent_eq_iff {i j : Nat} (h : 0 < j) :
    heapParent j = i ↔ j = 2 * i + 1 ∨ j = 2 * i + 2 := by
  unfold heapParent
  omega

variable {α : Type} [LinearOrder α] {f f' : Nat → α} {n i c : Nat}

/-- No key is below the one of its parent. -/
def HeapOrdered (f : Nat → α) (n : Nat) : Prop :=
  ∀ j, 0 < j → j < n → f (heapParent j) ≤ f j

/-- The first key is the least. -/
theorem HeapOrdered.root_le (h : HeapOrdered f n) : ∀ j < n, f 0 ≤ f j := by
  intro j
  induction j using Nat.strongRecOn with
  | ind j ih =>
    intro hj
    rcases Nat.eq_zero_or_pos j with rfl | hpos
    · exact le_rfl
    · have hlt := heapParent_lt hpos
      exact (ih _ hlt (hlt.trans hj)).trans (h j hpos hj)

/-- Ordered but for the key at `i`, which may be below its parent's. -/
structure HeapUp (f : Nat → α) (n i : Nat) : Prop where
  other : ∀ j, 0 < j → j < n → j ≠ i → f (heapParent j) ≤ f j
  across : 0 < i → ∀ j, 0 < j → j < n → heapParent j = i → f (heapParent i) ≤ f j

/-- Ordered but for the key at `i`, which may be above its children's. -/
structure HeapDown (f : Nat → α) (n i : Nat) : Prop where
  other : ∀ j, 0 < j → j < n → heapParent j ≠ i → f (heapParent j) ≤ f j
  across : 0 < i → ∀ j, 0 < j → j < n → heapParent j = i → f (heapParent i) ≤ f j

/-- Two keys change places. -/
structure Exchanged (f f' : Nat → α) (a b : Nat) : Prop where
  left : f' a = f b
  right : f' b = f a
  rest : ∀ j, j ≠ a → j ≠ b → f' j = f j

/-- One turn of a sift up: the key goes to its parent's place. -/
theorem HeapUp.swap (h : HeapUp f n i) (hi : 0 < i) (hn : i < n) (hlt : f i < f (heapParent i))
    (he : Exchanged f f' (heapParent i) i) : HeapUp f' n (heapParent i) := by
  have hp := heapParent_lt hi
  refine ⟨fun j hj hjn hne => ?_, fun hpos j hj hjn heq => ?_⟩
  · by_cases hji : j = i
    · rw [hji, he.left, he.right]
      exact hlt.le
    · rw [he.rest j hne hji]
      -- the new parent of `j` is the key that went up, the one that came down, or the old one
      by_cases hq : heapParent j = i
      · rw [hq, he.right]
        exact h.across hi j hj hjn hq
      · by_cases hq' : heapParent j = heapParent i
        · rw [hq', he.left]
          exact hlt.le.trans (hq' ▸ h.other j hj hjn hji)
        · rw [he.rest _ hq' hq]
          exact h.other j hj hjn hji
  · have hpp := heapParent_lt hpos
    have hup := h.other _ hpos (hp.trans hn) hp.ne
    rw [he.rest _ hpp.ne (hpp.trans hp).ne]
    by_cases hji : j = i
    · rw [hji, he.right]
      exact hup
    · rw [he.rest j (by rintro rfl; exact (heapParent_lt hj).ne heq) hji]
      exact hup.trans (heq ▸ h.other j hj hjn hji)

/-- One turn of a sift down: the key changes places with its least child. -/
theorem HeapDown.swap (h : HeapDown f n i) (hc : 0 < c) (hn : c < n) (hparent : heapParent c = i)
    (hlt : f c < f i) (hleast : ∀ j, 0 < j → j < n → heapParent j = i → f c ≤ f j)
    (he : Exchanged f f' i c) : HeapDown f' n c := by
  have hic : i < c := hparent ▸ heapParent_lt hc
  refine ⟨fun j hj hjn hne => ?_, fun _ j hj hjn heq => ?_⟩
  · by_cases hjc : j = c
    · rw [hjc, hparent, he.left, he.right]
      exact hlt.le
    · by_cases hji : j = i
      · -- the parent of the place the child has come to
        subst hji
        have hq := heapParent_lt hj
        rw [he.left, he.rest _ hq.ne (hq.trans hic).ne]
        exact h.across hj c hc hn hparent
      · rw [he.rest j hji hjc]
        by_cases hq : heapParent j = i
        · rw [hq, he.left]
          exact hleast j hj hjn hq
        · rw [he.rest _ hq hne]
          exact h.other j hj hjn hq
  · have hcj : c < j := heq ▸ heapParent_lt hj
    rw [hparent, he.left, he.rest j (hic.trans hcj).ne' hcj.ne', ← heq]
    exact h.other j hj hjn (heq ▸ hic.ne')

end MeuOS.Lib
