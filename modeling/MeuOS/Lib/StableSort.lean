import Mathlib.Data.List.Basic

namespace MeuOS.Lib

open List

/-!
# Stable sorting by the sign of a comparator

* `TotalPreorder` — a comparator whose sign orders the elements of a kind;
* `Rearranged` — the same elements, with those that compare equal in their old order;
* `StablySorted` — what a stable sort returns;
* `Rearranged.swap` — two neighbours in the wrong order may change places;
* `sorted_insert` — an element between what does not exceed it and what does.
-/

/-- A comparator whose sign is a total preorder of the elements in `D`. -/
structure TotalPreorder {α : Type} (D : α → Prop) (cmp : α → α → Int) : Prop where
  /-- Compared the other way round, the sign turns. -/
  flip : ∀ a b, D a → D b → (0 < cmp a b ↔ cmp b a < 0)
  /-- What does not exceed is transitive. -/
  trans : ∀ a b c, D a → D b → D c → cmp a b ≤ 0 → cmp b c ≤ 0 → cmp a c ≤ 0

/-- Every element of a list does not exceed those behind it. -/
def Ascending {α : Type} (cmp : α → α → Int) (xs : List α) : Prop :=
  xs.Pairwise fun a b => cmp a b ≤ 0

/-- A rearrangement that leaves the elements which compare equal in their order. -/
structure Rearranged {α : Type} (cmp : α → α → Int) (xs ys : List α) : Prop where
  /-- The elements are the same. -/
  perm : ys.Perm xs
  /-- The elements that compare equal to one of them are in the same order. -/
  classes : ∀ a ∈ xs,
    (ys.filter fun b => decide (cmp a b = 0)) = xs.filter fun b => decide (cmp a b = 0)

/-- The stable sort of a list. -/
structure StablySorted {α : Type} (cmp : α → α → Int) (xs ys : List α) : Prop
    extends Rearranged cmp xs ys where
  /-- It ascends. -/
  ascending : Ascending cmp ys

section comparator

variable {α : Type} {D : α → Prop} {cmp : α → α → Int}

theorem TotalPreorder.le_of_eq (h : TotalPreorder D cmp) {a b : α} (ha : D a) (hb : D b)
    (hab : cmp a b = 0) : cmp b a ≤ 0 := by
  have hflip := h.flip b a hb ha
  omega

theorem TotalPreorder.le_of_gt (h : TotalPreorder D cmp) {a b : α} (ha : D a) (hb : D b)
    (hab : 0 < cmp a b) : cmp b a ≤ 0 := by
  have hflip := h.flip a b ha hb
  omega

/-- Elements that compare equal to a third one do not exceed each other. -/
theorem TotalPreorder.le_of_class (h : TotalPreorder D cmp) {a b c : α} (ha : D a) (hb : D b)
    (hc : D c) (hab : cmp a b = 0) (hac : cmp a c = 0) : cmp b c ≤ 0 :=
  h.trans b a c hb ha hc (h.le_of_eq ha hb hab) (Int.le_of_eq hac)

/-! ### Rearrangements -/

theorem Rearranged.refl (xs : List α) : Rearranged cmp xs xs := ⟨List.Perm.refl xs, fun _ _ => rfl⟩

theorem Rearranged.trans {xs ys zs : List α} (h : Rearranged cmp xs ys)
    (h' : Rearranged cmp ys zs) : Rearranged cmp xs zs where
  perm := h'.perm.trans h.perm
  classes a ha := (h'.classes a (h.perm.mem_iff.mpr ha)).trans (h.classes a ha)

/-- Neighbours of which the first exceeds the second may change places. -/
theorem Rearranged.swap (h : TotalPreorder D cmp) {before behind : List α} {p x : α}
    (hD : ∀ a ∈ before ++ p :: x :: behind, D a) (hpx : 0 < cmp p x) :
    Rearranged cmp (before ++ p :: x :: behind) (before ++ x :: p :: behind) where
  perm := (List.Perm.swap p x behind).append_left before
  classes a ha := by
    have hp : D p := hD p (by simp)
    have hx : D x := hD x (by simp)
    -- No class has both of them.
    have hone : ¬ (cmp a p = 0 ∧ cmp a x = 0) := by
      intro hboth
      have hle := h.le_of_class (hD a ha) hp hx hboth.1 hboth.2
      omega
    by_cases hap : cmp a p = 0
    · have hax : cmp a x ≠ 0 := fun hax => hone ⟨hap, hax⟩
      simp [filter_append, hap, hax]
    · simp [filter_append, filter_cons, hap]

/-! ### Insertion -/

/-- An element stands between elements that do not exceed it and elements that do. -/
theorem sorted_insert (h : TotalPreorder D cmp) {before behind : List α} {x : α}
    (hD : ∀ a ∈ before ++ x :: behind, D a) (hsorted : Ascending cmp (before ++ behind))
    (hbehind : ∀ q ∈ behind, 0 < cmp q x) (hlast : ∀ p ∈ before.getLast?, cmp p x ≤ 0) :
    Ascending cmp (before ++ x :: behind) := by
  have hx : D x := hD x (by simp)
  obtain ⟨hleft, hright, hcross⟩ := pairwise_append.mp hsorted
  -- What stands before does not exceed the last of it, which does not exceed the element.
  have hbefore : ∀ p ∈ before, cmp p x ≤ 0 := by
    intro p hp
    rcases eq_nil_or_concat' before with rfl | ⟨front, last, rfl⟩
    · exact absurd hp not_mem_nil
    have hlastx : cmp last x ≤ 0 := hlast last (by simp)
    rcases mem_append.mp hp with hfront | hend
    · have hpl : cmp p last ≤ 0 := by
        have hpair := pairwise_append.mp hleft
        exact hpair.2.2 p hfront last (mem_singleton_self last)
      exact h.trans p last x (hD p (by simp [hfront])) (hD last (by simp)) hx hpl hlastx
    · rw [mem_singleton.mp hend]
      exact hlastx
  refine pairwise_append.mpr ⟨hleft, ?_, ?_⟩
  · refine pairwise_cons.mpr ⟨?_, hright⟩
    intro q hq
    exact h.le_of_gt (hD q (by simp [hq])) hx (hbehind q hq)
  · intro p hp q hq
    rcases mem_cons.mp hq with rfl | hq
    · exact hbefore p hp
    · exact hcross p hp q hq

end comparator

end MeuOS.Lib
