import Mathlib.Logic.Relation
import Mathlib.Data.List.Basic

namespace MeuOS.Lib

open List

/-!
# Marking by passes

A graph is a list of edges between numbered nodes, and a marking says of each node whether it is
marked.  A pass goes through the edges in order and marks the target of every edge whose source is
marked; passes are repeated until one changes nothing.

* `markPass` — one pass, and whether it has marked a node;
* `markPass_sound` — what a pass marks is reachable;
* `markPass_stable` — a pass that changes nothing leaves the marking closed;
* `markPass_progress` — another pass marks a node that was not marked.
-/

/-- The node is marked. -/
def Marked (marks : List Bool) (i : Nat) : Prop := marks[i]? = some true

instance (marks : List Bool) (i : Nat) : Decidable (Marked marks i) :=
  inferInstanceAs (Decidable (_ = _))

/-- Follow one edge: mark its target if its source is marked and the target is not. -/
def markEdge (st : List Bool × Bool) (e : Nat × Nat) : List Bool × Bool :=
  if Marked st.1 e.1 ∧ st.1[e.2]? = some false then (st.1.set e.2 true, true) else st

/-- Follow the edges in order. -/
def markPass (edges : List (Nat × Nat)) (st : List Bool × Bool) : List Bool × Bool :=
  edges.foldl markEdge st

/-- The number of nodes that are not marked. -/
def unmarked (marks : List Bool) : Nat := marks.count false

variable {marks : List Bool} {i : Nat} {st : List Bool × Bool} {edges : List (Nat × Nat)}

theorem marked_set {j : Nat} (hj : marks[j]? = some false) :
    Marked (marks.set j true) i ↔ i = j ∨ Marked marks i := by
  unfold Marked
  rw [getElem?_set]
  split
  · rename_i hji
    rw [← hji, if_pos (List.getElem?_eq_some_iff.mp hj).1]
    exact iff_of_true rfl (Or.inl rfl)
  · rename_i hji
    rw [or_iff_right (Ne.symm hji)]

theorem markEdge_mono (h : Marked st.1 i) (e : Nat × Nat) :
    Marked (markEdge st e).1 i := by
  unfold markEdge
  split
  · rename_i hc
    exact (marked_set hc.2).mpr (Or.inr h)
  · exact h

theorem markEdge_length (st : List Bool × Bool) (e : Nat × Nat) :
    (markEdge st e).1.length = st.1.length := by
  unfold markEdge
  split
  · exact length_set
  · rfl

/-- Marks stay. -/
theorem markPass_mono (edges : List (Nat × Nat))
    (h : Marked st.1 i) : Marked (markPass edges st).1 i := by
  induction edges generalizing st with
  | nil => exact h
  | cons e es ih => exact ih (markEdge_mono h e)

theorem markPass_length (edges : List (Nat × Nat)) (st : List Bool × Bool) :
    (markPass edges st).1.length = st.1.length := by
  induction edges generalizing st with
  | nil => rfl
  | cons e es ih => exact (ih _).trans (markEdge_length st e)

/-- What a pass marks is in every set that has the marked nodes and is closed under the edges. -/
theorem markPass_sound {p : Nat → Prop} (hclosed : ∀ e ∈ edges, p e.1 → p e.2)
    (h : ∀ i, Marked st.1 i → p i) (hi : Marked (markPass edges st).1 i) : p i := by
  induction edges generalizing st with
  | nil => exact h i hi
  | cons e es ih =>
    refine ih (fun e' he' => hclosed e' (mem_cons_of_mem _ he')) (fun j hj => ?_) hi
    unfold markEdge at hj
    split at hj
    · rename_i hc
      rcases (marked_set hc.2).mp hj with rfl | hj
      · exact hclosed e mem_cons_self (h _ hc.1)
      · exact h j hj
    · exact h j hj

/-- A pass that changed something earlier says so. -/
theorem markPass_changed (edges : List (Nat × Nat)) (h : st.2 = true) :
    (markPass edges st).2 = true := by
  induction edges generalizing st with
  | nil => exact h
  | cons e es ih =>
    apply ih
    unfold markEdge
    split
    · rfl
    · exact h

/-- A pass that says it has changed nothing has not, and no edge leads from a marked node to one
    that is not. -/
theorem markPass_stable (h : (markPass edges (marks, false)).2 = false) :
    (markPass edges (marks, false)).1 = marks ∧
      ∀ e ∈ edges, Marked marks e.1 → marks[e.2]? ≠ some false := by
  induction edges with
  | nil => exact ⟨rfl, fun e he => by cases he⟩
  | cons e es ih =>
    -- an edge that marks something would be remembered
    have hno : ¬ (Marked marks e.1 ∧ marks[e.2]? = some false) := by
      intro hc
      have hstep : markEdge (marks, false) e = (marks.set e.2 true, true) := if_pos hc
      have : (markPass (e :: es) (marks, false)).2 = true := by
        show (markPass es (markEdge (marks, false) e)).2 = true
        rw [hstep]
        exact markPass_changed es rfl
      rw [this] at h
      cases h
    have hskip : markPass (e :: es) (marks, false) = markPass es (marks, false) := by
      show markPass es (markEdge (marks, false) e) = _
      rw [show markEdge (marks, false) e = (marks, false) from if_neg hno]
    rw [hskip] at h ⊢
    obtain ⟨hsame, hrest⟩ := ih h
    refine ⟨hsame, fun e' he' hmark => ?_⟩
    rcases mem_cons.mp he' with rfl | he'
    · exact fun hfalse => hno ⟨hmark, hfalse⟩
    · exact hrest e' he' hmark

theorem unmarked_set {j : Nat} (hj : marks[j]? = some false) :
    unmarked (marks.set j true) + 1 = unmarked marks := by
  unfold unmarked
  induction marks generalizing j with
  | nil => cases hj
  | cons b bs ih =>
    rcases j with _ | j
    · rw [getElem?_cons_zero, Option.some.injEq] at hj
      subst hj
      rw [set_cons_zero, count_cons, count_cons]
      rfl
    · rw [getElem?_cons_succ] at hj
      rw [set_cons_succ, count_cons, count_cons, ← ih hj]
      omega

theorem unmarked_markPass (edges : List (Nat × Nat)) (st : List Bool × Bool) :
    unmarked (markPass edges st).1 ≤ unmarked st.1 := by
  induction edges generalizing st with
  | nil => exact Nat.le_refl _
  | cons e es ih =>
    refine Nat.le_trans (ih _) ?_
    unfold markEdge
    split
    · rename_i hc
      have := unmarked_set hc.2
      dsimp only
      omega
    · exact Nat.le_refl _

/-- A pass that has changed something leaves fewer nodes. -/
theorem markPass_progress (h : (markPass edges (marks, false)).2 = true) :
    unmarked (markPass edges (marks, false)).1 < unmarked marks := by
  induction edges with
  | nil => cases h
  | cons e es ih =>
    by_cases hc : Marked marks e.1 ∧ marks[e.2]? = some false
    · show unmarked (markPass es (markEdge (marks, false) e)).1 < _
      rw [show markEdge (marks, false) e = (marks.set e.2 true, true) from if_pos hc]
      have hle := unmarked_markPass es (marks.set e.2 true, true)
      have hset := unmarked_set hc.2
      dsimp only at hle
      omega
    · have hskip : markPass (e :: es) (marks, false) = markPass es (marks, false) := by
        show markPass es (markEdge (marks, false) e) = _
        rw [show markEdge (marks, false) e = (marks, false) from if_neg hc]
      rw [hskip] at h ⊢
      exact ih h

/-- The nodes that a marking started from reach along the edges. -/
def ReachFrom (edge : Nat → Nat → Prop) (roots : List Bool) (i : Nat) : Prop :=
  ∃ r, Marked roots r ∧ Relation.ReflTransGen edge r i

theorem ReachFrom.root {edge : Nat → Nat → Prop} {roots : List Bool}
    (h : Marked roots i) : ReachFrom edge roots i := ⟨i, h, .refl⟩

theorem ReachFrom.step {edge : Nat → Nat → Prop} {roots : List Bool} {i j : Nat}
    (h : ReachFrom edge roots i) (hij : edge i j) : ReachFrom edge roots j := by
  obtain ⟨r, hr, hri⟩ := h
  exact ⟨r, hr, hri.tail hij⟩

/-- A closed marking that has the roots has everything they reach. -/
theorem ReachFrom.marked {edge : Nat → Nat → Prop} {roots : List Bool}
    (hroots : ∀ r, Marked roots r → Marked marks r)
    (hclosed : ∀ a b, edge a b → Marked marks a → Marked marks b) (h : ReachFrom edge roots i) :
    Marked marks i := by
  obtain ⟨r, hr, hri⟩ := h
  induction hri with
  | refl => exact hroots r hr
  | tail _ hstep ih => exact hclosed _ _ hstep ih

end MeuOS.Lib
