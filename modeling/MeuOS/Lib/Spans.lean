import Mathlib.Data.List.Basic
import Mathlib.Order.Interval.Set.Disjoint
import Mathlib.Algebra.Order.BigOperators.Group.List
import Mathlib.Algebra.Order.Group.Nat
import Mathlib.Algebra.GroupWithZero.Nat
import Mathlib.Order.CompletePartialOrder

namespace MeuOS.Lib

/-!
# Spans handed out one after another

A region is handed out in spans, each starting where the ones before it end, and a span may be
made larger later:

* `Stacked` — each span starts at the sum of the sizes before it;
* `Stacked.pairwise` — stacked spans share no place;
* `Stacked.concat`, `Stacked.widen_last` — a new span, and a larger last one, keep them stacked;
* `Stacked.not_disjoint` — a span that grows before another one runs into it;
* `Grows` — spans stay where they are and never shrink, so spans that meet keep meeting.
-/

/-! ### Spans -/

/-- The places from `start` on, `size` of them. -/
@[ext]
structure Span where
  start : Nat
  size : Nat
  deriving DecidableEq, Repr

/-- The places of a span. -/
def Span.places (s : Span) : Set Nat := Set.Ico s.start (s.start + s.size)

/-- The span with room for `n` places at least. -/
def Span.widen (n : Nat) (s : Span) : Span := { s with size := max s.size n }

@[simp] theorem Span.widen_start (n : Nat) (s : Span) : (s.widen n).start = s.start := rfl

@[simp] theorem Span.widen_size (n : Nat) (s : Span) : (s.widen n).size = max s.size n := rfl

variable {s : Span} {l : List Span} {i : Nat}

/-- A span with room enough stays as it is. -/
theorem Span.widen_eq {n : Nat} (h : n ≤ s.size) : s.widen n = s := by
  ext
  · rfl
  · exact max_eq_left h

/-- What the spans take together. -/
def sizes (l : List Span) : Nat := (l.map Span.size).sum

@[simp] theorem sizes_nil : sizes [] = 0 := rfl

@[simp] theorem sizes_concat (l : List Span) (s : Span) : sizes (l ++ [s]) = sizes l + s.size := by
  simp [sizes]

/-- Two spans meet when each starts before the other ends. -/
theorem Span.disjoint_iff {a b : Span} (ha : 0 < a.size) (hb : 0 < b.size) :
    Disjoint a.places b.places ↔ a.start + a.size ≤ b.start ∨ b.start + b.size ≤ a.start := by
  unfold Span.places
  rw [Set.Ico_disjoint_Ico]
  omega

/-- The spans up to a place take the ones before it and the one at it. -/
theorem sizes_take_succ (hi : i < l.length) :
    sizes (l.take (i + 1)) = sizes (l.take i) + l[i].size := by
  rw [List.take_succ_eq_append_getElem hi, sizes_concat]

/-- A shorter beginning takes no more. -/
theorem sizes_take_le {j : Nat} (hij : i ≤ j) :
    sizes (l.take i) ≤ sizes (l.take j) := by
  unfold sizes
  exact ((List.take_prefix_take_left hij).sublist.map _).sum_le_sum fun _ _ => Nat.zero_le _

/-! ### Stacked spans -/

/-- Each span starts where the ones before it end. -/
def Stacked (l : List Span) : Prop :=
  ∀ i (hi : i < l.length), (l[i]).start = sizes (l.take i)

theorem stacked_nil : Stacked [] := fun _ hi => absurd hi (Nat.not_lt_zero _)

/-- Of two stacked spans the later one starts after the earlier one. -/
theorem Stacked.le (h : Stacked l) {j : Nat} (hj : j < l.length) (hij : i < j) :
    (l[i]).start + (l[i]).size ≤ (l[j]).start := by
  rw [h i (hij.trans hj), h j hj, ← sizes_take_succ (hij.trans hj)]
  exact sizes_take_le hij

/-- Stacked spans share no place. -/
theorem Stacked.pairwise (h : Stacked l) :
    l.Pairwise fun a b => Disjoint a.places b.places := by
  rw [List.pairwise_iff_getElem]
  intro i j hi hj hij
  have hle := h.le hj hij
  unfold Span.places
  rw [Set.Ico_disjoint_Ico]
  omega

/-- A span behind all others keeps them stacked. -/
theorem Stacked.concat (h : Stacked l) (hs : s.start = sizes l) :
    Stacked (l ++ [s]) := by
  intro i hi
  rcases Nat.lt_or_ge i l.length with hlt | hge
  · rw [List.getElem_append_left hlt, List.take_append_of_le_length hlt.le]
    exact h i hlt
  · have hil : i = l.length := by
      rw [List.length_append, List.length_singleton] at hi
      omega
    subst hil
    rw [List.getElem_concat_length rfl, List.take_left, hs]

/-- The last span may be made larger. -/
theorem Stacked.widen_last (h : Stacked l) (hi : i + 1 = l.length)
    (n : Nat) : Stacked (l.modify i (Span.widen n)) := by
  intro j hj
  rw [List.length_modify] at hj
  have htake : (l.modify i (Span.widen n)).take j = l.take j := by
    rw [List.take_modify, List.modify_eq_self (by rw [List.length_take]; omega)]
  rw [List.getElem_modify, htake, ← h j hj]
  split
  · rfl
  · rfl

/-- A stacked span that grows before another one runs into it. -/
theorem Stacked.not_disjoint (h : Stacked l) (hi : i + 1 < l.length)
    {n : Nat} (hn : (l[i]).size < n) (hpos : 0 < (l[i + 1]).size) :
    ¬Disjoint (l[i].widen n).places (l[i + 1]).places := by
  have hnext := h (i + 1) hi
  rw [sizes_take_succ (Nat.lt_of_succ_lt hi), ← h i (Nat.lt_of_succ_lt hi)] at hnext
  rw [Span.disjoint_iff (by rw [Span.widen_size]; omega) hpos, Span.widen_start, Span.widen_size]
  omega

/-! ### Spans that only grow -/

/-- Every span is kept where it is and is no smaller; there may be more. -/
def Grows (l l' : List Span) : Prop :=
  ∀ i (hi : i < l.length), ∃ hi' : i < l'.length,
    (l'[i]).start = (l[i]).start ∧ (l[i]).size ≤ (l'[i]).size

theorem Grows.refl (l : List Span) : Grows l l := fun _ hi => ⟨hi, rfl, le_rfl⟩

/-- A new span at the end. -/
theorem Grows.concat (l : List Span) (s : Span) : Grows l (l ++ [s]) := by
  intro i hi
  refine ⟨by rw [List.length_append]; omega, ?_⟩
  rw [List.getElem_append_left hi]
  exact ⟨rfl, le_rfl⟩

/-- A span made larger. -/
theorem Grows.widen (l : List Span) (i n : Nat) : Grows l (l.modify i (Span.widen n)) := by
  intro j hj
  refine ⟨by rw [List.length_modify]; exact hj, ?_⟩
  rw [List.getElem_modify]
  split
  · exact ⟨rfl, le_max_left _ _⟩
  · exact ⟨rfl, le_rfl⟩

/-- Spans that grow take no less. -/
theorem Grows.sizes_take_le {l' : List Span} (h : Grows l l') :
    ∀ i ≤ l.length, sizes (l.take i) ≤ sizes (l'.take i)
  | 0, _ => by simp
  | i + 1, hi => by
      obtain ⟨hi', -, hsize⟩ := h i hi
      rw [sizes_take_succ hi, sizes_take_succ hi']
      exact Nat.add_le_add (h.sizes_take_le i (Nat.le_of_succ_le hi)) hsize

/-- Spans that meet keep meeting. -/
theorem Grows.not_pairwise {l' : List Span} (h : Grows l l') (hpos : ∀ s ∈ l, 0 < s.size)
    (hl : ¬l.Pairwise fun a b => Disjoint a.places b.places) :
    ¬l'.Pairwise fun a b => Disjoint a.places b.places := by
  rw [List.pairwise_iff_getElem] at hl ⊢
  intro hl'
  refine hl fun i j hi hj hij => ?_
  obtain ⟨hi', hsi, hzi⟩ := h i hi
  obtain ⟨hj', hsj, hzj⟩ := h j hj
  have hpi := hpos _ (List.getElem_mem hi)
  have hpj := hpos _ (List.getElem_mem hj)
  have hap := (Span.disjoint_iff (by omega) (by omega)).mp (hl' i j hi' hj' hij)
  rw [Span.disjoint_iff hpi hpj]
  omega

/-! ### Spans no further than their share -/

/-- Each span starts no later than the ones before it take. -/
def Ahead (l : List Span) : Prop :=
  ∀ i (hi : i < l.length), (l[i]).start ≤ sizes (l.take i)

theorem Stacked.ahead (h : Stacked l) : Ahead l := fun i hi => (h i hi).le

/-- Such spans lie within what all take together. -/
theorem Ahead.within (h : Ahead l) :
    ∀ s ∈ l, s.start + s.size ≤ sizes l := by
  intro s hs
  obtain ⟨i, hi, rfl⟩ := List.getElem_of_mem hs
  have hle := h i hi
  have hall := sizes_take_le (l := l) (show i + 1 ≤ l.length from hi)
  rw [sizes_take_succ hi, List.take_length] at hall
  omega

/-- A span behind all others is no further than its share. -/
theorem Ahead.concat (h : Ahead l) (hs : s.start = sizes l) :
    Ahead (l ++ [s]) := by
  intro i hi
  rcases Nat.lt_or_ge i l.length with hlt | hge
  · rw [List.getElem_append_left hlt, List.take_append_of_le_length hlt.le]
    exact h i hlt
  · have hil : i = l.length := by
      rw [List.length_append, List.length_singleton] at hi
      omega
    subst hil
    rw [List.getElem_concat_length rfl, List.take_left, hs]

/-- A span made larger leaves each no further than its share. -/
theorem Ahead.widen (h : Ahead l) (i n : Nat) :
    Ahead (l.modify i (Span.widen n)) := by
  intro j hj
  have hj0 : j < l.length := by rwa [List.length_modify] at hj
  obtain ⟨_, hstart, -⟩ := Grows.widen l i n j hj0
  rw [hstart]
  exact (h j hj0).trans ((Grows.widen l i n).sizes_take_le j hj0.le)

end MeuOS.Lib
