import MeuOS.Lib.Checked
import Mathlib.Data.List.Induction

namespace MeuOS.Lib

open List

/-!
# Hash tables with chains in an array

Entries are numbered from 1 on.  A bucket has the number of the entry that was put in last, and the
chain has for each entry the one that was in its bucket before; 0 is no entry.

* `Chains`, `Chains.add`, `chains` — the two arrays, and what they are behind a list of entries;
* `Chained` — the entries that a number leads to;
* `members` — the entries of a bucket, the last one first;
* `chains_chained` — a bucket leads to its members;
* `walkChain`, `walkChain_eq` — a search along a chain ends at its first hit.
-/

/-- The bucket array and the chain array. -/
structure Chains where
  bucket : Nat → Nat
  chain : Nat → Nat

/-- One more entry in front of its bucket. -/
def Chains.add (w : Chains) (b ndx : Nat) : Chains :=
  { bucket := Function.update w.bucket b ndx
    chain := Function.update w.chain ndx (w.bucket b) }

@[simp] theorem Chains.add_bucket (w : Chains) (b ndx i : Nat) :
    (w.add b ndx).bucket i = if i = b then ndx else w.bucket i := Function.update_apply _ _ _ _

@[simp] theorem Chains.add_chain (w : Chains) (b ndx i : Nat) :
    (w.add b ndx).chain i = if i = ndx then w.bucket b else w.chain i :=
  Function.update_apply _ _ _ _

/-- The arrays behind the entries whose buckets are given. -/
def chains (bs : List Nat) : Chains :=
  (bs.zipIdx 1).foldl (fun w p => w.add p.1 p.2) ⟨fun _ => 0, fun _ => 0⟩

/-- The entries that a number leads to. -/
def Chained (chain : Nat → Nat) : Nat → List Nat → Prop
  | i, [] => i = 0
  | i, j :: js => i = j ∧ i ≠ 0 ∧ Chained chain (chain i) js

/-- The entries of a bucket, the last one first. -/
def members (bs : List Nat) (b : Nat) : List Nat :=
  (((bs.zipIdx 1).filter (·.1 == b)).map Prod.snd).reverse

/-! ### The members of a bucket -/

theorem mem_members {bs : List Nat} {b i : Nat} :
    i ∈ members bs b ↔ ∃ j, i = j + 1 ∧ bs[j]? = some b := by
  unfold members
  simp only [mem_reverse, mem_map, mem_filter, Prod.exists, beq_iff_eq,
    mem_zipIdx_iff_le_and_getElem?_sub]
  constructor
  · rintro ⟨_, _, ⟨⟨hle, hget⟩, rfl⟩, rfl⟩
    exact ⟨_, (Nat.sub_add_cancel hle).symm, hget⟩
  · rintro ⟨j, rfl, hget⟩
    exact ⟨b, j + 1, ⟨⟨by omega, by simpa using hget⟩, rfl⟩, rfl⟩

theorem length_members_le (bs : List Nat) (b : Nat) : (members bs b).length ≤ bs.length := by
  unfold members
  rw [length_reverse, length_map]
  exact (length_filter_le _ _).trans (by simp)

theorem members_concat (bs : List Nat) (b' b : Nat) :
    members (bs ++ [b']) b =
      if b' = b then (bs.length + 1) :: members bs b else members bs b := by
  unfold members
  rw [zipIdx_append]
  by_cases h : b' = b
  · simp [h, Nat.add_comm]
  · simp [h]

theorem chains_concat (bs : List Nat) (b : Nat) :
    chains (bs ++ [b]) = (chains bs).add b (bs.length + 1) := by
  unfold chains
  rw [zipIdx_append, foldl_append]
  simp [Nat.add_comm]

/-! ### Where a bucket leads -/

/-- A chain depends on its own entries only. -/
theorem Chained.congr {chain chain' : Nat → Nat} {l : List Nat} {i : Nat}
    (h : Chained chain i l) (hsame : ∀ j ∈ l, chain' j = chain j) : Chained chain' i l := by
  induction l generalizing i with
  | nil => exact h
  | cons j js ih =>
    obtain ⟨rfl, hne, htail⟩ := h
    refine ⟨rfl, hne, ?_⟩
    rw [hsame i mem_cons_self]
    exact ih htail fun k hk => hsame k (mem_cons_of_mem _ hk)

/-- A bucket leads to its members. -/
theorem chains_chained (bs : List Nat) (b : Nat) :
    Chained (chains bs).chain ((chains bs).bucket b) (members bs b) := by
  induction bs using reverseRecOn with
  | nil => rfl
  | append_singleton bs b' ih =>
    -- The new entry has the largest number, so the chains before do not come to it.
    have hold : Chained (chains (bs ++ [b'])).chain ((chains bs).bucket b) (members bs b) := by
      refine ih.congr fun j hj => ?_
      obtain ⟨k, rfl, hk⟩ := mem_members.mp hj
      have hlt : k < bs.length := (List.getElem?_eq_some_iff.mp hk).1
      rw [chains_concat, Chains.add_chain, if_neg (by omega)]
    rw [members_concat]
    by_cases h : b' = b
    · subst h
      have hfirst : (chains (bs ++ [b'])).bucket b' = bs.length + 1 := by
        rw [chains_concat, Chains.add_bucket, if_pos rfl]
      rw [if_pos rfl, hfirst]
      refine ⟨rfl, Nat.succ_ne_zero _, ?_⟩
      have hnext : (chains (bs ++ [b'])).chain (bs.length + 1) = (chains bs).bucket b' := by
        rw [chains_concat, Chains.add_chain, if_pos rfl]
      rw [hnext]
      exact hold
    · have hbucket : (chains (bs ++ [b'])).bucket b = (chains bs).bucket b := by
        rw [chains_concat, Chains.add_bucket, if_neg (Ne.symm h)]
      rw [if_neg h, hbucket]
      exact hold

/-- The arrays have numbers of entries only. -/
theorem chains_le (bs : List Nat) :
    (∀ b, (chains bs).bucket b ≤ bs.length) ∧ ∀ i, (chains bs).chain i ≤ bs.length := by
  induction bs using reverseRecOn with
  | nil => exact ⟨fun _ => le_rfl, fun _ => le_rfl⟩
  | append_singleton bs b' ih =>
    obtain ⟨hbucket, hchain⟩ := ih
    rw [chains_concat, length_append, length_singleton]
    constructor
    · intro b
      rw [Chains.add_bucket]
      split
      · exact le_rfl
      · exact Nat.le_succ_of_le (hbucket b)
    · intro i
      rw [Chains.add_chain]
      split
      · exact Nat.le_succ_of_le (hbucket b')
      · exact Nat.le_succ_of_le (hchain i)

/-! ### The search along a chain -/

section search

variable {ε : Type}

/-- The search for the first hit along a chain of numbers below `n`, for at most `fuel` turns. -/
def walkChain (n : Nat) (hit : Nat → Checked ε Bool) (next : Nat → Checked ε Nat) :
    Nat → Nat → Checked ε (Option Nat)
  | 0, _ => .stuck
  | fuel + 1, i =>
    if i ≠ 0 ∧ i < n then do
      if ← hit i then return some i
      else walkChain n hit next fuel (← next i)
    else return none

/-- The search comes to its end, at the first hit of the chain. -/
theorem walkChain_eq {n : Nat} {hit : Nat → Checked ε Bool} {next : Nat → Checked ε Nat}
    {test : Nat → Bool} {chain : Nat → Nat} {l : List Nat} {fuel i : Nat}
    (h : Chained chain i l)
    (hread : ∀ j ∈ l, j < n ∧ hit j = .ok (test j) ∧ next j = .ok (chain j))
    (hfuel : l.length < fuel) : walkChain n hit next fuel i = .ok (l.find? test) := by
  induction l generalizing i fuel with
  | nil =>
    obtain ⟨fuel, rfl⟩ : ∃ m, fuel = m + 1 := ⟨fuel - 1, by omega⟩
    obtain rfl : i = 0 := h
    rfl
  | cons j js ih =>
    obtain ⟨fuel, rfl⟩ : ∃ m, fuel = m + 1 := ⟨fuel - 1, by omega⟩
    obtain ⟨rfl, hne, htail⟩ := h
    obtain ⟨hlt, hhit, hnext⟩ := hread i mem_cons_self
    unfold walkChain
    rw [if_pos ⟨hne, hlt⟩, hhit, Checked.ok_bind]
    cases htest : test i with
    | true => simp [htest]
    | false =>
      rw [hnext, Checked.ok_bind, find?_cons_of_neg (by simp [htest])]
      exact ih htail (fun k hk => hread k (mem_cons_of_mem _ hk))
        (by simpa using hfuel)

end search

end MeuOS.Lib
