import MeuOS.Lib.Checked
import MeuOS.Lib.KeyTable
import Mathlib.Data.Finset.Card

namespace MeuOS.Lib

open List

/-!
# Arrays that move as they grow

An array in memory of its own is moved to a new block when an element is added and there is no
room left.  Pointers into the block before are not valid any more.

* `Pointer`, `Growing` — an element of a block; an array with its capacity and its block;
* `Growing.deref`, `Growing.store`, `Growing.push` — the accesses and the new element;
* `Growing.find`, `Growing.get` — records found by a key, and added where there is none;
* `Growing.store_find` — a store through a pointer found changes one key;
* `Growing.getAll_block` — the array stays where it is exactly when there is room for the keys
  that it does not have.
-/

/-- A pointer to an element: the block and the index there. -/
structure Pointer where
  block : Nat
  index : Nat
  deriving DecidableEq, Repr

/-- An array with room for `capacity` elements, in a block of its own. -/
@[ext]
structure Growing (α : Type) where
  items : List α
  capacity : Nat
  block : Nat

namespace Growing

section access

variable {ε α : Type}

/-- `*p`. -/
def deref (v : Growing α) (p : Pointer) : Checked ε α :=
  if p.block = v.block then
    match v.items[p.index]? with
    | some a => .ok a
    | none => .fault
  else .fault

/-- `*p = a`. -/
def store (v : Growing α) (p : Pointer) (a : α) : Checked ε (Growing α) :=
  if p.block = v.block ∧ p.index < v.items.length then
    .ok { v with items := v.items.set p.index a }
  else .fault

/-- A new element at the end.  A full array is moved to a block of twice its size; the first block
    has room for `first` elements. -/
def push (first : Nat) (v : Growing α) (a : α) : Growing α :=
  if v.items.length = v.capacity then
    { items := v.items ++ [a]
      capacity := if v.capacity = 0 then first else v.capacity * 2
      block := v.block + 1 }
  else { v with items := v.items ++ [a] }

@[simp] theorem push_items (first : Nat) (v : Growing α) (a : α) :
    (v.push first a).items = v.items ++ [a] := by
  unfold push
  split <;> rfl

/-- A pointer into a block before is of no use. -/
theorem deref_stale {v : Growing α} {p : Pointer} (h : p.block ≠ v.block) :
    v.deref (ε := ε) p = .fault := if_neg h

theorem deref_eq {v : Growing α} {p : Pointer} {a : α} (hb : p.block = v.block)
    (ha : v.items[p.index]? = some a) : v.deref (ε := ε) p = .ok a := by
  simp [deref, hb, ha]

theorem block_of_deref {v : Growing α} {p : Pointer} {a : α} (h : v.deref (ε := ε) p = .ok a) :
    p.block = v.block := by
  by_contra hne
  rw [deref_stale hne] at h
  cases h

end access

/-! ### Records with keys -/

section keys

variable {ε α κ : Type} (key : α → κ)

/-- The keys of the records. -/
def keys (v : Growing α) : List κ := v.items.map key

/-- Two arrays with the same keys at the same place. -/
structure Alike (key : α → κ) (v w : Growing α) : Prop where
  keys : v.keys key = w.keys key
  capacity : v.capacity = w.capacity
  block : v.block = w.block

variable {key}

theorem Alike.refl (v : Growing α) : Alike key v v := ⟨rfl, rfl, rfl⟩

variable {v w : Growing α} {k : κ} {p : Pointer} {first : Nat} {fresh : α}

theorem Alike.trans {u : Growing α} (h : Alike key u v) (h' : Alike key v w) :
    Alike key u w :=
  ⟨h.keys.trans h'.keys, h.capacity.trans h'.capacity, h.block.trans h'.block⟩

@[simp] theorem keys_push (first : Nat) (v : Growing α) (a : α) :
    (v.push first a).keys key = v.keys key ++ [key a] := by
  simp [keys]

variable [DecidableEq κ]

variable (key) in
/-- The pointer to the first record of a key. -/
def find (v : Growing α) (k : κ) : Option Pointer :=
  (v.items.findIdx? fun a => key a = k).map (Pointer.mk v.block)

variable (key) in
/-- The pointer to the record of the key of `fresh`, which is added where there is none. -/
def get (first : Nat) (v : Growing α) (fresh : α) : Growing α × Pointer :=
  match v.find key (key fresh) with
  | some p => (v, p)
  | none => (v.push first fresh, ⟨(v.push first fresh).block, v.items.length⟩)

theorem find_block (h : v.find key k = some p) :
    p.block = v.block := by
  obtain ⟨i, -, rfl⟩ := Option.map_eq_some_iff.mp h
  rfl

/-- A key is found exactly when there is a record of it. -/
theorem find_eq_none : v.find key k = none ↔ k ∉ v.keys key := by
  simp [find, keys]

/-- What a list finds at the index of a key. -/
theorem getElem?_of_findIdx? {l : List α} {i : Nat} (h : l.findIdx? (fun a => key a = k) = some i) :
    ∃ a, l[i]? = some a ∧ key a = k ∧ lookupKey key l k = some a := by
  induction l generalizing i with
  | nil => cases h
  | cons b l ih =>
    rw [findIdx?_cons] at h
    by_cases hb : key b = k
    · simp only [hb, decide_true, if_true] at h
      cases h
      exact ⟨b, rfl, hb, by simp [lookupKey, hb]⟩
    · simp only [hb, decide_false, Bool.false_eq_true, if_false] at h
      obtain ⟨j, hj, rfl⟩ := Option.map_eq_some_iff.mp h
      obtain ⟨a, ha, hk, hl⟩ := ih hj
      exact ⟨a, ha, hk, by simpa [lookupKey, hb] using hl⟩

/-- The record at the pointer found. -/
theorem deref_find (h : v.find key k = some p) :
    ∃ a, v.deref (ε := ε) p = .ok a ∧ key a = k ∧ lookupKey key v.items k = some a := by
  obtain ⟨i, hi, rfl⟩ := Option.map_eq_some_iff.mp h
  obtain ⟨a, ha, hk, hl⟩ := getElem?_of_findIdx? hi
  exact ⟨a, deref_eq rfl ha, hk, hl⟩

/-- A search that fails. -/
theorem lookupKey_of_find_none (h : v.find key k = none) :
    lookupKey key v.items k = none := lookupKey_eq_none.mpr (find_eq_none.mp h)

/-- Where a key is found depends on the keys only. -/
theorem find_congr (hk : v.keys key = w.keys key) (hb : v.block = w.block)
    (k : κ) : v.find key k = w.find key k := by
  have hmap : ∀ l : List α, (l.findIdx? fun a => key a = k) =
      (l.map key).findIdx? (fun k' => decide (k' = k)) := by
    intro l
    rw [findIdx?_map]
    rfl
  unfold find
  unfold keys at hk
  rw [hmap, hmap, hk, hb]

/-! ### The record of a key, found or added -/

theorem get_items (first : Nat) (v : Growing α) (fresh : α) :
    (v.get key first fresh).1.items = touchKey key fresh v.items := by
  unfold get touchKey
  cases hf : v.find key (key fresh) with
  | some p =>
    have hmem : key fresh ∈ v.keys key := by
      by_contra hnot
      rw [find_eq_none.mpr hnot] at hf
      cases hf
    exact (if_pos hmem).symm
  | none =>
    dsimp only
    rw [push_items]
    exact (if_neg (find_eq_none.mp hf)).symm

theorem find_push_self (h : v.find key (key fresh) = none) :
    (v.push first fresh).find key (key fresh) =
      some ⟨(v.push first fresh).block, v.items.length⟩ := by
  unfold find at h ⊢
  rw [Option.map_eq_none_iff] at h
  rw [push_items, findIdx?_append, h]
  simp

theorem find_get_self (first : Nat) (v : Growing α) (fresh : α) :
    (v.get key first fresh).1.find key (key fresh) = some (v.get key first fresh).2 := by
  unfold get
  cases hf : v.find key (key fresh) with
  | some p => exact hf
  | none => exact find_push_self hf

/-- A pointer found before is found again, as long as the array has not moved. -/
theorem find_get_of_find
    (h : v.find key k = some p) (hb : (v.get key first fresh).1.block = v.block) :
    (v.get key first fresh).1.find key k = some p := by
  unfold find at h ⊢
  obtain ⟨i, hi, rfl⟩ := Option.map_eq_some_iff.mp h
  rw [get_items, hb]
  unfold touchKey
  split
  · rw [hi]
    rfl
  · rw [findIdx?_append, hi]
    rfl

/-! ### A store through a pointer found -/

theorem lookupKey_set {l : List α} {i : Nat}
    (h : l.findIdx? (fun a => key a = k) = some i) {a : α} (ha : key a = k) (k' : κ) :
    lookupKey key (l.set i a) k' = if k' = k then some a else lookupKey key l k' := by
  induction l generalizing i with
  | nil => cases h
  | cons b l ih =>
    rw [findIdx?_cons] at h
    by_cases hb : key b = k
    · simp only [hb, decide_true, if_true] at h
      cases h
      by_cases hk' : k' = k
      · simp [lookupKey, ha, hk']
      · simp [lookupKey, ha, hb, hk', Ne.symm hk']
    · simp only [hb, decide_false, Bool.false_eq_true, if_false] at h
      obtain ⟨j, hj, rfl⟩ := Option.map_eq_some_iff.mp h
      have hrest := ih hj
      unfold lookupKey at hrest ⊢
      rw [set_cons_succ, find?_cons, find?_cons]
      by_cases hbk : key b = k'
      · have hne : k' ≠ k := fun hkk => hb (hbk.trans hkk)
        simp [hbk, hne]
      · simpa [hbk] using hrest

/-- A store through the pointer to a record, of a record with its key, changes what the key finds
    and nothing else. -/
theorem store_find (h : v.find key k = some p) {a : α} (ha : key a = k) :
    ∃ v', v.store (ε := ε) p a = .ok v' ∧ v'.block = v.block ∧ v'.capacity = v.capacity ∧
      v'.keys key = v.keys key ∧
      ∀ k', lookupKey key v'.items k' = if k' = k then some a else lookupKey key v.items k' := by
  obtain ⟨i, hi, rfl⟩ := Option.map_eq_some_iff.mp h
  obtain ⟨b, hb, hkb, -⟩ := getElem?_of_findIdx? hi
  have hlt : i < v.items.length := (List.getElem?_eq_some_iff.mp hb).1
  refine ⟨_, if_pos ⟨rfl, hlt⟩, rfl, rfl, ?_, lookupKey_set hi ha⟩
  apply ext_getElem
  · simp [keys]
  · intro j h₁ h₂
    simp only [keys, getElem_map, getElem_set]
    split
    next hij =>
      subst hij
      rw [ha, ← hkb, (List.getElem?_eq_some_iff.mp hb).2]
    next => rfl

/-! ### Growth -/

/-- Searching for one key after the other, with a new record for each key that has none. -/
def getAll (key : α → κ) (first : Nat) (mk : κ → α) (v : Growing α) (ks : List κ) : Growing α :=
  ks.foldl (fun v k => (v.get key first (mk k)).1) v

/-- The number of keys in a list that have no record. -/
def missing (key : α → κ) (v : Growing α) (ks : List κ) : Nat :=
  (ks.toFinset \ (v.keys key).toFinset).card

theorem get_of_mem (h : key fresh ∈ v.keys key) :
    (v.get key first fresh).1 = v := by
  unfold get
  cases hf : v.find key (key fresh) with
  | some p => rfl
  | none => exact absurd h (find_eq_none.mp hf)

theorem get_of_notMem (h : key fresh ∉ v.keys key) :
    (v.get key first fresh).1 = v.push first fresh := by
  unfold get
  rw [find_eq_none.mpr h]

/-- The place of an array only matters for where a search leaves it. -/
theorem Alike.get (h : Alike key v w) (first : Nat) (fresh : α) :
    Alike key (v.get key first fresh).1 (w.get key first fresh).1 := by
  have hlen : v.items.length = w.items.length := by
    simpa [Growing.keys] using congrArg length h.keys
  by_cases hmem : key fresh ∈ v.keys key
  · rw [get_of_mem hmem, get_of_mem (h.keys ▸ hmem)]
    exact h
  · rw [get_of_notMem hmem, get_of_notMem (h.keys ▸ hmem)]
    refine ⟨by rw [keys_push, keys_push, h.keys], ?_, ?_⟩
    · unfold push
      rw [hlen, h.capacity]
      split <;> simp
    · unfold push
      rw [hlen, h.capacity]
      split <;> simp [h.block]

theorem Alike.getAll (h : Alike key v w) (first : Nat) (mk : κ → α)
    (ks : List κ) : Alike key (v.getAll key first mk ks) (w.getAll key first mk ks) := by
  induction ks generalizing v w with
  | nil => exact h
  | cons k ks ih => exact ih (h.get first (mk k))

theorem block_le_get (first : Nat) (v : Growing α) (fresh : α) :
    v.block ≤ (v.get key first fresh).1.block := by
  by_cases hmem : key fresh ∈ v.keys key
  · rw [get_of_mem hmem]
  · rw [get_of_notMem hmem]
    unfold push
    split
    · exact Nat.le_succ _
    · exact le_rfl

/-- There is room for a new element, as the array grows before it is too full. -/
theorem get_fits (hfirst : 0 < first) (h : v.items.length ≤ v.capacity) (fresh : α) :
    (v.get key first fresh).1.items.length ≤ (v.get key first fresh).1.capacity := by
  by_cases hmem : key fresh ∈ v.keys key
  · rwa [get_of_mem hmem]
  · rw [get_of_notMem hmem, push_items, length_append, length_singleton]
    unfold push
    split
    next hfull =>
      dsimp only
      split <;> omega
    next hfull =>
      dsimp only
      omega

theorem block_le_getAll (first : Nat) (mk : κ → α) (v : Growing α) (ks : List κ) :
    v.block ≤ (v.getAll key first mk ks).block := by
  induction ks generalizing v with
  | nil => exact le_rfl
  | cons k ks ih => exact (block_le_get first v (mk k)).trans (ih _)

/-- A key that has a record is not missing. -/
theorem missing_cons_of_mem {ks : List κ} (h : k ∈ v.keys key) :
    v.missing key (k :: ks) = v.missing key ks := by
  unfold missing
  rw [toFinset_cons, Finset.insert_sdiff_of_mem _ (mem_toFinset.mpr h)]

/-- A key without a record is missing until it is added. -/
theorem missing_cons_of_notMem {ks : List κ} (h : key fresh ∉ v.keys key) :
    v.missing key (key fresh :: ks) = (v.push first fresh).missing key ks + 1 := by
  unfold missing
  have hsplit : (key fresh :: ks).toFinset \ (v.keys key).toFinset =
      insert (key fresh) (ks.toFinset \ ((v.push first fresh).keys key).toFinset) := by
    ext k
    simp only [keys_push, toFinset_cons, Finset.mem_sdiff, Finset.mem_insert,
      mem_toFinset, mem_append, mem_singleton]
    constructor
    · rintro ⟨rfl | hk, hnot⟩
      · exact Or.inl rfl
      · by_cases hkey : k = key fresh
        · exact Or.inl hkey
        · exact Or.inr ⟨hk, fun hor => hor.elim hnot hkey⟩
    · rintro (rfl | ⟨hk, hnot⟩)
      · exact ⟨Or.inl rfl, h⟩
      · exact ⟨Or.inr hk, fun hmem => hnot (Or.inl hmem)⟩
  rw [hsplit, Finset.card_insert_of_notMem]
  simp

/-- The array stays in its block exactly when there is room for the keys that have no record. -/
theorem getAll_block {mk : κ → α} (hmk : ∀ k, key (mk k) = k)
    (hfits : v.items.length ≤ v.capacity) (ks : List κ) :
    (v.getAll key first mk ks).block = v.block ↔
      v.items.length + v.missing key ks ≤ v.capacity := by
  induction ks generalizing v with
  | nil => simpa [getAll, missing] using hfits
  | cons k ks ih =>
    have hstep : v.getAll key first mk (k :: ks) =
        (v.get key first (mk k)).1.getAll key first mk ks := rfl
    rw [hstep]
    by_cases hmem : k ∈ v.keys key
    · rw [get_of_mem (by rwa [hmk]), missing_cons_of_mem hmem]
      exact ih hfits
    · have hnew : key (mk k) ∉ v.keys key := by rwa [hmk]
      have hmissing : v.missing key (k :: ks) =
          (v.push first (mk k)).missing key ks + 1 := by
        rw [← missing_cons_of_notMem hnew, hmk]
      rw [get_of_notMem hnew, hmissing]
      by_cases hfull : v.items.length = v.capacity
      · -- The array has moved to another block and never comes back.
        have hblock : (v.push first (mk k)).block = v.block + 1 := by simp [push, hfull]
        have hle : (v.push first (mk k)).block ≤
            ((v.push first (mk k)).getAll key first mk ks).block := block_le_getAll _ _ _ _
        constructor
        · intro heq
          omega
        · intro hroom
          omega
      · have hroom : (v.push first (mk k)).items.length ≤ (v.push first (mk k)).capacity := by
          simp only [push, hfull, if_false, length_append, length_singleton]
          omega
        have hih := ih hroom
        have hblock : (v.push first (mk k)).block = v.block := by simp [push, hfull]
        have hcap : (v.push first (mk k)).capacity = v.capacity := by simp [push, hfull]
        rw [hblock, hcap, push_items, length_append, length_singleton] at hih
        rw [hih]
        omega

end keys

end Growing

end MeuOS.Lib
