import Mathlib.Data.List.Forall2
import Mathlib.Data.List.Nodup

namespace MeuOS.Lib

open List

/-!
# Tables searched by a key

A list of records of which every key names at most one:

* `lookupKey` — the first record of a key;
* `touchKey` — a fresh record at the end, unless the key has one;
* `updateKey` — a change to the record of a key;
* `lookupKey_touchKey`, `lookupKey_updateKey` — what a search finds after either;
* `lookupKey_forall₂` — what a search finds in a table made record by record.
-/

section KeyTable

variable {α κ : Type*} [DecidableEq κ] {key : α → κ}

/-- The first record of a key. -/
def lookupKey (key : α → κ) (l : List α) (k : κ) : Option α := l.find? fun a => key a = k

/-- Appends a record for a key that has none. -/
def touchKey (key : α → κ) (fresh : α) (l : List α) : List α :=
  if key fresh ∈ l.map key then l else l ++ [fresh]

/-- Changes the records of a key. -/
def updateKey (key : α → κ) (k : κ) (f : α → α) (l : List α) : List α :=
  l.map fun a => if key a = k then f a else a

/-- A record found has the key and is in the table. -/
theorem lookupKey_some {l : List α} {k : κ} {a : α} (h : lookupKey key l k = some a) :
    key a = k ∧ a ∈ l :=
  ⟨by simpa using find?_some h, mem_of_find?_eq_some h⟩

/-- A search fails on the keys that no record has. -/
theorem lookupKey_eq_none {l : List α} {k : κ} :
    lookupKey key l k = none ↔ k ∉ l.map key := by
  unfold lookupKey
  rw [find?_eq_none]
  constructor
  · intro h hk
    obtain ⟨a, ha, rfl⟩ := mem_map.mp hk
    exact h a ha (by simp)
  · intro h a ha hak
    exact h (mem_map.mpr ⟨a, ha, by simpa using hak⟩)

/-- With distinct keys a record is the one its key finds. -/
theorem lookupKey_of_mem {l : List α} (hn : (l.map key).Nodup) {a : α} (ha : a ∈ l) :
    lookupKey key l (key a) = some a := by
  cases hf : lookupKey key l (key a) with
  | none => exact absurd (mem_map.mpr ⟨a, ha, rfl⟩) (lookupKey_eq_none.mp hf)
  | some b =>
    obtain ⟨hk, hb⟩ := lookupKey_some hf
    rw [inj_on_of_nodup_map hn hb ha hk]

/-- Touching keeps keys distinct. -/
theorem nodup_touchKey {l : List α} (hn : (l.map key).Nodup) (fresh : α) :
    ((touchKey key fresh l).map key).Nodup := by
  unfold touchKey
  split
  · exact hn
  · rename_i hnot
    rw [map_append, nodup_append]
    refine ⟨hn, by simp, fun a ha b hb hab => hnot ?_⟩
    rw [map_singleton, mem_singleton] at hb
    rwa [← hb, ← hab]

/-- A change that keeps the key keeps all keys. -/
theorem map_key_updateKey {k : κ} {f : α → α} (hf : ∀ a, key (f a) = key a) (l : List α) :
    (updateKey key k f l).map key = l.map key := by
  unfold updateKey
  rw [map_map]
  refine map_congr_left fun a _ => ?_
  show key (if key a = k then f a else a) = key a
  split
  · exact hf a
  · rfl

/-- After touching, a key finds its record, or the fresh one if it had none. -/
theorem lookupKey_touchKey (fresh : α) (l : List α) (k : κ) :
    lookupKey key (touchKey key fresh l) k
      = if k = key fresh then some ((lookupKey key l k).getD fresh) else lookupKey key l k := by
  unfold touchKey
  by_cases hm : key fresh ∈ l.map key
  · rw [if_pos hm]
    split
    · rename_i hk
      subst hk
      cases hf : lookupKey key l (key fresh) with
      | none => exact absurd hm (lookupKey_eq_none.mp hf)
      | some a => rfl
    · rfl
  · rw [if_neg hm]
    have happ : lookupKey key (l ++ [fresh]) k
        = (lookupKey key l k).or (if key fresh = k then some fresh else none) := by
      unfold lookupKey
      rw [find?_append]
      congr 1
      by_cases hk : key fresh = k
      · rw [if_pos hk, find?_cons_of_pos (by simpa using hk)]
      · rw [if_neg hk, find?_cons_of_neg (by simpa using hk)]
        rfl
    rw [happ]
    by_cases hk : k = key fresh
    · subst hk
      rw [if_pos rfl, if_pos rfl, lookupKey_eq_none.mpr hm]
      rfl
    · rw [if_neg hk, if_neg (Ne.symm hk), Option.or_none]

/-- After an update its key finds the changed record, every other key what it found. -/
theorem lookupKey_updateKey {k : κ} {f : α → α} (hf : ∀ a, key (f a) = key a) (l : List α)
    (m : κ) :
    lookupKey key (updateKey key k f l) m
      = if m = k then (lookupKey key l m).map f else lookupKey key l m := by
  induction l with
  | nil =>
    show none = if m = k then Option.map f none else none
    split <;> rfl
  | cons a l ih =>
    have hstep : updateKey key k f (a :: l)
        = (if key a = k then f a else a) :: updateKey key k f l := rfl
    have hkey : key (if key a = k then f a else a) = key a := by
      split
      · exact hf a
      · rfl
    unfold lookupKey at ih ⊢
    rw [hstep]
    by_cases hm : key a = m
    · rw [find?_cons_of_pos (by simpa [hkey] using hm),
        find?_cons_of_pos (by simpa using hm)]
      subst hm
      by_cases hk : key a = k
      · rw [if_pos hk, if_pos hk]
        rfl
      · rw [if_neg hk, if_neg hk]
    · rw [find?_cons_of_neg (by simpa [hkey] using hm),
        find?_cons_of_neg (by simpa using hm)]
      exact ih

/-- In a table made record by record from a list with distinct keys, the key of an element finds
    the element's record. -/
theorem lookupKey_forall₂ {β : Type*} {key' : β → κ} {R : α → β → Prop} {l : List α} {m : List β}
    (h : List.Forall₂ R l m) (hkey : ∀ a b, R a b → key' b = key a) (hn : (l.map key).Nodup)
    {a : α} (ha : a ∈ l) : ∃ b, lookupKey key' m (key a) = some b ∧ R a b := by
  have hkeys : m.map key' = l.map key := by
    clear hn ha
    induction h with
    | nil => rfl
    | cons hR _ ih => rw [map_cons, map_cons, hkey _ _ hR, ih]
  obtain ⟨i, hi, rfl⟩ := getElem_of_mem ha
  have hi' : i < m.length := h.length_eq ▸ hi
  have hR : R l[i] m[i] := by simpa using h.get hi hi'
  refine ⟨m[i], ?_, hR⟩
  rw [← hkey _ _ hR]
  exact lookupKey_of_mem (hkeys ▸ hn) (getElem_mem hi')

end KeyTable

end MeuOS.Lib
