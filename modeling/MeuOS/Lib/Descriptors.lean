import Mathlib.Data.List.Basic

namespace MeuOS.Lib

/-!
# Descriptor tables

A table of the descriptors of a process: a small number refers to an open file, or is free.  A
new descriptor is the least free number.

* `Descriptors`, `refers` — a table, and what a number refers to in it;
* `least`, `place`, `release`, `reopen` — the least free number, a new descriptor, `close`, and
  `dup2` with a file in hand;
* `refers_place`, `refers_release`, `refers_reopen` — what every number refers to afterwards;
* `release_place` — a descriptor that is opened and closed again leaves the table as it was.
-/

/-- A table: the files of the numbers from 0 on, and nothing behind them. -/
abbrev Descriptors (δ : Type) : Type := List (Option δ)

namespace Descriptors

variable {δ : Type}

/-- The file a number refers to. -/
def refers (t : Descriptors δ) (fd : Nat) : Option δ := (t[fd]?).join

/-- The least free number. -/
def least (t : Descriptors δ) : Nat := t.findIdx Option.isNone

/-- Let a number refer to a file, or to nothing. -/
def assign (t : Descriptors δ) (fd : Nat) (d : Option δ) : Descriptors δ :=
  (t ++ List.replicate (fd + 1 - t.length) none).set fd d

/-- The table with a new descriptor. -/
def place (t : Descriptors δ) (d : δ) : Descriptors δ := t.assign t.least (some d)

/-- The table without a descriptor. -/
def release (t : Descriptors δ) (fd : Nat) : Descriptors δ := t.assign fd none

/-- The table with a number made to refer to an open file. -/
def reopen (t : Descriptors δ) (fd : Nat) (d : δ) : Descriptors δ := t.assign fd (some d)

theorem refers_assign (t : Descriptors δ) (fd : Nat) (d : Option δ) (k : Nat) :
    (t.assign fd d).refers k = if k = fd then d else t.refers k := by
  unfold assign refers
  by_cases hk : k = fd
  · subst hk
    rw [List.getElem?_set_self (by simp; omega), if_pos rfl]
    rfl
  · rw [List.getElem?_set_ne (fun h => hk h.symm), if_neg hk]
    by_cases hlt : k < t.length
    · rw [List.getElem?_append_left hlt]
    · -- behind the table there is nothing, with or without the padding
      rw [List.getElem?_append_right (by omega), List.getElem?_replicate,
        List.getElem?_eq_none (by omega)]
      split <;> rfl

/-- The least free number is free. -/
@[simp] theorem refers_least (t : Descriptors δ) : t.refers t.least = none := by
  unfold refers least
  cases h : t[t.findIdx Option.isNone]? with
  | none => rfl
  | some o =>
    have hnone := List.findIdx_of_getElem?_eq_some h
    simpa using hnone

theorem refers_place (t : Descriptors δ) (d : δ) (k : Nat) :
    (t.place d).refers k = if k = t.least then some d else t.refers k :=
  refers_assign t _ _ k

@[simp] theorem refers_place_least (t : Descriptors δ) (d : δ) :
    (t.place d).refers t.least = some d := by
  rw [refers_place, if_pos rfl]

theorem refers_release (t : Descriptors δ) (fd k : Nat) :
    (t.release fd).refers k = if k = fd then none else t.refers k :=
  refers_assign t _ _ k

theorem refers_reopen (t : Descriptors δ) (fd : Nat) (d : δ) (k : Nat) :
    (t.reopen fd d).refers k = if k = fd then some d else t.refers k :=
  refers_assign t _ _ k

/-- A descriptor that is opened and closed again leaves the table as it was. -/
theorem release_place (t : Descriptors δ) (d : δ) (k : Nat) :
    ((t.place d).release t.least).refers k = t.refers k := by
  rw [refers_release, refers_place]
  by_cases hk : k = t.least
  · rw [if_pos hk, hk, refers_least]
  · rw [if_neg hk, if_neg hk]

end Descriptors

end MeuOS.Lib
