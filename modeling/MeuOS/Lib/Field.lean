import MeuOS.Lib.Bytes

namespace MeuOS.Lib

open List

/-!
# Fields at their places in a byte string

A format is written by concatenation and read by offset.  `At p off bs` says that `bs` stands
in `p` at `off`; it splits along a concatenation, and each reader has one rule:

* `At.left`, `At.right` — the parts of a concatenated field;
* `At.slice_eq`, `At.getD_eq`, `At.le_eq`, `At.be_eq` — what a reader finds at a field;
* `At.trans` — a field of a field.
-/

/-- The bytes `bs` stand in `p` at `off`. -/
def At (p : Bytes) (off : Nat) (bs : Bytes) : Prop :=
  ∃ pre post, p = pre ++ (bs ++ post) ∧ pre.length = off

/-- The whole is at offset 0. -/
theorem At.self (p : Bytes) : At p 0 p := ⟨[], [], by simp, rfl⟩

/-- The middle of a concatenation. -/
theorem At.mid (a b c : Bytes) : At (a ++ (b ++ c)) a.length b := ⟨a, c, rfl, rfl⟩

variable {p bs a b : Bytes} {off n k : Nat}

/-- The empty field stands everywhere up to the end. -/
theorem At.nil (h : off ≤ p.length) : At p off [] :=
  ⟨p.take off, p.drop off, by simp, by simp [h]⟩

/-- A field ends before the string does. -/
theorem At.le_length (h : At p off bs) :
    off + bs.length ≤ p.length := by
  obtain ⟨pre, post, rfl, rfl⟩ := h
  rw [length_append, length_append]
  omega

/-- The first part of a field. -/
theorem At.left (h : At p off (a ++ b)) : At p off a := by
  obtain ⟨pre, post, rfl, rfl⟩ := h
  exact ⟨pre, b ++ post, by rw [append_assoc], rfl⟩

/-- The second part of a field. -/
theorem At.right (h : At p off (a ++ b)) :
    At p (off + a.length) b := by
  obtain ⟨pre, post, rfl, rfl⟩ := h
  refine ⟨pre ++ a, post, ?_, length_append⟩
  rw [append_assoc, append_assoc]

/-- The second part of a field, where the first has a known length. -/
theorem At.right_of_length (h : At p off (a ++ b))
    (hn : a.length = n) : At p (off + n) b := hn ▸ h.right

/-- A field of a field. -/
theorem At.trans {q : Bytes} (hq : At p off q) (h : At q k bs) :
    At p (off + k) bs := by
  obtain ⟨pre, post, rfl, rfl⟩ := hq
  obtain ⟨pre', post', rfl, rfl⟩ := h
  refine ⟨pre ++ pre', post' ++ post, ?_, length_append⟩
  simp only [append_assoc]

/-- What is appended does not move a field. -/
theorem At.append (h : At p off bs) (q : Bytes) : At (p ++ q) off bs := by
  obtain ⟨pre, post, rfl, rfl⟩ := h
  refine ⟨pre, post ++ q, ?_, rfl⟩
  simp only [append_assoc]

/-- The fields of one length in a row. -/
theorem At.flatMap {α : Type} {f : α → Bytes} (hk : ∀ x, (f x).length = k) (xs : List α)
    {i : Nat} {x : α} (hx : xs[i]? = some x) : At (xs.flatMap f) (k * i) (f x) := by
  induction xs generalizing i with
  | nil => simp at hx
  | cons y ys ih =>
    rw [flatMap_cons]
    rcases i with _ | i
    · cases hx
      exact ⟨[], ys.flatMap f, rfl, rfl⟩
    · obtain ⟨pre, post, hall, hlen⟩ := ih hx
      refine ⟨f y ++ pre, post, by rw [hall, append_assoc], ?_⟩
      rw [length_append, hk, hlen, Nat.mul_succ, Nat.add_comm]

/-- Reading a field as a piece of the string. -/
theorem At.slice_eq (h : At p off bs) (hk : bs.length = k) :
    slice p off k = bs := by
  obtain ⟨pre, post, rfl, rfl⟩ := h
  exact slice_append_mid pre bs post rfl hk.symm

/-- Reading one byte. -/
theorem At.getD_eq {b : UInt8} (h : At p off (b :: bs)) :
    p.getD off 0 = b := by
  obtain ⟨pre, post, rfl, rfl⟩ := h
  rw [getD_eq_getElem?_getD, List.getElem?_append_right le_rfl, Nat.sub_self]
  rfl

/-- Reading a little-endian number. -/
theorem At.le_eq (h : At p off (leBytes k n)) :
    leNat (slice p off k) = n % 256 ^ k := by
  rw [h.slice_eq (length_leBytes k n), leNat_leBytes]

/-- Reading a big-endian number. -/
theorem At.be_eq (h : At p off (beBytes k n)) :
    beNat (slice p off k) = n % 256 ^ k := by
  rw [h.slice_eq (length_beBytes k n), beNat_beBytes]

/-- What stands behind a cut stands in the string. -/
theorem At.drop (h : At p (off + k) bs) : At (p.drop off) k bs := by
  obtain ⟨pre, post, rfl, hlen⟩ := h
  refine ⟨pre.drop off, post, ?_, ?_⟩
  · rw [drop_append, show off - pre.length = 0 by omega, drop_zero]
  · rw [length_drop]
    omega

end MeuOS.Lib
