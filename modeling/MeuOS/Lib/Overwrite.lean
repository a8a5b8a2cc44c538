import MeuOS.Lib.CheckedBytes
import Mathlib.Data.List.Induction

namespace MeuOS.Lib

open List

/-!
# Overwriting bytes

* `overwrite` — a buffer with some bytes stored at an offset;
* `slice_overwrite`, `slice_overwrite_before`, `slice_overwrite_behind` — what is read back there
  and elsewhere;
* `patchAt` — a checked store;
* `overwriteFrom`, `slice_overwriteFrom` — records of one size, stored one behind the other.
-/

variable {ε : Type}

/-- The buffer with the bytes `b` at `off`. -/
def overwrite (bs : Bytes) (off : Nat) (b : Bytes) : Bytes :=
  bs.take off ++ b ++ bs.drop (off + b.length)

variable {bs b : Bytes} {off : Nat}

@[simp] theorem length_overwrite (h : off + b.length ≤ bs.length) :
    (overwrite bs off b).length = bs.length := by
  simp [overwrite]
  omega

/-- The bytes stored are read back. -/
theorem slice_overwrite (h : off + b.length ≤ bs.length) :
    slice (overwrite bs off b) off b.length = b := by
  have hlen : (bs.take off).length = off := by
    rw [length_take]
    omega
  unfold overwrite
  rw [append_assoc]
  exact slice_append_mid _ _ _ hlen.symm rfl

/-- Bytes in front of the store stay. -/
theorem slice_overwrite_before {i k : Nat} (h : off + b.length ≤ bs.length)
    (hi : i + k ≤ off) : slice (overwrite bs off b) i k = slice bs i k := by
  have hlen : (bs.take off).length = off := by
    rw [length_take]
    omega
  unfold overwrite
  rw [append_assoc, slice_append_left _ _ (by omega)]
  unfold slice
  rw [drop_take, take_take, Nat.min_eq_left (by omega)]

/-- Bytes behind the store stay. -/
theorem slice_overwrite_behind {i k : Nat} (h : off + b.length ≤ bs.length)
    (hi : off + b.length ≤ i) : slice (overwrite bs off b) i k = slice bs i k := by
  have hlen : (bs.take off ++ b).length = off + b.length := by
    rw [length_append, length_take]
    omega
  unfold overwrite
  rw [slice_append_right _ _ _ (by omega), hlen]
  unfold slice
  rw [drop_drop, Nat.add_sub_cancel' hi]

/-- A store of the bytes `b` at `off`. -/
def patchAt (bs : Bytes) (off : Nat) (b : Bytes) : Checked ε Bytes :=
  if off + b.length ≤ bs.length then .ok (overwrite bs off b) else .fault

theorem patchAt_eq_ok {r : Bytes} (h : patchAt (ε := ε) bs off b = .ok r) :
    off + b.length ≤ bs.length ∧ r = overwrite bs off b := by
  unfold patchAt at h
  split at h
  next hle => exact ⟨hle, (Checked.ok.inj h).symm⟩
  next => cases h

/-- The buffer with records of `size` bytes, one behind the other from `off` on. -/
def overwriteFrom (off size : Nat) (bs : Bytes) (rs : List Bytes) : Bytes :=
  rs.zipIdx.foldl (fun bs r => overwrite bs (off + r.2 * size) r.1) bs

theorem overwriteFrom_concat (off size : Nat) (bs : Bytes) (rs : List Bytes) (r : Bytes) :
    overwriteFrom off size bs (rs ++ [r]) =
      overwrite (overwriteFrom off size bs rs) (off + rs.length * size) r := by
  unfold overwriteFrom
  rw [zipIdx_append, foldl_append]
  simp

/-- The records are read back at their places. -/
theorem slice_overwriteFrom {size : Nat} {rs : List Bytes}
    (hsize : ∀ r ∈ rs, r.length = size) (h : off + rs.length * size ≤ bs.length) :
    (overwriteFrom off size bs rs).length = bs.length ∧
      ∀ i r, rs[i]? = some r → slice (overwriteFrom off size bs rs) (off + i * size) size = r := by
  induction rs using List.reverseRecOn with
  | nil => exact ⟨rfl, nofun⟩
  | append_singleton rs last ih =>
    rw [length_append, length_singleton, Nat.add_mul, Nat.one_mul] at h
    obtain ⟨hlen, hread⟩ := ih (fun r hr => hsize r (mem_append_left _ hr)) (by omega)
    have hlast : last.length = size := hsize last (by simp)
    have hin : off + rs.length * size + last.length ≤ (overwriteFrom off size bs rs).length := by
      omega
    rw [overwriteFrom_concat]
    refine ⟨(length_overwrite hin).trans hlen, fun i r hr => ?_⟩
    by_cases hi : i < rs.length
    · have hbefore : i * size + size ≤ rs.length * size := by
        rw [← Nat.succ_mul]
        exact Nat.mul_le_mul_right size hi
      rw [List.getElem?_append_left hi] at hr
      rw [slice_overwrite_before hin (by omega)]
      exact hread i r hr
    · obtain rfl : i = rs.length := by
        have hlt := (List.getElem?_eq_some_iff.mp hr).1
        simp only [length_append, length_singleton] at hlt
        omega
      obtain rfl : last = r := by simpa using hr
      rw [← hlast]
      exact slice_overwrite (hlast.symm ▸ hin)

end MeuOS.Lib
