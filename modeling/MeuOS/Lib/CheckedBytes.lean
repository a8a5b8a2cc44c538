import MeuOS.Lib.Bytes
import MeuOS.Lib.Checked

namespace MeuOS.Lib

/-!
# Checked reads of a byte string

* `readAt` — some bytes of a buffer: a `memcpy` out of it, a fault where it leaves the buffer;
* `leAt` — a little-endian number of a buffer;
* `storeIn` — the check of a store into a block of memory;
* `readAt_inside`, `leAt_inside`, `readAt_eq_fault` — the bytes where they are there, and a fault
  exactly where they are not;
* `readAt_sat`, `leAt_sat` — the same, as rules for runs;
* `Src` — a pointer with the length its reader is given, which may be more than there is:
  `Src.Inside` says that it is not, and `Src.byte_sat`, `Src.take_sat` read then.
-/

variable {ε : Type}

/-- `k` bytes of the buffer from `off` on; nothing is read where `k` is 0. -/
def readAt (bs : Bytes) (off k : Nat) : Checked ε Bytes :=
  if k = 0 ∨ off + k ≤ bs.length then .ok (slice bs off k) else .fault

/-- The little-endian number in `k` bytes of the buffer. -/
def leAt (bs : Bytes) (off k : Nat) : Checked ε Nat := do
  let b ← readAt bs off k
  return leNat b

/-- A store of `k` bytes at `off` in a block of `cap` bytes. -/
def storeIn (cap off k : Nat) : Checked ε Unit :=
  if k = 0 ∨ off + k ≤ cap then .ok () else .fault

variable {off k : Nat} {bs : Bytes}

theorem storeIn_inside {cap : Nat} (h : off + k ≤ cap) :
    storeIn (ε := ε) cap off k = .ok () := if_pos (Or.inr h)

theorem readAt_inside (h : off + k ≤ bs.length) :
    readAt (ε := ε) bs off k = .ok (slice bs off k) := if_pos (Or.inr h)

theorem readAt_outside (hk : k ≠ 0) (h : bs.length < off + k) :
    readAt (ε := ε) bs off k = .fault := if_neg (by omega)

/-- A read is a fault exactly where it leaves the buffer. -/
theorem readAt_eq_fault :
    readAt (ε := ε) bs off k = .fault ↔ k ≠ 0 ∧ bs.length < off + k := by
  unfold readAt
  split <;> simp <;> omega

theorem readAt_ne_fault :
    readAt (ε := ε) bs off k ≠ .fault ↔ k = 0 ∨ off + k ≤ bs.length := by
  rw [Ne, readAt_eq_fault]
  omega

theorem leAt_inside (h : off + k ≤ bs.length) :
    leAt (ε := ε) bs off k = .ok (leNat (slice bs off k)) := by
  unfold leAt
  rw [readAt_inside h]
  rfl

theorem leAt_outside (hk : k ≠ 0) (h : bs.length < off + k) :
    leAt (ε := ε) bs off k = .fault := by
  unfold leAt
  rw [readAt_outside hk h]
  rfl

theorem readAt_sat (h : off + k ≤ bs.length) :
    (readAt (ε := ε) bs off k).Sat fun b => b = slice bs off k := by
  rw [readAt_inside h]
  rfl

theorem leAt_sat (h : off + k ≤ bs.length) :
    (leAt (ε := ε) bs off k).Sat fun n => n = leNat (slice bs off k) ∧ n < 256 ^ k := by
  rw [leAt_inside h]
  have hlt := leNat_lt (slice bs off k)
  rw [length_slice bs h] at hlt
  exact ⟨rfl, hlt⟩

/-! ### Pointers with a length -/

/-- A pointer into a buffer and the length a reader is given. -/
structure Src where
  /-- The bytes from the pointer to the end of the buffer. -/
  bytes : Bytes
  /-- The number of bytes that the reader takes to be there. -/
  left : Nat

/-- The bytes are there. -/
def Src.Inside (s : Src) : Prop := s.left ≤ s.bytes.length

/-- A whole buffer. -/
def Src.whole (bytes : Bytes) : Src := { bytes := bytes, left := bytes.length }

theorem Src.whole_inside (bytes : Bytes) : (Src.whole bytes).Inside := le_refl bytes.length

/-- `*p++`. -/
def Src.byte (s : Src) : Checked ε (UInt8 × Src) :=
  match s.bytes with
  | [] => .fault
  | b :: bytes => .ok (b, { bytes := bytes, left := s.left - 1 })

/-- Some bytes, and the pointer behind them. -/
def Src.take (s : Src) (k : Nat) : Checked ε (Bytes × Src) := do
  let b ← readAt s.bytes 0 k
  return (b, { bytes := s.bytes.drop k, left := s.left - k })

theorem Src.byte_sat {s : Src} (h : s.Inside) (hleft : 0 < s.left) :
    (s.byte (ε := ε)).Sat fun r => r.2.Inside ∧ r.2.left + 1 = s.left := by
  obtain ⟨bytes, left⟩ := s
  unfold Src.Inside at h
  match bytes, h with
  | [], h => exact absurd hleft (Nat.not_lt.mpr h)
  | b :: bytes, h =>
    refine ⟨?_, Nat.sub_add_cancel hleft⟩
    show left - 1 ≤ bytes.length
    dsimp only [List.length_cons] at h
    omega

theorem Src.take_sat {s : Src} (h : s.Inside) (hk : k ≤ s.left) :
    (s.take (ε := ε) k).Sat fun r => r.2.Inside ∧ r.2.left + k = s.left := by
  unfold Src.Inside at h
  apply (readAt_sat (show 0 + k ≤ s.bytes.length by omega)).bind
  intro b _
  refine ⟨?_, Nat.sub_add_cancel hk⟩
  show s.left - k ≤ (s.bytes.drop k).length
  rw [List.length_drop]
  omega

end MeuOS.Lib
