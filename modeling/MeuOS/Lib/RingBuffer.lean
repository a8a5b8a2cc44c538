import MeuOS.Lib.Bytes
import Mathlib.Data.List.GetD
import Mathlib.Logic.Function.Basic

namespace MeuOS.Lib

/-!
# A ring buffer as the recent past of a byte string

A decoder of a dictionary coder keeps the last `n` bytes it wrote in a ring buffer.
`RingOf n win wp hist` says that the buffer holds the end of the string `hist` written
so far, the bytes before its start being zero:

* `back hist d` — the byte `d` places before the end of `hist`;
* `RingOf.read` — a read at offset `o` (with `o = 0` one full turn back);
* `RingOf.push` — a write at the write position.
-/

/-- The byte `d` places before the end, zero before the start. -/
def back (hist : Bytes) (d : Nat) : UInt8 :=
  if d ≤ hist.length then hist.getD (hist.length - d) 0 else 0

/-- The distance a read at offset `o` reaches back in a ring of `n` bytes. -/
def ringDist (n o : Nat) : Nat := if o = 0 then n else o

/-- The ring `win` with write position `wp` holds the end of `hist`. -/
def RingOf (n : Nat) (win : Nat → UInt8) (wp : Nat) (hist : Bytes) : Prop :=
  wp = hist.length % n ∧ ∀ d, 1 ≤ d → d ≤ n → win ((wp + n - d) % n) = back hist d

/-- A fresh ring of zeros. -/
theorem RingOf.empty (n : Nat) : RingOf n (fun _ => 0) 0 [] := by
  refine ⟨by simp, fun d h1 _ => ?_⟩
  rw [back, if_neg (by simp; omega)]

theorem RingOf.read {n wp : Nat} {win : Nat → UInt8} {hist : Bytes}
    (h : RingOf n win wp hist) {o : Nat} (hn : 0 < n) (ho : o < n) :
    win ((wp + n - o) % n) = back hist (ringDist n o) := by
  unfold ringDist
  split
  · next hz =>
    -- offset 0 reads the write position itself, the oldest byte of the ring
    have hfull := h.2 n hn le_rfl
    subst hz
    rw [← hfull, Nat.sub_zero, Nat.add_sub_cancel, Nat.add_mod_right]
  · next hz => exact h.2 o (by omega) (by omega)

/-- One more byte moves every distance by one. -/
theorem back_snoc (hist : Bytes) (b : UInt8) (d : Nat) :
    back (hist ++ [b]) (d + 1) = if d = 0 then b else back hist d := by
  unfold back
  rw [List.length_append, List.length_singleton, Nat.add_sub_add_right]
  by_cases hz : d = 0
  · subst hz
    rw [if_pos (by omega), if_pos rfl, Nat.sub_zero, List.getD_append_right _ _ _ _ le_rfl,
      Nat.sub_self]
    rfl
  · rw [if_neg hz]
    by_cases hd : d ≤ hist.length
    · rw [if_pos (by omega), if_pos hd, List.getD_append _ _ _ _ (by omega)]
    · rw [if_neg (by omega), if_neg hd]

theorem RingOf.push {n wp : Nat} {win : Nat → UInt8} {hist : Bytes}
    (h : RingOf n win wp hist) (hn : 0 < n) (b : UInt8) :
    RingOf n (Function.update win wp b) ((wp + 1) % n) (hist ++ [b]) := by
  obtain ⟨hwp, hwin⟩ := h
  have hlt : wp < n := hwp ▸ Nat.mod_lt _ hn
  refine ⟨?_, fun d h1 hd => ?_⟩
  · rw [List.length_append, List.length_singleton, hwp, Nat.mod_add_mod]
  · obtain ⟨e, rfl⟩ : ∃ e, d = e + 1 := ⟨d - 1, by omega⟩
    -- the slot `e + 1` behind the new position is the slot `e` behind the old one
    have hslot : ((wp + 1) % n + n - (e + 1)) % n = (wp + n - e) % n := by
      by_cases hw : wp + 1 = n
      · rw [hw, Nat.mod_self]
        rw [show wp + n - e = 0 + n - (e + 1) + n by omega, Nat.add_mod_right]
      · rw [Nat.mod_eq_of_lt (show wp + 1 < n by omega)]
        congr 1
        omega
    rw [hslot, back_snoc]
    split
    · next he =>
      rw [he, Nat.sub_zero, Nat.add_mod_right, Nat.mod_eq_of_lt hlt, Function.update_self]
    · next he =>
      have hne : (wp + n - e) % n ≠ wp := by
        by_cases hle : e ≤ wp
        · rw [show wp + n - e = wp - e + n by omega, Nat.add_mod_right,
            Nat.mod_eq_of_lt (by omega)]
          omega
        · rw [Nat.mod_eq_of_lt (by omega)]
          omega
      rw [Function.update_of_ne hne, hwin e (by omega) (by omega)]

end MeuOS.Lib
