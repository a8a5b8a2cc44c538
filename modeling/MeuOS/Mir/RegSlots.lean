import MeuOS.Mir.Ir
import Mathlib

namespace MeuOS.Mir.RegSlots

open Option

/-!
# Spill slots

`mreg_slot_alloc` hands out stack slots below the frame pointer from two cursors, one for slots
of four bytes and one for slots of eight.

* `slotAlloc_eq`     — a call takes the next units below everything handed out so far;
* `allocs_placed`    — so the slots of a sequence of calls lie one below the other;
* `slots_placed_iff` — they are as the frame needs them exactly when its size fits an `int32_t`.
-/

/-- `MRegSlots`: two cursors in units of four bytes. -/
@[ext] structure MRegSlots where
  slot4 : Int
  slot8 : Int
  deriving DecidableEq

/-- A result of `int32_t` arithmetic: out of range it is undefined. -/
def int32 (x : Int) : Option Int := if -2 ^ 31 ≤ x ∧ x < 2 ^ 31 then some x else none

/-- `mreg_slot_alloc`: the offset and the cursors after the call. -/
def slotAlloc (s : MRegSlots) (t : MType) : Option (Int × MRegSlots) :=
  if t = .i32 ∨ t = .f32 then do
    -- never inside an 8-byte slot: strictly below the deepest of them
    let slot4 ← int32 (s.slot4 + 1)
    let slot4 ← (if slot4 ≤ s.slot8 then int32 (s.slot8 + 1) else some slot4)
    let offset ← int32 (-slot4 * 4)
    return (offset, { s with slot4 := slot4 })
  else do
    -- two units, aligned even, always deeper than the 4-byte cursor
    let slot8 := if s.slot8 < s.slot4 then s.slot4 else s.slot8
    let slot8 ← (if slot8 % 2 = 1 then int32 (slot8 + 1) else some slot8)
    let slot8 ← int32 (slot8 + 2)
    let offset ← int32 (-slot8 * 4)
    return (offset, { s with slot8 := slot8 })

/-- `mreg_slot_total`. -/
def slotTotal (s : MRegSlots) : Option Int :=
  int32 ((if s.slot8 > s.slot4 then s.slot8 else s.slot4) * 4)

/-- The size of a value in its slot. -/
def slotSize (t : MType) : Nat := if t = .i32 ∨ t = .f32 then 4 else 8

/-- A slot that a call has returned. -/
structure Slot where
  type : MType
  offset : Int
  deriving DecidableEq

/-- The bytes `[offset, offset + size)`. -/
def Slot.bytes (r : Slot) : Set Int := Set.Ico r.offset (r.offset + slotSize r.type)

/-- One call after another. -/
def allocs (s : MRegSlots) : List MType → Option (List Slot × MRegSlots)
  | [] => some ([], s)
  | t :: ts => do
    let (offset, s) ← slotAlloc s t
    let (slots, s) ← allocs s ts
    return (⟨t, offset⟩ :: slots, s)

/-- The calls return one slot each, no two share a byte, all lie in the frame, and slots of
    eight bytes are aligned. -/
def Placed (ts : List MType) : Prop :=
  ∃ slots s total, allocs ⟨0, 0⟩ ts = some (slots, s) ∧ slotTotal s = some total ∧
    slots.map Slot.type = ts ∧
    slots.Pairwise (fun a b => Disjoint a.bytes b.bytes) ∧
    ∀ r ∈ slots, r.bytes ⊆ Set.Ico (-total) 0 ∧ (slotSize r.type = 8 → 8 ∣ r.offset)

/-! ### The depth of the frame -/

/-- The units in use once a value lies below `d` units: one of eight bytes starts at an even
    unit. -/
def depthAfter (d : Nat) (t : MType) : Nat := if slotSize t = 4 then d + 1 else d + d % 2 + 2

/-- The units of four bytes that values take when they are packed in order. -/
def depth (ts : List MType) : Nat := ts.foldl depthAfter 0

variable {s s' : MRegSlots} {d : Nat} {t : MType} {ts : List MType} {slots : List Slot}

theorem slotSize_eq_four : slotSize t = 4 ↔ t = .i32 ∨ t = .f32 := by
  unfold slotSize
  split <;> simp [*]

theorem le_depthAfter (d : Nat) (t : MType) : d ≤ depthAfter d t := by
  unfold depthAfter
  split <;> omega

theorem le_foldl_depthAfter (ts : List MType) : ∀ d, d ≤ ts.foldl depthAfter d := by
  induction ts with
  | nil => exact fun d => le_rfl
  | cons t ts ih => exact fun d => (le_depthAfter d t).trans (ih _)

/-- The deeper cursor is at the depth of what has been handed out. -/
def At (d : Nat) (s : MRegSlots) : Prop := 0 ≤ s.slot4 ∧ 0 ≤ s.slot8 ∧ max s.slot4 s.slot8 = d

theorem int32_of_nonneg {x : Int} (h : 0 ≤ x) (hx : x < 2 ^ 31) : int32 x = some x :=
  if_pos ⟨by omega, hx⟩

/-- A call for four bytes steps over the 8-byte slots. -/
theorem slotAlloc_four (h : At d s) (hd : d ≤ 2 ^ 29) (ht : t = .i32 ∨ t = .f32) :
    slotAlloc s t = (int32 (-4 * (d + 1 : Nat))).map
      (fun offset => (offset, { s with slot4 := (d + 1 : Nat) })) := by
  obtain ⟨h4, h8, hmax⟩ := h
  have hnext : (if s.slot4 + 1 ≤ s.slot8 then int32 (s.slot8 + 1) else some (s.slot4 + 1)) =
      some ((d + 1 : Nat) : Int) := by
    split
    · rw [int32_of_nonneg (by omega) (by omega), some_inj]
      omega
    · rw [some_inj]
      omega
  have hneg : -((d + 1 : Nat) : Int) * 4 = -4 * (d + 1 : Nat) := by ring
  have hfirst : int32 (s.slot4 + 1) = some (s.slot4 + 1) :=
    int32_of_nonneg (by omega) (by omega)
  unfold slotAlloc
  rw [if_pos ht, hfirst]
  simp only [bind_eq_bind, bind_some, pure_def]
  rw [hnext, bind_some, hneg]
  generalize int32 (-4 * (d + 1 : Nat)) = offset
  cases offset <;> rfl

/-- A call for eight bytes rounds the deeper cursor up to an even unit. -/
theorem slotAlloc_eight (h : At d s) (hd : d ≤ 2 ^ 29) (ht : ¬ (t = .i32 ∨ t = .f32)) :
    slotAlloc s t = (int32 (-4 * (d + d % 2 + 2 : Nat))).map
      (fun offset => (offset, { s with slot8 := (d + d % 2 + 2 : Nat) })) := by
  obtain ⟨h4, h8, hmax⟩ := h
  have hdeep : (if s.slot8 < s.slot4 then s.slot4 else s.slot8) = (d : Int) := by
    split <;> omega
  have heven : (if (d : Int) % 2 = 1 then int32 ((d : Int) + 1) else some (d : Int)) =
      some ((d + d % 2 : Nat) : Int) := by
    split
    · rw [int32_of_nonneg (by omega) (by omega), some_inj]
      omega
    · rw [some_inj]
      omega
  have hnext : int32 (((d + d % 2 : Nat) : Int) + 2) = some ((d + d % 2 + 2 : Nat) : Int) :=
    int32_of_nonneg (by omega) (by omega)
  have hneg : -((d + d % 2 + 2 : Nat) : Int) * 4 = -4 * (d + d % 2 + 2 : Nat) := by ring
  unfold slotAlloc
  rw [if_neg ht]
  simp only [bind_eq_bind, pure_def]
  rw [hdeep, heven, bind_some, hnext, bind_some, hneg]
  generalize int32 (-4 * (d + d % 2 + 2 : Nat)) = offset
  cases offset <;> rfl

/-- While no cursor is out of range, a call takes the units from the depth to the new depth;
    only its offset can overflow. -/
theorem slotAlloc_eq (h : At d s) (hd : d ≤ 2 ^ 29) (t : MType) :
    ∃ s', At (depthAfter d t) s' ∧
      slotAlloc s t = (int32 (-4 * depthAfter d t)).map (fun offset => (offset, s')) := by
  unfold depthAfter
  by_cases ht : t = .i32 ∨ t = .f32
  · rw [if_pos (slotSize_eq_four.mpr ht)]
    refine ⟨{ s with slot4 := (d + 1 : Nat) }, ⟨Int.natCast_nonneg _, h.2.1, ?_⟩,
      slotAlloc_four h hd ht⟩
    have := h.2.2
    show max ((d + 1 : Nat) : Int) s.slot8 = (d + 1 : Nat)
    omega
  · rw [if_neg (slotSize_eq_four.not.mpr ht)]
    refine ⟨{ s with slot8 := (d + d % 2 + 2 : Nat) }, ⟨h.1, Int.natCast_nonneg _, ?_⟩,
      slotAlloc_eight h hd ht⟩
    have := h.2.2
    show max s.slot4 ((d + d % 2 + 2 : Nat) : Int) = (d + d % 2 + 2 : Nat)
    omega

/-- The slot of a call lies between the old depth and the new one. -/
theorem slot_bounds (d : Nat) (t : MType) :
    (⟨t, -4 * depthAfter d t⟩ : Slot).bytes ⊆ Set.Ico (-4 * (depthAfter d t : Int)) (-4 * d) ∧
      (slotSize t = 8 → (8 : Int) ∣ -4 * depthAfter d t) := by
  unfold Slot.bytes depthAfter
  by_cases ht : slotSize t = 4
  · rw [if_pos ht, ht]
    exact ⟨Set.Ico_subset_Ico_right (by push_cast; omega), fun h => by omega⟩
  · have h8 : slotSize t = 8 := by
      unfold slotSize at ht ⊢
      split at ht
      · exact absurd rfl ht
      · exact if_neg ‹_›
    rw [if_neg ht, h8]
    exact ⟨Set.Ico_subset_Ico_right (by push_cast; omega), fun _ => by omega⟩

/-! ### Sequences of calls -/

/-- From a depth that is left below 2^29 or at it, every call succeeds and the slots lie one
    below the other. -/
theorem allocs_placed : ∀ {ts : List MType} {s : MRegSlots} {d : Nat}, At d s →
    ts.foldl depthAfter d ≤ 2 ^ 29 →
    ∃ slots s', allocs s ts = some (slots, s') ∧ At (ts.foldl depthAfter d) s' ∧
      slots.map Slot.type = ts ∧
      slots.Pairwise (fun a b => Disjoint a.bytes b.bytes) ∧
      ∀ r ∈ slots, r.bytes ⊆ Set.Ico (-4 * ((ts.foldl depthAfter d : Nat) : Int)) (-4 * d) ∧
        (slotSize r.type = 8 → 8 ∣ r.offset)
  | [], s, d, h, _ => ⟨[], s, rfl, h, rfl, .nil, nofun⟩
  | t :: ts, s, d, h, hle => by
    have hmono := le_foldl_depthAfter ts (depthAfter d t)
    have hstep := le_depthAfter d t
    rw [List.foldl_cons] at hle ⊢
    obtain ⟨s₁, h₁, hcall⟩ := slotAlloc_eq h (by omega) t
    obtain ⟨slots, s₂, hrest, h₂, htypes, hdisj, hin⟩ := allocs_placed h₁ hle
    obtain ⟨hbytes, halign⟩ := slot_bounds d t
    rw [int32, if_pos (by omega)] at hcall
    refine ⟨⟨t, -4 * depthAfter d t⟩ :: slots, s₂, ?_, h₂, ?_, ?_, ?_⟩
    · rw [allocs, hcall]
      simp only [map_some, bind_eq_bind, bind_some, hrest]
      rfl
    · rw [List.map_cons, htypes]
    · -- the later slots lie below the depth after this call
      refine List.pairwise_cons.mpr ⟨fun r hr => ?_, hdisj⟩
      refine Set.disjoint_of_subset hbytes (hin r hr).1 ?_
      exact (Set.Ico_disjoint_Ico_same (a := _)).symm
    · intro r hr
      rcases List.mem_cons.mp hr with rfl | hr
      · exact ⟨hbytes.trans (Set.Ico_subset_Ico_left (by omega)), halign⟩
      · exact ⟨(hin r hr).1.trans (Set.Ico_subset_Ico_right (by omega)), (hin r hr).2⟩

/-- Calls that succeed leave the cursors at the depth of their types. -/
theorem allocs_at : ∀ {ts : List MType} {s : MRegSlots} {d : Nat}, At d s → d ≤ 2 ^ 29 →
    ∀ {slots s'}, allocs s ts = some (slots, s') → At (ts.foldl depthAfter d) s'
  | [], _, _, h, _, _, _, hrun => by
    cases hrun
    exact h
  | t :: ts, s, d, h, hd, slots, s', hrun => by
    obtain ⟨s₁, h₁, hcall⟩ := slotAlloc_eq h hd t
    rw [allocs, hcall] at hrun
    -- a call whose offset overflows would end the run
    by_cases hfit : depthAfter d t ≤ 2 ^ 29
    · rw [int32, if_pos (by omega)] at hrun
      simp only [map_some, bind_eq_bind, bind_some,
        bind_eq_some_iff] at hrun
      obtain ⟨⟨rest, s₂⟩, hrest, hpair⟩ := hrun
      cases hpair
      exact allocs_at h₁ hfit hrest
    · rw [int32, if_neg (by omega)] at hrun
      cases hrun

theorem at_zero : At 0 ⟨0, 0⟩ := ⟨le_rfl, le_rfl, rfl⟩

theorem slotTotal_eq (h : At d s) : slotTotal s = int32 (4 * d) := by
  obtain ⟨-, -, hmax⟩ := h
  unfold slotTotal
  congr 1
  split <;> omega

theorem not_placed (h : 2 ^ 29 ≤ depth ts) : ¬ Placed ts := by
  rintro ⟨slots, s, total, hrun, htotal, -⟩
  have hat := allocs_at at_zero (by omega) hrun
  rw [slotTotal_eq hat, int32, if_neg (by unfold depth at h; omega)] at htotal
  cases htotal

/-- Starting from zero cursors, the slots are pairwise disjoint, lie in the frame and are aligned
    exactly when the values, packed in order, take fewer than 2^29 units of four bytes. -/
theorem slots_placed_iff (ts : List MType) : Placed ts ↔ depth ts < 2 ^ 29 := by
  refine ⟨fun h => ?_, fun h => ?_⟩
  · by_contra hdeep
    exact not_placed (by omega) h
  · obtain ⟨slots, s, hrun, hat, htypes, hdisj, hin⟩ := allocs_placed at_zero h.le
    refine ⟨slots, s, 4 * (depth ts : Nat), hrun, ?_, htypes, hdisj, fun r hr => ?_⟩
    · rw [slotTotal_eq hat]
      exact if_pos ⟨by omega, by unfold depth at h; omega⟩
    · obtain ⟨hbytes, halign⟩ := hin r hr
      rw [show (-4 * ((0 : Nat) : Int)) = 0 from rfl] at hbytes
      exact ⟨hbytes.trans (Set.Ico_subset_Ico_left (by unfold depth; omega)), halign⟩

/-- 2^28 values of eight bytes need a frame of 2^31 bytes. -/
theorem slots_not_placed : ¬ Placed (List.replicate (2 ^ 28) .i64) := by
  have hdepth : ∀ n d : Nat, d % 2 = 0 →
      (List.replicate n MType.i64).foldl depthAfter d = d + 2 * n := by
    intro n
    induction n with
    | zero => exact fun d _ => rfl
    | succ n ih =>
      intro d hd
      have hnext : depthAfter d .i64 = d + 2 := by
        show d + d % 2 + 2 = d + 2
        rw [hd]
      rw [List.replicate_succ, List.foldl_cons, hnext, ih _ (by omega)]
      omega
  refine not_placed (le_of_eq ?_)
  rw [depth, hdepth _ _ rfl]
  norm_num

end MeuOS.Mir.RegSlots
