import MeuOS.Lib.Checked
import MeuOS.Lib.NatMem
import MeuOS.Lib.StableSort

namespace MeuOS.Libc

open MeuOS.Lib List

/-!
# `qsort` and `bsearch` (`stdlib/search.c`)

Pointers are positions in a memory; every load and store is checked against the region that a
call may touch.  A `size_t` wraps at 2^64.

* `swap`, `sinkItem`, `insertionLoop`, `qsort` — the insertion sort;
* `bsearch` — the halving search;
* `ArrayObject`, `records` — the array of a call and its elements;
* `swap_spec`, `sinkItem_spec`, `insertionLoop_spec`, `bsearch_spec` — what the parts do;
* `qsort_bsearch` — a stable sort of the array, and a search that finds what is there.
-/

/-! ### Memory -/

/-- The bytes that a call may touch. -/
structure Region where
  /-- The first of them. -/
  lo : Nat
  /-- Their number. -/
  len : Nat

/-- `n` bytes from `a` on lie in the region. -/
def Region.Holds (R : Region) (a n : Nat) : Prop := n = 0 ∨ R.lo ≤ a ∧ a + n ≤ R.lo + R.len

instance (R : Region) (a n : Nat) : Decidable (R.Holds a n) :=
  inferInstanceAs (Decidable (n = 0 ∨ R.lo ≤ a ∧ a + n ≤ R.lo + R.len))

/-- A load of `n` bytes. -/
def load (R : Region) (m : NatMem) (a n : Nat) : Checked Empty Bytes :=
  if R.Holds a n then .ok (bytesAt m a n) else .fault

/-- `*a`. -/
def loadByte (R : Region) (m : NatMem) (a : Nat) : Checked Empty UInt8 :=
  if R.Holds a 1 then .ok (m a) else .fault

/-- `*a = b`. -/
def storeByte (R : Region) (m : NatMem) (a : Nat) (b : UInt8) : Checked Empty NatMem :=
  if R.Holds a 1 then .ok (Function.update m a b) else .fault

/-- A product of two `size_t`. -/
def mulSize (a b : Nat) : Nat := a * b % 2 ^ 64

/-- A difference of two `size_t`. -/
def subSize (a b : Nat) : Nat := (a + 2 ^ 64 - b) % 2 ^ 64

/-! ### The code -/

/-- `compare`, which sees the bytes of the two objects it is given. -/
abbrev Comparator := Bytes → Bytes → Int

/-- `swap`. -/
def swap (R : Region) : Nat → Nat → Nat → NatMem → Checked Empty NatMem
  | _, _, 0, m => .ok m
  | left, right, width + 1, m => do
    let temporary ← loadByte R m left
    let b ← loadByte R m right
    let m ← storeByte R m left b
    let m ← storeByte R m right temporary
    swap R (left + 1) (right + 1) width m

/-- The inner loop of `qsort`, from a cursor on. -/
def sinkItem (R : Region) (items width : Nat) (compare : Comparator) :
    Nat → NatMem → Checked Empty NatMem
  | 0, m => .ok m
  | cursor + 1, m => do
    let left := items + mulSize cursor width
    let right := items + mulSize (cursor + 1) width
    let a ← load R m left width
    let b ← load R m right width
    if 0 < compare a b then do
      let m ← swap R left right width m
      sinkItem R items width compare cursor m
    else .ok m

/-- The outer loop of `qsort`, from an index on. -/
def insertionLoop (R : Region) (items count width : Nat) (compare : Comparator) (index : Nat)
    (m : NatMem) : Checked Empty NatMem :=
  if index < count then do
    let m ← sinkItem R items width compare index m
    insertionLoop R items count width compare (index + 1) m
  else .ok m
  termination_by count - index

/-- `qsort`; `none` is a null comparator. -/
def qsort (R : Region) (base count width : Nat) (compare : Option Comparator) (m : NatMem) :
    Checked Empty NatMem :=
  match compare with
  | none => .ok m
  | some compare =>
    if base = 0 ∨ width = 0 then .ok m else insertionLoop R base count width compare 1 m

variable {m : NatMem} {lo n i c : Nat}

theorem subSize_lt {count : Nat} (h : count ≠ 0) : subSize count (count / 2 + 1) < count := by
  unfold subSize
  omega

/-- `bsearch`; `none` is the null pointer. -/
def bsearch (R : Region) (key : Bytes) (items count width : Nat) (compare : Comparator)
    (m : NatMem) : Checked Empty (Option Nat) :=
  if h : count = 0 then .ok none
  else do
    let middle := count / 2
    let candidate := items + mulSize middle width
    let element ← load R m candidate width
    let order := compare key element
    if order = 0 then .ok (some candidate)
    else if order < 0 then bsearch R key items middle width compare m
    else
      bsearch R key (items + mulSize (middle + 1) width) (subSize count (middle + 1)) width
        compare m
  termination_by count
  decreasing_by
    · omega
    · exact subSize_lt h

/-! ### Arrays -/

/-- An array of a program: it lies in the address space, and an array with bytes is not at the
    null pointer. -/
structure ArrayObject where
  /-- Its address. -/
  base : Nat
  /-- The number of its elements. -/
  count : Nat
  /-- The size of an element. -/
  width : Nat
  /-- The count is a `size_t`. -/
  count_lt : count < 2 ^ 64
  /-- The end of the array is a pointer. -/
  fits : base + count * width < 2 ^ 64
  /-- Nothing is stored at the null pointer. -/
  nonnull : 0 < count * width → base ≠ 0

namespace ArrayObject

variable (A : ArrayObject)

/-- The bytes of the array. -/
def region : Region := { lo := A.base, len := A.count * A.width }

/-- The address of an element. -/
def slot (i : Nat) : Nat := A.base + i * A.width

/-- An element. -/
def record (m : NatMem) (i : Nat) : Bytes := bytesAt m (A.slot i) A.width

/-- `n` elements from one on. -/
def records (m : NatMem) (lo n : Nat) : List Bytes := (range' lo n).map (A.record m)

/-- The elements of the array. -/
def elements (m : NatMem) : List Bytes := A.records m 0 A.count

@[simp] theorem length_record (m : NatMem) (i : Nat) : (A.record m i).length = A.width :=
  length_bytesAt m _ _

theorem length_of_mem {e : Bytes} (h : e ∈ A.records m lo n) :
    e.length = A.width := by
  obtain ⟨i, _, rfl⟩ := mem_map.mp h
  exact A.length_record m i

@[simp] theorem length_records (m : NatMem) (lo n : Nat) : (A.records m lo n).length = n := by
  simp [records]

@[simp] theorem getElem_records (m : NatMem) (h : i < (A.records m lo n).length) :
    (A.records m lo n)[i] = A.record m (lo + i) := by
  simp [records]

theorem mem_records {e : Bytes} :
    e ∈ A.records m lo n ↔ ∃ i, lo ≤ i ∧ i < lo + n ∧ e = A.record m i := by
  unfold records
  rw [mem_map]
  constructor
  · rintro ⟨i, hi, rfl⟩
    have hrange := mem_range'_1.mp hi
    exact ⟨i, hrange.1, hrange.2, rfl⟩
  · rintro ⟨i, hlo, hhi, rfl⟩
    exact ⟨i, mem_range'_1.mpr ⟨hlo, hhi⟩, rfl⟩

theorem records_append (m : NatMem) (lo a b : Nat) :
    A.records m lo (a + b) = A.records m lo a ++ A.records m (lo + a) b := by
  unfold records
  rw [← range'_append_1, map_append]

theorem records_cons (m : NatMem) (lo n : Nat) :
    A.records m lo (n + 1) = A.record m lo :: A.records m (lo + 1) n := by
  unfold records
  rw [range'_succ, map_cons]

theorem records_concat (m : NatMem) (lo n : Nat) :
    A.records m lo (n + 1) = A.records m lo n ++ [A.record m (lo + n)] := by
  rw [records_append, records_cons]
  rfl

theorem records_congr {m' : NatMem} (h : ∀ i, lo ≤ i → i < lo + n → A.record m' i = A.record m i) :
    A.records m' lo n = A.records m lo n := by
  apply map_congr_left
  intro i hi
  have hrange := mem_range'_1.mp hi
  exact h i hrange.1 hrange.2

/-! ### Addresses -/

theorem mul_width_le (h : i ≤ A.count) : i * A.width ≤ A.count * A.width :=
  Nat.mul_le_mul_right A.width h

theorem mulSize_eq (h : i ≤ A.count) : mulSize i A.width = i * A.width := by
  have hle := A.mul_width_le h
  have hfits := A.fits
  exact Nat.mod_eq_of_lt (by omega)

theorem slot_succ (i : Nat) : A.slot (i + 1) = A.slot i + A.width := by
  unfold slot
  rw [Nat.succ_mul, Nat.add_assoc]

theorem slot_apart {j : Nat} (h : i < j) : A.slot i + A.width ≤ A.slot j := by
  have hle := Nat.mul_le_mul_right A.width (Nat.succ_le_of_lt h)
  rw [Nat.succ_mul] at hle
  unfold slot
  omega

/-- An element lies in the array. -/
theorem holds (h : i < A.count) : A.region.Holds (A.slot i) A.width := by
  have hle := A.mul_width_le (Nat.succ_le_of_lt h)
  rw [Nat.succ_mul] at hle
  refine Or.inr ⟨?_, ?_⟩
  · exact Nat.le_add_right A.base _
  · show A.base + i * A.width + A.width ≤ A.base + A.count * A.width
    omega

theorem load_record (m : NatMem) (h : i < A.count) :
    load A.region m (A.slot i) A.width = .ok (A.record m i) := if_pos (A.holds h)

end ArrayObject

/-! ### Swapping -/

theorem Region.Holds.byte {R : Region} {a : Nat} (h : R.Holds a n) (hi : i < n) :
    R.Holds (a + i) 1 := by
  unfold Region.Holds at *
  omega

/-- Two objects that do not overlap change places, and nothing else is written. -/
theorem swap_spec {R : Region} {left right width : Nat} (m : NatMem)
    (hapart : left + width ≤ right) (hleft : R.Holds left width) (hright : R.Holds right width) :
    ∃ m', swap R left right width m = .ok m' ∧
      (∀ i < width, m' (left + i) = m (right + i) ∧ m' (right + i) = m (left + i)) ∧
      ∀ x, (x < left ∨ left + width ≤ x) → (x < right ∨ right + width ≤ x) → m' x = m x := by
  induction width generalizing left right m with
  | zero => exact ⟨m, rfl, fun i hi => absurd hi (Nat.not_lt_zero i), fun _ _ _ => rfl⟩
  | succ width ih =>
    have hl : R.Holds left 1 := hleft.byte (Nat.succ_pos width)
    have hr : R.Holds right 1 := hright.byte (Nat.succ_pos width)
    let m₁ := Function.update (Function.update m left (m right)) right (m left)
    have hout : ∀ x, x ≠ left → x ≠ right → m₁ x = m x := by
      intro x hxl hxr
      simp [m₁, hxl, hxr]
    have hlast : R.Holds (left + 1) width ∧ R.Holds (right + 1) width := by
      unfold Region.Holds at *
      omega
    obtain ⟨m', hrun, hin, hframe⟩ := ih m₁ (by omega) hlast.1 hlast.2
    refine ⟨m', ?_, ?_, ?_⟩
    · unfold swap loadByte storeByte
      simp only [if_pos hl, if_pos hr, Checked.ok_bind]
      exact hrun
    · intro i hi
      match i with
      | 0 =>
        -- The first bytes have been exchanged before the rest.
        have hml : m' left = m₁ left := hframe left (by omega) (by omega)
        have hmr : m' right = m₁ right := hframe right (by omega) (by omega)
        have hne : left ≠ right := by omega
        refine ⟨hml.trans ?_, hmr.trans ?_⟩
        · simp [m₁, hne]
        · simp [m₁]
      | i + 1 =>
        have hboth := hin i (by omega)
        rw [show left + (i + 1) = left + 1 + i by omega,
          show right + (i + 1) = right + 1 + i by omega]
        refine ⟨hboth.1.trans (hout _ ?_ ?_), hboth.2.trans (hout _ ?_ ?_)⟩
        all_goals omega
    · intro x hxl hxr
      rw [hframe x (by omega) (by omega)]
      exact hout x (by omega) (by omega)

/-- Two neighbours of an array change places. -/
theorem swap_records (A : ArrayObject) (m : NatMem) (hc : c + 1 < A.count) :
    ∃ m', swap A.region (A.slot c) (A.slot (c + 1)) A.width m = .ok m' ∧
      A.record m' c = A.record m (c + 1) ∧ A.record m' (c + 1) = A.record m c ∧
      (∀ i, i < c ∨ c + 1 < i → A.record m' i = A.record m i) ∧
      ∀ x, ¬ A.region.Holds x 1 → m' x = m x := by
  have hl := A.holds (Nat.lt_of_succ_lt hc)
  have hr := A.holds hc
  have hnext := A.slot_succ c
  obtain ⟨m', hrun, hin, hframe⟩ := swap_spec m (Nat.le_of_eq hnext.symm) hl hr
  refine ⟨m', hrun, ?_, ?_, ?_, ?_⟩
  · exact bytesAt_congr fun i hi => (hin i hi).1
  · exact bytesAt_congr fun i hi => (hin i hi).2
  · rintro i (hi | hi)
    · have hapart := A.slot_apart hi
      exact bytesAt_congr fun k hk => hframe _ (by omega) (by omega)
    · have hapart := A.slot_apart hi
      exact bytesAt_congr fun k hk => hframe _ (by omega) (by omega)
  · intro x hx
    unfold Region.Holds at *
    exact hframe x (by omega) (by omega)

/-! ### Insertion -/

section sort

variable {A : ArrayObject} {compare : Comparator}

/-- The kind of the elements of an array. -/
def ArrayObject.IsElement (A : ArrayObject) (e : Bytes) : Prop := e.length = A.width

theorem ArrayObject.elements_around (A : ArrayObject) (m : NatMem) (hc : c + 1 < A.count) :
    A.elements m = A.records m 0 c ++
      A.record m c :: A.record m (c + 1) :: A.records m (c + 2) (A.count - (c + 2)) := by
  have hcount : A.count = c + (A.count - (c + 2) + 1 + 1) := by omega
  conv_lhs => rw [ArrayObject.elements, hcount]
  rw [A.records_append, A.records_cons, A.records_cons, Nat.zero_add]

/-- The elements after two neighbours in the wrong order have changed places. -/
theorem rearranged_swap (h : TotalPreorder A.IsElement compare) {m' : NatMem}
    (hc : c + 1 < A.count) (hgt : 0 < compare (A.record m c) (A.record m (c + 1)))
    (hleft : A.record m' c = A.record m (c + 1)) (hright : A.record m' (c + 1) = A.record m c)
    (hsame : ∀ i, i < c ∨ c + 1 < i → A.record m' i = A.record m i) :
    Rearranged compare (A.elements m) (A.elements m') := by
  have hbefore : A.records m' 0 c = A.records m 0 c :=
    A.records_congr fun i _ hi => hsame i (by omega)
  have hbehind : A.records m' (c + 2) (A.count - (c + 2)) =
      A.records m (c + 2) (A.count - (c + 2)) :=
    A.records_congr fun i hi _ => hsame i (by omega)
  rw [A.elements_around m' hc, hleft, hright, hbefore, hbehind, A.elements_around m hc]
  apply Rearranged.swap h _ hgt
  intro e he
  rw [← A.elements_around m hc] at he
  exact A.length_of_mem he

/-- The inner loop puts the element at an index into the ascending elements before it. -/
theorem sinkItem_spec (h : TotalPreorder A.IsElement compare) (hi : i < A.count)
    (hci : c ≤ i) (m : NatMem)
    (hasc : Ascending compare (A.records m 0 c ++ A.records m (c + 1) (i - c)))
    (hgt : ∀ q ∈ A.records m (c + 1) (i - c), 0 < compare q (A.record m c)) :
    ∃ m', sinkItem A.region A.base A.width compare c m = .ok m' ∧
      Rearranged compare (A.elements m) (A.elements m') ∧
      Ascending compare (A.records m' 0 (i + 1)) ∧ ∀ x, ¬ A.region.Holds x 1 → m' x = m x := by
  induction c generalizing m with
  | zero =>
    refine ⟨m, rfl, Rearranged.refl _, ?_, fun _ _ => rfl⟩
    rw [A.records_cons]
    apply @sorted_insert _ A.IsElement compare h [] _ _
    · intro e he
      rw [nil_append, ← A.records_cons] at he
      exact A.length_of_mem he
    · exact hasc
    · exact hgt
    · exact fun p hp => absurd hp (by simp)
  | succ c ih =>
    have hslot : A.base + mulSize c A.width = A.slot c := by
      rw [A.mulSize_eq (by omega), ArrayObject.slot]
    have hnext : A.base + mulSize (c + 1) A.width = A.slot (c + 1) := by
      rw [A.mulSize_eq (by omega), ArrayObject.slot]
    unfold sinkItem
    simp only [hslot, hnext, A.load_record m (show c < A.count by omega),
      A.load_record m (show c + 1 < A.count by omega), Checked.ok_bind]
    by_cases hless : 0 < compare (A.record m c) (A.record m (c + 1))
    · -- The element goes one place to the left, and its neighbour behind it.
      rw [if_pos hless]
      obtain ⟨m₁, hswap, hl, hr, hsame, hframe⟩ := swap_records A m (c := c) (by omega)
      have hbefore : A.records m₁ 0 c = A.records m 0 c :=
        A.records_congr fun j _ hj => hsame j (by omega)
      have hbehind : A.records m₁ (c + 1) (i - c) =
          A.record m c :: A.records m (c + 1 + 1) (i - (c + 1)) := by
        rw [show i - c = i - (c + 1) + 1 by omega, A.records_cons, hr]
        congr 1
        exact A.records_congr fun j hj _ => hsame j (by omega)
      obtain ⟨m', hrun, hre, hsorted, hout⟩ := ih (by omega) m₁
        (by
          rw [hbefore, hbehind]
          rw [A.records_concat, Nat.zero_add, append_assoc] at hasc
          exact hasc)
        (by
          intro q hq
          rw [hbehind] at hq
          rw [hl]
          rcases mem_cons.mp hq with rfl | hq
          · exact hless
          · exact hgt q hq)
      refine ⟨m', ?_, ?_, hsorted, ?_⟩
      · rw [hswap, Checked.ok_bind, hrun]
      · exact (rearranged_swap h (by omega) hless hl hr hsame).trans hre
      · intro x hx
        rw [hout x hx, hframe x hx]
    · rw [if_neg hless]
      refine ⟨m, rfl, Rearranged.refl _, ?_, fun _ _ => rfl⟩
      have hparts : A.records m 0 (i + 1) =
          A.records m 0 (c + 1) ++
            A.record m (c + 1) :: A.records m (c + 1 + 1) (i - (c + 1)) := by
        rw [show i + 1 = c + 1 + (i - (c + 1) + 1) by omega, A.records_append, Nat.zero_add]
        rw [A.records_cons m (c + 1)]
      rw [hparts]
      apply sorted_insert h _ hasc hgt
      · intro p hp
        rw [A.records_concat, Nat.zero_add, getLast?_concat] at hp
        cases hp
        omega
      · intro e he
        rw [← hparts] at he
        exact A.length_of_mem he

/-- The outer loop sorts what the elements before an index do not hold yet. -/
theorem insertionLoop_spec (h : TotalPreorder A.IsElement compare) {index : Nat} (m : NatMem)
    (hindex : index ≤ A.count) (hasc : Ascending compare (A.records m 0 index)) :
    ∃ m', insertionLoop A.region A.base A.count A.width compare index m = .ok m' ∧
      StablySorted compare (A.elements m) (A.elements m') ∧
      ∀ x, ¬ A.region.Holds x 1 → m' x = m x := by
  induction hleft : A.count - index generalizing index m with
  | zero =>
    obtain rfl : index = A.count := by omega
    refine ⟨m, ?_, ⟨Rearranged.refl _, hasc⟩, fun _ _ => rfl⟩
    unfold insertionLoop
    rw [if_neg (Nat.lt_irrefl _)]
  | succ left ih =>
    have hlt : index < A.count := by omega
    obtain ⟨m₁, hsink, hre, hsorted, hframe⟩ := sinkItem_spec h hlt (Nat.le_refl index) m
      (by
        rw [Nat.sub_self]
        simpa [ArrayObject.records] using hasc)
      (by
        rw [Nat.sub_self]
        exact fun q hq => absurd hq not_mem_nil)
    obtain ⟨m', hrun, hend, hout⟩ := ih m₁ hlt hsorted (by omega)
    refine ⟨m', ?_, ⟨hre.trans hend.toRearranged, hend.ascending⟩, ?_⟩
    · unfold insertionLoop
      rw [if_pos hlt, hsink, Checked.ok_bind, hrun]
    · intro x hx
      rw [hout x hx, hframe x hx]

/-- `qsort` leaves a stable sort of the array, and every other byte alone. -/
theorem qsort_spec (h : TotalPreorder A.IsElement compare) (m : NatMem) :
    ∃ m', qsort A.region A.base A.count A.width (some compare) m = .ok m' ∧
      StablySorted compare (A.elements m) (A.elements m') ∧
      ∀ x, ¬ A.region.Holds x 1 → m' x = m x := by
  by_cases hnothing : A.base = 0 ∨ A.width = 0
  · -- An array at the null pointer has no elements, or elements without bytes.
    refine ⟨m, ?_, ⟨Rearranged.refl _, ?_⟩, fun _ _ => rfl⟩
    · simp only [qsort, if_pos hnothing]
    have hbytes : A.count * A.width = 0 := by
      rcases hnothing with hbase | hwidth
      · exact Nat.eq_zero_of_not_pos fun hpos => A.nonnull hpos hbase
      · rw [hwidth, Nat.mul_zero]
    rcases Nat.mul_eq_zero.mp hbytes with hcount | hwidth
    · unfold ArrayObject.elements
      rw [hcount]
      exact List.Pairwise.nil
    · have hempty : ∀ e ∈ A.elements m, e = [] := fun e he =>
        eq_nil_of_length_eq_zero ((A.length_of_mem he).trans hwidth)
      have hnil : A.IsElement [] := hwidth.symm
      apply pairwise_of_forall_mem_list
      intro a ha b hb
      rw [hempty a ha, hempty b hb]
      have hflip := h.flip [] [] hnil hnil
      omega
  · unfold qsort
    simp only [if_neg hnothing]
    by_cases hcount : A.count = 0
    · refine ⟨m, ?_, ⟨Rearranged.refl _, ?_⟩, fun _ _ => rfl⟩
      · unfold insertionLoop
        rw [if_neg (by omega)]
      · unfold ArrayObject.elements
        rw [hcount]
        exact List.Pairwise.nil
    · exact insertionLoop_spec h m (by omega) (pairwise_singleton _ _)

end sort

/-! ### Searching -/

section search

variable {A : ArrayObject} {compare : Comparator}

theorem subSize_eq {a b : Nat} (ha : a < 2 ^ 64) (hb : b ≤ a) : subSize a b = a - b := by
  unfold subSize
  omega

/-- The elements of a sorted array in their order. -/
theorem record_le (h : TotalPreorder A.IsElement compare)
    (hasc : Ascending compare (A.elements m)) {j : Nat} (hij : i ≤ j) (hj : j < A.count) :
    compare (A.record m i) (A.record m j) ≤ 0 := by
  rcases Nat.eq_or_lt_of_le hij with rfl | hlt
  · have hflip := h.flip _ _ (A.length_record m i) (A.length_record m i)
    omega
  · have hlen : (A.elements m).length = A.count := by simp [ArrayObject.elements]
    have hpair := pairwise_iff_getElem.mp hasc i j (by omega) (by omega) hlt
    simpa [ArrayObject.elements] using hpair

/-- A search of some elements of a sorted array returns the address of one that compares equal to
    the key, or none of them does. -/
theorem bsearch_spec (h : TotalPreorder A.IsElement compare) {key : Bytes}
    (hkey : A.IsElement key) (hasc : Ascending compare (A.elements m)) (lo n : Nat)
    (hn : lo + n ≤ A.count) :
    ∃ r, bsearch A.region key (A.slot lo) n A.width compare m = .ok r ∧
      match r with
      | some p => ∃ i, lo ≤ i ∧ i < lo + n ∧ p = A.slot i ∧ compare key (A.record m i) = 0
      | none => ∀ i, lo ≤ i → i < lo + n → compare key (A.record m i) ≠ 0 := by
  induction n using Nat.strong_induction_on generalizing lo with
  | _ n ih =>
    unfold bsearch
    by_cases hzero : n = 0
    · rw [dif_pos hzero]
      exact ⟨none, rfl, fun i hlo hhi => absurd hhi (by omega)⟩
    rw [dif_neg hzero]
    have hcount := A.count_lt
    have hmid : n / 2 < n := by omega
    have hin : lo + n / 2 < A.count := by omega
    have hslot : A.slot lo + mulSize (n / 2) A.width = A.slot (lo + n / 2) := by
      rw [A.mulSize_eq (by omega), ArrayObject.slot, ArrayObject.slot, Nat.add_mul, Nat.add_assoc]
    have hright : A.slot lo + mulSize (n / 2 + 1) A.width = A.slot (lo + (n / 2 + 1)) := by
      rw [A.mulSize_eq (by omega), ArrayObject.slot, ArrayObject.slot, Nat.add_mul lo,
        Nat.add_assoc]
    have hsub : subSize n (n / 2 + 1) = n - (n / 2 + 1) := subSize_eq (by omega) (by omega)
    simp only [hslot, hright, hsub, A.load_record m hin, Checked.ok_bind]
    have hm := A.length_record m (lo + n / 2)
    by_cases heq : compare key (A.record m (lo + n / 2)) = 0
    · rw [if_pos heq]
      exact ⟨some (A.slot (lo + n / 2)), rfl, lo + n / 2, by omega, by omega, rfl, heq⟩
    rw [if_neg heq]
    by_cases hless : compare key (A.record m (lo + n / 2)) < 0
    · -- What stands from the middle on exceeds the key.
      rw [if_pos hless]
      obtain ⟨r, hrun, hr⟩ := ih (n / 2) hmid lo (by omega)
      refine ⟨r, hrun, ?_⟩
      match r, hr with
      | some p, ⟨i, hlo, hhi, hp, hi⟩ => exact ⟨i, hlo, by omega, hp, hi⟩
      | none, hr =>
        intro i hlo hhi hi
        by_cases hleft : i < lo + n / 2
        · exact hr i hlo hleft hi
        have hmi := record_le h hasc (show lo + n / 2 ≤ i by omega) (by omega)
        have hik := h.le_of_eq hkey (A.length_record m i) hi
        have hmk := h.trans _ _ _ hm (A.length_record m i) hkey hmi hik
        have hflip := h.flip _ _ hm hkey
        omega
    · -- The key exceeds what stands up to the middle.
      rw [if_neg hless]
      obtain ⟨r, hrun, hr⟩ := ih (n - (n / 2 + 1)) (by omega) (lo + (n / 2 + 1)) (by omega)
      refine ⟨r, hrun, ?_⟩
      match r, hr with
      | some p, ⟨i, hlo, hhi, hp, hi⟩ => exact ⟨i, by omega, by omega, hp, hi⟩
      | none, hr =>
        intro i hlo hhi hi
        by_cases hright : lo + (n / 2 + 1) ≤ i
        · exact hr i hright (by omega) hi
        have him := record_le h hasc (show i ≤ lo + n / 2 by omega) hin
        have hkm := h.trans _ _ _ hkey (A.length_record m i) hm (Int.le_of_eq hi) him
        omega

end search

/-- For a comparator that is a total preorder of the elements, `qsort` leaves a stable sort of the
    array and touches no other byte, and `bsearch` in a sorted array returns an element that
    compares equal to the key exactly where there is one; both end for every count. -/
theorem qsort_bsearch (A : ArrayObject) (compare : Comparator)
    (h : TotalPreorder A.IsElement compare) (m : NatMem) :
    (∃ m', qsort A.region A.base A.count A.width (some compare) m = .ok m' ∧
      StablySorted compare (A.elements m) (A.elements m') ∧
      ∀ x, ¬ A.region.Holds x 1 → m' x = m x) ∧
    ∀ key, A.IsElement key → Ascending compare (A.elements m) →
      ∃ r, bsearch A.region key A.base A.count A.width compare m = .ok r ∧
        (∀ p, r = some p → ∃ i < A.count, p = A.slot i ∧ compare key (A.record m i) = 0) ∧
        (r.isSome ↔ ∃ e ∈ A.elements m, compare key e = 0) := by
  refine ⟨qsort_spec h m, ?_⟩
  intro key hkey hasc
  obtain ⟨r, hrun, hr⟩ := bsearch_spec h hkey hasc 0 A.count (by omega)
  have hbase : A.slot 0 = A.base := by simp [ArrayObject.slot]
  rw [hbase] at hrun
  refine ⟨r, hrun, ?_⟩
  match r, hr with
  | some p, ⟨i, _, hi, hp, heq⟩ =>
    rw [Nat.zero_add] at hi
    refine ⟨?_, iff_of_true rfl ⟨A.record m i, ?_, heq⟩⟩
    · intro q hq
      cases hq
      exact ⟨i, hi, hp, heq⟩
    · exact A.mem_records.mpr ⟨i, Nat.zero_le i, by omega, rfl⟩
  | none, hr =>
    refine ⟨fun p hp => absurd hp (by simp), iff_of_false (by simp) ?_⟩
    rintro ⟨e, he, heq⟩
    obtain ⟨i, hlo, hhi, rfl⟩ := A.mem_records.mp he
    exact hr i hlo hhi heq

/-- Little-endian numbers in their order are a total preorder. -/
theorem totalPreorder_leNat (D : Bytes → Prop) :
    TotalPreorder D fun a b => (leNat a : Int) - leNat b where
  flip := by
    intro a b _ _
    omega
  trans := by
    intro a b c _ _ _ hab hbc
    omega

/-- Three numbers of two bytes are sorted already, and the second of them is found. -/
theorem qsort_bsearch_numbers :
    (∃ m', qsort ⟨4096, 6⟩ 4096 3 2 (some fun a b => (leNat a : Int) - leNat b)
        (poke (fun _ => 0) 4096 [1, 0, 2, 1, 3, 1]) = .ok m') ∧
      ∃ r, bsearch ⟨4096, 6⟩ [2, 1] 4096 3 2 (fun a b => (leNat a : Int) - leNat b)
        (poke (fun _ => 0) 4096 [1, 0, 2, 1, 3, 1]) = .ok r ∧ r.isSome := by
  obtain ⟨⟨m', hsort, _⟩, hsearch⟩ :=
    qsort_bsearch ⟨4096, 3, 2, by decide, by decide, by decide⟩
      (fun a b => (leNat a : Int) - leNat b) (totalPreorder_leNat _)
      (poke (fun _ => 0) 4096 [1, 0, 2, 1, 3, 1])
  obtain ⟨r, hrun, _, hfound⟩ := hsearch [2, 1] rfl (by unfold Ascending; decide)
  exact ⟨⟨m', hsort⟩, r, hrun, hfound.mpr ⟨[2, 1], by decide, by decide⟩⟩

end MeuOS.Libc
