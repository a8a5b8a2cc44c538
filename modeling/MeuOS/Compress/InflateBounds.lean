import MeuOS.Compress.Inflate
import MeuOS.Lib.Bits
import MeuOS.Lib.CountingSort
import Mathlib.Logic.Relation

namespace MeuOS.Compress.Inflate

open MeuOS.Lib Lib.Checked Function

/-!
# Accesses of the DEFLATE decoder

The one array that a stream can overrun is `dist_lengths`: it has 30 entries, and a header may
announce 32 of them.  A header is described by the list of its code lengths, an entry for each
symbol; where the list reaches symbol 30 of the distance code, the decoder leaves the array.

* `huffBuild_sat`, `huffDecode_sat` — tables are built and read inside their arrays;
* `codeLengths`, `readLengths_reads` — the lengths of a header, and what the decoder makes of them;
* `Overruns`, `dynamicTables_overrun`, `dynamicTables_sat` — the headers that overrun;
* `inflateBlock_sat`, `inflateBlock_overrun` — one block;
* `mzDeflateDecompress_inBounds` — every access is in bounds exactly when no block overruns.
-/

/-! ### Bits -/

/-- The reader has not passed the end of its input. -/
def BitReader.Inside (br : BitReader) : Prop :=
  br.bit_pos < 8 ∧ 8 * br.byte_pos + br.bit_pos ≤ 8 * br.data.length

/-- The number of bits that are left. -/
def BitReader.left (br : BitReader) : Nat := 8 * br.data.length - (8 * br.byte_pos + br.bit_pos)

/-- `br'` reads the same input, `k` bits later or more. -/
structure After (br br' : BitReader) (k : Nat) : Prop where
  data : br'.data = br.data
  inside : br'.Inside
  left : br'.left + k ≤ br.left

variable {br br' : BitReader} {k i n num_symbols turns hlit v total : Nat} {counts : Vector Nat 16}
  {out : OutBuf} {cells : List (Option Nat)} {code_ht : HuffTable} {s : BitReader × OutBuf}
  {input : Bytes}

theorem After.refl (h : br.Inside) : After br br 0 := ⟨rfl, h, le_rfl⟩

theorem After.trans {br'' : BitReader} {m : Nat} (h : After br br' k)
    (h' : After br' br'' m) : After br br'' (k + m) :=
  ⟨h'.data.trans h.data, h'.inside, by have := h.left; have := h'.left; omega⟩

theorem After.weaken {m : Nat} (h : After br br' k) (hm : m ≤ k) :
    After br br' m :=
  ⟨h.data, h.inside, by have := h.left; omega⟩

theorem brInit_inside (data : Bytes) : (brInit data).Inside := by
  simp [BitReader.Inside, brInit]

theorem byte_sat (h : i < br.data.length) :
    (br.byte i).Sat (· < 256) := by
  simp only [BitReader.byte, List.getElem?_eq_getElem h, sat_ok]
  exact UInt8.toNat_lt _

/-- The bits a read result stands for: one when there is a bit. -/
def gain (r : Option Nat) : Nat := if r.isSome then 1 else 0

@[simp] theorem gain_some (b : Nat) : gain (some b) = 1 := rfl
@[simp] theorem gain_none : gain none = 0 := rfl

theorem brBit_sat (h : br.Inside) :
    (brBit br).Sat fun r => After br r.2 (gain r.1) ∧ ∀ b ∈ r.1, b < 2 := by
  obtain ⟨hbit, hpos⟩ := h
  unfold brBit
  split
  · exact ⟨After.refl ⟨hbit, hpos⟩, by simp⟩
  · rename_i hlt
    apply (byte_sat (Nat.lt_of_not_ge hlt)).bind
    intro b _
    have hb : (b >>> br.bit_pos) &&& 1 < 2 := Nat.and_lt_two_pow (n := 1) _ (by decide)
    split
    · refine ⟨⟨rfl, ⟨by simp, ?_⟩, ?_⟩, by simpa using hb⟩
      · dsimp only
        omega
      · simp only [BitReader.left, gain_some]
        omega
    · refine ⟨⟨rfl, ⟨?_, ?_⟩, ?_⟩, by simpa using hb⟩
      · dsimp only
        omega
      · dsimp only
        omega
      · simp only [BitReader.left, gain_some]
        omega

theorem brBitsLoop_sat {turns i val : Nat} {br : BitReader} (h : br.Inside) (hval : val < 2 ^ i) :
    (brBitsLoop turns i val br).Sat fun r => After br r.2 0 ∧ r.1 < 2 ^ (i + turns) := by
  induction turns generalizing i val br with
  | zero => exact ⟨After.refl h, hval⟩
  | succ turns ih =>
    apply (brBit_sat h).bind
    rintro ⟨b, br'⟩ ⟨hafter, hb⟩
    match b with
    | none => exact ⟨hafter, Nat.two_pow_pos _⟩
    | some b =>
      have hb : b < 2 := hb b rfl
      have hshift : b <<< i < 2 ^ (i + 1) := by
        rw [Nat.shiftLeft_eq, Nat.pow_succ, Nat.mul_comm]
        exact Nat.mul_lt_mul_of_pos_left hb (Nat.two_pow_pos i)
      have hor : val ||| (b <<< i) < 2 ^ (i + 1) :=
        Nat.or_lt_two_pow (hval.trans (Nat.pow_lt_pow_succ (by decide))) hshift
      apply (ih hafter.inside hor).mono
      rintro ⟨v, br''⟩ ⟨hafter', hv⟩
      refine ⟨(hafter.trans hafter').weaken (Nat.zero_le _), ?_⟩
      rwa [Nat.add_right_comm] at hv

theorem brBits_sat (h : br.Inside) (n : Nat) :
    (brBits br n).Sat fun r => After br r.2 0 ∧ r.1 < 2 ^ n := by
  have hloop := @brBitsLoop_sat n 0 0 br h (by simp)
  rwa [Nat.zero_add] at hloop

theorem brAlign_after (h : br.Inside) : After br (brAlign br) 0 := by
  obtain ⟨hbit, hpos⟩ := h
  unfold brAlign
  split
  · refine ⟨rfl, ⟨by simp, ?_⟩, ?_⟩
    · dsimp only
      omega
    · simp only [BitReader.left]
      omega
  · exact After.refl ⟨hbit, hpos⟩

/-! ### Huffman tables -/

theorem cellAt_replicate_zero (n i : Nat) : cellAt (Vector.replicate n 0) i = 0 := by
  unfold cellAt
  by_cases h : i < n <;> simp [h]

/-- Counting a length of 15 or less raises its own count and no other. -/
theorem countLength_ok {lengths : Vector Nat n} (hi : i < n)
    (hle : cellAt lengths i ≤ 15) (hcounts : cellAt counts = tally (cellAt lengths) i) :
    ∃ counts', countLength lengths i counts = .ok (some counts') ∧
      cellAt counts' = tally (cellAt lengths) (i + 1) := by
  obtain ⟨counts', hstore, hcell⟩ := storeAt_eq (ε := MzErr) counts
    (cellAt counts (cellAt lengths i) + 1) (show cellAt lengths i < 16 by omega)
  refine ⟨counts', ?_, ?_⟩
  · unfold countLength
    rw [fetchAt_eq lengths hi, ok_bind, if_neg (by omega),
      fetchAt_eq counts (show cellAt lengths i < 16 by omega), ok_bind, hstore]
    rfl
  · ext k
    rw [hcell, tally_succ]
    by_cases hk : k = cellAt lengths i
    · subst hk
      simp [hcounts]
    · simp [update_of_ne hk, hcounts, Ne.symm hk]

/-- The invariant of the counting. -/
def Counted {n : Nat} (lengths : Vector Nat n) (i : Nat) (r : Option (Vector Nat 16)) : Prop :=
  ∀ counts ∈ r, cellAt counts = tally (cellAt lengths) i ∧ ∀ j < i, cellAt lengths j ≤ 15

theorem counted_zero (lengths : Vector Nat n) :
    Counted lengths 0 (some (Vector.replicate 16 0)) := by
  intro counts hmem
  cases hmem
  refine ⟨?_, by simp⟩
  ext k
  rw [cellAt_replicate_zero, tally_zero]

/-- The counts are those of the lengths, and no length is above 15. -/
theorem countLengths_sat {lengths : Vector Nat n} (h : num_symbols ≤ n) :
    (countLengths lengths num_symbols).Sat (Counted lengths num_symbols) := by
  apply (forUp_sat (Counted lengths) _ (counted_zero lengths)).mono
  · intro r hr
    rwa [Nat.zero_add] at hr
  · intro i r _ hi hr
    match r with
    | none => simp [Counted]
    | some counts =>
      obtain ⟨hcounts, hle⟩ := hr counts rfl
      dsimp only
      by_cases hl : cellAt lengths i ≤ 15
      · obtain ⟨counts', hok, hcounts'⟩ := countLength_ok (show i < n by omega) hl hcounts
        rw [hok]
        intro counts'' hmem
        cases hmem
        refine ⟨hcounts', fun j hj => ?_⟩
        by_cases hji : j = i
        · subst hji
          exact hl
        · exact hle j (by omega)
      · unfold countLength
        rw [fetchAt_eq lengths (show i < n by omega), ok_bind, if_pos (by omega)]
        simp [Counted]

/-- Lengths of 15 and less are all counted. -/
theorem countLengths_ok {lengths : Vector Nat n} (h : num_symbols ≤ n)
    (hle : ∀ i < num_symbols, cellAt lengths i ≤ 15) :
    ∃ counts, countLengths lengths num_symbols = .ok (some counts) ∧
      cellAt counts = tally (cellAt lengths) num_symbols := by
  obtain ⟨r, hr, counts, rfl, hcounts⟩ := forUp_ok (ε := MzErr)
    (fun i r => ∃ counts, r = some counts ∧ cellAt counts = tally (cellAt lengths) i)
    (f := fun i counts => counts.elim (.ok none) (countLength lengths i))
    (by
      rintro i _ _ hi ⟨counts, rfl, hcounts⟩
      rw [Nat.zero_add] at hi
      obtain ⟨counts', hok, hcounts'⟩ :=
        countLength_ok (show i < n by omega) (hle i hi) hcounts
      exact ⟨some counts', hok, counts', rfl, hcounts'⟩)
    ⟨_, rfl, (counted_zero lengths _ rfl).1⟩
  rw [Nat.zero_add] at hcounts
  refine ⟨counts, Eq.trans ?_ hr, hcounts⟩
  unfold countLengths
  congr 1
  funext i counts
  cases counts <;> rfl

theorem codesLeft_sat (counts : Vector Nat 16) : (codesLeft counts).Sat fun _ => True := by
  apply forUp_sat (fun _ _ => True) _ trivial
  intro len r _ hlen _
  match r with
  | none => trivial
  | some left =>
    dsimp only
    rw [fetchAt_eq counts (show len < 16 by omega), ok_bind]
    split <;> trivial

/-- Each length's offset is the number of shorter codes. -/
theorem lengthOffsets_ok (h0 : cellAt counts 0 = 0) :
    ∃ r, lengthOffsets counts = .ok r ∧
      ∀ k, 1 ≤ k → k < 16 → cellAt r.1 k = rangeStart (cellAt counts) k := by
  obtain ⟨r, hr, -, hoff⟩ := @forUp_ok MzErr _
    (fun len (r : Vector Nat 16 × Nat) => r.2 = rangeStart (cellAt counts) len ∧
      ∀ k, 1 ≤ k → k < len → cellAt r.1 k = rangeStart (cellAt counts) k)
    (fun len r => do
      let offsets ← storeAt r.1 len r.2
      let c ← fetchAt counts len
      return (offsets, r.2 + c)) 15 1 (Vector.replicate 16 0, 0)
    (by
      rintro len ⟨offsets, off⟩ hlo hlen ⟨hoff, hprev⟩
      obtain ⟨offsets', hstore, hcell⟩ :=
        storeAt_eq (ε := MzErr) offsets off (show len < 16 by omega)
      dsimp only at hoff hprev ⊢
      rw [hstore, ok_bind, fetchAt_eq counts (show len < 16 by omega), ok_bind]
      refine ⟨_, rfl, ?_, ?_⟩
      · dsimp only
        rw [rangeStart_succ, hoff]
      · intro k hk hlt
        rw [hcell]
        by_cases he : k = len
        · subst he
          simpa using hoff
        · rw [update_of_ne he]
          exact hprev k hk (by omega))
    ⟨by
      rw [show (1 : Nat) = 0 + 1 from rfl, rangeStart_succ, h0]
      rfl, fun k hk hlt => absurd hlt (by omega)⟩
  exact ⟨r, hr, hoff⟩

/-- A table whose codes have all their symbols in the array. -/
def HuffTable.Good (ht : HuffTable) : Prop :=
  cellAt ht.counts 0 = 0 ∧ rangeStart (cellAt ht.counts) 16 ≤ 288

/-- The place of a symbol, behind those with shorter codes and the earlier ones of its length. -/
def symbolSlot (size key : Nat → Nat) (sym : Nat) : Nat :=
  rangeStart size (key sym) + tally key sym (key sym)

/-- Every symbol is placed inside the array, and stays in its place. -/
theorem placeSymbols_ok {lengths : Vector Nat n} {size : Nat → Nat}
    {offsets : Vector Nat 16} (symbols : Vector Nat 288) (h : num_symbols ≤ n)
    (hle : ∀ i < num_symbols, cellAt lengths i ≤ 15)
    (hsize : ∀ k, 1 ≤ k → size k = tally (cellAt lengths) num_symbols k)
    (hroom : rangeStart size 16 ≤ 288)
    (hoff : ∀ k, 1 ≤ k → k < 16 → cellAt offsets k = rangeStart size k) :
    ∃ r, placeSymbols lengths num_symbols offsets symbols = .ok r ∧
      ∀ s < num_symbols, cellAt lengths s ≠ 0 →
        cellAt r.2 (symbolSlot size (cellAt lengths) s) = s := by
  obtain ⟨r, hr, -, hplaced⟩ := @forUp_ok MzErr _
    (fun sym (r : Vector Nat 16 × Vector Nat 288) =>
      (∀ k, 1 ≤ k → k < 16 →
        cellAt r.1 k = rangeStart size k + tally (cellAt lengths) sym k) ∧
      ∀ s < sym, cellAt lengths s ≠ 0 → cellAt r.2 (symbolSlot size (cellAt lengths) s) = s)
    (fun sym r => do
      let l ← fetchAt lengths sym
      if l > 0 then
        let o ← fetchAt r.1 l
        let symbols ← storeAt r.2 o sym
        return (← storeAt r.1 l (o + 1), symbols)
      else return (r.1, r.2)) num_symbols 0 (offsets, symbols)
    (by
      rintro sym ⟨offsets, symbols⟩ _ hsym ⟨hr, hplaced⟩
      dsimp only at hr hplaced ⊢
      rw [fetchAt_eq lengths (show sym < n by omega), ok_bind]
      have hl := hle sym (by omega)
      split
      · rename_i hpos
        have hslot := @slot_lt (cellAt lengths) size num_symbols 16 sym (by omega) (by omega)
          (hsize _ hpos)
        have ho := hr _ hpos (by omega)
        obtain ⟨symbols', hstore, hcell⟩ := storeAt_eq (ε := MzErr) symbols sym
          (show cellAt offsets (cellAt lengths sym) < 288 by omega)
        obtain ⟨offsets', hstore', hcell'⟩ := storeAt_eq (ε := MzErr) offsets
          (cellAt offsets (cellAt lengths sym) + 1) (show cellAt lengths sym < 16 by omega)
        rw [fetchAt_eq offsets (show cellAt lengths sym < 16 by omega), ok_bind, hstore,
          ok_bind, hstore', ok_bind]
        refine ⟨_, rfl, ?_, ?_⟩
        · intro k hk hlt
          rw [hcell', tally_succ]
          by_cases he : k = cellAt lengths sym
          · subst he
            simp [ho, Nat.add_assoc]
          · rw [update_of_ne he, if_neg (Ne.symm he)]
            exact hr k hk hlt
        · intro s hs hused
          rw [hcell, ho]
          rcases Nat.lt_succ_iff_lt_or_eq.mp hs with hlt | rfl
          · -- An earlier symbol has a slot of its own.
            have hne : symbolSlot size (cellAt lengths) s
                ≠ symbolSlot size (cellAt lengths) sym := fun heq =>
              absurd (slot_inj (show s < num_symbols by omega) (show sym < num_symbols by omega)
                (hsize _ (Nat.pos_of_ne_zero hused)) (hsize _ hpos) heq) (by omega)
            exact (update_of_ne hne _ _).trans (hplaced s hlt hused)
          · exact update_self _ _ _
      · rename_i hzero
        refine ⟨_, rfl, ?_, ?_⟩
        · intro k hk hlt
          rw [tally_succ, if_neg (by omega)]
          exact hr k hk hlt
        · intro s hs hused
          rcases Nat.lt_succ_iff_lt_or_eq.mp hs with hlt | rfl
          · exact hplaced s hlt hused
          · exact absurd (Nat.pos_of_ne_zero hused) hzero)
    ⟨fun k hk hlt => by simp [hoff k hk hlt], fun s hs => absurd hs (Nat.not_lt_zero s)⟩
  rw [Nat.zero_add] at hplaced
  exact ⟨r, hr, hplaced⟩

/-- The symbols with a nonzero length fit into the table. -/
theorem rangeStart_update_le (key : Nat → Nat) (n m : Nat) :
    rangeStart (update (tally key n) 0 0) m ≤ n := by
  refine le_trans ?_ (sum_tally_le key n m)
  apply Finset.sum_le_sum
  intro k _
  by_cases hk : k = 0
  · simp [hk]
  · rw [update_of_ne hk]

/-- `huff_build` keeps inside its arrays when the lengths are inside theirs, and its table is
good. -/
theorem huffBuild_sat {n num_symbols : Nat} {lengths : Vector Nat n} (h : num_symbols ≤ n)
    (hmax : num_symbols ≤ 288) :
    (huffBuild lengths num_symbols).Sat fun r => ∀ p ∈ r, p.1.Good := by
  apply (countLengths_sat h).bind
  intro r hr
  match r with
  | none => simp
  | some counts =>
    obtain ⟨hcounts, hle⟩ := hr counts rfl
    obtain ⟨counts', hstore, hcell⟩ := storeAt_eq (ε := MzErr) counts 0 (show 0 < 16 by decide)
    have h0 : cellAt counts' 0 = 0 := by simp [hcell]
    have hsum : rangeStart (cellAt counts') 16 ≤ num_symbols := by
      rw [hcell, hcounts]
      exact rangeStart_update_le _ _ _
    dsimp only
    rw [show ((0 : Nat) : Int) = 0 from rfl] at hstore
    rw [hstore, ok_bind]
    apply (codesLeft_sat counts').bind
    intro left _
    match left with
    | none => simp
    | some left =>
      obtain ⟨⟨offsets, off⟩, hoffsets, hoff⟩ := lengthOffsets_ok h0
      have hsize : ∀ k, 1 ≤ k → cellAt counts' k = tally (cellAt lengths) num_symbols k := by
        intro k hk
        rw [hcell, hcounts, update_of_ne (by omega)]
      obtain ⟨⟨offsets', symbols⟩, hplace, -⟩ :=
        placeSymbols_ok (Vector.replicate 288 0) h hle hsize (by omega) hoff
      dsimp only at hoff ⊢
      rw [hoffsets, ok_bind]
      rw [hplace, ok_bind]
      intro p hp
      cases hp
      exact ⟨h0, by dsimp only; omega⟩

/-- `huff_build` leaves the array of lengths when it is asked for more lengths than there are. -/
theorem huffBuild_fault {lengths : Vector Nat n} (h : n < num_symbols)
    (hle : ∀ i < n, cellAt lengths i ≤ 15) : huffBuild lengths num_symbols = .fault := by
  have hcount : countLengths lengths num_symbols = .fault := by
    apply forUp_fault
      (fun i r => ∃ counts, r = some counts ∧ cellAt counts = tally (cellAt lengths) i)
      (Nat.zero_le n) (by omega) _ _ ⟨_, rfl, (counted_zero lengths _ rfl).1⟩
    · rintro i _ hi ⟨counts, rfl, hcounts⟩
      obtain ⟨counts', hok, hcounts'⟩ := countLength_ok hi (hle i hi) hcounts
      exact ⟨some counts', hok, counts', rfl, hcounts'⟩
    · rintro _ ⟨counts, rfl, -⟩
      dsimp only
      unfold countLength
      rw [fetchAt_outside lengths le_rfl, fault_bind]
  unfold huffBuild
  rw [hcount, fault_bind]

/-- `huff_decode` keeps inside a good table and takes a bit at least for a symbol. -/
theorem huffDecodeLoop_sat {ht : HuffTable} (hht : ht.Good) {len code first index : Nat}
    (h : br.Inside) (hlen : turns + len = 16) (hcode : first ≤ code)
    (hindex : index = rangeStart (cellAt ht.counts) len) :
    (huffDecodeLoop ht turns len code first index br).Sat fun r => After br r.2 (gain r.1) := by
  induction turns generalizing len code first index br with
  | zero => exact After.refl h
  | succ turns ih =>
    apply (brBit_sat h).bind
    rintro ⟨b, br'⟩ ⟨hafter, hb⟩
    match b with
    | none => exact hafter
    | some b =>
      have hle : code ≤ code ||| b := Nat.left_le_or
      have hnext := rangeStart_succ (cellAt ht.counts) len
      have hend := rangeStart_mono (cellAt ht.counts) (show len + 1 ≤ 16 by omega)
      have hsum := hht.2
      dsimp only
      rw [fetchAt_eq ht.counts (show len < 16 by omega), ok_bind]
      split
      · -- The code is one of this length: its place is before the end of the length's range.
        rename_i hlt
        have hplace : (index : Int) + (((code ||| b : Nat) : Int) - first)
            = ((index + ((code ||| b) - first) : Nat) : Int) := by omega
        rw [hplace, fetchAt_eq ht.symbols (by omega)]
        exact hafter
      · rename_i hge
        have hcode' : (first + cellAt ht.counts len) <<< 1 ≤ (code ||| b) <<< 1 := by
          rw [Nat.shiftLeft_eq, Nat.shiftLeft_eq]
          omega
        apply (ih hafter.inside (by omega) hcode' (by omega)).mono
        intro r hr
        exact (hafter.trans hr).weaken (by simp)

theorem huffDecode_sat {ht : HuffTable} (hht : ht.Good) (h : br.Inside) :
    (huffDecode br ht).Sat fun r => After br r.2 (gain r.1) := by
  apply huffDecodeLoop_sat hht h rfl le_rfl
  rw [show (1 : Nat) = 0 + 1 from rfl, rangeStart_succ, hht.1]
  rfl

theorem length_table : ∀ i < 29, cellAt sLengthBase i ≤ 258 ∧ cellAt sLengthExtra i ≤ 5 := by
  decide

theorem dist_table : ∀ i < 30, 1 ≤ cellAt sDistBase i := by
  decide

/-! ### The output -/

/-- What has been written lies inside the buffer, and the buffer inside the address space. -/
def OutBuf.Fits (out : OutBuf) : Prop := out.pos ≤ out.cap ∧ out.cap ≤ 2 ^ 62

theorem push_sat {b : UInt8} (h : out.Fits) (hroom : out.pos < out.cap) :
    (out.push b).Sat fun o => o.Fits ∧ o.pos = out.pos + 1 ∧ o.cap = out.cap := by
  unfold OutBuf.push
  rw [if_pos hroom]
  have hpos : (out.bytes ++ [b]).length = out.pos + 1 := by simp [OutBuf.pos]
  exact ⟨⟨by simp only [OutBuf.pos] at *; omega, h.2⟩, hpos, rfl⟩

theorem back_sat {dist : Nat} (h : out.Fits) (h1 : 1 ≤ dist)
    (hle : dist ≤ out.pos) : (out.back dist).Sat fun _ => True := by
  have hcap := h.1
  have hlt : out.pos - dist < out.bytes.length := by
    unfold OutBuf.pos at *
    omega
  unfold OutBuf.back
  rw [if_pos ⟨hle, by omega⟩, List.getElem?_eq_getElem hlt]
  trivial

/-- A match that starts in the bytes already written, with room for all of it. -/
theorem outputCopy_sat {dist length : Nat} (h : out.Fits) (h1 : 1 ≤ dist)
    (hle : dist ≤ out.pos) (hroom : out.pos + length ≤ out.cap) :
    (outputCopy dist length out).Sat OutBuf.Fits := by
  apply (forUp_sat
    (fun i (o : OutBuf) => o.Fits ∧ o.pos = out.pos + i ∧ o.cap = out.cap) _ ⟨h, rfl, rfl⟩).mono
  · exact fun o ho => ho.1
  · rintro i o _ hi ⟨hfits, hpos, hcap⟩
    apply (back_sat hfits h1 (by omega)).bind
    intro b _
    apply (push_sat hfits (by omega)).mono
    rintro o' ⟨hfits', hpos', hcap'⟩
    exact ⟨hfits', by omega, by omega⟩

section output

variable {grants : Nat → Bool} (hgrants : ∀ n, grants n = true → n ≤ 2 ^ 62)

include hgrants

theorem grow_sat {new_cap : Nat} (hsize : new_cap < 2 ^ 64) (hpos : out.pos ≤ new_cap) :
    (out.grow grants new_cap).Sat fun o => o.Fits ∧ o.pos = out.pos ∧ o.cap = new_cap := by
  unfold OutBuf.grow
  rw [Nat.mod_eq_of_lt hsize]
  split
  · rename_i hgranted
    exact ⟨⟨hpos, hgrants _ hgranted⟩, rfl, rfl⟩
  · trivial

/-- The buffer is made larger where a piece of `len` bytes does not fit. -/
theorem reserve_sat {len : Nat} (h : out.Fits) (hlen : len ≤ 65535) :
    (out.reserve grants len).Sat
      fun o => o.Fits ∧ o.pos = out.pos ∧ out.pos + len ≤ o.cap := by
  obtain ⟨hpos, hcap⟩ := h
  unfold OutBuf.reserve
  split
  · apply (grow_sat hgrants (by omega) (by omega)).mono
    rintro o ⟨hfits, hpos', hcap'⟩
    exact ⟨hfits, hpos', by omega⟩
  · exact ⟨⟨hpos, hcap⟩, rfl, by omega⟩

theorem reserveLiteral_sat (h : out.Fits) :
    (out.reserveLiteral grants).Sat fun o => o.Fits ∧ o.pos = out.pos ∧ out.pos < o.cap := by
  obtain ⟨hpos, hcap⟩ := h
  unfold OutBuf.reserveLiteral
  split
  · apply (grow_sat hgrants (by omega) (by omega)).mono
    rintro o ⟨hfits, hpos', hcap'⟩
    exact ⟨hfits, hpos', by omega⟩
  · exact ⟨⟨hpos, hcap⟩, rfl, by omega⟩

/-! ### The parts of a block -/

theorem inflateStored_sat (h : br.Inside) (hout : out.Fits) :
    (inflateStored grants br out).Sat fun r => After br r.1 0 ∧ r.2.Fits := by
  have halign := brAlign_after h
  have hzero : (brAlign br).bit_pos = 0 := by
    unfold brAlign
    split
    · rfl
    · omega
  unfold inflateStored
  generalize brAlign br = br' at halign hzero ⊢
  dsimp only
  split
  · trivial
  · rename_i hroom
    apply (byte_sat (show br'.byte_pos < br'.data.length by omega)).bind
    intro d0 hd0
    apply (byte_sat (show br'.byte_pos + 1 < br'.data.length by omega)).bind
    intro d1 hd1
    apply (byte_sat (show br'.byte_pos + 2 < br'.data.length by omega)).bind
    intro d2 _
    apply (byte_sat (show br'.byte_pos + 3 < br'.data.length by omega)).bind
    intro d3 _
    have hlen : d0 ||| (d1 <<< 8) < 2 ^ 16 := by
      apply Nat.or_lt_two_pow (by omega)
      rw [Nat.shiftLeft_eq]
      omega
    generalize d0 ||| (d1 <<< 8) = len at hlen ⊢
    split
    · trivial
    · apply (reserve_sat hgrants hout (by omega)).bind
      rintro o ⟨hfits, hpos, hcap⟩
      split
      · trivial
      · rename_i hdata
        unfold copyStored
        rw [if_pos ⟨by dsimp only; omega, by omega⟩]
        have hleft := halign.left
        refine ⟨⟨halign.data, ⟨by simp [hzero], ?_⟩, ?_⟩, ⟨?_, hfits.2⟩⟩
        · simp only [hzero]
          omega
        · simp only [BitReader.left, hzero] at *
          omega
        · simp only [OutBuf.pos, List.length_append, List.length_take, List.length_drop] at *
          omega

theorem inflateMatch_sat {dist_ht : HuffTable} (hht : dist_ht.Good) {li : Nat} (h : br.Inside)
    (hout : out.Fits) :
    (inflateMatch grants dist_ht li br out).Sat fun r => After br r.1 0 ∧ r.2.Fits := by
  unfold inflateMatch
  split
  · trivial
  · rename_i hli
    obtain ⟨hbase, hextra⟩ := length_table li (by omega)
    rw [fetchAt_eq _ (show li < 29 by omega), ok_bind,
      fetchAt_eq _ (show li < 29 by omega), ok_bind]
    apply (brBits_sat h _).bind
    rintro ⟨bits, br₁⟩ ⟨hafter₁, hbits⟩
    have hbits : bits < 2 ^ 5 := hbits.trans_le (Nat.pow_le_pow_right (by decide) hextra)
    dsimp only
    have hlength : cellAt sLengthBase li + bits ≤ 65535 := by omega
    generalize cellAt sLengthBase li + bits = length at hlength ⊢
    apply (huffDecode_sat hht hafter₁.inside).bind
    rintro ⟨dsym, br₂⟩ hafter₂
    match dsym with
    | none => trivial
    | some dsym =>
      dsimp only at hafter₂ ⊢
      split
      · trivial
      · rename_i hdsym
        rw [fetchAt_eq _ (show dsym < 30 by omega), ok_bind,
          fetchAt_eq _ (show dsym < 30 by omega), ok_bind]
        apply (brBits_sat hafter₂.inside _).bind
        rintro ⟨bits', br₃⟩ ⟨hafter₃, -⟩
        have hdist : 1 ≤ cellAt sDistBase dsym + bits' := by
          have := dist_table dsym (by omega)
          omega
        generalize cellAt sDistBase dsym + bits' = dist at hdist ⊢
        split
        · trivial
        · rename_i hback
          apply (reserve_sat hgrants hout hlength).bind
          rintro o ⟨hfits, hpos, hcap⟩
          apply (outputCopy_sat hfits hdist (by omega) (by omega)).bind
          intro o' hfits'
          exact ⟨((hafter₁.trans hafter₂).trans hafter₃).weaken (Nat.zero_le _), hfits'⟩

/-- The symbols of a block: every turn takes a bit at least, so the turns suffice. -/
theorem decodeSymbols_sat {lit_ht dist_ht : HuffTable} (hlit : lit_ht.Good)
    (hdist : dist_ht.Good) (h : br.Inside)
    (hout : out.Fits) (hturns : br.left < turns) :
    (decodeSymbols grants lit_ht dist_ht turns br out).Sat
      fun r => After br r.1 0 ∧ r.2.Fits := by
  induction turns generalizing br out with
  | zero => exact absurd hturns (Nat.not_lt_zero _)
  | succ turns ih =>
    apply (huffDecode_sat hlit h).bind
    rintro ⟨sym, br₁⟩ hafter
    match sym with
    | none => trivial
    | some sym =>
      have hleft : br₁.left + 1 ≤ br.left := hafter.left
      have hafter : After br br₁ 0 := hafter.weaken (Nat.zero_le _)
      dsimp only
      split
      · apply (reserveLiteral_sat hgrants hout).bind
        rintro o ⟨hfits, hpos, hroom⟩
        apply (push_sat hfits (by omega)).bind
        rintro o' ⟨hfits', -, -⟩
        apply (ih hafter.inside hfits' (by omega)).mono
        rintro r ⟨hafter', hfits''⟩
        exact ⟨hafter.trans hafter', hfits''⟩
      · split
        · exact ⟨hafter, hout⟩
        · generalize sym - 257 = li
          apply (inflateMatch_sat hgrants hdist hafter.inside hout).bind
          rintro ⟨br₂, o⟩ ⟨hafter₂, hfits⟩
          have hleft₂ : br₂.left + 0 ≤ br₁.left := hafter₂.left
          apply (ih hafter₂.inside hfits (show br₂.left < turns by omega)).mono
          rintro r ⟨hafter', hfits'⟩
          exact ⟨(hafter.trans hafter₂).trans hafter', hfits'⟩

end output

/-! ### The header of a dynamic block -/

theorem code_order : ∀ i < 19, cellAt sCodeOrder i < 19 := by
  decide

theorem readCodeLengths_sat {hclen : Nat} (h : br.Inside) (hmax : hclen ≤ 19) :
    (readCodeLengths hclen br).Sat fun r => After br r.2 0 := by
  apply forUp_sat (fun _ (r : Vector Nat 19 × BitReader) => After br r.2 0) _ (After.refl h)
  rintro i ⟨code_lengths, br₁⟩ _ hi hafter
  dsimp only at hafter ⊢
  rw [fetchAt_eq sCodeOrder (show i < 19 by omega), ok_bind]
  apply (brBits_sat hafter.inside 3).bind
  rintro ⟨val, br₂⟩ ⟨hafter₂, -⟩
  obtain ⟨code_lengths', hstore, -⟩ :=
    storeAt_eq (ε := MzErr) code_lengths val (code_order i (by omega))
  rw [hstore, ok_bind]
  exact hafter.trans hafter₂

/-- The header announces 257 to 288 lengths of the first kind and 1 to 32 of the second. -/
theorem dynamicHeader_sat (h : br.Inside) :
    (dynamicHeader br).Sat fun (hlit, hdist, code_ht, br') =>
      257 ≤ hlit ∧ hlit ≤ 288 ∧ hdist ≤ 32 ∧ code_ht.Good ∧ After br br' 0 := by
  apply (brBits_sat h 5).bind
  rintro ⟨h₁, br₁⟩ ⟨hafter₁, hlit⟩
  apply (brBits_sat hafter₁.inside 5).bind
  rintro ⟨h₂, br₂⟩ ⟨hafter₂, hdist⟩
  apply (brBits_sat hafter₂.inside 4).bind
  rintro ⟨h₃, br₃⟩ ⟨hafter₃, hclen⟩
  apply (readCodeLengths_sat hafter₃.inside (show h₃ + 4 ≤ 19 by omega)).bind
  rintro ⟨code_lengths, br₄⟩ hafter₄
  apply (huffBuild_sat (le_refl 19) (by decide)).bind
  intro r hr
  match r with
  | none => trivial
  | some (code_ht, left) =>
    refine ⟨by omega, by omega, by omega, hr _ rfl, ?_⟩
    exact ((hafter₁.trans hafter₂).trans hafter₃).trans hafter₄

/-- A code that is not over-subscribed is not rejected. -/
theorem huffBuild_ne_none {lengths : Vector Nat n} {counts' : Vector Nat 16} {left : Int}
    (hcount : countLengths lengths num_symbols = .ok (some counts))
    (hstore : storeAt (ε := MzErr) counts 0 0 = .ok counts')
    (hleft : codesLeft counts' = .ok (some left)) :
    huffBuild lengths num_symbols ≠ .ok none := by
  unfold huffBuild
  rw [hcount, ok_bind]
  dsimp only
  rw [hstore, ok_bind, hleft, ok_bind]
  dsimp only
  intro h
  match lengthOffsets counts', h with
  | .ok (offsets, _), h =>
    rw [ok_bind] at h
    match placeSymbols lengths num_symbols offsets (Vector.replicate 288 0), h with
    | .ok _, h => cases h

theorem tablesFor_sat {lit_lengths : Vector Nat 288} {dist_lengths : Vector Nat 30}
    (hlit : huffBuild lit_lengths 288 ≠ .ok none) (hdist : huffBuild dist_lengths 30 ≠ .ok none) :
    (tablesFor lit_lengths dist_lengths).Sat fun r => r.1.Good ∧ r.2.Good := by
  have hlit' := @huffBuild_sat 288 288 lit_lengths (Nat.le_refl _) (Nat.le_refl _)
  have hdist' := @huffBuild_sat 30 30 dist_lengths (Nat.le_refl _) (by decide)
  unfold tablesFor
  generalize huffBuild lit_lengths 288 = x at hlit hlit' ⊢
  generalize huffBuild dist_lengths 30 = y at hdist hdist' ⊢
  rcases hlit'.cases with ⟨r, rfl, hr⟩ | ⟨e, rfl⟩
  · rcases hdist'.cases with ⟨r', rfl, hr'⟩ | ⟨e, rfl⟩
    · match r, r' with
      | none, _ => exact absurd rfl hlit
      | some _, none => exact absurd rfl hdist
      | some p, some p' => exact ⟨hr p rfl, hr' p' rfl⟩
    · trivial
  · trivial

/-- A code with given counts that are not over-subscribed is not rejected. -/
theorem huffBuild_of_counts {n : Nat} {lengths : Vector Nat n} {counts : Vector Nat 16}
    {left : Int} (hle : ∀ i < n, cellAt lengths i ≤ 15)
    (hcounts : ∀ k < 16, tally (cellAt lengths) n k = cellAt counts k) (h0 : cellAt counts 0 = 0)
    (hleft : codesLeft counts = .ok (some left)) : huffBuild lengths n ≠ .ok none := by
  obtain ⟨counts', hok, hcell⟩ := countLengths_ok le_rfl hle
  have heq : counts' = counts := eq_of_cellAt fun k hk => by rw [hcell, hcounts k hk]
  subst heq
  obtain ⟨counts'', hstore, hcell'⟩ := storeAt_eq (ε := MzErr) counts' 0 (show 0 < 16 by decide)
  have heq : counts'' = counts' := by
    apply eq_of_cellAt
    intro k _
    rw [hcell']
    by_cases hk : k = 0
    · rw [hk, update_self, h0]
    · rw [update_of_ne hk]
  rw [heq] at hstore
  exact huffBuild_ne_none hok hstore hleft

theorem cellAt_fixedLit (hi : i < 288) : cellAt fixedLitLengths i
    = if i ≤ 143 then 8 else if i ≤ 255 then 9 else if i ≤ 279 then 7 else 8 := by
  unfold fixedLitLengths
  simp [cellAt, hi]

theorem cellAt_fixedDist (hi : i < 30) : cellAt fixedDistLengths i = 5 := by
  unfold fixedDistLengths
  simp [cellAt, hi]

theorem tally_fixedLit : ∀ k < 16,
    tally (fun i => if i ≤ 143 then 8 else if i ≤ 255 then 9 else if i ≤ 279 then 7 else 8) 288 k
      = cellAt #v[0, 0, 0, 0, 0, 0, 0, 24, 152, 112, 0, 0, 0, 0, 0, 0] k := by
  decide +kernel

theorem fixed_lit : huffBuild fixedLitLengths 288 ≠ .ok none := by
  apply @huffBuild_of_counts 288 _ #v[0, 0, 0, 0, 0, 0, 0, 24, 152, 112, 0, 0, 0, 0, 0, 0] 0
  · intro i hi
    rw [cellAt_fixedLit hi]
    split_ifs <;> decide
  · intro k hk
    rw [tally_congr fun i => cellAt_fixedLit]
    exact tally_fixedLit k hk
  · rfl
  · rfl

/-- The codes of the distances: 30 of 5 bits. -/
theorem fixed_dist : huffBuild fixedDistLengths 30 ≠ .ok none := by
  apply @huffBuild_of_counts 30 _ #v[0, 0, 0, 0, 0, 30, 0, 0, 0, 0, 0, 0, 0, 0, 0, 0] 2048
  · intro i hi
    rw [cellAt_fixedDist hi]
    decide
  · intro k hk
    rw [tally_congr fun i => cellAt_fixedDist]
    revert k
    decide
  · rfl
  · rfl

theorem fixedTables_sat : fixedTables.Sat fun r => r.1.Good ∧ r.2.Good :=
  tablesFor_sat fixed_lit fixed_dist

/-! ### The code lengths of a header -/

/-- The code lengths a header spells out, one cell for each symbol, `none` where a run of zeros
passes a symbol over; and the reader behind them, when they are not rejected. -/
structure CodeLengths where
  cells : List (Option Nat)
  rest : Option BitReader

/-- The length of a symbol; a symbol passed over has length 0. -/
def lengthAt (cells : List (Option Nat)) (i : Nat) : Nat := (cells[i]?.join).getD 0

/-- The lengths of a header, in one list. -/
def codeLengths (code_ht : HuffTable) (total : Nat) :
    Nat → List (Option Nat) → BitReader → CodeLengths
  | 0, cells, _ => { cells := cells, rest := none }
  | turns + 1, cells, br =>
    if cells.length < total then
      match huffDecode br code_ht with
      | .ok (some sym, br) =>
        if sym < 16 then codeLengths code_ht total turns (cells ++ [some sym]) br
        else if sym = 16 then
          if cells.length = 0 then { cells := cells, rest := none }
          else
            match brBits br 2 with
            | .ok (rep, br) =>
              codeLengths code_ht total turns
                (cells ++ List.replicate (min (rep + 3) (total - cells.length))
                  (some (lengthAt cells (cells.length - 1)))) br
            | _ => { cells := cells, rest := none }
        else if sym = 17 then
          match brBits br 3 with
          | .ok (rep, br) =>
            if cells.length + (rep + 3) > total then { cells := cells, rest := none }
            else codeLengths code_ht total turns
              (cells ++ List.replicate (rep + 3) none) br
          | _ => { cells := cells, rest := none }
        else if sym = 18 then
          match brBits br 7 with
          | .ok (rep, br) =>
            if cells.length + (rep + 11) > total then { cells := cells, rest := none }
            else codeLengths code_ht total turns
              (cells ++ List.replicate (rep + 11) none) br
          | _ => { cells := cells, rest := none }
        else codeLengths code_ht total turns cells br
      | _ => { cells := cells, rest := none }
    else { cells := cells, rest := some br }

/-- A length is spelt out for symbol 30 of the distance code or a later one. -/
def PastEnd (hlit : Nat) (cells : List (Option Nat)) : Prop :=
  ∃ c ∈ cells.drop (hlit + 30), c.isSome

instance (hlit : Nat) (cells : List (Option Nat)) : Decidable (PastEnd hlit cells) :=
  inferInstanceAs (Decidable (∃ c ∈ cells.drop (hlit + 30), c.isSome))

/-- The two arrays that hold the lengths of a list. -/
def lengthsOf (hlit : Nat) (cells : List (Option Nat)) : Lengths where
  lit := Vector.ofFn fun i => if i.val < hlit then lengthAt cells i.val else 0
  dist := Vector.ofFn fun i => lengthAt cells (hlit + i.val)

theorem cellAt_lit (hi : i < 288) :
    cellAt (lengthsOf hlit cells).lit i = if i < hlit then lengthAt cells i else 0 := by
  simp [cellAt, lengthsOf, hi]

theorem cellAt_dist (hi : i < 30) :
    cellAt (lengthsOf hlit cells).dist i = lengthAt cells (hlit + i) := by
  simp [cellAt, lengthsOf, hi]

theorem lengthAt_append_left {more : List (Option Nat)} (h : i < cells.length) :
    lengthAt (cells ++ more) i = lengthAt cells i := by
  simp [lengthAt, List.getElem?_append_left h]

theorem lengthAt_outside (h : cells.length ≤ i) :
    lengthAt cells i = 0 := by
  simp [lengthAt, List.getElem?_eq_none h]

theorem lengthAt_snoc (cells : List (Option Nat)) (v : Nat) :
    lengthAt (cells ++ [some v]) = update (lengthAt cells) cells.length v := by
  ext i
  rcases Nat.lt_trichotomy i cells.length with h | rfl | h
  · rw [lengthAt_append_left h, update_of_ne (by omega)]
  · simp [lengthAt]
  · rw [lengthAt_outside (by simpa using h), update_of_ne (by omega),
      lengthAt_outside (by omega)]

/-- Symbols passed over do not change a length. -/
theorem lengthAt_skip (cells : List (Option Nat)) (k : Nat) :
    lengthAt (cells ++ List.replicate k none) = lengthAt cells := by
  ext i
  by_cases h : i < cells.length
  · exact lengthAt_append_left h
  · rw [lengthAt_outside (Nat.le_of_not_lt h)]
    unfold lengthAt
    rw [List.getElem?_append_right (Nat.le_of_not_lt h), List.getElem?_replicate]
    split <;> rfl

theorem lengthsOf_skip (hlit : Nat) (cells : List (Option Nat)) (k : Nat) :
    lengthsOf hlit (cells ++ List.replicate k none) = lengthsOf hlit cells := by
  unfold lengthsOf
  rw [lengthAt_skip]

theorem pastEnd_snoc :
    PastEnd hlit (cells ++ [some v]) ↔ PastEnd hlit cells ∨ hlit + 30 ≤ cells.length := by
  unfold PastEnd
  rw [List.drop_append]
  by_cases h : hlit + 30 ≤ cells.length
  · simp [h, Nat.sub_eq_zero_of_le h]
  · have hdrop : [some v].drop (hlit + 30 - cells.length) = [] :=
      List.drop_eq_nil_of_le (by simp only [List.length_singleton]; omega)
    simp [h, hdrop]

theorem pastEnd_skip :
    PastEnd hlit (cells ++ List.replicate k none) ↔ PastEnd hlit cells := by
  unfold PastEnd
  rw [List.drop_append, List.drop_replicate]
  constructor
  · rintro ⟨c, hmem, hc⟩
    rcases List.mem_append.mp hmem with h | h
    · exact ⟨c, h, hc⟩
    · rw [List.eq_of_mem_replicate h] at hc
      cases hc
  · rintro ⟨c, hmem, hc⟩
    exact ⟨c, List.mem_append_left _ hmem, hc⟩

theorem PastEnd.append (h : PastEnd hlit cells)
    (more : List (Option Nat)) : PastEnd hlit (cells ++ more) := by
  obtain ⟨c, hmem, hc⟩ := h
  refine ⟨c, ?_, hc⟩
  rw [List.drop_append]
  exact List.mem_append_left _ hmem

/-! ### The decoder reads these lengths -/

/-- A length is put in its place, or past the end of the second array. -/
theorem put_eq (hmax : hlit ≤ 288) :
    (lengthsOf hlit cells).put hlit cells.length v
      = if cells.length < hlit + 30 then .ok (lengthsOf hlit (cells ++ [some v])) else .fault := by
  unfold Lengths.put
  by_cases hlt : cells.length < hlit
  · obtain ⟨lit, hstore, hcell⟩ := storeAt_eq (ε := MzErr) (lengthsOf hlit cells).lit v
      (show cells.length < 288 by omega)
    rw [if_pos hlt, hstore, ok_bind, if_pos (by omega)]
    have hlit' : lit = (lengthsOf hlit (cells ++ [some v])).lit := by
      apply eq_of_cellAt
      intro i hi
      rw [hcell, cellAt_lit hi, lengthAt_snoc]
      by_cases hie : i = cells.length
      · subst hie
        simp [hlt]
      · rw [update_of_ne hie, update_of_ne hie, cellAt_lit hi]
    have hdist : (lengthsOf hlit cells).dist = (lengthsOf hlit (cells ++ [some v])).dist := by
      apply eq_of_cellAt
      intro i hi
      rw [cellAt_dist hi, cellAt_dist hi, lengthAt_snoc, update_of_ne (by omega)]
    rw [hlit', hdist]
    rfl
  · have hindex : (cells.length : Int) - hlit = ((cells.length - hlit : Nat) : Int) := by omega
    rw [if_neg hlt, hindex]
    by_cases hroom : cells.length < hlit + 30
    · obtain ⟨dist, hstore, hcell⟩ := storeAt_eq (ε := MzErr) (lengthsOf hlit cells).dist v
        (show cells.length - hlit < 30 by omega)
      rw [hstore, ok_bind, if_pos hroom]
      have hdist : dist = (lengthsOf hlit (cells ++ [some v])).dist := by
        apply eq_of_cellAt
        intro i hi
        rw [hcell, cellAt_dist hi, lengthAt_snoc]
        by_cases hie : i = cells.length - hlit
        · subst hie
          rw [update_self, Nat.add_sub_cancel' (Nat.le_of_not_lt hlt),
            update_self]
        · rw [update_of_ne hie, update_of_ne (by omega), cellAt_dist hi]
      have hlit' : (lengthsOf hlit cells).lit = (lengthsOf hlit (cells ++ [some v])).lit := by
        apply eq_of_cellAt
        intro i hi
        rw [cellAt_lit hi, cellAt_lit hi, lengthAt_snoc]
        split
        · rw [update_of_ne (by omega)]
        · rfl
      rw [hlit', hdist]
      rfl
    · rw [if_neg hroom, storeAt_outside _ _ (by omega), fault_bind]

/-- The length before the current symbol. -/
theorem prev_eq (hmax : hlit ≤ 288) (hne : cells.length ≠ 0) :
    (lengthsOf hlit cells).prev hlit cells.length
      = if cells.length ≤ hlit + 30 then .ok (lengthAt cells (cells.length - 1)) else .fault := by
  have hindex : (cells.length : Int) - 1 = ((cells.length - 1 : Nat) : Int) := by omega
  unfold Lengths.prev
  rw [hindex]
  by_cases hlt : cells.length - 1 < hlit
  · rw [if_pos (by omega), if_pos (by omega), fetchAt_eq _ (by omega), cellAt_lit (by omega),
      if_pos hlt]
  · have hsub : ((cells.length - 1 : Nat) : Int) - hlit = ((cells.length - 1 - hlit : Nat) : Int) :=
      by omega
    rw [if_neg (by omega), hsub]
    by_cases hroom : cells.length ≤ hlit + 30
    · rw [if_pos hroom, fetchAt_eq _ (by omega), cellAt_dist (by omega),
        Nat.add_sub_cancel' (Nat.le_of_not_lt hlt)]
    · rw [if_neg hroom, fetchAt_outside _ (by omega)]

/-- The copies of a length: as many as are announced, up to the last symbol. -/
theorem repeatLength_eq {prev rep : Nat} (hmax : hlit ≤ 288) (hcells : ¬ PastEnd hlit cells) :
    repeatLength hlit total prev rep cells.length (lengthsOf hlit cells)
      = let cells' := cells ++ List.replicate (min rep (total - cells.length)) (some prev)
        if PastEnd hlit cells' then .fault else .ok (cells'.length, lengthsOf hlit cells') := by
  induction rep generalizing cells with
  | zero => simp [repeatLength, hcells]
  | succ rep ih =>
    unfold repeatLength
    by_cases htotal : cells.length < total
    · have hmin : min (rep + 1) (total - cells.length)
          = min rep (total - (cells.length + 1)) + 1 := by omega
      have hlist : cells ++ List.replicate (min (rep + 1) (total - cells.length)) (some prev)
          = cells ++ [some prev]
            ++ List.replicate (min rep (total - (cells.length + 1))) (some prev) := by
        rw [hmin, List.replicate_succ, List.append_assoc, List.singleton_append]
      rw [if_pos htotal, put_eq hmax, hlist]
      by_cases hroom : cells.length < hlit + 30
      · have hcells' : ¬ PastEnd hlit (cells ++ [some prev]) := by
          rw [pastEnd_snoc]
          rintro (h | h)
          · exact hcells h
          · omega
        have hnext := ih hcells'
        rw [List.length_append, List.length_singleton] at hnext
        rw [if_pos hroom, ok_bind, hnext]
      · have hpast : PastEnd hlit (cells ++ [some prev]) :=
          pastEnd_snoc.mpr (Or.inr (Nat.le_of_not_lt hroom))
        rw [if_neg hroom, fault_bind]
        rw [if_pos (hpast.append _)]
    · have hmin : min (rep + 1) (total - cells.length) = 0 := by omega
      simp [htotal, hmin, hcells]

/-- The reading of a header: outside an array when a length is spelt out past the end, an error
when the header is rejected, and else the lengths. -/
structure Reads (hlit : Nat) (cl : CodeLengths) (x : Run (Lengths × BitReader)) : Prop where
  past : PastEnd hlit cl.cells → x = .fault
  rejected : ¬ PastEnd hlit cl.cells → cl.rest = none → ∃ e, x = .fail e
  read : ¬ PastEnd hlit cl.cells → ∀ br, cl.rest = some br → x = .ok (lengthsOf hlit cl.cells, br)

/-- What is spelt out past the end stays so in the whole header. -/
theorem codeLengths_pastEnd (h : PastEnd hlit cells) :
    PastEnd hlit (codeLengths code_ht total turns cells br).cells := by
  fun_induction codeLengths code_ht total turns cells br
  all_goals first
    | exact h
    | rename_i ih
      exact ih (h.append _)
    | rename_i ih
      exact ih h

/-- A bound on the lengths read so far holds of the whole header. -/
theorem lengthAt_replicate_le {cells : List (Option Nat)} {k v : Nat}
    (h : ∀ i, lengthAt cells i ≤ 15) (hv : v ≤ 15) (i : Nat) :
    lengthAt (cells ++ List.replicate k (some v)) i ≤ 15 := by
  by_cases hi : i < cells.length
  · rw [lengthAt_append_left hi]
    exact h i
  · unfold lengthAt
    rw [List.getElem?_append_right (Nat.le_of_not_lt hi), List.getElem?_replicate]
    split
    · exact hv
    · exact Nat.zero_le _

/-- No length of a header is above 15. -/
theorem codeLengths_le (h : ∀ i, lengthAt cells i ≤ 15) (i : Nat) :
    lengthAt (codeLengths code_ht total turns cells br).cells i ≤ 15 := by
  fun_induction codeLengths code_ht total turns cells br
  all_goals first
    | exact h i
    | rename_i ih
      apply ih
      first
        | exact h
        | rw [lengthAt_skip]
          exact h
        | exact lengthAt_replicate_le h (h _)
        | exact @lengthAt_replicate_le _ 1 _ h (by omega)

/-- No more lengths are spelt out than are announced. -/
theorem codeLengths_length (h : cells.length ≤ total) :
    (codeLengths code_ht total turns cells br).cells.length ≤ total := by
  fun_induction codeLengths code_ht total turns cells br
  all_goals first
    | exact h
    | rename_i ih
      apply ih
      first
        | exact h
        | simp only [List.length_append, List.length_replicate, List.length_singleton]
          omega

/-- The reader behind a header that is not rejected. -/
theorem codeLengths_after (hht : code_ht.Good) (h : br.Inside)
    (hrest : (codeLengths code_ht total turns cells br).rest = some br') : After br br' 0 := by
  have hdecode : ∀ {br br' : BitReader} {sym : Nat}, br.Inside →
      huffDecode br code_ht = .ok (some sym, br') → After br br' 0 := fun h hok =>
    ((huffDecode_sat hht h).of_ok hok).weaken (Nat.zero_le _)
  have hbits : ∀ {br br' : BitReader} {n v : Nat}, br.Inside →
      brBits br n = .ok (v, br') → After br br' 0 := fun h hok =>
    ((brBits_sat h _).of_ok hok).1
  fun_induction codeLengths code_ht total turns cells br
  all_goals first
    | cases hrest
      done
    | cases hrest
      exact After.refl h
    | rename_i ih
      have hafter := hdecode h (by assumption)
      first
        | exact hafter.trans (ih hafter.inside hrest)
        | have hafter₂ := hbits hafter.inside (by assumption)
          exact (hafter.trans hafter₂).trans (ih hafter₂.inside hrest)

theorem Reads.fault {cl : CodeLengths} (h : PastEnd hlit cl.cells) :
    Reads hlit cl .fault :=
  ⟨fun _ => rfl, fun hn => absurd h hn, fun hn => absurd h hn⟩

theorem pastEnd_replicate (h : hlit + 30 ≤ cells.length) (hk : 0 < k) :
    PastEnd hlit (cells ++ List.replicate k (some v)) := by
  obtain ⟨k, rfl⟩ := Nat.exists_eq_add_of_lt hk
  rw [Nat.zero_add, List.replicate_succ, List.append_cons]
  exact (pastEnd_snoc.mpr (Or.inr h)).append _

theorem readLengths_reads (hht : code_ht.Good) (hmax : hlit ≤ 288)
    (h : br.Inside) (hcells : ¬ PastEnd hlit cells) (hturns : br.left < turns) :
    Reads hlit (codeLengths code_ht total turns cells br)
      (readLengths code_ht hlit total turns cells.length (lengthsOf hlit cells) br) := by
  induction turns generalizing cells br with
  | zero => exact absurd hturns (Nat.not_lt_zero _)
  | succ turns ih =>
    have hstop : ∀ e, Reads hlit { cells := cells, rest := none } (.fail e) := fun e =>
      ⟨fun hp => absurd hp hcells, fun _ _ => ⟨e, rfl⟩, fun _ _ hr => absurd hr (by simp)⟩
    unfold codeLengths readLengths
    by_cases htotal : cells.length < total
    swap
    · rw [if_neg htotal, if_neg htotal]
      refine ⟨fun hp => absurd hp hcells, fun _ hr => absurd hr (by simp), ?_⟩
      rintro _ br' ⟨⟩
      rfl
    rw [if_pos htotal, if_pos htotal]
    rcases (huffDecode_sat hht h).cases with ⟨⟨sym, br₁⟩, hdec, hafter⟩ | ⟨e, hdec⟩
    swap
    · rw [hdec]
      exact hstop e
    rw [hdec, ok_bind]
    match sym with
    | none => exact hstop _
    | some sym =>
      have hleft : br₁.left + 1 ≤ br.left := hafter.left
      have hinside : br₁.Inside := hafter.inside
      dsimp only
      by_cases h16 : sym < 16
      · rw [if_pos h16, if_pos h16, put_eq hmax]
        by_cases hroom : cells.length < hlit + 30
        · have hcells' : ¬ PastEnd hlit (cells ++ [some sym]) := by
            rw [pastEnd_snoc]
            rintro (hp | hp)
            · exact hcells hp
            · omega
          have hnext := ih hinside hcells' (by omega)
          rw [List.length_append, List.length_singleton] at hnext
          rw [if_pos hroom, ok_bind]
          exact hnext
        · rw [if_neg hroom, fault_bind]
          exact .fault (codeLengths_pastEnd (pastEnd_snoc.mpr (Or.inr (Nat.le_of_not_lt hroom))))
      rw [if_neg h16, if_neg h16]
      by_cases hcopy : sym = 16
      · rw [if_pos hcopy, if_pos hcopy]
        by_cases hzero : cells.length = 0
        · rw [if_pos hzero, if_pos hzero]
          exact hstop _
        rw [if_neg hzero, if_neg hzero]
        rcases (brBits_sat hinside 2).cases with ⟨⟨rep, br₂⟩, hrep, hafter₂, -⟩ | ⟨e, hrep⟩
        swap
        · rw [hrep]
          exact hstop e
        have hleft₂ : br₂.left + 0 ≤ br₁.left := hafter₂.left
        rw [hrep, ok_bind, prev_eq hmax hzero]
        by_cases hprev : cells.length ≤ hlit + 30
        · rw [if_pos hprev, ok_bind, repeatLength_eq hmax hcells]
          dsimp only
          generalize cells ++ List.replicate (min (rep + 3) (total - cells.length))
            (some (lengthAt cells (cells.length - 1))) = cells'
          by_cases hpast : PastEnd hlit cells'
          · rw [if_pos hpast, fault_bind]
            exact .fault (codeLengths_pastEnd hpast)
          · rw [if_neg hpast, ok_bind]
            exact ih hafter₂.inside hpast (by omega)
        · rw [if_neg hprev, fault_bind]
          exact .fault (codeLengths_pastEnd (pastEnd_replicate (by omega) (by omega)))
      rw [if_neg hcopy, if_neg hcopy]
      -- A run of zeros leaves the arrays as they are.
      have hzeros : ∀ k br₂, After br₁ br₂ 0 →
          Reads hlit
            (if cells.length + k > total then { cells := cells, rest := none }
              else codeLengths code_ht total turns (cells ++ List.replicate k none) br₂)
            (if cells.length + k > total then .fail .data
              else readLengths code_ht hlit total turns (cells.length + k)
                (lengthsOf hlit cells) br₂) := by
        intro k br₂ hafter₂
        have hleft₂ : br₂.left + 0 ≤ br₁.left := hafter₂.left
        split
        · exact hstop _
        · have hcells' : ¬ PastEnd hlit (cells ++ List.replicate k none) := mt pastEnd_skip.mp hcells
          have hnext := ih hafter₂.inside hcells' (by omega)
          rwa [lengthsOf_skip, List.length_append, List.length_replicate] at hnext
      by_cases h17 : sym = 17
      · rw [if_pos h17, if_pos h17]
        rcases (brBits_sat hinside 3).cases with ⟨⟨rep, br₂⟩, hrep, hafter₂, -⟩ | ⟨e, hrep⟩
        · rw [hrep, ok_bind]
          exact hzeros _ _ hafter₂
        · rw [hrep]
          exact hstop e
      rw [if_neg h17, if_neg h17]
      by_cases h18 : sym = 18
      · rw [if_pos h18, if_pos h18]
        rcases (brBits_sat hinside 7).cases with ⟨⟨rep, br₂⟩, hrep, hafter₂, -⟩ | ⟨e, hrep⟩
        · rw [hrep, ok_bind]
          exact hzeros _ _ hafter₂
        · rw [hrep]
          exact hstop e
      rw [if_neg h18, if_neg h18]
      exact ih hinside hcells (by omega)

/-! ### Blocks -/

/-- The lengths of a dynamic block, after its type bits. -/
def headerLengths (hlit hdist : Nat) (code_ht : HuffTable) (br : BitReader) : CodeLengths :=
  codeLengths code_ht (hlit + hdist) (8 * br.data.length + 1) [] br

/-- The header of a dynamic block spells out a length for symbol 30 of the distance code or a
later one, or it announces more than 30 and is accepted as far as its literal code. -/
def Overruns (br : BitReader) : Prop :=
  ∃ hlit hdist code_ht br', dynamicHeader br = .ok (hlit, hdist, code_ht, br') ∧
    (PastEnd hlit (headerLengths hlit hdist code_ht br').cells ∨
      30 < hdist ∧ (headerLengths hlit hdist code_ht br').rest.isSome ∧
        ∃ lit_ht, huffBuild (lengthsOf hlit (headerLengths hlit hdist code_ht br').cells).lit hlit
          = .ok (some lit_ht))

theorem pastEnd_nil (hlit : Nat) : ¬ PastEnd hlit [] := by
  simp [PastEnd]

theorem left_lt (br : BitReader) : br.left < 8 * br.data.length + 1 := by
  unfold BitReader.left
  omega

theorem cellAt_lengths_nil (hlit : Nat) :
    ({ lit := Vector.replicate 288 0, dist := Vector.replicate 30 0 } : Lengths)
      = lengthsOf hlit [] := by
  have hlit' : Vector.replicate 288 0 = (lengthsOf hlit []).lit := by
    apply eq_of_cellAt
    intro i hi
    rw [cellAt_replicate_zero, cellAt_lit hi, lengthAt_outside (Nat.zero_le _), ite_self]
  have hdist : Vector.replicate 30 0 = (lengthsOf hlit []).dist := by
    apply eq_of_cellAt
    intro i hi
    rw [cellAt_replicate_zero, cellAt_dist hi, lengthAt_outside (Nat.zero_le _)]
  rw [hlit', hdist]

/-- The arrays of lengths of a dynamic block. -/
theorem readLengths_header {hlit hdist : Nat} {code_ht : HuffTable} (hht : code_ht.Good)
    (hmax : hlit ≤ 288) {br : BitReader} (h : br.Inside) :
    Reads hlit (headerLengths hlit hdist code_ht br)
      (readLengths code_ht hlit (hlit + hdist) (8 * br.data.length + 1) 0
        { lit := Vector.replicate 288 0, dist := Vector.replicate 30 0 } br) := by
  rw [cellAt_lengths_nil hlit]
  exact readLengths_reads hht hmax h (pastEnd_nil hlit) (left_lt br)

theorem headerLengths_le (hlit hdist : Nat) (code_ht : HuffTable) (br : BitReader) (i : Nat) :
    lengthAt (headerLengths hlit hdist code_ht br).cells i ≤ 15 :=
  codeLengths_le (fun _ => by rw [lengthAt_outside (Nat.zero_le _)]; exact Nat.zero_le _) i

/-- A header that overruns makes the decoder leave `dist_lengths`. -/
theorem dynamicTables_overrun (h : br.Inside) (hover : Overruns br) :
    dynamicTables br = .fault := by
  obtain ⟨hlit, hdist, code_ht, br', hheader, hcase⟩ := hover
  obtain ⟨-, hmax, -, hht, hafter⟩ := (dynamicHeader_sat h).of_ok hheader
  have hreads := @readLengths_header hlit hdist code_ht hht hmax br' hafter.inside
  unfold dynamicTables
  rw [hheader, ok_bind]
  dsimp only
  by_cases hpast : PastEnd hlit (headerLengths hlit hdist code_ht br').cells
  · rw [hreads.past hpast, fault_bind]
  · obtain ⟨hmany, hrest, lit_ht, hbuild⟩ := hcase.resolve_left hpast
    obtain ⟨br'', hrest⟩ := Option.isSome_iff_exists.mp hrest
    have hle : ∀ i < 30,
        cellAt (lengthsOf hlit (headerLengths hlit hdist code_ht br').cells).dist i ≤ 15 := by
      intro i hi
      rw [cellAt_dist hi]
      exact headerLengths_le _ _ _ _ _
    rw [hreads.read hpast br'' hrest, ok_bind]
    rw [hbuild, ok_bind]
    dsimp only
    rw [huffBuild_fault hmany hle, fault_bind]

/-- Any other header is read inside the arrays. -/
theorem dynamicTables_sat (h : br.Inside) (hover : ¬ Overruns br) :
    (dynamicTables br).Sat fun r => r.1.Good ∧ r.2.1.Good ∧ After br r.2.2 0 := by
  rcases (dynamicHeader_sat h).cases with
    ⟨⟨hlit, hdist, code_ht, br'⟩, hheader, -, hmax, hdmax, hht, hafter⟩ | ⟨e, hheader⟩
  swap
  · unfold dynamicTables
    rw [hheader]
    trivial
  have hreads := @readLengths_header hlit hdist code_ht hht hmax br' hafter.inside
  have hpast : ¬ PastEnd hlit (headerLengths hlit hdist code_ht br').cells := fun hp =>
    hover ⟨hlit, hdist, code_ht, br', hheader, Or.inl hp⟩
  unfold dynamicTables
  rw [hheader, ok_bind]
  dsimp only
  match hrest : (headerLengths hlit hdist code_ht br').rest with
  | none =>
    obtain ⟨e, he⟩ := hreads.rejected hpast hrest
    rw [he]
    trivial
  | some br'' =>
    have hafter' : After br' br'' 0 := codeLengths_after hht hafter.inside hrest
    rw [hreads.read hpast br'' hrest, ok_bind]
    rcases (@huffBuild_sat _ _ (lengthsOf hlit _).lit hmax hmax).cases with
      ⟨r, hbuild, hgood⟩ | ⟨e, hbuild⟩
    swap
    · rw [hbuild]
      trivial
    rw [hbuild, ok_bind]
    match r with
    | none => trivial
    | some lit_ht =>
      have hfew : hdist ≤ 30 := by
        by_contra hmany
        exact hover ⟨hlit, hdist, code_ht, br', hheader,
          Or.inr ⟨by omega, by rw [hrest]; rfl, lit_ht, hbuild⟩⟩
      apply (huffBuild_sat hfew (by omega)).bind
      intro r hr
      match r with
      | none => trivial
      | some dist_ht =>
        exact ⟨hgood lit_ht rfl, hr dist_ht rfl, hafter.trans hafter'⟩

/-- A header that announces at most 30 lengths for the distance code does not overrun. -/
theorem not_overruns_of_le
    (hfew : ∀ hlit hdist code_ht br', dynamicHeader br = .ok (hlit, hdist, code_ht, br') →
      hdist ≤ 30) : ¬ Overruns br := by
  rintro ⟨hlit, hdist, code_ht, br', hheader, ⟨c, hmem, -⟩ | ⟨hmany, -⟩⟩
  · have hlen : (headerLengths hlit hdist code_ht br').cells.length ≤ hlit + hdist :=
      codeLengths_length (Nat.zero_le _)
    have hle := hfew _ _ _ _ hheader
    rw [List.drop_eq_nil_of_le (by omega)] at hmem
    exact absurd hmem List.not_mem_nil
  · exact absurd hmany (Nat.not_lt.mpr (hfew _ _ _ _ hheader))

/-- A dynamic block that overruns, from its first bit on. -/
def OverrunsAt (br : BitReader) : Prop :=
  ∃ bfinal br₁ br₂, brBit br = .ok (some bfinal, br₁) ∧ brBits br₁ 2 = .ok (2, br₂) ∧
    Overruns br₂

theorem inflateBlockWith_overrun {fixed : Run (HuffTable × HuffTable)} {grants : Nat → Bool}
    (h : br.Inside) (hover : OverrunsAt br) :
    inflateBlockWith fixed grants br out = .fault := by
  obtain ⟨bfinal, br₁, br₂, hbit, hbits, hover⟩ := hover
  have hinside₁ := ((brBit_sat h).of_ok hbit).1.inside
  have hinside₂ := ((brBits_sat hinside₁ 2).of_ok hbits).1.inside
  unfold inflateBlockWith
  rw [hbit, ok_bind]
  dsimp only
  rw [hbits, ok_bind]
  dsimp only
  rw [if_neg (by decide), if_neg (by decide), if_pos rfl,
    dynamicTables_overrun hinside₂ hover, fault_bind]

theorem inflateBlock_overrun {grants : Nat → Bool}
    (h : br.Inside) (hover : OverrunsAt br) : inflateBlock grants br out = .fault :=
  inflateBlockWith_overrun h hover

section output

variable {grants : Nat → Bool} (hgrants : ∀ n, grants n = true → n ≤ 2 ^ 62)

include hgrants

/-- Any other block is decoded inside the arrays, and takes a bit at least. -/
theorem inflateBlockWith_sat {fixed : Run (HuffTable × HuffTable)}
    (hfixed : fixed.Sat fun r => r.1.Good ∧ r.2.Good)
    (h : br.Inside) (hout : out.Fits) (hover : ¬ OverrunsAt br) :
    (inflateBlockWith fixed grants br out).Sat fun r => After br r.2.1 1 ∧ r.2.2.Fits := by
  unfold inflateBlockWith
  rcases (brBit_sat h).cases with ⟨⟨bfinal, br₁⟩, hbit, hafter₁, -⟩ | ⟨e, hbit⟩
  swap
  · rw [hbit]
    trivial
  rw [hbit, ok_bind]
  match bfinal with
  | none => trivial
  | some bfinal =>
    have hafter₁ : After br br₁ 1 := hafter₁
    dsimp only
    rcases (brBits_sat hafter₁.inside 2).cases with ⟨⟨btype, br₂⟩, hbits, hafter₂, -⟩ | ⟨e, hbits⟩
    swap
    · rw [hbits]
      trivial
    have hafter : After br br₂ 1 := hafter₁.trans hafter₂
    rw [hbits, ok_bind]
    split
    · apply (inflateStored_sat hgrants hafter.inside hout).bind
      rintro ⟨br₃, o⟩ ⟨hafter₃, hfits⟩
      exact ⟨hafter.trans hafter₃, hfits⟩
    split
    · apply hfixed.bind
      rintro ⟨lit_ht, dist_ht⟩ ⟨hlit, hdist⟩
      apply (decodeSymbols_sat hgrants hlit hdist hafter.inside hout (left_lt br₂)).bind
      rintro ⟨br₃, o⟩ ⟨hafter₃, hfits⟩
      exact ⟨hafter.trans hafter₃, hfits⟩
    split
    · rename_i h2
      subst h2
      have hover₂ : ¬ Overruns br₂ := fun ho => hover ⟨bfinal, br₁, br₂, hbit, hbits, ho⟩
      apply (dynamicTables_sat hafter.inside hover₂).bind
      rintro ⟨lit_ht, dist_ht, br₃⟩ ⟨hlit, hdist, hafter₃⟩
      apply (decodeSymbols_sat hgrants hlit hdist hafter₃.inside hout (left_lt br₃)).bind
      rintro ⟨br₄, o⟩ ⟨hafter₄, hfits⟩
      exact ⟨(hafter.trans hafter₃).trans hafter₄, hfits⟩
    · trivial

theorem inflateBlock_sat (h : br.Inside) (hout : out.Fits) (hover : ¬ OverrunsAt br) :
    (inflateBlock grants br out).Sat fun r => After br r.2.1 1 ∧ r.2.2.Fits :=
  inflateBlockWith_sat hgrants fixedTables_sat h hout hover

end output

/-! ### Whole runs -/

/-- One block decoded with another one to follow. -/
def BlockStep (grants : Nat → Bool) (s s' : BitReader × OutBuf) : Prop :=
  inflateBlock grants s.1 s.2 = .ok (false, s'.1, s'.2)

/-- The size of the first allocation. -/
def firstCap (input : Bytes) : Nat := (input.length * 4 + 1024) % 2 ^ 64

/-- The state in which the decoder of an input starts. -/
def firstBlock (input : Bytes) : BitReader × OutBuf :=
  (brInit input, { bytes := [], cap := firstCap input })

/-- The states in which the decoder of an input starts a block. -/
def BlockStart (grants : Nat → Bool) (input : Bytes) (s : BitReader × OutBuf) : Prop :=
  input ≠ [] ∧ grants (firstCap input) ∧
    Relation.ReflTransGen (BlockStep grants) (firstBlock input) s

section output

variable {grants : Nat → Bool} (hgrants : ∀ n, grants n = true → n ≤ 2 ^ 62)

include hgrants

/-- A block that does not overrun leaves the next one in a good state. -/
theorem blockStep_good {s' : BitReader × OutBuf} (h : s.1.Inside) (hout : s.2.Fits)
    (hstep : BlockStep grants s s') : After s.1 s'.1 1 ∧ s'.2.Fits := by
  have hover : ¬ OverrunsAt s.1 := by
    intro hover
    unfold BlockStep at hstep
    rw [inflateBlock_overrun h hover] at hstep
    cases hstep
  exact (inflateBlock_sat hgrants h hout hover).of_ok hstep

/-- The loop over the blocks, when none of those it reaches overruns. -/
theorem inflateLoop_sat (h : s.1.Inside) (hout : s.2.Fits) (hturns : s.1.left < turns)
    (hover : ∀ s', Relation.ReflTransGen (BlockStep grants) s s' → ¬ OverrunsAt s'.1) :
    (inflateLoop grants turns s.1 s.2).Sat fun _ => True := by
  induction turns generalizing s with
  | zero => exact absurd hturns (Nat.not_lt_zero _)
  | succ turns ih =>
    unfold inflateLoop
    rcases (inflateBlock_sat hgrants h hout (hover s .refl)).cases with
      ⟨⟨done, br, out⟩, hblock, hafter, hfits⟩ | ⟨e, hblock⟩
    · rw [hblock, ok_bind]
      dsimp only
      split
      · trivial
      · rename_i hdone
        have hstep : BlockStep grants s (br, out) := by
          rw [Bool.not_eq_true] at hdone
          rw [BlockStep, hblock, hdone]
        have hleft := hafter.left
        apply ih (s := (br, out)) hafter.inside hfits
        · dsimp only at hleft ⊢
          omega
        · exact fun s' hs' => hover s' (.head hstep hs')
    · rw [hblock]
      trivial

/-- The loop over the blocks, when it reaches one that overruns. -/
theorem inflateLoop_overrun {s' : BitReader × OutBuf} (h : s.1.Inside)
    (hout : s.2.Fits) (hturns : s.1.left < turns)
    (hsteps : Relation.ReflTransGen (BlockStep grants) s s') (hover : OverrunsAt s'.1) :
    inflateLoop grants turns s.1 s.2 = .fault := by
  induction hsteps using Relation.ReflTransGen.head_induction_on generalizing turns with
  | refl =>
    obtain ⟨turns, rfl⟩ := Nat.exists_eq_add_of_lt hturns
    unfold inflateLoop
    rw [inflateBlock_overrun h hover, fault_bind]
  | head hstep _ ih =>
    obtain ⟨hafter, hfits⟩ := blockStep_good hgrants h hout hstep
    have hleft := hafter.left
    match turns with
    | 0 => exact absurd hturns (Nat.not_lt_zero _)
    | turns + 1 =>
      unfold BlockStep at hstep
      unfold inflateLoop
      rw [hstep, ok_bind]
      exact ih hafter.inside hfits (by omega)

theorem firstBlock_fits (hcap : grants (firstCap input) = true) :
    (firstBlock input).2.Fits :=
  ⟨Nat.zero_le _, hgrants _ hcap⟩

omit hgrants in
/-- The decoder is the loop over the blocks. -/
theorem mzDeflateDecompress_eq (hnil : input ≠ []) (hcap : grants (firstCap input) = true) :
    mzDeflateDecompress grants input
      = (inflateLoop grants (8 * input.length + 1) (firstBlock input).1 (firstBlock input).2
          >>= fun out => .ok out.bytes) := by
  have hlen : ¬ input.length = 0 := by rwa [List.length_eq_zero_iff]
  unfold mzDeflateDecompress
  rw [if_neg hlen]
  exact if_pos hcap

/-- A decoder that reaches no block that overruns keeps inside its arrays, and ends. -/
theorem mzDeflateDecompress_sat (hover : ∀ s, BlockStart grants input s → ¬ OverrunsAt s.1) :
    (mzDeflateDecompress grants input).Sat fun _ => True := by
  by_cases hnil : input = []
  · subst hnil
    trivial
  by_cases hcap : grants (firstCap input) = true
  · rw [mzDeflateDecompress_eq hnil hcap]
    have hloop := inflateLoop_sat hgrants (s := firstBlock input) (brInit_inside input)
      (firstBlock_fits hgrants hcap) (left_lt (brInit input))
      fun s' hs' => hover s' ⟨hnil, hcap, hs'⟩
    exact hloop.bind fun _ _ => trivial
  · have hlen : ¬ input.length = 0 := by rwa [List.length_eq_zero_iff]
    unfold mzDeflateDecompress
    rw [if_neg hlen]
    dsimp only
    split
    · exact absurd ‹_› hcap
    · trivial

/-- A decoder that reaches a block that overruns leaves an array there. -/
theorem mzDeflateDecompress_leaves (hs : BlockStart grants input s) (hover : OverrunsAt s.1) :
    mzDeflateDecompress grants input = .fault := by
  obtain ⟨hnil, hcap, hsteps⟩ := hs
  have hloop := inflateLoop_overrun hgrants (brInit_inside input)
    (firstBlock_fits hgrants hcap) (left_lt (brInit input)) hsteps hover
  rw [mzDeflateDecompress_eq hnil hcap]
  exact hloop ▸ rfl

/-- Every access of the decoder is in bounds exactly when none of the blocks it reaches
overruns. -/
theorem mzDeflateDecompress_inBounds (input : Bytes) :
    mzDeflateDecompress grants input ≠ .fault ↔
      ∀ s, BlockStart grants input s → ¬ OverrunsAt s.1 := by
  constructor
  · exact fun hne s hs hover => hne (mzDeflateDecompress_leaves hgrants hs hover)
  · intro hover
    exact (mzDeflateDecompress_sat hgrants hover).ne_fault

end output

/-- Fixed codes, with a match that repeats a byte sixteen times. -/
theorem mzDeflateDecompress_inBounds_match :
    mzDeflateDecompress (fun n => n ≤ 2 ^ 62) [75, 76, 68, 5, 73, 0] ≠ .fault ↔
      ∀ s, BlockStart (fun n => n ≤ 2 ^ 62) [75, 76, 68, 5, 73, 0] s → ¬ OverrunsAt s.1 :=
  mzDeflateDecompress_inBounds (fun _ h => of_decide_eq_true h) _

/-- A dynamic block of seven bytes that announces 32 lengths for the distance code, all of them
zeros: `huff_build` reads past `dist_lengths`. -/
theorem mzDeflateDecompress_overrun :
    mzDeflateDecompress (fun n => n ≤ 2 ^ 62) [5, 31, 128, 192, 223, 159, 0] = .fault := by
  decide +kernel

end MeuOS.Compress.Inflate
