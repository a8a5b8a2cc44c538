import MeuOS.Mir.FoldOps
import MeuOS.Mir.Agree
import MeuOS.Lib.RoundDiv

namespace MeuOS.Mir

open MeuOS.Lib List

/-!
# Signed division by powers of two (`msdiv_pow2_block` of `src/mir/mfold.c`)

A signed division or remainder by a constant `2 ^ n` becomes a sequence of shifts.  The new
instructions are written to a buffer that has room for 16 more than the block had.

* `sdivShift`, `sdivSeq`, `sdivIns` — one instruction;
* `msdivLoop`, `msdivPow2Block` — the block, `none` where the code writes behind the buffer;
* `Computes` — a sequence computes the quotient or the remainder of C;
* `sdivSeq_computes` — the emitted sequence does;
* `Reduced` — a block in which such sequences replace divisions and nothing else changes;
* `msdivPow2Block_iff` — the block is reduced exactly when the buffer is large enough;
* `msdivPow2Block_inBounds` — how many cells are written.
-/

/-! ### The code -/

/-- The exponent, where `msdiv_pow2_block` replaces an instruction. -/
def sdivShift (i : MIns) : Option Nat :=
  if i.dst.isSome ∧ (i.op = .div ∨ i.op = .rem) then
    (i.src1.int?.bind pow2?).bind fun n => if 0 < n then some n else Option.none
  else Option.none

/-- `mval_new` for a temp. -/
def MFn.newTemp (fn : MFn) (t : MType) : MFn := { fn with val := fn.val ++ [{ kind := .temp, type := t }] }

/-- `dst->def` and `dst->defblk`, which `msdiv_emit` sets for a temp. -/
def MFn.setDef (fn : MFn) (b : BlkId) (v : ValId) : MFn :=
  { fn with
    val := fn.val.modify v fun x =>
      if x.kind = .temp then { x with defblk := some b, hasDef := true } else x }

/-- The first three instructions: the sign, the bias, and the dividend with the bias added. -/
def sdivBias (i : MIns) (t : ValId) : List MIns :=
  [{ op := .sar, dtype := i.dtype, dst := some t, src0 := i.src0
     src1 := .con (mconstInt .i32 (if i.dtype = .i64 then 63 else 31)) },
    { op := .and, dtype := i.dtype, dst := some (t + 1), src0 := .val t
      src1 := .con (mconstInt i.dtype ((i.src1.int?).getD 0 - 1)) },
    { op := .add, dtype := i.dtype, dst := some (t + 2), src0 := i.src0, src1 := .val (t + 1) }]

/-- The shift by the exponent, and for a remainder what follows it: `t + 3` is written twice. -/
def sdivTail (i : MIns) (n : Nat) (t : ValId) : List MIns :=
  let shift := MRef.con (mconstInt .i32 (BitVec.ofNat 64 n))
  if i.op = .rem then
    [{ op := .sar, dtype := i.dtype, dst := some (t + 3), src0 := .val (t + 2), src1 := shift },
      { op := .shl, dtype := i.dtype, dst := some (t + 3), src0 := .val (t + 3), src1 := shift },
      { op := .sub, dtype := i.dtype, dst := i.dst, src0 := i.src0, src1 := .val (t + 3) }]
  else [{ op := .sar, dtype := i.dtype, dst := i.dst, src0 := .val (t + 2), src1 := shift }]

/-- The sequence for the exponent `n`, with its temps from `t` on. -/
def sdivSeq (i : MIns) (n : Nat) (t : ValId) : List MIns := sdivBias i t ++ sdivTail i n t

/-- The temps of the sequence. -/
def sdivTemps (i : MIns) : Nat := if i.op = .rem then 4 else 3

/-- The value table after the sequence was emitted. -/
def sdivTable (fn : MFn) (b : BlkId) (i : MIns) (n : Nat) : MFn :=
  let fn' := (range (sdivTemps i)).foldl (fun f _ => f.newTemp i.dtype) fn
  ((sdivSeq i n fn.val.length).filterMap (·.dst)).foldl (fun f v => f.setDef b v) fn'

/-- What the loop body makes of one instruction. -/
def sdivIns (fn : MFn) (b : BlkId) (i : MIns) : MFn × List MIns :=
  match sdivShift i with
  | some n => (sdivTable fn b i n, sdivSeq i n fn.val.length)
  | Option.none => (fn, [i])

/-- The loop of `msdiv_pow2_block`; `cap` is the size of the buffer `out`. -/
def msdivLoop (cap : Nat) (b : BlkId) : List MIns → MFn → List MIns → Option (MFn × List MIns)
  | [], fn, out => some (fn, out)
  | i :: is, fn, out =>
    let r := sdivIns fn b i
    if out.length + r.2.length ≤ cap then msdivLoop cap b is r.1 (out ++ r.2) else Option.none

/-- `msdiv_pow2_block` on the instructions of block `b`. -/
def msdivPow2Block (fn : MFn) (b : BlkId) (ins : List MIns) : Option (MFn × List MIns) :=
  msdivLoop (ins.length + 16) b ins fn []

/-! ### What the sequences compute -/

/-- The quotient of C, or the remainder that belongs to it. -/
def sdivResult (op : MOP) (x : Int) (n : Nat) : Int :=
  if op = .rem then x - x.tdiv (2 ^ n) * 2 ^ n else x.tdiv (2 ^ n)

/-- The sequence `s` computes, in the value table of `fn'`, what the instruction asks for: whatever
    the dividend, its result is that of C, and only temps that are new in `fn'` change besides. -/
def Computes (fn fn' : MFn) (i : MIns) (n : Nat) (s : List MIns) : Prop :=
  ∀ (H : Host) (M : Mode) (st : State), ∃ st', runIns H M fn' s st = some st' ∧ st'.w = st.w ∧
    ∀ v, v < fn.val.length →
      st'.regs v = setReg fn' st.regs i.dst (some ((BitVec.ofInt i.dtype.bits (sdivResult i.op
        ((opnd H fn st.regs i.src0).bits.setWidth i.dtype.bits).toInt n)).setWidth 64)) v

/-- The division is one of 32 or 64 bits by a power of two that its type holds as a positive
    value. -/
def SdivDomain (i : MIns) (n : Nat) : Prop :=
  (i.dtype = .i32 ∨ i.dtype = .i64) ∧ n + 1 < i.dtype.bits

/-- A block in which sequences replace divisions and everything else is kept in order. -/
inductive Reduced (fn fn' : MFn) : List MIns → List MIns → Prop
  | nil : Reduced fn fn' [] []
  | keep {i : MIns} {is out : List MIns} : sdivShift i = Option.none → Reduced fn fn' is out →
      Reduced fn fn' (i :: is) (i :: out)
  | seq {i : MIns} {n : Nat} {s is out : List MIns} : sdivShift i = some n →
      (SdivDomain i n → Computes fn fn' i n s) → Reduced fn fn' is out →
      Reduced fn fn' (i :: is) (s ++ out)

/-- The value references of a function: all of them are in its table. -/
def MIns.Valid (fn : MFn) (i : MIns) : Prop :=
  (∀ v, i.src0 = .val v → v < fn.val.length) ∧ ∀ v, i.dst = some v → v < fn.val.length

/-- The instructions that the sequences of a block add: three for a division, five for a
    remainder. -/
def sdivExtra (ins : List MIns) : Nat :=
  (ins.map fun i => if (sdivShift i).isSome then (if i.op = .rem then 5 else 3) else 0).sum

/-! ### The value table -/

/-- `fn'` has the values of `fn`, and possibly more. -/
structure Extends (fn fn' : MFn) : Prop where
  len : fn.val.length ≤ fn'.val.length
  same : ∀ v, v < fn.val.length → fn'.kind v = fn.kind v ∧ fn'.vtype v = fn.vtype v ∧
    (fn'.getVal v).sym = (fn.getVal v).sym ∧ (fn'.getVal v).con = (fn.getVal v).con

theorem Extends.refl (fn : MFn) : Extends fn fn := ⟨Nat.le_refl _, fun _ _ => ⟨rfl, rfl, rfl, rfl⟩⟩

theorem Extends.trans {f g h : MFn} (a : Extends f g) (b : Extends g h) : Extends f h := by
  refine ⟨Nat.le_trans a.len b.len, fun v hv => ?_⟩
  obtain ⟨h1, h2, h3, h4⟩ := a.same v hv
  obtain ⟨k1, k2, k3, k4⟩ := b.same v (Nat.lt_of_lt_of_le hv a.len)
  exact ⟨k1.trans h1, k2.trans h2, k3.trans h3, k4.trans h4⟩

theorem newTemp_extends (fn : MFn) (t : MType) : Extends fn (fn.newTemp t) := by
  refine ⟨by simp [MFn.newTemp], fun v hv => ?_⟩
  have he : (fn.newTemp t).getVal v = fn.getVal v := by
    simp [MFn.getVal, MFn.newTemp, getElem?_append_left hv]
  simp only [MFn.kind, MFn.vtype, he, and_self]

theorem newTemp_getVal (fn : MFn) (t : MType) :
    (fn.newTemp t).getVal fn.val.length = { kind := .temp, type := t } := by
  simp [MFn.getVal, MFn.newTemp]

theorem setDef_extends (fn : MFn) (b : BlkId) (v : ValId) : Extends fn (fn.setDef b v) := by
  refine ⟨by simp [MFn.setDef], fun u hu => ?_⟩
  have he : (fn.setDef b v).getVal u =
      if v = u ∧ (fn.getVal u).kind = .temp then
        { fn.getVal u with defblk := some b, hasDef := true } else fn.getVal u := by
    simp only [MFn.getVal, MFn.setDef, getD_eq_getElem?_getD, getElem?_modify,
      getElem?_eq_getElem hu]
    by_cases h : v = u <;> simp [h]
  unfold MFn.kind MFn.vtype
  rw [he]
  split <;> simp

theorem foldl_extends {α : Type} {f : MFn → α → MFn} (hf : ∀ g x, Extends g (f g x)) (xs : List α)
    (fn : MFn) : Extends fn (xs.foldl f fn) := by
  induction xs generalizing fn with
  | nil => exact Extends.refl fn
  | cons x xs ih => exact (hf fn x).trans (ih (f fn x))

/-- The temps that a number of `mval_new` calls add. -/
theorem newTemps_spec (fn : MFn) (t : MType) (k : Nat) :
    ((range k).foldl (fun f _ => f.newTemp t) fn).val.length = fn.val.length + k ∧
      ∀ j, j < k → ((range k).foldl (fun f _ => f.newTemp t) fn).kind (fn.val.length + j) =
        .temp ∧ ((range k).foldl (fun f _ => f.newTemp t) fn).vtype (fn.val.length + j) = t := by
  induction k with
  | zero => exact ⟨rfl, fun j hj => absurd hj (Nat.not_lt_zero j)⟩
  | succ k ih =>
    rw [range_succ, foldl_append]
    simp only [foldl_cons, foldl_nil]
    generalize (range k).foldl (fun f _ => f.newTemp t) fn = g at ih
    obtain ⟨hlen, hg⟩ := ih
    refine ⟨by simp [MFn.newTemp, hlen, Nat.add_assoc], fun j hj => ?_⟩
    rcases Nat.lt_or_ge j k with h | h
    · obtain ⟨h1, h2, -⟩ := (newTemp_extends g t).same (fn.val.length + j) (by omega)
      exact ⟨h1.trans (hg j h).1, h2.trans (hg j h).2⟩
    · obtain rfl : j = k := by omega
      have hv := newTemp_getVal g t
      rw [hlen] at hv
      unfold MFn.kind MFn.vtype
      rw [hv]
      exact ⟨rfl, rfl⟩

theorem sdivTable_extends (fn : MFn) (b : BlkId) (i : MIns) (n : Nat) :
    Extends fn (sdivTable fn b i n) :=
  (foldl_extends (fun g _ => newTemp_extends g i.dtype) _ fn).trans
    (foldl_extends (fun g v => setDef_extends g b v) _ _)

/-- The temps of the sequence have the division's type. -/
theorem sdivTable_temp (fn : MFn) (b : BlkId) (i : MIns) (n : Nat) {j : Nat}
    (hj : j < sdivTemps i) :
    fn.val.length + j < (sdivTable fn b i n).val.length ∧
      (sdivTable fn b i n).kind (fn.val.length + j) = .temp ∧
      (sdivTable fn b i n).vtype (fn.val.length + j) = i.dtype := by
  obtain ⟨hlen, hnew⟩ := newTemps_spec fn i.dtype (sdivTemps i)
  have hext := foldl_extends (fun g v => setDef_extends g b v)
    ((sdivSeq i n fn.val.length).filterMap (·.dst))
    ((range (sdivTemps i)).foldl (fun f _ => f.newTemp i.dtype) fn)
  obtain ⟨h1, h2, -⟩ := hext.same (fn.val.length + j) (by omega)
  refine ⟨Nat.lt_of_lt_of_le (by omega) hext.len, h1.trans (hnew j hj).1, h2.trans (hnew j hj).2⟩

/-! ### Running a sequence -/

/-- An integer instruction writes its value, zero-extended. -/
theorem stepIns_int {H : Host} {M : Mode} {fn : MFn} {st : State} {op : MOP} {dt : MType}
    {dst : Option ValId} {a0 a1 : MRef} {r : BitVec dt.bits} (hop : op.isArith = true)
    (hf : dt.isFloat = false)
    (hr : evalBin op ((opnd H fn st.regs a0).bits.setWidth dt.bits)
      ((opnd H fn st.regs a1).bits.setWidth dt.bits) = some r) :
    stepIns H M fn st { op := op, dtype := dt, dst := dst, src0 := a0, src1 := a1 } =
      some ⟨setReg fn st.regs dst (some (r.setWidth 64)), st.w⟩ := by
  have hcls : op.cls = .pure := by simp [MOP.cls, hop]
  rw [stepIns_pure hcls]
  refine ⟨r.setWidth 64, ?_, rfl⟩
  simp [pureVal, hop, arithVal, hf, hr]

/-- A new temp read at its type gives what was written. -/
theorem opnd_written (H : Host) {fn : MFn} {regs : ValId → BitVec 64} {t : ValId} {dt : MType}
    (hk : fn.kind t = .temp) (ht : fn.vtype t = dt) (r : BitVec dt.bits) :
    (opnd H fn (setReg fn regs (some t) (some (r.setWidth 64))) (.val t)).bits.setWidth dt.bits =
      r := by
  have hreg : setReg fn regs (some t) (some (r.setWidth 64)) t = low dt.bits (r.setWidth 64) := by
    simp [setReg, ht]
  have hb : (opnd H fn (setReg fn regs (some t) (some (r.setWidth 64))) (.val t)).bits =
      setReg fn regs (some t) (some (r.setWidth 64)) t := by
    simp [opnd, valBits, hk]
  rw [hb, hreg, low_setWidth dt.bits_le, BitVec.setWidth_setWidth_of_le _ dt.bits_le,
    BitVec.setWidth_eq]

/-- Writing another temp does not change an operand. -/
theorem opnd_setReg_ne (H : Host) (fn : MFn) (regs : ValId → BitVec 64) {t : ValId} {r : MRef}
    (h : r ≠ .val t) (x : BitVec 64) :
    opnd H fn (setReg fn regs (some t) (some x)) r = opnd H fn regs r := by
  rcases r with _ | v | c
  · rfl
  · have hv : v ≠ t := fun e => h (congrArg MRef.val e)
    have hreg : setReg fn regs (some t) (some x) v = regs v :=
      setReg_of_ne fn regs (fun e => hv (Option.some.inj e).symm) _
    simp only [opnd, valBits, hreg]
  · rfl

/-- The operands of the shifts, at the type's width. -/
theorem sdiv_counts {dt : MType} (hdt : dt = .i32 ∨ dt = .i64) {n : Nat} (hn : n + 1 < dt.bits) :
    ((if dt = .i64 then (63 : BitVec 64) else 31).setWidth dt.bits).toNat % shiftMod dt.bits =
        dt.bits - 1 ∧
      ((BitVec.ofNat 64 n).setWidth dt.bits).toNat % shiftMod dt.bits = n := by
  rcases hdt with rfl | rfl
  · have hn : n + 1 < 32 := hn
    refine ⟨by decide, ?_⟩
    show ((BitVec.ofNat 64 n).setWidth 32).toNat % 32 = n
    rw [BitVec.toNat_setWidth, BitVec.toNat_ofNat]
    omega
  · have hn : n + 1 < 64 := hn
    refine ⟨by decide, ?_⟩
    show ((BitVec.ofNat 64 n).setWidth 64).toNat % 64 = n
    rw [BitVec.toNat_setWidth, BitVec.toNat_ofNat]
    omega

/-- The mask, at the type's width. -/
theorem sdiv_mask {c : BitVec 64} {n : Nat} (w : Nat) (hc : c.toNat = 2 ^ n) :
    (c - 1).setWidth w = BitVec.ofNat w (2 ^ n - 1) := by
  have hpos : 0 < 2 ^ n := Nat.pow_pos (by decide)
  have hlt := c.isLt
  apply BitVec.eq_of_toNat_eq
  rw [BitVec.toNat_setWidth, BitVec.toNat_ofNat, BitVec.toNat_sub, hc]
  have h1 : (1 : BitVec 64).toNat = 1 := rfl
  have hsub : (2 ^ 64 - (1 : BitVec 64).toNat + 2 ^ n) % 2 ^ 64 = 2 ^ n - 1 := by
    rw [h1]
    omega
  rw [hsub]

/-- The remainder, modulo the width. -/
theorem ofInt_remainder {w : Nat} (n : Nat) (x q : BitVec w) :
    x - q <<< n = BitVec.ofInt w (x.toInt - q.toInt * 2 ^ n) := by
  have hshift : q <<< n = BitVec.ofInt w (q.toInt * 2 ^ n) := by
    apply BitVec.toInt_inj.mp
    rw [BitVec.toInt_shiftLeft, BitVec.toInt_ofInt, Nat.shiftLeft_eq]
    push_cast
    rw [BitVec.toInt_eq_toNat_bmod, Int.bmod_mul_bmod]
  apply BitVec.toInt_inj.mp
  rw [hshift, BitVec.toInt_sub, BitVec.toInt_ofInt, BitVec.toInt_ofInt, Int.sub_bmod_bmod]

/-- An instruction whose result is a temp of its type: the temp holds the value, everything else is
    as before. -/
theorem stepIns_temp {H : Host} {M : Mode} {fn : MFn} {st : State} {op : MOP} {dt : MType}
    {t : ValId} {a0 a1 : MRef} {r : BitVec dt.bits} (hk : fn.kind t = .temp ∧ fn.vtype t = dt)
    (hop : op.isArith = true) (hf : dt.isFloat = false)
    (hr : evalBin op ((opnd H fn st.regs a0).bits.setWidth dt.bits)
      ((opnd H fn st.regs a1).bits.setWidth dt.bits) = some r) :
    ∃ st1, stepIns H M fn st { op := op, dtype := dt, dst := some t, src0 := a0, src1 := a1 } =
        some st1 ∧ st1.w = st.w ∧
      (opnd H fn st1.regs (.val t)).bits.setWidth dt.bits = r ∧
      (∀ ref, ref ≠ .val t → opnd H fn st1.regs ref = opnd H fn st.regs ref) ∧
      ∀ v, v ≠ t → st1.regs v = st.regs v := by
  refine ⟨_, stepIns_int hop hf hr, rfl, opnd_written H hk.1 hk.2 r, ?_, ?_⟩
  · intro ref href
    exact opnd_setReg_ne H fn st.regs href _
  · intro v hv
    exact setReg_of_ne fn st.regs (fun e => hv (Option.some.inj e).symm) (some (r.setWidth 64))

/-- What `sdivShift` found. -/
theorem sdivShift_some {i : MIns} {n : Nat} (h : sdivShift i = some n) :
    (i.op = .div ∨ i.op = .rem) ∧ ∃ c, i.src1.int? = some c ∧ c.toNat = 2 ^ n := by
  unfold sdivShift at h
  split at h
  next hi =>
    obtain ⟨m, hm, hs⟩ := Option.bind_eq_some_iff.mp h
    obtain ⟨c, hc, hp⟩ := Option.bind_eq_some_iff.mp hm
    split at hs
    · cases hs
      exact ⟨hi.2, c, hc, (pow2?_spec hp).2⟩
    · simp at hs
  next => simp at h

section

variable {H : Host} {M : Mode} {fn : MFn} {i : MIns} {n t : Nat} {st : State}
  (hdt : i.dtype = .i32 ∨ i.dtype = .i64) (hn : n + 1 < i.dtype.bits)
  (hs : sdivShift i = some n)
  (htemp : ∀ j, j < sdivTemps i → fn.kind (t + j) = .temp ∧ fn.vtype (t + j) = i.dtype)
  (hsrc : ∀ j, i.src0 ≠ .val (t + j))

include hdt hn hs htemp hsrc

/-- The first three instructions leave the biased dividend in the third temp. -/
theorem sdivBias_run {x : BitVec i.dtype.bits}
    (hx : (opnd H fn st.regs i.src0).bits.setWidth i.dtype.bits = x) :
    ∃ st3, runIns H M fn (sdivBias i t) st = some st3 ∧ st3.w = st.w ∧
      (opnd H fn st3.regs (.val (t + 2))).bits.setWidth i.dtype.bits = x + signMask x n ∧
      opnd H fn st3.regs i.src0 = opnd H fn st.regs i.src0 ∧
      ∀ v : Nat, v < t → st3.regs v = st.regs v := by
  have hf : i.dtype.isFloat = false := by rcases hdt with h | h <;> rw [h] <;> rfl
  have hthree : ∀ j, j < 3 → j < sdivTemps i := by
    intro j hj
    unfold sdivTemps
    split <;> omega
  obtain ⟨hsign, -⟩ := sdiv_counts hdt hn
  obtain ⟨-, c, hc, hcn⟩ := sdivShift_some hs
  -- the sign, spread over all bits
  obtain ⟨st1, h1, hw1, hv1, ho1, hr1⟩ := @stepIns_temp H M fn st .sar i.dtype t i.src0
    (.con (mconstInt .i32 (if i.dtype = .i64 then 63 else 31))) (x.sshiftRight (i.dtype.bits - 1))
    (htemp 0 (hthree 0 (by decide))) rfl hf (by rw [hx, opnd_mconstInt]; simp only [evalBin, hsign])
  -- the bias
  obtain ⟨st2, h2, hw2, hv2, ho2, hr2⟩ := @stepIns_temp H M fn st1 .and i.dtype (t + 1) (.val t)
    (.con (mconstInt i.dtype ((i.src1.int?).getD 0 - 1))) (signMask x n)
    (htemp 1 (hthree 1 (by decide))) rfl hf (by
      rw [hv1, opnd_mconstInt, hc, Option.getD_some]
      simp only [evalBin, sdiv_mask i.dtype.bits hcn]
      rfl)
  have hx2 : opnd H fn st2.regs i.src0 = opnd H fn st.regs i.src0 :=
    (ho2 _ (hsrc 1)).trans (ho1 _ (hsrc 0))
  -- the biased dividend
  obtain ⟨st3, h3, hw3, hv3, ho3, hr3⟩ := @stepIns_temp H M fn st2 .add i.dtype (t + 2) i.src0
    (.val (t + 1)) (x + signMask x n) (htemp 2 (hthree 2 (by decide))) rfl hf (by
      rw [hx2, hx, hv2]
      rfl)
  refine ⟨st3, ?_, hw3.trans (hw2.trans hw1), hv3, (ho3 _ (hsrc 2)).trans hx2, ?_⟩
  · rw [sdivBias, runIns, h1, Option.bind_some, runIns, h2, Option.bind_some, runIns, h3]
    rfl
  · intro v hv
    rw [hr3 v (Nat.ne_of_lt (Nat.lt_add_right 2 hv)), hr2 v (Nat.ne_of_lt (Nat.lt_add_right 1 hv)),
      hr1 v (Nat.ne_of_lt hv)]

omit hs in
/-- The rest turns it into the quotient or the remainder. -/
theorem sdivTail_run {x : BitVec i.dtype.bits}
    (hx : (opnd H fn st.regs i.src0).bits.setWidth i.dtype.bits = x)
    (hb : (opnd H fn st.regs (.val (t + 2))).bits.setWidth i.dtype.bits = x + signMask x n) :
    ∃ regs : ValId → BitVec 64, (∀ v : Nat, v < t → regs v = st.regs v) ∧
      runIns H M fn (sdivTail i n t) st = some ⟨setReg fn regs i.dst
        (some ((BitVec.ofInt i.dtype.bits (sdivResult i.op x.toInt n)).setWidth 64)), st.w⟩ := by
  have hf : i.dtype.isFloat = false := by rcases hdt with h | h <;> rw [h] <;> rfl
  obtain ⟨-, hcount⟩ := sdiv_counts hdt hn
  have hq := toInt_biasedShift hn x
  by_cases hrem : i.op = .rem
  · have htemp3 := htemp 3 (by unfold sdivTemps; rw [if_pos hrem]; decide)
    -- the quotient, and the quotient times the divisor in the same temp
    obtain ⟨st4, h4, hw4, hv4, ho4, hr4⟩ := @stepIns_temp H M fn st .sar i.dtype (t + 3)
      (.val (t + 2)) (.con (mconstInt .i32 (BitVec.ofNat 64 n)))
      ((x + signMask x n).sshiftRight n) htemp3 rfl hf (by
        rw [hb, opnd_mconstInt]
        simp only [evalBin, hcount])
    obtain ⟨st5, h5, hw5, hv5, ho5, hr5⟩ := @stepIns_temp H M fn st4 .shl i.dtype (t + 3)
      (.val (t + 3)) (.con (mconstInt .i32 (BitVec.ofNat 64 n)))
      ((x + signMask x n).sshiftRight n <<< n) htemp3 rfl hf (by
        rw [hv4, opnd_mconstInt]
        simp only [evalBin, hcount])
    have hx5 : opnd H fn st5.regs i.src0 = opnd H fn st.regs i.src0 :=
      (ho5 _ (hsrc 3)).trans (ho4 _ (hsrc 3))
    have h6 := @stepIns_int H M fn st5 .sub i.dtype i.dst i.src0 (.val (t + 3))
      (x - (x + signMask x n).sshiftRight n <<< n) rfl hf (by
        rw [hx5, hx, hv5]
        rfl)
    rw [ofInt_remainder, hq] at h6
    refine ⟨st5.regs, fun v hv => ?_, ?_⟩
    · rw [hr5 v (Nat.ne_of_lt (Nat.lt_add_right 3 hv)), hr4 v (Nat.ne_of_lt (Nat.lt_add_right 3 hv))]
    · have hres : sdivResult i.op x.toInt n = x.toInt - x.toInt.tdiv (2 ^ n) * 2 ^ n := by
        unfold sdivResult
        rw [if_pos hrem]
      unfold sdivTail
      dsimp only
      rw [if_pos hrem, runIns, h4, Option.bind_some, runIns, h5, Option.bind_some, runIns, h6, hres,
        hw5, hw4]
      rfl
  · have h4 := @stepIns_int H M fn st .sar i.dtype i.dst (.val (t + 2))
      (.con (mconstInt .i32 (BitVec.ofNat 64 n))) ((x + signMask x n).sshiftRight n) rfl hf (by
        rw [hb, opnd_mconstInt]
        simp only [evalBin, hcount])
    have hval : (x + signMask x n).sshiftRight n =
        BitVec.ofInt i.dtype.bits (sdivResult i.op x.toInt n) := by
      unfold sdivResult
      rw [if_neg hrem, ← hq, BitVec.ofInt_toInt]
    rw [hval] at h4
    refine ⟨st.regs, fun _ _ => rfl, ?_⟩
    unfold sdivTail
    dsimp only
    rw [if_neg hrem, runIns, h4]
    rfl

end

/-- Registers that agree below the new temps agree there after the result was written. -/
theorem setReg_below {fn : MFn} {regs regs' : ValId → BitVec 64} {k : Nat}
    (h : ∀ v : Nat, v < k → regs v = regs' v) (dst : Option ValId) (x : BitVec 64) :
    ∀ v : Nat, v < k → setReg fn regs dst (some x) v = setReg fn regs' dst (some x) v := by
  intro v hv
  rcases dst with _ | d
  · exact h v hv
  · by_cases hvd : v = d
    · subst hvd
      simp [setReg]
    · rw [setReg_of_ne fn regs (fun e => hvd (Option.some.inj e).symm),
        setReg_of_ne fn regs' (fun e => hvd (Option.some.inj e).symm), h v hv]

/-- The emitted sequence computes C's quotient or remainder. -/
theorem sdivSeq_computes {fn fnk fn' : MFn} {b : BlkId} {i : MIns} {n : Nat} (hk : Extends fn fnk)
    (hv : i.Valid fn) (hs : sdivShift i = some n) (hd : SdivDomain i n)
    (hext : Extends (sdivTable fnk b i n) fn') :
    Computes fn fn' i n (sdivSeq i n fnk.val.length) := by
  intro H M st
  obtain ⟨hdt, hn⟩ := hd
  have hfn' : Extends fn fn' := hk.trans ((sdivTable_extends fnk b i n).trans hext)
  -- the temps, in the final table
  have htemp : ∀ j, j < sdivTemps i → fn'.kind (fnk.val.length + j) = .temp ∧
      fn'.vtype (fnk.val.length + j) = i.dtype := by
    intro j hj
    obtain ⟨hlt, h1, h2⟩ := sdivTable_temp fnk b i n hj
    obtain ⟨k1, k2, -⟩ := hext.same _ hlt
    exact ⟨k1.trans h1, k2.trans h2⟩
  -- the dividend is none of them
  have hsrc : ∀ j, i.src0 ≠ .val (fnk.val.length + j) := by
    intro j h
    exact absurd (hv.1 _ h) (Nat.not_lt.mpr (Nat.le_trans hk.len (Nat.le_add_right _ _)))
  have hopnd : (opnd H fn st.regs i.src0).bits = (opnd H fn' st.regs i.src0).bits := by
    rcases hr : i.src0 with _ | v | c
    · rfl
    · obtain ⟨h1, -, h3, h4⟩ := hfn'.same v (hv.1 v hr)
      simp only [opnd, valBits, h1, h3, h4]
    · rfl
  rw [hopnd]
  obtain ⟨st3, hrun3, hw3, hb3, ho3, hr3⟩ := @sdivBias_run H M fn' i n fnk.val.length st hdt hn hs
    htemp hsrc _ rfl
  obtain ⟨regs, hregs, hrun⟩ := @sdivTail_run H M fn' i n fnk.val.length st3 hdt hn htemp hsrc _
    (by rw [ho3]) hb3
  refine ⟨_, (runIns_append _ _).mpr ⟨st3, hrun3, hrun⟩, hw3, ?_⟩
  apply setReg_below
  intro v hvl
  have hlt : v < fnk.val.length := Nat.lt_of_lt_of_le hvl hk.len
  rw [hregs v hlt, hr3 v hlt]

/-! ### The block -/

theorem length_sdivSeq (i : MIns) (n : Nat) (t : ValId) :
    (sdivSeq i n t).length = 1 + if i.op = .rem then 5 else 3 := by
  by_cases h : i.op = .rem <;> simp [sdivSeq, sdivBias, sdivTail, h]

/-- The loop writes behind its buffer exactly when the sequences add too much; otherwise the block
    is reduced. -/
theorem msdivLoop_spec {fn fnk : MFn} {cap : Nat} {b : BlkId} {is out : List MIns}
    (hk : Extends fn fnk) (hv : ∀ i ∈ is, i.Valid fn) (hcap : out.length ≤ cap) :
    if out.length + is.length + sdivExtra is ≤ cap then
      ∃ fn' new, msdivLoop cap b is fnk out = some (fn', out ++ new) ∧ Extends fnk fn' ∧
        Reduced fn fn' is new
    else msdivLoop cap b is fnk out = Option.none := by
  induction is generalizing fnk out with
  | nil =>
    rw [if_pos (by simpa [sdivExtra] using hcap)]
    exact ⟨fnk, [], by simp [msdivLoop], Extends.refl fnk, .nil⟩
  | cons i is ih =>
    have hvi := hv i mem_cons_self
    have hvs := fun x hx => hv x (mem_cons_of_mem _ hx)
    -- what one instruction adds
    obtain ⟨extra, hextra, hsum⟩ : ∃ extra, (sdivIns fnk b i).2.length = 1 + extra ∧
        sdivExtra (i :: is) = extra + sdivExtra is := by
      unfold sdivIns sdivExtra
      rcases hs : sdivShift i with _ | n
      · exact ⟨0, rfl, by simp [hs]⟩
      · exact ⟨_, length_sdivSeq i n _, by simp [hs]⟩
    have hkn : Extends fnk (sdivIns fnk b i).1 := by
      unfold sdivIns
      rcases sdivShift i with _ | n
      · exact Extends.refl fnk
      · exact sdivTable_extends fnk b i n
    rw [msdivLoop, hextra]
    by_cases hfit : out.length + (1 + extra) ≤ cap
    · rw [if_pos hfit]
      have hlen : (out ++ (sdivIns fnk b i).2).length = out.length + (1 + extra) := by
        rw [length_append, hextra]
      have h := ih (hk.trans hkn) hvs (by rw [hlen]; exact hfit)
      rw [hlen] at h
      rw [hsum, length_cons]
      by_cases htot : out.length + (is.length + 1) + (extra + sdivExtra is) ≤ cap
      · rw [if_pos (by omega)] at h
        rw [if_pos htot]
        obtain ⟨fn', new, hrun, hext, hred⟩ := h
        refine ⟨fn', (sdivIns fnk b i).2 ++ new, by rw [hrun, append_assoc],
          hkn.trans hext, ?_⟩
        rcases hs : sdivShift i with _ | n
        · simp only [sdivIns, hs]
          exact .keep hs hred
        · simp only [sdivIns, hs] at hext ⊢
          exact .seq hs (fun hd => sdivSeq_computes hk hvi hs hd hext) hred
      · rw [if_neg (by omega)] at h
        rw [if_neg htot]
        exact h
    · rw [if_neg hfit, if_neg]
      rw [hsum, length_cons]
      omega

/-- The block is reduced, every sequence computing C's division, exactly when the sequences add
    no more than 16 instructions. -/
theorem msdivPow2Block_iff (fn : MFn) (b : BlkId) (ins : List MIns) (hv : ∀ i ∈ ins, i.Valid fn) :
    (∃ fn' out, msdivPow2Block fn b ins = some (fn', out) ∧ Reduced fn fn' ins out) ↔
      sdivExtra ins ≤ 16 := by
  have h := @msdivLoop_spec fn fn (ins.length + 16) b ins [] (Extends.refl fn) hv (Nat.zero_le _)
  unfold msdivPow2Block
  rw [length_nil, Nat.zero_add] at h
  constructor
  · rintro ⟨fn', out, hrun, -⟩
    by_contra hgt
    rw [if_neg (by omega), hrun] at h
    simp at h
  · intro hle
    rw [if_pos (by omega)] at h
    obtain ⟨fn', new, hrun, -, hred⟩ := h
    exact ⟨fn', new, hrun, hred⟩

/-- The block of a function that divides its parameter by two, once for each operation of
    `ops`. -/
def halvingIns (ops : List MOP) : List MIns :=
  ⟨.par, .i32, some 0, .none, .none, Option.none, 0⟩ :: ops.zipIdx.map fun p =>
    ⟨p.1, .i32, some (p.2 + 1), .val p.2, .con (mconstInt .i32 2), Option.none, 0⟩

/-- The function. -/
def halvings (ops : List MOP) : MFn where
  blk := [{ ins := halvingIns ops, term := ⟨.ret, .val ops.length⟩ }]
  val := replicate (ops.length + 1)
    { kind := .temp, type := .i32, hasDef := true, defblk := some 0 }
  rettype := .i32

theorem msdivPow2Block_div_rem :
    ∃ fn' out, msdivPow2Block (halvings [.div, .rem]) 0 (halvingIns [.div, .rem]) =
        some (fn', out) ∧
      Reduced (halvings [.div, .rem]) fn' (halvingIns [.div, .rem]) out := by
  refine (msdivPow2Block_iff _ 0 _ ?_).mpr (by decide)
  intro i hi
  have hins : i ∈ ([⟨.par, .i32, some 0, .none, .none, Option.none, 0⟩,
    ⟨.div, .i32, some 1, .val 0, .con (mconstInt .i32 2), Option.none, 0⟩,
    ⟨.rem, .i32, some 2, .val 1, .con (mconstInt .i32 2), Option.none, 0⟩] : List MIns) := hi
  simp only [mem_cons, not_mem_nil, or_false] at hins
  rcases hins with rfl | rfl | rfl <;> constructor <;> intro v hv <;> cases hv <;> decide

/-- Six divisions: the buffer has 23 slots, and their sequences alone fill 24. -/
theorem msdivPow2Block_six_divisions :
    ¬ ∃ fn' out, msdivPow2Block (halvings (replicate 6 .div)) 0
        (halvingIns (replicate 6 .div)) = some (fn', out) ∧
      Reduced (halvings (replicate 6 .div)) fn' (halvingIns (replicate 6 .div)) out := by
  rintro ⟨fn', out, hrun, -⟩
  have hnone : msdivPow2Block (halvings (replicate 6 .div)) 0
      (halvingIns (replicate 6 .div)) = Option.none := by decide
  rw [hnone] at hrun
  cases hrun

/-! ### The buffer -/

/-- The loop stays inside its buffer exactly when the instructions and what their sequences add
    fit. -/
theorem msdivLoop_isSome {fn : MFn} {cap : Nat} {b : BlkId} {is out : List MIns}
    (hcap : out.length ≤ cap) :
    (∃ fn' out', msdivLoop cap b is fn out = some (fn', out') ∧ out'.length ≤ cap) ↔
      out.length + is.length + sdivExtra is ≤ cap := by
  induction is generalizing fn out with
  | nil =>
    rw [show sdivExtra [] = 0 from rfl, length_nil]
    exact iff_of_true ⟨fn, out, rfl, hcap⟩ hcap
  | cons i is ih =>
    obtain ⟨extra, hextra, hsum⟩ : ∃ extra, (sdivIns fn b i).2.length = 1 + extra ∧
        sdivExtra (i :: is) = extra + sdivExtra is := by
      unfold sdivIns sdivExtra
      cases hs : sdivShift i with
      | none => exact ⟨0, rfl, by simp [hs]⟩
      | some n => exact ⟨_, length_sdivSeq i n _, by simp [hs]⟩
    rw [msdivLoop, hextra, hsum, length_cons]
    by_cases hfit : out.length + (1 + extra) ≤ cap
    · have hlen : (out ++ (sdivIns fn b i).2).length = out.length + (1 + extra) := by
        rw [length_append, hextra]
      rw [if_pos hfit, ih (by rw [hlen]; exact hfit), hlen]
      omega
    · rw [if_neg hfit]
      refine iff_of_false ?_ (by omega)
      rintro ⟨fn', out', hrun, -⟩
      cases hrun

/-- **The cells that are written** are those of the buffer exactly when the sequences add no more
    than 16 instructions. -/
theorem msdivPow2Block_inBounds (fn : MFn) (b : BlkId) (ins : List MIns) :
    (∃ fn' out, msdivPow2Block fn b ins = some (fn', out) ∧ out.length ≤ ins.length + 16) ↔
      sdivExtra ins ≤ 16 := by
  rw [msdivPow2Block, msdivLoop_isSome (Nat.zero_le _), length_nil]
  omega

/-- Four remainders: the buffer has 21 slots, and the sequences of 24 and one more instruction are
    written to it. -/
theorem msdivPow2Block_four_remainders :
    ¬ ∃ fn' out, msdivPow2Block (halvings (replicate 4 .rem)) 0
        (halvingIns (replicate 4 .rem)) = some (fn', out) ∧
      out.length ≤ (halvingIns (replicate 4 .rem)).length + 16 := by
  rintro ⟨fn', out, hrun, -⟩
  have hnone : msdivPow2Block (halvings (replicate 4 .rem)) 0
      (halvingIns (replicate 4 .rem)) = Option.none := by decide
  rw [hnone] at hrun
  cases hrun

end MeuOS.Mir
