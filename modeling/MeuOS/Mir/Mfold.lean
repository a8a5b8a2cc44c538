import MeuOS.Mir.View
import MeuOS.Mir.Ssa
import Mathlib.Data.List.Range

namespace MeuOS.Mir

open MeuOS.Lib

/-!
# Constant folding and simplification — `src/mir/mfold.c`

`mfold` rewrites each block on its own: it computes operations on constants on the host, replaces
loads of slots by the constant stored there last, applies algebraic rules, and drops the
instructions whose result is used in their own block only, putting the replacement in place of
the result in everything behind.  `g_fast_math` is 0, so `mfast_simp` finds nothing.

* `mfoldConst` — one operation on constants;
* `memcFind`, `memcSet`, `memcConst` — the constants known to be in slots;
* `msimp` — the algebraic rules;
* `msimpIns`, `msimpFrom`, `mfold` — an instruction, a list of instructions, a function.
-/

/-! ### Operations on constants -/

/-- What the host's computation gives: no result (`return 1`), a trap of its own division, or a
    value. -/
inductive Fold (α : Type)
  | no
  | trap
  | yes (a : α)
  deriving DecidableEq, Repr

/-- Apply a function to the value. -/
def Fold.map {α β : Type} (f : α → β) : Fold α → Fold β
  | .no => .no
  | .trap => .trap
  | .yes a => .yes (f a)

/-- `w`: the operation is computed in 64 bits, else in 32. -/
def MType.wide (t : MType) : Bool := t = .i64 || t = .ptr

/-- A division of host integers: zero divisors trap, and so does signed overflow. -/
def hostDiv {n : Nat} (signed : Bool) (f : BitVec n → BitVec n → BitVec n) (l r : BitVec n) :
    Fold (BitVec n) :=
  if r = 0 ∨ (signed = true ∧ l = BitVec.intMin n ∧ r = -1) then .trap else .yes (f l r)

/-- The shift count of the host's shifts. -/
def foldCount (w : Bool) (r : BitVec 64) : Nat := (r &&& if w then 63 else 31).toNat

/-- The integer operations, as the `uint64_t x` the C code computes; `t` is the first
    constant's type. -/
def foldInt (op : MOP) (w : Bool) (t : MType) (l r : BitVec 64) : Fold (BitVec 64) :=
  match op with
  | .add => .yes (l + r)
  | .sub => .yes (l - r)
  | .mul => .yes (l * r)
  | .div =>
    if r = 0 then .no
    else if r = -1 ∧ l = (if w then BitVec.intMin 64 else (BitVec.intMin 32).signExtend 64) then .no
    else if w then hostDiv true BitVec.sdiv l r
    else (hostDiv true BitVec.sdiv (l.setWidth 32) (r.setWidth 32)).map (·.signExtend 64)
  | .udiv =>
    if r = 0 then .no
    else if w then hostDiv false BitVec.udiv l r
    else (hostDiv false BitVec.udiv (l.setWidth 32) (r.setWidth 32)).map (·.setWidth 64)
  | .rem =>
    if r = 0 then .no
    else if w then hostDiv true BitVec.srem l r
    else (hostDiv true BitVec.srem (l.setWidth 32) (r.setWidth 32)).map (·.signExtend 64)
  | .urem =>
    if r = 0 then .no
    else if w then hostDiv false BitVec.umod l r
    else (hostDiv false BitVec.umod (l.setWidth 32) (r.setWidth 32)).map (·.setWidth 64)
  | .and => .yes (l &&& r)
  | .or => .yes (l ||| r)
  | .xor => .yes (l ^^^ r)
  | .shl => .yes (l <<< foldCount w r)
  | .shr => .yes ((if w then l else (l.setWidth 32).setWidth 64) >>> foldCount w r)
  | .sar => .yes ((if w then l else (l.setWidth 32).signExtend 64).sshiftRight (foldCount w r))
  | .neg => .yes (-l)
  | .sext =>
    .yes (if w then l
      else if t = .i8 then (l.setWidth 8).signExtend 64
      else if t = .i16 then (l.setWidth 16).signExtend 64
      else (l.setWidth 32).signExtend 64)
  | .zext | .trunc => .yes l
  | _ => .no

/-- The constant an integer result is kept in. -/
def foldRes (w : Bool) (x : BitVec 64) : MConst :=
  if w then mconstInt .i64 x else mconstInt .i32 ((x.setWidth 32).signExtend 64)

/-- The comparisons: floats as doubles, integers in 64 bits. -/
def foldCmp (fp : FpOps) (op : MOP) (cl cr : MConst) : Fold MConst :=
  match cl.u, cr.u with
  | .flt l, .flt r =>
    if op.isFpCmp then
      .yes (mconstInt .i32 (if fp.cmp op (fp.toDouble cl.type l) (fp.toDouble cr.type r) then 1 else 0))
    else .no
  | .int l, .int r =>
    if op.isFpCmp then .no else .yes (mconstInt .i32 (if evalCmp op l r then 1 else 0))
  | _, _ => .no

/-- The integer branch. -/
def foldArith (op : MOP) (w : Bool) (cl cr : MConst) : Fold MConst :=
  match cl.int?, cr.int? with
  | some l, some r => (foldInt op w cl.type l r).map (foldRes w)
  | _, _ => .no

/-- `mfold_const`.  The conversions and the negation of a float look at `cl` only, and none of
    the later branches computes them from a constant of another kind. -/
def mfoldConst (fp : FpOps) (op : MOP) (w : Bool) (cl cr : MConst) : Fold MConst :=
  match op with
  | .i2f =>
    match cl.u with
    | .int i => .yes ⟨.f64, .flt (fp.sitod i)⟩
    | _ => .no
  | .ui2f =>
    match cl.u with
    | .int i => .yes ⟨.f64, .flt (fp.uitod (if cl.type = .i32 then low 32 i else i))⟩
    | _ => .no
  | .f2i =>
    match cl.u with
    | .flt d =>
      .yes (if w then mconstInt .i64 (fp.dtosl (fp.toDouble cl.type d))
        else mconstInt .i32 (if cl.type = .f32 then (fp.stosw (low 32 d)).signExtend 64
          else (fp.dtosw d).signExtend 64))
    | _ => .no
  | .neg =>
    match cl.u with
    | .flt d =>
      .yes ⟨cl.type, .flt (if cl.type = .f32 then low 32 (fp.arith .neg .f32 (low 32 d) 0)
        else fp.arith .neg .f64 d 0)⟩
    | _ => foldArith .neg w cl cr
  | _ => if op.isCmp then foldCmp fp op cl cr else foldArith op w cl cr

/-- An integer converted for an `MT_F32` result is rounded. -/
def MIns.rounded (fp : FpOps) (i : MIns) (c : MConst) : MConst :=
  match c.u with
  | .flt d =>
    if (i.op = .i2f ∨ i.op = .ui2f) ∧ i.dtype = .f32 then ⟨.f32, .flt (low 32 (fp.dtos d))⟩ else c
  | _ => c

/-- The second constant handed to `mfold_const`: a zero for the ops that have one operand. -/
def foldRight (i : MIns) (cl : MConst) (a1 : MRef) : Option MConst :=
  match i.op with
  | .neg => some (mconstInt cl.type 0)
  | .i2f | .ui2f | .f2i => some (mconstInt .i64 0)
  | _ => a1.con?

/-- The folding of an instruction with resolved operands. -/
def foldIns (fp : FpOps) (i : MIns) (a0 a1 : MRef) : Fold MConst :=
  match a0.con? with
  | Option.none => .no
  | some cl =>
    match foldRight i cl a1 with
    | Option.none => .no
    | some cr => (mfoldConst fp i.op i.dtype.wide cl cr).map (i.rounded fp)

/-! ### Constants in slots -/

/-- What is known to be in a slot (`struct MMemC`). -/
structure MMemC where
  addr : ValId
  val : MConst
  dtype : MType
  deriving DecidableEq, Repr

/-- `memc_find`. -/
def memcFind (mc : List MMemC) (a : ValId) : Option MMemC := mc.find? fun e => e.addr = a

/-- `memc_set` behind `n` entries for other slots; the table has room for 64. -/
def memcPut (e : MMemC) : Nat → List MMemC → List MMemC
  | n, [] => if n < 64 then [e] else []
  | n, x :: mc => if x.addr = e.addr then e :: mc else x :: memcPut e (n + 1) mc

/-- `memc_set`. -/
def memcSet (mc : List MMemC) (e : MMemC) : List MMemC := memcPut e 0 mc

/-- `8 * w` of `memc_const`. -/
def memcBits : MType → Nat
  | .i64 => 64
  | .i32 => 32
  | .i16 => 16
  | _ => 8

/-- `memc_const`. -/
def memcConst (dt : MType) (c : MConst) : Option MConst :=
  match c.u with
  | .int i => some (mconstInt dt (low (memcBits dt) i))
  | .flt _ => some c
  | _ => Option.none

/-! ### Algebraic rules -/

/-- The loop that counts how often a power of two can be halved. -/
def pow2Shift : Nat → BitVec 64 → Nat
  | 0, _ => 0
  | k + 1, v => if v.getLsbD 0 then 0 else pow2Shift k (v >>> 1) + 1

/-- The exponent of a positive power of two. -/
def pow2? (c : BitVec 64) : Option Nat :=
  if BitVec.slt 0 c = true ∧ c &&& (c - 1) = 0 then some (pow2Shift 64 c) else Option.none

/-- What the rules make of an instruction: a reference in its place, or the op and `src[1]` it
    goes on with. -/
inductive Simp
  | drop (r : MRef)
  | keep (op : MOP) (a1 : MRef)
  deriving DecidableEq, Repr

/-- `a0.val && a1.val && a0.val == a1.val`. -/
def sameVal (a0 a1 : MRef) : Bool := a0.val?.isSome && a0.val? = a1.val?

/-- The `switch` of `msimp_block`; `aggr` is `g_mir_fold_aggressive`. -/
def msimp (aggr : Bool) (op : MOP) (dt : MType) (a0 a1 : MRef) : Simp :=
  let zero := MRef.con (mconstInt dt 0)
  match op with
  | .add | .or | .shl | .shr | .sar => if a1.int? = some 0 then .drop a0 else .keep op a1
  | .mul =>
    if a1.int? = some 1 then .drop a0
    else if a1.int? = some 0 then .drop zero
    else match a1.int?.bind pow2? with
      | some n => if aggr then .keep .shl (.con (mconstInt .i32 (BitVec.ofNat 64 n))) else .keep op a1
      | Option.none => .keep op a1
  | .and => if a1.int? = some 0 then .drop zero else .keep op a1
  | .xor =>
    if a1.int? = some 0 then .drop a0
    else if sameVal a0 a1 then .drop zero
    else .keep op a1
  | .sub => if sameVal a0 a1 then .drop zero else .keep op a1
  | .udiv =>
    match a1.int?.bind pow2? with
    | some n => .keep .shr (.con (mconstInt .i32 (BitVec.ofNat 64 n)))
    | Option.none => .keep op a1
  | .urem =>
    match a1.int?.bind fun c => (pow2? c).map fun _ => c with
    | some c => .keep .and (.con (mconstInt dt (c - 1)))
    | Option.none => .keep op a1
  | _ => .keep op a1

/-! ### Blocks -/

/-- What the pass knows at a place of a block: the replacements (`tab`) and the constants in
    slots. -/
structure SimpSt where
  tab : ValId → Option MRef
  memc : List MMemC

/-- At the start of a block nothing is known. -/
def SimpSt.start : SimpSt := ⟨fun _ => Option.none, []⟩

/-- `map_resolve`. -/
def SimpSt.resolve (s : SimpSt) (r : MRef) : MRef :=
  match r.val?.bind s.tab with
  | some .none | Option.none => r
  | some x => x

/-- The entry a load finds: of its own type, and nothing volatile about the load. -/
def memcHit (fn : MFn) (used : Bool) (s : SimpSt) (i : MIns) : Option MMemC :=
  (((s.resolve i.src0).val?.filter fn.isTemp).bind (memcFind s.memc)).filter fun mc =>
    mc.dtype = i.dtype && !i.volatile && !used

/-- The constant for a load. -/
def memcLoad (fn : MFn) (used : Bool) (s : SimpSt) (i : MIns) : Option MConst :=
  if i.op = .load then (memcHit fn used s i).bind fun mc => memcConst i.dtype mc.val else Option.none

/-- The table behind an instruction: a constant stored to a slot is remembered, any other store
    and every call empties the table. -/
def memcNext (fn : MFn) (s : SimpSt) (i : MIns) : List MMemC :=
  match i.op with
  | .store =>
    match (s.resolve i.src0).con?, (s.resolve i.src1).val? with
    | some c, some a =>
      if fn.isTemp a && isAlloca fn a && !i.volatile then memcSet s.memc ⟨a, c, i.dtype⟩ else []
    | _, _ => []
  | .call => []
  | _ => s.memc

/-- The guard of the algebraic rules. -/
def simpAllowed (fn : MFn) (b : BlkId) (used : Bool) (i : MIns) (a0 a1 : MRef) : Bool :=
  i.dst.isSome && i.op.ltJmp && !used && !definedOutside fn a0 b && !definedOutside fn a1 b

/-- `used_outside` of an instruction's result. -/
def dstUsed (fn : MFn) (b : BlkId) (i : MIns) : Bool :=
  i.dst.any fun d => usedOutside fn (buildUses fn) d b

/-- The folding, with its guard. -/
def foldTry (fp : FpOps) (fn : MFn) (b : BlkId) (s : SimpSt) (i : MIns) : Fold MConst :=
  if i.dst.isSome && (i.op.ltJmp || i.op.gtCall) && !dstUsed fn b i then
    foldIns fp i (s.resolve i.src0) (s.resolve i.src1)
  else .no

/-- The algebraic rules, with their guard. -/
def simpTry (aggr : Bool) (fn : MFn) (b : BlkId) (s : SimpSt) (i : MIns) : Simp :=
  if simpAllowed fn b (dstUsed fn b i) i (s.resolve i.src0) (s.resolve i.src1) then
    msimp aggr i.op i.dtype (s.resolve i.src0) (s.resolve i.src1)
  else .keep i.op (s.resolve i.src1)

/-- What becomes of an instruction: a replacement for its result, or the instruction the block
    keeps.  `none` is a trap of the host. -/
def msimpWhat (fp : FpOps) (aggr : Bool) (fn : MFn) (b : BlkId) (s : SimpSt) (i : MIns) :
    Option (MRef ⊕ MIns) :=
  match foldTry fp fn b s i with
  | .trap => Option.none
  | .yes c => some (.inl (.con c))
  | .no =>
    match memcLoad fn (dstUsed fn b i) s i with
    | some c => some (.inl (.con c))
    | Option.none =>
      match simpTry aggr fn b s i with
      | .drop r => some (.inl r)
      | .keep op a1 => some (.inr { i with op := op, src0 := s.resolve i.src0, src1 := a1 })

/-- One round of the loop of `msimp_block`: the state behind the instruction and what is left of
    it. -/
def msimpIns (fp : FpOps) (aggr : Bool) (fn : MFn) (b : BlkId) (s : SimpSt) (i : MIns) :
    Option (SimpSt × List MIns) :=
  (msimpWhat fp aggr fn b s i).bind fun
    | .inl r => i.dst.map fun d => (⟨Function.update s.tab d (some r), s.memc⟩, [])
    | .inr i' => some (⟨s.tab, memcNext fn s i⟩, [i'])

/-- The loop of `msimp_block`. -/
def msimpFrom (fp : FpOps) (aggr : Bool) (fn : MFn) (b : BlkId) :
    SimpSt → List MIns → Option (SimpSt × List MIns)
  | s, [] => some (s, [])
  | s, i :: is =>
    (msimpIns fp aggr fn b s i).bind fun r =>
      (msimpFrom fp aggr fn b r.1 is).map fun q => (q.1, r.2 ++ q.2)

/-- `msimp_block`. -/
def msimpBlock (fp : FpOps) (aggr : Bool) (fn : MFn) (b : BlkId) (blk : MBlk) : Option MBlk :=
  (msimpFrom fp aggr fn b .start blk.ins).map fun r =>
    { blk with ins := r.2, term := { blk.term with src0 := r.1.resolve blk.term.src0 } }

/-- `mfold`: use chains and allocas are looked up once, and no block's rewriting reads another
    block. -/
def mfold (fp : FpOps) (aggr : Bool) (fn : MFn) : Option MFn :=
  (fn.blk.zipIdx.mapM fun p => msimpBlock fp aggr fn p.2 p.1).map fun l => { fn with blk := l }

end MeuOS.Mir
