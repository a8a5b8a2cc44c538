import MeuOS.Mir.Uses
import MeuOS.Lib.ByteMem
import MeuOS.Lib.Simulation
import Mathlib.Logic.Function.Basic

namespace MeuOS.Mir

open MeuOS.Lib

/-!
# Meaning of MIR functions

A temp holds a bit pattern of its type's width, kept zero-extended in a 64-bit
register.  An operation of `dtype` width `w` reads its operands modulo `2^w`;
comparisons compare at that width; extensions and the integer/float conversions read
their operand at the operand's own type.  Floating-point operations are uninterpreted
(`FpOps`), and so is everything outside the function: calls, `va_start`, `va_arg` and the
language-extension ops act on memory through `Ext`, which says what they return, what
they write and which bytes they touch.

* `pureVal` — the arithmetic, comparison and conversion ops;
* `effect` — one instruction: the value it defines and what it does to the world;
* `runBlk` — one block: phis, instructions, terminator;
* `runFn` — runs of up to `n` blocks.

Dividing by zero and overflowing a signed division are undefined (`none`).  `Mode` fixes
two things a run is observed under: `chk` names slots whose address never leaves the
address position of loads and stores, and makes reaching their bytes in another way
undefined, as C does; `quiet` names slots whose stores are left out of the trace.
-/

/-! ### The outside world -/

/-- Floating-point operations, on bit patterns.  `cmp` compares doubles. -/
structure FpOps where
  arith : MOP → MType → BitVec 64 → BitVec 64 → BitVec 64
  cmp : MOP → BitVec 64 → BitVec 64 → Bool
  stod : BitVec 64 → BitVec 64
  dtos : BitVec 64 → BitVec 64
  sitod : BitVec 64 → BitVec 64
  uitod : BitVec 64 → BitVec 64
  dtosl : BitVec 64 → BitVec 64
  dtosw : BitVec 64 → BitVec 32
  stosw : BitVec 64 → BitVec 32

/-- A piece of the outside world: what it returns and leaves in memory for given operands.
    `touch` is the set of bytes it reads or writes; it leaves the others alone and
    does not depend on them. -/
structure Ext where
  run : List (BitVec 64) → Mem → BitVec 64 × Mem
  touch : List (BitVec 64) → Mem → BitVec 64 → Bool
  frame : ∀ xs m a, touch xs m a = false → (run xs m).2 a = m a
  locality : ∀ xs m m', (∀ a, touch xs m a = true → m a = m' a) →
    (run xs m').1 = (run xs m).1 ∧ touch xs m' = touch xs m ∧
      ∀ a, touch xs m a = true → (run xs m').2 a = (run xs m).2 a

/-- Everything a function's run depends on besides its code: parameters, addresses of
    symbols and stack slots, the patterns of values that are neither temps, symbols nor
    constants (labels, types), and the effects of the opaque ops. -/
structure Host where
  fp : FpOps
  sym : String → BitVec 64
  other : ValId → BitVec 64
  undef : BitVec 64
  par : ValId → BitVec 64
  alloca : ValId → Nat → BitVec 64
  ext : MOP → MType → Nat → Ext

/-- What a run shows: stores, and calls and other opaque ops with their operands. -/
inductive Event
  | store (addr : BitVec 64) (n : Nat) (v : BitVec 64)
  | ext (op : MOP) (dtype : MType) (extra : Nat) (xs : List (BitVec 64))
  deriving DecidableEq

/-- The part of the state that is not temps: memory, the arguments collected for the next
    call, the trace, and the address and size of each stack slot, latest allocation
    first. -/
structure World where
  mem : Mem
  args : List (BitVec 64)
  trace : List Event
  slot : ValId → List (BitVec 64 × Nat)

/-- How a run is checked and observed. -/
structure Mode where
  chk : Option (ValId → Bool)
  quiet : ValId → Bool

/-- The plain meaning: nothing is checked and every store is in the trace. -/
def Mode.plain : Mode := ⟨Option.none, fun _ => false⟩

/-- No checks, with the stores through `quiet` slots left out of the trace. -/
def Mode.unchecked (M : Mode) : Mode := ⟨Option.none, M.quiet⟩

/-- Temps and world. -/
structure State where
  regs : ValId → BitVec 64
  w : World

/-! ### Operands -/

/-- A value as an operand sees it: its pattern, its type and the temp it came from. -/
structure Opnd where
  bits : BitVec 64
  ty : MType
  via : Option ValId
  deriving DecidableEq

/-- The pattern of a constant. -/
def constBits (H : Host) (c : MConst) : BitVec 64 :=
  match c.u with
  | .undef => H.undef
  | .int i => i
  | .flt d => d
  | .addr sym off _ _ => H.sym sym + off

/-- The pattern of a table value.  Only temps change during a run: physical registers
    come in with instruction selection, behind the passes. -/
def valBits (H : Host) (fn : MFn) (regs : ValId → BitVec 64) (v : ValId) : BitVec 64 :=
  match fn.kind v with
  | .global => H.sym (fn.getVal v).sym
  | .const => ((fn.getVal v).con.map (constBits H)).getD 0
  | .temp => regs v
  | .none | .label | .type | .reg => H.other v

/-- The operand a reference denotes. -/
def opnd (H : Host) (fn : MFn) (regs : ValId → BitVec 64) : MRef → Opnd
  | .none => ⟨0, .none, Option.none⟩
  | .val v => ⟨valBits H fn regs v, fn.vtype v, some v⟩
  | .con c => ⟨constBits H c, c.type, Option.none⟩

/-- Zero-extend the low `w` bits. -/
def low (w : Nat) (x : BitVec 64) : BitVec 64 := (x.setWidth w).setWidth 64

theorem getLsbD_low (w : Nat) (x : BitVec 64) (i : Nat) :
    (low w x).getLsbD i = (decide (i < w) && x.getLsbD i) := by
  simp only [low, BitVec.getLsbD_setWidth]
  by_cases hi : i < 64
  · simp [hi]
  · rw [BitVec.getLsbD_of_ge _ _ (Nat.le_of_not_lt hi)]
    simp

theorem low_low {v w : Nat} (h : v ≤ w) (x : BitVec 64) : low v (low w x) = low v x := by
  apply BitVec.eq_of_getLsbD_eq
  intro i _
  simp only [getLsbD_low]
  by_cases hv : i < v
  · simp [hv, Nat.lt_of_lt_of_le hv h]
  · simp [hv]

theorem low_setWidth {w : Nat} (h : w ≤ 64) (x : BitVec w) :
    low w (x.setWidth 64) = x.setWidth 64 := by
  rw [low, BitVec.setWidth_setWidth_of_le _ h, BitVec.setWidth_eq]

/-- An operand read at its own type and sign-extended. -/
def Opnd.signed (x : Opnd) : BitVec 64 := (x.bits.setWidth x.ty.bits).signExtend 64

/-- An operand read at its own type and zero-extended. -/
def Opnd.unsigned (x : Opnd) : BitVec 64 := low x.ty.bits x.bits

/-! ### Pure operations -/

/-- The modulus of a shift count. -/
def shiftMod (w : Nat) : Nat := if w = 64 then 64 else 32

/-- Integer arithmetic at width `w`. -/
def evalBin (op : MOP) {w : Nat} (x y : BitVec w) : Option (BitVec w) :=
  match op with
  | .add => some (x + y)
  | .sub => some (x - y)
  | .mul => some (x * y)
  | .div => if y = 0 ∨ (x = BitVec.intMin w ∧ y = -1) then Option.none else some (x.sdiv y)
  | .udiv => if y = 0 then Option.none else some (x.udiv y)
  | .rem => if y = 0 ∨ (x = BitVec.intMin w ∧ y = -1) then Option.none else some (x.srem y)
  | .urem => if y = 0 then Option.none else some (x.umod y)
  | .neg => some (-x)
  | .and => some (x &&& y)
  | .or => some (x ||| y)
  | .xor => some (x ^^^ y)
  | .shl => some (x <<< (y.toNat % shiftMod w))
  | .shr => some (x >>> (y.toNat % shiftMod w))
  | .sar => some (x.sshiftRight (y.toNat % shiftMod w))
  | _ => some 0

/-- Integer comparison at width `w`. -/
def evalCmp (op : MOP) {w : Nat} (x y : BitVec w) : Bool :=
  match op with
  | .ceq => x = y
  | .cne => x ≠ y
  | .cslt => x.slt y
  | .csle => x.sle y
  | .csgt => y.slt x
  | .csge => y.sle x
  | .cult => x.ult y
  | .cule => x.ule y
  | .cugt => y.ult x
  | .cuge => y.ule x
  | _ => false

/-- `MOP_ADD` to `MOP_SAR`. -/
def MOP.isArith : MOP → Bool
  | .add | .sub | .mul | .div | .udiv | .rem | .urem | .neg | .and | .or | .xor
  | .shl | .shr | .sar => true
  | _ => false

/-- The arithmetic ops that exist for floats. -/
def MOP.isFpArith : MOP → Bool
  | .add | .sub | .mul | .div | .neg => true
  | _ => false

/-- The float comparisons. -/
def MOP.isFpCmp : MOP → Bool
  | .cfeq | .cfne | .cflt | .cfle | .cfgt | .cfge => true
  | _ => false

/-- The conversions. -/
def MOP.isConv : MOP → Bool
  | .sext | .zext | .trunc | .cast | .f2i | .i2f | .ui2f | .fext | .ftrunc | .copy => true
  | _ => false

/-- What kind of thing an op does. -/
inductive OpClass
  | pure | ext | load | store | alloca | par | arg | inert
  deriving DecidableEq, Repr

/-- The class of an op: `pure` ops compute a value from their operands alone, `ext` ops act
    on the outside world, and terminators and markers do nothing inside a block. -/
def MOP.cls (op : MOP) : OpClass :=
  if op.isArith || op.isCmp || op.isConv then .pure
  else match op with
    | .call | .vastart | .vaarg | .salloc | .extra => .ext
    | .load => .load
    | .store => .store
    | .alloca => .alloca
    | .par => .par
    | .arg => .arg
    | _ => .inert

/-- A float pattern as a double. -/
def FpOps.toDouble (fp : FpOps) (t : MType) (x : BitVec 64) : BitVec 64 :=
  if t = .f32 then fp.stod (low 32 x) else x

/-- Arithmetic: float ops on float types are uninterpreted, all others work on bits.
    Negation has one operand. -/
def arithVal (fp : FpOps) (op : MOP) (dt : MType) (x y : BitVec 64) : Option (BitVec 64) :=
  if dt.isFloat && op.isFpArith then
    some (fp.arith op dt (low dt.bits x) (if op = .neg then 0 else low dt.bits y))
  else (evalBin op (x.setWidth dt.bits) (y.setWidth dt.bits)).map (·.setWidth 64)

/-- Comparisons, giving 0 or 1. -/
def cmpVal (fp : FpOps) (op : MOP) (dt : MType) (x y : BitVec 64) : BitVec 64 :=
  if op.isFpCmp then (if fp.cmp op (fp.toDouble dt x) (fp.toDouble dt y) then 1 else 0)
  else if evalCmp op (x.setWidth dt.bits) (y.setWidth dt.bits) then 1 else 0

/-- Conversions. -/
def convVal (fp : FpOps) (op : MOP) (dt : MType) (x : Opnd) : BitVec 64 :=
  match op with
  | .sext => x.signed
  | .zext => x.unsigned
  | .f2i =>
    if dt.bits = 64 then fp.dtosl (fp.toDouble x.ty x.bits)
    else if x.ty = .f32 then (fp.stosw (low 32 x.bits)).signExtend 64
    else (fp.dtosw x.bits).signExtend 64
  | .i2f => if dt = .f32 then fp.dtos (fp.sitod x.signed) else fp.sitod x.signed
  | .ui2f => if dt = .f32 then fp.dtos (fp.uitod x.unsigned) else fp.uitod x.unsigned
  | .fext => fp.stod (low 32 x.bits)
  | .ftrunc => fp.dtos x.bits
  | _ => x.bits

/-- The value of a pure op, as a pattern of `dtype`'s width. -/
def pureVal (fp : FpOps) (op : MOP) (dt : MType) (x y : Opnd) : Option (BitVec 64) :=
  if op.isArith then arithVal fp op dt x.bits y.bits
  else if op.isCmp then some (cmpVal fp op dt x.bits y.bits)
  else some (low dt.bits (convVal fp op dt x))

/-! ### Memory accesses -/

/-- The slot an operand addresses directly. -/
def viaSlot (w : World) (via : Option ValId) : Option (BitVec 64 × Nat) :=
  via.bind fun v => (w.slot v).head?

/-- An access of `n` bytes at `a` through operand temp `via` is defined: through a slot's own
    temp it stays inside the slot (a checked slot has to be allocated by then), and it does
    not reach another slot when that is a checked one or when the access goes through a
    slot's own temp. -/
def accessOk (fn : MFn) (chk : Option (ValId → Bool)) (w : World) (via : Option ValId)
    (a : BitVec 64) (n : Nat) : Bool :=
  match chk with
  | Option.none => true
  | some priv =>
    (match viaSlot w via with
      | some r => decide (∀ i < n, InWin r.1 r.2 (a + BitVec.ofNat 64 i))
      | Option.none => !via.any priv) &&
    (List.range fn.val.length).all fun s =>
      via = some s || !(priv s || (viaSlot w via).isSome) ||
        (w.slot s).all fun r => decide (∀ i < n, ¬ InWin r.1 r.2 (a + BitVec.ofNat 64 i))

/-- An opaque op is defined when it touches no byte of a checked slot. -/
def extOk (fn : MFn) (chk : Option (ValId → Bool)) (w : World) (e : Ext)
    (xs : List (BitVec 64)) : Bool :=
  match chk with
  | Option.none => true
  | some priv =>
    (List.range fn.val.length).all fun s =>
      !priv s || (w.slot s).all fun r =>
        decide (∀ i < r.2, e.touch xs w.mem (r.1 + BitVec.ofNat 64 i) = false)

/-! ### Instructions -/

/-- The inputs of an opaque op: its operands, and for a call the collected arguments. -/
def extInputs (op : MOP) (w : World) (x y : Opnd) : List (BitVec 64) :=
  x.bits :: y.bits :: if op = .call then w.args else []

/-- What an instruction does: the value for its `dst` (if it defines one) and the world
    after it. -/
def effect (H : Host) (M : Mode) (fn : MFn) (i : MIns) (x y : Opnd) (w : World) :
    Option (Option (BitVec 64) × World) :=
  match i.op.cls with
  | .pure => (pureVal H.fp i.op i.dtype x y).map fun v => (some v, w)
  | .ext =>
    let e := H.ext i.op i.dtype i.extra
    let xs := extInputs i.op w x y
    if extOk fn M.chk w e xs then
      some (some (e.run xs w.mem).1,
        { w with mem := (e.run xs w.mem).2
                 args := if i.op = .call then [] else w.args
                 trace := w.trace ++ [.ext i.op i.dtype i.extra xs] })
    else Option.none
  | .load =>
    if accessOk fn M.chk w x.via x.bits (i.dtype.bits / 8) then
      some (some (w.mem.read x.bits (i.dtype.bits / 8)), w)
    else Option.none
  | .store =>
    if accessOk fn M.chk w y.via y.bits (i.dtype.bits / 8) then
      some (Option.none,
        { w with mem := w.mem.write y.bits (i.dtype.bits / 8) x.bits
                 trace := if y.via.any M.quiet then w.trace
                   else w.trace ++ [.store y.bits (i.dtype.bits / 8) (low i.dtype.bits x.bits)] })
    else Option.none
  | .alloca =>
    match i.dst with
    | some d =>
      some (some (H.alloca d (w.slot d).length),
        { w with slot := Function.update w.slot d
                   ((H.alloca d (w.slot d).length, x.bits.toNat) :: w.slot d) })
    | Option.none => some (Option.none, w)
  | .par => some (i.dst.map H.par, w)
  | .arg => some (Option.none, { w with args := w.args ++ [low i.dtype.bits x.bits, y.bits] })
  | .inert => some (Option.none, w)

/-- Write a result: a temp keeps a pattern of its type's width. -/
def setReg (fn : MFn) (regs : ValId → BitVec 64) (dst : Option ValId) (v : Option (BitVec 64)) :
    ValId → BitVec 64 :=
  match dst, v with
  | some d, some x => Function.update regs d (low (fn.vtype d).bits x)
  | _, _ => regs

/-- One instruction. -/
def stepIns (H : Host) (M : Mode) (fn : MFn) (st : State) (i : MIns) : Option State :=
  (effect H M fn i (opnd H fn st.regs i.src0) (opnd H fn st.regs i.src1) st.w).map fun r =>
    ⟨setReg fn st.regs i.dst r.1, r.2⟩

/-- A list of instructions. -/
def runIns (H : Host) (M : Mode) (fn : MFn) : List MIns → State → Option State
  | [], st => some st
  | i :: is, st => (stepIns H M fn st i).bind (runIns H M fn is)

/-! ### Blocks and functions -/

/-- The argument of a phi for the edge from `p`. -/
def MPhi.argFor (q : MPhi) (p : BlkId) : Option ValId :=
  (q.args.find? fun a => a.2 = p).map Prod.fst

/-- The phis of a block on the edge from `p`: all arguments are read before any phi is
    written.  A phi without an argument for the edge is undefined. -/
def phiVals (H : Host) (fn : MFn) (regs : ValId → BitVec 64) (p : BlkId) (phis : List MPhi) :
    Option (List (ValId × BitVec 64)) :=
  phis.mapM fun q => (q.argFor p).map fun v => (q.dst, low q.dtype.bits (valBits H fn regs v))

/-- Write a list of results. -/
def setRegs (fn : MFn) (regs : ValId → BitVec 64) (l : List (ValId × BitVec 64)) :
    ValId → BitVec 64 :=
  l.foldl (fun r p => setReg fn r (some p.1) (some p.2)) regs

/-- Enter a block: from a predecessor its phis are evaluated, at function entry there is
    nothing to do. -/
def enterBlk (H : Host) (fn : MFn) (prev : Option BlkId) (blk : MBlk) (st : State) : Option State :=
  match prev with
  | Option.none => some st
  | some p => (phiVals H fn st.regs p blk.phi).map fun l => ⟨setRegs fn st.regs l, st.w⟩

/-- Where a run is: about to enter block `b`, coming from `prev`. -/
structure Cfg where
  b : BlkId
  prev : Option BlkId
  st : State

/-- A finished run: the returned pattern and the final world. -/
structure Done where
  val : BitVec 64
  w : World

/-- The terminator of block `b`. -/
def runTerm (H : Host) (fn : MFn) (b : BlkId) (blk : MBlk) (st : State) : Option (Cfg ⊕ Done) :=
  match blk.term.op with
  | .jmp => blk.s1.map fun s => .inl ⟨s, some b, st⟩
  | .jnz =>
    let c := opnd H fn st.regs blk.term.src0
    (if c.unsigned ≠ 0 then blk.s1 else blk.s2).map fun s => .inl ⟨s, some b, st⟩
  | .ret => some (.inr ⟨low fn.rettype.bits (opnd H fn st.regs blk.term.src0).bits, st.w⟩)
  | _ => Option.none

/-- One block. -/
def runBlk (H : Host) (M : Mode) (fn : MFn) (c : Cfg) : Option (Cfg ⊕ Done) :=
  (fn.blk[c.b]?).bind fun blk =>
    (enterBlk H fn c.prev blk c.st).bind fun st =>
      (runIns H M fn blk.ins st).bind (runTerm H fn c.b blk)

/-- Function entry. -/
def MFn.entry (fn : MFn) (st : State) : Cfg := ⟨fn.start, Option.none, st⟩

/-- Up to `n` blocks from function entry. -/
def runFn (H : Host) (M : Mode) (fn : MFn) (n : Nat) (st : State) : Option (Cfg ⊕ Done) :=
  run (runBlk H M fn) n (fn.entry st)

/-- The pattern a finished run returned. -/
def retVal : Option (Cfg ⊕ Done) → Option (BitVec 64)
  | some (.inr d) => some d.val
  | _ => Option.none

/-! ### A quiet host -/

/-- An opaque op that returns 0 and touches nothing. -/
def Ext.still : Ext where
  run _ m := (0, m)
  touch _ _ _ := false
  frame _ _ _ _ := rfl
  locality _ _ _ _ := ⟨rfl, rfl, fun _ h => absurd h Bool.false_ne_true⟩

/-- A host without symbols or outside effects; the slot of `v` starts at page `v + 1`. -/
def Host.still : Host where
  fp := ⟨fun _ _ _ _ => 0, fun _ _ _ => false, id, id, id, id, id, fun _ => 0, fun _ => 0⟩
  sym _ := 0
  other _ := 0
  undef := 0
  par _ := 0
  alloca v _ := BitVec.ofNat 64 (4096 * (v + 1))
  ext _ _ _ := .still

/-- Zeroed temps and memory, nothing allocated, an empty trace. -/
def State.zero : State := ⟨fun _ => 0, ⟨fun _ => 0, [], [], fun _ => []⟩⟩

end MeuOS.Mir
