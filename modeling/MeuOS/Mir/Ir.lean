import Mathlib.Data.List.Basic
import Mathlib.Data.List.Nodup
import Mathlib.Algebra.Group.Nat.Defs
import Mathlib.Algebra.GroupWithZero.Nat

namespace MeuOS.Mir

/-!
# mcc's MIR — the data model of `include/mir.h`

The middle-end IR the optimisation passes work on.  Pointers of the C code become
indices: a `MVal *` is its place in the value table (`v->id`), a `MBlk *` its place
in the block table (`b->id`).  `mfn_addblk` gives dense ids and prepends to
`fn->link`, so the block list the passes walk is the table from its last entry to
its first (`MFn.linkOrder`).

* `MType`, `MOP`, `MValKind` — the enumerations;
* `MConst`, `MVal`, `MRef` — constants, table entries and operands.  Constants are
  held by value: `mconst_int` and its siblings keep one pool entry per
  (kind, type, payload), so a pool pointer and the payload identify each other;
* `MIns`, `MPhi`, `MBlk`, `MFn` — instructions, phis, blocks and functions.
-/

/-- Scalar types (`enum MType`). -/
inductive MType
  | none | void | i8 | i16 | i32 | i64 | f32 | f64 | ptr | agg
  deriving DecidableEq, Repr, Inhabited

/-- The width in bits of the pattern a temp of this type holds.  Types without a
    scalar size (`MT_NONE` for an untyped temp, `MT_AGG` for an aggregate's address)
    keep the whole 64-bit register. -/
def MType.bits : MType → Nat
  | .i8 => 8
  | .i16 => 16
  | .i32 | .f32 => 32
  | .none | .void | .i64 | .f64 | .ptr | .agg => 64

theorem MType.bits_le (t : MType) : t.bits ≤ 64 := by cases t <;> decide

theorem MType.bits_bytes (t : MType) : 8 * (t.bits / 8) = t.bits := by cases t <;> decide

/-- `mtypeisfloat`. -/
def MType.isFloat : MType → Bool
  | .f32 | .f64 => true
  | _ => false

/-- Opcodes (`enum MOP`), in the order of the C enumeration. -/
inductive MOP
  | none
  | add | sub | mul | div | udiv | rem | urem
  | neg | and | or | xor | shl | shr | sar
  | ceq | cne | cslt | csle | csgt | csge | cult | cule | cugt | cuge
  | cfeq | cfne | cflt | cfle | cfgt | cfge
  | load | store | alloca
  | sext | zext | trunc | cast | f2i | i2f | ui2f | fext | ftrunc
  | jmp | jnz | ret | call
  | arg | par | vararg
  | phi | copy | vastart | vaarg | salloc
  | extra | nop
  deriving DecidableEq, Repr, Inhabited

/-- `op >= MOP_CEQ && op <= MOP_CFGE`. -/
def MOP.isCmp : MOP → Bool
  | .ceq | .cne | .cslt | .csle | .csgt | .csge | .cult | .cule | .cugt | .cuge
  | .cfeq | .cfne | .cflt | .cfle | .cfgt | .cfge => true
  | _ => false

/-- `op < MOP_JMP`: everything in front of the terminators. -/
def MOP.ltJmp : MOP → Bool
  | .jmp | .jnz | .ret | .call | .arg | .par | .vararg | .phi | .copy
  | .vastart | .vaarg | .salloc | .extra | .nop => false
  | _ => true

/-- `op > MOP_CALL`: everything behind the terminators. -/
def MOP.gtCall : MOP → Bool
  | .arg | .par | .vararg | .phi | .copy
  | .vastart | .vaarg | .salloc | .extra | .nop => true
  | _ => false

/-- Value kinds (`enum MValKind`). -/
inductive MValKind
  | none | temp | global | const | type | label | reg
  deriving DecidableEq, Repr, Inhabited

/-- A constant's payload: the active member of the union of `struct MConst`, with
    `kind`.  A float payload is its bit pattern (`MT_F32`: the low 32 bits). -/
inductive MConstVal
  | undef
  | int (i : BitVec 64)
  | flt (d : BitVec 64)
  | addr (sym : String) (off : BitVec 64) (tls isext : Bool)
  deriving DecidableEq, Repr

instance : Inhabited MConstVal := ⟨.undef⟩

/-- A constant (`struct MConst`). -/
structure MConst where
  type : MType
  u : MConstVal
  deriving DecidableEq, Repr, Inhabited

/-- `mconst_int`. -/
def mconstInt (t : MType) (v : BitVec 64) : MConst := ⟨t, .int v⟩

/-- `c && c->kind == MC_INT`, with the payload. -/
def MConst.int? (c : MConst) : Option (BitVec 64) :=
  match c.u with
  | .int i => some i
  | _ => Option.none

/-- Index into the value table (`MVal.id`). -/
abbrev ValId := Nat

/-- Index into the block table (`MBlk.id`). -/
abbrev BlkId := Nat

/-- An entry of the value table (`struct MVal`): the fields the passes read.
    `td` says whether the value carries an aggregate descriptor, `defblk` is the
    block of its definition and `hasDef` whether `def` is set. -/
structure MVal where
  kind : MValKind
  type : MType := .none
  td : Bool := false
  con : Option MConst := Option.none
  sym : String := ""
  defblk : Option BlkId := Option.none
  hasDef : Bool := false
  deriving DecidableEq, Repr, Inhabited

/-- An operand (`struct MRef`): nothing, a table value or a constant. -/
inductive MRef
  | none
  | val (v : ValId)
  | con (c : MConst)
  deriving DecidableEq, Repr

instance : Inhabited MRef := ⟨.none⟩

/-- The `val` pointer of an operand. -/
def MRef.val? : MRef → Option ValId
  | .val v => some v
  | _ => Option.none

/-- The `con` pointer of an operand. -/
def MRef.con? : MRef → Option MConst
  | .con c => some c
  | _ => Option.none

/-- The payload of an operand that is an `MC_INT` constant. -/
def MRef.int? (r : MRef) : Option (BitVec 64) := r.con?.bind MConst.int?

/-- An instruction (`struct MIns`).  `volatile` is bit 1 of `extra`
    (`MIR_VOLATILE`), the only bit of that word a pass reads. -/
structure MIns where
  op : MOP
  dtype : MType := .none
  dst : Option ValId := Option.none
  src0 : MRef := .none
  src1 : MRef := .none
  cst : Option MConst := Option.none
  extra : Nat := 0
  deriving DecidableEq, Repr, Inhabited

/-- `in->extra & 2`. -/
def MIns.volatile (i : MIns) : Bool := i.extra.testBit 1

/-- A phi (`struct MPhi`): one `(arg, blk)` pair per incoming edge. -/
structure MPhi where
  dst : ValId
  dtype : MType
  args : List (ValId × BlkId)
  deriving DecidableEq, Repr, Inhabited

/-- A block's terminator: opcode and condition or return value. -/
structure MTerm where
  op : MOP
  src0 : MRef := .none
  deriving DecidableEq, Repr, Inhabited

/-- A block (`struct MBlk`). -/
structure MBlk where
  phi : List MPhi := []
  ins : List MIns := []
  term : MTerm
  s1 : Option BlkId := Option.none
  s2 : Option BlkId := Option.none
  deriving DecidableEq, Repr, Inhabited

/-- A function (`struct MFn`). -/
structure MFn where
  start : BlkId := 0
  blk : List MBlk
  val : List MVal
  rettype : MType := .none
  deriving DecidableEq, Repr, Inhabited

/-- The table entry of `v`. -/
def MFn.getVal (fn : MFn) (v : ValId) : MVal := fn.val.getD v default

/-- `v->kind`. -/
def MFn.kind (fn : MFn) (v : ValId) : MValKind := (fn.getVal v).kind

/-- `v->type`. -/
def MFn.vtype (fn : MFn) (v : ValId) : MType := (fn.getVal v).type

/-- `v->kind == MV_TEMP`. -/
def MFn.isTemp (fn : MFn) (v : ValId) : Bool := fn.kind v = .temp

/-- The order of `fn->link`: block ids from the last block added to the first. -/
def MFn.linkOrder (fn : MFn) : List BlkId := (List.range fn.blk.length).reverse

/-- The successors of a block, one entry per edge (`s1` then `s2`). -/
def MBlk.succs (b : MBlk) : List BlkId := b.s1.toList ++ b.s2.toList

/-- `is_alloca` (`mfold.c`, `mloadfwd.c`): some `MOP_ALLOCA` defines `v`. -/
def isAlloca (fn : MFn) (v : ValId) : Bool :=
  fn.blk.any fun b => b.ins.any fun i => i.op = .alloca && i.dst = some v

/-- Rewrite every block of a function, keeping everything else. -/
def MFn.mapBlk (fn : MFn) (f : MBlk → MBlk) : MFn := { fn with blk := fn.blk.map f }

@[simp] theorem MFn.mapBlk_val (fn : MFn) (f : MBlk → MBlk) : (fn.mapBlk f).val = fn.val := rfl
@[simp] theorem MFn.mapBlk_start (fn : MFn) (f : MBlk → MBlk) :
    (fn.mapBlk f).start = fn.start := rfl
@[simp] theorem MFn.mapBlk_rettype (fn : MFn) (f : MBlk → MBlk) :
    (fn.mapBlk f).rettype = fn.rettype := rfl
@[simp] theorem MFn.mapBlk_getVal (fn : MFn) (f : MBlk → MBlk) (v : ValId) :
    (fn.mapBlk f).getVal v = fn.getVal v := rfl
@[simp] theorem MFn.mapBlk_getElem? (fn : MFn) (f : MBlk → MBlk) (b : BlkId) :
    (fn.mapBlk f).blk[b]? = (fn.blk[b]?).map f := by simp [MFn.mapBlk]

end MeuOS.Mir
