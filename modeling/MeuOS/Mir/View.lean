import MeuOS.Mir.Agree

namespace MeuOS.Mir

open MeuOS.Lib

/-!
# What an instruction sees of its operands

An operation reads an operand modulo its own width, at the operand's type with sign or zero
extension, or as the whole register, depending on the op.  `MIns.view0` and `MIns.view1` are what
is left of an operand when an instruction has read it; two operands with the same view are the
same to it (`effect_of_view`).  A pass that puts another reference in place of an operand keeps an
instruction's meaning when the views agree.
-/

/-- A bare pattern. -/
def Opnd.bare (x : BitVec 64) : Opnd := ⟨x, .none, Option.none⟩

/-- The width at which a comparison reads its operands: the float comparisons turn an `F32` into
    a double and read anything else as one. -/
def MIns.cmpBits (i : MIns) : Nat :=
  if i.op.isFpCmp then (if i.dtype = .f32 then 32 else 64) else i.dtype.bits

/-- What a conversion sees. -/
def MIns.convView (i : MIns) (x : Opnd) : Opnd :=
  match i.op with
  | .sext | .i2f => .bare x.signed
  | .zext | .ui2f => .bare x.unsigned
  | .f2i => if x.ty = .f32 then ⟨low 32 x.bits, .f32, Option.none⟩ else .bare x.bits
  | .fext => .bare (low 32 x.bits)
  | .ftrunc => .bare x.bits
  | _ => .bare (low i.dtype.bits x.bits)

/-- What an instruction sees of `src[0]`. -/
def MIns.view0 (i : MIns) (x : Opnd) : Opnd :=
  match i.op.cls with
  | .pure =>
    if i.op.isArith then .bare (low i.dtype.bits x.bits)
    else if i.op.isCmp then .bare (low i.cmpBits x.bits)
    else i.convView x
  | .store | .arg => .bare (low i.dtype.bits x.bits)
  | .ext | .load | .alloca => .bare x.bits
  | .par | .inert => .bare 0

/-- What an instruction sees of `src[1]`. -/
def MIns.view1 (i : MIns) (y : Opnd) : Opnd :=
  match i.op.cls with
  | .pure =>
    if i.op.isArith then (if i.op = .neg then .bare 0 else .bare (low i.dtype.bits y.bits))
    else if i.op.isCmp then .bare (low i.cmpBits y.bits)
    else .bare 0
  | .ext | .store | .arg => .bare y.bits
  | .load | .alloca | .par | .inert => .bare 0

/-! ### An instruction depends on its views only -/

theorem setWidth_low (w : Nat) (x : BitVec 64) : (low w x).setWidth w = x.setWidth w := by
  apply BitVec.eq_of_getLsbD_eq
  intro i hi
  simp only [BitVec.getLsbD_setWidth, getLsbD_low, hi, decide_true, Bool.true_and]

theorem low_full (x : BitVec 64) : low 64 x = x := by
  simp only [low, BitVec.setWidth_eq]

theorem toDouble_low (fp : FpOps) (t : MType) (x : BitVec 64) :
    fp.toDouble t (low (if t = .f32 then 32 else 64) x) = fp.toDouble t x := by
  unfold FpOps.toDouble
  split
  · rw [low_low (Nat.le_refl _)]
  · rw [low_full]

theorem signed_bare (x : BitVec 64) : (Opnd.bare x).signed = x := by
  simp [Opnd.signed, Opnd.bare, MType.bits]

theorem unsigned_bare (x : BitVec 64) : (Opnd.bare x).unsigned = x := low_full x

theorem arithVal_low (fp : FpOps) (op : MOP) (dt : MType) (x y : BitVec 64) :
    arithVal fp op dt (low dt.bits x) (if op = .neg then 0 else low dt.bits y) =
      arithVal fp op dt x y := by
  unfold arithVal
  split
  · rw [low_low (Nat.le_refl _)]
    split
    · rfl
    · rw [low_low (Nat.le_refl _)]
  · rw [setWidth_low]
    split
    · rename_i hop
      simp only [hop, evalBin]
    · rw [setWidth_low]

theorem cmpVal_low (fp : FpOps) (i : MIns) (x y : BitVec 64) :
    cmpVal fp i.op i.dtype (low i.cmpBits x) (low i.cmpBits y) = cmpVal fp i.op i.dtype x y := by
  unfold cmpVal MIns.cmpBits
  split
  · rw [toDouble_low, toDouble_low]
  · rw [setWidth_low, setWidth_low]

theorem convVal_view (fp : FpOps) (i : MIns) (x : Opnd) :
    low i.dtype.bits (convVal fp i.op i.dtype (i.convView x)) =
      low i.dtype.bits (convVal fp i.op i.dtype x) := by
  unfold convVal
  split <;> rename_i hop
  · simp only [MIns.convView, hop, signed_bare]
  · simp only [MIns.convView, hop, unsigned_bare]
  · simp only [MIns.convView, hop]
    by_cases ht : x.ty = .f32
    · simp only [FpOps.toDouble, ht, if_true, low_low (Nat.le_refl 32)]
    · simp only [FpOps.toDouble, Opnd.bare, ht, if_false, reduceCtorEq]
  · simp only [MIns.convView, hop, signed_bare]
  · simp only [MIns.convView, hop, unsigned_bare]
  · simp only [MIns.convView, hop, Opnd.bare, low_low (Nat.le_refl 32)]
  · simp only [MIns.convView, hop, Opnd.bare]
  · unfold MIns.convView
    split <;> first | contradiction | exact low_low (Nat.le_refl _) _

/-- The bytes a store writes are those of its width. -/
theorem Mem.write_low (m : Mem) (a v : BitVec 64) (t : MType) :
    m.write a (t.bits / 8) (low t.bits v) = m.write a (t.bits / 8) v := by
  funext x
  by_cases h : InWin a (t.bits / 8) x
  · rw [Mem.write_inside _ _ _ _ _ h, Mem.write_inside _ _ _ _ _ h]
    apply BitVec.eq_of_getLsbD_eq
    intro i hi
    have hlt : 8 * (x - a).toNat + i < t.bits := by
      have h8 := t.bits_bytes
      have hwin : (x - a).toNat < t.bits / 8 := h
      omega
    simp only [BitVec.getLsbD_setWidth, BitVec.getLsbD_ushiftRight, getLsbD_low, hlt, decide_true,
      Bool.true_and]
  · rw [Mem.write_outside _ _ _ _ _ h, Mem.write_outside _ _ _ _ _ h]

/-- An instruction does the same on what it sees of its operands. -/
theorem effect_view (H : Host) (fn : MFn) (i : MIns) (x y : Opnd) (w : World) :
    effect H .plain fn i (i.view0 x) (i.view1 y) w = effect H .plain fn i x y w := by
  unfold effect MIns.view0 MIns.view1
  cases hc : i.op.cls
  case pure =>
    simp only [pureVal]
    by_cases ha : i.op.isArith = true
    · simp only [ha, if_true]
      rw [← arithVal_low H.fp i.op i.dtype x.bits y.bits]
      split <;> rfl
    · by_cases hm : i.op.isCmp = true
      · simp only [ha, hm, if_true, Bool.false_eq_true, if_false, Opnd.bare, cmpVal_low]
      · simp only [ha, hm, Bool.false_eq_true, if_false, convVal_view]
  case store =>
    simp only [Opnd.bare, Mem.write_low, low_low (Nat.le_refl _)]
    simp [accessOk, Mode.plain]
  case load => simp [accessOk, Mode.plain, Opnd.bare]
  case arg => simp only [Opnd.bare, low_low (Nat.le_refl _)]
  case alloca => simp only [Opnd.bare]
  all_goals rfl

theorem effect_of_view {i : MIns} {x x' y y' : Opnd} (h0 : i.view0 x' = i.view0 x)
    (h1 : i.view1 y' = i.view1 y) (H : Host) (fn : MFn) (w : World) :
    effect H .plain fn i x' y' w = effect H .plain fn i x y w := by
  rw [← effect_view H fn i x' y', h0, h1, effect_view]

end MeuOS.Mir
