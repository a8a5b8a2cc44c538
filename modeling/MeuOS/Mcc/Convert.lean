import MeuOS.Lib.Extend
import MeuOS.Mcc.Type

namespace MeuOS.Mcc

open MeuOS.Lib BitVec

/-!
# Integer conversions (`irgen/convert.c`)

`convert` emits instructions on registers of 64 bits; those of class `w` compute on the lower 32
bits and leave anything in the upper ones.

* `IrOp.result`, `irInst` — the instructions;
* `funcbits`, `convert` — the source's functions, run as they emit;
* `Holds`, `convValue` — what a register holds for a type, and what conversion prescribes;
* `convert_iff` — where the code converts as prescribed;
* `integer_conversions_iff` — the same together with the common type of two operands.
-/

/-! ### Instructions -/

/-- A register. -/
abbrev Reg : Type := BitVec 64

/-- The classes of instructions. -/
inductive IrClass where
  | w
  | l
  deriving DecidableEq, Repr

/-- The number of bits a class computes on. -/
def IrClass.bits : IrClass → Nat
  | .w => 32
  | .l => 64

/-- The instructions that conversions and bit-fields use. -/
inductive IrOp where
  | shl
  | shr
  | sar
  | and
  | or
  | extub
  | extuh
  | extuw
  | extsb
  | extsh
  | extsw
  | cnew
  | cnel
  deriving DecidableEq, Repr

/-- The result of an instruction on `n` bits. -/
def IrOp.result (n : Nat) (op : IrOp) (a b : Reg) : BitVec n :=
  match op with
  | .shl => a.setWidth n <<< (b.toNat % n)
  | .shr => a.setWidth n >>> (b.toNat % n)
  | .sar => (a.setWidth n).sshiftRight (b.toNat % n)
  | .and => a.setWidth n &&& b.setWidth n
  | .or => a.setWidth n ||| b.setWidth n
  | .extub => (a.setWidth 8).setWidth n
  | .extuh => (a.setWidth 16).setWidth n
  | .extuw => (a.setWidth 32).setWidth n
  | .extsb => (a.setWidth 8).signExtend n
  | .extsh => (a.setWidth 16).signExtend n
  | .extsw => (a.setWidth 32).signExtend n
  | .cnew => if a.setWidth 32 = b.setWidth 32 then 0 else 1
  | .cnel => if a = b then 0 else 1

/-- `funcinst`; `upper` is what an instruction of class `w` leaves in the upper half. -/
def irInst (upper : BitVec 32) (op : IrOp) (cls : IrClass) (a b : Reg) : Reg :=
  match cls with
  | .w => upper ++ op.result 32 a b
  | .l => op.result 64 a b

/-- `mkintconst`. -/
def mkintconst (n : Nat) : Reg := BitVec.ofNat 64 n

/-! ### The source's functions -/

/-- The first value of `bits` in `funcbits`. -/
def afterBits (t : CType) (after : Nat) : Nat :=
  match t with
  | .bitint b => if after = 0 then b.size * 8 - b.width else after
  | _ => after

/-- What `funcbits` adds for the part of a word that a small type does not fill. -/
def padBits (tgt : Target) (t : CType) : Nat :=
  ((t.size tgt + 3) / 4 * 4 - t.size tgt) <<< 3

/-- `class` in `funcbits`. -/
def CType.cls (tgt : Target) (t : CType) : IrClass := if t.size tgt ≤ 4 then .w else .l

/-- `funcbits` of a type, with the bits before and after a bit-field in its unit. -/
def funcbits (upper : BitVec 32) (tgt : Target) (t : CType) (v : Reg) (before after : Nat) : Reg :=
  let bits := afterBits t after
  let (v, bits) :=
    if bits ≠ 0 then
      let bits := bits + padBits tgt t
      (irInst upper .shl (t.cls tgt) v (mkintconst bits), bits)
    else (v, bits)
  let bits := bits + before
  if bits ≠ 0 then
    irInst upper (if t.issigned tgt then .sar else .shr) (t.cls tgt) v (mkintconst bits)
  else v

/-- Whether a type is a `_BitInt`. -/
def CType.isBitInt : CType → Bool
  | .bitint _ => true
  | _ => false

/-- `convert` to `bool`. -/
def convertBool (upper : BitVec 32) (tgt : Target) (src : CType) (l : Reg) : Option Reg :=
  match src.size tgt with
  | 1 =>
    let l := if src.isBitInt then l else irInst upper .extub .w l 0
    some (irInst upper .cnew .w l (mkintconst 0))
  | 2 =>
    let l := if src.isBitInt then l else irInst upper .extuh .w l 0
    some (irInst upper .cnew .w l (mkintconst 0))
  | 4 => some (irInst upper .cnew .w l (mkintconst 0))
  | 8 => some (irInst upper .cnel .w l (mkintconst 0))
  | _ => none

/-- The narrowing part of `convert`. -/
def convertNarrow (upper : BitVec 32) (tgt : Target) (dst src : CType) (l : Reg) : Reg :=
  let width := dst.width tgt
  let c := if src.size tgt = 8 then IrClass.l else .w
  let l := irInst upper .and c l (mkintconst (1 <<< width - 1))
  if dst.issigned tgt then
    let shift := src.size tgt * 8 - width
    let l := irInst upper .shl c l (mkintconst shift)
    irInst upper .sar c l (mkintconst shift)
  else l

/-- The widening part of `convert`. -/
def convertWiden (upper : BitVec 32) (tgt : Target) (dst src : CType) (l : Reg) : Option Reg :=
  let cls := if dst.size tgt = 8 then IrClass.l else .w
  if src.isBitInt ∧ (src.size tgt = 8 ∨ dst.size tgt = 4) then some l
  else
    match src.size tgt with
    | 4 => some (irInst upper (if src.issigned tgt then .extsw else .extuw) cls l 0)
    | 2 => some (irInst upper (if src.issigned tgt then .extsh else .extuh) cls l 0)
    | 1 => some (irInst upper (if src.issigned tgt then .extsb else .extub) cls l 0)
    | _ => none

/-- `convert` between integer types; `none` is an internal error. -/
def convert (upper : BitVec 32) (tgt : Target) (dst src : CType) (l : Reg) : Option Reg :=
  if src = dst then some l
  else if dst = .basic .bool then convertBool upper tgt src l
  else if dst.width tgt ≤ src.width tgt then
    if dst.isBitInt then some (funcbits upper tgt dst l 0 0)
    else if dst.width tgt = src.width tgt then some l
    else some (convertNarrow upper tgt dst src l)
  else convertWiden upper tgt dst src l

/-! ### What conversion prescribes -/

/-- The number of bits of a type's register class. -/
def CType.regBits (tgt : Target) (t : CType) : Nat := if t.size tgt = 8 then 64 else 32

/-- A register holds a value: its bits are those of the value, extended with the value's sign. -/
def Holds (tgt : Target) (t : CType) (r : Reg) (v : Int) : Prop :=
  r.setWidth (t.regBits tgt) = BitVec.ofInt (t.regBits tgt) v

/-- The value that a conversion to a type yields. -/
def convValue (tgt : Target) (t : CType) (v : Int) : Int :=
  if t.underlying = .basic .bool then if v = 0 then 0 else 1
  else if t.issigned tgt then v.bmod (2 ^ t.width tgt)
  else v % 2 ^ t.width tgt

/-- A value of a type. -/
def InRange (tgt : Target) (t : CType) (v : Int) : Prop := convValue tgt t v = v

/-- A conversion passes the register on or widens it. -/
def ConvertKeeps (tgt : Target) (dst src : CType) : Prop :=
  src.width tgt < dst.width tgt ∨ (dst.isBitInt ∧ dst.width tgt = dst.size tgt * 8) ∨
    (dst.isBitInt = false ∧ dst.width tgt = src.width tgt)

instance (tgt : Target) (dst src : CType) : Decidable (ConvertKeeps tgt dst src) :=
  inferInstanceAs (Decidable (_ ∨ (_ ∧ _) ∨ (_ ∧ _)))

/-- The condition for a conversion: where the register is kept, the value and its conversion must
agree in the bits of the destination's class; where it is cut down, an enumeration with base
`bool` must get 0 or 1, and a signed byte made of two bytes must have its top bit clear. -/
def ConvertAgrees (tgt : Target) (dst src : CType) (v : Int) : Prop :=
  src = dst ∨ dst = .basic .bool ∨
    if ConvertKeeps tgt dst src then
      convValue tgt dst v % 2 ^ dst.regBits tgt = v % 2 ^ dst.regBits tgt
    else
      dst.isBitInt ∨
        (dst.underlying = .basic .bool → v % 2 ^ 8 = convValue tgt dst v) ∧
          (dst.issigned tgt ∧ src.size tgt = 2 → v % 2 ^ 8 < 2 ^ 7)

/-! ### Sizes -/

/-- A type has the least size that holds its width. -/
theorem CType.size_cases (tgt : Target) (t : CType) :
    t.size tgt = 1 ∧ t.width tgt ≤ 8 ∨ t.size tgt = 2 ∧ 8 < t.width tgt ∧ t.width tgt ≤ 16 ∨
      t.size tgt = 4 ∧ 16 < t.width tgt ∧ t.width tgt ≤ 32 ∨
      t.size tgt = 8 ∧ 32 < t.width tgt ∧ t.width tgt ≤ 64 := by
  have hbasic : ∀ b : Basic, b.size tgt = 1 ∨ b.size tgt = 2 ∨ b.size tgt = 4 ∨ b.size tgt = 8 := by
    intro b
    cases b with
    | long s => cases hm : tgt.model <;> simp [Basic.size, hm]
    | _ => simp [Basic.size]
  cases t with
  | bitint b =>
    have hvalid := b.valid.2
    have hsize := b.size_cases
    simp only [CType.size, CType.width]
    omega
  | basic b | enum _ b =>
    have hsize := hbasic b
    simp only [CType.size, CType.width, Basic.width]
    omega

variable {t : CType} {n : Nat} {tgt : Target} {r : Reg} {v : Int}

theorem CType.width_eq (tgt : Target) (h : t.isBitInt = false) :
    t.width tgt = t.size tgt * 8 := by
  cases t with
  | bitint b => cases h
  | basic _ | enum _ _ => rfl

theorem CType.width_pos (tgt : Target) (t : CType) : 0 < t.width tgt := by
  cases t with
  | bitint b =>
    have := b.valid.1
    simp only [CType.width]
    omega
  | basic b | enum _ b =>
    have := CType.size_cases tgt (.basic b)
    simp only [CType.width, CType.size, Basic.width] at *
    omega

/-! ### Registers -/

theorem irInst_low (upper : BitVec 32) (op : IrOp) (cls : IrClass) (a b : Reg) :
    (irInst upper op cls a b).setWidth cls.bits = op.result cls.bits a b := by
  cases cls
  · exact setWidth_append_eq_right
  · exact setWidth_eq _

theorem mkintconst_toNat (h : n < 2 ^ 64) : (mkintconst n).toNat = n := by
  rw [mkintconst, toNat_ofNat, Nat.mod_eq_of_lt h]

theorem Holds.low (h : Holds tgt t r v)
    (hn : n ≤ t.regBits tgt) : r.setWidth n = BitVec.ofInt n v := by
  have hcut : (r.setWidth (t.regBits tgt)).setWidth n = r.setWidth n :=
    setWidth_setWidth_of_le _ hn
  rw [← hcut, h, setWidth_ofInt hn]

theorem holds_iff_of_low {v' : Int}
    (h : r.setWidth (t.regBits tgt) = BitVec.ofInt (t.regBits tgt) v) :
    Holds tgt t r v' ↔ v' % 2 ^ t.regBits tgt = v % 2 ^ t.regBits tgt := by
  unfold Holds
  rw [h, ofInt_eq_iff]
  exact eq_comm

/-- `bool`, and an enumeration over it, are unsigned bytes. -/
theorem CType.bool_shape (tgt : Target) (h : t.underlying = .basic .bool) :
    t.issigned tgt = false ∧ t.width tgt = 8 ∧ t.isBitInt = false := by
  cases t with
  | bitint b => exact absurd h (by simp [underlying])
  | basic b | enum _ b =>
    obtain rfl : b = .bool := by simpa [underlying] using h
    exact ⟨rfl, rfl, rfl⟩

/-- The bounds of a value of a type. -/
theorem InRange.bounds (h : InRange tgt t v) :
    if t.issigned tgt then -2 ^ (t.width tgt - 1) ≤ v ∧ v < 2 ^ (t.width tgt - 1)
    else 0 ≤ v ∧ v < 2 ^ t.width tgt := by
  have hpos := two_pow_pos_int (t.width tgt)
  unfold InRange convValue at h
  split at h
  · rename_i hbool
    have hsigned := (CType.bool_shape tgt hbool).1
    have hone : (1 : Int) < 2 ^ t.width tgt :=
      one_lt_pow₀ (by decide) (CType.width_pos tgt t).ne'
    rw [if_neg (by simp [hsigned])]
    split at h <;> omega
  · split at h
    · rename_i hs
      obtain ⟨w, hw⟩ := Nat.exists_eq_add_of_lt (CType.width_pos tgt t)
      rw [Nat.zero_add] at hw
      rw [if_pos hs, hw, Nat.add_sub_cancel]
      rw [hw] at h
      have hlo := @Int.le_bmod v (2 ^ (w + 1)) (Nat.two_pow_pos _)
      have hhi := @Int.bmod_lt v (2 ^ (w + 1)) (Nat.two_pow_pos _)
      rw [h] at hlo hhi
      push_cast at hlo hhi
      rw [pow_succ] at hlo hhi
      omega
    · rename_i hs
      rw [if_neg hs, ← h]
      exact ⟨Int.emod_nonneg _ hpos.ne', Int.emod_lt_of_pos _ hpos⟩

/-- A value of a type is less than a power of two, apart from its sign. -/
theorem InRange.abs_lt (h : InRange tgt t v) (hn : t.width tgt ≤ n) : -2 ^ n < v ∧ v < 2 ^ n := by
  have hb := h.bounds
  have hle : (2 : Int) ^ t.width tgt ≤ 2 ^ n := pow_le_pow_right₀ (by decide) hn
  have hhalf : (2 : Int) ^ (t.width tgt - 1) < 2 ^ t.width tgt :=
    pow_lt_pow_right₀ (by decide) (by have := CType.width_pos tgt t; omega)
  have hpos := two_pow_pos_int n
  split at hb <;> omega

theorem ofInt_eq_zero_iff (h : -2 ^ n < v ∧ v < 2 ^ n) :
    BitVec.ofInt n v = 0 ↔ v = 0 := by
  rw [show (0 : BitVec n) = BitVec.ofInt n 0 by simp, ofInt_eq_iff, Int.zero_emod]
  constructor
  · intro hz
    exact Int.eq_zero_of_abs_lt_dvd (Int.dvd_of_emod_eq_zero hz) (abs_lt.mpr h)
  · rintro rfl
    exact Int.zero_emod _

/-! ### Shifts and extensions -/

theorem shifted_signed {w : Nat} (hw : 0 < w) (h : w ≤ n) (v : Int) :
    (BitVec.ofInt n v <<< (n - w)).sshiftRight (n - w) = BitVec.ofInt n (v.bmod (2 ^ w)) := by
  have hfield := shl_sar hw (show 0 + w ≤ n by omega) (BitVec.ofInt n v)
  rw [Nat.sub_zero, ← setWidth_eq_extractLsb' h, setWidth_ofInt h, signExtend_ofInt] at hfield
  exact hfield

/-- A mask of ones keeps the low bits. -/
theorem masked {w : Nat} (h : w ≤ n) (v : Int) (hn : n ≤ 64) :
    BitVec.ofInt n v &&& (mkintconst (1 <<< w - 1)).setWidth n = BitVec.ofInt n (v % 2 ^ w) := by
  rw [← zeroExtend_ofInt, ← setWidth_ofInt h]
  apply eq_of_getLsbD_eq
  intro i hi
  have hmask : (1 <<< w - 1 : Nat) = 2 ^ w - 1 := by rw [Nat.one_shiftLeft]
  simp only [mkintconst, getLsbD_and, getLsbD_setWidth, getLsbD_ofNat, hmask,
    Nat.testBit_two_pow_sub_one, hi, decide_true, Bool.true_and, show i < 64 by omega]
  by_cases hw : i < w <;> simp [hw]

/-- A value of a type, extended from its size as its sign asks, is itself. -/
theorem extended (hv : InRange tgt t v) {m : Nat}
    (hm : t.width tgt ≤ m) (hr : r.setWidth m = BitVec.ofInt m v) (n : Nat) :
    (if t.issigned tgt then (r.setWidth m).signExtend n else (r.setWidth m).setWidth n)
      = BitVec.ofInt n v := by
  have hb := hv.bounds
  rw [hr]
  split at hb
  · rename_i hs
    obtain ⟨w, hw⟩ := Nat.exists_eq_add_of_lt (show 0 < m by have := t.width_pos tgt; omega)
    have hle : (2 : Int) ^ (t.width tgt - 1) ≤ 2 ^ w := pow_le_pow_right₀ (by decide) (by omega)
    rw [if_pos hs, signExtend_ofInt, Int.bmod_eq_of_le]
    · rw [hw, Nat.zero_add]
      push_cast
      rw [pow_succ]
      omega
    · rw [hw, Nat.zero_add]
      push_cast
      rw [pow_succ]
      omega
  · rename_i hs
    have hle : (2 : Int) ^ t.width tgt ≤ 2 ^ m := pow_le_pow_right₀ (by decide) hm
    rw [if_neg hs, zeroExtend_ofInt, Int.emod_eq_of_lt hb.1 (by omega)]

/-! ### The paths of `convert` -/

section paths

variable {upper : BitVec 32} {tgt : Target} {dst src : CType} {l : Reg} {v : Int}

/-- An instruction that yields 0 exactly for the value 0 converts to `bool`. -/
theorem compare_holds {op : IrOp} {a : Reg} {P : Prop} [Decidable P]
    (hop : op.result 32 a (mkintconst 0) = if P then 0 else 1) (hP : P ↔ v = 0) :
    Holds tgt (.basic .bool) (irInst upper op .w a (mkintconst 0))
      (convValue tgt (.basic .bool) v) := by
  have hconv : convValue tgt (.basic .bool) v = if v = 0 then 0 else 1 := rfl
  have hlow := irInst_low upper op .w a (mkintconst 0)
  show BitVec.setWidth 32 _ = BitVec.ofInt 32 _
  rw [IrClass.bits, hop] at hlow
  rw [hlow, hconv]
  by_cases hz : v = 0
  · rw [if_pos (hP.mpr hz), if_pos hz]
    rfl
  · rw [if_neg (mt hP.mp hz), if_neg hz]
    rfl

/-- The test of a byte or of two bytes, which are first extended with zeros. -/
theorem zero_iff_extended {m : Nat} {op : IrOp} (hm : m ≤ 32)
    (hop : ∀ a b, op.result 32 a b = (a.setWidth m).setWidth 32)
    (hl : l.setWidth m = BitVec.ofInt m v) (hv : -2 ^ m < v ∧ v < 2 ^ m) :
    (irInst upper op .w l 0).setWidth 32 = (mkintconst 0).setWidth 32 ↔ v = 0 := by
  have hlow := irInst_low upper op .w l 0
  have hpos := two_pow_pos_int m
  have hle : (2 : Int) ^ m ≤ 2 ^ 32 := pow_le_pow_right₀ (by decide) hm
  have hmod := Int.emod_lt_of_pos v hpos
  have hmod0 := Int.emod_nonneg v hpos.ne'
  rw [IrClass.bits, hop, hl, zeroExtend_ofInt] at hlow
  rw [hlow, show (mkintconst 0).setWidth 32 = 0 by rfl,
    ofInt_eq_zero_iff ⟨by omega, by omega⟩]
  constructor
  · intro hz
    exact Int.eq_zero_of_abs_lt_dvd (Int.dvd_of_emod_eq_zero hz) (abs_lt.mpr hv)
  · rintro rfl
    exact Int.zero_emod _

/-- Conversion to `bool`. -/
theorem convertBool_holds (h : Holds tgt src l v) (hv : InRange tgt src v) :
    ∃ r, convertBool upper tgt src l = some r ∧
      Holds tgt (.basic .bool) r (convValue tgt (.basic .bool) v) := by
  have hword : ∀ {a : Reg}, (a.setWidth 32 = (mkintconst 0).setWidth 32 ↔ v = 0) →
      Holds tgt (.basic .bool) (irInst upper .cnew .w a (mkintconst 0))
        (convValue tgt (.basic .bool) v) := fun hzero => compare_holds rfl hzero
  -- A register of class `w` holds the value itself where its upper bits are known.
  have hself : src.size tgt ≤ 4 →
      (l.setWidth 32 = (mkintconst 0).setWidth 32 ↔ v = 0) := by
    intro hsize
    have hcases := src.size_cases tgt
    have hreg : 32 ≤ src.regBits tgt := by
      unfold CType.regBits
      split <;> omega
    rw [h.low hreg, show (mkintconst 0).setWidth 32 = 0 by rfl]
    exact ofInt_eq_zero_iff (hv.abs_lt (by omega))
  have hreg : 16 ≤ src.regBits tgt := by
    unfold CType.regBits
    split <;> omega
  unfold convertBool
  rcases src.size_cases tgt with ⟨hsize, hw⟩ | ⟨hsize, -, hw⟩ | ⟨hsize, -, hw⟩ | ⟨hsize, -, hw⟩
  · rw [hsize]
    dsimp only
    refine ⟨_, rfl, hword ?_⟩
    split
    · exact hself (by omega)
    · exact zero_iff_extended (by decide) (fun _ _ => rfl) (h.low (by omega)) (hv.abs_lt hw)
  · rw [hsize]
    dsimp only
    refine ⟨_, rfl, hword ?_⟩
    split
    · exact hself (by omega)
    · exact zero_iff_extended (by decide) (fun _ _ => rfl) (h.low (by omega)) (hv.abs_lt hw)
  · rw [hsize]
    exact ⟨_, rfl, hword (hself (by omega))⟩
  · rw [hsize]
    refine ⟨_, rfl, compare_holds (P := l = mkintconst 0) rfl ?_⟩
    have hl : l.setWidth 64 = BitVec.ofInt 64 v := h.low (by simp [CType.regBits, hsize])
    rw [setWidth_eq] at hl
    rw [hl, show mkintconst 0 = 0 by rfl]
    exact ofInt_eq_zero_iff (hv.abs_lt hw)

/-- The widening part leaves the value in the register. -/
theorem convertWiden_low (h : Holds tgt src l v) (hv : InRange tgt src v)
    (hwidth : src.width tgt < dst.width tgt) :
    ∃ r, convertWiden upper tgt dst src l = some r ∧
      r.setWidth (dst.regBits tgt) = BitVec.ofInt (dst.regBits tgt) v := by
  have hs := src.size_cases tgt
  have hd := dst.size_cases tgt
  unfold convertWiden
  dsimp only
  by_cases hpass : src.isBitInt ∧ (src.size tgt = 8 ∨ dst.size tgt = 4)
  · rw [if_pos hpass]
    refine ⟨l, rfl, h.low ?_⟩
    unfold CType.regBits
    split <;> split <;> omega
  · rw [if_neg hpass]
    -- The instruction extends the low bits, as many as the source's size has.
    have hext : ∀ {m : Nat} {s u : IrOp}, src.width tgt ≤ m → m ≤ src.regBits tgt →
        (∀ n a b, s.result n a b = (a.setWidth m).signExtend n) →
        (∀ n a b, u.result n a b = (a.setWidth m).setWidth n) →
        (irInst upper (if src.issigned tgt then s else u)
          (if dst.size tgt = 8 then IrClass.l else .w) l 0).setWidth (dst.regBits tgt)
          = BitVec.ofInt (dst.regBits tgt) v := by
      intro m s u hm hreg hsop huop
      have hbits : dst.regBits tgt = (if dst.size tgt = 8 then IrClass.l else .w).bits := by
        unfold CType.regBits
        split <;> rfl
      rw [hbits, irInst_low, ← extended hv hm (h.low hreg)]
      by_cases hsigned : src.issigned tgt = true
      · rw [if_pos hsigned, if_pos hsigned, hsop]
      · rw [if_neg hsigned, if_neg hsigned, huop]
    have hreg : 32 ≤ src.regBits tgt := by
      unfold CType.regBits
      split <;> omega
    rcases hs with ⟨hsize, hw⟩ | ⟨hsize, -, hw⟩ | ⟨hsize, -, hw⟩ | ⟨hsize, hlo, hw⟩
    · rw [hsize]
      exact ⟨_, rfl, hext hw (by omega) (fun _ _ _ => rfl) (fun _ _ _ => rfl)⟩
    · rw [hsize]
      exact ⟨_, rfl, hext hw (by omega) (fun _ _ _ => rfl) (fun _ _ _ => rfl)⟩
    · rw [hsize]
      exact ⟨_, rfl, hext hw (by omega) (fun _ _ _ => rfl) (fun _ _ _ => rfl)⟩
    · -- A type of eight bytes that is no `_BitInt` is the widest there is.
      exfalso
      have hnot : src.isBitInt = false := by
        by_contra hbit
        exact hpass ⟨by simpa using hbit, Or.inl hsize⟩
      have heq := CType.width_eq tgt hnot
      omega

end paths

/-! ### `funcbits` -/

theorem CType.regBits_eq (tgt : Target) (t : CType) : t.regBits tgt = (t.cls tgt).bits := by
  have := t.size_cases tgt
  unfold regBits cls
  split <;> split <;> first | rfl | omega

theorem size_add_padBits (tgt : Target) (t : CType) :
    t.size tgt * 8 + padBits tgt t = (t.cls tgt).bits := by
  unfold padBits CType.cls
  rcases t.size_cases tgt with ⟨h, -⟩ | ⟨h, -⟩ | ⟨h, -⟩ | ⟨h, -⟩ <;> rw [h] <;> rfl

theorem IrClass.bits_le (cls : IrClass) : cls.bits ≤ 64 := by
  cases cls <;> decide

theorem shiftCount {cls : IrClass} {k : Nat} (h : k < cls.bits) :
    (mkintconst k).toNat % cls.bits = k := by
  have hle := cls.bits_le
  rw [mkintconst_toNat (lt_of_lt_of_le h (hle.trans (by decide))), Nat.mod_eq_of_lt h]

/-- With bits behind the field, `funcbits` takes the field out of the unit and extends it. -/
theorem funcbits_field (upper : BitVec 32) (tgt : Target) {t : CType} (v : Reg)
    {before after w : Nat} (hafter : afterBits t after ≠ 0) (hw : 0 < w)
    (hfield : before + w + afterBits t after = t.size tgt * 8) :
    (funcbits upper tgt t v before after).setWidth (t.cls tgt).bits
      = if t.issigned tgt then
          ((v.setWidth (t.cls tgt).bits).extractLsb' before w).signExtend (t.cls tgt).bits
        else ((v.setWidth (t.cls tgt).bits).extractLsb' before w).setWidth (t.cls tgt).bits := by
  have hreg := size_add_padBits tgt t
  have hleft : afterBits t after + padBits tgt t = (t.cls tgt).bits - before - w := by omega
  have hright : (t.cls tgt).bits - before - w + before = (t.cls tgt).bits - w := by omega
  unfold funcbits
  simp only [if_pos hafter, hleft, hright]
  rw [if_pos (by omega), irInst_low]
  have hshift := irInst_low upper .shl (t.cls tgt) v
    (mkintconst ((t.cls tgt).bits - before - w))
  simp only [IrOp.result, shiftCount (show (t.cls tgt).bits - before - w < (t.cls tgt).bits by
    omega)] at hshift
  by_cases hs : t.issigned tgt = true
  · rw [if_pos hs, if_pos hs]
    simp only [IrOp.result, shiftCount (show (t.cls tgt).bits - w < (t.cls tgt).bits by omega),
      hshift]
    exact shl_sar hw (by omega) _
  · rw [if_neg hs, if_neg hs]
    simp only [IrOp.result, shiftCount (show (t.cls tgt).bits - w < (t.cls tgt).bits by omega),
      hshift]
    exact shl_shr (by omega) _

theorem funcbits_none (upper : BitVec 32) (tgt : Target) (v : Reg) {after : Nat}
    (hafter : afterBits t after = 0) : funcbits upper tgt t v 0 after = v := by
  simp [funcbits, hafter]

section paths

variable {upper : BitVec 32} {tgt : Target} {dst src : CType} {l : Reg} {v : Int}

theorem convValue_eq (h : dst.underlying ≠ .basic .bool) :
    convValue tgt dst v
      = if dst.issigned tgt then v.bmod (2 ^ dst.width tgt) else v % 2 ^ dst.width tgt := by
  unfold convValue
  rw [if_neg h]

/-- The shifts of `funcbits` for a `_BitInt` that does not fill its size. -/
theorem funcbits_holds (hbit : dst.isBitInt) (hwidth : dst.width tgt ≠ dst.size tgt * 8)
    (hl : l.setWidth (dst.regBits tgt) = BitVec.ofInt (dst.regBits tgt) v) :
    Holds tgt dst (funcbits upper tgt dst l 0 0) (convValue tgt dst v) := by
  match dst, hbit with
  | .bitint b, _ =>
    have hsize := CType.size_cases tgt (.bitint b)
    have hpos := CType.width_pos tgt (.bitint b)
    have hafter : afterBits (.bitint b) 0 = b.size * 8 - b.width := rfl
    have hreg := size_add_padBits tgt (.bitint b)
    simp only [CType.size, CType.width] at hsize hpos hwidth hreg
    have hfield := @funcbits_field upper tgt (.bitint b) l 0 0 b.width (by omega) hpos
      (by simp only [CType.size]; omega)
    rw [← CType.regBits_eq] at hfield hreg
    have hle : b.width ≤ CType.regBits tgt (.bitint b) := by omega
    unfold Holds
    rw [hfield, hl, ← setWidth_eq_extractLsb' hle, setWidth_ofInt hle, signExtend_ofInt,
      zeroExtend_ofInt, convValue_eq (by simp [CType.underlying])]
    split <;> rfl

/-- The number that the narrowing part leaves in the register. -/
def narrowed (tgt : Target) (dst src : CType) (v : Int) : Int :=
  if dst.issigned tgt then
    if src.size tgt = 2 then v % 2 ^ 8 else v.bmod (2 ^ dst.width tgt)
  else v % 2 ^ dst.width tgt

/-- The narrowing part cuts the value down, without its sign where the source has two bytes. -/
theorem convertNarrow_low (h : Holds tgt src l v) (hdst : dst.isBitInt = false)
    (hwidth : dst.width tgt < src.width tgt) :
    (convertNarrow upper tgt dst src l).setWidth (dst.regBits tgt)
      = BitVec.ofInt (dst.regBits tgt) (narrowed tgt dst src v) := by
  have hs := src.size_cases tgt
  have hd := dst.size_cases tgt
  have heq := CType.width_eq tgt hdst
  unfold convertNarrow
  dsimp only
  obtain ⟨c, hc⟩ : ∃ c, (if src.size tgt = 8 then IrClass.l else .w) = c := ⟨_, rfl⟩
  have hbits : c.bits = src.regBits tgt := by
    subst hc
    unfold CType.regBits
    split <;> rfl
  have hdbits : dst.regBits tgt ≤ c.bits := by
    rw [hbits]
    unfold CType.regBits
    split <;> split <;> omega
  have hcbits : c.bits = if src.size tgt = 8 then 64 else 32 := by
    rw [hbits]
    rfl
  rw [hc]
  have hand := irInst_low upper .and c l (mkintconst (1 <<< dst.width tgt - 1))
  simp only [IrOp.result] at hand
  rw [h.low hbits.le, masked (by split at hcbits <;> omega) v c.bits_le] at hand
  -- It is enough to find the number in the class that the instructions use.
  have hlow : ∀ {r : Reg} {u : Int}, r.setWidth c.bits = BitVec.ofInt c.bits u →
      r.setWidth (dst.regBits tgt) = BitVec.ofInt (dst.regBits tgt) u := by
    intro r u hr
    rw [← setWidth_ofInt hdbits, ← hr, setWidth_setWidth_of_le _ hdbits]
  unfold narrowed
  by_cases hsigned : dst.issigned tgt = true
  · rw [if_pos hsigned, if_pos hsigned]
    apply hlow
    have hshift : src.size tgt * 8 - dst.width tgt < c.bits := by split at hcbits <;> omega
    have hshl := irInst_low upper .shl c (irInst upper .and c l
      (mkintconst (1 <<< dst.width tgt - 1))) (mkintconst (src.size tgt * 8 - dst.width tgt))
    simp only [IrOp.result, shiftCount hshift, hand] at hshl
    rw [irInst_low]
    simp only [IrOp.result, shiftCount hshift, hshl]
    by_cases htwo : src.size tgt = 2
    · -- Shifted by one byte in a word of four, the byte keeps its zeros.
      have hsub : src.size tgt * 8 - dst.width tgt = c.bits - 24 := by
        split at hcbits <;> omega
      have hwidth8 : dst.width tgt = 8 := by omega
      have h8 := two_pow_pos_int 8
      have hlt := Int.emod_lt_of_pos v h8
      have hge := Int.emod_nonneg v h8.ne'
      rw [if_pos htwo, hsub, shifted_signed (by decide) (by split at hcbits <;> omega), hwidth8,
        Int.bmod_eq_of_le (by norm_num; omega) (by norm_num; omega)]
    · have hsub : src.size tgt * 8 - dst.width tgt = c.bits - dst.width tgt := by
        split at hcbits <;> omega
      rw [if_neg htwo, hsub,
        shifted_signed (CType.width_pos tgt dst) (by split at hcbits <;> omega)]
      congr 1
      have hcast : (2 : Int) ^ dst.width tgt = ((2 ^ dst.width tgt : Nat) : Int) := by push_cast; rfl
      rw [hcast, Int.emod_bmod]
  · rw [if_neg hsigned, if_neg hsigned]
    exact hlow hand

end paths

/-! ### All conversions -/

/-- `convert` yields the prescribed value, in the register class of the destination. -/
def ConvertCorrect (upper : BitVec 32) (tgt : Target) (dst src : CType) (l : Reg) (v : Int) :
    Prop :=
  ∃ r, convert upper tgt dst src l = some r ∧ Holds tgt dst r (convValue tgt dst v)

section paths

variable {upper : BitVec 32} {tgt : Target} {dst src : CType} {l : Reg} {v : Int}

/-- A register with a number in it holds the converted value where the two agree. -/
theorem exists_holds_iff {u : Int}
    (h : r.setWidth (dst.regBits tgt) = BitVec.ofInt (dst.regBits tgt) u) :
    (∃ r', some r = some r' ∧ Holds tgt dst r' (convValue tgt dst v)) ↔
      convValue tgt dst v % 2 ^ dst.regBits tgt = u % 2 ^ dst.regBits tgt := by
  rw [← holds_iff_of_low h]
  constructor
  · rintro ⟨r', hr, hr'⟩
    exact Option.some.inj hr ▸ hr'
  · exact fun hr => ⟨r, rfl, hr⟩

/-- The number that narrowing leaves is the converted value under the condition. -/
theorem narrowed_iff (hdst : dst.isBitInt = false) (hwidth : dst.width tgt < src.width tgt) :
    convValue tgt dst v % 2 ^ dst.regBits tgt = narrowed tgt dst src v % 2 ^ dst.regBits tgt ↔
      (dst.underlying = .basic .bool → v % 2 ^ 8 = convValue tgt dst v) ∧
        (dst.issigned tgt ∧ src.size tgt = 2 → v % 2 ^ 8 < 2 ^ 7) := by
  have hd := dst.size_cases tgt
  have hs := src.size_cases tgt
  have heq := CType.width_eq tgt hdst
  have h8 := Int.emod_nonneg v (two_pow_pos_int 8).ne'
  have h8' := Int.emod_lt_of_pos v (two_pow_pos_int 8)
  by_cases hbool : dst.underlying = .basic .bool
  · obtain ⟨hsigned, hw, -⟩ := CType.bool_shape tgt hbool
    have hreg : dst.regBits tgt = 32 := by
      unfold CType.regBits
      rw [if_neg (by omega)]
    have hconv : convValue tgt dst v = if v = 0 then 0 else 1 := by
      unfold convValue
      rw [if_pos hbool]
    have hrange : 0 ≤ convValue tgt dst v ∧ convValue tgt dst v ≤ 1 := by
      rw [hconv]
      split <;> decide
    unfold narrowed
    rw [hsigned, if_neg (by decide), hw, hreg]
    constructor
    · intro h
      refine ⟨fun _ => ?_, fun hf => absurd hf.1 (by decide)⟩
      rw [Int.emod_eq_of_lt (by omega) (by omega), Int.emod_eq_of_lt h8 (by omega)] at h
      exact h.symm
    · rintro ⟨h, -⟩
      rw [h hbool]
  · rw [convValue_eq hbool]
    unfold narrowed
    by_cases hsigned : dst.issigned tgt = true
    · rw [if_pos hsigned, if_pos hsigned]
      by_cases htwo : src.size tgt = 2
      · have hw : dst.width tgt = 8 := by omega
        have hreg : dst.regBits tgt = 32 := by
          unfold CType.regBits
          rw [if_neg (by omega)]
        rw [if_pos htwo, hw, hreg]
        have hbmod := Int.bmod_def v (2 ^ 8)
        norm_num at hbmod h8' ⊢
        simp only [hbool, hsigned, htwo, false_imp_iff, true_and, true_imp_iff]
        split at hbmod <;> omega
      · rw [if_neg htwo]
        exact ⟨fun _ => ⟨fun h => absurd h hbool, fun h => absurd h.2 htwo⟩, fun _ => rfl⟩
    · rw [if_neg hsigned, if_neg hsigned]
      exact ⟨fun _ => ⟨fun h => absurd h hbool, fun h => absurd h.1 hsigned⟩, fun _ => rfl⟩

/-- `convert` is right exactly under the condition. -/
theorem convert_iff (h : Holds tgt src l v) (hv : InRange tgt src v) :
    ConvertCorrect upper tgt dst src l v ↔ ConvertAgrees tgt dst src v := by
  unfold ConvertCorrect convert ConvertAgrees
  by_cases hsame : src = dst
  · subst hsame
    rw [if_pos rfl]
    exact ⟨fun _ => Or.inl rfl, fun _ => ⟨l, rfl, by rwa [show convValue tgt src v = v from hv]⟩⟩
  rw [if_neg hsame]
  by_cases hbool : dst = .basic .bool
  · subst hbool
    rw [if_pos rfl]
    exact ⟨fun _ => Or.inr (Or.inl rfl), fun _ => convertBool_holds h hv⟩
  rw [if_neg hbool]
  simp only [hsame, hbool, false_or]
  by_cases hle : dst.width tgt ≤ src.width tgt
  swap
  · -- A wider type: the value is extended.
    obtain ⟨r, hr, hlow⟩ := @convertWiden_low upper tgt dst src l v h hv
      (Nat.lt_of_not_le hle)
    have hkeeps : ConvertKeeps tgt dst src := Or.inl (Nat.lt_of_not_le hle)
    rw [if_neg hle, hr, if_pos hkeeps]
    exact exists_holds_iff hlow
  have hreg : dst.regBits tgt ≤ src.regBits tgt := by
    have hd := dst.size_cases tgt
    have hs := src.size_cases tgt
    unfold CType.regBits
    split <;> split <;> omega
  rw [if_pos hle]
  by_cases hbit : dst.isBitInt = true
  · rw [if_pos hbit]
    by_cases hfull : dst.width tgt = dst.size tgt * 8
    · have hnone : afterBits dst 0 = 0 := by
        match dst, hbit with
        | .bitint b, _ =>
          simp only [CType.width, CType.size] at hfull
          simp only [afterBits, if_true]
          omega
      have hkeeps : ConvertKeeps tgt dst src := Or.inr (Or.inl ⟨hbit, hfull⟩)
      rw [if_pos hkeeps, funcbits_none upper tgt l hnone]
      exact exists_holds_iff (h.low hreg)
    · have hcuts : ¬ ConvertKeeps tgt dst src := by
        rintro (h | ⟨-, h⟩ | ⟨h, -⟩)
        · exact Nat.not_lt.mpr hle h
        · exact hfull h
        · simp [hbit] at h
      rw [if_neg hcuts]
      exact ⟨fun _ => Or.inl hbit, fun _ => ⟨_, rfl, funcbits_holds hbit hfull (h.low hreg)⟩⟩
  · have hnot : dst.isBitInt = false := by simpa using hbit
    rw [if_neg hbit]
    by_cases heq : dst.width tgt = src.width tgt
    · have hkeeps : ConvertKeeps tgt dst src := Or.inr (Or.inr ⟨hnot, heq⟩)
      rw [if_pos heq, if_pos hkeeps]
      exact exists_holds_iff (h.low hreg)
    · have hlt : dst.width tgt < src.width tgt := Nat.lt_of_le_of_ne hle heq
      have hcuts : ¬ ConvertKeeps tgt dst src := by
        rintro (h | ⟨h, -⟩ | ⟨-, h⟩)
        · exact Nat.not_lt.mpr hle h
        · exact hbit h
        · exact heq h
      rw [if_neg heq, if_neg hcuts, exists_holds_iff (convertNarrow_low h hnot hlt),
        narrowed_iff hnot hlt]
      exact ⟨Or.inr, fun hor => hor.resolve_left hbit⟩

end paths

/-! ### Common types and conversions -/

/-- Two operands, in either order, get the common type that is prescribed exactly under its
condition, and a value of any type is converted as prescribed exactly under the other one. -/
theorem integer_conversions_iff {upper : BitVec 32} {tgt : Target} (left right : Operand tgt)
    {dst src : CType} {l : Reg} {v : Int} (h : Holds tgt src l v) (hv : InRange tgt src v) :
    (CommonCorrect left right ↔ CommonAgrees left right) ∧
      (CommonCorrect right left ↔ CommonAgrees right left) ∧
      prescribed left right = prescribed right left ∧
      (ConvertCorrect upper tgt dst src l v ↔ ConvertAgrees tgt dst src v) :=
  ⟨typecommonreal_iff left right, typecommonreal_iff right left, prescribed_comm left right,
    convert_iff h hv⟩

/-- A target of the first model. -/
def lp64 : Target := { model := .lp64, signedchar := true }

/-- An operand of a basic type that is no bit-field. -/
def plain (b : Basic) : Operand lp64 := { type := .basic b, bits := none, valid := by simp }

theorem integer_conversions_iff_long : (CommonCorrect (plain (.long false)) (plain (.llong true)) ↔
    CommonAgrees (plain (.long false)) (plain (.llong true))) ∧
      (CommonCorrect (plain (.llong true)) (plain (.long false)) ↔
        CommonAgrees (plain (.llong true)) (plain (.long false))) ∧
      prescribed (plain (.long false)) (plain (.llong true))
        = prescribed (plain (.llong true)) (plain (.long false)) ∧
      (ConvertCorrect 0 lp64 (.basic .schar) (.basic (.short true)) (mkintconst 128) 128 ↔
        ConvertAgrees lp64 (.basic .schar) (.basic (.short true)) 128) :=
  integer_conversions_iff (plain (.long false)) (plain (.llong true))
    (show (mkintconst 128).setWidth 32 = BitVec.ofInt 32 128 by decide)
    (show convValue lp64 (.basic (.short true)) 128 = 128 by decide)

/-- `unsigned long` and `long long` of 64 bits have `unsigned long long` as their common type, and
the source returns `long long`; the `short` 128 is -128 as a `signed char`, and stays 128. -/
theorem integer_conversions_long :
    typecommonreal lp64 (.basic (.long false)) none (.basic (.llong true)) none
        = some (.basic (.llong true)) ∧
      prescribed (plain (.long false)) (plain (.llong true)) = .basic (.llong false) ∧
      ¬ CommonCorrect (plain (.long false)) (plain (.llong true)) ∧
      convert 0 lp64 (.basic .schar) (.basic (.short true)) (mkintconst 128)
        = some (mkintconst 128) ∧
      convValue lp64 (.basic .schar) 128 = -128 ∧
      ¬ ConvertCorrect 0 lp64 (.basic .schar) (.basic (.short true)) (mkintconst 128) 128 := by
  have hcommon : typecommonreal lp64 (.basic (.long false)) none (.basic (.llong true)) none
      = some (.basic (.llong true)) := by decide
  have hconvert : convert 0 lp64 (.basic .schar) (.basic (.short true)) (mkintconst 128)
      = some (mkintconst 128) := by decide
  refine ⟨hcommon, by decide, ?_, hconvert, by decide, ?_⟩
  · rintro ⟨t, ht, harith⟩
    obtain rfl : CType.basic (.llong true) = t := Option.some.inj (hcommon.symm.trans ht)
    cases harith
  · rintro ⟨r, hr, hholds⟩
    obtain rfl : mkintconst 128 = r := Option.some.inj (hconvert.symm.trans hr)
    exact absurd (show (mkintconst 128).setWidth 32 = BitVec.ofInt 32 (-128) from hholds)
      (by decide)

end MeuOS.Mcc
