import MeuOS.Mir.Mfold

namespace MeuOS.Mir

open MeuOS.Lib Option

/-!
# Folded operations against their meaning

The host computes an integer operation in 64 bits for `I64` and `PTR` and in 32 bits for every
other type, and compares in 64 bits.  `foldInt_eq` says that the former is the operation at that
width; `ConOk` is the condition under which a folded instruction's constant is the value of the
instruction (`foldIns_sound`), and `AlgOk` the same for the algebraic rules (`msimp_sound`).
-/

/-- The width the host computes in. -/
def MType.foldBits (t : MType) : Nat := if t.wide then 64 else 32

/-- The integer types and pointers. -/
def MType.isInt : MType → Bool
  | .i8 | .i16 | .i32 | .i64 | .ptr => true
  | _ => false

variable {t vt dt : MType} {c x y : MConst} {n v w : Nat} {op op' : MOP} {l r : BitVec 64}
  {H : Host} {i : MIns} {fp : FpOps} {a0 a1 a1' : MRef} {fn : MFn} {regs : ValId → BitVec 64}
  {aggr : Bool}

theorem MType.bits_le_foldBits (h : t.isInt = true) : t.bits ≤ t.foldBits := by
  cases t <;> first | decide | cases h

theorem MType.isInt_not_float (h : t.isInt = true) : t.isFloat = false := by
  cases t <;> first | rfl | cases h

theorem MType.isInt_wide (h : t.isInt = true) : t.wide = true ↔ t.bits = 64 := by
  cases t <;> first | decide | cases h

/-! ### Powers of two -/

theorem pow2Shift_pow (k : Nat) : ∀ (n : Nat) (v : BitVec 64), n < k → n < 64 →
    v.toNat = 2 ^ n → pow2Shift k v = n := by
  induction k with
  | zero => exact fun n v h => absurd h (Nat.not_lt_zero n)
  | succ k ih =>
    intro n v hk hn hv
    cases n with
    | zero =>
      have h0 : v.getLsbD 0 = true := by
        rw [← BitVec.testBit_toNat, hv]
        rfl
      simp only [pow2Shift, h0, if_true]
    | succ n =>
      have h0 : v.getLsbD 0 = false := by
        rw [← BitVec.testBit_toNat, hv, Nat.pow_succ, Nat.testBit_zero]
        simp
      have hshift : (v >>> 1).toNat = 2 ^ n := by
        rw [BitVec.toNat_ushiftRight, hv, Nat.shiftRight_eq_div_pow, Nat.pow_succ]
        simp
      rw [pow2Shift, h0, if_neg Bool.false_ne_true,
        ih n (v >>> 1) (Nat.lt_of_succ_lt_succ hk) (Nat.lt_of_succ_lt hn) hshift]

/-- The exponent found belongs to the constant. -/
theorem pow2?_spec {c : BitVec 64} (h : pow2? c = some n) :
    n < 63 ∧ c.toNat = 2 ^ n := by
  unfold pow2? at h
  split at h
  · rename_i hc
    have hpos : 0 < c.toNat ∧ c.toNat < 2 ^ 63 := by
      have hslt := hc.1
      rw [BitVec.slt_iff_toInt_lt, show (0 : BitVec 64).toInt = 0 from rfl] at hslt
      have hint := BitVec.toInt_eq_toNat_cond c
      have hlt := c.isLt
      split at hint <;> omega
    have hand : c.toNat &&& (c.toNat - 1) = 0 := by
      have h1 := congrArg BitVec.toNat hc.2
      rw [BitVec.toNat_and, BitVec.toNat_sub] at h1
      have hsub : (2 ^ 64 - (1 : BitVec 64).toNat + c.toNat) % 2 ^ 64 = c.toNat - 1 := by
        have hone : (1 : BitVec 64).toNat = 1 := rfl
        have hlt := c.isLt
        omega
      rw [hsub] at h1
      exact h1
    obtain ⟨m, hm⟩ := (Nat.and_sub_one_eq_zero_iff_isPowerOfTwo (Nat.ne_of_gt hpos.1)).mp hand
    have hm63 : m < 63 := by
      rw [hm] at hpos
      exact (Nat.pow_lt_pow_iff_right (by omega)).mp hpos.2
    obtain rfl : pow2Shift 64 c = n := some.inj h
    rw [pow2Shift_pow 64 m c (by omega) (by omega) hm]
    exact ⟨hm63, hm⟩
  · cases h

/-! ### Integer operations -/

theorem foldCount_wide (r : BitVec 64) : foldCount true r = r.toNat % shiftMod 64 := by
  have h := BitVec.toNat_and r 63
  rw [show (63 : BitVec 64).toNat = 2 ^ 6 - 1 from rfl, Nat.and_two_pow_sub_one_eq_mod] at h
  exact h

theorem foldCount_narrow (r : BitVec 64) :
    foldCount false r = (r.setWidth 32).toNat % shiftMod 32 := by
  have h := BitVec.toNat_and r 31
  rw [show (31 : BitVec 64).toNat = 2 ^ 5 - 1 from rfl, Nat.and_two_pow_sub_one_eq_mod] at h
  rw [BitVec.toNat_setWidth, Nat.mod_mod_of_dvd r.toNat (by decide : shiftMod 32 ∣ 2 ^ 32)]
  exact h

/-- A division that does not trap is the operation. -/
theorem hostDiv_yes {s : Bool} {f : BitVec n → BitVec n → BitVec n} {l r x : BitVec n}
    (h : hostDiv s f l r = .yes x) :
    ¬ (r = 0 ∨ (s = true ∧ l = BitVec.intMin n ∧ r = -1)) ∧ x = f l r := by
  unfold hostDiv at h
  split at h
  · cases h
  · rename_i hc
    exact ⟨hc, (Fold.yes.inj h).symm⟩

theorem Fold.map_yes {α β : Type} {f : α → β} {x : Fold α} {y : β} (h : x.map f = .yes y) :
    ∃ a, x = .yes a ∧ y = f a := by
  cases x with
  | no => cases h
  | trap => cases h
  | yes a => exact ⟨a, rfl, (Fold.yes.inj h).symm⟩

theorem setWidth_signExtend (h : v ≤ w) (x : BitVec v) :
    (x.signExtend w).setWidth v = x := by
  apply BitVec.eq_of_getLsbD_eq
  intro i hi
  simp only [BitVec.getLsbD_setWidth, BitVec.getLsbD_signExtend, hi, Nat.lt_of_lt_of_le hi h,
    decide_true, Bool.true_and, if_true]

theorem setWidth_setWidth_self (h : v ≤ w) (x : BitVec v) :
    (x.setWidth w).setWidth v = x := by
  rw [BitVec.setWidth_setWidth_of_le _ h, BitVec.setWidth_eq]

theorem setWidth_ushiftRight (h : v ≤ w) (x : BitVec v) (k : Nat) :
    ((x.setWidth w) >>> k).setWidth v = x >>> k := by
  apply BitVec.eq_of_getLsbD_eq
  intro i hi
  simp only [BitVec.getLsbD_setWidth, BitVec.getLsbD_ushiftRight, hi, decide_true, Bool.true_and]
  by_cases hk : k + i < v
  · simp only [Nat.lt_of_lt_of_le hk h, decide_true, Bool.true_and]
  · rw [BitVec.getLsbD_of_ge _ _ (Nat.le_of_not_lt hk), Bool.and_false]

theorem setWidth_sshiftRight (h : v < w) (x : BitVec v) (k : Nat) :
    ((x.signExtend w).sshiftRight k).setWidth v = x.sshiftRight k := by
  apply BitVec.eq_of_getLsbD_eq
  intro i hi
  have hiw := Nat.lt_trans hi h
  simp only [BitVec.getLsbD_setWidth, BitVec.getLsbD_sshiftRight, BitVec.getLsbD_signExtend, hi,
    decide_true, Bool.true_and, Nat.not_le.mpr hi, Nat.not_le.mpr hiw, decide_false, Bool.not_false]
  by_cases hkv : k + i < v
  · simp only [hkv, Nat.lt_trans hkv h, decide_true, Bool.true_and, if_true]
  · simp only [hkv, if_false]
    split
    · simp only [‹_›, decide_true, Bool.true_and]
    · rw [BitVec.msb_signExtend, if_neg (Nat.not_le.mpr h), decide_eq_true (Nat.zero_lt_of_lt h),
        Bool.true_and]

/-- Computed in 64 bits, an operation is the one at width 64. -/
theorem foldInt_wide {x : BitVec 64} (hop : op.isArith = true)
    (h : foldInt op true t l r = .yes x) : evalBin op l r = some x := by
  unfold foldInt at h
  split at h <;> try cases hop
  case h_4 =>
    simp only [↓reduceIte] at h
    split at h
    · cases h
    · split at h
      · cases h
      · obtain ⟨hc, rfl⟩ := hostDiv_yes h
        exact if_neg fun hz => hc (hz.imp_right fun h => ⟨rfl, h⟩)
  case h_5 | h_7 =>
    simp only [↓reduceIte] at h
    split at h
    · cases h
    · obtain ⟨hc, rfl⟩ := hostDiv_yes h
      exact if_neg fun hz => hc (.inl hz)
  case h_6 =>
    simp only [↓reduceIte] at h
    split at h
    · cases h
    · obtain ⟨hc, rfl⟩ := hostDiv_yes h
      exact if_neg fun hz => hc (hz.imp_right fun h => ⟨rfl, h⟩)
  case h_11 | h_12 | h_13 =>
    rw [foldCount_wide] at h
    exact congrArg some (Fold.yes.inj h)
  all_goals first | exact congrArg some (Fold.yes.inj h) | cases h

/-- Computed in 32 bits, an operation is the one at width 32. -/
theorem foldInt_narrow {x : BitVec 64} (hop : op.isArith = true)
    (h : foldInt op false t l r = .yes x) :
    evalBin op (l.setWidth 32) (r.setWidth 32) = some (x.setWidth 32) := by
  unfold foldInt at h
  split at h <;> try cases hop
  case h_4 =>
    simp only [↓reduceIte, Bool.false_eq_true] at h
    split at h
    · cases h
    · split at h
      · cases h
      · obtain ⟨y, hy, rfl⟩ := Fold.map_yes h
        obtain ⟨hc, rfl⟩ := hostDiv_yes hy
        rw [setWidth_signExtend (by decide)]
        exact if_neg fun hz => hc (hz.imp_right fun h => ⟨rfl, h⟩)
  case h_5 | h_7 =>
    simp only [↓reduceIte, Bool.false_eq_true] at h
    split at h
    · cases h
    · obtain ⟨y, hy, rfl⟩ := Fold.map_yes h
      obtain ⟨hc, rfl⟩ := hostDiv_yes hy
      rw [setWidth_setWidth_self (by decide)]
      exact if_neg fun hz => hc (.inl hz)
  case h_6 =>
    simp only [↓reduceIte, Bool.false_eq_true] at h
    split at h
    · cases h
    · obtain ⟨y, hy, rfl⟩ := Fold.map_yes h
      obtain ⟨hc, rfl⟩ := hostDiv_yes hy
      rw [setWidth_signExtend (by decide)]
      exact if_neg fun hz => hc (hz.imp_right fun h => ⟨rfl, h⟩)
  case h_1 =>
    rw [← Fold.yes.inj h, BitVec.setWidth_add _ _ (by decide)]
    rfl
  case h_2 =>
    rw [← Fold.yes.inj h, BitVec.sub_eq_add_neg, BitVec.setWidth_add _ _ (by decide),
      BitVec.setWidth_neg_of_le (by decide), ← BitVec.sub_eq_add_neg]
    rfl
  case h_3 =>
    rw [← Fold.yes.inj h, BitVec.setWidth_mul _ _ (by decide)]
    rfl
  case h_8 =>
    rw [← Fold.yes.inj h, BitVec.setWidth_and]
    rfl
  case h_9 =>
    rw [← Fold.yes.inj h, BitVec.setWidth_or]
    rfl
  case h_10 =>
    rw [← Fold.yes.inj h, BitVec.setWidth_xor]
    rfl
  case h_11 =>
    rw [← Fold.yes.inj h, foldCount_narrow, BitVec.setWidth_shiftLeft_of_le (by decide)]
    rfl
  case h_12 =>
    simp only [Bool.false_eq_true, if_false] at h
    rw [← Fold.yes.inj h, foldCount_narrow, setWidth_ushiftRight (by decide)]
    rfl
  case h_13 =>
    simp only [Bool.false_eq_true, if_false] at h
    rw [← Fold.yes.inj h, foldCount_narrow, setWidth_sshiftRight (by decide)]
    rfl
  case h_14 =>
    rw [← Fold.yes.inj h, BitVec.setWidth_neg_of_le (by decide)]
    rfl
  case h_18 => cases h

/-- `foldInt` is the operation at the width the host computes in. -/
theorem foldInt_eq {w : Bool} {x : BitVec 64} (hop : op.isArith = true)
    (h : foldInt op w t l r = .yes x) :
    evalBin op (l.setWidth (if w then 64 else 32)) (r.setWidth (if w then 64 else 32)) =
      some (x.setWidth (if w then 64 else 32)) := by
  cases w with
  | false => exact foldInt_narrow hop h
  | true =>
    change evalBin op (l.setWidth 64) (r.setWidth 64) = some (x.setWidth 64)
    simpa only [BitVec.setWidth_eq] using foldInt_wide hop h

/-- The kept constant has the computed bits. -/
theorem low_foldRes (H : Host) (w : Bool) (x : BitVec 64) (hv : v ≤ if w then 64 else 32) :
    low v (constBits H (foldRes w x)) = low v x := by
  cases w with
  | true => rfl
  | false =>
    apply BitVec.eq_of_getLsbD_eq
    intro i _
    simp only [getLsbD_low]
    by_cases hi : i < v
    · have h32 : i < 32 := Nat.lt_of_lt_of_le hi hv
      simp only [foldRes, Bool.false_eq_true, if_false, mconstInt, constBits,
        BitVec.getLsbD_signExtend, BitVec.getLsbD_setWidth, h32, show i < 64 by omega, decide_true,
        Bool.true_and, if_true]
    · simp only [hi, decide_false, Bool.false_and]

/-! ### When a folded constant is the value of the instruction -/

/-- Computed at the host's width, the operation has the low bits it has at its own width, and the
    result's type is not wider. -/
structure ArithOk (i : MIns) (vt : MType) (l r : BitVec 64) : Prop where
  int : i.dtype.isInt = true
  dst : vt.bits ≤ i.dtype.bits
  same : ∀ z z', evalBin i.op (l.setWidth i.dtype.bits) (r.setWidth i.dtype.bits) = some z →
    evalBin i.op (l.setWidth i.dtype.foldBits) (r.setWidth i.dtype.foldBits) = some z' →
    z'.setWidth i.dtype.bits = z

/-- Compared in 64 bits, two integers compare as they do at the width of the comparison; two
    floats have the type of the comparison. -/
def CmpOk (i : MIns) (x y : MConst) : Prop :=
  match x.u, y.u with
  | .flt _, .flt _ => (x.type = .f32 ↔ i.dtype = .f32) ∧ (y.type = .f32 ↔ i.dtype = .f32)
  | .int l, .int r =>
    evalCmp i.op l r = evalCmp i.op (l.setWidth i.dtype.bits) (r.setWidth i.dtype.bits)
  | _, _ => True

/-- The condition on the constants `x` and `y` of a folded instruction whose result has type
    `vt`.  `I2F` and `UI2F` convert the whole payload, so it has to be extended from the
    constant's type; a widening or narrowing with a second operand is no proper instruction. -/
def ConOk (H : Host) (i : MIns) (vt : MType) (x y : MConst) : Prop :=
  match i.op with
  | .i2f => vt.bits ≤ i.dtype.bits ∧
    ∀ n, x.int? = some n → (n.setWidth x.type.bits).signExtend 64 = n
  | .ui2f => vt.bits ≤ i.dtype.bits ∧ ∀ n, x.int? = some n → x.type = .i32 ∨ low x.type.bits n = n
  | .f2i => vt.bits ≤ i.dtype.bits ∧ i.dtype.isInt = true
  | .neg =>
    match x.u with
    | .flt _ => vt.bits ≤ i.dtype.bits ∧ x.type = i.dtype ∧ i.dtype.isFloat = true
    | .int l => ArithOk i vt l 0
    | _ => True
  | .sext | .zext | .trunc => ∀ c, mfoldConst H.fp i.op i.dtype.wide x y = .yes c →
    low vt.bits (constBits H c) =
      low vt.bits (low i.dtype.bits (convVal H.fp i.op i.dtype ⟨constBits H x, x.type, none⟩))
  | _ => if i.op.isCmp then CmpOk i x y
    else ∀ l r, x.int? = some l → y.int? = some r → ArithOk i vt l r

theorem isArith_of_isCmp (h : op.isCmp = true) : op.isArith = false := by
  cases op <;> first | rfl | cases h

theorem conOk_cmp (h : i.op.isCmp = true) :
    ConOk H i vt x y = CmpOk i x y := by
  unfold ConOk
  split <;> first | exact if_pos h | (rename_i hop; rw [hop] at h; cases h)

theorem conOk_arith (h : i.op.isArith = true) (hneg : i.op ≠ .neg) :
    ConOk H i vt x y = ∀ l r, x.int? = some l → y.int? = some r → ArithOk i vt l r := by
  unfold ConOk
  split <;> try (rename_i hop; rw [hop] at h; cases h)
  · rename_i hop
    exact absurd hop hneg
  · rw [if_neg fun hcmp => ?_]
    rw [isArith_of_isCmp hcmp] at h
    cases h

/-- For the types the host computes at their own width nothing can differ. -/
theorem arithOk_regular (hi : i.dtype = .i32 ∨ i.dtype = .i64 ∨ i.dtype = .ptr)
    (hvt : vt.bits ≤ i.dtype.bits) (l r : BitVec 64) : ArithOk i vt l r := by
  refine ⟨by rcases hi with h | h | h <;> rw [h] <;> rfl, hvt, fun z z' hz hz' => ?_⟩
  have hsame : ∀ {v w : Nat} (_ : w = v) {z : BitVec v} {z' : BitVec w},
      evalBin i.op (l.setWidth v) (r.setWidth v) = some z →
      evalBin i.op (l.setWidth w) (r.setWidth w) = some z' → z'.setWidth v = z := by
    intro v w hw z z' hz hz'
    subst hw
    rw [BitVec.setWidth_eq]
    exact some.inj (hz'.symm.trans hz)
  exact hsame (by rcases hi with h | h | h <;> rw [h] <;> rfl) hz hz'

/-! ### A folded constant is the value of the instruction -/

theorem arith_sound {z v : BitVec 64} (hop : i.op.isArith = true) (hok : ArithOk i vt l r)
    (hz : foldInt i.op i.dtype.wide t l r = .yes z) (hv : arithVal H.fp i.op i.dtype l r = some v) :
    low vt.bits (constBits H (foldRes i.dtype.wide z)) = low vt.bits v := by
  have hle := MType.bits_le_foldBits hok.int
  rw [arithVal, MType.isInt_not_float hok.int, Bool.false_and, if_neg Bool.false_ne_true] at hv
  obtain ⟨z0, hz0, rfl⟩ := map_eq_some_iff.mp hv
  have hsame := hok.same z0 _ hz0 (foldInt_eq hop hz)
  rw [low_foldRes H _ _ (Nat.le_trans hok.dst hle), ← hsame]
  change _ = low vt.bits (((z.setWidth i.dtype.foldBits).setWidth i.dtype.bits).setWidth 64)
  rw [BitVec.setWidth_setWidth_of_le _ hle]
  exact (low_low hok.dst z).symm

theorem int?_eq {n : BitVec 64} (h : c.int? = some n) : c.u = .int n := by
  unfold MConst.int? at h
  split at h
  · rename_i hu
    rw [hu, some.inj h]
  · cases h

theorem constBits_int {n : BitVec 64} (H : Host) (h : c.int? = some n) :
    constBits H c = n := by
  rw [constBits, int?_eq h]

theorem foldArith_sound {v : BitVec 64} (hop : i.op.isArith = true)
    (hok : ∀ l r, x.int? = some l → y.int? = some r → ArithOk i vt l r)
    (hc : foldArith i.op i.dtype.wide x y = .yes c)
    (hv : arithVal H.fp i.op i.dtype (constBits H x) (constBits H y) = some v) :
    low vt.bits (constBits H c) = low vt.bits v := by
  unfold foldArith at hc
  split at hc
  · rename_i l r hl hr
    obtain ⟨z, hz, rfl⟩ := Fold.map_yes hc
    rw [constBits_int H hl, constBits_int H hr] at hv
    exact arith_sound hop (hok l r hl hr) hz hv
  · cases hc

theorem cmp_sound (hok : CmpOk i x y) (hc : foldCmp H.fp i.op x y = .yes c) :
    constBits H c = cmpVal H.fp i.op i.dtype (constBits H x) (constBits H y) := by
  have htod : ∀ {t : MType} (d : BitVec 64), (t = .f32 ↔ i.dtype = .f32) →
      H.fp.toDouble t d = H.fp.toDouble i.dtype d := fun d h => by
    simp only [FpOps.toDouble, h]
  unfold foldCmp at hc
  unfold CmpOk at hok
  split at hc
  · rename_i l r hl hr
    simp only [hl, hr] at hok
    split at hc
    · rename_i hop
      cases hc
      simp only [cmpVal, hop, if_true, constBits, hl, hr, mconstInt, htod _ hok.1, htod _ hok.2]
    · cases hc
  · rename_i l r hl hr
    simp only [hl, hr] at hok
    split at hc
    · cases hc
    · rename_i hop
      cases hc
      simp only [cmpVal, hop, Bool.false_eq_true, if_false, constBits, hl, hr, mconstInt, hok]
  · cases hc

/-- The ops of the integer branch. -/
theorem foldArith_op {w : Bool} (h : foldArith op w x y = .yes c) :
    op.isArith = true ∨ op = .sext ∨ op = .zext ∨ op = .trunc := by
  unfold foldArith at h
  split at h
  · obtain ⟨z, hz, -⟩ := Fold.map_yes h
    unfold foldInt at hz
    split at hz <;> first | exact .inl rfl | exact .inr (by simp) | cases hz
  · cases h

/-- Nothing but arithmetic, comparisons and conversions is folded. -/
theorem mfoldConst_cls {w : Bool} (h : mfoldConst fp op w x y = .yes c) : op.cls = .pure := by
  unfold mfoldConst at h
  split at h <;> try rfl
  split at h
  · rename_i hcmp
    unfold MOP.cls
    rw [hcmp, Bool.or_true, Bool.true_or, if_pos rfl]
  · rcases foldArith_op h with hop | rfl | rfl | rfl <;> try rfl
    unfold MOP.cls
    rw [hop, Bool.true_or, Bool.true_or, if_pos rfl]

theorem foldIns_cls (h : foldIns fp i a0 a1 = .yes c) : i.op.cls = .pure := by
  unfold foldIns at h
  split at h
  · cases h
  · split at h
    · cases h
    · obtain ⟨c0, hc0, -⟩ := Fold.map_yes h
      exact mfoldConst_cls hc0

theorem rounded_eq (fp : FpOps) (h0 : i.op ≠ .i2f) (h1 : i.op ≠ .ui2f) (c : MConst) :
    i.rounded fp c = c := by
  unfold MIns.rounded
  split
  · rw [if_neg fun h => h.1.elim h0 h1]
  · rfl

/-- A converted integer. -/
theorem rounded_bits (H : Host) (hop : i.op = .i2f ∨ i.op = .ui2f)
    (hv : v ≤ i.dtype.bits) (d : BitVec 64) :
    low v (constBits H (i.rounded H.fp ⟨.f64, .flt d⟩)) =
      low v (low i.dtype.bits (if i.dtype = .f32 then H.fp.dtos d else d)) := by
  rw [low_low hv]
  by_cases ht : i.dtype = .f32
  · have hv32 : v ≤ 32 := by
      rw [ht] at hv
      exact hv
    simp only [MIns.rounded, hop, ht, and_self, if_true, constBits, low_low hv32]
  · simp only [MIns.rounded, ht, and_false, if_false, constBits]

theorem pureVal_arith (h : op.isArith = true) (dt : MType) (x y : Opnd) :
    pureVal fp op dt x y = arithVal fp op dt x.bits y.bits := if_pos h

theorem arithVal_neg (fp : FpOps) (dt : MType) (x y y' : BitVec 64) :
    arithVal fp .neg dt x y = arithVal fp .neg dt x y' := rfl

/-- **Folding is sound.** The constant put in place of a folded instruction's result is its
    value, as far as the result's type keeps it. -/
theorem foldIns_sound {v : BitVec 64} (hc : foldIns H.fp i a0 a1 = .yes c)
    (hok : ∀ x y, a0.con? = some x → foldRight i x a1 = some y → ConOk H i vt x y)
    (hv : pureVal H.fp i.op i.dtype (opnd H fn regs a0) (opnd H fn regs a1) = some v) :
    low vt.bits (constBits H c) = low vt.bits v := by
  unfold foldIns at hc
  split at hc
  · cases hc
  rename_i x hx
  split at hc
  · cases hc
  rename_i y hy
  obtain ⟨c, hc0, rfl⟩ := Fold.map_yes hc
  clear hc
  have ha0 : a0 = .con x := by
    cases a0 <;> simp_all [MRef.con?]
  subst ha0
  replace hok := hok x y rfl hy
  rw [opnd_con] at hv
  unfold mfoldConst at hc0
  split at hc0
  · -- `I2F`
    rename_i hop
    simp only [ConOk, hop] at hok
    split at hc0
    · rename_i n hn
      cases hc0
      rw [rounded_bits H (.inl hop) hok.1]
      simp only [hop, pureVal, MOP.isArith, MOP.isCmp, Bool.false_eq_true, if_false, convVal,
        Opnd.signed, constBits, hn, hok.2 n (by simp only [MConst.int?, hn]), some.injEq] at hv
      rw [hv]
    · cases hc0
  · -- `UI2F`
    rename_i hop
    simp only [ConOk, hop] at hok
    split at hc0
    · rename_i n hn
      cases hc0
      have hn' : (if x.type = .i32 then low 32 n else n) = low x.type.bits n := by
        rcases hok.2 n (by simp only [MConst.int?, hn]) with ht | ht
        · rw [if_pos ht, ht]
          rfl
        · split
          · rename_i ht'
            rw [ht']
            rfl
          · exact ht.symm
      rw [rounded_bits H (.inr hop) hok.1, hn']
      simp only [hop, pureVal, MOP.isArith, MOP.isCmp, Bool.false_eq_true, if_false, convVal,
        Opnd.unsigned, constBits, hn, some.injEq] at hv
      rw [hv]
    · cases hc0
  · -- `F2I`
    rename_i hop
    simp only [ConOk, hop] at hok
    have hwide := MType.isInt_wide hok.2
    split at hc0
    · rename_i d hd
      cases hc0
      rw [rounded_eq _ (by rw [hop]; exact MOP.noConfusion) (by rw [hop]; exact MOP.noConfusion)]
      simp only [hop, pureVal, MOP.isArith, MOP.isCmp, Bool.false_eq_true, if_false, convVal,
        constBits, hd, some.injEq] at hv
      rw [← hv, low_low hok.1]
      by_cases hw : i.dtype.wide = true
      · simp only [hw, hwide.mp hw, if_true, mconstInt, constBits]
      · have hw' : ¬ i.dtype.bits = 64 := fun h => hw (hwide.mpr h)
        simp only [hw, hw', Bool.false_eq_true, if_false, mconstInt, constBits]
    · cases hc0
  · -- `NEG`
    rename_i hop
    simp only [ConOk, hop] at hok
    rw [rounded_eq _ (by rw [hop]; exact MOP.noConfusion) (by rw [hop]; exact MOP.noConfusion)]
    rw [hop, pureVal_arith rfl] at hv
    split at hc0
    · rename_i d hd
      cases hc0
      simp only [hd] at hok
      obtain ⟨hvt, ht, hf⟩ := hok
      simp only [arithVal, hf, MOP.isFpArith, Bool.and_self, if_true, constBits, hd,
        some.injEq] at hv
      rw [← hv, ← ht]
      rw [← ht] at hvt hf
      cases hxt : x.type <;> simp only [hxt] at hvt hf <;> try cases hf
      · have h32 : vt.bits ≤ 32 := hvt
        simp only [if_true, constBits]
        exact low_low h32 _
      · simp only [reduceCtorEq, if_false, constBits, MType.bits, low_full]
    · have hint : ∀ l r, x.int? = some l → y.int? = some r → ArithOk i vt l r := by
        intro l r hl hr
        have hxu := int?_eq hl
        simp only [hxu] at hok
        simp only [foldRight, hop, some.injEq] at hy
        subst hy
        cases hr
        exact hok
      rw [arithVal_neg _ _ _ _ (constBits H y), ← hop] at hv
      rw [← hop] at hc0
      exact foldArith_sound (by rw [hop]; rfl) hint hc0 hv
  · rename_i h1 h2 h3 h4
    rw [rounded_eq _ h1 h2]
    have hy' : a1 = .con y := by
      have hcon : a1.con? = some y := by
        unfold foldRight at hy
        split at hy <;> first | contradiction | exact hy
      cases a1 <;> simp_all [MRef.con?]
    subst hy'
    rw [opnd_con] at hv
    by_cases hcmp : i.op.isCmp = true
    · rw [if_pos hcmp] at hc0
      rw [conOk_cmp hcmp] at hok
      rw [cmp_sound hok hc0]
      rw [pureVal, if_neg (by rw [isArith_of_isCmp hcmp]; exact Bool.false_ne_true), if_pos hcmp] at hv
      exact congrArg _ (some.inj hv)
    · rw [if_neg hcmp] at hc0
      by_cases harith : i.op.isArith = true
      · rw [conOk_arith harith h4] at hok
        rw [pureVal_arith harith] at hv
        exact foldArith_sound harith hok hc0 hv
      · have hconv := (foldArith_op hc0).resolve_left harith
        have hpure : pureVal H.fp i.op i.dtype ⟨constBits H x, x.type, none⟩
            ⟨constBits H y, y.type, none⟩ =
            some (low i.dtype.bits (convVal H.fp i.op i.dtype ⟨constBits H x, x.type, none⟩)) := by
          rw [pureVal, if_neg harith, if_neg hcmp]
        rw [← some.inj (hpure.symm.trans hv)]
        rcases hconv with hop | hop | hop
        all_goals
          simp only [ConOk, hop] at hok ⊢
          rw [hop] at hc0
          exact hok c hc0

/-! ### The algebraic rules -/

/-- The condition on an instruction the algebraic rules change: what is dropped is no float
    operation, has something to be replaced by and a result no wider than the operation, and a
    shift that stands for a multiplication is one the width has. -/
def AlgOk (aggr : Bool) (i : MIns) (vt : MType) (a0 a1 : MRef) : Prop :=
  match msimp aggr i.op i.dtype a0 a1 with
  | .drop r => (i.dtype.isFloat && i.op.isFpArith) = false ∧ r ≠ .none ∧ vt.bits ≤ i.dtype.bits
  | .keep _ _ => i.op = .mul → aggr = true → ∀ n, a1.int?.bind pow2? = some n →
    i.dtype.isFloat = false ∧ n < shiftMod i.dtype.bits

theorem opnd_int? {r : MRef} {n : BitVec 64}
    (h : r.int? = some n) : (opnd H fn regs r).bits = n := by
  obtain ⟨c, hc, hn⟩ := bind_eq_some_iff.mp h
  cases r with
  | con c' =>
    obtain rfl : c' = c := some.inj hc
    exact constBits_int H hn
  | none => cases hc
  | val v => cases hc

theorem sameVal_eq (h : sameVal a0 a1 = true) : a1 = a0 := by
  cases a0 <;> cases a1 <;> simp_all [sameVal, MRef.val?]

theorem evalBin_zero (x : BitVec w)
    (hop : op ∈ [MOP.add, .or, .xor, .shl, .shr, .sar]) : evalBin op x 0 = some x := by
  simp only [List.mem_cons, List.not_mem_nil, or_false] at hop
  rcases hop with rfl | rfl | rfl | rfl | rfl | rfl <;> simp [evalBin]

theorem pureVal_int (hop : op.isArith = true)
    (hf : (dt.isFloat && op.isFpArith) = false) (x y : Opnd) :
    pureVal fp op dt x y =
      (evalBin op (x.bits.setWidth dt.bits) (y.bits.setWidth dt.bits)).map (·.setWidth 64) := by
  rw [pureVal_arith hop, arithVal, hf, if_neg Bool.false_ne_true]

/-- What a dropped instruction of the algebraic rules computes. -/
theorem msimp_drop {r : MRef} (h : msimp aggr op dt a0 a1 = .drop r) :
    op.isArith = true ∧
      ((r = a0 ∧ ((a1.int? = some 0 ∧ op ∈ [MOP.add, .or, .xor, .shl, .shr, .sar]) ∨
          (a1.int? = some 1 ∧ op = .mul))) ∨
        (r = .con (mconstInt dt 0) ∧ ((a1.int? = some 0 ∧ (op = .mul ∨ op = .and)) ∨
          (a1 = a0 ∧ (op = .xor ∨ op = .sub))))) := by
  unfold msimp at h
  dsimp only at h
  split at h
  case h_1 | h_2 | h_3 | h_4 | h_5 =>
    split at h
    · rename_i h0
      exact ⟨rfl, .inl ⟨(Simp.drop.inj h).symm, .inl ⟨h0, by simp⟩⟩⟩
    · cases h
  case h_6 =>
    split at h
    · rename_i h1
      exact ⟨rfl, .inl ⟨(Simp.drop.inj h).symm, .inr ⟨h1, rfl⟩⟩⟩
    · split at h
      · rename_i h0
        exact ⟨rfl, .inr ⟨(Simp.drop.inj h).symm, .inl ⟨h0, .inl rfl⟩⟩⟩
      · split at h
        · split at h <;> cases h
        · cases h
  case h_7 =>
    split at h
    · rename_i h0
      exact ⟨rfl, .inr ⟨(Simp.drop.inj h).symm, .inl ⟨h0, .inr rfl⟩⟩⟩
    · cases h
  case h_8 =>
    split at h
    · rename_i h0
      exact ⟨rfl, .inl ⟨(Simp.drop.inj h).symm, .inl ⟨h0, by simp⟩⟩⟩
    · split at h
      · rename_i hs
        exact ⟨rfl, .inr ⟨(Simp.drop.inj h).symm, .inr ⟨sameVal_eq hs, .inl rfl⟩⟩⟩
      · cases h
  case h_9 =>
    split at h
    · rename_i hs
      exact ⟨rfl, .inr ⟨(Simp.drop.inj h).symm, .inr ⟨sameVal_eq hs, .inr rfl⟩⟩⟩
    · cases h
  case h_10 | h_11 => split at h <;> cases h
  case h_12 => cases h

/-- A dropped instruction of the algebraic rules has the value of its replacement. -/
theorem msimp_drop_sound {r : MRef} {v : BitVec 64} (h : msimp aggr i.op i.dtype a0 a1 = .drop r)
    (hok : AlgOk aggr i vt a0 a1)
    (hv : pureVal H.fp i.op i.dtype (opnd H fn regs a0) (opnd H fn regs a1) = some v) :
    low vt.bits (opnd H fn regs r).bits = low vt.bits v := by
  simp only [AlgOk, h] at hok
  obtain ⟨hf, -, hvt⟩ := hok
  obtain ⟨hop, hcase⟩ := msimp_drop h
  rw [pureVal_int hop hf] at hv
  obtain ⟨z, hz, rfl⟩ := map_eq_some_iff.mp hv
  have hself : evalBin i.op ((opnd H fn regs a0).bits.setWidth i.dtype.bits)
      ((opnd H fn regs a1).bits.setWidth i.dtype.bits) =
        some ((opnd H fn regs a0).bits.setWidth i.dtype.bits) →
      low vt.bits (opnd H fn regs a0).bits = low vt.bits (z.setWidth 64) := by
    intro he
    rw [← some.inj (he.symm.trans hz)]
    exact (low_low hvt _).symm
  have hzero : evalBin i.op ((opnd H fn regs a0).bits.setWidth i.dtype.bits)
      ((opnd H fn regs a1).bits.setWidth i.dtype.bits) = some 0 →
      low vt.bits (opnd H fn regs (.con (mconstInt i.dtype 0))).bits = low vt.bits (z.setWidth 64) := by
    intro he
    rw [← some.inj (he.symm.trans hz), opnd_mconstInt]
    simp [low]
  rcases hcase with ⟨rfl, ⟨h0, hop'⟩ | ⟨h1, hop'⟩⟩ | ⟨rfl, ⟨h0, hop'⟩ | ⟨rfl, hop'⟩⟩
  · refine hself ?_
    rw [opnd_int? h0, show (0 : BitVec 64).setWidth i.dtype.bits = 0 by simp]
    exact evalBin_zero _ hop'
  · refine hself ?_
    rw [opnd_int? h1, hop']
    have hone : (1 : BitVec 64).setWidth i.dtype.bits = 1 := by
      cases i.dtype <;> rfl
    rw [hone]
    exact congrArg some (BitVec.mul_one _)
  · refine hzero ?_
    rw [opnd_int? h0, show (0 : BitVec 64).setWidth i.dtype.bits = 0 by simp]
    rcases hop' with hop' | hop' <;> rw [hop']
    · exact congrArg some (BitVec.mul_zero)
    · exact congrArg some (BitVec.and_zero)
  · refine hzero ?_
    rcases hop' with hop' | hop' <;> rw [hop']
    · exact congrArg some (BitVec.xor_self)
    · exact congrArg some (BitVec.sub_self _)

theorem MType.bits_le_shiftMod (t : MType) : t.bits ≤ shiftMod t.bits := by cases t <;> decide

theorem MType.bits_pos (t : MType) : 8 ≤ t.bits := by cases t <;> decide

theorem shiftCount_eq (hn : n < 63) (hm : n < shiftMod t.bits) :
    ((BitVec.ofNat 64 n).setWidth t.bits).toNat % shiftMod t.bits = n := by
  have h8 : 2 ^ 8 ≤ 2 ^ t.bits := Nat.pow_le_pow_right (by decide) t.bits_pos
  rw [BitVec.toNat_setWidth, BitVec.toNat_ofNat, Nat.mod_eq_of_lt (by omega : n < 2 ^ 64),
    Nat.mod_eq_of_lt (by omega : n < 2 ^ t.bits), Nat.mod_eq_of_lt hm]

theorem mul_pow2 (x : BitVec w) {c : BitVec 64} (hc : c.toNat = 2 ^ n) :
    x * c.setWidth w = x <<< n := by
  apply BitVec.eq_of_toNat_eq
  rw [BitVec.toNat_mul, BitVec.toNat_setWidth, hc, BitVec.toNat_shiftLeft, Nat.shiftLeft_eq,
    Nat.mul_mod_mod]

/-- The exponent of a power of two that is not 0 at a width. -/
theorem pow2_lt {c : BitVec 64} (hc : c.toNat = 2 ^ n) (h0 : c.setWidth w ≠ 0) :
    n < w ∧ (c.setWidth w).toNat = 2 ^ n := by
  have hlt : n < w := by
    by_contra hge
    refine h0 (BitVec.eq_of_toNat_eq ?_)
    rw [BitVec.toNat_setWidth, hc]
    exact Nat.mod_eq_zero_of_dvd (Nat.pow_dvd_pow 2 (Nat.le_of_not_lt hge))
  refine ⟨hlt, ?_⟩
  rw [BitVec.toNat_setWidth, hc]
  exact Nat.mod_eq_of_lt (Nat.pow_lt_pow_right (by decide) hlt)

theorem udiv_pow2 (x : BitVec w) {c : BitVec 64} (hc : c.toNat = 2 ^ n)
    (h0 : c.setWidth w ≠ 0) : x.udiv (c.setWidth w) = x >>> n := by
  apply BitVec.eq_of_toNat_eq
  rw [BitVec.udiv_eq, BitVec.toNat_udiv, (pow2_lt hc h0).2, BitVec.toNat_ushiftRight,
    Nat.shiftRight_eq_div_pow]

theorem umod_pow2 (x : BitVec w) {c : BitVec 64} (hc : c.toNat = 2 ^ n)
    (h0 : c.setWidth w ≠ 0) : x.umod (c.setWidth w) = x &&& (c - 1).setWidth w := by
  obtain ⟨hn, hcw⟩ := pow2_lt hc h0
  apply BitVec.eq_of_toNat_eq
  have hsub : ((c - 1).setWidth w).toNat = 2 ^ n - 1 := by
    have hpos : 0 < 2 ^ n := Nat.two_pow_pos n
    have hle : 2 ^ n < 2 ^ w := Nat.pow_lt_pow_right (by decide) hn
    have hlt := c.isLt
    have hone : (1 : BitVec 64).toNat = 1 := rfl
    rw [BitVec.toNat_setWidth, BitVec.toNat_sub, hone, hc]
    rw [hc] at hlt
    rw [show (2 ^ 64 - 1 + 2 ^ n) % 2 ^ 64 = 2 ^ n - 1 by omega, Nat.mod_eq_of_lt (by omega)]
  rw [BitVec.umod_eq, BitVec.toNat_umod, hcw, BitVec.toNat_and, hsub, Nat.and_two_pow_sub_one_eq_mod]

/-- What the algebraic rules keep: the instruction, or a shift or mask in place of a
    multiplication or unsigned division by a power of two. -/
theorem msimp_keep (h : msimp aggr op dt a0 a1 = .keep op' a1') :
    (op' = op ∧ a1' = a1) ∨ ∃ c n, a1.int? = some c ∧ pow2? c = some n ∧
      ((op = .mul ∧ aggr = true ∧ op' = .shl ∧ a1' = .con (mconstInt .i32 (BitVec.ofNat 64 n))) ∨
        (op = .udiv ∧ op' = .shr ∧ a1' = .con (mconstInt .i32 (BitVec.ofNat 64 n))) ∨
        (op = .urem ∧ op' = .and ∧ a1' = .con (mconstInt dt (c - 1)))) := by
  have hsame : ∀ {o : MOP}, Simp.keep o a1 = .keep op' a1' → op' = o ∧ a1' = a1 := fun h => by
    cases h
    exact ⟨rfl, rfl⟩
  unfold msimp at h
  dsimp only at h
  split at h
  case h_1 | h_2 | h_3 | h_4 | h_5 | h_7 | h_9 =>
    split at h
    · cases h
    · exact .inl (hsame h)
  case h_6 =>
    split at h
    · cases h
    · split at h
      · cases h
      · split at h
        · rename_i n hn
          split at h
          · rename_i ha
            obtain ⟨c, hc, hn⟩ := bind_eq_some_iff.mp hn
            cases h
            exact .inr ⟨c, n, hc, hn, .inl ⟨rfl, ha, rfl, rfl⟩⟩
          · exact .inl (hsame h)
        · exact .inl (hsame h)
  case h_8 =>
    split at h
    · cases h
    · split at h
      · cases h
      · exact .inl (hsame h)
  case h_10 =>
    split at h
    · rename_i n hn
      obtain ⟨c, hc, hn⟩ := bind_eq_some_iff.mp hn
      cases h
      exact .inr ⟨c, n, hc, hn, .inr (.inl ⟨rfl, rfl, rfl⟩)⟩
    · exact .inl (hsame h)
  case h_11 =>
    split at h
    · rename_i c hn
      obtain ⟨c', hc, hmap⟩ := bind_eq_some_iff.mp hn
      obtain ⟨n, hpow, rfl⟩ := map_eq_some_iff.mp hmap
      cases h
      exact .inr ⟨c', n, hc, hpow, .inr (.inr ⟨rfl, rfl, rfl⟩)⟩
    · exact .inl (hsame h)
  case h_12 => exact .inl (hsame h)

/-- A changed instruction computes the same value. -/
theorem msimp_keep_sound {v : BitVec 64}
    (h : msimp aggr i.op i.dtype a0 a1 = .keep op' a1') (hok : AlgOk aggr i vt a0 a1)
    (hv : pureVal H.fp i.op i.dtype (opnd H fn regs a0) (opnd H fn regs a1) = some v) :
    pureVal H.fp op' i.dtype (opnd H fn regs a0) (opnd H fn regs a1') = some v := by
  simp only [AlgOk, h] at hok
  rcases msimp_keep h with ⟨rfl, rfl⟩ | ⟨c, n, hc, hn, hcase⟩
  · exact hv
  obtain ⟨hn63, hcn⟩ := pow2?_spec hn
  rcases hcase with ⟨hop, ha, rfl, rfl⟩ | ⟨hop, rfl, rfl⟩ | ⟨hop, rfl, rfl⟩
  · obtain ⟨hf, hlt⟩ := hok hop ha n (bind_eq_some_iff.mpr ⟨c, hc, hn⟩)
    rw [hop, pureVal_int rfl (by rw [hf]; rfl), opnd_int? hc] at hv
    rw [pureVal_int rfl (by rw [hf]; rfl), opnd_mconstInt, ← hv]
    simp only [evalBin, mul_pow2 _ hcn, shiftCount_eq hn63 hlt]
  · rw [hop, pureVal_int rfl (Bool.and_false _), opnd_int? hc] at hv
    rw [pureVal_int rfl (Bool.and_false _), opnd_mconstInt, ← hv]
    simp only [evalBin] at hv ⊢
    split at hv
    · cases hv
    · rename_i h0
      have hlt := Nat.lt_of_lt_of_le (pow2_lt hcn h0).1 i.dtype.bits_le_shiftMod
      rw [if_neg h0, udiv_pow2 _ hcn h0, shiftCount_eq hn63 hlt]
  · rw [hop, pureVal_int rfl (Bool.and_false _), opnd_int? hc] at hv
    rw [pureVal_int rfl (Bool.and_false _), opnd_mconstInt, ← hv]
    simp only [evalBin] at hv ⊢
    split at hv
    · cases hv
    · rename_i h0
      rw [if_neg h0, umod_pow2 _ hcn h0]

theorem msimp_keep_cls (h : msimp aggr op dt a0 a1 = .keep op' a1') :
    (op' = op ∧ a1' = a1) ∨ (op.cls = .pure ∧ op'.cls = .pure) := by
  rcases msimp_keep h with hsame | ⟨c, n, -, -, ⟨rfl, -, rfl, -⟩ | ⟨rfl, rfl, -⟩ | ⟨rfl, rfl, -⟩⟩
  · exact .inl hsame
  all_goals exact .inr ⟨rfl, rfl⟩

end MeuOS.Mir
