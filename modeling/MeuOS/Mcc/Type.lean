import Mathlib.Data.Int.Basic
import Mathlib.Tactic.Common
import Mathlib.Algebra.Group.Nat.Defs

namespace MeuOS.Mcc

/-!
# Integer types (`sema/type.c`, `sema/targ.c`)

* `Basic`, `BitInt`, `CType` — the integer types, and the objects that stand for them;
* `typerank`, `typepromote`, `typecommonreal` — rank, promotion and the common type;
* `Arith`, `Arith.promote`, `Arith.common` — what the language prescribes for them;
* `typecommonreal_iff` — where the two agree.
-/

/-! ### Types -/

/-- The two size models that `targinit` sets up. -/
inductive DataModel where
  | lp64
  | ilp32
  deriving DecidableEq, Repr

/-- What a target says about integer types. -/
structure Target where
  model : DataModel
  signedchar : Bool
  deriving DecidableEq, Repr

/-- The objects `typebool`, `typechar`, `typeschar` and so on. -/
inductive Basic where
  | bool
  | char
  | schar
  | uchar
  | char8
  | short (issigned : Bool)
  | int (issigned : Bool)
  | long (issigned : Bool)
  | llong (issigned : Bool)
  deriving DecidableEq, Repr

/-- A type that `mkbitinttype` returns, at an address of its own. -/
structure BitInt where
  addr : Nat
  width : Nat
  issigned : Bool
  /-- The widths that are not an error. -/
  valid : 1 + issigned.toNat ≤ width ∧ width ≤ 64
  deriving DecidableEq

/-- The integer types.  An enumerated type has an address of its own and a base. -/
inductive CType where
  | basic (b : Basic)
  | bitint (t : BitInt)
  | enum (addr : Nat) (base : Basic)
  deriving DecidableEq

/-- `size` of a basic type. -/
def Basic.size (tgt : Target) : Basic → Nat
  | .bool | .char | .schar | .uchar | .char8 => 1
  | .short _ => 2
  | .int _ => 4
  | .long _ => if tgt.model = .ilp32 then 4 else 8
  | .llong _ => 8

/-- `u.arith.width` of a basic type. -/
def Basic.width (tgt : Target) (b : Basic) : Nat := b.size tgt * 8

/-- `u.arith.issigned` of a basic type. -/
def Basic.issigned (tgt : Target) : Basic → Bool
  | .bool | .uchar | .char8 => false
  | .char => tgt.signedchar
  | .schar => true
  | .short s | .int s | .long s | .llong s => s

/-- The loop of `mkbitinttype` that finds the size; 3 turns suffice for 64 bits. -/
def growSize (width : Nat) : Nat → Nat → Nat
  | 0, size => size
  | turns + 1, size => if size * 8 < width then growSize width turns (size <<< 1) else size

/-- `size` of a `_BitInt`. -/
def BitInt.size (t : BitInt) : Nat := growSize t.width 3 1

/-- `size`. -/
def CType.size (tgt : Target) : CType → Nat
  | .basic b | .enum _ b => b.size tgt
  | .bitint t => t.size

/-- `u.arith.width`. -/
def CType.width (tgt : Target) : CType → Nat
  | .basic b | .enum _ b => b.width tgt
  | .bitint t => t.width

/-- `u.arith.issigned`. -/
def CType.issigned (tgt : Target) : CType → Bool
  | .basic b | .enum _ b => b.issigned tgt
  | .bitint t => t.issigned

/-- A `_BitInt` has the least size of 1, 2, 4 and 8 that holds its width. -/
theorem BitInt.size_cases (t : BitInt) :
    t.size = 1 ∧ t.width ≤ 8 ∨ t.size = 2 ∧ 8 < t.width ∧ t.width ≤ 16 ∨
      t.size = 4 ∧ 16 < t.width ∧ t.width ≤ 32 ∨ t.size = 8 ∧ 32 < t.width := by
  have hvalid := t.valid.2
  unfold BitInt.size
  simp only [growSize, Nat.shiftLeft_eq]
  split_ifs <;> omega

/-! ### Rank, promotion, common type -/

/-- `typerank` of a basic type. -/
def Basic.typerank (tgt : Target) : Basic → Nat
  | .bool => 0
  | .char | .schar | .uchar | .char8 => 0x081
  | .short _ => 0x101
  | .int _ => 0x201
  | .long s => ((Basic.long s).size tgt <<< 7) ||| 0x1
  | .llong _ => 0x402

/-- `typerank`. -/
def typerank (tgt : Target) : CType → Nat
  | .basic b | .enum _ b => b.typerank tgt
  | .bitint t => t.width <<< 4

/-- `typepromote`; the width is that of a bit-field, `none` for any other expression (the source
passes -1, which is above all widths). -/
def typepromote (tgt : Target) (t : CType) (width : Option Nat) : CType :=
  match t with
  | .bitint _ => t
  | .basic b | .enum _ b =>
    if b.typerank tgt ≤ (Basic.int true).typerank tgt ∨
        (∃ w ∈ width, w ≤ (Basic.int true).size tgt * 8) then
      let w := width.getD (b.size tgt * 8)
      if w - (b.issigned tgt).toNat < (Basic.int true).size tgt * 8 then .basic (.int true)
      else .basic (.int false)
    else t

/-- The end of `typecommonreal`: the unsigned type that goes with the signed one, `none` for the
internal error.  The last case is as in the source, which says `&typellong` here. -/
def counterpart : CType → Option CType
  | .basic (.int _) => some (.basic (.int false))
  | .basic (.long _) => some (.basic (.long false))
  | .basic (.llong _) => some (.basic (.llong true))
  | _ => none

/-- `typecommonreal` once `t1` is unsigned and `t2` is signed. -/
def commonMixed (tgt : Target) (t1 t2 : CType) : Option CType :=
  if typerank tgt t1 ≥ typerank tgt t2 then some t1
  else if t1.width tgt < t2.width tgt then some t2
  else counterpart t2

/-- `typecommonreal` after the promotions. -/
def commonPromoted (tgt : Target) (t1 t2 : CType) : Option CType :=
  if t1 = t2 then some t1
  else if t1.issigned tgt = t2.issigned tgt then
    some (if typerank tgt t1 > typerank tgt t2 then t1 else t2)
  else if t1.issigned tgt then commonMixed tgt t2 t1
  else commonMixed tgt t1 t2

/-- `typecommonreal` of two integer types. -/
def typecommonreal (tgt : Target) (t1 : CType) (w1 : Option Nat) (t2 : CType) (w2 : Option Nat) :
    Option CType :=
  commonPromoted tgt (typepromote tgt t1 w1) (typepromote tgt t2 w2)

/-! ### The language -/

/-- A type as the language sees it: the object that stands for it does not matter. -/
inductive Arith where
  | basic (b : Basic)
  | bitint (width : Nat) (issigned : Bool)
  deriving DecidableEq, Repr

/-- The type of which an object stands for a value: its own, or that of an enumeration's base. -/
def CType.underlying : CType → Arith
  | .basic b | .enum _ b => .basic b
  | .bitint t => .bitint t.width t.issigned

/-- The type an object is; an enumerated type is a type of its own. -/
def CType.arith : CType → Option Arith
  | .basic b => some (.basic b)
  | .bitint t => some (.bitint t.width t.issigned)
  | .enum _ _ => none

/-- The width of a type. -/
def Arith.width (tgt : Target) : Arith → Nat
  | .basic b => b.width tgt
  | .bitint w _ => w

/-- Whether a type has negative values. -/
def Arith.issigned (tgt : Target) : Arith → Bool
  | .basic b => b.issigned tgt
  | .bitint _ s => s

/-- The order of the standard types of one width. -/
def Basic.order : Basic → Nat
  | .bool => 0
  | .char | .schar | .uchar | .char8 => 1
  | .short _ => 2
  | .int _ => 3
  | .long _ => 4
  | .llong _ => 5

/-- The conversion rank: `bool` has the least, then the width decides, and a bit-precise type
ranks below the standard types of its width. -/
def Arith.rank (tgt : Target) : Arith → Nat
  | .basic .bool => 0
  | .basic b => 16 * b.width tgt + b.order
  | .bitint w _ => 16 * w

/-- The number of bits that the values of an operand take: those of the bit-field, or of the
type. -/
def Arith.valueBits (tgt : Target) (a : Arith) (bits : Option Nat) : Nat :=
  bits.getD (if a = .basic .bool then 1 else a.width tgt)

/-- Whether `int` represents all values of `w` bits: the greatest is one less than a power of two,
and the least of a signed type is minus that power. -/
def intHolds (w : Nat) (issigned : Bool) : Prop :=
  if issigned then 2 ^ (w - 1) ≤ 2 ^ 31 else 2 ^ w ≤ 2 ^ 31

instance (w : Nat) (issigned : Bool) : Decidable (intHolds w issigned) :=
  inferInstanceAs (Decidable (if issigned then _ else _))

/-- The integer promotions.  A bit-field has the integer type of its number of bits. -/
def Arith.promote (tgt : Target) (a : Arith) (bits : Option Nat) : Arith :=
  match a with
  | .bitint _ _ => a
  | .basic _ =>
    if a.rank tgt ≤ (basic (.int true)).rank tgt ∨ (∃ w ∈ bits, w ≤ 32) then
      if intHolds (a.valueBits tgt bits) (a.issigned tgt) then .basic (.int true)
      else .basic (.int false)
    else a

/-- The unsigned type that goes with a type. -/
def Arith.toUnsigned : Arith → Arith
  | .basic (.short _) => .basic (.short false)
  | .basic (.int _) => .basic (.int false)
  | .basic (.long _) => .basic (.long false)
  | .basic (.llong _) => .basic (.llong false)
  | .basic .bool => .basic .bool
  | .basic _ => .basic .uchar
  | .bitint w _ => .bitint w false

/-- The conversions of an unsigned and a signed type. -/
def Arith.mixed (tgt : Target) (u s : Arith) : Arith :=
  if s.rank tgt ≤ u.rank tgt then u
  else if u.width tgt < s.width tgt then s
  else s.toUnsigned

/-- The usual arithmetic conversions of two promoted types. -/
def Arith.common (tgt : Target) (a b : Arith) : Arith :=
  if a = b then a
  else if a.issigned tgt = b.issigned tgt then if b.rank tgt < a.rank tgt then a else b
  else if a.issigned tgt then mixed tgt b a
  else mixed tgt a b

/-- An operand: its type, and the width of the bit-field it is, if any. -/
structure Operand (tgt : Target) where
  type : CType
  bits : Option Nat
  valid : ∀ w ∈ bits, 1 ≤ w ∧ w ≤ type.width tgt

/-- The promoted type that is prescribed for an operand. -/
def Operand.promoted {tgt : Target} (o : Operand tgt) : Arith :=
  o.type.underlying.promote tgt o.bits

/-- The common type that is prescribed for two operands. -/
def prescribed {tgt : Target} (l r : Operand tgt) : Arith :=
  l.promoted.common tgt r.promoted

/-! ### Promotion -/

/-- A basic type that ranks above `int` in the source. -/
def Basic.Wide (tgt : Target) (b : Basic) : Prop :=
  b = .llong true ∨ b = .llong false ∨ tgt.model = .lp64 ∧ (b = .long true ∨ b = .long false)

/-- The source's promoted type beside the prescribed one. -/
inductive Promoted (tgt : Target) : CType → Arith → Prop where
  | int (s : Bool) : Promoted tgt (.basic (.int s)) (.basic (.int s))
  | wide (b : Basic) (h : b.Wide tgt) : Promoted tgt (.basic b) (.basic b)
  | bitint (t : BitInt) : Promoted tgt (.bitint t) (.bitint t.width t.issigned)
  | enum (addr : Nat) (b : Basic) (h : b.Wide tgt) : Promoted tgt (.enum addr b) (.basic b)
  /-- With 32 bits, `long` is taken for a type of the rank of `int`. -/
  | long (s : Bool) (h : tgt.model = .ilp32) : Promoted tgt (.basic (.int s)) (.basic (.long s))

variable {s : Bool} {tgt : Target} {b : Basic} {q q1 q2 : CType} {p p1 p2 : Arith}

theorem intHolds_iff {w : Nat} (hw : 1 ≤ w) : intHolds w s ↔ w - s.toNat < 32 := by
  unfold intHolds
  cases s
  · rw [if_neg (by decide), Nat.pow_le_pow_iff_right (by decide), Bool.toNat_false]
    omega
  · rw [if_pos rfl, Nat.pow_le_pow_iff_right (by decide), Bool.toNat_true]
    omega

/-- Both sides promote to `int` or to `unsigned int`. -/
theorem promoted_int {w w' : Nat} (h : w - s.toNat < 32 ↔ intHolds w' s) :
    Promoted tgt
      (if w - s.toNat < 32 then .basic (.int true) else .basic (.int false))
      (if intHolds w' s then .basic (.int true) else .basic (.int false)) := by
  by_cases hw : w - s.toNat < 32
  · rw [if_pos hw, if_pos (h.mp hw)]
    exact .int true
  · rw [if_neg hw, if_neg (mt h.mpr hw)]
    exact .int false

/-- Wide types rank above `int` on both sides. -/
theorem Basic.Wide.facts (h : b.Wide tgt) :
    (Basic.int true).typerank tgt < b.typerank tgt ∧
      (Arith.basic (.int true)).rank tgt < (Arith.basic b).rank tgt ∧ b.width tgt = 64 := by
  rcases h with rfl | rfl | ⟨hm, rfl | rfl⟩
  · simp [typerank, size, Arith.rank, width, order]
  · simp [typerank, size, Arith.rank, width, order]
  · simp [typerank, size, Arith.rank, width, order, hm]
  · simp [typerank, size, Arith.rank, width, order, hm]

/-- The other types rank with `int` or below; the language ranks `long` above. -/
theorem Basic.not_wide (h : ¬ b.Wide tgt) :
    b.typerank tgt ≤ (Basic.int true).typerank tgt ∧ b.width tgt ≤ 32 ∧ 1 ≤ b.width tgt ∧
      ((Arith.basic b).rank tgt ≤ (Arith.basic (.int true)).rank tgt ∨
        tgt.model = .ilp32 ∧ ∃ s, b = .long s) := by
  cases b with
  | long s =>
    have hm : tgt.model = .ilp32 := by
      cases hm : tgt.model with
      | lp64 => cases s <;> simp [Wide, hm] at h
      | ilp32 => rfl
    simp [typerank, size, width, hm]
  | llong s => cases s <;> simp [Wide] at h
  | _ => simp [typerank, size, width, Arith.rank, order]

/-- `typepromote` of a type with a basic type below it. -/
theorem promoted_basic {t : CType} {bits : Option Nat} (ht : b.Wide tgt → Promoted tgt t (.basic b))
    (hvalid : ∀ w ∈ bits, 1 ≤ w ∧ w ≤ b.width tgt) :
    Promoted tgt
      (if b.typerank tgt ≤ (Basic.int true).typerank tgt ∨
          (∃ w ∈ bits, w ≤ (Basic.int true).size tgt * 8) then
        let w := bits.getD (b.size tgt * 8)
        if w - (b.issigned tgt).toNat < (Basic.int true).size tgt * 8 then .basic (.int true)
        else .basic (.int false)
      else t)
      ((Arith.basic b).promote tgt bits) := by
  have hint : (Basic.int true).size tgt * 8 = 32 := rfl
  simp only [Arith.promote, hint]
  match bits, hvalid with
  | some w, hvalid =>
    obtain ⟨hpos, hle⟩ := hvalid w rfl
    by_cases hw : w ≤ 32
    · rw [if_pos (Or.inr ⟨w, rfl, hw⟩), if_pos (Or.inr ⟨w, rfl, hw⟩)]
      exact promoted_int (intHolds_iff hpos).symm
    · -- A bit-field of more than 32 bits has a wide type.
      have hwide : b.Wide tgt := by
        by_contra hn
        have := (Basic.not_wide hn).2.1
        omega
      obtain ⟨hcode, hlang, -⟩ := hwide.facts
      have hbits : ¬ ∃ v ∈ some w, v ≤ 32 := by
        rintro ⟨v, hv, hle⟩
        exact hw (Option.some.inj hv ▸ hle)
      rw [if_neg (not_or.mpr ⟨Nat.not_le.mpr hcode, hbits⟩),
        if_neg (not_or.mpr ⟨Nat.not_le.mpr hlang, hbits⟩)]
      exact ht hwide
  | none, _ =>
    have hbits : ¬ ∃ v ∈ (none : Option Nat), v ≤ 32 := by
      rintro ⟨v, hv, -⟩
      cases hv
    by_cases hwide : b.Wide tgt
    · obtain ⟨hcode, hlang, -⟩ := hwide.facts
      rw [if_neg (not_or.mpr ⟨Nat.not_le.mpr hcode, hbits⟩),
        if_neg (not_or.mpr ⟨Nat.not_le.mpr hlang, hbits⟩)]
      exact ht hwide
    · obtain ⟨hcode, hwidth, hpos, hlang | ⟨hm, s, rfl⟩⟩ := Basic.not_wide hwide
      · rw [if_pos (Or.inl hcode), if_pos (Or.inl hlang)]
        apply promoted_int
        dsimp only [Arith.valueBits, Option.getD_none]
        by_cases hb : b = .bool
        · subst hb
          simp [Basic.size, Basic.issigned, intHolds]
        · rw [if_neg (by simpa using hb)]
          exact (intHolds_iff hpos).symm
      · have hlang : ¬ (Arith.basic (.long s)).rank tgt ≤ (Arith.basic (.int true)).rank tgt := by
          simp [Arith.rank, Basic.width, Basic.size, Basic.order, hm]
        rw [if_pos (Or.inl hcode), if_neg (not_or.mpr ⟨hlang, hbits⟩)]
        simp only [Option.getD_none, Basic.size, hm, if_true, Basic.issigned]
        cases s
        · exact .long false hm
        · exact .long true hm

/-- `typepromote` gives the prescribed type, up to the three differences above. -/
theorem typepromote_promoted (o : Operand tgt) :
    Promoted tgt (typepromote tgt o.type o.bits) o.promoted := by
  obtain ⟨t, bits, hvalid⟩ := o
  match t with
  | .bitint t => exact .bitint t
  | .basic b => exact promoted_basic (.wide b) hvalid
  | .enum addr b => exact promoted_basic (.enum addr b) hvalid

theorem Promoted.issigned (h : Promoted tgt q p) :
    q.issigned tgt = p.issigned tgt := by
  cases h <;> rfl

theorem Promoted.width (h : Promoted tgt q p) :
    q.width tgt = p.width tgt := by
  cases h with
  | long s hm => simp [CType.width, Arith.width, Basic.width, Basic.size, hm]
  | _ => rfl

/-- The promoted types of the language: `int`, `long`, `long long` and the bit-precise types. -/
theorem Promoted.shape (h : Promoted tgt q p) :
    (∃ s, p = .basic (.int s)) ∨ (∃ s, p = .basic (.long s)) ∨ (∃ s, p = .basic (.llong s)) ∨
      ∃ w s, p = .bitint w s := by
  have hwide : ∀ b : Basic, b.Wide tgt → (∃ s, b = .long s) ∨ ∃ s, b = .llong s := by
    rintro b (rfl | rfl | ⟨-, rfl | rfl⟩)
    · exact Or.inr ⟨_, rfl⟩
    · exact Or.inr ⟨_, rfl⟩
    · exact Or.inl ⟨_, rfl⟩
    · exact Or.inl ⟨_, rfl⟩
  cases h with
  | int s => exact Or.inl ⟨s, rfl⟩
  | long s _ => exact Or.inr (Or.inl ⟨s, rfl⟩)
  | bitint t => exact Or.inr (Or.inr (Or.inr ⟨_, _, rfl⟩))
  | wide b hb | enum _ b hb =>
    rcases hwide b hb with ⟨s, rfl⟩ | ⟨s, rfl⟩
    · exact Or.inr (Or.inl ⟨s, rfl⟩)
    · exact Or.inr (Or.inr (Or.inl ⟨s, rfl⟩))

/-- One operand is promoted to `int` and the other one to a 32-bit `long`. -/
def IntAndLong (tgt : Target) (p1 p2 : Arith) : Prop :=
  tgt.model = .ilp32 ∧ ((∃ s, p1 = .basic (.int s)) ∧ (∃ s, p2 = .basic (.long s)) ∨
    (∃ s, p1 = .basic (.long s)) ∧ ∃ s, p2 = .basic (.int s))

/-- The rank of the source as a function of the prescribed type. -/
def sourceRank (tgt : Target) : Arith → Nat
  | .basic (.int _) => 0x201
  | .basic (.long _) => if tgt.model = .ilp32 then 0x201 else 0x401
  | .basic (.llong _) => 0x402
  | .basic b => b.typerank tgt
  | .bitint w _ => 16 * w

theorem Promoted.rank (h : Promoted tgt q p) :
    typerank tgt q = sourceRank tgt p := by
  have hbasic : ∀ b : Basic, b.Wide tgt → b.typerank tgt = sourceRank tgt (.basic b) := by
    rintro b (rfl | rfl | ⟨hm, rfl | rfl⟩)
    · rfl
    · rfl
    · simp [Basic.typerank, Basic.size, sourceRank, hm]
    · simp [Basic.typerank, Basic.size, sourceRank, hm]
  cases h with
  | int s => rfl
  | long s hm => simp [typerank, Basic.typerank, sourceRank, hm]
  | bitint t =>
    simp only [typerank, sourceRank, Nat.shiftLeft_eq]
    omega
  | wide b hb | enum _ b hb => exact hbasic b hb

/-- The two ranks order promoted types alike, but for `int` and a 32-bit `long`. -/
theorem sourceRank_lt_iff
    (h1 : Promoted tgt q1 p1) (h2 : Promoted tgt q2 p2) (hne : ¬ IntAndLong tgt p1 p2) :
    sourceRank tgt p1 < sourceRank tgt p2 ↔ p1.rank tgt < p2.rank tgt := by
  rcases h1.shape with ⟨s1, rfl⟩ | ⟨s1, rfl⟩ | ⟨s1, rfl⟩ | ⟨w1, s1, rfl⟩ <;>
    rcases h2.shape with ⟨s2, rfl⟩ | ⟨s2, rfl⟩ | ⟨s2, rfl⟩ | ⟨w2, s2, rfl⟩ <;>
    by_cases hm : tgt.model = .ilp32 <;>
    simp [sourceRank, Arith.rank, Basic.width, Basic.size, Basic.order, hm] <;>
    first
      | omega
      | exact hne ⟨hm, by simp⟩

/-! ### The common type -/

/-- A type that is still an enumerated one. -/
def CType.IsEnum (q : CType) : Prop := ∃ addr b, q = .enum addr b

@[simp] theorem not_isEnum_basic (b : Basic) : ¬ (CType.basic b).IsEnum := by
  rintro ⟨_, _, h⟩
  cases h

/-- A promoted type is the prescribed one unless it is enumerated or a 32-bit `long` has been lost. -/
theorem Promoted.arith_iff (h : Promoted tgt q p) :
    q.arith = some p ↔ (tgt.model = .ilp32 → ∀ s, p ≠ .basic (.long s)) ∧ ¬ q.IsEnum := by
  have hwide : ∀ b : Basic, b.Wide tgt →
      (tgt.model = .ilp32 → ∀ s, Arith.basic b ≠ .basic (.long s)) := by
    rintro b (rfl | rfl | ⟨hlp, -⟩) hm s
    · simp
    · simp
    · rw [hm] at hlp
      cases hlp
  cases h with
  | int s => simp [CType.arith, CType.IsEnum]
  | bitint t => simp [CType.arith, CType.IsEnum]
  | wide b hb => simpa [CType.arith, CType.IsEnum] using hwide b hb
  | enum addr b hb => simp [CType.arith, CType.IsEnum]
  | long s hm => simp [CType.arith, hm]

/-- Promoted types at one address are one type. -/
theorem Promoted.unique (h1 : Promoted tgt q p1)
    (h2 : Promoted tgt q p2) (hne : ¬ IntAndLong tgt p1 p2) : p1 = p2 := by
  cases h1 with
  | int s =>
    cases h2 with
    | int _ => rfl
    | wide _ _ => rfl
    | long _ hm => exact absurd ⟨hm, Or.inl ⟨⟨s, rfl⟩, s, rfl⟩⟩ hne
  | long s hm =>
    cases h2 with
    | int _ => exact absurd ⟨hm, Or.inr ⟨⟨s, rfl⟩, s, rfl⟩⟩ hne
    | wide _ hw =>
      rcases hw with hw | hw | ⟨-, hw | hw⟩ <;> cases hw
    | long _ _ => rfl
  | wide b hw =>
    cases h2 with
    | long s _ =>
      rcases hw with hw | hw | ⟨-, hw | hw⟩ <;> cases hw
    | _ => rfl
  | bitint t => cases h2; rfl
  | enum addr b _ => cases h2; rfl

/-- The condition under which the source's common type is the prescribed one: a 32-bit `long` is
not the result; an enumerated type that promotion leaves alone is not chosen; and where the result
is the unsigned counterpart of a signed operand, this operand is not `long long`, and no operand is
enumerated. -/
structure Agrees (tgt : Target) (q1 q2 : CType) (p1 p2 result : Arith) : Prop where
  long : tgt.model = .ilp32 → ∀ s, result ≠ .basic (.long s)
  second : q2.IsEnum → result ≠ p2
  first : q1.IsEnum → result = p1 → result = p2
  neither : result ≠ p1 → result ≠ p2 →
    result ≠ .basic (.llong false) ∧ ¬ q1.IsEnum ∧ ¬ q2.IsEnum

/-- The source returns an object for the type. -/
def Returns (r : Option CType) (p : Arith) : Prop := ∃ t, r = some t ∧ t.arith = some p

theorem returns_some {t : CType} : Returns (some t) p ↔ t.arith = some p := by
  simp [Returns]

section choice

variable {tgt : Target} {q1 q2 : CType} {p1 p2 : Arith}

/-- The result is the second operand's type. -/
theorem agrees_second (h2 : Promoted tgt q2 p2) :
    Returns (some q2) p2 ↔ Agrees tgt q1 q2 p1 p2 p2 := by
  rw [returns_some, h2.arith_iff]
  constructor
  · rintro ⟨hlong, henum⟩
    exact ⟨hlong, fun he => absurd he henum, fun _ _ => rfl, fun _ hn => absurd rfl hn⟩
  · intro h
    exact ⟨h.long, fun he => h.second he rfl⟩

/-- The result is the first operand's type, and not the second's. -/
theorem agrees_first (h1 : Promoted tgt q1 p1) (hne : p1 ≠ p2) :
    Returns (some q1) p1 ↔ Agrees tgt q1 q2 p1 p2 p1 := by
  rw [returns_some, h1.arith_iff]
  constructor
  · rintro ⟨hlong, henum⟩
    exact ⟨hlong, fun _ => hne, fun he => absurd he henum, fun hn => absurd rfl hn⟩
  · intro h
    exact ⟨h.long, fun he => hne (h.first he rfl)⟩

/-- The condition for the unsigned counterpart of a signed operand. -/
def CounterpartAgrees (tgt : Target) (q1 q2 : CType) (result : Arith) : Prop :=
  (tgt.model = .ilp32 → ∀ s, result ≠ .basic (.long s)) ∧
    result ≠ .basic (.llong false) ∧ ¬ q1.IsEnum ∧ ¬ q2.IsEnum

/-- Where the counterpart of a signed operand is prescribed, it is the type of neither. -/
theorem counterpart_new (h1 : Promoted tgt q1 p1) (h2 : Promoted tgt q2 p2)
    (hs : p2.issigned tgt = true) (hrank : p1.rank tgt < p2.rank tgt) :
    p2.toUnsigned ≠ p1 ∧ p2.toUnsigned ≠ p2 := by
  rcases h2.shape with ⟨s, rfl⟩ | ⟨s, rfl⟩ | ⟨s, rfl⟩ | ⟨w, s, rfl⟩ <;>
    obtain rfl : s = true := hs <;>
    refine ⟨?_, by simp [Arith.toUnsigned]⟩ <;>
    rintro rfl <;>
    exact absurd hrank (lt_irrefl _)

/-- An unsigned operand below a signed one that is no wider is not enumerated, unless the signed
one is `long long`. -/
theorem not_isEnum_below (h1 : Promoted tgt q1 p1) (hu : p1.issigned tgt = false)
    (hrank : p1.rank tgt < p2.rank tgt)
    (h2 : p2 = .basic (.int true) ∨ tgt.model = .lp64 ∧ p2 = .basic (.long true)) :
    ¬ q1.IsEnum := by
  rintro ⟨addr, b, rfl⟩
  cases h1 with
  | enum _ _ hw =>
    rcases h2 with rfl | ⟨hm, rfl⟩ <;> rcases hw with rfl | rfl | ⟨hm', rfl | rfl⟩ <;>
      simp_all [Arith.rank, Basic.width, Basic.size, Basic.order]

/-- The result is the unsigned counterpart of the signed operand. -/
theorem agrees_counterpart (h1 : Promoted tgt q1 p1) (h2 : Promoted tgt q2 p2)
    (hu : p1.issigned tgt = false) (hs : p2.issigned tgt = true)
    (hrank : p1.rank tgt < p2.rank tgt) (hwidth : p2.width tgt ≤ p1.width tgt) :
    Returns (counterpart q2) p2.toUnsigned ↔ CounterpartAgrees tgt q1 q2 p2.toUnsigned := by
  unfold CounterpartAgrees
  cases h2 with
  | int s =>
    obtain rfl : s = true := hs
    have hq1 := not_isEnum_below h1 hu hrank (Or.inl rfl)
    simp [counterpart, returns_some, CType.arith, Arith.toUnsigned, hq1]
  | wide b hb =>
    rcases hb with rfl | rfl | ⟨hm, rfl | rfl⟩
    · simp [counterpart, returns_some, CType.arith, Arith.toUnsigned]
    · exact absurd hs (by simp [Arith.issigned, Basic.issigned])
    · have hq1 := not_isEnum_below h1 hu hrank (Or.inr ⟨hm, rfl⟩)
      simp [counterpart, returns_some, CType.arith, Arith.toUnsigned, hq1, hm]
    · exact absurd hs (by simp [Arith.issigned, Basic.issigned])
  | bitint t =>
    -- A bit-precise type ranks above nothing of its width.
    exfalso
    rcases h1.shape with ⟨s, rfl⟩ | ⟨s, rfl⟩ | ⟨s, rfl⟩ | ⟨w, s, rfl⟩ <;>
      simp only [Arith.rank, Arith.width] at hrank hwidth <;> omega
  | enum addr b hb => simp [counterpart, Returns, CType.IsEnum]
  | long s hm =>
    obtain rfl : s = true := hs
    simp [counterpart, returns_some, CType.arith, Arith.toUnsigned, hm]

/-- An unsigned and a signed operand. -/
theorem mixed_iff (h1 : Promoted tgt q1 p1) (h2 : Promoted tgt q2 p2)
    (hu : p1.issigned tgt = false) (hs : p2.issigned tgt = true)
    (hlt : sourceRank tgt p1 < sourceRank tgt p2 ↔ p1.rank tgt < p2.rank tgt) :
    Returns (commonMixed tgt q1 q2) (p1.mixed tgt p2)
      ↔ Agrees tgt q1 q2 p1 p2 (p1.mixed tgt p2) := by
  have hne : p1 ≠ p2 := by
    rintro rfl
    rw [hs] at hu
    cases hu
  unfold commonMixed Arith.mixed
  rw [h1.rank, h2.rank, h1.width, h2.width]
  by_cases hrank : p1.rank tgt < p2.rank tgt
  · rw [if_neg (Nat.not_le.mpr (hlt.mpr hrank)), if_neg (Nat.not_le.mpr hrank)]
    by_cases hwidth : p1.width tgt < p2.width tgt
    · rw [if_pos hwidth, if_pos hwidth]
      exact agrees_second h2
    · rw [if_neg hwidth, if_neg hwidth]
      obtain ⟨hne1, hne2⟩ := counterpart_new h1 h2 hs hrank
      rw [agrees_counterpart h1 h2 hu hs hrank (Nat.le_of_not_lt hwidth)]
      constructor
      · rintro ⟨hlong, hrest⟩
        exact ⟨hlong, fun _ => hne2, fun _ h => absurd h hne1, fun _ _ => hrest⟩
      · intro h
        exact ⟨h.long, h.neither hne1 hne2⟩
  · rw [if_pos (Nat.le_of_not_lt (mt hlt.mp hrank)), if_pos (Nat.le_of_not_lt hrank)]
    exact agrees_first h1 hne

end choice

/-- The condition does not depend on the order of two different types. -/
theorem Agrees.swap {result : Arith} (hne : p1 ≠ p2) :
    Agrees tgt q1 q2 p1 p2 result ↔ Agrees tgt q2 q1 p2 p1 result := by
  have hswap : ∀ {q1 q2 : CType} {p1 p2 : Arith}, p1 ≠ p2 → Agrees tgt q1 q2 p1 p2 result →
      Agrees tgt q2 q1 p2 p1 result := by
    intro q1 q2 p1 p2 hne h
    refine ⟨h.long, fun he hr => ?_, fun he hr => absurd hr (h.second he), fun h2 h1 => ?_⟩
    · exact hne (hr.symm.trans (h.first he hr))
    · obtain ⟨hllong, he1, he2⟩ := h.neither h1 h2
      exact ⟨hllong, he2, he1⟩
  exact ⟨hswap hne, hswap hne.symm⟩

/-- The one object that a 32-bit `long` is promoted to. -/
theorem Promoted.lost (hm : tgt.model = .ilp32)
    (h : Promoted tgt q (.basic (.long s))) : q = .basic (.int s) := by
  have hnot : ¬ (Basic.long s).Wide tgt := by
    rintro (h | h | ⟨h, -⟩)
    · cases h
    · cases h
    · rw [hm] at h
      cases h
  cases h with
  | wide _ hw => exact absurd hw hnot
  | enum _ _ hw => exact absurd hw hnot
  | long _ _ => rfl

theorem Promoted.of_int (h : Promoted tgt q (.basic (.int s))) : q = .basic (.int s) := by
  have hnot : ¬ (Basic.int s).Wide tgt := by
    rintro (h | h | ⟨-, h | h⟩) <;> cases h
  cases h with
  | int _ => rfl
  | wide _ hw => exact absurd hw hnot
  | enum _ _ hw => exact absurd hw hnot

/-- `int` and a 32-bit `long`: a `long` is prescribed, and the source has `int` for both. -/
theorem intAndLong_iff
    (h1 : Promoted tgt q1 p1) (h2 : Promoted tgt q2 p2) (h : IntAndLong tgt p1 p2) :
    Returns (commonPromoted tgt q1 q2) (p1.common tgt p2)
      ↔ Agrees tgt q1 q2 p1 p2 (p1.common tgt p2) := by
  obtain ⟨hm, hcase⟩ := h
  have hresult : ∃ s, p1.common tgt p2 = .basic (.long s) := by
    rcases hcase with ⟨⟨s1, rfl⟩, s2, rfl⟩ | ⟨⟨s1, rfl⟩, s2, rfl⟩ <;>
      cases s1 <;> cases s2 <;>
      simp [Arith.common, Arith.mixed, Arith.issigned, Basic.issigned, Arith.rank, Arith.width,
        Basic.width, Basic.size, Basic.order, Arith.toUnsigned, hm]
  have hcode : ∃ s, commonPromoted tgt q1 q2 = some (.basic (.int s)) := by
    have hq : ∀ s1 s2, ∃ s,
        commonPromoted tgt (.basic (.int s1)) (.basic (.int s2)) = some (.basic (.int s)) := by
      intro s1 s2
      cases s1 <;> cases s2 <;>
        simp [commonPromoted, commonMixed, CType.issigned, Basic.issigned, typerank,
          Basic.typerank]
    rcases hcase with ⟨⟨s1, rfl⟩, s2, rfl⟩ | ⟨⟨s1, rfl⟩, s2, rfl⟩
    · rw [h1.of_int, h2.lost hm]
      exact hq s1 s2
    · rw [h1.lost hm, h2.of_int]
      exact hq s1 s2
  obtain ⟨s, hs⟩ := hresult
  obtain ⟨s', hs'⟩ := hcode
  rw [hs, hs', returns_some]
  constructor
  · intro h
    exact absurd h (by simp [CType.arith])
  · intro h
    exact absurd rfl (h.long hm s)

/-- `typecommonreal` of promoted types. -/
theorem commonPromoted_iff (h1 : Promoted tgt q1 p1) (h2 : Promoted tgt q2 p2) :
    Returns (commonPromoted tgt q1 q2) (p1.common tgt p2)
      ↔ Agrees tgt q1 q2 p1 p2 (p1.common tgt p2) := by
  by_cases hil : IntAndLong tgt p1 p2
  · exact intAndLong_iff h1 h2 hil
  have hil' : ¬ IntAndLong tgt p2 p1 := fun h => hil ⟨h.1, h.2.symm.imp And.symm And.symm⟩
  have hlt := sourceRank_lt_iff h1 h2 hil
  have hgt := sourceRank_lt_iff h2 h1 hil'
  unfold commonPromoted Arith.common
  rw [h1.issigned, h2.issigned, h1.rank, h2.rank]
  by_cases hp : p1 = p2
  · -- Both operands have one type: the second one's object is returned, which may be the first.
    subst hp
    rw [if_pos rfl, if_pos rfl, if_neg (lt_irrefl _)]
    have hcode : (if q1 = q2 then some q1 else some q2) = some q2 := by
      by_cases hq : q1 = q2
      · rw [if_pos hq, hq]
      · rw [if_neg hq]
    rw [hcode]
    exact agrees_second h2
  · have hq : q1 ≠ q2 := by
      rintro rfl
      exact hp (h1.unique h2 hil)
    rw [if_neg hq, if_neg hp]
    by_cases hsign : p1.issigned tgt = p2.issigned tgt
    · rw [if_pos hsign, if_pos hsign]
      by_cases hrank : p2.rank tgt < p1.rank tgt
      · rw [if_pos (hgt.mpr hrank), if_pos hrank]
        exact agrees_first h1 hp
      · rw [if_neg (mt hgt.mp hrank), if_neg hrank]
        exact agrees_second h2
    · rw [if_neg hsign, if_neg hsign]
      cases hs : p1.issigned tgt with
      | true =>
        have hs2 : p2.issigned tgt = false := by
          rw [hs] at hsign
          simpa using hsign
        rw [if_pos rfl, if_pos rfl, Agrees.swap hp]
        exact mixed_iff h2 h1 hs2 hs hgt
      | false =>
        have hs2 : p2.issigned tgt = true := by
          rw [hs] at hsign
          simpa using hsign
        rw [if_neg (by decide), if_neg (by decide)]
        exact mixed_iff h1 h2 hs hs2 hlt

/-- The source's common type of two operands is the prescribed one. -/
def CommonCorrect {tgt : Target} (l r : Operand tgt) : Prop :=
  Returns (typecommonreal tgt l.type l.bits r.type r.bits) (prescribed l r)

/-- The condition for it, on the operands. -/
def CommonAgrees {tgt : Target} (l r : Operand tgt) : Prop :=
  Agrees tgt (typepromote tgt l.type l.bits) (typepromote tgt r.type r.bits) l.promoted r.promoted
    (prescribed l r)

theorem typecommonreal_iff (l r : Operand tgt) :
    CommonCorrect l r ↔ CommonAgrees l r :=
  commonPromoted_iff (typepromote_promoted l) (typepromote_promoted r)

/-- Promoted types of one rank and signedness are one type. -/
theorem Promoted.rank_inj (h1 : Promoted tgt q1 p1) (h2 : Promoted tgt q2 p2)
    (hsign : p1.issigned tgt = p2.issigned tgt) (hrank : p1.rank tgt = p2.rank tgt) :
    p1 = p2 := by
  rcases h1.shape with ⟨s1, rfl⟩ | ⟨s1, rfl⟩ | ⟨s1, rfl⟩ | ⟨w1, s1, rfl⟩ <;>
    rcases h2.shape with ⟨s2, rfl⟩ | ⟨s2, rfl⟩ | ⟨s2, rfl⟩ | ⟨w2, s2, rfl⟩ <;>
    obtain rfl : s1 = s2 := hsign <;>
    simp only [Arith.rank, Basic.width, Basic.order] at hrank <;>
    first
      | rfl
      | omega
      | exact congrArg (Arith.bitint · s1) (by omega)

/-- What the language prescribes does not depend on the order of the operands. -/
theorem prescribed_comm (l r : Operand tgt) : prescribed l r = prescribed r l := by
  have hinj := (typepromote_promoted l).rank_inj (typepromote_promoted r)
  unfold prescribed Arith.common
  generalize l.promoted = p1 at hinj ⊢
  generalize r.promoted = p2 at hinj ⊢
  by_cases hp : p1 = p2
  · rw [hp]
  rw [if_neg hp, if_neg (Ne.symm hp)]
  by_cases hsign : p1.issigned tgt = p2.issigned tgt
  · rw [if_pos hsign, if_pos hsign.symm]
    rcases Nat.lt_trichotomy (p1.rank tgt) (p2.rank tgt) with h | h | h
    · rw [if_neg (Nat.not_lt_of_lt h), if_pos h]
    · exact absurd (hinj hsign h) hp
    · rw [if_pos h, if_neg (Nat.not_lt_of_lt h)]
  · rw [if_neg hsign, if_neg (Ne.symm hsign)]
    cases hs : p1.issigned tgt <;> cases hs' : p2.issigned tgt <;> simp_all

end MeuOS.Mcc
