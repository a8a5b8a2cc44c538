import MeuOS.Lib.Decimal
import MeuOS.Libc.NumberText
import MeuOS.Libc.Snprintf
import Mathlib.Tactic.FinCases

namespace MeuOS.Libc

open MeuOS.Lib List

/-!
# Integer conversions (`stdio/fmt_out.c`, C99 7.19.6.1)

* `Directive` — a directive of `d`, `i`, `u`, `x`, `X` or `o` with its arguments;
* `Directive.standard` — the characters that the standard prescribes for it;
* `readSpec_text`, `vformat_printed` — what the formatter reads and prints;
* `Directive.Meets` — the condition on a directive and its arguments;
* `output_standard_iff` — the characters are the prescribed ones exactly under the condition.
-/

/-! ### Directives -/

/-- The flag characters. -/
inductive FlagChar where
  | minus
  | plus
  | space
  | hash
  | zero
  deriving DecidableEq

/-- A flag in the text of a directive. -/
def FlagChar.byte : FlagChar → UInt8
  | .minus => Libc.byte '-'
  | .plus => Libc.byte '+'
  | .space => Libc.byte ' '
  | .hash => Libc.byte '#'
  | .zero => Libc.byte '0'

/-- A width, `*` with its argument.  A digit 0 at its front would be a flag. -/
inductive FieldWidth where
  | star (w : Int)
  | digits (ds : List (Fin 10)) (hds : ds.head? ≠ some 0)

/-- A precision, `*` with its argument. -/
inductive FieldPrecision where
  | none
  | star (p : Int)
  | digits (ds : List (Fin 10))

/-- The length modifiers. -/
inductive IntLength where
  | none
  | h
  | hh
  | l
  | ll
  | z
  deriving DecidableEq

/-- The conversions of integers. -/
inductive IntConversion where
  | d
  | i
  | u
  | x
  | X
  | o
  deriving DecidableEq

/-- A directive that converts an integer, with its arguments. -/
structure Directive where
  flags : List FlagChar
  width : FieldWidth
  precision : FieldPrecision
  length : IntLength
  conversion : IntConversion
  /-- The argument that is converted. -/
  value : Int

/-- The number that digits stand for behind `n`. -/
def decimalFrom (n : Nat) (ds : List (Fin 10)) : Nat := digitsAfter n (ds.map Fin.val)

/-- Digits in the text of a directive. -/
def digitBytes (ds : List (Fin 10)) : Bytes := ds.map fun d => digitByte d

def FieldWidth.text : FieldWidth → Bytes
  | .star _ => [byte '*']
  | .digits ds _ => digitBytes ds

def FieldWidth.args : FieldWidth → List VaArg
  | .star w => [.word w]
  | .digits _ _ => []

/-- The width that is meant; a negative one stands for its absolute value. -/
def FieldWidth.value : FieldWidth → Nat
  | .star w => (asInt w).natAbs
  | .digits ds _ => decimalFrom 0 ds

/-- A negative width stands for the flag `-` as well. -/
def FieldWidth.left : FieldWidth → Bool
  | .star w => decide (asInt w < 0)
  | .digits _ _ => false

def FieldPrecision.text : FieldPrecision → Bytes
  | .none => []
  | .star _ => [byte '.', byte '*']
  | .digits ds => byte '.' :: digitBytes ds

def FieldPrecision.args : FieldPrecision → List VaArg
  | .star p => [.word p]
  | _ => []

/-- The precision that is meant; a negative one is as if there were none. -/
def FieldPrecision.value : FieldPrecision → Option Nat
  | .none => Option.none
  | .star p => if asInt p < 0 then Option.none else some (asInt p).toNat
  | .digits ds => some (decimalFrom 0 ds)

def IntLength.text : IntLength → Bytes
  | .none => []
  | .h => [byte 'h']
  | .hh => [byte 'h', byte 'h']
  | .l => [byte 'l']
  | .ll => [byte 'l', byte 'l']
  | .z => [byte 'z']

/-- The bits of the type that the modifier names. -/
def IntLength.bits : IntLength → Nat
  | .none => 32
  | .h => 16
  | .hh => 8
  | .l => 64
  | .ll => 64
  | .z => 64

def IntConversion.byte : IntConversion → UInt8
  | .d => Libc.byte 'd'
  | .i => Libc.byte 'i'
  | .u => Libc.byte 'u'
  | .x => Libc.byte 'x'
  | .X => Libc.byte 'X'
  | .o => Libc.byte 'o'

/-- `d` and `i` convert signed integers. -/
def IntConversion.isSigned : IntConversion → Bool
  | .d => true
  | .i => true
  | _ => false

def IntConversion.base : IntConversion → Nat
  | .o => 8
  | .x => 16
  | .X => 16
  | _ => 10

namespace Directive

/-- The text of a directive behind its `%`. -/
def text (d : Directive) : Bytes :=
  d.flags.map FlagChar.byte ++
    (d.width.text ++ (d.precision.text ++ (d.length.text ++ [d.conversion.byte])))

/-- The arguments of a directive. -/
def args (d : Directive) : List VaArg := d.width.args ++ (d.precision.args ++ [.word d.value])

/-! ### What the standard prescribes -/

/-- An argument as a number of so many bits. -/
def asBits (d : Directive) (bits : Nat) : Int :=
  if d.conversion.isSigned then d.value.bmod (2 ^ bits) else d.value % 2 ^ bits

/-- The number that is printed: the argument converted to the type that the modifier names. -/
def number (d : Directive) : Int := d.asBits d.length.bits

/-- The flag `-`, or a negative width. -/
def left (d : Directive) : Bool := decide (.minus ∈ d.flags) || d.width.left

/-- The flag `0`, which a precision switches off. -/
def zero (d : Directive) : Bool := decide (.zero ∈ d.flags) && d.precision.value.isNone

/-- A sign: `-`, or what the flags ask for before a number that is not negative. -/
def sign (d : Directive) : List Int :=
  if d.number < 0 then [code '-']
  else if d.conversion.isSigned then
    if .plus ∈ d.flags then [code '+'] else if .space ∈ d.flags then [code ' '] else []
  else []

/-- The prefix of a hexadecimal number that is not 0, with the flag `#`. -/
def mark (d : Directive) : List Int :=
  if .hash ∈ d.flags ∧ d.number ≠ 0 then
    match d.conversion with
    | .x => [code '0', code 'x']
    | .X => [code '0', code 'X']
    | _ => []
  else []

/-- The digits: as many as the precision says at least, which is 1 without one. -/
def digits (d : Directive) : List Int :=
  body d.conversion.base (decide (d.conversion = .X)) d.number.natAbs (d.precision.value.getD 1)

/-- The digits; with the flag `#` an octal number gets a 0 in front if it does not begin with
    one. -/
def shown (d : Directive) : List Int :=
  if .hash ∈ d.flags ∧ d.conversion = .o ∧ d.digits.head? ≠ some (code '0') then
    code '0' :: d.digits
  else d.digits

/-- The characters that the standard prescribes for a directive. -/
def standard (d : Directive) : List Int :=
  layout d.left d.zero d.width.value d.sign d.mark d.shown

/-! ### The condition -/

/-- The number that the formatter takes from the arguments: no modifier makes it narrower than an
    `int`. -/
def passed (d : Directive) : Int := d.asBits (max 32 d.length.bits)

/-- When the formatter prints what the standard prescribes. -/
structure Meets (d : Directive) : Prop where
  /-- An `int` can count the characters. -/
  counted : d.standard.length < 2 ^ 31
  /-- The argument of `h` or `hh` is a number of that type already. -/
  value : d.passed = d.number
  /-- Where the flag space asks for a space before the number, the padding has one there: the field
      is wider than the number, it is not filled with zeros, and the number stands at its right end
      or has no digits. -/
  space : d.sign = [code ' '] →
    d.digits.length < d.width.value ∧ d.zero = false ∧ (d.left = true → d.digits = [])
  /-- Where the flag `#` asks an octal number for a 0 in front, the precision does not put one
      there already, and a zero has a digit. -/
  octal : .hash ∈ d.flags → d.conversion = .o →
    if d.number = 0 then d.precision.value ≠ some 0
    else d.precision.value.getD 1 ≤ (Nat.digits 8 d.number.natAbs).length

end Directive

/-! ### Reading a directive -/

/-- The flags of a directive, with those that have been read before. -/
def Flags.with (flags : Flags) (fs : List FlagChar) : Flags where
  left := flags.left || decide (.minus ∈ fs)
  plus := flags.plus || decide (.plus ∈ fs)
  space := flags.space || decide (.space ∈ fs)
  alt := flags.alt || decide (.hash ∈ fs)
  zero := flags.zero || decide (.zero ∈ fs)

/-- A text that does not begin with a flag. -/
def NoFlag (text : Bytes) : Prop := ∀ c ∈ text.head?, ∀ flags : Flags, flags.set c = Option.none

theorem readFlags_text (fs : List FlagChar) {rest : Bytes} (hrest : NoFlag rest) (flags : Flags) :
    readFlags flags (fs.map FlagChar.byte ++ rest) = (flags.with fs, rest) := by
  induction fs generalizing flags with
  | nil =>
    have hwith : flags.with [] = flags := by simp [Flags.with]
    rw [hwith, map_nil, nil_append]
    cases rest with
    | nil => rfl
    | cons c rest =>
      unfold readFlags
      rw [hrest c rfl flags]
  | cons f fs ih =>
    have hset : ∃ flags', flags.set f.byte = some flags' ∧
        flags'.with fs = flags.with (f :: fs) := by
      cases f <;> refine ⟨_, rfl, ?_⟩ <;> simp [Flags.with]
    obtain ⟨flags', hset, hwith⟩ := hset
    rw [map_cons, cons_append]
    unfold readFlags
    rw [hset, ← hwith]
    exact ih flags'

theorem digitByte_decimal (d : Fin 10) :
    isDecimal (digitByte d) = true ∧ signedChar (digitByte d) - code '0' = (d : Nat) := by
  revert d
  decide

/-- The digits of a width or a precision are read as far as an `int` holds their number. -/
theorem readNumber_digits (ds : List (Fin 10)) (rest : Bytes)
    (hrest : ∀ c ∈ rest.head?, isDecimal c = false) {n : Nat} (hn : (n : Int) ≤ intMax) :
    readNumber n (digitBytes ds ++ rest) =
      if (decimalFrom n ds : Int) ≤ intMax then some ((decimalFrom n ds : Int), rest)
      else none := by
  induction ds generalizing n with
  | nil =>
    show readNumber n rest = if (n : Int) ≤ intMax then some ((n : Int), rest) else none
    rw [if_pos hn]
    cases rest with
    | nil => rfl
    | cons c rest =>
      unfold readNumber
      rw [if_neg (by simp [hrest c rfl])]
  | cons d ds ih =>
    obtain ⟨hdecimal, hvalue⟩ := digitByte_decimal d
    have hnext : (n : Int) * 10 + (signedChar (digitByte d) - code '0') =
        ((n * 10 + d : Nat) : Int) := by
      rw [hvalue]
      push_cast
      rfl
    show readNumber n (digitByte d :: (digitBytes ds ++ rest)) =
      if (decimalFrom (n * 10 + d) ds : Int) ≤ intMax then
        some ((decimalFrom (n * 10 + d) ds : Int), rest) else none
    unfold readNumber
    rw [if_pos hdecimal]
    dsimp only
    rw [hnext]
    by_cases hmax : intMax < ((n * 10 + d : Nat) : Int)
    · have hle : n * 10 + d ≤ decimalFrom (n * 10 + d) ds := le_digitsAfter _ _
      rw [if_pos hmax, if_neg (by omega)]
    · rw [if_neg hmax]
      exact ih (by omega)

theorem tail_head (len : IntLength) (c : IntConversion) :
    ∃ b rest, len.text ++ [c.byte] = b :: rest ∧ isDecimal b = false ∧
      (∀ flags : Flags, flags.set b = none) ∧ b ≠ byte '.' ∧ b ≠ byte '*' := by
  cases len <;> cases c <;> exact ⟨_, _, rfl, rfl, fun _ => rfl, by decide, by decide⟩

/-- What follows the width begins with no digit and no flag. -/
theorem afterWidth_head (p : FieldPrecision) (len : IntLength) (c : IntConversion) :
    ∃ b rest, p.text ++ (len.text ++ [c.byte]) = b :: rest ∧ isDecimal b = false ∧
      (∀ flags : Flags, flags.set b = none) ∧ b ≠ byte '*' := by
  obtain ⟨b, rest, htail, hdecimal, hset, _, hstar⟩ := tail_head len c
  cases p with
  | none => exact ⟨b, rest, htail, hdecimal, hset, hstar⟩
  | star p => exact ⟨byte '.', _, rfl, rfl, fun _ => rfl, by decide⟩
  | digits ds => exact ⟨byte '.', _, rfl, rfl, fun _ => rfl, by decide⟩

theorem noFlag_width (w : FieldWidth) (p : FieldPrecision) (len : IntLength) (c : IntConversion) :
    NoFlag (w.text ++ (p.text ++ (len.text ++ [c.byte]))) := by
  cases w with
  | star w =>
    intro b hb flags
    obtain rfl : byte '*' = b := Option.some.inj hb
    rfl
  | digits ds hds =>
    cases ds with
    | nil =>
      obtain ⟨b, rest, htext, _, hset, _⟩ := afterWidth_head p len c
      intro b' hb' flags
      rw [show FieldWidth.text (.digits [] hds) = [] from rfl, nil_append, htext] at hb'
      cases hb'
      exact hset flags
    | cons d ds =>
      -- The first digit is not the flag 0.
      have hd : d ≠ 0 := fun h => hds (congrArg some h)
      intro b hb flags
      obtain rfl : digitByte d = b := Option.some.inj hb
      revert hd
      fin_cases d <;> first | exact fun h => absurd rfl h | exact fun _ => rfl

theorem asInt_le (v : Int) : asInt v ≤ intMax := by
  have hlt := Int.bmod_lt (x := v) (m := 2 ^ 32) (by decide)
  have h31 : (((2 ^ 32 : Nat) : Int) + 1) / 2 = intMax + 1 := by decide
  unfold asInt
  omega

/-- Digits and what follows them do not begin with a `*`. -/
theorem digits_head {b : UInt8} (hb : b ≠ byte '*') (ds : List (Fin 10)) (tail : Bytes) :
    (digitBytes ds ++ b :: tail).head? ≠ some (byte '*') := by
  intro h
  cases ds with
  | nil => exact hb (Option.some.inj h)
  | cons d ds =>
    have hd : digitByte d = byte '*' := Option.some.inj h
    have hdigit := (digitByte_decimal d).1
    rw [hd] at hdigit
    cases hdigit

/-- A width is read as far as an `int` holds it. -/
theorem readWidth_text (w : FieldWidth) (flags : Flags) {rest : Bytes} (after : List VaArg)
    (hrest : ∃ b tail, rest = b :: tail ∧ isDecimal b = false ∧ b ≠ byte '*') :
    readWidth flags (w.text ++ rest) (w.args ++ after) =
      if (w.value : Int) ≤ intMax then
        some ({ flags with left := flags.left || w.left }, (w.value : Int), rest, after)
      else none := by
  obtain ⟨b, tail, rfl, hdecimal, hstar⟩ := hrest
  cases w with
  | star w =>
    have hmax := asInt_le w
    show (if asInt w < 0 then
        if intMax < -asInt w then none
        else some ({ flags with left := true }, -asInt w, b :: tail, after)
      else some (flags, asInt w, b :: tail, after)) =
      if (((asInt w).natAbs : Nat) : Int) ≤ intMax then
        some ({ flags with left := flags.left || decide (asInt w < 0) },
          (((asInt w).natAbs : Nat) : Int), b :: tail, after)
      else none
    by_cases hneg : asInt w < 0
    · rw [if_pos hneg, show (((asInt w).natAbs : Nat) : Int) = -asInt w by omega]
      by_cases hfits : intMax < -asInt w
      · rw [if_pos hfits, if_neg (by omega)]
      · rw [if_neg hfits, if_pos (by omega)]
        simp [hneg]
    · rw [if_neg hneg, show (((asInt w).natAbs : Nat) : Int) = asInt w by omega, if_pos hmax]
      simp [hneg]
  | digits ds hds =>
    show readWidth flags (digitBytes ds ++ b :: tail) after = _
    unfold readWidth
    rw [if_neg (digits_head hstar ds tail)]
    have hread := readNumber_digits ds (b :: tail)
      (fun c hc => (Option.some.inj hc) ▸ hdecimal) (n := 0) (by decide)
    rw [show ((0 : Nat) : Int) = 0 from rfl] at hread
    rw [hread]
    show _ = if (decimalFrom 0 ds : Int) ≤ intMax then
      some ({ flags with left := flags.left || false }, (decimalFrom 0 ds : Int), b :: tail,
        after)
      else none
    rw [Bool.or_false]
    split <;> rfl

/-- What is read of a precision. -/
def FieldPrecision.read : FieldPrecision → Int
  | .none => -1
  | .star p => asInt p
  | .digits ds => decimalFrom 0 ds

/-- A precision is read as far as an `int` holds it. -/
theorem readPrecision_text (p : FieldPrecision) {rest : Bytes} (after : List VaArg)
    (hrest : ∃ b tail, rest = b :: tail ∧ isDecimal b = false ∧ b ≠ byte '.' ∧ b ≠ byte '*') :
    readPrecision (p.text ++ rest) (p.args ++ after) =
      if p.read ≤ intMax then some (p.read, rest, after) else none := by
  obtain ⟨b, tail, rfl, hdecimal, hdot, hstar⟩ := hrest
  cases p with
  | none =>
    show readPrecision (b :: tail) after = _
    unfold readPrecision
    rw [if_neg (show (b :: tail).head? ≠ some (byte '.') from fun h => hdot (Option.some.inj h))]
    rfl
  | star p =>
    show readPrecision (byte '.' :: byte '*' :: b :: tail) (.word p :: after) = _
    show some (asInt p, b :: tail, after) =
      if asInt p ≤ intMax then some (asInt p, b :: tail, after) else none
    rw [if_pos (asInt_le p)]
  | digits ds =>
    show readPrecision (byte '.' :: (digitBytes ds ++ b :: tail)) after = _
    unfold readPrecision FieldPrecision.read
    rw [if_pos (show (byte '.' :: (digitBytes ds ++ b :: tail)).head? = some (byte '.') from rfl),
      tail_cons, if_neg (digits_head hstar ds tail)]
    have hread := readNumber_digits ds (b :: tail)
      (fun c hc => (Option.some.inj hc) ▸ hdecimal) (n := 0) (by decide)
    rw [show ((0 : Nat) : Int) = 0 from rfl] at hread
    rw [hread]
    split <;> rfl

/-- The formatter's number for a modifier. -/
def IntLength.number : IntLength → Nat
  | .none => 0
  | .h => 5
  | .hh => 6
  | .l => 1
  | .ll => 2
  | .z => 3

theorem readLength_text (len : IntLength) (c : IntConversion) :
    readLength (len.text ++ [c.byte]) = (len.number, [c.byte]) := by
  cases len <;> cases c <;> rfl

namespace Directive

/-- What the formatter reads of a directive. -/
def spec (d : Directive) : Spec where
  flags := { Flags.none.with d.flags with left := decide (.minus ∈ d.flags) || d.width.left }
  width := d.width.value
  precision := d.precision.read
  length := d.length.number
  conversion := d.conversion.byte

/-- The width and the precision fit an `int`. -/
def Readable (d : Directive) : Prop := (d.width.value : Int) ≤ intMax ∧ d.precision.read ≤ intMax

instance (d : Directive) : Decidable d.Readable :=
  inferInstanceAs (Decidable ((d.width.value : Int) ≤ intMax ∧ d.precision.read ≤ intMax))

/-- A directive is read as far as an `int` holds its width and its precision. -/
theorem readSpec_text (d : Directive) :
    readSpec d.text d.args =
      if d.Readable then some (d.spec, [], [.word d.value]) else none := by
  obtain ⟨b, tail, htail, hdecimal, hset, hdot, hstar⟩ := tail_head d.length d.conversion
  obtain ⟨b', tail', htail', hdecimal', _, hstar'⟩ :=
    afterWidth_head d.precision d.length d.conversion
  unfold readSpec text args
  rw [readFlags_text d.flags (noFlag_width d.width d.precision d.length d.conversion)]
  dsimp only
  rw [readWidth_text d.width _ _ ⟨b', tail', htail', hdecimal', hstar'⟩]
  by_cases hwidth : (d.width.value : Int) ≤ intMax
  · rw [if_pos hwidth]
    dsimp only [bind, Option.bind]
    rw [readPrecision_text d.precision _ ⟨b, tail, htail, hdecimal, hdot, hstar⟩]
    by_cases hprecision : d.precision.read ≤ intMax
    · rw [if_pos hprecision, if_pos (show d.Readable from ⟨hwidth, hprecision⟩)]
      dsimp only
      rw [readLength_text]
      rfl
    · rw [if_neg hprecision, if_neg (fun h : d.Readable => hprecision h.2)]
  · rw [if_neg hwidth, if_neg (fun h : d.Readable => hwidth h.1)]
    rfl

/-! ### What is printed -/

/-- What the formatter asks to print for a directive. -/
def numberArgs (d : Directive) : NumberArgs :=
  if d.conversion.isSigned then signedNumber d.spec (signedArg d.length.number d.value)
  else unsignedNumber d.spec (unsignedArg d.length.number d.value)

/-- What is printed for a directive; `none` where that is undefined. -/
def printed (d : Directive) : Option (List Int) :=
  if d.Readable then numberText d.numberArgs else none

theorem convert_number (d : Directive) (floats : FloatText) {σ : Type} (put : Put σ)
    (s : PrintSink σ) :
    convert floats put s d.spec [.word d.value] =
      sinkNumber put s d.numberArgs >>= leaving [] := by
  obtain ⟨flags, width, precision, length, conversion, value⟩ := d
  cases conversion <;> rfl

/-- The formatter sends what is printed. -/
theorem vformat_printed (d : Directive) (floats : FloatText) {σ : Type} (put : Put σ)
    (s : PrintSink σ) :
    vformat floats put s d.args (byte '%' :: d.text) =
      match d.printed with
      | some text => sinkPuts put s text
      | none => .error .undefined := by
  have hread := d.readSpec_text
  unfold printed
  by_cases hreadable : d.Readable
  · rw [if_pos hreadable] at hread
    rw [vformat_directive floats put s hread, if_pos hreadable, convert_number, sinkNumber_emits,
      bind_assoc]
    cases numberText d.numberArgs with
    | none => rfl
    | some text =>
      dsimp only
      cases sinkPuts put s text with
      | error e => rfl
      | ok s' => exact vformat_nil floats put s' []
  · rw [if_neg hreadable] at hread
    rw [vformat_undefined floats put s hread, if_neg hreadable]

/-- The digits of the number that is passed. -/
def passedDigits (d : Directive) : List Int :=
  body d.conversion.base (decide (d.conversion = .X)) d.passed.natAbs (d.precision.value.getD 1)

/-- The sign that is printed: never a space. -/
def passedSign (d : Directive) : List Int :=
  if d.passed < 0 then [code '-']
  else if d.conversion.isSigned ∧ .plus ∈ d.flags then [code '+'] else []

/-- The prefix that is printed. -/
def passedMark (d : Directive) : List Int :=
  if .hash ∈ d.flags ∧ d.passed ≠ 0 then
    match d.conversion with
    | .x => [code '0', code 'x']
    | .X => [code '0', code 'X']
    | .o => [code '0']
    | _ => []
  else []

/-- The layout that is printed. -/
def passedLayout (d : Directive) : List Int :=
  layout d.left d.zero d.width.value d.passedSign d.passedMark d.passedDigits

theorem signedArg_eq (len : IntLength) (v : Int) :
    signedArg len.number v = v.bmod (2 ^ max 32 len.bits) := by
  cases len <;> rfl

theorem unsignedArg_eq (len : IntLength) (v : Int) :
    (unsignedArg len.number v : Int) = v % 2 ^ max 32 len.bits := by
  have h32 : (0 : Int) ≤ v % 2 ^ 32 := Int.emod_nonneg v (by decide)
  have h64 : (0 : Int) ≤ v % 2 ^ 64 := Int.emod_nonneg v (by decide)
  cases len <;> first | exact Int.toNat_of_nonneg h32 | exact Int.toNat_of_nonneg h64

/-- A precision switches the flag `0` off. -/
theorem isNone_value (p : FieldPrecision) : p.value.isNone = !decide (p.read ≥ 0) := by
  cases p with
  | none => rfl
  | star p =>
    unfold FieldPrecision.value FieldPrecision.read
    by_cases hneg : asInt p < 0
    · simp [hneg]
    · simp [hneg, Int.not_lt.mp hneg]
  | digits ds => simp [FieldPrecision.value, FieldPrecision.read]

/-- The least number of digits that a precision asks for. -/
theorem leastOf_read (p : FieldPrecision) : leastOf p.read = p.value.getD 1 := by
  cases p with
  | none => rfl
  | star p =>
    show (if asInt p < 0 then 1 else (asInt p).toNat) =
      (if asInt p < 0 then none else some (asInt p).toNat).getD 1
    split <;> rfl
  | digits ds =>
    show (if (decimalFrom 0 ds : Int) < 0 then 1 else (decimalFrom 0 ds : Int).toNat) = _
    rw [if_neg (by omega)]
    rfl

/-- What the formatter asks to print, in the words of the directive. -/
theorem numberArgs_eq (d : Directive) :
    d.numberArgs =
      { value := d.passed.natAbs, base := d.conversion.base, width := d.width.value,
        zero := d.zero, negative := decide (d.passed < 0), mark := d.passedMark, left := d.left,
        plus := d.conversion.isSigned && decide (.plus ∈ d.flags), minDigits := d.precision.read,
        upper := decide (d.conversion = .X) } := by
  have hzero : d.zero = (decide (FlagChar.zero ∈ d.flags) && !decide (d.precision.read ≥ 0)) := by
    rw [← isNone_value]
    rfl
  unfold numberArgs
  cases hsigned : d.conversion.isSigned with
  | true =>
    have hpassed : signedArg d.length.number d.value = d.passed := by
      rw [signedArg_eq, passed, asBits, if_pos hsigned]
    have hmark : d.passedMark = [] := by
      unfold passedMark
      revert hsigned
      cases d.conversion <;> intro hsigned <;>
        first | exact absurd hsigned (by decide) | exact ite_self []
    have hbase : d.conversion.base = 10 ∧ decide (d.conversion = .X) = false := by
      revert hsigned
      cases d.conversion <;> intro hsigned <;>
        first | exact absurd hsigned (by decide) | exact ⟨rfl, rfl⟩
    have hvalue : (if d.passed < 0 then (-(d.passed + 1)).toNat + 1 else d.passed.toNat) =
        d.passed.natAbs := by
      split <;> omega
    rw [if_pos rfl, hpassed, hmark, hbase.1, hbase.2, hzero, ← hvalue]
    simp [signedNumber, spec, Flags.with, Flags.none, left]
  | false =>
    have hpassed : (unsignedArg d.length.number d.value : Int) = d.passed := by
      rw [unsignedArg_eq, passed, asBits, if_neg (by simp [hsigned])]
    have hnat : unsignedArg d.length.number d.value = d.passed.natAbs := by omega
    have hnonneg : ¬ d.passed < 0 := by omega
    have hmark : unsignedMark d.spec d.passed.natAbs = d.passedMark := by
      have halt : (d.spec.flags.alt = true ∧ d.passed.natAbs ≠ 0) ↔
          (FlagChar.hash ∈ d.flags ∧ d.passed ≠ 0) := by
        simp [spec, Flags.with, Flags.none]
      unfold unsignedMark passedMark
      simp only [halt]
      congr 1
      unfold spec
      cases d.conversion <;> rfl
    have hbase : unsignedBase d.spec.conversion = d.conversion.base ∧
        decide (d.spec.conversion = byte 'X') = decide (d.conversion = .X) := by
      unfold spec
      revert hsigned
      cases d.conversion <;> intro hsigned <;>
        first | exact absurd hsigned (by decide) | exact ⟨rfl, rfl⟩
    rw [if_neg (by simp), hnat]
    unfold unsignedNumber
    rw [hmark, hbase.1, hbase.2, hzero]
    simp [spec, Flags.with, Flags.none, left, hnonneg]

/-! ### The length of what is printed -/

theorem base_bounds (c : IntConversion) : 8 ≤ c.base ∧ c.base ≤ 16 := by
  cases c <;> decide

theorem natAbs_bmod_le (v : Int) (m : Nat) (hm : 0 < m) : (v.bmod m).natAbs ≤ m := by
  have hlt := Int.bmod_lt (x := v) hm
  have hle := Int.le_bmod (x := v) hm
  omega

/-- A number fits the array of digits. -/
theorem natAbs_asBits (d : Directive) {bits : Nat} (hbits : bits ≤ 64) :
    (d.asBits bits).natAbs < d.conversion.base ^ digitsSize := by
  have hpow : (2 : Nat) ^ bits ≤ 2 ^ 64 := Nat.pow_le_pow_right (by decide) hbits
  have hpos : (0 : Nat) < 2 ^ bits := Nat.pow_pos (by decide)
  have hle : (d.asBits bits).natAbs ≤ 2 ^ bits := by
    unfold asBits
    split
    · exact natAbs_bmod_le d.value _ hpos
    · have hcast : (2 : Int) ^ bits = ((2 ^ bits : Nat) : Int) := by push_cast; rfl
      have hlt := Int.emod_lt_of_pos d.value (show (0 : Int) < 2 ^ bits by omega)
      have hnonneg := Int.emod_nonneg d.value (show (2 : Int) ^ bits ≠ 0 by omega)
      omega
  have hroom : (2 : Nat) ^ 64 < d.conversion.base ^ digitsSize :=
    Nat.lt_of_lt_of_le (show 2 ^ 64 < 8 ^ digitsSize by decide)
      (Nat.pow_le_pow_left (base_bounds d.conversion).1 _)
  omega

theorem bits_le (len : IntLength) : len.bits ≤ 64 ∧ max 32 len.bits ≤ 64 := by
  cases len <;> decide

theorem signText_numberArgs (d : Directive) : d.numberArgs.signText = d.passedSign := by
  rw [numberArgs_eq]
  unfold NumberArgs.signText passedSign
  simp

/-- A directive is printed as its layout, as far as an `int` counts it. -/
theorem printed_eq (d : Directive) :
    d.printed = if d.passedLayout.length < 2 ^ 31 then some d.passedLayout else none := by
  have hmax : intMax = 2 ^ 31 - 1 := rfl
  have hbase := base_bounds d.conversion
  have hvalue := d.natAbs_asBits (bits_le d.length).2
  have hbody : d.precision.value.getD 1 ≤ d.passedDigits.length := by
    unfold passedDigits
    rw [length_body]
    exact Nat.le_max_left _ _
  -- A readable precision is at most the number of digits.
  have hread : d.precision.read ≤ (d.precision.value.getD 1 : Nat) := by
    rw [← leastOf_read]
    unfold leastOf
    split <;> omega
  have hlength : d.passedLayout.length < 2 ^ 31 ↔ d.width.value < 2 ^ 31 ∧
      d.passedSign.length + d.passedMark.length + d.passedDigits.length < 2 ^ 31 := by
    unfold passedLayout
    rw [length_layout]
    exact Nat.max_lt
  have htext : numberText d.numberArgs =
      if ((d.passedSign.length + d.passedMark.length + d.passedDigits.length : Nat) : Int) ≤ intMax
      then some d.passedLayout else none := by
    have hsign := d.signText_numberArgs
    rw [numberText_eq, hsign]
    all_goals rw [numberArgs_eq]
    · dsimp only
      rw [leastOf_read]
      rfl
    · dsimp only
      omega
    · exact hbase.2
    · exact hvalue
    · exact Int.natCast_nonneg _
  unfold printed
  rw [htext]
  by_cases hfits : d.width.value < 2 ^ 31 ∧
      d.passedSign.length + d.passedMark.length + d.passedDigits.length < 2 ^ 31
  · have hreadable : d.Readable := ⟨by omega, by omega⟩
    rw [if_pos (hlength.mpr hfits), if_pos hreadable, if_pos (by omega)]
  · rw [if_neg (mt hlength.mp hfits)]
    by_cases hreadable : d.Readable
    · have hwidth := hreadable.1
      rw [if_pos hreadable, if_neg (by omega)]
    · rw [if_neg hreadable]

/-! ### What is printed and what is prescribed -/

theorem base_gt (c : IntConversion) : 1 < c.base ∧ c.base ≤ 16 := by
  cases c <;> decide

/-- The case of a directive's digits. -/
abbrev upper (d : Directive) : Bool := decide (d.conversion = .X)

theorem sign_front (d : Directive) : ∀ c ∈ d.sign, digitWorth d.upper c = none := by
  unfold sign
  split_ifs <;> cases d.upper <;> decide

theorem passedSign_front (d : Directive) : ∀ c ∈ d.passedSign, digitWorth d.upper c = none := by
  unfold passedSign
  split_ifs <;> cases d.upper <;> decide

theorem mark_front (d : Directive) :
    ∀ c ∈ d.mark, digitWorth d.upper c = none ∨ digitWorth d.upper c = some 0 := by
  unfold mark upper
  split_ifs
  · cases d.conversion <;> decide
  · exact fun c hc => absurd hc not_mem_nil

theorem passedMark_front (d : Directive) :
    ∀ c ∈ d.passedMark, digitWorth d.upper c = none ∨ digitWorth d.upper c = some 0 := by
  unfold passedMark upper
  split_ifs
  · cases d.conversion <;> decide
  · exact fun c hc => absurd hc not_mem_nil

/-- The printed text stands for the number that is passed. -/
theorem worth_passedLayout (d : Directive) :
    worth d.conversion.base d.upper d.passedLayout = d.passed.natAbs := by
  apply worth_layout
  · intro c hc
    rcases mem_append.mp hc with hc | hc
    · exact Or.inl (d.passedSign_front c hc)
    · exact d.passedMark_front c hc
  · exact worth_body (base_gt d.conversion).1 (base_gt d.conversion).2 d.upper _ _

/-- The prescribed text stands for the number of the narrow type. -/
theorem worth_standard (d : Directive) :
    worth d.conversion.base d.upper d.standard = d.number.natAbs := by
  have hdigits : worthFrom d.conversion.base d.upper 0 d.digits = d.number.natAbs :=
    worth_body (base_gt d.conversion).1 (base_gt d.conversion).2 d.upper _ _
  apply worth_layout
  · intro c hc
    rcases mem_append.mp hc with hc | hc
    · exact Or.inl (d.sign_front c hc)
    · exact d.mark_front c hc
  · unfold shown
    split
    · have hzero : digitWorth d.upper (code '0') = some 0 := rfl
      rw [worthFrom_cons, hzero]
      simpa using hdigits
    · exact hdigits

/-- The printed text has a minus sign before a negative number. -/
theorem minus_mem_passedLayout (d : Directive) : code '-' ∈ d.passedLayout ↔ d.passed < 0 := by
  have hmark : code '-' ∉ d.passedMark := by
    unfold passedMark
    split_ifs
    · cases d.conversion <;> decide
    · decide
  have hdigits : code '-' ∉ d.passedDigits := fun h =>
    mem_body (base_gt d.conversion).1 (base_gt d.conversion).2 h (digitWorth_minus d.upper)
  unfold passedLayout
  rw [mem_layout (by decide) (fun _ => by decide)]
  simp only [hmark, hdigits, or_false]
  unfold passedSign
  split_ifs with hneg hplus
  · simp [hneg]
  · exact iff_of_false (by decide) hneg
  · exact iff_of_false (by decide) hneg

/-- The prescribed text has a minus sign before a negative number. -/
theorem minus_mem_standard (d : Directive) : code '-' ∈ d.standard ↔ d.number < 0 := by
  have hmark : code '-' ∉ d.mark := by
    unfold mark
    split_ifs
    · cases d.conversion <;> decide
    · decide
  have hdigits : code '-' ∉ d.digits := fun h =>
    mem_body (base_gt d.conversion).1 (base_gt d.conversion).2 h (digitWorth_minus d.upper)
  have hshown : code '-' ∉ d.shown := by
    unfold shown
    split
    · intro h
      rcases mem_cons.mp h with h | h
      · cases h
      · exact hdigits h
    · exact hdigits
  unfold standard
  rw [mem_layout (by decide) (fun _ => by decide)]
  simp only [hmark, hshown, or_false]
  unfold sign
  split_ifs with hneg hsigned hplus hspace
  · simp [hneg]
  · exact iff_of_false (by decide) hneg
  · exact iff_of_false (by decide) hneg
  · exact iff_of_false (by decide) hneg
  · exact iff_of_false (by decide) hneg

/-- Texts that agree stand for the same number. -/
theorem passed_eq_number {d : Directive} (h : d.passedLayout = d.standard) :
    d.passed = d.number := by
  have hworth := d.worth_passedLayout
  have hminus := d.minus_mem_passedLayout
  rw [h] at hworth hminus
  have habs := d.worth_standard.symm.trans hworth
  have hsign := d.minus_mem_standard.symm.trans hminus
  omega

/-! ### The number is the same -/

section same

variable {d : Directive}

theorem digits_of_same (hsame : d.passed = d.number) : d.passedDigits = d.digits := by
  unfold passedDigits digits
  rw [hsame]

theorem sign_of_same (hsame : d.passed = d.number) :
    d.passedSign = d.sign ∨ d.sign = [code ' '] ∧ d.passedSign = [] := by
  unfold passedSign sign
  rw [hsame]
  split_ifs <;> simp_all

/-- The prefixes differ where an octal number has one. -/
theorem mark_of_same (hsame : d.passed = d.number) (hoctal : d.conversion ≠ .o) :
    d.passedMark = d.mark ∧ d.shown = d.digits := by
  refine ⟨?_, ?_⟩
  · unfold passedMark mark
    rw [hsame]
    congr 1
    revert hoctal
    cases d.conversion <;> intro hoctal <;> first | rfl | exact absurd rfl hoctal
  · unfold shown
    rw [if_neg (fun h => hoctal h.2.1)]

theorem mark_of_signed (hsigned : d.conversion.isSigned = true) : d.mark = [] := by
  unfold mark
  revert hsigned
  cases d.conversion <;> intro hsigned <;>
    first | exact absurd hsigned (by decide) | exact ite_self []

/-- A sign stands before signed numbers only. -/
theorem sign_of_octal (hsame : d.passed = d.number) (hoctal : d.conversion = .o) :
    d.sign = [] ∧ d.passedSign = [] := by
  have hnonneg : ¬ d.number < 0 := by
    have h := Int.emod_nonneg d.value (show (2 : Int) ^ d.length.bits ≠ 0 by
      cases d.length <;> decide)
    unfold number asBits
    rw [hoctal, if_neg (by decide)]
    omega
  unfold sign passedSign
  rw [hsame, if_neg hnonneg, if_neg hnonneg, hoctal]
  exact ⟨rfl, rfl⟩

theorem signed_of_space (h : d.sign = [code ' ']) : d.conversion.isSigned = true := by
  unfold sign at h
  split_ifs at h with _ hsigned
  all_goals first | exact hsigned | cases h

theorem zero_of_precision {p : Nat} (h : d.precision.value = some p) : d.zero = false := by
  unfold zero
  rw [h]
  simp

theorem digit_ne_space {c : Int} (hc : c ∈ d.digits) : c ≠ code ' ' := by
  rintro rfl
  exact mem_body (base_gt d.conversion).1 (base_gt d.conversion).2 hc (digitWorth_space d.upper)

/-- Without a precision a number has digits. -/
theorem digits_ne_nil (h : d.zero = true) : d.digits ≠ [] := by
  have hnone : d.precision.value = none := by
    unfold zero at h
    simp only [Bool.and_eq_true, Option.isNone_iff_eq_none] at h
    exact h.2
  have hlen := length_body d.conversion.base d.upper d.number.natAbs 1
  intro hnil
  unfold digits at hnil
  rw [hnone] at hnil
  rw [show body d.conversion.base d.upper d.number.natAbs 1 = [] from hnil] at hlen
  rw [length_nil] at hlen
  omega

/-- Decimal and hexadecimal numbers are printed as prescribed except for a space that is asked
    for. -/
theorem layout_iff_space (hsame : d.passed = d.number) (hoctal : d.conversion ≠ .o) :
    d.passedLayout = d.standard ↔
      (d.sign = [code ' '] →
        d.digits.length < d.width.value ∧ d.zero = false ∧ (d.left = true → d.digits = [])) := by
  obtain ⟨hmark, hshown⟩ := mark_of_same hsame hoctal
  unfold passedLayout standard
  rw [digits_of_same hsame, hmark, hshown]
  rcases sign_of_same hsame with hsign | ⟨hspace, hnone⟩
  · rw [hsign]
    refine iff_of_true rfl fun hspace => ?_
    -- No space is ever printed for a sign.
    rw [← hsign] at hspace
    unfold passedSign at hspace
    split_ifs at hspace <;> cases hspace
  · rw [hspace, hnone, mark_of_signed (signed_of_space hspace)]
    rw [layout_space_iff (fun c hc => digit_ne_space hc) digits_ne_nil]
    exact ⟨fun h _ => h, fun h => h rfl⟩

/-- Octal numbers are printed as prescribed except for the 0 in front that the precision has put
    there already, or that a zero lacks. -/
theorem layout_iff_octal (hsame : d.passed = d.number) (hoctal : d.conversion = .o) :
    d.passedLayout = d.standard ↔
      (.hash ∈ d.flags →
        if d.number = 0 then d.precision.value ≠ some 0
        else d.precision.value.getD 1 ≤ (Nat.digits 8 d.number.natAbs).length) := by
  obtain ⟨hsign, hpassed⟩ := sign_of_octal hsame hoctal
  have hmark : d.mark = [] := by
    unfold mark
    rw [hoctal]
    exact ite_self []
  have hbase : d.conversion.base = 8 := by rw [hoctal]; rfl
  unfold passedLayout standard
  rw [digits_of_same hsame, hsign, hpassed, hmark]
  by_cases hhash : FlagChar.hash ∈ d.flags
  swap
  · have hnone : d.passedMark = [] := if_neg fun h => hhash h.1
    have hshown : d.shown = d.digits := if_neg fun h => hhash h.1
    rw [hnone, hshown]
    exact iff_of_true rfl fun h => absurd h hhash
  have hshown : d.shown = if d.digits.head? ≠ some (code '0') then code '0' :: d.digits
      else d.digits := by
    unfold shown
    simp only [hhash, hoctal, true_and]
  have honly : ∀ P : Prop, (FlagChar.hash ∈ d.flags → P) ↔ P :=
    fun P => ⟨fun h => h hhash, fun h _ => h⟩
  rw [honly]
  by_cases hzero : d.number = 0
  · -- A zero is so many zeros as the precision says.
    have hnone : d.passedMark = [] := by
      unfold passedMark
      rw [if_neg (fun h => h.2 (hsame.trans hzero))]
    have hdigits : d.digits = List.replicate (d.precision.value.getD 1) (code '0') := by
      unfold digits
      rw [hzero]
      exact body_zero _ _ _
    rw [if_pos hzero, hnone, hshown]
    by_cases hprecision : d.precision.value = some 0
    · rw [hdigits, hprecision]
      refine iff_of_false ?_ (fun h => h rfl)
      intro h
      have hmem : code '0' ∈ layout d.left d.zero d.width.value [] [] [code '0'] := by
        rw [mem_layout (by decide) (fun hz => by
          rw [zero_of_precision hprecision] at hz
          exact absurd hz (by decide))]
        simp
      rw [← show layout d.left d.zero d.width.value [] [] [] =
        layout d.left d.zero d.width.value [] [] [code '0'] from h] at hmem
      rw [mem_layout (by decide) (fun hz => by
        rw [zero_of_precision hprecision] at hz
        exact absurd hz (by decide))] at hmem
      simp at hmem
    · have hpos : ∃ k, d.precision.value.getD 1 = k + 1 := by
        cases hp : d.precision.value with
        | none => exact ⟨0, rfl⟩
        | some p =>
          cases p with
          | zero => exact absurd hp hprecision
          | succ k => exact ⟨k, rfl⟩
      obtain ⟨k, hk⟩ := hpos
      rw [hdigits, hk, replicate_succ, if_neg (by simp)]
      exact iff_of_true rfl hprecision
  · have hone : d.passedMark = [code '0'] := by
      unfold passedMark
      rw [if_pos ⟨hhash, fun h => hzero (hsame.symm.trans h)⟩, hoctal]
    rw [if_neg hzero, hone, hshown]
    by_cases hshort : d.precision.value.getD 1 ≤ (Nat.digits 8 d.number.natAbs).length
    · have hdigits : d.digits = digitsText 8 d.upper d.number.natAbs := by
        unfold digits
        rw [hbase]
        exact body_short hshort
      rw [hdigits, if_pos (head_digitsText (by decide) (by decide) _), layout_mark_zero]
      exact iff_of_true rfl hshort
    · have hhead : d.digits.head? = some (code '0') := by
        unfold digits
        rw [hbase]
        exact body_long (by omega)
      -- The precision is given: a number has at least one digit.
      have hfill : d.zero = false := by
        have hlen : 0 < (Nat.digits 8 d.number.natAbs).length :=
          length_pos_iff.mpr (Nat.digits_ne_nil_iff_ne_zero.mpr (by omega))
        cases hp : d.precision.value with
        | none =>
          rw [hp] at hshort
          exact absurd (show (none : Option Nat).getD 1 ≤ _ from hlen) hshort
        | some p => exact zero_of_precision hp
      rw [if_neg (fun h => h hhead), hfill]
      refine iff_of_false ?_ hshort
      intro h
      have hcount := congrArg (List.countP (· ≠ code ' ')) h
      have hzeros : [code '0'].countP (· ≠ code ' ') = 1 := by decide
      rw [countP_layout, countP_layout, hzeros, countP_nil] at hcount
      omega

end same

/-- A text is the output of a directive exactly where it is what is printed. -/
theorem output_iff_printed (floats : FloatText) (d : Directive) (text : List Int) :
    Output floats (byte '%' :: d.text) d.args text ↔ d.printed = some text := by
  constructor
  · intro h
    have hruns : ∀ (σ : Type) (put : Put σ) (s : PrintSink σ),
        (match d.printed with
          | some text => sinkPuts put s text
          | none => .error .undefined) = sinkPuts put s text :=
      fun σ put s => (d.vformat_printed floats put s).symm.trans (h σ put s)
    have hkept := hruns (List Int) record { context := [], total := 0 }
    rw [record_puts _ _ (by decide)] at hkept
    have hprinted := d.printed_eq
    by_cases hlen : d.passedLayout.length < 2 ^ 31
    · -- A sink that keeps everything tells the texts apart.
      have hmax : intMax = 2 ^ 31 - 1 := rfl
      rw [if_pos hlen] at hprinted
      rw [hprinted] at hkept ⊢
      dsimp only at hkept
      rw [record_puts _ _ (by decide), if_pos (by dsimp only; omega)] at hkept
      split_ifs at hkept
      have hcontext : [] ++ d.passedLayout = [] ++ text :=
        congrArg PrintSink.context (Except.ok.inj hkept)
      exact congrArg some hcontext
    · -- A sink that refuses everything tells a text from what is undefined.
      rw [if_neg hlen] at hprinted
      have hrefused := hruns Unit (fun _ _ => ((), eof)) { context := (), total := 0 }
      rw [hprinted] at hrefused
      cases text with
      | nil => cases hrefused
      | cons c text =>
        rw [sinkPuts_cons, sinkPut, if_pos rfl] at hrefused
        cases hrefused
  · intro h σ put s
    rw [vformat_printed, h]

/-- What is printed is what is prescribed exactly under the condition. -/
theorem printed_standard_iff (d : Directive) : d.printed = some d.standard ↔ d.Meets := by
  rw [printed_eq]
  constructor
  · intro h
    split_ifs at h with hlen
    have htext := Option.some.inj h
    have hsame := passed_eq_number htext
    refine ⟨htext ▸ hlen, hsame, ?_, ?_⟩
    · intro hspace
      have hoctal : d.conversion ≠ .o := by
        intro ho
        rw [(sign_of_octal hsame ho).1] at hspace
        cases hspace
      exact (layout_iff_space hsame hoctal).mp htext hspace
    · intro hhash hoctal
      exact (layout_iff_octal hsame hoctal).mp htext hhash
  · intro h
    have htext : d.passedLayout = d.standard := by
      by_cases hoctal : d.conversion = .o
      · exact (layout_iff_octal h.value hoctal).mpr fun hhash => h.octal hhash hoctal
      · exact (layout_iff_space h.value hoctal).mpr h.space
    rw [htext, if_pos h.counted]

/-- **Integer conversions.**  The characters of a directive are those that the standard prescribes,
    for every flag, width, precision, modifier and value, exactly under the condition. -/
theorem output_standard_iff (floats : FloatText) (d : Directive) :
    Output floats (byte '%' :: d.text) d.args d.standard ↔ d.Meets :=
  (d.output_iff_printed floats d.standard).trans d.printed_standard_iff

/-- `"%hd"` with the argument 65536. -/
def shortOverflow : Directive where
  flags := []
  width := .digits [] (by decide)
  precision := .none
  length := .h
  conversion := .d
  value := 65536

/-- `printf("%hd", 65536)` prescribes `0`, which is not what is printed. -/
theorem shortOverflow_output :
    shortOverflow.text = [byte 'h', byte 'd'] ∧ shortOverflow.standard = [code '0'] ∧
      ¬ Output noFloats (byte '%' :: shortOverflow.text) shortOverflow.args
        shortOverflow.standard := by
  refine ⟨rfl, ?_, ?_⟩
  · have hnumber : shortOverflow.number = 0 := by decide
    have hdigits : shortOverflow.digits = [code '0'] := by
      unfold digits
      rw [hnumber]
      exact body_zero _ _ _
    have hshown : shortOverflow.shown = [code '0'] := by
      unfold shown
      rw [hdigits]
      rfl
    unfold standard
    rw [hshown]
    decide
  · rw [output_iff_printed, printed_standard_iff]
    intro h
    exact absurd h.value (by decide)

end Directive

end MeuOS.Libc
