import MeuOS.Lib.Bytes

namespace MeuOS.Libc

open MeuOS.Lib

/-!
# The formatter behind `printf` (`stdio/fmt_out.c`)

A directive is read from the format, its argument is taken, and its characters go one by one
through the `put` of a sink.  `char` is signed; integers have the sizes of the 64-bit targets; a
signed sum that an `int` cannot hold is undefined.

* `PrintSink`, `sinkPut`, `sinkRepeat`, `sinkNumber` — the sink and what writes to it;
* `Spec`, `readSpec` — a directive;
* `convert`, `vformat` — the conversions and the loop;
* `Emission` — the characters that a program sends to a sink that takes everything;
* `sinkNumber_emits` — whatever the sink is, a number feeds it the same characters, up to the first
  that it refuses.
-/

/-! ### Characters -/

/-- A character of the source as a byte. -/
def byte (c : Char) : UInt8 := UInt8.ofNat c.toNat

/-- A character of the source as an `int`. -/
def code (c : Char) : Int := c.toNat

/-- A `char` as an `int`. -/
def signedChar (b : UInt8) : Int := (b.toNat : Int).bmod 256

/-- `INT_MAX`. -/
def intMax : Int := 2147483647

/-! ### Sinks -/

/-- `struct __meuos_print_sink`; its `put` is a parameter of what writes to it. -/
structure PrintSink (σ : Type) where
  /-- What `put` works on. -/
  context : σ
  /-- The characters it has taken. -/
  total : Int

/-- `put`: what becomes of the context, and the character or `EOF`. -/
abbrev Put (σ : Type) := σ → Int → σ × Int

/-- Why a program does not go on writing. -/
inductive Stop (σ : Type) where
  /-- The sink has refused a character: −1 is returned. -/
  | failed (s : PrintSink σ)
  /-- The behaviour is undefined. -/
  | undefined

/-- The outcome of a program that writes to a sink. -/
abbrev Writes (σ : Type) := Except (Stop σ)

/-- The integers of `EOF`. -/
def eof : Int := -1

section sink

variable {σ : Type} (put : Put σ)

/-- `__meuos_sink_put`. -/
def sinkPut (s : PrintSink σ) (character : Int) : Writes σ (PrintSink σ) :=
  let taken := put s.context character
  if taken.2 = eof then .error (.failed { s with context := taken.1 })
  else if s.total = intMax then .error .undefined
  else .ok { context := taken.1, total := s.total + 1 }

/-- The characters of a text, one by one. -/
def sinkPuts (s : PrintSink σ) (text : List Int) : Writes σ (PrintSink σ) :=
  text.foldlM (sinkPut put) s

/-- `__meuos_sink_repeat` with so many turns left. -/
def repeatLoop (character : Int) : Nat → PrintSink σ → Writes σ (PrintSink σ)
  | 0, s => .ok s
  | count + 1, s => sinkPut put s character >>= repeatLoop character count

/-- `__meuos_sink_repeat`. -/
def sinkRepeat (s : PrintSink σ) (character count : Int) : Writes σ (PrintSink σ) :=
  repeatLoop put character count.toNat s

/-! ### Numbers -/

/-- The character of a digit. -/
def digitCode (upper : Bool) (digit : Nat) : Int :=
  if digit < 10 then code '0' + digit else (if upper then code 'A' else code 'a') + digit - 10

/-- The loop that writes the digits of a number from the end of the array on, with so much room
    left; `none` is a write before the array. -/
def digitLoop (base : Nat) (upper : Bool) : Nat → Nat → List Int → Option (List Int)
  | 0, _, _ => none
  | room + 1, value, cursor =>
    let cursor := digitCode upper (value % base) :: cursor
    if value / base = 0 then some cursor else digitLoop base upper room (value / base) cursor

/-- `sizeof(value) * 3`. -/
def digitsSize : Nat := 24

/-- What `__meuos_sink_number` is asked to print. -/
structure NumberArgs where
  value : Nat
  base : Nat
  width : Int
  zero : Bool
  negative : Bool
  /-- The prefix before the digits. -/
  mark : List Int
  left : Bool
  plus : Bool
  minDigits : Int
  upper : Bool

/-- The sign of a number, 0 for none. -/
def NumberArgs.sign (a : NumberArgs) : Int :=
  if a.negative then code '-' else if a.plus then code '+' else 0

/-- The digits of a number that are printed: none where a zero has the precision 0. -/
def NumberArgs.shown (a : NumberArgs) (cursor : List Int) : List Int :=
  if a.minDigits = 0 ∧ cursor.length = 1 ∧ cursor.head? = some (code '0') then [] else cursor

/-- `ndigits`. -/
def NumberArgs.ndigits (a : NumberArgs) (shown : List Int) : Int :=
  if shown.length < a.minDigits then a.minDigits else shown.length

/-- `content`. -/
def NumberArgs.content (a : NumberArgs) (shown : List Int) : Int :=
  a.ndigits shown + a.mark.length + if a.sign ≠ 0 then 1 else 0

/-- `pad`. -/
def NumberArgs.pad (a : NumberArgs) (shown : List Int) : Int :=
  if a.width > a.content shown then a.width - a.content shown else 0

/-- `__meuos_sink_number`. -/
def sinkNumber (s : PrintSink σ) (a : NumberArgs) : Writes σ (PrintSink σ) :=
  match digitLoop a.base a.upper digitsSize a.value [] with
  | none => .error .undefined
  | some cursor =>
    let shown := a.shown cursor
    if intMax < a.content shown then .error .undefined
    else do
      let s ← (if !a.left && !a.zero then sinkRepeat put s (code ' ') (a.pad shown) else .ok s)
      let s ← (if a.sign ≠ 0 then sinkPut put s a.sign else .ok s)
      let s ← sinkPuts put s a.mark
      let s ← (if a.zero && !a.left then sinkRepeat put s (code '0') (a.pad shown) else .ok s)
      let s ← (if a.ndigits shown > shown.length then
        sinkRepeat put s (code '0') (a.ndigits shown - shown.length) else .ok s)
      let s ← sinkPuts put s shown
      if a.left then sinkRepeat put s (code ' ') (a.pad shown) else .ok s

end sink

/-! ### Arguments -/

/-- An argument of a variable list. -/
inductive VaArg where
  /-- An integer, or a pointer to no text. -/
  | word (v : Int)
  /-- A pointer to a text, `none` for the null pointer. -/
  | text (t : Option Bytes)
  /-- A `double` by its bits. -/
  | double (bits : Nat)

/-- An integer argument and what follows it. -/
def takeWord : List VaArg → Option (Int × List VaArg)
  | .word v :: rest => some (v, rest)
  | _ => none

/-- A text argument and what follows it. -/
def takeText : List VaArg → Option (Option Bytes × List VaArg)
  | .text t :: rest => some (t, rest)
  | _ => none

/-- A `double` argument and what follows it. -/
def takeDouble : List VaArg → Option (Nat × List VaArg)
  | .double bits :: rest => some (bits, rest)
  | _ => none

/-- An integer as an `int`. -/
def asInt (v : Int) : Int := v.bmod (2 ^ 32)

/-- An integer as an `unsigned`. -/
def asUnsigned (v : Int) : Nat := (v % 2 ^ 32).toNat

/-- An integer as a `long`, a `long long` or a `ptrdiff_t`. -/
def asLong (v : Int) : Int := v.bmod (2 ^ 64)

/-- An integer as an `unsigned long`, an `unsigned long long` or a `size_t`. -/
def asUnsignedLong (v : Int) : Nat := (v % 2 ^ 64).toNat

/-! ### Directives -/

/-- The flags of a directive. -/
structure Flags where
  /-- `-` -/
  left : Bool
  /-- `+` -/
  plus : Bool
  /-- A space. -/
  space : Bool
  /-- `#` -/
  alt : Bool
  /-- `0` -/
  zero : Bool
  deriving DecidableEq

/-- No flags. -/
def Flags.none : Flags :=
  { left := false, plus := false, space := false, alt := false, zero := false }

/-- A flag character's effect. -/
def Flags.set (flags : Flags) (c : UInt8) : Option Flags :=
  if c = byte '-' then some { flags with left := true }
  else if c = byte '+' then some { flags with plus := true }
  else if c = byte ' ' then some { flags with space := true }
  else if c = byte '#' then some { flags with alt := true }
  else if c = byte '0' then some { flags with zero := true }
  else Option.none

/-- The flags of a directive. -/
def readFlags : Flags → Bytes → Flags × Bytes
  | flags, [] => (flags, [])
  | flags, c :: rest =>
    match flags.set c with
    | some flags => readFlags flags rest
    | none => (flags, c :: rest)

/-- `c >= '0' && c <= '9'`. -/
def isDecimal (c : UInt8) : Bool := byte '0' ≤ c && c ≤ byte '9'

/-- The digits of a width or a precision behind `n`. -/
def readNumber : Int → Bytes → Option (Int × Bytes)
  | n, [] => some (n, [])
  | n, c :: rest =>
    if isDecimal c then
      let n := n * 10 + (signedChar c - code '0')
      if intMax < n then none else readNumber n rest
    else some (n, c :: rest)

/-- What has been read of a directive. -/
structure Spec where
  flags : Flags
  width : Int
  precision : Int
  /-- 1 for `l`, 2 for `ll`, 3 for `z`, 4 for `L`, 5 for `h` and 6 for `hh`. -/
  length : Nat
  conversion : UInt8

/-- The width of a directive, which may come from the arguments. -/
def readWidth (flags : Flags) (format : Bytes) (args : List VaArg) :
    Option (Flags × Int × Bytes × List VaArg) :=
  if format.head? = some (byte '*') then do
    let (v, args) ← takeWord args
    let width := asInt v
    if width < 0 then
      -- The negation of `INT_MIN` is no `int`.
      if intMax < -width then none
      else return ({ flags with left := true }, -width, format.tail, args)
    else return (flags, width, format.tail, args)
  else do
    let (width, format) ← readNumber 0 format
    return (flags, width, format, args)

/-- The precision of a directive, −1 without one. -/
def readPrecision (format : Bytes) (args : List VaArg) : Option (Int × Bytes × List VaArg) :=
  if format.head? = some (byte '.') then
    if format.tail.head? = some (byte '*') then do
      let (v, args) ← takeWord args
      return (asInt v, format.tail.tail, args)
    else do
      let (precision, format) ← readNumber 0 format.tail
      return (precision, format, args)
  else some (-1, format, args)

/-- The length modifier of a directive. -/
def readLength (format : Bytes) : Nat × Bytes :=
  if format.head? = some (byte 'l') then
    if format.tail.head? = some (byte 'l') then (2, format.tail.tail) else (1, format.tail)
  else if format.head? = some (byte 'h') then
    if format.tail.head? = some (byte 'h') then (6, format.tail.tail) else (5, format.tail)
  else if format.head? = some (byte 'z') then (3, format.tail)
  else if format.head? = some (byte 'L') then (4, format.tail)
  else (0, format)

/-- A directive behind its `%`. -/
def readSpec (format : Bytes) (args : List VaArg) : Option (Spec × Bytes × List VaArg) := do
  let (flags, format) := readFlags Flags.none format
  let (flags, width, format, args) ← readWidth flags format args
  let (precision, format, args) ← readPrecision format args
  let (length, format) := readLength format
  return ({ flags := flags, width := width, precision := precision, length := length,
            conversion := format.headD (byte '%') }, format.tail, args)

/-! ### Emissions -/

/-- What a program sends to a sink that takes everything: the characters, and whether its behaviour
    is defined behind them. -/
structure Emission where
  chars : List Int
  defined : Bool

/-- A program of these characters, on any sink. -/
def Emission.run {σ : Type} (e : Emission) (put : Put σ) (s : PrintSink σ) :
    Writes σ (PrintSink σ) :=
  sinkPuts put s e.chars >>= fun s => if e.defined then .ok s else .error .undefined

/-- The formatters of `stdio/fp_fmt.c`: what they send for a number, a conversion, a width, a
    precision and flags. -/
structure FloatText where
  /-- `__meuos_fmt_fp`. -/
  fp : Nat → UInt8 → Int → Int → Flags → Emission
  /-- `__meuos_fmt_hexfp`. -/
  hexfp : Nat → UInt8 → Int → Int → Flags → Emission

/-! ### Conversions -/

/-- What has no value is undefined. -/
def orUndefined {σ α : Type} : Option α → Writes σ α
  | some a => .ok a
  | none => .error .undefined

/-- The argument of `d` and `i`. -/
def signedArg (length : Nat) (v : Int) : Int :=
  if length = 1 ∨ length = 2 ∨ length = 3 then asLong v else asInt v

/-- The argument of `u`, `x`, `X` and `o`. -/
def unsignedArg (length : Nat) (v : Int) : Nat :=
  if length = 1 ∨ length = 2 ∨ length = 3 then asUnsignedLong v else asUnsigned v

/-- The number that `d` and `i` print. -/
def signedNumber (spec : Spec) (v : Int) : NumberArgs where
  value := if v < 0 then (-(v + 1)).toNat + 1 else v.toNat
  base := 10
  width := spec.width
  zero := spec.flags.zero && !decide (spec.precision ≥ 0)
  negative := decide (v < 0)
  mark := []
  left := spec.flags.left
  plus := spec.flags.plus
  minDigits := spec.precision
  upper := false

/-- The prefix that `#` asks for. -/
def unsignedMark (spec : Spec) (value : Nat) : List Int :=
  if spec.flags.alt ∧ value ≠ 0 then
    if spec.conversion = byte 'x' then [code '0', code 'x']
    else if spec.conversion = byte 'X' then [code '0', code 'X']
    else if spec.conversion = byte 'o' then [code '0']
    else []
  else []

/-- The base of an unsigned conversion. -/
def unsignedBase (conversion : UInt8) : Nat :=
  if conversion = byte 'o' then 8 else if conversion = byte 'u' then 10 else 16

/-- The number that `u`, `x`, `X` and `o` print. -/
def unsignedNumber (spec : Spec) (value : Nat) : NumberArgs where
  value := value
  base := unsignedBase spec.conversion
  width := spec.width
  zero := spec.flags.zero && !decide (spec.precision ≥ 0)
  negative := false
  mark := unsignedMark spec value
  left := spec.flags.left
  plus := false
  minDigits := spec.precision
  upper := decide (spec.conversion = byte 'X')

/-- The number that `p` prints. -/
def pointerNumber (spec : Spec) (value : Nat) : NumberArgs where
  value := value
  base := 16
  width := spec.width
  zero := spec.flags.zero
  negative := false
  mark := [code '0', code 'x']
  left := spec.flags.left
  plus := false
  minDigits := -1
  upper := false

/-- `"(null)"`. -/
def nullText : Bytes := ['(', 'n', 'u', 'l', 'l', ')'].map byte

/-- The characters of a text that `s` prints; the length is an `int`, and a negative one runs past
    the end of the text. -/
def textShown (precision : Int) (t : Option Bytes) : Option (List Int) :=
  let text := (t.getD nullText).map signedChar
  let length := (text.length : Int).bmod (2 ^ 32)
  let length := if precision ≥ 0 ∧ length > precision then precision else length
  if length < 0 then none else some (text.take length.toNat)

section convert

variable {σ : Type} (floats : FloatText) (put : Put σ)

/-- The characters of `c` and `s` within their width. -/
def sinkPadded (s : PrintSink σ) (left : Bool) (width : Int) (text : List Int) :
    Writes σ (PrintSink σ) := do
  let pad := if width - text.length < 0 then 0 else width - text.length
  let s ← (if !left then sinkRepeat put s (code ' ') pad else .ok s)
  let s ← sinkPuts put s text
  if left then sinkRepeat put s (code ' ') pad else .ok s

/-- The conversion of a directive. -/
def convert (s : PrintSink σ) (spec : Spec) (args : List VaArg) :
    Writes σ (PrintSink σ × List VaArg) :=
  if spec.conversion = byte '%' then do
    let s ← sinkPut put s (code '%')
    return (s, args)
  else if spec.conversion = byte 'c' then do
    let (v, args) ← orUndefined (takeWord args)
    let s ← sinkPadded put s spec.flags.left spec.width [asInt v]
    return (s, args)
  else if spec.conversion = byte 's' then do
    let (t, args) ← orUndefined (takeText args)
    let text ← orUndefined (textShown spec.precision t)
    let s ← sinkPadded put s spec.flags.left spec.width text
    return (s, args)
  else if spec.conversion = byte 'd' ∨ spec.conversion = byte 'i' then do
    let (v, args) ← orUndefined (takeWord args)
    let s ← sinkNumber put s (signedNumber spec (signedArg spec.length v))
    return (s, args)
  else if spec.conversion = byte 'u' ∨ spec.conversion = byte 'x' ∨ spec.conversion = byte 'X' ∨
      spec.conversion = byte 'o' then do
    let (v, args) ← orUndefined (takeWord args)
    let s ← sinkNumber put s (unsignedNumber spec (unsignedArg spec.length v))
    return (s, args)
  else if spec.conversion = byte 'p' then do
    let (v, args) ← orUndefined (takeWord args)
    let s ← sinkNumber put s (pointerNumber spec (asUnsignedLong v))
    return (s, args)
  else if spec.conversion = byte 'n' then do
    -- The count goes to where the argument points.
    let (_, args) ← orUndefined (takeWord args)
    return (s, args)
  else if spec.conversion = byte 'f' ∨ spec.conversion = byte 'F' ∨ spec.conversion = byte 'e' ∨
      spec.conversion = byte 'E' ∨ spec.conversion = byte 'g' ∨ spec.conversion = byte 'G' then do
    let (bits, args) ← orUndefined (takeDouble args)
    let e := floats.fp bits spec.conversion spec.width spec.precision spec.flags
    let s ← e.run put s
    return (s, args)
  else if spec.conversion = byte 'a' ∨ spec.conversion = byte 'A' then do
    let (bits, args) ← orUndefined (takeDouble args)
    let e := floats.hexfp bits spec.conversion spec.width spec.precision spec.flags
    let s ← e.run put s
    return (s, args)
  else do
    let s ← sinkPut put s (code '%')
    let s ← sinkPut put s (signedChar spec.conversion)
    return (s, args)

end convert

/-! ### The loop -/

theorem readFlags_length (flags : Flags) (format : Bytes) :
    (readFlags flags format).2.length ≤ format.length := by
  induction format generalizing flags with
  | nil => exact Nat.le_refl _
  | cons c rest ih =>
    unfold readFlags
    cases flags.set c with
    | none => exact Nat.le_refl _
    | some flags => exact Nat.le_succ_of_le (ih flags)

variable {format : Bytes} {args : List VaArg}

theorem readNumber_length {n : Int} {r : Int × Bytes}
    (h : readNumber n format = some r) : r.2.length ≤ format.length := by
  induction format generalizing n with
  | nil =>
    cases h
    exact Nat.le_refl _
  | cons c rest ih =>
    unfold readNumber at h
    dsimp only at h
    split at h
    · split at h
      · cases h
      · exact Nat.le_succ_of_le (ih h)
    · cases h
      exact Nat.le_refl _

theorem readWidth_length {flags : Flags}
    {r : Flags × Int × Bytes × List VaArg} (h : readWidth flags format args = some r) :
    r.2.2.1.length ≤ format.length := by
  have htail : format.tail.length ≤ format.length := by simp
  unfold readWidth at h
  split at h
  · obtain ⟨⟨v, args'⟩, _, h⟩ := Option.bind_eq_some_iff.mp h
    dsimp only at h
    split at h
    · split at h
      · cases h
      · cases h
        exact htail
    · cases h
      exact htail
  · obtain ⟨⟨width, after⟩, hread, h⟩ := Option.bind_eq_some_iff.mp h
    cases h
    exact readNumber_length hread

theorem readPrecision_length
    {r : Int × Bytes × List VaArg} (h : readPrecision format args = some r) :
    r.2.1.length ≤ format.length := by
  have htail : format.tail.length ≤ format.length := by simp
  unfold readPrecision at h
  split at h
  · split at h
    · obtain ⟨⟨v, args'⟩, _, h⟩ := Option.bind_eq_some_iff.mp h
      cases h
      simp
      omega
    · obtain ⟨⟨n, after⟩, hread, h⟩ := Option.bind_eq_some_iff.mp h
      cases h
      exact Nat.le_trans (readNumber_length hread) htail
  · cases h
    exact Nat.le_refl _

theorem readLength_length (format : Bytes) : (readLength format).2.length ≤ format.length := by
  unfold readLength
  split_ifs <;> simp <;> omega

/-- What follows a directive is no longer than the directive with it. -/
theorem readSpec_length {r : Spec × Bytes × List VaArg}
    (h : readSpec format args = some r) : r.2.1.length ≤ format.length := by
  obtain ⟨⟨flags, width, afterWidth, args₁⟩, hwidth, h⟩ := Option.bind_eq_some_iff.mp h
  obtain ⟨⟨precision, afterPrecision, args₂⟩, hprecision, h⟩ := Option.bind_eq_some_iff.mp h
  cases h
  have hflags := readFlags_length Flags.none format
  have hw := readWidth_length hwidth
  have hp := readPrecision_length hprecision
  have hl := readLength_length afterPrecision
  show (readLength afterPrecision).2.tail.length ≤ format.length
  rw [List.length_tail]
  dsimp only at hw hp
  omega

/-- `__meuos_vformat`. -/
def vformat {σ : Type} (floats : FloatText) (put : Put σ) (s : PrintSink σ) (args : List VaArg) :
    Bytes → Writes σ (PrintSink σ)
  | [] => .ok s
  | c :: format =>
    if c ≠ byte '%' then do
      let s ← sinkPut put s (signedChar c)
      vformat floats put s args format
    else
      match h : readSpec format args with
      | none => .error .undefined
      | some (spec, rest, args) => do
        have : rest.length < format.length + 1 := Nat.lt_succ_of_le (readSpec_length h)
        let (s, args) ← convert floats put s spec args
        vformat floats put s args rest
  termination_by format => format.length

section emission

variable {σ : Type}

/-! ### The steps of the loop -/

@[simp] theorem vformat_nil (floats : FloatText) (put : Put σ) (s : PrintSink σ)
    (args : List VaArg) : vformat floats put s args [] = .ok s := by
  unfold vformat
  rfl

theorem vformat_undefined (floats : FloatText) (put : Put σ) (s : PrintSink σ)
    (h : readSpec format args = none) :
    vformat floats put s args (byte '%' :: format) = .error .undefined := by
  unfold vformat
  rw [if_neg (by simp)]
  split
  · rfl
  next h' => exact absurd (h'.symm.trans h) (by simp)

theorem vformat_directive (floats : FloatText) (put : Put σ) (s : PrintSink σ)
    {args' : List VaArg} {rest : Bytes} {spec : Spec}
    (h : readSpec format args = some (spec, rest, args')) :
    vformat floats put s args (byte '%' :: format) =
      convert floats put s spec args' >>= fun r => vformat floats put r.1 r.2 rest := by
  conv_lhs => unfold vformat
  rw [if_neg (by simp)]
  split
  next h' => exact absurd (h'.symm.trans h) (by simp)
  next spec₁ rest₁ args₁ h' =>
    obtain ⟨rfl, rfl, rfl⟩ : spec₁ = spec ∧ rest₁ = rest ∧ args₁ = args' := by
      simpa using h'.symm.trans h
    rfl

/-! ### What is sent does not depend on the sink -/

theorem sinkPuts_append (put : Put σ) (s : PrintSink σ) (a b : List Int) :
    sinkPuts put s (a ++ b) = sinkPuts put s a >>= fun s => sinkPuts put s b :=
  List.foldlM_append

@[simp] theorem sinkPuts_nil (put : Put σ) (s : PrintSink σ) : sinkPuts put s [] = .ok s := rfl

theorem sinkPuts_singleton (put : Put σ) (s : PrintSink σ) (c : Int) :
    sinkPuts put s [c] = sinkPut put s c := by
  unfold sinkPuts
  rw [List.foldlM_cons]
  cases sinkPut put s c with
  | error e => rfl
  | ok s => rfl

/-- A character repeated is a text. -/
theorem sinkRepeat_eq (put : Put σ) (s : PrintSink σ) (c count : Int) :
    sinkRepeat put s c count = sinkPuts put s (List.replicate count.toNat c) := by
  unfold sinkRepeat
  induction count.toNat generalizing s with
  | zero => rfl
  | succ n ih =>
    unfold repeatLoop sinkPuts
    rw [List.replicate_succ, List.foldlM_cons]
    cases sinkPut put s c with
    | error e => rfl
    | ok s => exact ih s

theorem sinkPuts_if (put : Put σ) (s : PrintSink σ) (b : Bool) (text : List Int) :
    (if b then sinkPuts put s text else .ok s) = sinkPuts put s (if b then text else []) := by
  cases b <;> rfl

/-- The characters of a number in their order. -/
def NumberArgs.chars (a : NumberArgs) (shown : List Int) : List Int :=
  (if !a.left && !a.zero then List.replicate (a.pad shown).toNat (code ' ') else []) ++
    ((if a.sign ≠ 0 then [a.sign] else []) ++ (a.mark ++
    ((if a.zero && !a.left then List.replicate (a.pad shown).toNat (code '0') else []) ++
    (List.replicate (a.ndigits shown - shown.length).toNat (code '0') ++ (shown ++
    if a.left then List.replicate (a.pad shown).toNat (code ' ') else [])))))

/-- The text of a number; `none` where printing it is undefined. -/
def numberText (a : NumberArgs) : Option (List Int) := do
  let cursor ← digitLoop a.base a.upper digitsSize a.value []
  if intMax < a.content (a.shown cursor) then none else some (a.chars (a.shown cursor))

/-- A number is printed as its text. -/
theorem sinkNumber_emits (put : Put σ) (s : PrintSink σ) (a : NumberArgs) :
    sinkNumber put s a =
      match numberText a with
      | some text => sinkPuts put s text
      | none => .error .undefined := by
  unfold sinkNumber numberText
  cases digitLoop a.base a.upper digitsSize a.value [] with
  | none => rfl
  | some cursor =>
    dsimp only [bind, Option.bind]
    split
    · rfl
    · have hsign : ∀ s : PrintSink σ, (if a.sign ≠ 0 then sinkPut put s a.sign else .ok s) =
          sinkPuts put s (if a.sign ≠ 0 then [a.sign] else []) := by
        intro s
        split
        · exact (sinkPuts_singleton put s a.sign).symm
        · rfl
      have hzeros : ∀ s : PrintSink σ,
          (if a.ndigits (a.shown cursor) > (a.shown cursor).length then
            sinkPuts put s (List.replicate
              (a.ndigits (a.shown cursor) - (a.shown cursor).length).toNat (code '0'))
          else .ok s) = sinkPuts put s (List.replicate
              (a.ndigits (a.shown cursor) - (a.shown cursor).length).toNat (code '0')) := by
        intro s
        split
        · rfl
        next hle =>
          have hnone : (a.ndigits (a.shown cursor) - (a.shown cursor).length).toNat = 0 := by
            omega
          rw [hnone]
          rfl
      simp only [sinkRepeat_eq, sinkPuts_if, hsign, hzeros, NumberArgs.chars, sinkPuts_append]
      rfl

/-- A text within its width. -/
def paddedChars (left : Bool) (width : Int) (text : List Int) : List Int :=
  let pad := (if width - text.length < 0 then 0 else width - text.length).toNat
  (if !left then List.replicate pad (code ' ') else []) ++
    (text ++ if left then List.replicate pad (code ' ') else [])

theorem sinkPadded_eq (put : Put σ) (s : PrintSink σ) (left : Bool) (width : Int)
    (text : List Int) :
    sinkPadded put s left width text = sinkPuts put s (paddedChars left width text) := by
  unfold sinkPadded paddedChars
  simp only [sinkRepeat_eq, sinkPuts_if, sinkPuts_append]

/-- A program that is undefined from the beginning. -/
def Emission.undefined : Emission := { chars := [], defined := false }

/-- A program that sends a text and goes on. -/
def Emission.of (text : List Int) : Emission := { chars := text, defined := true }

/-- A program, then another one. -/
def Emission.append (e e' : Emission) : Emission :=
  if e.defined then { chars := e.chars ++ e'.chars, defined := e'.defined } else e

@[simp] theorem run_undefined (put : Put σ) (s : PrintSink σ) :
    Emission.undefined.run put s = .error .undefined := rfl

/-- What a conversion does after its emission. -/
def leaving (args : List VaArg) (s : PrintSink σ) : Writes σ (PrintSink σ × List VaArg) :=
  .ok (s, args)

end emission

end MeuOS.Libc
