import MeuOS.Lib.Checked
import MeuOS.Libc.Format

namespace MeuOS.Libc

open MeuOS.Lib

/-!
# `vsscanf` (`stdio/fmt_in.c`)

The input and the format are strings without their terminators.  A conversion that collects a
floating constant does so in a buffer of 64 bytes, whose stores are checked; what is not defined (no
argument, a width that is no `int`) is a `fail`.

* `scanInteger` — the integer conversions;
* `floatDigits`, `floatPoint`, `floatExponent`, `scanFloat` — the floating conversions;
* `ScanState`, `scanStep`, `vsscanf` — a step of the loop over the format, and the loop.
-/

/-! ### Characters -/

/-- `isspace_int`. -/
def isspaceInt (c : UInt8) : Bool :=
  c = byte ' ' || c = byte '\t' || c = byte '\n' || c = byte '\r'

/-- The input behind blanks. -/
def skipSpace (input : Bytes) : Bytes := input.dropWhile isspaceInt

/-- `x` or `X`. -/
def isHexMark (c : UInt8) : Bool := c = byte 'x' || c = byte 'X'

/-- `+` or `-`. -/
def isSign (c : UInt8) : Bool := c = byte '+' || c = byte '-'

/-- `e` or `E`. -/
def isExponent (c : UInt8) : Bool := c = byte 'e' || c = byte 'E'

/-- A `long long` or one of its relatives where it is stored. -/
inductive Stored where
  /-- An integer of so many bits. -/
  | int (bits : Nat) (v : Int)
  /-- Characters. -/
  | chars (bs : Bytes)
  /-- What `strtod` makes of a text, as a `double` or a `float`. -/
  | float (double : Bool) (text : Bytes)

/-! ### Integers -/

/-- The number of a digit of a base; the base for everything else. -/
def scanDigit (base : Nat) (c : UInt8) : Nat :=
  if byte '0' ≤ c ∧ c ≤ byte '9' then c.toNat - (byte '0').toNat
  else if byte 'a' ≤ c ∧ c ≤ byte 'f' then c.toNat - (byte 'a').toNat + 10
  else if byte 'A' ≤ c ∧ c ≤ byte 'F' then c.toNat - (byte 'A').toNat + 10
  else base

/-- A number that is being read. -/
structure IntScan where
  value : Nat
  overflow : Bool
  digits : Nat

/-- The loop over the digits of a number. -/
def scanDigits (base limit width : Nat) : IntScan → Bytes → IntScan × Bytes
  | s, [] => (s, [])
  | s, c :: input =>
    if width = 0 ∨ s.digits < width then
      let digit := scanDigit base c
      if digit ≥ base then (s, c :: input)
      else if s.value > (limit - digit) / base then
        scanDigits base limit width { s with overflow := true, digits := s.digits + 1 } input
      else if !s.overflow then
        scanDigits base limit width
          { s with value := s.value * base + digit, digits := s.digits + 1 } input
      else scanDigits base limit width { s with digits := s.digits + 1 } input
    else (s, c :: input)

/-- The sign of a number. -/
def scanSign (input : Bytes) : Bool × Bytes :=
  if input.head? = some (byte '-') then (true, input.tail)
  else if input.head? = some (byte '+') then (false, input.tail)
  else (false, input)

/-- A `0x` in front of the input. -/
def hexPrefix (input : Bytes) : Bool :=
  input.head? = some (byte '0') && input.tail.head?.any isHexMark

/-- The base of a conversion, the input behind a prefix, and the digits of the prefix. -/
def scanBase (conversion : UInt8) (input : Bytes) : Nat × Bytes × Nat :=
  if conversion = byte 'i' then
    if hexPrefix input then (16, input.drop 2, 2)
    else if input.head? = some (byte '0') then (8, input, 0)
    else (10, input, 0)
  else if conversion = byte 'o' then (8, input, 0)
  else if conversion = byte 'x' ∨ conversion = byte 'X' then
    if hexPrefix input then (16, input.drop 2, 2) else (16, input, 0)
  else (10, input, 0)

/-- The bits of the type that a modifier names. -/
def scanBits (length : Nat) : Nat :=
  if length = 1 ∨ length = 2 then 64 else if length = 5 then 16 else if length = 6 then 8 else 32

/-- The greatest number of the type. -/
def scanMax (isSigned : Bool) (length : Nat) : Nat :=
  if isSigned then 2 ^ (scanBits length - 1) - 1 else 2 ^ scanBits length - 1

/-- What an integer conversion stores; a negation of a `long long` wraps. -/
def scanStored (isSigned negative : Bool) (length limit tmax : Nat) (s : IntScan) : Stored :=
  if isSigned then
    let v : Int :=
      if s.overflow then if negative then -limit else tmax
      else if negative then -s.value
      else s.value
    .int (scanBits length) (v.bmod (2 ^ scanBits length))
  else
    .int (scanBits length)
      (((if s.overflow then limit else s.value) : Nat) % 2 ^ scanBits length)

/-- An integer conversion: what it stores and the input behind it, if it has a digit. -/
def scanInteger (conversion : UInt8) (length width : Nat) (input : Bytes) :
    Option (Stored × Bytes) :=
  let isSigned := decide (conversion = byte 'd' ∨ conversion = byte 'i')
  let sign := scanSign input
  let base := scanBase conversion sign.2
  let tmax := scanMax isSigned length
  let limit := if isSigned && sign.1 then tmax + 1 else tmax
  let s := scanDigits base.1 limit width
    { value := 0, overflow := false, digits := base.2.2 } base.2.1
  if s.1.digits = 0 then none else some (scanStored isSigned sign.1 length limit tmax s.1, s.2)

/-! ### Floating constants -/

/-- The buffer `tmp`, as far as it has been filled, and the characters that have been used. -/
structure Token where
  tmp : Bytes
  used : Nat

/-- `sizeof(tmp)`. -/
def tmpSize : Nat := 64

/-- `tmp[ti++] = *input++; used++`. -/
def Token.put (t : Token) (c : UInt8) : Checked Unit Token :=
  if t.tmp.length < tmpSize then .ok { tmp := t.tmp ++ [c], used := t.used + 1 } else .fault

/-- `FTOK_COND`. -/
def Token.inWidth (t : Token) (width : Nat) : Bool := width = 0 || t.used < width

/-- The character of the input that a token may take. -/
def Token.peek (t : Token) (width : Nat) (input : Bytes) : Option UInt8 :=
  if t.inWidth width then input.head? else none

/-- The loop over digits, which ends before the last byte of the buffer. -/
def floatDigits (width : Nat) : Token → Bytes → Checked Unit (Token × Bytes)
  | t, [] => .ok (t, [])
  | t, c :: input =>
    if isDecimal c && t.inWidth width && decide (t.tmp.length < tmpSize - 1) then do
      let t ← t.put c
      floatDigits width t input
    else .ok (t, c :: input)

/-- A character of a kind, if it is there. -/
def floatOne (width : Nat) (kind : UInt8 → Bool) (t : Token) (input : Bytes) :
    Checked Unit (Token × Bytes × Bool) :=
  match t.peek width input with
  | some c =>
    if kind c then do
      let t ← t.put c
      return (t, input.tail, true)
    else .ok (t, input, false)
  | none => .ok (t, input, false)

/-- The point of a floating constant and the digits behind it. -/
def floatPoint (width : Nat) (t : Token) (input : Bytes) : Checked Unit (Token × Bytes) := do
  let (t, input, found) ← floatOne width (fun c => c = byte '.') t input
  if found then floatDigits width t input else .ok (t, input)

/-- The exponent of a floating constant. -/
def floatExponent (width : Nat) (t : Token) (input : Bytes) : Checked Unit (Token × Bytes) := do
  let (t, input, found) ← floatOne width isExponent t input
  if found then do
    let (t, input, _) ← floatOne width isSign t input
    floatDigits width t input
  else .ok (t, input)

/-- A floating conversion: the text for `strtod` and the input behind it, if there is a text. -/
def scanFloat (width : Nat) (input : Bytes) : Checked Unit (Option (Bytes × Bytes)) := do
  let (t, input, _) ← floatOne width isSign { tmp := [], used := 0 } input
  let (t, input) ← floatDigits width t input
  let (t, input) ← floatPoint width t input
  let (t, input) ← floatExponent width t input
  if t.tmp.length = 0 then .ok none
  else
    -- The terminator.
    let _ ← t.put 0
    .ok (some (t.tmp, input))

/-! ### The loop -/

/-- What the loop of `vsscanf` works on. -/
structure ScanState where
  input : Bytes
  format : Bytes
  /-- The pointers that the arguments are. -/
  args : List Nat
  assigned : Nat
  /-- What has been stored, and where. -/
  stores : List (Nat × Stored)

/-- The next argument. -/
def ScanState.arg (s : ScanState) : Checked Unit (Nat × List Nat) :=
  match s.args with
  | [] => .fail ()
  | p :: args => .ok (p, args)

/-- A length modifier. -/
def scanLength (format : Bytes) : Nat × Bytes :=
  if format.head? = some (byte 'l') then
    if format.tail.head? = some (byte 'l') then (2, format.tail.tail) else (1, format.tail)
  else if format.head? = some (byte 'h') then
    if format.tail.head? = some (byte 'h') then (6, format.tail.tail) else (5, format.tail)
  else (0, format)

/-- A directive of the format behind its `%`: the width, the modifier, and the conversion with what
    follows it. -/
def scanSpec (format : Bytes) : Checked Unit (Nat × Nat × Bytes) :=
  match readNumber 0 format with
  | none => .fail ()
  | some (width, format) => .ok (width.toNat, scanLength format)

/-- The integer conversions. -/
def isIntConversion (c : UInt8) : Bool :=
  c = byte 'd' || c = byte 'i' || c = byte 'o' || c = byte 'u' || c = byte 'x' || c = byte 'X'

/-- The floating conversions. -/
def isFloatConversion (c : UInt8) : Bool :=
  c = byte 'f' || c = byte 'e' || c = byte 'g' || c = byte 'F' || c = byte 'E' || c = byte 'G'

/-- A store of a conversion, behind which the scan goes on. -/
def ScanState.store (s : ScanState) (input format : Bytes) (count : Nat) (v : Stored) :
    Checked Unit (Option ScanState) := do
  let (p, args) ← s.arg
  return some { input := input, format := format, args := args, assigned := s.assigned + count,
                stores := s.stores ++ [(p, v)] }

/-- The conversion of a directive; `none` ends the scan. -/
def scanConvert (s : ScanState) (width length : Nat) (conversion : UInt8) (format : Bytes) :
    Checked Unit (Option ScanState) :=
  if conversion = byte 'c' then
    let count := if width = 0 then 1 else width
    let taken := s.input.take count
    if taken.length = 0 then .ok none
    else s.store (s.input.drop taken.length) format taken.length (.chars taken)
  else
    let input := skipSpace s.input
    if conversion = byte 's' then
      if input = [] then .ok none
      else
        let word := input.takeWhile fun c => !isspaceInt c
        let taken := if width = 0 then word else word.take width
        s.store (input.drop taken.length) format 1 (.chars (taken ++ [0]))
    else if isIntConversion conversion then
      match scanInteger conversion length width input with
      | none => .ok none
      | some (v, input) => s.store input format 1 v
    else if isFloatConversion conversion then do
      match ← scanFloat width input with
      | none => .ok none
      | some (text, input) => s.store input format 1 (.float (decide (length = 1)) text)
    else .ok none

/-- A step of the loop over the format; `none` ends the scan. -/
def scanStep (s : ScanState) : Checked Unit (Option ScanState) :=
  match s.format with
  | [] => .ok none
  | c :: format =>
    if isspaceInt c then
      .ok (some { s with format := skipSpace (c :: format), input := skipSpace s.input })
    else if c ≠ byte '%' then
      if s.input.head? = some c then .ok (some { s with format := format, input := s.input.tail })
      else .ok none
    else do
      let (width, length, format) ← scanSpec format
      match format with
      | [] => .ok none
      | conversion :: format => scanConvert s width length conversion format

theorem scanLength_length (format : Bytes) : (scanLength format).2.length ≤ format.length := by
  unfold scanLength
  split_ifs <;> simp <;> omega

variable {s s' : ScanState}

theorem store_format {input format : Bytes} {count : Nat} {v : Stored}
    (h : s.store input format count v = .ok (some s')) : s'.format = format := by
  obtain ⟨r, _, h⟩ := Checked.bind_eq_ok h
  cases h
  rfl

theorem scanConvert_format {width length : Nat} {conversion : UInt8}
    {format : Bytes} (h : scanConvert s width length conversion format = .ok (some s')) :
    s'.format = format := by
  unfold scanConvert at h
  generalize (if width = 0 then 1 else width) = count at h
  dsimp only at h
  split at h
  · split at h
    · cases h
    · exact store_format h
  split at h
  · split at h
    · cases h
    · exact store_format h
  split at h
  · split at h
    · cases h
    · exact store_format h
  split at h
  · obtain ⟨r, _, h⟩ := Checked.bind_eq_ok h
    cases r with
    | none => cases h
    | some r => exact store_format h
  · cases h

/-- A step that goes on has read some of the format. -/
theorem scanStep_length (h : scanStep s = .ok (some s')) :
    s'.format.length < s.format.length := by
  unfold scanStep at h
  cases hformat : s.format with
  | nil =>
    rw [hformat] at h
    cases h
  | cons c format =>
    rw [hformat] at h
    dsimp only at h
    by_cases hspace : isspaceInt c = true
    · rw [if_pos hspace] at h
      cases h
      have hle : (format.dropWhile isspaceInt).length ≤ format.length :=
        (List.dropWhile_sublist _).length_le
      show (skipSpace (c :: format)).length < (c :: format).length
      unfold skipSpace
      rw [List.dropWhile_cons_of_pos hspace, List.length_cons]
      omega
    · rw [if_neg hspace] at h
      by_cases hpercent : c ≠ byte '%'
      · rw [if_pos hpercent] at h
        split at h
        · cases h
          exact Nat.lt_succ_self _
        · cases h
      · rw [if_neg hpercent] at h
        obtain ⟨⟨width, length, rest⟩, hspec, h⟩ := Checked.bind_eq_ok h
        have hrest : rest.length ≤ format.length := by
          unfold scanSpec at hspec
          split at hspec
          next => cases hspec
          next width' after hread =>
            have hafter := readNumber_length hread
            have hlength := scanLength_length after
            obtain rfl : (scanLength after).2 = rest :=
              congrArg (fun r => r.2.2) (Checked.ok.inj hspec)
            exact Nat.le_trans hlength hafter
        dsimp only at h
        cases rest with
        | nil => cases h
        | cons conversion rest =>
          rw [scanConvert_format h]
          rw [List.length_cons] at hrest ⊢
          omega

/-- The loop of `vsscanf`. -/
def scanRun (s : ScanState) : Checked Unit ScanState :=
  match h : scanStep s with
  | .ok (some s') =>
    have : s'.format.length < s.format.length := scanStep_length h
    scanRun s'
  | .ok none => .ok s
  | .fail e => .fail e
  | .fault => .fault
  | .stuck => .stuck
  termination_by s.format.length

/-- `vsscanf`: what it returns, and what it has stored. -/
def vsscanf (input format : Bytes) (args : List Nat) :
    Checked Unit (Nat × List (Nat × Stored)) := do
  let s ← scanRun { input := input, format := format, args := args, assigned := 0, stores := [] }
  return (s.assigned, s.stores)

theorem scanRun_next (h : scanStep s = .ok (some s')) :
    scanRun s = scanRun s' := by
  conv_lhs => unfold scanRun
  split <;> simp_all

theorem scanRun_done (h : scanStep s = .ok none) : scanRun s = .ok s := by
  unfold scanRun
  split <;> simp_all

end MeuOS.Libc
