import Mathlib.Data.List.DropRight
import Mathlib.Data.List.Basic
import Mathlib.Algebra.Group.Int.Defs

namespace MeuOS.As

/-!
# Numbers and references in operand text (`assemble.c`)

A C string is the list of its characters before the terminating zero.  Where a function writes
that zero earlier, its model also returns what the buffer then holds.

* `trim`, `trimInPlace` — the text that `trim` returns, and the buffer it leaves behind;
* `strtoll` — the C library's function, with base `0`;
* `parseInteger` — `parse_integer`, with the buffer that its `trim(end)` leaves;
* `splitScan` — the search of `parse_reference` for the sign between two terms;
* `parseReference` — `parse_reference`.
-/

/-- How a run ends when it does not succeed: with an error that the code reports, or with
    undefined behaviour (a null pointer read, a signed overflow). -/
inductive Fault (ε : Type) where
  | refused (e : ε)
  | undefined
  deriving Repr, DecidableEq

/-! ### Blanks -/

/-- `isspace` in the C locale. -/
def isspace (c : Char) : Bool := c.toNat == 32 || (9 ≤ c.toNat && c.toNat ≤ 13)

/-- The text that the pointer returned by `trim` points to. -/
def trim (text : List Char) : List Char := (text.dropWhile isspace).rdropWhile isspace

/-- The buffer after `trim`: blanks at the end are cut off, blanks at the front stay. -/
def trimInPlace (text : List Char) : List Char := text.takeWhile isspace ++ trim text

/-! ### `strtoll` -/

/-- The value of a digit in some base: `0` to `9`, then the letters of either case. -/
def digitVal (c : Char) : Option Nat :=
  if 48 ≤ c.toNat ∧ c.toNat ≤ 57 then some (c.toNat - 48)
  else if 97 ≤ c.toNat ∧ c.toNat ≤ 122 then some (c.toNat - 87)
  else if 65 ≤ c.toNat ∧ c.toNat ≤ 90 then some (c.toNat - 55)
  else none

/-- `c` is a digit in base `base`. -/
def isDigitIn (base : Nat) (c : Char) : Bool := (digitVal c).any (· < base)

/-- `isdigit`. -/
def isdigit (c : Char) : Bool := isDigitIn 10 c

/-- Read digits after those that made up `acc`; the rest is what follows them. -/
def scanDigits (base : Nat) : Nat → List Char → Nat × List Char
  | acc, [] => (acc, [])
  | acc, c :: cs =>
    if isDigitIn base c then scanDigits base (acc * base + (digitVal c).getD 0) cs
    else (acc, c :: cs)

/-- The base of the digits at the front, and where they start: `0x` needs a digit behind it. -/
def strtollBase (s : List Char) : Nat × List Char :=
  if s.head? = some '0' then
    if (s[1]? = some 'x' ∨ s[1]? = some 'X') ∧ (s[2]?).any (isDigitIn 16) then (16, s.drop 2)
    else (8, s)
  else (10, s)

/-- What `strtoll` reports: the value, whether it was out of range, and the text at `end`. -/
structure Strtoll where
  value : Int
  erange : Bool
  rest : List Char
  deriving Repr, DecidableEq

/-- The value is one of an `int64_t`. -/
def FitsI64 (v : Int) : Prop := -2 ^ 63 ≤ v ∧ v < 2 ^ 63

instance (v : Int) : Decidable (FitsI64 v) := inferInstanceAs (Decidable (_ ∧ _))

/-- `strtoll` behind the sign: without a digit nothing is read, and `end` is the whole `text`. -/
def strtollDigits (text : List Char) (neg : Bool) (s : List Char) : Strtoll :=
  let (base, digits) := strtollBase s
  if (digits.head?).any (isDigitIn base) then
    let (m, rest) := scanDigits base 0 digits
    let v : Int := if neg then -m else m
    { value := max (-2 ^ 63) (min v (2 ^ 63 - 1)), erange := decide ¬ FitsI64 v, rest := rest }
  else { value := 0, erange := false, rest := text }

/-- `strtoll(text, &end, 0)`. -/
def strtoll (text : List Char) : Strtoll :=
  let s := text.dropWhile isspace
  if s.head? = some '-' then strtollDigits text true s.tail
  else if s.head? = some '+' then strtollDigits text false s.tail
  else strtollDigits text false s

/-- `parse_integer`: the number, if the whole text is one, and what the buffer holds afterwards
    (the `trim` of what follows the digits writes into it). -/
def parseInteger (text : List Char) : Option Int × List Char :=
  if text = [] then (none, text)
  else
    let r := strtoll text
    if r.erange then (none, text)
    else
      (if trim r.rest = [] then some r.value else none,
        text.take (text.length - r.rest.length) ++ trimInPlace r.rest)

/-! ### `parse_reference` -/

/-- The characters read so far, last one first, end like the mantissa of `1e+5`. -/
def sciMantissa : List Char → Bool
  | e :: d :: _ => (e == 'e' || e == 'E') && isdigit d
  | _ => false

/-- The loop of `parse_reference` that looks for a sign between two terms; `before` is what lies
    before the cursor, last character first. -/
def splitScan (before : List Char) : List Char → Option (List Char × List Char)
  | [] => none
  | c :: cs =>
    if (c = '+' ∨ c = '-') ∧ sciMantissa before = false then some (before.reverse, cs)
    else splitScan (c :: before) cs

/-- What a reference turns out to be. -/
inductive Referent where
  | number (value : Int)
  | symbol (name : List Char) (addend : Int)
  deriving Repr, DecidableEq

/-- `a + b` in `int64_t`; overflow is undefined. -/
def addI64 {ε : Type} (a b : Int) : Except (Fault ε) Int :=
  if FitsI64 (a + b) then .ok (a + b) else .error .undefined

/-- A name in double quotes loses them. -/
def stripQuotes (buffer : List Char) : List Char :=
  if buffer.head? = some '"' ∧ buffer.getLast? = some '"' ∧ 2 ≤ buffer.length then
    (buffer.drop 1).take (buffer.length - 2)
  else buffer

/-- The end of `parse_reference`: the part before the sign is a number or a symbol. -/
def referenceHead (buffer : List Char) (addend : Option Int) : Except (Fault Unit) Referent :=
  match parseInteger buffer with
  | (some number, _) =>
    match addend with
    | some a => (addI64 a number).map .number
    | none => .ok (.number number)
  | (none, buffer) =>
    if buffer = [] then .error (.refused ())
    else .ok (.symbol (stripQuotes buffer) (addend.getD 0))

/-- The middle of `parse_reference`: split at the sign and read what follows it. -/
def referenceBody (buffer : List Char) : Except (Fault Unit) Referent :=
  match buffer with
  | [] => .error (.refused ())
  | c :: cs =>
    match splitScan [c] cs with
    | none => referenceHead buffer none
    | some (head, text) =>
      -- the sign itself is overwritten: only the number behind it is read
      match (parseInteger text).1 with
      | none => .error (.refused ())
      | some addend => referenceHead head (some addend)

/-- `sizeof(buffer)`. -/
def BUFFER_SIZE : Nat := 512

/-- `sizeof(modifier)` of `parse_data_value`. -/
def MODIFIER_SIZE : Nat := 16

/-- `parse_reference`: the referent and the modifier after `@`. -/
def parseReference (text : List Char) : Except (Fault Unit) (Referent × List Char) :=
  if BUFFER_SIZE ≤ text.length then .error (.refused ())
  else
    let buffer := trimInPlace text
    let modifier := (buffer.dropWhile (· ≠ '@')).drop 1
    if MODIFIER_SIZE ≤ modifier.length then .error (.refused ())
    else (referenceBody (buffer.takeWhile (· ≠ '@'))).map (·, modifier)

end MeuOS.As
