import MeuOS.Libc.IntegerText

namespace MeuOS.Libc

open MeuOS.Lib List

/-!
# Numbers from text (`convert.c`)

The four conversions of the library and what the standard asks of them.  A text is the string
without its terminator, and `end` is given by the text that it is left at.

* `strtoul`, `strtoull`, `strtol`, `strtoll` — the conversions;
* `Standard` — what 7.20.1.4 says of a call;
* `UnsignedText`, `SignedText` — the texts that the library takes apart as the standard does;
* `conversions_follow_iff` — where each conversion follows the standard.
-/

/-- The errno of a value out of range. -/
def ERANGE : Nat := 34

/-- The targets, by their `long`: 32 bits on i386, 64 elsewhere. -/
inductive Long where
  | long32
  | long64
  deriving DecidableEq

/-- The bits of a `long`. -/
def Long.bits : Long → Nat
  | .long32 => 32
  | .long64 => 64

def ULONG_MAX (L : Long) : Nat := 2 ^ L.bits - 1

def LONG_MAX (L : Long) : Int := 2 ^ (L.bits - 1) - 1

def LONG_MIN (L : Long) : Int := -2 ^ (L.bits - 1)

/-- The outcome of a call: the value, the text at `*end` and errno. -/
@[ext]
structure Converted where
  value : Int
  rest : Bytes
  errno : Nat
  deriving DecidableEq

/-! ### The code -/

/-- `digit_value`. -/
def digit_value (character : UInt8) : Nat :=
  if 48 ≤ character.toNat ∧ character.toNat ≤ 57 then character.toNat - 48
  else if 97 ≤ character.toNat ∧ character.toNat ≤ 122 then character.toNat - 97 + 10
  else if 65 ≤ character.toNat ∧ character.toNat ≤ 90 then character.toNat - 65 + 10
  else 36

/-- `text[i]`; 0 is the terminator. -/
def charAt (text : Bytes) (i : Nat) : UInt8 := text.getD i 0

/-- The blanks of `while (*text == ' ' || *text == '\t' || *text == '\n')`. -/
def isBlank (c : UInt8) : Bool := c = 32 || c = 9 || c = 10

/-- Skip the blanks. -/
def skipBlanks (text : Bytes) : Bytes := text.dropWhile isBlank

/-- `if (*text == '+') ++text`. -/
def skipPlus (text : Bytes) : Bytes := if charAt text 0 = 43 then text.drop 1 else text

/-- The base that a prefix selects, and the text behind the prefix. -/
def basePrefix (base : Nat) (text : Bytes) : Nat × Bytes :=
  if base = 0 then
    if charAt text 0 = 48 then
      if charAt text 1 = 120 ∨ charAt text 1 = 88 then (16, text.drop 2) else (8, text)
    else (10, text)
  else if base = 16 ∧ charAt text 0 = 48 ∧ (charAt text 1 = 120 ∨ charAt text 1 = 88) then
    (base, text.drop 2)
  else (base, text)

/-- The loop of `strtoul`: the value, whether it has overflowed, and the text behind the digits. -/
def strtoulDigits (max base : Nat) : Bytes → Nat → Bool → Nat × Bool × Bytes
  | [], value, overflow => (value, overflow, [])
  | c :: text, value, overflow =>
    if digit_value c < base then
      if overflow then strtoulDigits max base text value overflow
      else if value > (max - digit_value c) / base then strtoulDigits max base text value true
      else strtoulDigits max base text (value * base + digit_value c) overflow
    else (value, overflow, c :: text)

/-- `strtoul`. -/
def strtoul (L : Long) (errno : Nat) (text : Bytes) (base : Nat) : Converted :=
  let start := basePrefix base (skipPlus (skipBlanks text))
  let read := strtoulDigits (ULONG_MAX L) start.1 start.2 0 false
  if read.2.1 then ⟨ULONG_MAX L, read.2.2, ERANGE⟩ else ⟨read.1, read.2.2, errno⟩

/-- The loop of `strtoull`.  `meuos_u64_mul_add` computes the same on i386. -/
def strtoullDigits (base : Nat) : Bytes → Nat → Nat × Bytes
  | [], value => (value, [])
  | c :: text, value =>
    if digit_value c < base then
      strtoullDigits base text ((value * base + digit_value c) % 2 ^ 64)
    else (value, c :: text)

/-- `strtoull`. -/
def strtoull (errno : Nat) (text : Bytes) (base : Nat) : Converted :=
  let start := basePrefix base (skipPlus (skipBlanks text))
  let read := strtoullDigits start.1 start.2 0
  ⟨read.1, read.2, errno⟩

/-- The sign in `strtol` and `strtoll`, and the text behind it. -/
def signPrefix (text : Bytes) : Bool × Bytes :=
  if charAt text 0 = 45 then (true, text.drop 1)
  else if charAt text 0 = 43 then (false, text.drop 1)
  else (false, text)

/-- `strtol`.  The negation wraps, as the instruction does. -/
def strtol (L : Long) (errno : Nat) (text : Bytes) (base : Nat) : Converted :=
  let signed := signPrefix (skipBlanks text)
  let u := strtoul L errno signed.2 base
  if signed.1 then
    -- `was_overflow` looks at errno, whoever has set it
    if u.errno = ERANGE ∨ u.value > LONG_MAX L + 1 then ⟨LONG_MIN L, u.rest, ERANGE⟩
    else ⟨(-u.value.bmod (2 ^ L.bits)).bmod (2 ^ L.bits), u.rest, u.errno⟩
  else if u.value > LONG_MAX L then ⟨LONG_MAX L, u.rest, ERANGE⟩
  else ⟨u.value, u.rest, u.errno⟩

/-- `strtoll`. -/
def strtoll (errno : Nat) (text : Bytes) (base : Nat) : Converted :=
  let signed := signPrefix (skipBlanks text)
  let u := strtoull errno signed.2 base
  if signed.1 then ⟨(-u.value.bmod (2 ^ 64)).bmod (2 ^ 64), u.rest, u.errno⟩
  else ⟨u.value.bmod (2 ^ 64), u.rest, u.errno⟩

/-! ### The standard -/

/-- The number that is read, with its sign. -/
def Subject.number (r : Subject) : Int := if r.negative then -r.magnitude else r.magnitude

/-- The value and errno of a conversion to an unsigned type: the magnitude is to fit, and a minus
    negates in the type. -/
def unsignedResult (bits errno : Nat) (r : Subject) : Int × Nat :=
  if r.magnitude < 2 ^ bits then (r.number % 2 ^ bits, errno) else (2 ^ bits - 1, ERANGE)

/-- The value and errno of a conversion to a signed type. -/
def signedResult (bits errno : Nat) (r : Subject) : Int × Nat :=
  if r.number < -2 ^ (bits - 1) then (-2 ^ (bits - 1), ERANGE)
  else if 2 ^ (bits - 1) ≤ r.number then (2 ^ (bits - 1) - 1, ERANGE)
  else (r.number, errno)

/-- 7.20.1.4: the subject sequence is converted and `*end` is behind it; where it is empty the value
    is 0, `*end` is the whole text and errno stays. -/
def Standard (result : Nat → Subject → Int × Nat) (base : Nat) (s : Bytes) (errno : Nat)
    (o : Converted) : Prop :=
  (∃ r, IsSubject base s r ∧ o = ⟨(result errno r).1, r.rest, (result errno r).2⟩) ∨
    NoSubject base s ∧ o = ⟨0, s, errno⟩

/-- The bases of the standard. -/
def ValidBase (base : Nat) : Prop := base = 0 ∨ 2 ≤ base ∧ base ≤ 36

instance (base : Nat) : Decidable (ValidBase base) := by
  unfold ValidBase
  infer_instance

/-! ### The texts that are taken apart as in the standard -/

/-- Behind the blanks and the sign stands `0x`, and no hexadecimal digit follows. -/
def BareMark (base : Nat) (text : Bytes) : Prop :=
  (base = 0 ∨ base = 16) ∧ charAt text 0 = 48 ∧ isMark (charAt text 1) = true ∧
    ¬ hexStart base text = true

/-- A numeral is found behind blanks that the library skips, and it is not the 0 of a bare `0x`. -/
def Plain (base : Nat) (s : Bytes) : Prop :=
  (∀ c ∈ s.takeWhile isspace, isBlank c = true) ∧
    ¬ BareMark base (takeSign (s.dropWhile isspace)).2

/-- The texts that the unsigned conversions take apart as the standard does.  Without a numeral
    `*end` is right only where nothing has been skipped. -/
def UnsignedText (base : Nat) (s : Bytes) : Prop :=
  match subject base s with
  | none => ∀ c ∈ s.head?, isBlank c = false ∧ c ≠ 43
  | some r => Plain base s ∧ r.negative = false

/-- The texts that the signed conversions take apart as the standard does. -/
def SignedText (base : Nat) (s : Bytes) : Prop :=
  match subject base s with
  | none => ∀ c ∈ s.head?, isBlank c = false ∧ c ≠ 43 ∧ c ≠ 45
  | some _ => Plain base s

/-- A condition on the number in a text, where there is one. -/
def OnNumber (base : Nat) (s : Bytes) (P : Subject → Prop) : Prop :=
  ∀ r, subject base s = some r → P r

variable {result : Nat → Subject → Int × Nat} {base errno : Nat} {s text : Bytes} {o : Converted}
  {c : UInt8} {r : Subject}

theorem standard_iff (hbase : ValidBase base) :
    Standard result base s errno o ↔
      o = (match subject base s with
        | none => ⟨0, s, errno⟩
        | some r => ⟨(result errno r).1, r.rest, (result errno r).2⟩) := by
  have hle : base ≤ 36 := by
    unfold ValidBase at hbase
    omega
  unfold Standard
  cases hs : subject base s with
  | none =>
    have hno := (subject_eq_none_iff hle).mp hs
    exact ⟨fun h => h.elim (fun ⟨r, hr, _⟩ => absurd hno hr.not_noSubject) (·.2),
      fun h => Or.inr ⟨hno, h⟩⟩
  | some r =>
    have hr := (subject_eq_some_iff hle).mp hs
    constructor
    · rintro (⟨r', hr', rfl⟩ | ⟨hno, -⟩)
      · rw [hr'.unique hle hr]
      · exact absurd hno hr.not_noSubject
    · exact fun h => Or.inl ⟨r, hr, h⟩

/-! ### The scan -/

/-- What the prefix and the loop make of a text: the number, without any limit, and the rest. -/
def scan (base : Nat) (text : Bytes) : Nat × Bytes :=
  let start := basePrefix base text
  (number start.1 (start.2.takeWhile (isDigit start.1)), start.2.dropWhile (isDigit start.1))

theorem digit_value_eq (c : UInt8) : digit_value c = valueOf c := rfl

theorem isDigit_iff : isDigit base c = true ↔ valueOf c < base :=
  decide_eq_true_iff

theorem gt_div_iff {max base digit value : Nat} (hbase : 0 < base) (hdigit : digit ≤ max) :
    value > (max - digit) / base ↔ max < value * base + digit := by
  rw [gt_iff_lt, Nat.div_lt_iff_lt_mul hbase]
  omega

/-- The loop keeps the number as long as it fits. -/
theorem strtoulDigits_eq {max : Nat} (hbase : 0 < base) (hmax : base ≤ max) (text : Bytes)
    {value : Nat} (hvalue : value ≤ max) :
    (strtoulDigits max base text value false).2 =
        (decide (max < numberFrom base value (text.takeWhile (isDigit base))),
          text.dropWhile (isDigit base)) ∧
      (numberFrom base value (text.takeWhile (isDigit base)) ≤ max →
        (strtoulDigits max base text value false).1 =
          numberFrom base value (text.takeWhile (isDigit base))) := by
  -- once over the limit, the rest of the digits is skipped and the number stays over it
  have hover : ∀ (text : Bytes) (v : Nat), (strtoulDigits max base text v true).2 =
      (true, text.dropWhile (isDigit base)) := by
    intro text v
    induction text with
    | nil => rfl
    | cons c text ih =>
      rw [strtoulDigits, digit_value_eq, dropWhile_cons]
      by_cases hc : valueOf c < base
      · rw [if_pos hc, if_pos rfl, if_pos (isDigit_iff.mpr hc)]
        exact ih
      · rw [if_neg hc, if_neg (isDigit_iff.not.mpr hc)]
  induction text generalizing value with
  | nil => exact ⟨by simp [strtoulDigits, numberFrom, Nat.not_lt.mpr hvalue], fun _ => rfl⟩
  | cons c text ih =>
    rw [strtoulDigits, digit_value_eq, takeWhile_cons, dropWhile_cons]
    by_cases hc : valueOf c < base
    · rw [if_pos hc, if_neg (by simp : ¬ false = true), if_pos (isDigit_iff.mpr hc),
        if_pos (isDigit_iff.mpr hc)]
      by_cases hgt : value > (max - valueOf c) / base
      · have hlt := (gt_div_iff hbase (by omega)).mp hgt
        have hle : value * base + valueOf c ≤
            numberFrom base value (c :: text.takeWhile (isDigit base)) :=
          le_numberFrom hbase _ _
        rw [if_pos hgt, hover, decide_eq_true (by omega)]
        exact ⟨rfl, fun h => absurd h (by omega)⟩
      · rw [if_neg hgt]
        exact ih (by have := (@gt_div_iff max base _ value hbase (by omega)).not.mp hgt; omega)
    · rw [if_neg hc, if_neg (isDigit_iff.not.mpr hc), if_neg (isDigit_iff.not.mpr hc)]
      exact ⟨by simp [numberFrom, Nat.not_lt.mpr hvalue], fun _ => rfl⟩

/-- The loop of `strtoull` keeps the number modulo `2 ^ 64`. -/
theorem strtoullDigits_eq (text : Bytes) {value n : Nat} (hn : value = n % 2 ^ 64) :
    strtoullDigits base text value =
      (numberFrom base n (text.takeWhile (isDigit base)) % 2 ^ 64,
        text.dropWhile (isDigit base)) := by
  induction text generalizing value n with
  | nil => rw [strtoullDigits, hn]; rfl
  | cons c text ih =>
    rw [strtoullDigits, digit_value_eq, takeWhile_cons, dropWhile_cons]
    by_cases hc : valueOf c < base
    · rw [if_pos hc, if_pos (isDigit_iff.mpr hc), if_pos (isDigit_iff.mpr hc)]
      have hnext : (value * base + valueOf c) % 2 ^ 64 = (n * base + valueOf c) % 2 ^ 64 := by
        rw [hn, Nat.add_mod, Nat.mod_mul_mod, ← Nat.add_mod]
      exact ih hnext
    · rw [if_neg hc, if_neg (isDigit_iff.not.mpr hc), if_neg (isDigit_iff.not.mpr hc), hn]
      rfl

theorem basePrefix_bounds (hbase : ValidBase base) (text : Bytes) :
    0 < (basePrefix base text).1 ∧ (basePrefix base text).1 ≤ 36 := by
  unfold ValidBase at hbase
  unfold basePrefix
  split_ifs <;> dsimp only <;> omega

theorem ULONG_MAX_ge (L : Long) : 36 ≤ ULONG_MAX L := by
  cases L <;> decide

/-- `strtoul` scans, and clamps the number. -/
theorem strtoul_eq (L : Long) (hbase : ValidBase base) (errno : Nat) (s : Bytes) :
    strtoul L errno s base =
      if (scan base (skipPlus (skipBlanks s))).1 < 2 ^ L.bits then
        ⟨(scan base (skipPlus (skipBlanks s))).1, (scan base (skipPlus (skipBlanks s))).2, errno⟩
      else ⟨2 ^ L.bits - 1, (scan base (skipPlus (skipBlanks s))).2, ERANGE⟩ := by
  unfold strtoul scan number
  dsimp only
  generalize hstart : basePrefix base (skipPlus (skipBlanks s)) = start
  have hbounds := basePrefix_bounds hbase (skipPlus (skipBlanks s))
  rw [hstart] at hbounds
  have hmax := ULONG_MAX_ge L
  obtain ⟨hread, hvalue⟩ :=
    strtoulDigits_eq hbounds.1 (by omega : start.1 ≤ ULONG_MAX L) start.2 (Nat.zero_le _)
  rw [hread]
  have hpos : 0 < 2 ^ L.bits := Nat.pow_pos (by omega)
  have hm : ULONG_MAX L = 2 ^ L.bits - 1 := rfl
  by_cases h : numberFrom start.1 0 (start.2.takeWhile (isDigit start.1)) < 2 ^ L.bits
  · rw [if_pos h, decide_eq_false (by omega), if_neg (by simp), hvalue (by omega)]
  · rw [if_neg h, decide_eq_true (by omega), if_pos rfl, hm, Nat.cast_sub (by omega)]
    push_cast
    rfl

/-- `strtoull` scans, and keeps the number modulo `2 ^ 64`. -/
theorem strtoull_eq (base errno : Nat) (s : Bytes) :
    strtoull errno s base =
      ⟨((scan base (skipPlus (skipBlanks s))).1 % 2 ^ 64 : Nat),
        (scan base (skipPlus (skipBlanks s))).2, errno⟩ := by
  unfold strtoull scan number
  dsimp only
  rw [strtoullDigits_eq _ (Nat.zero_mod _).symm]

/-- A text that begins with no digit is left alone. -/
theorem scan_of_head (hbase : ValidBase base)
    (h : ∀ c ∈ text.head?, valueOf c = 36) : scan base text = (0, text) := by
  have hzero : charAt text 0 ≠ 48 := by
    match text, h with
    | [], _ => decide
    | c :: text, h =>
      rintro rfl
      exact absurd (h 48 rfl) (by decide)
  have hstart : (basePrefix base text).2 = text := by
    unfold basePrefix
    by_cases hb : base = 0
    · rw [if_pos hb, if_neg hzero]
    · rw [if_neg hb, if_neg (fun h => hzero h.2.1)]
  have hb := (basePrefix_bounds hbase text).2
  unfold scan
  dsimp only
  rw [hstart]
  match text, h with
  | [], _ => rfl
  | c :: text, h =>
    have hc : ¬ isDigit (basePrefix base (c :: text)).1 c = true := by
      rw [isDigit_iff, h c rfl]
      omega
    rw [takeWhile_cons_of_neg hc, dropWhile_cons_of_neg hc]
    rfl

/-- `0x` and a digit in front of a text, by its characters. -/
theorem hexStart_iff_charAt :
    hexStart base text = true ↔ (base = 0 ∨ base = 16) ∧ charAt text 0 = 48 ∧
      isMark (charAt text 1) = true ∧ isDigit 16 (charAt text 2) = true := by
  match text with
  | [] => simp [hexStart, charAt]
  | [c] => simp [hexStart, charAt, isMark]
  | [c, x] => simp [hexStart, charAt, isDigit, valueOf]
  | c :: x :: d :: tail => simp [hexStart, charAt, and_assoc]

theorem isMark_iff : isMark c = true ↔ c = 120 ∨ c = 88 := by
  simp [isMark]

theorem charAt_zero_iff (hc : c ≠ 0) :
    charAt text 0 = c ↔ text.head? = some c := by
  cases text with
  | nil => simpa [charAt] using hc.symm
  | cons d text => simp [charAt]

/-- But for a bare `0x` the prefix is read as in the standard. -/
theorem basePrefix_eq (h : ¬ BareMark base text) :
    basePrefix base text = (radix base text, digitsOf base text) := by
  -- behind `0x` there is a digit
  have hmark : (base = 0 ∨ base = 16) → charAt text 0 = 48 →
      (charAt text 1 = 120 ∨ charAt text 1 = 88) → hexStart base text = true := by
    intro hbase h0 h1
    by_contra hno
    exact h ⟨hbase, h0, isMark_iff.mpr h1, hno⟩
  have hchars : hexStart base text = true → (base = 0 ∨ base = 16) ∧ charAt text 0 = 48 ∧
      (charAt text 1 = 120 ∨ charAt text 1 = 88) := by
    intro hhex
    obtain ⟨hbase, h0, h1, -⟩ := hexStart_iff_charAt.mp hhex
    exact ⟨hbase, h0, isMark_iff.mp h1⟩
  unfold basePrefix radix digitsOf
  by_cases hbase : base = 0
  · subst hbase
    rw [if_pos rfl, if_neg (by simp : ¬ (0 : Nat) ≠ 0)]
    by_cases hhex : hexStart 0 text = true
    · obtain ⟨-, h0, h1⟩ := hchars hhex
      rw [if_pos h0, if_pos h1, if_pos hhex, if_pos hhex]
    · rw [if_neg hhex, if_neg hhex]
      by_cases h0 : charAt text 0 = 48
      · rw [if_pos h0, if_neg (fun h1 => hhex (hmark (Or.inl rfl) h0 h1)),
          if_pos ((charAt_zero_iff (by decide)).mp h0)]
      · rw [if_neg h0, if_neg (fun hh => h0 ((charAt_zero_iff (by decide)).mpr hh))]
  · rw [if_neg hbase, if_pos hbase]
    by_cases hhex : hexStart base text = true
    · obtain ⟨hb, h0, h1⟩ := hchars hhex
      rw [if_pos ⟨hb.resolve_left hbase, h0, h1⟩, if_pos hhex]
    · rw [if_neg (fun h1 => hhex (hmark (Or.inr h1.1) h1.2.1 h1.2.2)), if_neg hhex]

/-- But for a bare `0x`, the scan finds the longest numeral, or nothing. -/
theorem scan_eq (h : ¬ BareMark base text) :
    scan base text = (numeral base text).getD (0, text) := by
  unfold scan numeral
  rw [basePrefix_eq h]
  dsimp only
  split
  next hnil =>
    -- without digits, no prefix has been skipped either
    have hhex : ¬ hexStart base text = true := by
      intro hhex
      rw [radix_of_hexStart hhex, digitsOf, if_pos hhex] at hnil
      obtain ⟨x, d, tail, rfl, -, -, hd⟩ := exists_of_hexStart hhex
      simp [hd] at hnil
    have hrest := takeWhile_append_dropWhile (p := isDigit (radix base text))
      (l := digitsOf base text)
    rw [hnil, nil_append] at hrest
    rw [hnil, hrest, digitsOf, if_neg hhex]
    rfl
  next => rfl

/-- Of a bare `0x` the library takes both characters, and the standard the 0. -/
theorem scan_of_bareMark (h : BareMark base text) :
    ∃ x tail, scan base text = (0, tail) ∧ numeral base text = some (0, x :: tail) := by
  obtain ⟨hbase, h0, h1, hno⟩ := h
  have hdigit : isDigit 16 (charAt text 2) = false := by
    by_contra hd
    exact hno (hexStart_iff_charAt.mpr ⟨hbase, h0, h1, by simpa using hd⟩)
  rcases text with _ | ⟨c, _ | ⟨x, tail⟩⟩
  · exact absurd h0 (by decide)
  · exact absurd h1 (by simp [charAt, isMark])
  · obtain rfl : c = 48 := h0
    have hx : isMark x = true := h1
    have hstart : basePrefix base (48 :: x :: tail) = (16, tail) := by
      unfold basePrefix
      have hzero : charAt (48 :: x :: tail) 0 = 48 := rfl
      have hx' : charAt (48 :: x :: tail) 1 = 120 ∨ charAt (48 :: x :: tail) 1 = 88 :=
        isMark_iff.mp hx
      rcases hbase with rfl | rfl
      · rw [if_pos rfl, if_pos hzero, if_pos hx']
        rfl
      · rw [if_neg (by simp), if_pos ⟨rfl, rfl, hx'⟩]
        rfl
    have hscan : tail.takeWhile (isDigit 16) = [] ∧ tail.dropWhile (isDigit 16) = tail := by
      cases tail with
      | nil => exact ⟨rfl, rfl⟩
      | cons d tail =>
        have hd : ¬ isDigit 16 d = true := by simpa [charAt] using hdigit
        exact ⟨takeWhile_cons_of_neg hd, dropWhile_cons_of_neg hd⟩
    have hradix : radix base (48 :: x :: tail) ≤ 16 ∧ 0 < radix base (48 :: x :: tail) := by
      unfold radix
      split_ifs <;> omega
    have hzero : isDigit (radix base (48 :: x :: tail)) 48 = true := by
      rw [isDigit_iff]
      exact hradix.2
    refine ⟨x, tail, ?_, ?_⟩
    · rw [scan, hstart, hscan.1, hscan.2]
      rfl
    · simp [numeral, digitsOf, hno, hzero, isDigit_of_isMark hx hradix.1, number, numberFrom,
        valueOf]

/-! ### What is skipped -/

/-- A blank is no digit and no sign. -/
theorem valueOf_of_isspace (h : isspace c = true) :
    valueOf c = 36 ∧ c ≠ 43 ∧ c ≠ 45 := by
  have hc : c.toNat = 32 ∨ 9 ≤ c.toNat ∧ c.toNat ≤ 13 := by simpa [isspace] using h
  refine ⟨?_, ?_, ?_⟩
  · unfold valueOf
    rw [if_neg (by omega), if_neg (by omega), if_neg (by omega)]
  · rintro rfl
    cases h
  · rintro rfl
    cases h

theorem isspace_of_isBlank (h : isBlank c = true) : isspace c = true := by
  have hc : (c = 32 ∨ c = 9) ∨ c = 10 := by simpa [isBlank] using h
  rcases hc with (rfl | rfl) | rfl <;> decide

/-- A digit or a letter is no blank and no sign. -/
theorem not_skipped_of_digit (h : valueOf c < 36) :
    isspace c = false ∧ isBlank c = false ∧ c ≠ 43 ∧ c ≠ 45 := by
  have hspace : isspace c = false := by
    by_contra hc
    have := (valueOf_of_isspace (by simpa using hc)).1
    omega
  refine ⟨hspace, ?_, ?_, ?_⟩
  · by_contra hc
    rw [isspace_of_isBlank (by simpa using hc)] at hspace
    exact absurd hspace (by simp)
  · rintro rfl
    exact absurd h (by decide)
  · rintro rfl
    exact absurd h (by decide)

/-- The library's sign is the standard's. -/
theorem signPrefix_eq (text : Bytes) : signPrefix text = takeSign text := by
  unfold takeSign
  split
  · rfl
  · rfl
  next h45 h43 =>
    match text with
    | [] => rfl
    | c :: text =>
      have hc45 : c ≠ 45 := fun h => h45 text (by rw [h])
      have hc43 : c ≠ 43 := fun h => h43 text (by rw [h])
      rw [signPrefix, if_neg (by simpa [charAt] using hc45), if_neg (by simpa [charAt] using hc43)]

/-- A text that begins with no sign has none. -/
theorem takeSign_of_head (h : ∀ c ∈ text.head?, c ≠ 43 ∧ c ≠ 45) :
    takeSign text = (false, text) := by
  rw [← signPrefix_eq]
  match text, h with
  | [], _ => rfl
  | c :: text, h =>
    rw [signPrefix, if_neg (by simpa [charAt] using (h c rfl).2),
      if_neg (by simpa [charAt] using (h c rfl).1)]

theorem skipPlus_of_head (h : ∀ c ∈ text.head?, c ≠ 43) : skipPlus text = text := by
  match text, h with
  | [], _ => rfl
  | c :: text, h => exact if_neg (by simpa [charAt] using h c rfl)

theorem skipBlanks_of_head (h : ∀ c ∈ text.head?, isBlank c = false) :
    skipBlanks text = text := by
  match text, h with
  | [], _ => rfl
  | c :: text, h => exact dropWhile_cons_of_neg (by simp [h c rfl])

theorem length_skipBlanks_le (text : Bytes) : (skipBlanks text).length ≤ text.length :=
  (dropWhile_sublist _).length_le

theorem length_skipPlus_le (text : Bytes) : (skipPlus text).length ≤ text.length := by
  unfold skipPlus
  split
  · rw [length_drop]
    omega
  · exact Nat.le_refl _

theorem length_takeSign_le (text : Bytes) : (takeSign text).2.length ≤ text.length := by
  obtain ⟨sign, h, -⟩ := takeSign_spec text
  have := congrArg length h
  rw [length_append] at this
  omega

theorem length_scan_le (base : Nat) (text : Bytes) : (scan base text).2.length ≤ text.length := by
  have hstart : (basePrefix base text).2.length ≤ text.length := by
    unfold basePrefix
    split_ifs <;> simp
  exact Nat.le_trans (dropWhile_sublist _).length_le hstart

/-- Where the library knows every blank, it skips what the standard skips. -/
theorem skipBlanks_eq (h : ∀ c ∈ s.takeWhile isspace, isBlank c = true) :
    skipBlanks s = s.dropWhile isspace := by
  induction s with
  | nil => rfl
  | cons c s ih =>
    by_cases hc : isspace c = true
    · rw [takeWhile_cons_of_pos hc] at h
      rw [dropWhile_cons_of_pos hc,
        ← ih (fun d hd => h d (mem_cons_of_mem _ hd))]
      exact dropWhile_cons_of_pos (h c mem_cons_self)
    · rw [dropWhile_cons_of_neg hc]
      exact dropWhile_cons_of_neg (fun hb => hc (isspace_of_isBlank hb))

/-- Where it does not, it stops at a blank. -/
theorem skipBlanks_stops (h : ¬ ∀ c ∈ s.takeWhile isspace, isBlank c = true) :
    ∃ c tail, skipBlanks s = c :: tail ∧ isspace c = true ∧ isBlank c = false ∧
      (s.dropWhile isspace).length ≤ tail.length := by
  induction s with
  | nil => exact absurd (by simp) h
  | cons c s ih =>
    have hc : isspace c = true := by
      by_contra hc
      exact h (by simp [takeWhile_cons_of_neg hc])
    rw [takeWhile_cons_of_pos hc, forall_mem_cons] at h
    rw [dropWhile_cons_of_pos hc]
    by_cases hb : isBlank c = true
    · obtain ⟨d, tail, heq, hd, hdb, hlen⟩ := ih (fun hall => h ⟨hb, hall⟩)
      exact ⟨d, tail, (dropWhile_cons_of_pos hb).trans heq, hd, hdb, hlen⟩
    · exact ⟨c, s, dropWhile_cons_of_neg hb, hc, by simpa using hb,
        (dropWhile_sublist _).length_le⟩

/-! ### The scan against the standard -/

/-- What the standard reads, as a scan. -/
def expected (base : Nat) (s : Bytes) : Nat × Bytes :=
  match subject base s with
  | none => (0, s)
  | some r => (r.magnitude, r.rest)

theorem ValidBase.le (h : ValidBase base) : base ≤ 36 := by
  unfold ValidBase at h
  omega

theorem head_of_numeral {v : Nat} (hbase : ValidBase base) {rest : Bytes}
    (h : numeral base text = some (v, rest)) :
    rest.length < text.length ∧ ∃ c tail, text = c :: tail ∧ valueOf c < 36 := by
  obtain ⟨u, rfl, hnum, -⟩ := numeral_eq_some h
  obtain ⟨c, tail, rfl, hc⟩ := hnum.head hbase.le
  exact ⟨by simp only [cons_append, length_cons, length_append]; omega, c, tail ++ rest, rfl, hc⟩

theorem numeral_of_subject (h : subject base s = some r) :
    (takeSign (s.dropWhile isspace)).1 = r.negative ∧
      numeral base (takeSign (s.dropWhile isspace)).2 = some (r.magnitude, r.rest) := by
  obtain ⟨⟨v, rest⟩, hfound, rfl⟩ := Option.map_eq_some_iff.mp h
  exact ⟨rfl, hfound⟩

theorem length_rest_lt (hbase : ValidBase base)
    (h : subject base s = some r) : r.rest.length < (s.dropWhile isspace).length :=
  Nat.lt_of_lt_of_le (head_of_numeral hbase (numeral_of_subject h).2).1 (length_takeSign_le _)

/-- Without a subject sequence nothing is found in the text itself. -/
theorem scan_of_none (hbase : ValidBase base)
    (h : subject base s = none) : scan base s = (0, s) := by
  by_cases hhead : ∀ c ∈ s.head?, valueOf c = 36
  · exact scan_of_head hbase hhead
  · -- the text begins with a digit: nothing stands between it and the numeral
    match s, hhead with
    | [], hhead => exact absurd (by simp) hhead
    | c :: s, hhead =>
      have hc : valueOf c < 36 := by
        have hle : valueOf c ≤ 36 := by
          unfold valueOf
          split_ifs <;> omega
        have hne : valueOf c ≠ 36 := by simpa using hhead
        omega
      obtain ⟨hspace, -, h43, h45⟩ := not_skipped_of_digit hc
      have hdrop : (c :: s).dropWhile isspace = c :: s :=
        dropWhile_cons_of_neg (by simp [hspace])
      have hsign : takeSign (c :: s) = (false, c :: s) :=
        takeSign_of_head (by simpa using ⟨h43, h45⟩)
      have hnone : numeral base (c :: s) = none := by
        simpa [subject, hdrop, hsign] using h
      have hbare : ¬ BareMark base (c :: s) := by
        intro hbare
        obtain ⟨x, tail, -, hsome⟩ := scan_of_bareMark hbare
        rw [hnone] at hsome
        simp at hsome
      rw [scan_eq hbare, hnone]
      rfl

theorem skip_of_digit (hc : valueOf c < 36) (tail : Bytes) :
    skipPlus (skipBlanks (c :: tail)) = c :: tail := by
  obtain ⟨-, hblank, h43, -⟩ := not_skipped_of_digit hc
  rw [skipBlanks_of_head (by simpa using hblank), skipPlus_of_head (by simpa using h43)]

theorem scan_stopped (hbase : ValidBase base) (hc : isspace c = true)
    (tail : Bytes) : scan base (c :: tail) = (0, c :: tail) :=
  scan_of_head hbase (by simpa using (valueOf_of_isspace hc).1)

/-- In front of a digit, `if (*text == '+') ++text` takes the sign but for a minus. -/
theorem skipPlus_of_sign {tail : Bytes}
    (hsign : takeSign text = (false, c :: tail)) (hc : valueOf c < 36) :
    skipPlus text = c :: tail := by
  obtain ⟨sign, htext, hform⟩ := takeSign_spec text
  rw [hsign] at htext hform
  cases hform with
  | absent =>
    rw [htext, nil_append]
    exact skipPlus_of_head (by simpa using (not_skipped_of_digit hc).2.2.1)
  | plus =>
    rw [htext]
    rfl

/-- A minus is no digit for the scan. -/
theorem scan_of_minus (hbase : ValidBase base)
    (hsign : (takeSign text).1 = true) : scan base (skipPlus text) = (0, text) := by
  obtain ⟨sign, htext, hform⟩ := takeSign_spec text
  rw [hsign] at hform
  cases hform with
  | minus =>
    have hhead : text.head? = some 45 := by
      rw [htext]
      rfl
    rw [skipPlus_of_head (by rw [hhead]; simp)]
    refine scan_of_head hbase ?_
    rw [hhead]
    simp
    decide

/-- The text that an unsigned conversion scans. -/
def unsignedStart (s : Bytes) : Bytes := skipPlus (skipBlanks s)

/-- An unsigned conversion scans what the standard reads exactly on the texts for it. -/
theorem unsigned_scan (hbase : ValidBase base) (s : Bytes) :
    (UnsignedText base s → scan base (unsignedStart s) = expected base s) ∧
      ((scan base (unsignedStart s)).2 = (expected base s).2 → UnsignedText base s) := by
  unfold UnsignedText expected unsignedStart
  cases hsub : subject base s with
  | none =>
    refine ⟨fun h => ?_, fun h c hc => ?_⟩
    · rw [skipBlanks_of_head (fun c hc => (h c hc).1), skipPlus_of_head (fun c hc => (h c hc).2)]
      exact scan_of_none hbase hsub
    · -- whatever is skipped is missing from the rest
      obtain ⟨tail, rfl⟩ : ∃ tail, s = c :: tail := by
        cases s with
        | nil => simp at hc
        | cons d tail =>
          obtain rfl : d = c := by simpa using hc
          exact ⟨tail, rfl⟩
      have hlen := length_scan_le base (skipPlus (skipBlanks (c :: tail)))
      rw [h] at hlen
      dsimp only at hlen
      refine ⟨?_, ?_⟩
      · by_contra hblank
        have hskip : skipBlanks (c :: tail) = skipBlanks tail :=
          dropWhile_cons_of_pos (by simpa using hblank)
        have h1 := length_skipPlus_le (skipBlanks tail)
        have h2 := length_skipBlanks_le tail
        rw [hskip, length_cons] at hlen
        omega
      · rintro rfl
        have hskip : skipPlus (skipBlanks (43 :: tail)) = tail := by
          rw [skipBlanks_of_head (by simp; decide)]
          rfl
        rw [hskip, length_cons] at hlen
        omega
  | some r =>
    obtain ⟨hneg, hnum⟩ := numeral_of_subject hsub
    have hlen := length_rest_lt hbase hsub
    obtain ⟨-, c, tail, hc, hdigit⟩ := head_of_numeral hbase hnum
    dsimp only
    refine ⟨fun ⟨⟨hblanks, hbare⟩, hpos⟩ => ?_, fun h => ?_⟩
    · have hsign : takeSign (s.dropWhile isspace) = (false, c :: tail) :=
        Prod.ext (hneg.trans hpos) hc
      rw [skipBlanks_eq hblanks, skipPlus_of_sign hsign hdigit, ← hc, scan_eq hbare, hnum]
      rfl
    · by_cases hblanks : ∀ d ∈ s.takeWhile isspace, isBlank d = true
      · rw [skipBlanks_eq hblanks] at h
        by_cases hpos : r.negative = true
        · rw [scan_of_minus hbase (hneg.trans hpos)] at h
          dsimp only at h
          rw [h] at hlen
          exact absurd hlen (Nat.lt_irrefl _)
        · have hsign : takeSign (s.dropWhile isspace) = (false, c :: tail) :=
            Prod.ext (hneg.trans (by simpa using hpos)) hc
          refine ⟨⟨hblanks, fun hbare => ?_⟩, by simpa using hpos⟩
          obtain ⟨x, rest, hscan, hzero⟩ := scan_of_bareMark hbare
          rw [skipPlus_of_sign hsign hdigit, ← hc, hscan] at h
          rw [hnum] at hzero
          have hrest : r.rest = x :: rest := congrArg Prod.snd (Option.some.inj hzero)
          exact absurd (congrArg length (h.trans hrest)) (by simp)
      · obtain ⟨d, rest, hskip, hd, -, hle⟩ := skipBlanks_stops hblanks
        have hd43 := (valueOf_of_isspace hd).2.1
        rw [hskip, skipPlus_of_head (by simpa using hd43), scan_stopped hbase hd] at h
        have := congrArg length h
        simp only [length_cons] at this
        omega

/-- The text that a signed conversion scans. -/
def signedStart (s : Bytes) : Bytes := unsignedStart (signPrefix (skipBlanks s)).2

/-- A signed conversion scans what the standard reads exactly on the texts for it. -/
theorem signed_scan (hbase : ValidBase base) (s : Bytes) :
    (SignedText base s → scan base (signedStart s) = expected base s) ∧
      ((scan base (signedStart s)).2 = (expected base s).2 → SignedText base s) := by
  unfold SignedText expected signedStart unsignedStart
  rw [signPrefix_eq]
  cases hsub : subject base s with
  | none =>
    refine ⟨fun h => ?_, fun h c hc => ?_⟩
    · have hblank : skipBlanks s = s := skipBlanks_of_head (fun c hc => (h c hc).1)
      rw [hblank, takeSign_of_head (fun c hc => (h c hc).2)]
      dsimp only
      rw [hblank, skipPlus_of_head (fun c hc => (h c hc).2.1)]
      exact scan_of_none hbase hsub
    · -- whatever is skipped is missing from the rest
      have hlen := length_scan_le base (skipPlus (skipBlanks (takeSign (skipBlanks s)).2))
      have h1 := length_skipPlus_le (skipBlanks (takeSign (skipBlanks s)).2)
      have h2 := length_skipBlanks_le (takeSign (skipBlanks s)).2
      rw [h] at hlen
      dsimp only at hlen
      match s, hc with
      | d :: tail, hc =>
        obtain rfl : d = c := by simpa using hc
        have hblank : isBlank d = false := by
          by_contra hblank
          have hskip : skipBlanks (d :: tail) = skipBlanks tail :=
            dropWhile_cons_of_pos (by simpa using hblank)
          have h3 := length_takeSign_le (skipBlanks tail)
          have h4 := length_skipBlanks_le tail
          rw [hskip] at hlen h1 h2
          rw [length_cons] at hlen
          omega
        have hskip : skipBlanks (d :: tail) = d :: tail :=
          skipBlanks_of_head (by simpa using hblank)
        rw [hskip] at hlen h1 h2
        refine ⟨hblank, ?_, ?_⟩
        · rintro rfl
          simp only [takeSign, length_cons] at hlen h1 h2
          omega
        · rintro rfl
          simp only [takeSign, length_cons] at hlen h1 h2
          omega
  | some r =>
    obtain ⟨hneg, hnum⟩ := numeral_of_subject hsub
    have hlen := length_rest_lt hbase hsub
    obtain ⟨-, c, tail, hc, hdigit⟩ := head_of_numeral hbase hnum
    dsimp only
    refine ⟨fun ⟨hblanks, hbare⟩ => ?_, fun h => ?_⟩
    · rw [skipBlanks_eq hblanks, hc, skip_of_digit hdigit, ← hc, scan_eq hbare, hnum]
      rfl
    · by_cases hblanks : ∀ d ∈ s.takeWhile isspace, isBlank d = true
      · refine ⟨hblanks, fun hbare => ?_⟩
        obtain ⟨x, rest, hscan, hzero⟩ := scan_of_bareMark hbare
        rw [skipBlanks_eq hblanks, hc, skip_of_digit hdigit, ← hc, hscan] at h
        rw [hnum] at hzero
        have hrest : r.rest = x :: rest := congrArg Prod.snd (Option.some.inj hzero)
        exact absurd (congrArg length (h.trans hrest)) (by simp)
      · obtain ⟨d, rest, hskip, hd, hblank, hle⟩ := skipBlanks_stops hblanks
        have hsigns := (valueOf_of_isspace hd).2
        rw [hskip, takeSign_of_head (by simpa using hsigns)] at h
        dsimp only at h
        rw [skipBlanks_of_head (by simpa using hblank), skipPlus_of_head (by simpa using hsigns.1),
          scan_stopped hbase hd] at h
        have := congrArg length h
        simp only [length_cons] at this
        omega

/-! ### Where the conversions follow the standard -/

/-- A conversion meets the standard where the rest is right and, on the texts where it is, the value
    and errno are. -/
theorem standard_iff_of_scan (hbase : ValidBase base) {start : Bytes} {T : Prop}
    (hrest : o.rest = (scan base start).2)
    (hscan : (T → scan base start = expected base s) ∧
      ((scan base start).2 = (expected base s).2 → T)) :
    Standard result base s errno o ↔ T ∧ (match subject base s with
      | none => o.value = 0 ∧ o.errno = errno
      | some r => o.value = (result errno r).1 ∧ o.errno = (result errno r).2) := by
  rw [standard_iff hbase]
  unfold expected at hscan
  cases hsub : subject base s with
  | none =>
    rw [hsub] at hscan
    constructor
    · rintro rfl
      exact ⟨hscan.2 hrest.symm, rfl, rfl⟩
    · rintro ⟨hT, hvalue, herrno⟩
      exact Converted.ext hvalue (hrest.trans (congrArg Prod.snd (hscan.1 hT))) herrno
  | some r =>
    rw [hsub] at hscan
    constructor
    · rintro rfl
      exact ⟨hscan.2 hrest.symm, rfl, rfl⟩
    · rintro ⟨hT, hvalue, herrno⟩
      exact Converted.ext hvalue (hrest.trans (congrArg Prod.snd (hscan.1 hT))) herrno

/-- A call on a text that is taken apart as in the standard. -/
theorem follows_iff (hbase : ValidBase base) {start : Bytes} {T : Prop} {P : Subject → Prop}
    (hrest : o.rest = (scan base start).2)
    (hscan : (T → scan base start = expected base s) ∧
      ((scan base start).2 = (expected base s).2 → T))
    (hnone : T → subject base s = none → o.value = 0 ∧ o.errno = errno)
    (hsome : T → ∀ r, subject base s = some r →
      (o.value = (result errno r).1 ∧ o.errno = (result errno r).2 ↔ P r)) :
    Standard result base s errno o ↔ T ∧ OnNumber base s P := by
  rw [standard_iff_of_scan hbase hrest hscan]
  unfold OnNumber
  refine and_congr_right fun hT => ?_
  cases hsub : subject base s with
  | none => exact ⟨fun _ r hr => absurd hr (by simp), fun _ => hnone hT hsub⟩
  | some r =>
    refine (hsome hT r hsub).trans ⟨fun h r' hr' => ?_, fun h => h r rfl⟩
    obtain rfl : r = r' := Option.some.inj hr'
    exact h

theorem UnsignedText.not_negative (h : UnsignedText base s)
    (hr : subject base s = some r) : r.negative = false := by
  unfold UnsignedText at h
  rw [hr] at h
  exact h.2

theorem expected_of_none (h : subject base s = none) :
    expected base s = (0, s) := by
  rw [expected, h]

theorem expected_of_some (h : subject base s = some r) :
    expected base s = (r.magnitude, r.rest) := by
  rw [expected, h]

/-- Without a minus the magnitude is clamped. -/
theorem unsignedResult_of_pos (h : r.negative = false) (bits errno : Nat) :
    unsignedResult bits errno r =
      if r.magnitude < 2 ^ bits then ((r.magnitude : Int), errno) else (2 ^ bits - 1, ERANGE) := by
  unfold unsignedResult Subject.number
  rw [h, if_neg (by simp : ¬ false = true)]
  by_cases hlt : r.magnitude < 2 ^ bits
  · rw [if_pos hlt, if_pos hlt, Int.emod_eq_of_lt (by omega) (by exact_mod_cast hlt)]
  · rw [if_neg hlt, if_neg hlt]

/-- `strtoul` follows the standard exactly on the texts for it. -/
theorem strtoul_follows (L : Long) (hbase : ValidBase base) (s : Bytes) (errno : Nat) :
    Standard (unsignedResult L.bits) base s errno (strtoul L errno s base) ↔
      UnsignedText base s ∧ OnNumber base s fun _ => True := by
  have hscan := unsigned_scan hbase s
  have hcode := strtoul_eq L hbase errno s
  change _ = if (scan base (unsignedStart s)).1 < 2 ^ L.bits then
      (⟨(scan base (unsignedStart s)).1, (scan base (unsignedStart s)).2, errno⟩ : Converted)
    else ⟨2 ^ L.bits - 1, (scan base (unsignedStart s)).2, ERANGE⟩ at hcode
  rw [hcode]
  refine follows_iff hbase ?_ hscan (fun hT hnone => ?_) (fun hT r hr => ?_)
  · split <;> rfl
  · rw [hscan.1 hT, expected_of_none hnone, if_pos (Nat.pow_pos (by omega))]
    exact ⟨rfl, rfl⟩
  · rw [hscan.1 hT, expected_of_some hr, unsignedResult_of_pos (hT.not_negative hr)]
    refine ⟨fun _ => trivial, fun _ => ?_⟩
    by_cases hlt : r.magnitude < 2 ^ L.bits
    · rw [if_pos hlt, if_pos hlt]
      exact ⟨rfl, rfl⟩
    · rw [if_neg hlt, if_neg hlt]
      exact ⟨rfl, rfl⟩

/-- `strtoull` checks no overflow: a number over the limit is right only by accident. -/
theorem strtoull_follows (hbase : ValidBase base) (s : Bytes) (errno : Nat) :
    Standard (unsignedResult 64) base s errno (strtoull errno s base) ↔
      UnsignedText base s ∧ OnNumber base s fun r =>
        r.magnitude < 2 ^ 64 ∨ errno = ERANGE ∧ r.magnitude % 2 ^ 64 = 2 ^ 64 - 1 := by
  have hscan := unsigned_scan hbase s
  have hcode : strtoull errno s base = ⟨((scan base (unsignedStart s)).1 % 2 ^ 64 : Nat),
      (scan base (unsignedStart s)).2, errno⟩ := strtoull_eq base errno s
  rw [hcode]
  refine follows_iff hbase rfl hscan (fun hT hnone => ?_) (fun hT r hr => ?_)
  · rw [hscan.1 hT, expected_of_none hnone]
    exact ⟨rfl, rfl⟩
  · rw [hscan.1 hT, expected_of_some hr, unsignedResult_of_pos (hT.not_negative hr)]
    by_cases hlt : r.magnitude < 2 ^ 64
    · rw [if_pos hlt]
      dsimp only
      omega
    · rw [if_neg hlt]
      dsimp only
      omega

/-- The sign that a signed conversion takes is the one of the subject sequence. -/
theorem SignedText.sign (h : SignedText base s) :
    (signPrefix (skipBlanks s)).1 = (match subject base s with
      | none => false
      | some r => r.negative) := by
  unfold SignedText at h
  rw [signPrefix_eq]
  cases hsub : subject base s with
  | none =>
    rw [hsub] at h
    rw [skipBlanks_of_head (fun c hc => (h c hc).1), takeSign_of_head (fun c hc => (h c hc).2)]
  | some r =>
    rw [hsub] at h
    rw [skipBlanks_eq h.1]
    exact (numeral_of_subject hsub).1

theorem SignedText.sign_of_none (h : SignedText base s)
    (hnone : subject base s = none) : (signPrefix (skipBlanks s)).1 = false := by
  rw [h.sign, hnone]

theorem SignedText.sign_of_some (h : SignedText base s)
    (hr : subject base s = some r) : (signPrefix (skipBlanks s)).1 = r.negative := by
  rw [h.sign, hr]

theorem neg_bmod (L : Long) {n : Nat} (h : n ≤ 2 ^ (L.bits - 1)) :
    (-(n : Int).bmod (2 ^ L.bits)).bmod (2 ^ L.bits) = -n := by
  cases L <;>
  · simp only [Long.bits, Nat.reduceSub, Nat.reducePow] at h ⊢
    simp only [Int.bmod]
    omega

/-- `strtol` by the number of the scan: the limits are checked, but errno from before counts as an
    overflow behind a minus. -/
theorem strtol_eq (L : Long) (hbase : ValidBase base) (errno : Nat) (s : Bytes) :
    strtol L errno s base =
      if (signPrefix (skipBlanks s)).1 then
        if errno = ERANGE ∨ 2 ^ (L.bits - 1) < (scan base (signedStart s)).1 then
          ⟨LONG_MIN L, (scan base (signedStart s)).2, ERANGE⟩
        else ⟨-(scan base (signedStart s)).1, (scan base (signedStart s)).2, errno⟩
      else if 2 ^ (L.bits - 1) ≤ (scan base (signedStart s)).1 then
        ⟨LONG_MAX L, (scan base (signedStart s)).2, ERANGE⟩
      else ⟨(scan base (signedStart s)).1, (scan base (signedStart s)).2, errno⟩ := by
  unfold strtol
  dsimp only
  have hcode := strtoul_eq L hbase errno (signPrefix (skipBlanks s)).2
  change _ = if (scan base (signedStart s)).1 < 2 ^ L.bits then
      (⟨(scan base (signedStart s)).1, (scan base (signedStart s)).2, errno⟩ : Converted)
    else ⟨2 ^ L.bits - 1, (scan base (signedStart s)).2, ERANGE⟩ at hcode
  rw [hcode]
  generalize (scan base (signedStart s)).2 = rest
  generalize hn : (scan base (signedStart s)).1 = n
  have hdouble : (2 : Nat) ^ L.bits = 2 * 2 ^ (L.bits - 1) := by cases L <;> rfl
  have hdouble' : (2 : Int) ^ L.bits = 2 * 2 ^ (L.bits - 1) := by exact_mod_cast hdouble
  have hmax : LONG_MAX L = 2 ^ (L.bits - 1) - 1 := rfl
  have hcast : ((2 ^ (L.bits - 1) : Nat) : Int) = 2 ^ (L.bits - 1) := by push_cast; rfl
  have hpos : 0 < 2 ^ (L.bits - 1) := Nat.pow_pos (by omega)
  by_cases hneg : (signPrefix (skipBlanks s)).1 = true
  · rw [if_pos hneg, if_pos hneg]
    by_cases hlt : n < 2 ^ L.bits
    · rw [if_pos hlt]
      dsimp only
      by_cases hover : errno = ERANGE ∨ 2 ^ (L.bits - 1) < n
      · rw [if_pos hover, if_pos (hover.imp_right fun h => by omega)]
      · rw [if_neg hover, if_neg (fun h => hover (h.imp_right fun h => by omega)),
          neg_bmod L (by omega)]
    · rw [if_neg hlt]
      dsimp only
      rw [if_pos (Or.inl rfl), if_pos (Or.inr (by omega))]
  · rw [if_neg hneg, if_neg hneg]
    by_cases hlt : n < 2 ^ L.bits
    · rw [if_pos hlt]
      dsimp only
      by_cases hover : 2 ^ (L.bits - 1) ≤ n
      · rw [if_pos hover, if_pos (by omega)]
      · rw [if_neg hover, if_neg (by omega)]
    · rw [if_neg hlt]
      dsimp only
      rw [if_pos (by omega), if_pos (by omega)]

/-- `strtol` takes an errno from before for an overflow of its own. -/
theorem strtol_follows (L : Long) (hbase : ValidBase base) (s : Bytes) (errno : Nat) :
    Standard (signedResult L.bits) base s errno (strtol L errno s base) ↔
      SignedText base s ∧ OnNumber base s fun r =>
        r.negative = true → errno = ERANGE → 2 ^ (L.bits - 1) ≤ r.magnitude := by
  have hscan := signed_scan hbase s
  rw [strtol_eq L hbase]
  have hpos : 0 < 2 ^ (L.bits - 1) := Nat.pow_pos (by omega)
  have hcast : ((2 ^ (L.bits - 1) : Nat) : Int) = 2 ^ (L.bits - 1) := by push_cast; rfl
  refine follows_iff hbase ?_ hscan (fun hT hnone => ?_) (fun hT r hr => ?_)
  · split_ifs <;> rfl
  · rw [hT.sign_of_none hnone, hscan.1 hT, expected_of_none hnone, if_neg (by simp),
      if_neg (by dsimp only; omega)]
    exact ⟨rfl, rfl⟩
  · rw [hT.sign_of_some hr, hscan.1 hT, expected_of_some hr, signedResult, Subject.number]
    dsimp only
    unfold LONG_MIN LONG_MAX
    cases hneg : r.negative with
    | true =>
      rw [if_pos rfl, if_pos rfl]
      by_cases hover : 2 ^ (L.bits - 1) < r.magnitude
      · rw [if_pos (Or.inr hover), if_pos (by omega)]
        exact ⟨fun _ _ _ => by omega, fun _ => ⟨rfl, rfl⟩⟩
      · rw [if_neg (by omega : ¬ -(r.magnitude : Int) < -2 ^ (L.bits - 1)),
          if_neg (by omega : ¬ (2 : Int) ^ (L.bits - 1) ≤ -r.magnitude)]
        by_cases herr : errno = ERANGE
        · rw [if_pos (Or.inl herr)]
          dsimp only
          constructor
          · intro h _ _
            omega
          · intro h
            have := h rfl herr
            exact ⟨by omega, herr.symm⟩
        · rw [if_neg (fun h => h.elim herr hover)]
          exact ⟨fun _ _ h => absurd h herr, fun _ => ⟨rfl, rfl⟩⟩
    | false =>
      rw [if_neg (by simp : ¬ false = true), if_neg (by simp : ¬ false = true),
        if_neg (by omega : ¬ (r.magnitude : Int) < -2 ^ (L.bits - 1))]
      refine ⟨fun _ h => absurd h (by simp), fun _ => ?_⟩
      by_cases hover : 2 ^ (L.bits - 1) ≤ r.magnitude
      · rw [if_pos hover, if_pos (by omega)]
        exact ⟨rfl, rfl⟩
      · rw [if_neg hover, if_neg (by omega)]
        exact ⟨rfl, rfl⟩

/-- `strtoll` negates and converts without any check. -/
theorem strtoll_follows (hbase : ValidBase base) (s : Bytes) (errno : Nat) :
    Standard (signedResult 64) base s errno (strtoll errno s base) ↔
      SignedText base s ∧ OnNumber base s fun r =>
        (-2 ^ 63 ≤ r.number ∧ r.number < 2 ^ 63) ∨
          errno = ERANGE ∧ r.magnitude % 2 ^ 64 = if r.negative then 2 ^ 63 else 2 ^ 63 - 1 := by
  have hscan := signed_scan hbase s
  have hcode : strtoll errno s base =
      if (signPrefix (skipBlanks s)).1 then
        ⟨(-(((scan base (signedStart s)).1 % 2 ^ 64 : Nat) : Int).bmod (2 ^ 64)).bmod (2 ^ 64),
          (scan base (signedStart s)).2, errno⟩
      else ⟨(((scan base (signedStart s)).1 % 2 ^ 64 : Nat) : Int).bmod (2 ^ 64),
        (scan base (signedStart s)).2, errno⟩ := by
    unfold strtoll
    dsimp only
    rw [strtoull_eq]
    rfl
  rw [hcode]
  refine follows_iff hbase ?_ hscan (fun hT hnone => ?_) (fun hT r hr => ?_)
  · split_ifs <;> rfl
  · rw [hT.sign_of_none hnone, hscan.1 hT, expected_of_none hnone, if_neg (by simp)]
    exact ⟨by simp, rfl⟩
  · rw [hT.sign_of_some hr, hscan.1 hT, expected_of_some hr]
    unfold signedResult Subject.number
    cases r.negative with
    | true =>
      simp only [if_true, Int.bmod]
      split_ifs <;> omega
    | false =>
      simp only [Bool.false_eq_true, if_false, Int.bmod]
      split_ifs <;> omega

/-- **Where the conversions follow 7.20.1.4.**  The text is to be taken apart as the standard does;
    `strtoull` and `strtoll` know no limit, and `strtol` no errno from before. -/
theorem conversions_follow_iff (L : Long) {base : Nat} (hbase : ValidBase base) (s : Bytes)
    (errno : Nat) :
    (Standard (unsignedResult L.bits) base s errno (strtoul L errno s base) ↔
        UnsignedText base s) ∧
      (Standard (unsignedResult 64) base s errno (strtoull errno s base) ↔
        UnsignedText base s ∧ OnNumber base s fun r =>
          r.magnitude < 2 ^ 64 ∨ errno = ERANGE ∧ r.magnitude % 2 ^ 64 = 2 ^ 64 - 1) ∧
      (Standard (signedResult L.bits) base s errno (strtol L errno s base) ↔
        SignedText base s ∧ OnNumber base s fun r =>
          r.negative = true → errno = ERANGE → 2 ^ (L.bits - 1) ≤ r.magnitude) ∧
      (Standard (signedResult 64) base s errno (strtoll errno s base) ↔
        SignedText base s ∧ OnNumber base s fun r =>
          (-2 ^ 63 ≤ r.number ∧ r.number < 2 ^ 63) ∨
            errno = ERANGE ∧ r.magnitude % 2 ^ 64 = if r.negative then 2 ^ 63 else 2 ^ 63 - 1) := by
  refine ⟨?_, strtoull_follows hbase s errno, strtol_follows L hbase s errno,
    strtoll_follows hbase s errno⟩
  rw [strtoul_follows L hbase]
  exact and_iff_left fun _ _ => trivial

/-- `"-5"` with an errno from before: only `strtol` goes wrong. -/
theorem conversions_follow_iff_stale :
    ValidBase 10 ∧
      ¬ (Standard (signedResult 64) 10 [45, 53] ERANGE (strtol .long64 ERANGE [45, 53] 10)) ∧
      Standard (signedResult 64) 10 [45, 53] ERANGE (strtoll ERANGE [45, 53] 10) := by
  have hbase : ValidBase 10 := by decide
  obtain ⟨-, -, hl, hll⟩ := conversions_follow_iff .long64 hbase [45, 53] ERANGE
  have hsub : subject 10 [45, 53] = some ⟨true, 5, []⟩ := by decide
  have htext : SignedText 10 [45, 53] := by
    unfold SignedText
    rw [hsub]
    exact ⟨all_eq_true.mp rfl, fun h => absurd h.1 (by decide)⟩
  refine ⟨hbase, fun h => ?_, hll.mpr ⟨htext, fun r hr => ?_⟩⟩
  · exact absurd ((hl.mp h).2 _ hsub rfl rfl) (by decide)
  · cases hsub.symm.trans hr
    exact Or.inl (by decide)

/-- `strtoul("-1")`, `strtoull("18446744073709551616")`, `strtol("-5")` with an errno from before and
    `strtoll("0x")` are not what the standard says. -/
theorem conversions_not_follow :
    ¬ Standard (unsignedResult 64) 10 [45, 49] 0 (strtoul .long64 0 [45, 49] 10) ∧
      ¬ Standard (unsignedResult 64) 10
        [49, 56, 52, 52, 54, 55, 52, 52, 48, 55, 51, 55, 48, 57, 53, 53, 49, 54, 49, 54] 0
        (strtoull 0
          [49, 56, 52, 52, 54, 55, 52, 52, 48, 55, 51, 55, 48, 57, 53, 53, 49, 54, 49, 54] 10) ∧
      ¬ Standard (signedResult 64) 10 [45, 53] ERANGE (strtol .long64 ERANGE [45, 53] 10) ∧
      ¬ Standard (signedResult 64) 0 [48, 120] 0 (strtoll 0 [48, 120] 0) := by
  refine ⟨?_, ?_, ?_, ?_⟩
  · rw [standard_iff (by decide)]
    decide
  · rw [standard_iff (by decide)]
    decide
  · rw [standard_iff (by decide)]
    decide
  · rw [standard_iff (by decide)]
    decide

end MeuOS.Libc
