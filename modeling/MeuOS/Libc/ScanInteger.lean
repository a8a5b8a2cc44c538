import MeuOS.Libc.IntegerFormat
import MeuOS.Libc.ScanFloat

namespace MeuOS.Libc

open MeuOS.Lib List

/-!
# Scanning what has been printed (`stdio/fmt_out.c`, `stdio/fmt_in.c`)

* `plain` — a directive without flags, width and precision;
* `plain_printed`, `scanDigits_text`, `scanInteger_text` — its text, and what the scanner reads;
* `scan_print` — the scanner stores the number that has been printed;
* `scan_undoes_print_iff` — and it never leaves its token buffer exactly where no floating constant
  that it comes to has a 64th character that is no digit.
-/

/-! ### What is printed -/

theorem head?_noDigits : ([] : List (Fin 10)).head? ≠ some 0 := by decide

/-- A directive without flags, width and precision. -/
def plain (len : IntLength) (conversion : IntConversion) (v : Int) : Directive where
  flags := []
  width := .digits [] head?_noDigits
  precision := .none
  length := len
  conversion := conversion
  value := v

/-- The sign of a number. -/
def minusText (v : Int) : List Int := if v < 0 then [code '-'] else []

/-- The digits of a number, at least one. -/
def numberDigits (conversion : IntConversion) (v : Int) : List Int :=
  body conversion.base (decide (conversion = .X)) v.natAbs 1

/-- A value of the type that a modifier and a conversion name. -/
def IsValue (len : IntLength) (conversion : IntConversion) (v : Int) : Prop :=
  if conversion.isSigned then -2 ^ (len.bits - 1) ≤ v ∧ v < 2 ^ (len.bits - 1)
  else 0 ≤ v ∧ v < 2 ^ len.bits

variable {len : IntLength} {conversion : IntConversion} {v : Int} {base : Nat}

/-- A value of a type is not changed by the conversion to a type that is as wide. -/
theorem asBits_value (h : IsValue len conversion v) {bits : Nat} (hbits : len.bits ≤ bits) :
    (plain len conversion v).asBits bits = v := by
  have hpos : 0 < len.bits := by cases len <;> decide
  have hhalf : (2 : Int) ^ (len.bits - 1) ≤ 2 ^ (bits - 1) :=
    pow_le_pow_right₀ (by decide) (by omega)
  have hdouble : ((2 ^ bits : Nat) : Int) = 2 * 2 ^ (bits - 1) := by
    push_cast
    rw [← pow_succ', Nat.sub_add_cancel (by omega)]
  unfold IsValue at h
  unfold Directive.asBits
  show (if conversion.isSigned then v.bmod (2 ^ bits) else v % 2 ^ bits) = v
  split
  next hsigned =>
    rw [if_pos hsigned] at h
    exact Int.bmod_eq_of_le (by omega) (by omega)
  next hsigned =>
    rw [if_neg hsigned] at h
    have hpow : (2 : Int) ^ len.bits ≤ 2 ^ bits := pow_le_pow_right₀ (by decide) hbits
    exact Int.emod_eq_of_lt h.1 (by omega)

theorem length_numberDigits_le
    (h : IsValue len conversion v) : (numberDigits conversion v).length ≤ digitsSize := by
  have hvalue := (plain len conversion v).natAbs_asBits (Directive.bits_le len).1
  rw [asBits_value h (Nat.le_refl _)] at hvalue
  have hbase : 1 < conversion.base := (Directive.base_gt conversion).1
  have hdigits := (Nat.digits_length_le_iff hbase v.natAbs).mpr hvalue
  unfold numberDigits
  rw [length_body]
  exact Nat.max_le.mpr ⟨by decide, hdigits⟩

/-- A plain directive prints a sign and digits. -/
theorem plain_printed (h : IsValue len conversion v) :
    (plain len conversion v).printed = some (minusText v ++ numberDigits conversion v) := by
  have hpassed : (plain len conversion v).passed = v :=
    asBits_value h (Nat.le_max_right 32 len.bits)
  have hlayout : (plain len conversion v).passedLayout =
      minusText v ++ numberDigits conversion v := by
    have hsign : (plain len conversion v).passedSign = minusText v := by
      unfold Directive.passedSign minusText
      rw [hpassed]
      simp [plain]
    have hmark : (plain len conversion v).passedMark = [] := by
      unfold Directive.passedMark
      simp [plain]
    have hdigits : (plain len conversion v).passedDigits = numberDigits conversion v := by
      unfold Directive.passedDigits numberDigits
      rw [hpassed]
      rfl
    unfold Directive.passedLayout
    rw [hsign, hmark, hdigits]
    simp [layout, padding, plain, FieldWidth.value, FieldWidth.left, Directive.left, Directive.zero,
      decimalFrom, digitsAfter]
  have hlen : (minusText v ++ numberDigits conversion v).length < 2 ^ 31 := by
    have hdigits := length_numberDigits_le h
    have hsign : (minusText v).length ≤ 1 := by
      unfold minusText
      split <;> simp
    rw [length_append]
    unfold digitsSize at hdigits
    omega
  rw [Directive.printed_eq, hlayout, if_pos hlen]

/-! ### What is scanned -/

/-- A text as the bytes that are in the buffer. -/
def textBytes (text : List Int) : Bytes := text.map charByte

theorem scanDigit_digitCode {d : Nat} (upper : Bool) (hd : d < 16) :
    scanDigit base (charByte (digitCode upper d)) = d := by
  unfold scanDigit
  cases upper <;> interval_cases d <;> rfl

/-- The loop reads the digits of a number that is at most the limit. -/
theorem scanDigits_text {limit : Nat} (hbase : 1 < base) (hle : base ≤ 16) (upper : Bool)
    {n : Nat} (hn : n ≤ limit) (count : Nat) (rest : Bytes) :
    scanDigits base limit 0 { value := 0, overflow := false, digits := count }
        (textBytes (digitsText base upper n) ++ rest) =
      scanDigits base limit 0
        { value := n, overflow := false, digits := count + (digitsText base upper n).length }
        rest := by
  induction n using Nat.strong_induction_on generalizing rest with
  | _ n ih =>
    by_cases hzero : n = 0
    · subst hzero
      rw [digitsText_zero]
      rfl
    · have hlt : n / base < n := Nat.div_lt_self (Nat.pos_of_ne_zero hzero) hbase
      have hmod : n % base < base := Nat.mod_lt n (by omega)
      have hsum : n / base * base + n % base = n := Nat.div_add_mod' n base
      -- The guard against an overflow holds.
      have hguard : n / base ≤ (limit - n % base) / base := by
        rw [Nat.le_div_iff_mul_le (by omega)]
        omega
      have hdigit : scanDigit base (charByte (digitCode upper (n % base))) = n % base :=
        scanDigit_digitCode upper (by omega)
      have hsplit : textBytes (digitsText base upper n) ++ rest =
          textBytes (digitsText base upper (n / base)) ++
            charByte (digitCode upper (n % base)) :: rest := by
        rw [digitsText_step hbase upper hzero]
        simp [textBytes]
      have hlen : (digitsText base upper n).length =
          (digitsText base upper (n / base)).length + 1 := by
        rw [digitsText_step hbase upper hzero, length_append, length_singleton]
      rw [hsplit, ih _ hlt (by omega), hlen]
      conv_lhs => unfold scanDigits
      rw [if_pos (Or.inl rfl)]
      dsimp only
      rw [hdigit, if_neg (by omega), if_neg (by omega), if_pos (show (!false) = true from rfl),
        hsum,
        Nat.add_assoc]

/-- A number's digits, a single 0 for a zero. -/
theorem numberDigits_eq (conversion : IntConversion) (v : Int) :
    numberDigits conversion v =
      if v = 0 then [code '0']
      else digitsText conversion.base (decide (conversion = .X)) v.natAbs := by
  unfold numberDigits
  split
  next hv =>
    subst hv
    exact body_zero _ _ _
  next hv =>
    apply body_short
    exact length_pos_iff.mpr (Nat.digits_ne_nil_iff_ne_zero.mpr (by omega))

/-- Every character of a number's digits is a digit of its base. -/
theorem numberDigits_digit {c : Int} (h : c ∈ numberDigits conversion v) :
    ∃ d < conversion.base, c = digitCode (decide (conversion = .X)) d := by
  have hbase := Directive.base_gt conversion
  rw [numberDigits_eq] at h
  split at h
  · exact ⟨0, by omega, mem_singleton.mp h⟩
  · obtain ⟨d, hd, rfl⟩ := mem_map.mp h
    exact ⟨d, Nat.digits_lt_base hbase.1 (mem_reverse.mp hd), rfl⟩

theorem numberDigits_ne_nil (conversion : IntConversion) (v : Int) :
    numberDigits conversion v ≠ [] := by
  intro hnil
  have hlen := length_body conversion.base (decide (conversion = .X)) v.natAbs 1
  rw [show body conversion.base (decide (conversion = .X)) v.natAbs 1 = [] from hnil] at hlen
  rw [length_nil] at hlen
  omega

/-- The loop reads the digits of a number, in the base 8 as well where it is 0. -/
theorem scanDigits_number {limit : Nat}
    (hbase : base = conversion.base ∨ v = 0 ∧ base = 8) (hv : v.natAbs ≤ limit) :
    scanDigits base limit 0 { value := 0, overflow := false, digits := 0 }
        (textBytes (numberDigits conversion v)) =
      ({ value := v.natAbs, overflow := false,
         digits := (numberDigits conversion v).length }, []) := by
  have hbounds := Directive.base_gt conversion
  rw [numberDigits_eq]
  split
  next hzero =>
    subst hzero
    have hdigit : scanDigit base (byte '0') = 0 := by
      unfold scanDigit
      rfl
    have hpos : 0 < base := by omega
    show scanDigits base limit 0 _ [byte '0'] = _
    unfold scanDigits
    rw [if_pos (Or.inl rfl)]
    dsimp only
    rw [hdigit, if_neg (by omega), if_neg (by simp), if_pos (show (!false) = true from rfl)]
    simp [scanDigits]
  next hzero =>
    obtain rfl : base = conversion.base := by omega
    have hloop := scanDigits_text hbounds.1 hbounds.2 (decide (conversion = .X)) hv 0 []
    rw [append_nil, Nat.zero_add] at hloop
    rw [hloop]
    rfl

theorem digitCode_facts (upper : Bool) {d : Nat} (hd : d < 16) :
    isspaceInt (charByte (digitCode upper d)) = false ∧
      isHexMark (charByte (digitCode upper d)) = false ∧
      charByte (digitCode upper d) ≠ byte '-' ∧ charByte (digitCode upper d) ≠ byte '+' ∧
      (charByte (digitCode upper d) = byte '0' → d = 0) := by
  cases upper <;> interval_cases d <;> decide

/-- A number's digits begin with a digit that is 0 for a zero only, and go on with digits. -/
theorem numberDigits_bytes (conversion : IntConversion) (v : Int) :
    ∃ b rest, textBytes (numberDigits conversion v) = b :: rest ∧ isspaceInt b = false ∧
      b ≠ byte '-' ∧ b ≠ byte '+' ∧ (b = byte '0' → v = 0) ∧ ∀ c ∈ rest, isHexMark c = false := by
  have hbounds := Directive.base_gt conversion
  cases hdigits : numberDigits conversion v with
  | nil => exact absurd hdigits (numberDigits_ne_nil conversion v)
  | cons c cs =>
    have hmem : ∀ x ∈ c :: cs, ∃ d < conversion.base,
        x = digitCode (decide (conversion = .X)) d := by
      intro x hx
      rw [← hdigits] at hx
      exact numberDigits_digit hx
    obtain ⟨d, hd, rfl⟩ := hmem c mem_cons_self
    obtain ⟨hspace, _, hminus, hplus, hzero⟩ :=
      digitCode_facts (decide (conversion = .X)) (d := d) (by omega)
    refine ⟨_, _, rfl, hspace, hminus, hplus, ?_, ?_⟩
    · intro hb
      by_contra hv
      -- The first digit of a number that is not 0 is not 0.
      have hhead := head_digitsText hbounds.1 hbounds.2 (decide (conversion = .X)) (n := v.natAbs)
      have heq := numberDigits_eq conversion v
      rw [if_neg hv, hdigits] at heq
      rw [← heq, List.head?_cons, hzero hb] at hhead
      exact hhead rfl
    · intro b hb
      obtain ⟨x, hx, rfl⟩ := mem_map.mp hb
      obtain ⟨e, he, rfl⟩ := hmem x (mem_cons_of_mem _ hx)
      exact (digitCode_facts _ (by omega)).2.1

/-- The sign is taken off. -/
theorem scanSign_text (conversion : IntConversion) (v : Int) :
    scanSign (textBytes (minusText v ++ numberDigits conversion v)) =
      (decide (v < 0), textBytes (numberDigits conversion v)) := by
  obtain ⟨b, rest, hbytes, _, hminus, hplus, _⟩ := numberDigits_bytes conversion v
  unfold minusText
  by_cases hneg : v < 0
  · rw [if_pos hneg]
    show scanSign (byte '-' :: textBytes (numberDigits conversion v)) = _
    simp [scanSign, hneg]
  · rw [if_neg hneg, nil_append, hbytes]
    simp [scanSign, hneg, hminus, hplus]

/-- The base is the one of the conversion; `i` takes a single 0 for an octal number. -/
theorem scanBase_text (conversion : IntConversion) (v : Int) :
    ∃ base, scanBase conversion.byte (textBytes (numberDigits conversion v)) =
        (base, textBytes (numberDigits conversion v), 0) ∧
      (base = conversion.base ∨ v = 0 ∧ base = 8) := by
  obtain ⟨b, rest, hbytes, _, _, _, hzero, hmarks⟩ := numberDigits_bytes conversion v
  rw [hbytes]
  have hnohex : hexPrefix (b :: rest) = false := by
    unfold hexPrefix
    cases rest with
    | nil => simp
    | cons c rest => simp [hmarks c mem_cons_self]
  cases conversion with
  | i =>
    show ∃ base, (if hexPrefix (b :: rest) then _ else _) = _ ∧ _
    rw [if_neg (by simp [hnohex])]
    by_cases hb : b = byte '0'
    · exact ⟨8, if_pos (congrArg some hb), Or.inr ⟨hzero hb, rfl⟩⟩
    · exact ⟨10, if_neg (fun h => hb (Option.some.inj h)), Or.inl rfl⟩
  | d => exact ⟨10, rfl, Or.inl rfl⟩
  | u => exact ⟨10, rfl, Or.inl rfl⟩
  | o => exact ⟨8, rfl, Or.inl rfl⟩
  | x =>
    show ∃ base, (if hexPrefix (b :: rest) then _ else _) = _ ∧ _
    rw [if_neg (by simp [hnohex])]
    exact ⟨16, rfl, Or.inl rfl⟩
  | X =>
    show ∃ base, (if hexPrefix (b :: rest) then _ else _) = _ ∧ _
    rw [if_neg (by simp [hnohex])]
    exact ⟨16, rfl, Or.inl rfl⟩

theorem scanBits_number (hlen : len ≠ .z) : scanBits len.number = len.bits := by
  revert hlen
  cases len <;> intro hlen <;> first | rfl | exact absurd rfl hlen

/-- The scanner reads the number that has been printed. -/
theorem scanInteger_text (hlen : len ≠ .z) (h : IsValue len conversion v) :
    scanInteger conversion.byte len.number 0
        (textBytes (minusText v ++ numberDigits conversion v)) =
      some (.int len.bits v, []) := by
  have hpos : 0 < len.bits := by cases len <;> decide
  have hsigned : decide (conversion.byte = byte 'd' ∨ conversion.byte = byte 'i') =
      conversion.isSigned := by cases conversion <;> rfl
  have hhalf : (2 : Nat) ^ len.bits = 2 * 2 ^ (len.bits - 1) := by
    rw [← pow_succ', Nat.sub_add_cancel hpos]
  have hone : 0 < (2 : Nat) ^ (len.bits - 1) := Nat.pow_pos (by decide)
  have hcast : (2 : Int) ^ (len.bits - 1) = ((2 ^ (len.bits - 1) : Nat) : Int) := by push_cast; rfl
  have hcast' : (2 : Int) ^ len.bits = ((2 ^ len.bits : Nat) : Int) := by push_cast; rfl
  have hdigits : (numberDigits conversion v).length ≠ 0 := fun hz =>
    numberDigits_ne_nil conversion v (eq_nil_of_length_eq_zero hz)
  obtain ⟨base, hscan, hbase⟩ := scanBase_text conversion v
  unfold IsValue at h
  unfold scanInteger
  simp only [scanSign_text, hscan, hsigned, scanMax, scanBits_number hlen]
  cases hc : conversion.isSigned with
  | true =>
    rw [hc, if_pos rfl] at h
    by_cases hneg : v < 0
    · have hle : v.natAbs ≤ 2 ^ (len.bits - 1) - 1 + 1 := by omega
      have hvalue : (-(v.natAbs : Int)).bmod (2 ^ len.bits) = v := by
        rw [show -(v.natAbs : Int) = v by omega]
        exact Int.bmod_eq_of_le (by omega) (by omega)
      simp only [hneg, decide_true, Bool.and_true, if_true, scanDigits_number hbase hle]
      rw [if_neg hdigits]
      simp only [scanStored, if_true, Bool.false_eq_true, if_false, scanBits_number hlen, hvalue]
    · have hle : v.natAbs ≤ 2 ^ (len.bits - 1) - 1 := by omega
      have hvalue : (v.natAbs : Int).bmod (2 ^ len.bits) = v := by
        rw [show (v.natAbs : Int) = v by omega]
        exact Int.bmod_eq_of_le (by omega) (by omega)
      simp only [hneg, decide_false, Bool.and_false, Bool.false_eq_true, if_true, if_false,
        scanDigits_number hbase hle]
      rw [if_neg hdigits]
      simp only [scanStored, if_true, Bool.false_eq_true, if_false, scanBits_number hlen, hvalue]
  | false =>
    rw [hc, if_neg (by simp)] at h
    have hle : v.natAbs ≤ 2 ^ len.bits - 1 := by omega
    have hvalue : (v.natAbs : Int) % 2 ^ len.bits = v := by
      rw [show (v.natAbs : Int) = v by omega]
      exact Int.emod_eq_of_lt h.1 h.2
    simp only [Bool.false_and, Bool.false_eq_true, if_false, scanDigits_number hbase hle]
    rw [if_neg hdigits]
    simp only [scanStored, Bool.false_eq_true, if_false, scanBits_number hlen, hvalue]

/-! ### Scanning undoes printing -/

/-- The format of a plain directive. -/
def plainFormat (len : IntLength) (conversion : IntConversion) : Bytes :=
  byte '%' :: (len.text ++ [conversion.byte])

theorem plain_text (len : IntLength) (conversion : IntConversion) (v : Int) :
    byte '%' :: (plain len conversion v).text = plainFormat len conversion := rfl

/-- Printed into a buffer with room, a number is there as a text. -/
theorem print_text (floats : FloatText) (memory : NatMem) {buffer size : Nat} (hsize : 26 ≤ size)
    (h : IsValue len conversion v) :
    vsnprintf floats memory buffer size (plainFormat len conversion) [.word v] =
      some (((textBytes (minusText v ++ numberDigits conversion v)).length : Int),
        poke memory buffer (textBytes (minusText v ++ numberDigits conversion v) ++ [0])) := by
  have houtput := (Directive.output_iff_printed floats (plain len conversion v) _).mpr
    (plain_printed h)
  rw [plain_text] at houtput
  have hdigits := length_numberDigits_le h
  have hsign : (minusText v).length ≤ 1 := by
    unfold minusText
    split <;> simp
  have hlen : (minusText v ++ numberDigits conversion v).length ≤ 25 := by
    rw [length_append]
    unfold digitsSize at hdigits
    omega
  have hchars : ∀ c ∈ minusText v ++ numberDigits conversion v, c ≠ eof := by
    intro c hc
    rcases mem_append.mp hc with hc | hc
    · unfold minusText at hc
      split at hc
      · rw [mem_singleton.mp hc]
        decide
      · exact absurd hc not_mem_nil
    · obtain ⟨d, hd, rfl⟩ := numberDigits_digit hc
      have hbase := (Directive.base_gt conversion).2
      have hd16 : d < 16 := by omega
      generalize decide (conversion = .X) = upper
      clear hc hdigits hlen houtput h hd
      cases upper <;> interval_cases d <;> decide
  have hresult := vsnprintf_bounded memory buffer size houtput hchars
    (Int.le_trans (Int.ofNat_le.mpr hlen) (by decide))
  have htake : (minusText v ++ numberDigits conversion v).take (size - 1) =
      minusText v ++ numberDigits conversion v := take_of_length_le (by omega)
  unfold bounded at hresult
  rw [if_neg (by omega), htake] at hresult
  refine hresult.trans ?_
  simp [textBytes]

theorem scanSpec_plain (hlen : len ≠ .z) (conversion : IntConversion) :
    scanSpec (len.text ++ [conversion.byte]) = .ok (0, len.number, [conversion.byte]) := by
  revert hlen
  cases len <;> intro hlen <;> first | exact absurd rfl hlen | (cases conversion <;> rfl)

theorem skipSpace_text (conversion : IntConversion) (v : Int) :
    skipSpace (textBytes (minusText v ++ numberDigits conversion v)) =
      textBytes (minusText v ++ numberDigits conversion v) := by
  obtain ⟨b, rest, hbytes, hspace, _⟩ := numberDigits_bytes conversion v
  unfold minusText skipSpace
  split
  · rfl
  · rw [nil_append, hbytes]
    exact dropWhile_cons_of_neg (by simp [hspace])

/-- The scanner stores the number of a text that has been printed. -/
theorem scan_text (hlen : len ≠ .z) (h : IsValue len conversion v) (pointer : Nat) :
    vsscanf (textBytes (minusText v ++ numberDigits conversion v)) (plainFormat len conversion)
      [pointer] = .ok (1, [(pointer, .int len.bits v)]) := by
  have hc : conversion.byte ≠ byte 'c' ∧ conversion.byte ≠ byte 's' ∧
      isIntConversion conversion.byte = true := by cases conversion <;> decide
  have hstep : scanStep { input := textBytes (minusText v ++ numberDigits conversion v),
                          format := plainFormat len conversion, args := [pointer], assigned := 0,
                          stores := [] } =
      .ok (some { input := [], format := [], args := [], assigned := 1,
                  stores := [(pointer, .int len.bits v)] }) := by
    unfold scanStep plainFormat
    dsimp only
    rw [if_neg (by decide), if_neg (by simp), scanSpec_plain hlen, Checked.ok_bind]
    unfold scanConvert
    dsimp only
    rw [if_neg hc.1, if_neg hc.2.1, if_pos hc.2.2, skipSpace_text, scanInteger_text hlen h]
    rfl
  unfold vsscanf
  rw [scanRun_next hstep, scanRun_done rfl]
  rfl

/-- The first state of a scan. -/
def scanStart (input format : Bytes) (args : List Nat) : ScanState where
  input := input
  format := format
  args := args
  assigned := 0
  stores := []

theorem vsscanf_fault_iff (input format : Bytes) (args : List Nat) :
    vsscanf input format args = .fault ↔
      ∃ s, ScanReached (scanStart input format args) s ∧ ¬ s.Fits := by
  rw [← scanRun_fault_iff]
  unfold vsscanf scanStart
  cases scanRun { input := input, format := format, args := args, assigned := 0, stores := [] } with
  | ok s => exact iff_of_false nofun nofun
  | fail e => exact iff_of_false nofun nofun
  | fault => exact iff_of_true rfl rfl
  | stuck => exact iff_of_false nofun nofun

/-- **Scanning undoes printing**, for every value of every type and a buffer with room for it; and
    a scan writes outside its token buffer exactly where it comes to a floating constant that does
    not fit. -/
theorem scan_undoes_print_iff (floats : FloatText) :
    (∀ (memory : NatMem) (buffer size pointer : Nat) (len : IntLength)
      (conversion : IntConversion) (v : Int), 26 ≤ size → len ≠ .z → IsValue len conversion v →
      ∃ text : Bytes,
        vsnprintf floats memory buffer size (plainFormat len conversion) [.word v] =
          some ((text.length : Int), poke memory buffer (text ++ [0])) ∧
        vsscanf text (plainFormat len conversion) [pointer] =
          .ok (1, [(pointer, .int len.bits v)])) ∧
    ∀ (input format : Bytes) (args : List Nat),
      vsscanf input format args ≠ .fault ↔
        ∀ s, ScanReached (scanStart input format args) s → s.Fits := by
  refine ⟨?_, ?_⟩
  · intro memory buffer size pointer len conversion v hsize hlen h
    exact ⟨_, print_text floats memory hsize h, scan_text hlen h pointer⟩
  · intro input format args
    rw [Ne, vsscanf_fault_iff]
    push Not
    exact Iff.rfl

/-- A `short` −5 is printed and scanned. -/
theorem scan_undoes_print_short :
    ∃ text : Bytes,
      vsnprintf noFloats (fun _ => 0) 4096 32 (plainFormat .h .d) [.word (-5)] =
        some ((text.length : Int), poke (fun _ => 0) 4096 (text ++ [0])) ∧
      vsscanf text (plainFormat .h .d) [8192] = .ok (1, [(8192, .int 16 (-5))]) :=
  (scan_undoes_print_iff noFloats).1 (fun _ => 0) 4096 32 8192 .h .d (-5) (by decide) (by decide)
    (by unfold IsValue; decide)

/-- `sscanf` with `"%f"` of 63 digits and a point: the terminator is written behind the buffer. -/
theorem scan_long_constant :
    vsscanf (List.replicate 63 (byte '1') ++ [byte '.']) [byte '%', byte 'f'] [4096] = .fault := by
  rw [vsscanf_fault_iff]
  refine ⟨_, Relation.ReflTransGen.refl, ?_⟩
  intro hfits
  have hdigit := hfits 0 (by decide) (byte '.') (by decide)
  cases hdigit

end MeuOS.Libc
