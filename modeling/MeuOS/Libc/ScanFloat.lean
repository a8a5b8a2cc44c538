import MeuOS.Libc.Scan
import Mathlib.Data.List.TakeWhile
import Mathlib.Logic.Relation

namespace MeuOS.Libc

open MeuOS.Lib List Checked

/-!
# The token buffer of the floating conversions (`stdio/fmt_in.c`)

The loops over digits stop before the last byte of the buffer; the point, the exponent's letter and
its sign are stored without a check, and the terminator as well.

* `floatToken` — the floating constant at the front of a text;
* `FloatFits` — its 64th character, if there is one, is a digit;
* `Bad`, `Overflows` — a token whose 64th character is no digit, and a run that leaves the buffer;
* `digits_overflows`, `point_overflows`, `exponent_overflows` — the parts of the scanner;
* `scanFloat_fault_iff` — the scanner leaves the buffer exactly where the constant does not fit;
* `ScanReached`, `scanRun_fault_iff` — the states that a scan comes to, and the scans that leave the
  buffer.
-/

/-! ### Floating constants -/

/-- Digits at the front of a text. -/
def digitsToken (v : Bytes) : Bytes := v.takeWhile isDecimal

/-- A character of a kind and what comes behind it, if it is there. -/
def oneToken (kind : UInt8 → Bool) (token other : Bytes → Bytes) : Bytes → Bytes
  | [] => other []
  | c :: v => if kind c then c :: token v else other (c :: v)

/-- An exponent: its letter, a sign and digits. -/
def exponentToken (v : Bytes) : Bytes :=
  oneToken isExponent (oneToken isSign digitsToken digitsToken) (fun _ => []) v

/-- A point and digits. -/
def pointToken (v : Bytes) : Bytes :=
  oneToken (fun c => c = byte '.')
    (fun v => digitsToken v ++ exponentToken (v.dropWhile isDecimal)) exponentToken v

/-- The digits of a constant and what comes behind them. -/
def unsignedToken (v : Bytes) : Bytes := digitsToken v ++ pointToken (v.dropWhile isDecimal)

/-- The floating constant at the front of a text: a sign, digits, a point with digits, and an
    exponent, each of them as far as it is there. -/
def floatToken (v : Bytes) : Bytes := oneToken isSign unsignedToken unsignedToken v

/-- The input that a conversion of a width may take; 0 stands for no width. -/
def visible (width used : Nat) (input : Bytes) : Bytes :=
  if width = 0 then input else input.take (width - used)

/-- The constant at the front of the input has at most 63 characters, or its 64th is a digit. -/
def FloatFits (width : Nat) (input : Bytes) : Prop :=
  ∀ c, (floatToken (visible width 0 input))[63]? = some c → isDecimal c = true

/-! ### What a token may take -/

theorem peek_eq (width : Nat) (t : Token) (input : Bytes) :
    t.peek width input = (visible width t.used input).head? := by
  unfold Token.peek Token.inWidth visible
  by_cases hwidth : width = 0
  · simp [hwidth]
  · by_cases hused : t.used < width
    · obtain ⟨k, hk⟩ : ∃ k, width - t.used = k + 1 := ⟨width - t.used - 1, by omega⟩
      cases input <;> simp [hwidth, hused, hk]
    · simp [hwidth, hused, Nat.sub_eq_zero_of_le (Nat.not_lt.mp hused)]

theorem visible_tail (width used : Nat) (input : Bytes) :
    visible width (used + 1) input.tail = (visible width used input).tail := by
  unfold visible
  split
  · rfl
  · cases input with
    | nil => simp
    | cons c input =>
      rw [tail_cons]
      cases hk : width - used with
      | zero => simp [show width - (used + 1) = 0 by omega]
      | succ k => simp [show width - (used + 1) = k by omega]

/-! ### Leaving the buffer -/

/-- A token behind `k` characters has a character at the last byte of the buffer that is no
    digit. -/
def Bad (k : Nat) (token : Bytes) : Prop := ∃ c, token[63 - k]? = some c ∧ isDecimal c = false

/-- A part of the scanner leaves the buffer, or leaves no room for the terminator. -/
def Overflows (x : Checked Unit (Token × Bytes)) : Prop :=
  x = .fault ∨ ∃ r, x = .ok r ∧ tmpSize ≤ r.1.tmp.length

theorem not_bad_nil (k : Nat) : ¬ Bad k [] := by
  rintro ⟨c, hc, _⟩
  cases hc

variable {t : Token} {input : Bytes} {width : Nat}

theorem bad_cons {k : Nat} (hk : k < 63) (c : UInt8) (token : Bytes) :
    Bad k (c :: token) ↔ Bad (k + 1) token := by
  unfold Bad
  rw [show 63 - k = 63 - (k + 1) + 1 by omega]
  rfl

theorem bad_last {c : UInt8} (hc : isDecimal c = false) (token : Bytes) : Bad 63 (c :: token) :=
  ⟨c, rfl, hc⟩

theorem overflows_ok (h : t.tmp.length < tmpSize) :
    ¬ Overflows (.ok (t, input)) := by
  rintro (h' | ⟨r, hr, hlen⟩)
  · cases h'
  · cases hr
    exact absurd hlen (Nat.not_le.mpr h)

theorem overflows_full (h : t.tmp.length = tmpSize) :
    Overflows (.ok (t, input)) :=
  Or.inr ⟨(t, input), rfl, Nat.le_of_eq h.symm⟩

/-! ### Digits -/

/-- Nothing is put behind the last byte but one. -/
theorem floatDigits_full (width : Nat) (h : 63 ≤ t.tmp.length) (input : Bytes) :
    floatDigits width t input = .ok (t, input) := by
  cases input with
  | nil => rfl
  | cons c input =>
    unfold floatDigits
    rw [if_neg]
    have hcap : ¬ t.tmp.length < tmpSize - 1 := by
      unfold tmpSize
      omega
    simp [hcap]

theorem digitsToken_cons {c : UInt8} (hc : isDecimal c = true) (v : Bytes) :
    digitsToken (c :: v) = c :: digitsToken v := takeWhile_cons_of_pos hc

/-- The loop takes the digits as far as there is room. -/
theorem floatDigits_eq (width : Nat) (t : Token) (input : Bytes) (ht : t.tmp.length ≤ 63) :
    ∃ t' input' n, floatDigits width t input = .ok (t', input') ∧
      n = min (digitsToken (visible width t.used input)).length (63 - t.tmp.length) ∧
      t'.tmp.length = t.tmp.length + n ∧
      visible width t'.used input' = (visible width t.used input).drop n := by
  induction input generalizing t with
  | nil =>
    have hnil : visible width t.used [] = [] := by simp [visible]
    exact ⟨t, [], 0, rfl, by simp [hnil, digitsToken], rfl, rfl⟩
  | cons c input ih =>
    have hpeek := peek_eq width t (c :: input)
    have htail := visible_tail width t.used (c :: input)
    rw [tail_cons] at htail
    unfold Token.peek at hpeek
    by_cases htake : isDecimal c = true ∧ t.inWidth width = true ∧ t.tmp.length < 63
    · obtain ⟨hdigit, hwidth, hroom⟩ := htake
      -- The digit is visible, and the first of its run.
      have hvisible : visible width t.used (c :: input) =
          c :: visible width (t.used + 1) input := by
        rw [if_pos hwidth, head?_cons] at hpeek
        rw [htail]
        exact (cons_head?_tail hpeek.symm).symm
      have hput : t.put c = .ok { tmp := t.tmp ++ [c], used := t.used + 1 } :=
        if_pos (Nat.lt_succ_of_lt hroom)
      have hsize : (t.tmp ++ [c]).length = t.tmp.length + 1 := by simp
      obtain ⟨t', input', n, hrun, hn, hlen, hvis⟩ :=
        ih { tmp := t.tmp ++ [c], used := t.used + 1 } (by dsimp only; omega)
      dsimp only at hn hlen hvis
      refine ⟨t', input', n + 1, ?_, ?_, by omega, ?_⟩
      · unfold floatDigits
        rw [if_pos (by simp [hdigit, hwidth, hroom, tmpSize]), hput]
        exact hrun
      · rw [hvisible, digitsToken_cons hdigit, length_cons]
        omega
      · rw [hvisible, drop_succ_cons]
        exact hvis
    · refine ⟨t, c :: input, 0, ?_, ?_, rfl, rfl⟩
      · unfold floatDigits
        rw [if_neg]
        intro h
        simp only [Bool.and_eq_true, decide_eq_true_eq] at h
        exact htake ⟨h.1.1, h.1.2, h.2⟩
      · -- The next character is no digit, is not visible, or there is no room.
        by_cases hroom : t.tmp.length < 63
        · have hnone : digitsToken (visible width t.used (c :: input)) = [] := by
            by_cases hwidth : t.inWidth width = true
            · have hdigit : isDecimal c = false := by
                simpa using fun h => htake ⟨h, hwidth, hroom⟩
              rw [if_pos hwidth, head?_cons] at hpeek
              rw [← cons_head?_tail hpeek.symm]
              exact takeWhile_cons_of_neg (by simp [hdigit])
            · rw [if_neg hwidth] at hpeek
              rw [head?_eq_none_iff.mp hpeek.symm]
              rfl
          simp [hnone]
        · omega

/-- Behind digits that are cut off, the text goes on with a digit. -/
theorem head_drop_digits {v : Bytes} {n : Nat} (h : n < (digitsToken v).length) :
    ∃ c rest, v.drop n = c :: rest ∧ isDecimal c = true := by
  have hsplit : v.drop n = (digitsToken v).drop n ++ v.dropWhile isDecimal := by
    conv_lhs => rw [← takeWhile_append_dropWhile (p := isDecimal) (l := v)]
    exact drop_append_of_le_length (Nat.le_of_lt h)
  refine ⟨(digitsToken v)[n], (digitsToken v).drop (n + 1) ++ v.dropWhile isDecimal, ?_, ?_⟩
  · rw [hsplit, drop_eq_getElem_cons h]
    rfl
  · exact mem_takeWhile_imp (getElem_mem h)

/-- A run of digits and a part that leaves digits alone. -/
theorem digits_overflows {width : Nat} {part : Token × Bytes → Checked Unit (Token × Bytes)}
    {token : Bytes → Bytes}
    (hpart : ∀ t input, t.tmp.length ≤ 63 →
      (Overflows (part (t, input)) ↔ Bad t.tmp.length (token (visible width t.used input))))
    (hdigit : ∀ c v, isDecimal c = true → token (c :: v) = [])
    {t : Token} {input : Bytes} (ht : t.tmp.length ≤ 63) :
    Overflows (floatDigits width t input >>= part) ↔
      Bad t.tmp.length (digitsToken (visible width t.used input) ++
        token ((visible width t.used input).dropWhile isDecimal)) := by
  obtain ⟨t', input', n, hrun, hn, hlen, hvis⟩ := floatDigits_eq width t input ht
  rw [hrun, ok_bind, hpart t' input' (by omega), hvis, hlen]
  generalize hv : visible width t.used input = v at *
  by_cases hroom : t.tmp.length + (digitsToken v).length ≤ 63
  · -- All digits have been taken.
    obtain rfl : n = (digitsToken v).length := by omega
    have hdrop : v.drop (digitsToken v).length = v.dropWhile isDecimal := by
      have h := @List.drop_left _ (digitsToken v) (v.dropWhile isDecimal)
      rwa [digitsToken, takeWhile_append_dropWhile] at h
    rw [hdrop]
    unfold Bad
    rw [getElem?_append_right (by omega),
      show 63 - t.tmp.length - (digitsToken v).length =
        63 - (t.tmp.length + (digitsToken v).length) by omega]
  · obtain ⟨c, rest, hdrop, hc⟩ := head_drop_digits (v := v) (n := n) (by omega)
    rw [hdrop, hdigit c rest hc]
    refine iff_of_false (not_bad_nil _) ?_
    rintro ⟨b, hb, hbad⟩
    rw [getElem?_append_left (by omega)] at hb
    have hmem : isDecimal b = true := mem_takeWhile_imp (mem_of_getElem? hb)
    rw [hmem] at hbad
    cases hbad

/-! ### Single characters -/

/-- What `floatOne` does with the next character that is visible. -/
theorem floatOne_eq (width : Nat) (kind : UInt8 → Bool) (t : Token) (input : Bytes) :
    floatOne width kind t input =
      match visible width t.used input with
      | [] => .ok (t, input, false)
      | c :: _ =>
        if kind c then
          if t.tmp.length < tmpSize then
            .ok ({ tmp := t.tmp ++ [c], used := t.used + 1 }, input.tail, true)
          else .fault
        else .ok (t, input, false) := by
  unfold floatOne Token.put
  rw [peek_eq]
  cases visible width t.used input with
  | nil => rfl
  | cons c v =>
    dsimp only [head?_cons]
    split
    · split <;> rfl
    · rfl

/-- A character of a kind and the parts behind it. -/
theorem one_overflows {kind : UInt8 → Bool}
    {part : Token × Bytes × Bool → Checked Unit (Token × Bytes)} {token other : Bytes → Bytes}
    (hkind : ∀ c, kind c = true → isDecimal c = false) (hfound : ∀ t input, t.tmp.length ≤ 63 →
      (Overflows (part (t, input, true)) ↔ Bad t.tmp.length (token (visible width t.used input))))
    (hfull : ∀ t input, t.tmp.length = tmpSize → Overflows (part (t, input, true)))
    (hother : ∀ t input, t.tmp.length ≤ 63 →
      (Overflows (part (t, input, false)) ↔ Bad t.tmp.length (other (visible width t.used input))))
    (ht : t.tmp.length ≤ 63) :
    Overflows (floatOne width kind t input >>= part) ↔
      Bad t.tmp.length (oneToken kind token other (visible width t.used input)) := by
  rw [floatOne_eq]
  have htail := visible_tail width t.used input
  have hnot := hother t input ht
  cases hv : visible width t.used input with
  | nil =>
    rw [hv] at hnot
    exact hnot
  | cons c v =>
    rw [hv] at hnot htail
    dsimp only [oneToken]
    by_cases hc : kind c = true
    · have hsize : (t.tmp ++ [c]).length = t.tmp.length + 1 := by simp
      have hfits : t.tmp.length < tmpSize := Nat.lt_succ_of_le ht
      rw [if_pos hc, if_pos hc, if_pos hfits, ok_bind]
      by_cases hlast : t.tmp.length = 63
      · -- The last byte of the buffer is taken: there is none for the terminator.
        rw [hlast]
        refine iff_of_true (hfull _ _ ?_) (bad_last (hkind c hc) _)
        dsimp only
        rw [hsize, hlast]
        rfl
      · have hnext := hfound { tmp := t.tmp ++ [c], used := t.used + 1 } input.tail
          (by dsimp only; omega)
        dsimp only at hnext
        rw [hnext, htail, tail_cons, hsize, bad_cons (by omega)]
    · rw [if_neg hc, if_neg hc, ok_bind]
      exact hnot

/-- Where the buffer is full, a character of a kind leaves it. -/
theorem one_full {kind : UInt8 → Bool} {part : Token × Bytes × Bool → Checked Unit (Token × Bytes)}
    (ht : t.tmp.length = tmpSize) (input : Bytes)
    (hother : Overflows (part (t, input, false))) :
    Overflows (floatOne width kind t input >>= part) := by
  rw [floatOne_eq]
  cases visible width t.used input with
  | nil => exact hother
  | cons c v =>
    dsimp only
    split
    · rw [if_neg (by omega)]
      exact Or.inl rfl
    · exact hother

/-! ### The parts -/

theorem isSign_not_digit (c : UInt8) (h : isSign c = true) : isDecimal c = false := by
  have hc : c = byte '+' ∨ c = byte '-' := by simpa [isSign] using h
  rcases hc with rfl | rfl <;> rfl

theorem isExponent_not_digit (c : UInt8) (h : isExponent c = true) : isDecimal c = false := by
  have hc : c = byte 'e' ∨ c = byte 'E' := by simpa [isExponent] using h
  rcases hc with rfl | rfl <;> rfl

theorem point_not_digit (c : UInt8) (h : decide (c = byte '.') = true) : isDecimal c = false := by
  obtain rfl := of_decide_eq_true h
  rfl

/-- Digits at the end of a constant. -/
theorem last_digits_overflows (ht : t.tmp.length ≤ 63) :
    Overflows (floatDigits width t input) ↔
      Bad t.tmp.length (digitsToken (visible width t.used input)) := by
  have h := @digits_overflows width (fun r => .ok r) (fun _ => [])
    (fun t input ht => iff_of_false (overflows_ok (Nat.lt_succ_of_le ht)) (not_bad_nil _))
    (fun _ _ _ => rfl) t input ht
  have hbind : (floatDigits width t input >>= fun r => .ok r) = floatDigits width t input := by
    cases floatDigits width t input <;> rfl
  rwa [hbind, append_nil] at h

theorem digits_full (ht : t.tmp.length = tmpSize) (input : Bytes) :
    Overflows (floatDigits width t input) := by
  rw [floatDigits_full width (by rw [ht]; decide)]
  exact overflows_full ht

/-- The exponent leaves the buffer where it does not fit. -/
theorem exponent_overflows (ht : t.tmp.length ≤ 63) :
    Overflows (floatExponent width t input) ↔
      Bad t.tmp.length (exponentToken (visible width t.used input)) := by
  unfold floatExponent
  apply one_overflows isExponent_not_digit
  · intro t input ht
    exact one_overflows isSign_not_digit (fun t input ht => last_digits_overflows ht)
      (fun t input ht => digits_full ht input) (fun t input ht => last_digits_overflows ht) ht
  · intro t input ht
    exact one_full ht input (digits_full ht input)
  · intro t input ht
    exact iff_of_false (overflows_ok (Nat.lt_succ_of_le ht)) (not_bad_nil _)
  · exact ht

theorem exponent_full (ht : t.tmp.length = tmpSize) (input : Bytes) :
    Overflows (floatExponent width t input) := by
  unfold floatExponent
  exact one_full ht input (overflows_full ht)

/-- Behind a digit there is no point and no exponent yet. -/
theorem exponentToken_digit (c : UInt8) (v : Bytes) (hc : isDecimal c = true) :
    exponentToken (c :: v) = [] := by
  have hnot : ¬ isExponent c = true := by
    intro h
    rw [isExponent_not_digit c h] at hc
    cases hc
  exact if_neg hnot

theorem pointToken_digit (c : UInt8) (v : Bytes) (hc : isDecimal c = true) :
    pointToken (c :: v) = [] := by
  have hnot : ¬ decide (c = byte '.') = true := by
    intro h
    rw [point_not_digit c h] at hc
    cases hc
  exact (if_neg hnot).trans (exponentToken_digit c v hc)

/-- The point, its digits and the exponent leave the buffer where they do not fit. -/
theorem point_overflows (ht : t.tmp.length ≤ 63) :
    Overflows (floatPoint width t input >>= fun r => floatExponent width r.1 r.2) ↔
      Bad t.tmp.length (pointToken (visible width t.used input)) := by
  unfold floatPoint
  rw [bind_assoc]
  apply one_overflows point_not_digit
  · intro t input ht
    exact digits_overflows (fun t input ht => exponent_overflows ht) exponentToken_digit ht
  · intro t input ht
    dsimp only
    rw [if_pos rfl, floatDigits_full width (by rw [ht]; decide), ok_bind]
    exact exponent_full ht input
  · intro t input ht
    exact exponent_overflows ht
  · exact ht

/-- The scanner of a constant leaves the buffer where the constant does not fit. -/
theorem constant_overflows (width : Nat) (input : Bytes) :
    Overflows (floatOne width isSign { tmp := [], used := 0 } input >>= fun r =>
      floatDigits width r.1 r.2.1 >>= fun r =>
        floatPoint width r.1 r.2 >>= fun r => floatExponent width r.1 r.2) ↔
      Bad 0 (floatToken (visible width 0 input)) := by
  have hunsigned : ∀ t input, t.tmp.length ≤ 63 →
      (Overflows (floatDigits width t input >>= fun r =>
        floatPoint width r.1 r.2 >>= fun r => floatExponent width r.1 r.2) ↔
        Bad t.tmp.length (unsignedToken (visible width t.used input))) := fun t input ht =>
    digits_overflows (fun t input ht => point_overflows ht) pointToken_digit ht
  apply one_overflows isSign_not_digit hunsigned
  · intro t input ht
    rw [floatDigits_full width (by rw [ht]; decide), ok_bind]
    unfold floatPoint
    rw [bind_assoc]
    exact one_full ht input (exponent_full ht input)
  · exact hunsigned
  · exact Nat.zero_le 63

/-- A floating conversion writes outside its buffer exactly where the constant at the front of the
    input does not fit. -/
theorem scanFloat_fault_iff (width : Nat) (input : Bytes) :
    scanFloat width input = .fault ↔ ¬ FloatFits width input := by
  have hbad : Bad 0 (floatToken (visible width 0 input)) ↔ ¬ FloatFits width input := by
    unfold Bad FloatFits
    push Not
    simp
  rw [← hbad, ← constant_overflows]
  have hrun : scanFloat width input =
      (floatOne width isSign { tmp := [], used := 0 } input >>= fun r =>
        floatDigits width r.1 r.2.1 >>= fun r =>
          floatPoint width r.1 r.2 >>= fun r => floatExponent width r.1 r.2) >>= fun r =>
        if r.1.tmp.length = 0 then .ok none
        else r.1.put 0 >>= fun _ => .ok (some (r.1.tmp, r.2)) := by
    unfold scanFloat
    simp only [bind_assoc]
  rw [hrun]
  generalize (floatOne width isSign { tmp := [], used := 0 } input >>= fun r =>
    floatDigits width r.1 r.2.1 >>= fun r =>
      floatPoint width r.1 r.2 >>= fun r => floatExponent width r.1 r.2) = x
  unfold Overflows
  cases x with
  | ok r =>
    rw [ok_bind]
    by_cases hlen : r.1.tmp.length < tmpSize
    · refine iff_of_false ?_ ?_
      · have hput : r.1.put 0 = .ok { tmp := r.1.tmp ++ [0], used := r.1.used + 1 } :=
          if_pos hlen
        rw [hput]
        split <;> nofun
      · rintro (h | ⟨r', hr, hle⟩)
        · cases h
        · cases hr
          omega
    · refine iff_of_true ?_ (Or.inr ⟨r, rfl, Nat.le_of_not_lt hlen⟩)
      have hne : r.1.tmp.length ≠ 0 := by
        unfold tmpSize at hlen
        omega
      unfold Token.put
      rw [if_neg hne, if_neg hlen]
      rfl
  | fail e => exact iff_of_false nofun (by rintro (h | ⟨r, hr, _⟩) <;> contradiction)
  | fault => exact iff_of_true rfl (Or.inl rfl)
  | stuck => exact iff_of_false nofun (by rintro (h | ⟨r, hr, _⟩) <;> contradiction)

/-! ### Scans -/

/-- The width of the floating directive that a scan has come to. -/
def ScanState.floatWidth (s : ScanState) : Option Nat :=
  match s.format with
  | [] => none
  | c :: format =>
    if c = byte '%' then
      match scanSpec format with
      | .ok (width, _, conversion :: _) =>
        if isFloatConversion conversion then some width else none
      | _ => none
    else none

/-- The floating constant that a scan has come to, if it has, fits the buffer. -/
def ScanState.Fits (s : ScanState) : Prop :=
  ∀ width, s.floatWidth = some width → FloatFits width (skipSpace s.input)

/-- A step of a scan that goes on. -/
def ScanStep (s s' : ScanState) : Prop := scanStep s = .ok (some s')

/-- The states that a scan comes to. -/
def ScanReached : ScanState → ScanState → Prop := Relation.ReflTransGen ScanStep

theorem store_ne_fault (s : ScanState) (input format : Bytes) (count : Nat) (v : Stored) :
    s.store input format count v ≠ .fault := by
  unfold ScanState.store ScanState.arg
  cases s.args <;> nofun

/-- A conversion leaves the buffer where its constant does not fit. -/
theorem scanConvert_fault_iff (s : ScanState) (width length : Nat) (conversion : UInt8)
    (format : Bytes) :
    scanConvert s width length conversion format = .fault ↔
      isFloatConversion conversion = true ∧ ¬ FloatFits width (skipSpace s.input) := by
  unfold scanConvert
  generalize (if width = 0 then 1 else width) = count
  dsimp only
  by_cases hfloat : isFloatConversion conversion = true
  · have hc : conversion ≠ byte 'c' := by
      rintro rfl
      cases hfloat
    have hs : conversion ≠ byte 's' := by
      rintro rfl
      cases hfloat
    have hint : ¬ isIntConversion conversion = true := by
      intro h
      simp only [isIntConversion, isFloatConversion, Bool.or_eq_true, decide_eq_true_eq] at h hfloat
      rcases h with ((((rfl | rfl) | rfl) | rfl) | rfl) | rfl <;> revert hfloat <;> decide
    rw [if_neg hc, if_neg hs, if_neg hint, if_pos hfloat, ← scanFloat_fault_iff]
    simp only [hfloat, true_and]
    cases scanFloat width (skipSpace s.input) with
    | ok r =>
      refine iff_of_false ?_ nofun
      cases r with
      | none => nofun
      | some r => exact store_ne_fault _ _ _ _ _
    | fail e => exact iff_of_false nofun nofun
    | fault => exact iff_of_true rfl rfl
    | stuck => exact iff_of_false nofun nofun
  · refine iff_of_false ?_ (fun h => hfloat h.1)
    rw [if_neg hfloat]
    by_cases hc : conversion = byte 'c'
    · rw [if_pos hc]
      split
      · nofun
      · exact store_ne_fault _ _ _ _ _
    rw [if_neg hc]
    by_cases hs : conversion = byte 's'
    · rw [if_pos hs]
      split
      · nofun
      · exact store_ne_fault _ _ _ _ _
    rw [if_neg hs]
    split
    · split
      · nofun
      · exact store_ne_fault _ _ _ _ _
    · nofun

theorem scanSpec_ne_fault (format : Bytes) : scanSpec format ≠ .fault := by
  unfold scanSpec
  split <;> nofun

/-- A step leaves the buffer where the constant it has come to does not fit. -/
theorem scanStep_fault_iff (s : ScanState) : scanStep s = .fault ↔ ¬ s.Fits := by
  unfold ScanState.Fits ScanState.floatWidth scanStep
  cases s.format with
  | nil => exact iff_of_false nofun (fun h => h nofun)
  | cons c format =>
    dsimp only
    by_cases hpercent : c = byte '%'
    · subst hpercent
      rw [if_neg (by decide), if_neg (by simp), if_pos rfl]
      cases hspec : scanSpec format with
      | ok r =>
        obtain ⟨width, length, rest⟩ := r
        rw [ok_bind]
        cases rest with
        | nil => exact iff_of_false nofun (fun h => h nofun)
        | cons conversion rest =>
          dsimp only
          rw [scanConvert_fault_iff]
          by_cases hfloat : isFloatConversion conversion = true
          · simp [hfloat]
          · simp [hfloat]
      | fail e => exact iff_of_false nofun (fun h => h nofun)
      | fault => exact absurd hspec (scanSpec_ne_fault format)
      | stuck => exact iff_of_false nofun (fun h => h nofun)
    · rw [if_neg hpercent]
      refine iff_of_false ?_ (fun h => h nofun)
      split_ifs <;> nofun

/-- The states that a scan comes to are its first one and those behind its first step. -/
theorem reached_iff {s s' s'' : ScanState} (h : scanStep s = .ok (some s')) :
    ScanReached s s'' ↔ s'' = s ∨ ScanReached s' s'' := by
  unfold ScanReached
  rw [Relation.ReflTransGen.cases_head_iff]
  constructor
  · rintro (rfl | ⟨s₁, hstep, hrest⟩)
    · exact Or.inl rfl
    · cases h.symm.trans hstep
      exact Or.inr hrest
  · rintro (rfl | hrest)
    · exact Or.inl rfl
    · exact Or.inr ⟨s', h, hrest⟩

/-- A scan that does not go on has come to its first state only. -/
theorem reached_self {s s' : ScanState} (h : ∀ s₁, scanStep s ≠ .ok (some s₁)) :
    ScanReached s s' ↔ s' = s := by
  unfold ScanReached
  rw [Relation.ReflTransGen.cases_head_iff]
  constructor
  · rintro (rfl | ⟨s₁, hstep, _⟩)
    · rfl
    · exact absurd hstep (h s₁)
  · rintro rfl
    exact Or.inl rfl

/-- A scan leaves the buffer exactly where it comes to a constant that does not fit. -/
theorem scanRun_fault_iff (s : ScanState) :
    scanRun s = .fault ↔ ∃ s', ScanReached s s' ∧ ¬ s'.Fits := by
  induction hlen : s.format.length using Nat.strong_induction_on generalizing s with
  | _ n ih =>
    have hfault := scanStep_fault_iff s
    have hends : (∀ s₁, scanStep s ≠ .ok (some s₁)) →
        ((∃ s', ScanReached s s' ∧ ¬ s'.Fits) ↔ ¬ s.Fits) := by
      intro hnone
      simp only [reached_self hnone, exists_eq_left]
    unfold scanRun
    split
    next s' hstep =>
      have hshorter := scanStep_length hstep
      rw [ih s'.format.length (by omega) s' rfl]
      have hfits : s.Fits := by
        by_contra hnot
        rw [hfault.mpr hnot] at hstep
        cases hstep
      constructor
      · rintro ⟨s'', hreached, hnot⟩
        exact ⟨s'', (reached_iff hstep).mpr (Or.inr hreached), hnot⟩
      · rintro ⟨s'', hreached, hnot⟩
        rcases (reached_iff hstep).mp hreached with rfl | hrest
        · exact absurd hfits hnot
        · exact ⟨s'', hrest, hnot⟩
    next hstep =>
      rw [hends (by rw [hstep]; rintro _ ⟨⟩), ← hfault, hstep]
      constructor <;> rintro ⟨⟩
    next e hstep =>
      rw [hends (by rw [hstep]; rintro _ ⟨⟩), ← hfault, hstep]
      constructor <;> rintro ⟨⟩
    next hstep =>
      rw [hends (by rw [hstep]; rintro _ ⟨⟩), ← hfault, hstep]
      exact iff_of_true rfl rfl
    next hstep =>
      rw [hends (by rw [hstep]; rintro _ ⟨⟩), ← hfault, hstep]
      constructor <;> rintro ⟨⟩

end MeuOS.Libc
