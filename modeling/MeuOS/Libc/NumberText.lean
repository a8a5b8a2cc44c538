import MeuOS.Libc.Format
import Mathlib.Data.Nat.Digits.Lemmas
import Mathlib.Tactic.IntervalCases

namespace MeuOS.Libc

open MeuOS.Lib List

/-!
# The text of a number in its field

* `digitsText`, `body` — the digits of a number, and at least so many of them;
* `layout` — a sign, a mark and a body in a field;
* `digitLoop_eq`, `numberText_eq` — `__meuos_sink_number` prints such a layout;
* `worth`, `worth_layout` — the number is read back from its layout.
-/

/-! ### Digits -/

/-- The digits of a number; zero has none. -/
def digitsText (base : Nat) (upper : Bool) (n : Nat) : List Int :=
  (Nat.digits base n).reverse.map (digitCode upper)

/-- The digits of a number behind as many zeros as make them `least`. -/
def body (base : Nat) (upper : Bool) (n least : Nat) : List Int :=
  replicate (least - (digitsText base upper n).length) (code '0') ++ digitsText base upper n

@[simp] theorem digitsText_zero (base : Nat) (upper : Bool) : digitsText base upper 0 = [] := by
  simp [digitsText]

variable {base n width least : Nat} {upper left zero : Bool} {text : List Int}

theorem digitsText_step (hbase : 1 < base) (upper : Bool) (hn : n ≠ 0) :
    digitsText base upper n =
      digitsText base upper (n / base) ++ [digitCode upper (n % base)] := by
  unfold digitsText
  rw [Nat.digits_eq_cons_digits_div hbase hn]
  simp

theorem length_digitsText (base : Nat) (upper : Bool) (n : Nat) :
    (digitsText base upper n).length = (Nat.digits base n).length := by
  simp [digitsText]

theorem digitsText_pos (upper : Bool) (hn : n ≠ 0) :
    0 < (digitsText base upper n).length := by
  rw [length_digitsText]
  exact length_pos_iff.mpr (Nat.digits_ne_nil_iff_ne_zero.mpr hn)

/-- The loop writes the digits, and one for a zero. -/
theorem digitLoop_eq (hbase : 1 < base) (upper : Bool) {room : Nat}
    (hn : n < base ^ room) (hroom : 0 < room) (cursor : List Int) :
    digitLoop base upper room n cursor =
      some ((if n = 0 then [code '0'] else digitsText base upper n) ++ cursor) := by
  induction room generalizing n cursor with
  | zero => exact absurd hroom (Nat.lt_irrefl 0)
  | succ room ih =>
    unfold digitLoop
    dsimp only
    by_cases hzero : n = 0
    · subst hzero
      simp [digitCode]
    rw [if_neg hzero, digitsText_step hbase upper hzero]
    by_cases hquot : n / base = 0
    · rw [if_pos hquot, hquot]
      simp
    · rw [if_neg hquot]
      have hlt : n / base < base ^ room := by
        rw [Nat.div_lt_iff_lt_mul (by omega), ← Nat.pow_succ]
        exact hn
      have hroom' : 0 < room := by
        apply Nat.pos_of_ne_zero
        rintro rfl
        rw [Nat.pow_zero] at hlt
        exact hquot (Nat.lt_one_iff.mp hlt)
      rw [ih hlt hroom', if_neg hquot]
      simp

/-- A digit's character tells whether the digit is 0. -/
theorem digitCode_eq_zero {d : Nat} (hd : d < 16) :
    digitCode upper d = code '0' ↔ d = 0 := by
  unfold digitCode
  have h0 : code '0' = 48 := rfl
  have ha : code 'a' = 97 := rfl
  have hA : code 'A' = 65 := rfl
  rw [h0, ha, hA]
  split
  · omega
  · cases upper
    · simp
      omega
    · simp
      omega

/-- The first digit of a number is not 0. -/
theorem head_digitsText (hbase : 1 < base) (hle : base ≤ 16) (upper : Bool) :
    (digitsText base upper n).head? ≠ some (code '0') := by
  by_cases hn : n = 0
  · subst hn
    simp
  have hne := Nat.digits_ne_nil_iff_ne_zero (b := base).mpr hn
  intro hhead
  unfold digitsText at hhead
  rw [head?_map, head?_reverse, getLast?_eq_some_getLast hne] at hhead
  have hlt := Nat.digits_lt_base hbase (getLast_mem hne)
  have hlast := (digitCode_eq_zero (by omega)).mp (Option.some.inj hhead)
  exact Nat.getLast_digit_ne_zero base hn hlast

/-! ### Layouts -/

/-- The characters that a field has to be filled with. -/
def padding (width : Nat) (sign mark body : List Int) : Nat :=
  width - (sign.length + mark.length + body.length)

/-- A sign, a mark and a body in a field. -/
def layout (left zero : Bool) (width : Nat) (sign mark body : List Int) : List Int :=
  let pad := padding width sign mark body
  if left then sign ++ mark ++ body ++ replicate pad (code ' ')
  else if zero then sign ++ mark ++ replicate pad (code '0') ++ body
  else replicate pad (code ' ') ++ sign ++ mark ++ body

theorem length_layout (left zero : Bool) (width : Nat) (sign mark body : List Int) :
    (layout left zero width sign mark body).length =
      max width (sign.length + mark.length + body.length) := by
  unfold layout padding
  dsimp only
  split_ifs <;> simp <;> omega

/-- A mark 0 belongs to the body as well. -/
theorem layout_mark_zero (left zero : Bool) (width : Nat) (sign text : List Int) :
    layout left zero width sign [code '0'] text =
      layout left zero width sign [] (code '0' :: text) := by
  have hpad : padding width sign [code '0'] text = padding width sign [] (code '0' :: text) := by
    simp [padding, Nat.add_comm, Nat.add_left_comm]
  have hswap : ∀ k : Nat, code '0' :: (replicate k (code '0') ++ text) =
      replicate k (code '0') ++ code '0' :: text := by
    intro k
    rw [← cons_append, ← replicate_succ, replicate_succ', append_assoc]
    rfl
  unfold layout
  rw [hpad]
  cases left <;> cases zero <;> simp [hswap]

/-- What stands in a layout beside the padding. -/
theorem mem_layout {sign mark : List Int} {c : Int}
    (hspace : c ≠ code ' ') (hzero : zero = true → c ≠ code '0') :
    c ∈ layout left zero width sign mark text ↔ c ∈ sign ∨ c ∈ mark ∨ c ∈ text := by
  unfold layout
  cases zero with
  | false => cases left <;> simp [hspace]
  | true =>
    have hne := hzero rfl
    cases left <;> simp [hspace, hne]

/-- The characters of a layout that are no spaces, where zeros do not fill it. -/
theorem countP_layout (left : Bool) (width : Nat) (sign mark text : List Int) :
    (layout left false width sign mark text).countP (· ≠ code ' ') =
      sign.countP (· ≠ code ' ') + mark.countP (· ≠ code ' ') + text.countP (· ≠ code ' ') := by
  have hspaces : ∀ k : Nat, (replicate k (code ' ')).countP (· ≠ code ' ') = 0 := by
    intro k
    simp [countP_replicate]
  unfold layout
  cases left
  · simp only [Bool.false_eq_true, if_false, countP_append, hspaces]
    omega
  · simp only [if_true, countP_append, hspaces]
    omega

/-- A space for a sign is not seen where the padding has one in its place. -/
theorem layout_space_iff (htext : ∀ c ∈ text, c ≠ code ' ') (hzero : zero = true → text ≠ []) :
    layout left zero width [] [] text = layout left zero width [code ' '] [] text ↔
      text.length < width ∧ zero = false ∧ (left = true → text = []) := by
  constructor
  · intro h
    have hlen := congrArg length h
    rw [length_layout, length_layout, length_nil, length_singleton] at hlen
    have hwidth : text.length < width := by omega
    -- Otherwise the texts differ in their first characters.
    have hhead := congrArg head? h
    have hnil : left = true → text = [] := by
      rintro rfl
      cases text with
      | nil => rfl
      | cons c text =>
        have hc : c = code ' ' := by simpa [layout] using hhead
        exact absurd hc (htext c mem_cons_self)
    refine ⟨hwidth, ?_, hnil⟩
    cases zero with
    | false => rfl
    | true =>
      have hleft : left = false := by
        cases left with
        | false => rfl
        | true => exact absurd (hnil rfl) (hzero rfl)
      subst hleft
      obtain ⟨k, hk⟩ : ∃ k, width - text.length = k + 1 := ⟨width - text.length - 1, by omega⟩
      have hc : code '0' = code ' ' := by
        simpa [layout, padding, hk, replicate_succ] using hhead
      cases hc
  · rintro ⟨hwidth, rfl, hnil⟩
    cases left with
    | false =>
      obtain ⟨k, hk⟩ : ∃ k, width - text.length = k + 1 := ⟨width - text.length - 1, by omega⟩
      have hk' : width - (1 + text.length) = k := by omega
      simp [layout, padding, hk, hk', replicate_succ']
    | true =>
      obtain rfl := hnil rfl
      obtain ⟨k, rfl⟩ : ∃ k, width = k + 1 := Nat.exists_eq_add_one.mpr hwidth
      simp [layout, padding, replicate_succ]

/-! ### Bodies -/

theorem body_zero (base : Nat) (upper : Bool) (least : Nat) :
    body base upper 0 least = replicate least (code '0') := by
  simp [body]

theorem body_short (h : least ≤ (Nat.digits base n).length) :
    body base upper n least = digitsText base upper n := by
  unfold body
  rw [length_digitsText, Nat.sub_eq_zero_of_le h]
  rfl

theorem body_long (h : (Nat.digits base n).length < least) :
    (body base upper n least).head? = some (code '0') := by
  unfold body
  rw [length_digitsText, show least - (Nat.digits base n).length =
    (least - (Nat.digits base n).length - 1) + 1 by omega]
  rfl

theorem length_body (base : Nat) (upper : Bool) (n least : Nat) :
    (body base upper n least).length = max least (Nat.digits base n).length := by
  unfold body
  rw [length_append, length_replicate, length_digitsText]
  omega

/-- A least number of digits as the code has it: any negative number stands for none given. -/
def leastOf (minDigits : Int) : Nat := if minDigits < 0 then 1 else minDigits.toNat

/-- The sign of a number as a text. -/
def NumberArgs.signText (a : NumberArgs) : List Int :=
  if a.negative then [code '-'] else if a.plus then [code '+'] else []

/-- What is shown behind the zeros of the precision is the body. -/
theorem shown_body (a : NumberArgs) (hbase : 1 < a.base) (hle : a.base ≤ 16) {cursor : List Int}
    (hcursor : cursor = if a.value = 0 then [code '0'] else digitsText a.base a.upper a.value) :
    a.ndigits (a.shown cursor) = (body a.base a.upper a.value (leastOf a.minDigits)).length ∧
      replicate (a.ndigits (a.shown cursor) - (a.shown cursor).length).toNat (code '0') ++
        a.shown cursor = body a.base a.upper a.value (leastOf a.minDigits) := by
  by_cases hzero : a.value = 0
  · rw [if_pos hzero] at hcursor
    subst hcursor
    by_cases hnone : a.minDigits = 0
    · -- A zero with the precision 0 has no digits.
      simp [NumberArgs.shown, NumberArgs.ndigits, body, leastOf, hzero, hnone]
    · have hshown : a.shown [code '0'] = [code '0'] := by simp [NumberArgs.shown, hnone]
      have hleast : leastOf a.minDigits = (a.ndigits [code '0'] - 1).toNat + 1 := by
        unfold leastOf NumberArgs.ndigits
        rw [length_singleton]
        split_ifs <;> omega
      have hpos : 1 ≤ a.ndigits [code '0'] := by
        unfold NumberArgs.ndigits
        rw [length_singleton]
        split_ifs <;> omega
      rw [hshown]
      unfold body
      rw [hzero, digitsText_zero, length_nil, Nat.sub_zero, append_nil, hleast,
        length_singleton, length_replicate, replicate_succ']
      exact ⟨by omega, rfl⟩
  · rw [if_neg hzero] at hcursor
    have hhead : cursor.head? ≠ some (code '0') := by
      rw [hcursor]
      exact head_digitsText hbase hle a.upper
    have hshown : a.shown cursor = cursor := by
      unfold NumberArgs.shown
      rw [if_neg (fun h => hhead h.2.2)]
    have hpos : 0 < cursor.length := by
      rw [hcursor]
      exact digitsText_pos a.upper hzero
    have hndigits : a.ndigits cursor = max cursor.length (leastOf a.minDigits) := by
      unfold NumberArgs.ndigits leastOf
      split_ifs <;> omega
    rw [hshown, hndigits]
    unfold body
    rw [← hcursor]
    refine ⟨?_, ?_⟩
    · rw [length_append, length_replicate]
      omega
    · congr 2
      omega

/-- A number is printed as a layout, and its length stays an `int`. -/
theorem numberText_eq (a : NumberArgs) (hbase : 1 < a.base) (hle : a.base ≤ 16)
    (hvalue : a.value < a.base ^ digitsSize) (hwidth : 0 ≤ a.width) :
    numberText a =
      if ((a.signText.length + a.mark.length +
          (body a.base a.upper a.value (leastOf a.minDigits)).length : Nat) : Int) ≤ intMax then
        some (layout a.left a.zero a.width.toNat a.signText a.mark
          (body a.base a.upper a.value (leastOf a.minDigits)))
      else none := by
  unfold numberText
  rw [digitLoop_eq hbase a.upper hvalue (by decide), append_nil]
  generalize hcursor : (if a.value = 0 then [code '0'] else digitsText a.base a.upper a.value) =
    cursor
  obtain ⟨hndigits, hbody⟩ := shown_body a hbase hle hcursor.symm
  have hsign : (if a.sign ≠ 0 then [a.sign] else []) = a.signText := by
    unfold NumberArgs.sign NumberArgs.signText
    have hminus : code '-' ≠ 0 := by decide
    have hplus : code '+' ≠ 0 := by decide
    cases a.negative <;> cases a.plus <;> simp [hminus, hplus]
  have hcontent : a.content (a.shown cursor) = ((a.signText.length + a.mark.length +
      (body a.base a.upper a.value (leastOf a.minDigits)).length : Nat) : Int) := by
    unfold NumberArgs.content
    rw [hndigits, ← hsign]
    push_cast
    split <;> simp <;> omega
  have hpad : (a.pad (a.shown cursor)).toNat = padding a.width.toNat a.signText a.mark
      (body a.base a.upper a.value (leastOf a.minDigits)) := by
    unfold NumberArgs.pad padding
    rw [hcontent]
    split <;> omega
  dsimp only [bind, Option.bind]
  rw [hcontent]
  by_cases hfits : ((a.signText.length + a.mark.length +
      (body a.base a.upper a.value (leastOf a.minDigits)).length : Nat) : Int) ≤ intMax
  · rw [if_neg (by omega), if_pos hfits]
    unfold NumberArgs.chars layout
    rw [hsign, hpad]
    have hregroup : ∀ tail : List Int,
        replicate (a.ndigits (a.shown cursor) - (a.shown cursor).length).toNat (code '0') ++
          (a.shown cursor ++ tail) = body a.base a.upper a.value (leastOf a.minDigits) ++ tail := by
      intro tail
      rw [← append_assoc, hbody]
    rw [hregroup]
    cases a.left <;> cases a.zero <;> simp
  · rw [if_pos (by omega), if_neg hfits]

/-! ### Reading back -/

/-- The number of a digit's character. -/
def digitWorth (upper : Bool) (c : Int) : Option Nat :=
  if code '0' ≤ c ∧ c ≤ code '9' then some (c - code '0').toNat
  else if upper then
    if code 'A' ≤ c ∧ c ≤ code 'F' then some (c - code 'A' + 10).toNat else none
  else if code 'a' ≤ c ∧ c ≤ code 'f' then some (c - code 'a' + 10).toNat else none

/-- The number that a text stands for behind `acc`; what is no digit is passed over. -/
def worthFrom (base : Nat) (upper : Bool) (acc : Nat) (text : List Int) : Nat :=
  text.foldl (fun acc c => match digitWorth upper c with
    | some d => acc * base + d
    | none => acc) acc

/-- The number that a text stands for. -/
def worth (base : Nat) (upper : Bool) (text : List Int) : Nat := worthFrom base upper 0 text

theorem digitWorth_digitCode {d : Nat} (hd : d < 16) :
    digitWorth upper (digitCode upper d) = some d := by
  cases upper <;> interval_cases d <;> rfl

theorem digitWorth_zero (upper : Bool) : digitWorth upper (code '0') = some 0 := rfl

theorem worthFrom_append (base : Nat) (upper : Bool) (acc : Nat) (a b : List Int) :
    worthFrom base upper acc (a ++ b) = worthFrom base upper (worthFrom base upper acc a) b :=
  foldl_append

theorem worthFrom_cons (base : Nat) (upper : Bool) (acc : Nat) (c : Int) (text : List Int) :
    worthFrom base upper acc (c :: text) =
      worthFrom base upper (match digitWorth upper c with
        | some d => acc * base + d
        | none => acc) text := rfl

/-- What is no digit counts nothing. -/
theorem worthFrom_skip (h : ∀ c ∈ text, digitWorth upper c = none) (acc : Nat) :
    worthFrom base upper acc text = acc := by
  induction text generalizing acc with
  | nil => rfl
  | cons c text ih =>
    rw [worthFrom_cons, h c mem_cons_self]
    exact ih (fun d hd => h d (mem_cons_of_mem c hd)) acc

/-- Zeros and what is no digit count nothing at the front. -/
theorem worthFrom_front (h : ∀ c ∈ text, digitWorth upper c = none ∨ digitWorth upper c = some 0) :
    worthFrom base upper 0 text = 0 := by
  induction text with
  | nil => rfl
  | cons c text ih =>
    have hrest := ih fun d hd => h d (mem_cons_of_mem c hd)
    rw [worthFrom_cons]
    rcases h c mem_cons_self with hc | hc
    · rw [hc]
      exact hrest
    · rw [hc]
      simpa using hrest

/-- A number is read back from its digits. -/
theorem worthFrom_digitsText (hbase : 1 < base) (hle : base ≤ 16) (upper : Bool)
    (n : Nat) : worthFrom base upper 0 (digitsText base upper n) = n := by
  induction n using Nat.strong_induction_on with
  | _ n ih =>
    by_cases hn : n = 0
    · subst hn
      rw [digitsText_zero]
      rfl
    · have hlt : n / base < n := Nat.div_lt_self (Nat.pos_of_ne_zero hn) hbase
      have hmod : n % base < 16 := Nat.lt_of_lt_of_le (Nat.mod_lt n (by omega)) hle
      rw [digitsText_step hbase upper hn, worthFrom_append, ih _ hlt, worthFrom_cons,
        digitWorth_digitCode hmod]
      exact Nat.div_add_mod' n base

theorem worth_body (hbase : 1 < base) (hle : base ≤ 16) (upper : Bool)
    (n least : Nat) : worthFrom base upper 0 (body base upper n least) = n := by
  unfold body
  rw [worthFrom_append, worthFrom_front, worthFrom_digitsText hbase hle]
  intro c hc
  rw [eq_of_mem_replicate hc]
  exact Or.inr (digitWorth_zero upper)

/-- A body has digits only. -/
theorem mem_body (hbase : 1 < base) (hle : base ≤ 16)
    {c : Int} (h : c ∈ body base upper n least) : digitWorth upper c ≠ none := by
  have hdigit : ∃ d, d < 16 ∧ c = digitCode upper d := by
    rcases mem_append.mp h with hzeros | hdigits
    · exact ⟨0, by decide, eq_of_mem_replicate hzeros⟩
    · obtain ⟨d, hd, rfl⟩ := mem_map.mp hdigits
      have hlt := Nat.digits_lt_base hbase (mem_reverse.mp hd)
      exact ⟨d, by omega, rfl⟩
  obtain ⟨d, hd, rfl⟩ := hdigit
  rw [digitWorth_digitCode hd]
  exact Option.some_ne_none d

theorem digitWorth_space (upper : Bool) : digitWorth upper (code ' ') = none := by
  cases upper <;> rfl

theorem digitWorth_minus (upper : Bool) : digitWorth upper (code '-') = none := by
  cases upper <;> rfl

/-- A number is read back from its layout. -/
theorem worth_layout {sign mark : List Int}
    (hfront : ∀ c ∈ sign ++ mark, digitWorth upper c = none ∨ digitWorth upper c = some 0)
    (htext : worthFrom base upper 0 text = n) :
    worth base upper (layout left zero width sign mark text) = n := by
  have hspaces : ∀ (k acc : Nat),
      worthFrom base upper acc (replicate k (code ' ')) = acc := fun k =>
    worthFrom_skip fun c hc => (eq_of_mem_replicate hc) ▸ digitWorth_space upper
  have hzeros : ∀ k : Nat, worthFrom base upper 0 (replicate k (code '0')) = 0 := fun k =>
    worthFrom_front fun c hc => by
      rw [eq_of_mem_replicate hc]
      exact Or.inr (digitWorth_zero upper)
  have hzero : worthFrom base upper 0 (sign ++ mark) = 0 := worthFrom_front hfront
  rw [worthFrom_append] at hzero
  unfold worth layout
  dsimp only
  split_ifs
  · simp only [worthFrom_append, hzero, htext, hspaces]
  · simp only [worthFrom_append, hzero, htext, hzeros]
  · simp only [worthFrom_append, hzero, htext, hspaces]

end MeuOS.Libc
