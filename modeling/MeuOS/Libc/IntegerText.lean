import MeuOS.Lib.Bytes
import Mathlib.Data.List.TakeWhile

namespace MeuOS.Libc

open MeuOS.Lib List

/-!
# Integers in text (C99 7.20.1.4 and 6.4.4.1)

What the standard makes of a text: blanks, a sign, and the longest numeral of the base.  A text is
the string without its terminator.

* `Numeral` — the forms of a numeral, with its value;
* `Subject`, `NoSubject` — the reading of a text: the longest numeral behind blanks and a sign;
* `subject` — a function that finds it, with `subject_iff` and `subject_eq_none_iff`.
-/

/-! ### Characters -/

/-- `isspace` in the "C" locale. -/
def isspace (c : UInt8) : Bool := c.toNat = 32 || (9 ≤ c.toNat && c.toNat ≤ 13)

/-- The value of a digit or a letter; 36 for everything else. -/
def valueOf (c : UInt8) : Nat :=
  if 48 ≤ c.toNat ∧ c.toNat ≤ 57 then c.toNat - 48
  else if 97 ≤ c.toNat ∧ c.toNat ≤ 122 then c.toNat - 97 + 10
  else if 65 ≤ c.toNat ∧ c.toNat ≤ 90 then c.toNat - 65 + 10
  else 36

/-- The digits of a base. -/
def isDigit (base : Nat) (c : UInt8) : Bool := valueOf c < base

/-- `x` and `X`. -/
def isMark (c : UInt8) : Bool := c = 120 || c = 88

/-- The number that digits stand for behind `acc`. -/
def numberFrom (base acc : Nat) (ds : Bytes) : Nat :=
  ds.foldl (fun n c => n * base + valueOf c) acc

/-- The number that digits stand for. -/
def number (base : Nat) (ds : Bytes) : Nat := numberFrom base 0 ds

variable {base v : Nat} {text u s : Bytes}

theorem le_numberFrom (hbase : 0 < base) (acc : Nat) (ds : Bytes) :
    acc ≤ numberFrom base acc ds := by
  induction ds generalizing acc with
  | nil => exact Nat.le_refl _
  | cons c ds ih =>
    have hstep : acc ≤ acc * base + valueOf c :=
      Nat.le_trans (Nat.le_mul_of_pos_right acc hbase) (Nat.le_add_right _ _)
    exact Nat.le_trans hstep (ih _)

theorem isDigit_of_isMark {c : UInt8} (h : isMark c = true) (hbase : base ≤ 16) :
    isDigit base c = false := by
  have hc : c = 120 ∨ c = 88 := by simpa [isMark] using h
  rcases hc with rfl | rfl
  · simpa [isDigit, valueOf] using (by omega : base ≤ 33)
  · simpa [isDigit, valueOf] using (by omega : base ≤ 33)

/-! ### Numerals -/

/-- The numerals of a base with their values.  Base 0 stands for the constants of the language. -/
inductive Numeral : Nat → Bytes → Nat → Prop where
  /-- Digits of the base. -/
  | digits {base : Nat} {ds : Bytes} (hbase : base ≠ 0) (hne : ds ≠ [])
      (hds : ∀ c ∈ ds, isDigit base c = true) : Numeral base ds (number base ds)
  /-- A hexadecimal constant. -/
  | hex {base : Nat} {x : UInt8} {ds : Bytes} (hbase : base = 0 ∨ base = 16)
      (hx : isMark x = true) (hne : ds ≠ []) (hds : ∀ c ∈ ds, isDigit 16 c = true) :
      Numeral base (48 :: x :: ds) (number 16 ds)
  /-- A decimal constant. -/
  | decimal {c : UInt8} {ds : Bytes} (hc : c ≠ 48)
      (hds : ∀ d ∈ c :: ds, isDigit 10 d = true) : Numeral 0 (c :: ds) (number 10 (c :: ds))
  /-- An octal constant. -/
  | octal {ds : Bytes} (hds : ∀ c ∈ ds, isDigit 8 c = true) :
      Numeral 0 (48 :: ds) (number 8 (48 :: ds))

/-- A text begins with `0x` and a hexadecimal digit, where the base allows that. -/
def hexStart (base : Nat) : Bytes → Bool
  | c :: x :: d :: _ => (base = 0 || base = 16) && c = 48 && isMark x && isDigit 16 d
  | _ => false

/-- The base in which the digits of a text stand. -/
def radix (base : Nat) (text : Bytes) : Nat :=
  if base ≠ 0 then base
  else if hexStart 0 text then 16
  else if text.head? = some 48 then 8
  else 10

/-- The text from the digits on. -/
def digitsOf (base : Nat) (text : Bytes) : Bytes :=
  if hexStart base text then text.drop 2 else text

/-- The value of the longest numeral in front of a text, and what follows it. -/
def numeral (base : Nat) (text : Bytes) : Option (Nat × Bytes) :=
  let ds := (digitsOf base text).takeWhile (isDigit (radix base text))
  if ds = [] then none
  else some (number (radix base text) ds,
    (digitsOf base text).dropWhile (isDigit (radix base text)))

/-! ### The longest numeral -/

theorem length_le_takeWhile {p : UInt8 → Bool} {ds : Bytes} (hpre : ds <+: text)
    (hds : ∀ c ∈ ds, p c = true) : ds.length ≤ (text.takeWhile p).length := by
  obtain ⟨rest, rfl⟩ := hpre
  rw [takeWhile_append_of_pos hds, length_append]
  exact Nat.le_add_right _ _

/-- A text that begins with `0x` and a hexadecimal digit. -/
theorem exists_of_hexStart (h : hexStart base text = true) :
    ∃ x d tail, text = 48 :: x :: d :: tail ∧ (base = 0 ∨ base = 16) ∧ isMark x = true ∧
      isDigit 16 d = true := by
  match text with
  | c :: x :: d :: tail =>
    simp only [hexStart, Bool.and_eq_true, Bool.or_eq_true, decide_eq_true_eq] at h
    obtain ⟨⟨⟨hbase, rfl⟩, hx⟩, hd⟩ := h
    exact ⟨x, d, tail, rfl, hbase, hx, hd⟩

theorem hexStart_iff {x d : UInt8} {tail : Bytes} :
    hexStart base (48 :: x :: d :: tail) = true ↔
      (base = 0 ∨ base = 16) ∧ isMark x = true ∧ isDigit 16 d = true := by
  simp [hexStart, and_assoc]

theorem radix_of_hexStart (h : hexStart base text = true) :
    radix base text = 16 := by
  obtain ⟨x, d, tail, rfl, hbase, hx, hd⟩ := exists_of_hexStart h
  rcases hbase with rfl | rfl
  · rw [radix, if_neg (by simp), if_pos (hexStart_iff.mpr ⟨Or.inl rfl, hx, hd⟩)]
  · rfl

/-- Digits of a base up to 16 in front of `0x` are the zero at most. -/
theorem length_le_one_of_mark (hbase : base ≤ 16) {x : UInt8} (hx : isMark x = true)
    {ds tail : Bytes} (hpre : ds <+: 48 :: x :: tail) (hds : ∀ c ∈ ds, isDigit base c = true) :
    ds.length ≤ 1 := by
  refine Nat.le_trans (length_le_takeWhile hpre hds) ?_
  rw [takeWhile_cons]
  split
  next => simp [isDigit_of_isMark hx hbase]
  next => simp

/-- A numeral in front of a text that begins with `0x` and a digit. -/
theorem length_le_of_hexStart (h : hexStart base text = true)
    (hu : Numeral base u v) (hpre : u <+: text) :
    u.length ≤ 2 + ((text.drop 2).takeWhile (isDigit 16)).length := by
  obtain ⟨x, d, tail, rfl, hb, hx, hd⟩ := exists_of_hexStart h
  cases hu with
  | digits hbase hne hds =>
    have := length_le_one_of_mark (by omega) hx hpre hds
    omega
  | @hex _ y ds hbase hy hne hds =>
    have htail : ds <+: d :: tail := by
      simpa using (cons_prefix_cons.mp (cons_prefix_cons.mp hpre).2).2
    have := length_le_takeWhile htail hds
    simp only [length_cons, drop_succ_cons, drop_zero]
    omega
  | decimal hc hds => exact absurd (cons_prefix_cons.mp hpre).1 hc
  | @octal ds hds =>
    have hall : ∀ c ∈ 48 :: ds, isDigit 8 c = true := by
      intro c hc
      rcases mem_cons.mp hc with rfl | hc
      · decide
      · exact hds c hc
    have := length_le_one_of_mark (by omega) hx hpre hall
    omega

/-- A numeral in front of another text consists of digits of the radix. -/
theorem digits_of_not_hexStart (h : ¬ hexStart base text = true)
    (hu : Numeral base u v) (hpre : u <+: text) :
    u ≠ [] ∧ ∀ c ∈ u, isDigit (radix base text) c = true := by
  cases hu with
  | digits hbase hne hds => exact ⟨hne, by rwa [radix, if_pos hbase]⟩
  | @hex _ x ds hbase hx hne hds =>
    -- the text would begin with `0x` and a digit
    obtain ⟨d, ds, rfl⟩ := exists_cons_of_ne_nil hne
    obtain ⟨tail, rfl⟩ := hpre
    exact absurd (hexStart_iff.mpr ⟨hbase, hx, hds d mem_cons_self⟩) h
  | @decimal c ds hc hds =>
    obtain ⟨tail, rfl⟩ := hpre
    have hradix : radix 0 (c :: ds ++ tail) = 10 := by
      rw [radix, if_neg (by simp), if_neg h, if_neg (by simpa using hc)]
    exact ⟨cons_ne_nil _ _, by rwa [hradix]⟩
  | @octal ds hds =>
    obtain ⟨tail, rfl⟩ := hpre
    have hradix : radix 0 (48 :: ds ++ tail) = 8 := by
      rw [radix, if_neg (by simp), if_neg h, if_pos (by simp)]
    refine ⟨cons_ne_nil _ _, fun c hc => ?_⟩
    rw [hradix]
    rcases mem_cons.mp hc with rfl | hc
    · decide
    · exact hds c hc

/-- Digits of the radix in front of a text without `0x` are a numeral. -/
theorem numeral_of_digits {base : Nat} {ds tail : Bytes}
    (h : ¬ hexStart base (ds ++ tail) = true) (hne : ds ≠ [])
    (hds : ∀ c ∈ ds, isDigit (radix base (ds ++ tail)) c = true) :
    Numeral base ds (number (radix base (ds ++ tail)) ds) := by
  obtain ⟨c, ds, rfl⟩ := exists_cons_of_ne_nil hne
  unfold radix at hds ⊢
  by_cases hbase : base ≠ 0
  · rw [if_pos hbase] at hds ⊢
    exact .digits hbase hne hds
  · obtain rfl : base = 0 := by omega
    rw [if_neg hbase, if_neg h] at hds ⊢
    by_cases hc : c = 48
    · subst hc
      rw [if_pos (by simp)] at hds ⊢
      exact .octal fun d hd => hds d (mem_cons_of_mem _ hd)
    · rw [if_neg (by simpa using hc)] at hds ⊢
      exact .decimal hc hds

/-- The function finds a numeral in front of the text, and none is longer. -/
theorem numeral_eq_some {rest : Bytes} (h : numeral base text = some (v, rest)) :
    ∃ u, text = u ++ rest ∧ Numeral base u v ∧
      ∀ u' v', u' <+: text → Numeral base u' v' → u'.length ≤ u.length := by
  unfold numeral at h
  dsimp only at h
  split at h
  next => simp at h
  next hne =>
    cases h
    by_cases hhex : hexStart base text = true
    · have hdigits : digitsOf base text = text.drop 2 := if_pos hhex
      rw [hdigits, radix_of_hexStart hhex] at hne ⊢
      refine ⟨text.take 2 ++ (text.drop 2).takeWhile (isDigit 16), ?_, ?_, fun u' v' hpre hu' => ?_⟩
      · rw [append_assoc, takeWhile_append_dropWhile, take_append_drop]
      · obtain ⟨x, d, tail, rfl, hb, hx, hd⟩ := exists_of_hexStart hhex
        exact .hex hb hx hne (fun c hc => mem_takeWhile_imp hc)
      · have hlen := length_le_of_hexStart hhex hu' hpre
        obtain ⟨x, d, tail, rfl, -⟩ := exists_of_hexStart hhex
        rw [length_append]
        exact hlen
    · have hdigits : digitsOf base text = text := if_neg hhex
      rw [hdigits] at hne ⊢
      have hsplit := takeWhile_append_dropWhile (p := isDigit (radix base text)) (l := text)
      refine ⟨text.takeWhile (isDigit (radix base text)), hsplit.symm, ?_, fun u' v' hpre hu' => ?_⟩
      · have hnum := @numeral_of_digits base (text.takeWhile (isDigit (radix base text)))
          (text.dropWhile (isDigit (radix base text)))
        rw [hsplit] at hnum
        exact hnum hhex hne (fun c hc => mem_takeWhile_imp hc)
      · exact length_le_takeWhile hpre (digits_of_not_hexStart hhex hu' hpre).2

/-- Where the function finds nothing, no numeral stands in front of the text. -/
theorem numeral_eq_none (h : numeral base text = none) (hpre : u <+: text) :
    ¬ Numeral base u v := by
  intro hu
  have hnil : (digitsOf base text).takeWhile (isDigit (radix base text)) = [] := by
    unfold numeral at h
    dsimp only at h
    split at h
    next hnil => exact hnil
    next => simp at h
  by_cases hhex : hexStart base text = true
  · rw [radix_of_hexStart hhex, digitsOf, if_pos hhex] at hnil
    obtain ⟨x, d, tail, rfl, -, -, hd⟩ := exists_of_hexStart hhex
    simp [hd] at hnil
  · rw [digitsOf, if_neg hhex] at hnil
    obtain ⟨hne, hds⟩ := digits_of_not_hexStart hhex hu hpre
    have := length_le_takeWhile hpre hds
    rw [hnil, length_nil, Nat.le_zero] at this
    exact hne (length_eq_zero_iff.mp this)

/-- A numeral has one value. -/
theorem Numeral.unique {w : Nat} (h : Numeral base u v) (h' : Numeral base u w) :
    v = w := by
  -- the mark `x` is no digit where another form would have to read it
  have hmark : ∀ {b : Nat} {x : UInt8} {ds : Bytes}, b ≤ 16 → isMark x = true →
      ¬ ∀ c ∈ (48 : UInt8) :: x :: ds, isDigit b c = true := by
    intro b x ds hb hx hall
    have hx' := hall x (by simp)
    rw [isDigit_of_isMark hx hb] at hx'
    cases hx'
  cases h with
  | digits hbase hne hds =>
    cases h' with
    | digits => rfl
    | hex hb hx => exact absurd hds (hmark (by omega) hx)
    | decimal => exact absurd rfl hbase
    | octal => exact absurd rfl hbase
  | hex hb hx hne hds =>
    cases h' with
    | digits hbase hne' hds' => exact absurd hds' (hmark (by omega) hx)
    | hex => rfl
    | decimal hc => exact absurd rfl hc
    | @octal ds hds' =>
      have hx' := hds' _ mem_cons_self
      rw [isDigit_of_isMark hx (by omega)] at hx'
      cases hx'
  | decimal hc hds =>
    cases h' with
    | digits hbase => exact absurd rfl hbase
    | hex => exact absurd rfl hc
    | decimal => rfl
    | octal => exact absurd rfl hc
  | octal hds =>
    cases h' with
    | digits hbase => exact absurd rfl hbase
    | hex hb hx =>
      have hx' := hds _ mem_cons_self
      rw [isDigit_of_isMark hx (by omega)] at hx'
      cases hx'
    | decimal hc => exact absurd rfl hc
    | octal => rfl

/-! ### The subject sequence -/

/-- A sign, or none; whether it is a minus. -/
inductive Sign : Bytes → Bool → Prop where
  | absent : Sign [] false
  | plus : Sign [43] false
  | minus : Sign [45] true

/-- The expected form: a numeral, with or without a sign. -/
def Expected (base : Nat) (u : Bytes) (negative : Bool) (magnitude : Nat) : Prop :=
  ∃ sign body, u = sign ++ body ∧ Sign sign negative ∧ Numeral base body magnitude

/-- What is read of a text. -/
@[ext]
structure Subject where
  negative : Bool
  magnitude : Nat
  /-- The final string, behind the subject sequence. -/
  rest : Bytes
  deriving DecidableEq

/-- `s` is `blanks` and then `text`, which does not begin with a blank. -/
structure Splits (s blanks text : Bytes) : Prop where
  eq : s = blanks ++ text
  blank : ∀ c ∈ blanks, isspace c = true
  head : ∀ c ∈ text.head?, isspace c = false

/-- The standard reads `r` of `s`: behind the blanks, the longest sequence of the expected form. -/
def IsSubject (base : Nat) (s : Bytes) (r : Subject) : Prop :=
  ∃ blanks u, Splits s blanks (u ++ r.rest) ∧ Expected base u r.negative r.magnitude ∧
    ∀ u' n m, u' <+: u ++ r.rest → Expected base u' n m → u'.length ≤ u.length

/-- The subject sequence of `s` is empty: nothing behind the blanks has the expected form. -/
def NoSubject (base : Nat) (s : Bytes) : Prop :=
  ∀ blanks text, Splits s blanks text → ∀ u n m, u <+: text → ¬ Expected base u n m

/-- The sign in front of a text, and the text behind it. -/
def takeSign : Bytes → Bool × Bytes
  | 45 :: text => (true, text)
  | 43 :: text => (false, text)
  | text => (false, text)

/-- Find the subject sequence. -/
def subject (base : Nat) (s : Bytes) : Option Subject :=
  let signed := takeSign (s.dropWhile isspace)
  (numeral base signed.2).map fun found => ⟨signed.1, found.1, found.2⟩

theorem splits_dropWhile (s : Bytes) : Splits s (s.takeWhile isspace) (s.dropWhile isspace) where
  eq := takeWhile_append_dropWhile.symm
  blank _ hc := mem_takeWhile_imp hc
  head c hc := by
    have := head?_dropWhile_not isspace s
    rw [hc] at this
    simpa using this

theorem Splits.dropWhile_eq {blanks : Bytes} (h : Splits s blanks text) :
    s.dropWhile isspace = text := by
  rw [h.eq, dropWhile_append_of_pos h.blank]
  match text, h.head with
  | [], _ => rfl
  | c :: text, hhead => rw [dropWhile_cons_of_neg (by simp [hhead c rfl])]

/-- The sign that is taken is a sign, and no numeral begins with one. -/
theorem takeSign_spec (text : Bytes) :
    ∃ sign, text = sign ++ (takeSign text).2 ∧ Sign sign (takeSign text).1 := by
  unfold takeSign
  split
  · exact ⟨[45], rfl, .minus⟩
  · exact ⟨[43], rfl, .plus⟩
  · exact ⟨[], rfl, .absent⟩

/-- A numeral begins with a digit or a letter. -/
theorem Numeral.head (hbase : base ≤ 36) (h : Numeral base u v) :
    ∃ c tail, u = c :: tail ∧ valueOf c < 36 := by
  cases h with
  | @digits _ ds _ hne hds =>
    obtain ⟨c, ds, rfl⟩ := exists_cons_of_ne_nil hne
    have hc : valueOf c < base := by simpa [isDigit] using hds c mem_cons_self
    exact ⟨c, ds, rfl, by omega⟩
  | hex => exact ⟨48, _, rfl, by decide⟩
  | @decimal c ds _ hds =>
    have hc : valueOf c < 10 := by simpa [isDigit] using hds c mem_cons_self
    exact ⟨c, ds, rfl, by omega⟩
  | octal => exact ⟨48, _, rfl, by decide⟩

/-- A sequence of the expected form is the sign that is taken and a numeral. -/
theorem Expected.split {m : Nat} (hbase : base ≤ 36) {n : Bool}
    (h : Expected base u n m) (hpre : u <+: text) :
    n = (takeSign text).1 ∧ ∃ sign body, text = sign ++ (takeSign text).2 ∧ u = sign ++ body ∧
      body <+: (takeSign text).2 ∧ Numeral base body m := by
  obtain ⟨sign, body, rfl, hsign, hnum⟩ := h
  obtain ⟨tail, rfl⟩ := hpre
  cases hsign with
  | absent =>
    -- the numeral's first character is no sign, so none is taken
    obtain ⟨c, ds, rfl, hc⟩ := hnum.head hbase
    have htake : takeSign ([] ++ c :: ds ++ tail) = (false, c :: ds ++ tail) := by
      show takeSign (c :: (ds ++ tail)) = _
      unfold takeSign
      split
      next h => rw [(cons.inj h).1] at hc; exact absurd hc (by decide)
      next h => rw [(cons.inj h).1] at hc; exact absurd hc (by decide)
      next => rfl
    rw [htake]
    exact ⟨rfl, [], c :: ds, rfl, rfl, prefix_append _ _, hnum⟩
  | plus => exact ⟨rfl, [43], body, rfl, rfl, prefix_append _ _, hnum⟩
  | minus => exact ⟨rfl, [45], body, rfl, rfl, prefix_append _ _, hnum⟩

/-- Where the function finds nothing, the subject sequence is empty. -/
theorem noSubject_of_eq_none (hbase : base ≤ 36)
    (h : subject base s = none) : NoSubject base s := by
  intro blanks text hs u n m hpre hu
  have hnone : numeral base (takeSign text).2 = none := by
    simpa [subject, hs.dropWhile_eq] using h
  obtain ⟨-, sign, body, -, -, hbody, hnum⟩ := hu.split hbase hpre
  exact numeral_eq_none hnone hbody hnum

/-- What the function finds is what the standard reads. -/
theorem isSubject_of_eq_some (hbase : base ≤ 36) {r : Subject}
    (h : subject base s = some r) : IsSubject base s r := by
  obtain ⟨⟨v, rest⟩, hfound, rfl⟩ := Option.map_eq_some_iff.mp h
  obtain ⟨sign, htext, hsign⟩ := takeSign_spec (s.dropWhile isspace)
  obtain ⟨body, hrest, hnum, hlong⟩ := numeral_eq_some hfound
  have heq : s.dropWhile isspace = sign ++ body ++ rest := by
    rw [append_assoc, ← hrest, ← htext]
  refine ⟨s.takeWhile isspace, sign ++ body, heq ▸ splits_dropWhile s,
    ⟨sign, body, rfl, hsign, hnum⟩, fun u' n m hpre hu' => ?_⟩
  dsimp only at hpre
  rw [← heq] at hpre
  obtain ⟨-, sign', body', htext', rfl, hbody', hnum'⟩ := hu'.split hbase hpre
  have hlen := hlong body' m hbody' hnum'
  obtain rfl : sign' = sign := append_cancel_right (htext'.symm.trans htext)
  simpa using hlen

/-- The standard reads one thing of a text. -/
theorem IsSubject.unique (hbase : base ≤ 36) {r r' : Subject}
    (h : IsSubject base s r) (h' : IsSubject base s r') : r = r' := by
  obtain ⟨blanks, u, hs, hu, hlong⟩ := h
  obtain ⟨blanks', u', hs', hu', hlong'⟩ := h'
  have htext : u ++ r.rest = u' ++ r'.rest := hs.dropWhile_eq.symm.trans hs'.dropWhile_eq
  have hle := hlong u' _ _ (htext ▸ prefix_append _ _) hu'
  have hle' := hlong' u _ _ (htext ▸ prefix_append _ _) hu
  obtain ⟨rfl, hrest⟩ := append_inj htext (Nat.le_antisymm hle' hle)
  obtain ⟨hn, sign, body, hsign, hbody, -, hnum⟩ := hu.split hbase (prefix_append u r.rest)
  obtain ⟨hn', sign', body', hsign', hbody', -, hnum'⟩ :=
    hu'.split hbase (prefix_append u r.rest)
  obtain rfl : sign' = sign := append_cancel_right (hsign'.symm.trans hsign)
  obtain rfl : body' = body := append_cancel_left (hbody'.symm.trans hbody)
  exact Subject.ext (hn.trans hn'.symm) (hnum.unique hnum') hrest

theorem IsSubject.not_noSubject {r : Subject} (h : IsSubject base s r) :
    ¬ NoSubject base s := by
  obtain ⟨blanks, u, hs, hu, -⟩ := h
  exact fun hno => hno blanks _ hs u _ _ (prefix_append _ _) hu

/-- **The function finds the subject sequence.** -/
theorem subject_eq_some_iff (hbase : base ≤ 36) {r : Subject} :
    subject base s = some r ↔ IsSubject base s r := by
  refine ⟨isSubject_of_eq_some hbase, fun h => ?_⟩
  cases hs : subject base s with
  | none => exact absurd (noSubject_of_eq_none hbase hs) h.not_noSubject
  | some r' => rw [(isSubject_of_eq_some hbase hs).unique hbase h]

theorem subject_eq_none_iff (hbase : base ≤ 36) :
    subject base s = none ↔ NoSubject base s := by
  refine ⟨noSubject_of_eq_none hbase, fun h => ?_⟩
  cases hs : subject base s with
  | none => rfl
  | some r => exact absurd h (isSubject_of_eq_some hbase hs).not_noSubject

end MeuOS.Libc
