import MeuOS.As.Text
import Mathlib.Tactic.Common

namespace MeuOS.As

open List

/-!
# The operands of a data directive

An operand is a literal or a symbol, possibly followed by a sign and a literal, with blanks
around the sign.

* `Literal`, `SymName`, `Blanks` — the parts, each with its well-formedness;
* `Operand`, `Operand.text` — operands, and how they are written;
* `strtoll_literal` — `strtoll` reads a literal up to its end.
-/

/-! ### Terms -/

/-- A character of names and numbers. -/
def wordChar (c : Char) : Bool := (digitVal c).isSome || c == '_' || c == '.' || c == '$'

/-- The three ways to write a number. -/
inductive Radix where
  | dec
  | oct
  | hex (upper : Bool)
  deriving Repr, DecidableEq

namespace Radix

def base : Radix → Nat
  | dec => 10
  | oct => 8
  | hex _ => 16

/-- What stands before the digits. -/
def lead : Radix → List Char
  | dec => []
  | oct => ['0']
  | hex upper => ['0', if upper then 'X' else 'x']

/-- Digits that may follow the lead: a decimal number does not begin with `0`. -/
def Starts : Radix → List Char → Prop
  | dec, ds => ∃ d rest, ds = d :: rest ∧ d ≠ '0'
  | oct, _ => True
  | hex _, ds => ds ≠ []

end Radix

/-- The number that digits stand for, after `acc`. -/
def digitsFrom (base acc : Nat) (ds : List Char) : Nat :=
  ds.foldl (fun m c => m * base + (digitVal c).getD 0) acc

/-- A literal's value. -/
def signedValue (neg : Bool) (m : Nat) : Int := if neg then -m else m

/-- An integer literal whose value 64 bits can represent, signed or unsigned. -/
structure Literal where
  neg : Bool
  radix : Radix
  digits : List Char
  digits_ok : ∀ c ∈ digits, isDigitIn radix.base c = true
  starts : radix.Starts digits
  lo : -2 ^ 63 ≤ signedValue neg (digitsFrom radix.base 0 digits)
  hi : signedValue neg (digitsFrom radix.base 0 digits) < 2 ^ 64

namespace Literal

def value (l : Literal) : Int := signedValue l.neg (digitsFrom l.radix.base 0 l.digits)

def text (l : Literal) : List Char :=
  (if l.neg then ['-'] else []) ++ (l.radix.lead ++ l.digits)

end Literal

/-- The name of a symbol: word characters, the first of them no digit. -/
structure SymName where
  name : List Char
  word : ∀ c ∈ name, wordChar c = true
  first : ∃ c rest, name = c :: rest ∧ isdigit c = false

/-- Blanks: spaces and tabs. -/
abbrev Blanks := { b : List Char // ∀ c ∈ b, c = ' ' ∨ c = '\t' }

/-- The first term of an operand. -/
inductive Head where
  | lit (c : Literal)
  | sym (s : SymName)

def Head.text : Head → List Char
  | .lit c => c.text
  | .sym s => s.name

/-- A sign and the literal behind it. -/
structure Tail where
  minus : Bool
  before : Blanks
  after : Blanks
  lit : Literal

namespace Tail

def sign (t : Tail) : Char := if t.minus then '-' else '+'

def text (t : Tail) : List Char := t.before.1 ++ t.sign :: (t.after.1 ++ t.lit.text)

/-- What the tail adds. -/
def offset (t : Tail) : Int := if t.minus then -t.lit.value else t.lit.value

end Tail

/-- An operand: `c`, `c1+c2`, `c1-c2`, `sym`, `sym+c` or `sym-c`. -/
structure Operand where
  head : Head
  tail : Option Tail

namespace Operand

def text (o : Operand) : List Char := o.head.text ++ (o.tail.map Tail.text).getD []

/-- What the tail adds to the first term. -/
def offset (o : Operand) : Int := (o.tail.map Tail.offset).getD 0

end Operand

/-! ### Characters -/

theorem digitVal_none_of_isspace {c : Char} (h : isspace c = true) : digitVal c = none := by
  simp only [isspace, Bool.or_eq_true, beq_iff_eq, Bool.and_eq_true, decide_eq_true_eq] at h
  unfold digitVal
  rw [if_neg (by omega), if_neg (by omega), if_neg (by omega)]

theorem isspace_of_blank {c : Char} (h : c = ' ' ∨ c = '\t') : isspace c = true := by
  rcases h with rfl | rfl <;> rfl

theorem not_blank_of_word {c : Char} (h : wordChar c = true) : isspace c = false := by
  rw [Bool.eq_false_iff]
  intro hs
  simp only [wordChar, digitVal_none_of_isspace hs, Option.isSome_none, Bool.false_or,
    Bool.or_eq_true, beq_iff_eq] at h
  rcases h with (rfl | rfl) | rfl <;> simp [isspace] at hs

theorem ne_of_word {c d : Char} (h : wordChar c = true) (hd : wordChar d = false) : c ≠ d := by
  rintro rfl
  rw [h] at hd
  cases hd

theorem wordChar_of_digit {b : Nat} {c : Char} (h : isDigitIn b c = true) : wordChar c = true := by
  unfold isDigitIn at h
  rcases hd : digitVal c with _ | d
  · rw [hd] at h; simp at h
  · simp [wordChar, hd]

/-- The characters of a literal behind its sign. -/
theorem Literal.word_of_mem (l : Literal) {c : Char} (h : c ∈ l.radix.lead ++ l.digits) :
    wordChar c = true := by
  rcases mem_append.mp h with h | h
  · rcases hr : l.radix with _ | _ | u <;> rw [hr] at h
    · simp [Radix.lead] at h
    · simp only [Radix.lead, mem_singleton] at h; subst h; rfl
    · simp only [Radix.lead, mem_cons, not_mem_nil, or_false] at h
      rcases h with rfl | rfl
      · rfl
      · rcases u <;> rfl
  · exact wordChar_of_digit (l.digits_ok c h)

/-- Behind its sign a literal is not empty. -/
theorem Literal.body_ne_nil (l : Literal) : l.radix.lead ++ l.digits ≠ [] := by
  have hs := l.starts
  rcases hr : l.radix with _ | _ | u <;> rw [hr] at hs
  · obtain ⟨d, rest, hd, -⟩ := hs
    simp [hd]
  · simp [Radix.lead]
  · simp [Radix.lead]

/-! ### `strtoll` on a literal -/

theorem scanDigits_append {base : Nat} (ds : List Char) (hds : ∀ c ∈ ds, isDigitIn base c = true)
    (post : List Char) (hpost : (post.head?).any (isDigitIn base) = false) (acc : Nat) :
    scanDigits base acc (ds ++ post) = (digitsFrom base acc ds, post) := by
  induction ds generalizing acc with
  | nil =>
    rcases post with _ | ⟨c, cs⟩
    · rfl
    · simp only [head?_cons, Option.any_some] at hpost
      simp [scanDigits, hpost, digitsFrom]
  | cons c cs ih =>
    have hc : isDigitIn base c = true := hds c mem_cons_self
    simp only [cons_append, scanDigits, hc, if_true]
    exact ih (fun x hx => hds x (mem_cons_of_mem _ hx)) _

/-- `post` begins with no digit of any base. -/
def NoDigit (post : List Char) : Prop := ∀ c, post.head? = some c → digitVal c = none

theorem NoDigit.any {post : List Char} (h : NoDigit post) (base : Nat) :
    (post.head?).any (isDigitIn base) = false := by
  rcases hp : post.head? with _ | c
  · rfl
  · simp [isDigitIn, h c hp]

/-- The base that `strtoll` reads off a literal, and the digits that it scans. -/
theorem strtollBase_literal (l : Literal) {post : List Char} (hpost : NoDigit post) :
    ∃ zero : List Char, (zero = [] ∨ zero = ['0']) ∧
      strtollBase (l.radix.lead ++ l.digits ++ post) =
        (l.radix.base, zero ++ l.digits ++ post) ∧ zero ++ l.digits ≠ [] ∧
      ∀ c ∈ zero ++ l.digits, isDigitIn l.radix.base c = true := by
  have hs := l.starts
  have hd := l.digits_ok
  rcases hr : l.radix with _ | _ | u <;> rw [hr] at hs hd
  · obtain ⟨d, rest, he, hne⟩ := hs
    refine ⟨[], Or.inl rfl, ?_, by simp [he], by simpa using hd⟩
    simp [Radix.lead, strtollBase, he, hne, Radix.base]
  · refine ⟨['0'], Or.inr rfl, ?_, by simp, ?_⟩
    · -- the character behind the zero is an octal digit or what follows the literal: no `x`
      have hx : ∀ c, (l.digits ++ post).head? = some c → c ≠ 'x' ∧ c ≠ 'X' := by
        intro c hc
        rcases hds : l.digits with _ | ⟨d, ds⟩
        · rw [hds] at hc
          have := hpost c hc
          constructor <;> (rintro rfl; simp [digitVal] at this)
        · rw [hds] at hc
          have hoct : isDigitIn 8 d = true := hd d (by simp [hds])
          have hdc : d = c := by simpa using hc
          subst hdc
          constructor <;> (rintro rfl; simp [isDigitIn, digitVal] at hoct)
      show strtollBase ('0' :: (l.digits ++ post)) = (8, '0' :: (l.digits ++ post))
      have h1 : ¬ (('0' :: (l.digits ++ post))[1]? = some 'x' ∨
          ('0' :: (l.digits ++ post))[1]? = some 'X') := by
        rw [getElem?_cons_succ, ← head?_eq_getElem?]
        rintro (h | h)
        · exact (hx _ h).1 rfl
        · exact (hx _ h).2 rfl
      unfold strtollBase
      rw [if_pos head?_cons, if_neg (fun h => h1 h.1)]
    · intro c hc
      rcases mem_cons.mp hc with rfl | hc
      · rfl
      · exact hd c hc
  · refine ⟨[], Or.inl rfl, ?_, by simpa [Radix.Starts] using hs, by simpa using hd⟩
    rcases hds : l.digits with _ | ⟨d, ds⟩
    · exact absurd hds hs
    · have hhex : isDigitIn 16 d = true := hd d (by simp [hds])
      simp [Radix.lead, strtollBase, Radix.base, hhex]

theorem digitsFrom_zero_append {base : Nat} {zero ds : List Char} (hz : zero = [] ∨ zero = ['0']) :
    digitsFrom base 0 (zero ++ ds) = digitsFrom base 0 ds := by
  rcases hz with rfl | rfl
  · rfl
  · have : (digitVal '0').getD 0 = 0 := rfl
    simp [digitsFrom, this]

/-- Blanks in front of a text that begins with none are dropped. -/
theorem dropWhile_blanks {pre t : List Char} (hpre : ∀ c ∈ pre, isspace c = true)
    (ht : ∀ c, t.head? = some c → isspace c = false) : (pre ++ t).dropWhile isspace = t := by
  rw [dropWhile_append_of_pos hpre]
  rcases t with _ | ⟨c, cs⟩
  · rfl
  · rw [dropWhile_cons_of_neg]
    simp [ht c rfl]

/-- A literal begins with a sign or a word character. -/
theorem Literal.head_text (l : Literal) :
    ∃ c rest, l.text = c :: rest ∧ (c = '-' ∨ wordChar c = true) ∧ ∀ x ∈ rest, wordChar x = true := by
  unfold Literal.text
  rcases hn : l.neg with _ | _
  · rcases hb : l.radix.lead ++ l.digits with _ | ⟨c, rest⟩
    · exact absurd hb l.body_ne_nil
    · have hw : ∀ x ∈ c :: rest, wordChar x = true := fun x hx => l.word_of_mem (hb ▸ hx)
      exact ⟨c, rest, rfl, Or.inr (hw c mem_cons_self),
        fun x hx => hw x (mem_cons_of_mem _ hx)⟩
  · exact ⟨'-', l.radix.lead ++ l.digits, rfl, Or.inl rfl, fun x hx => l.word_of_mem hx⟩

theorem isspace_head_term {c : Char} (h : c = '-' ∨ wordChar c = true) : isspace c = false := by
  rcases h with rfl | h
  · rfl
  · exact not_blank_of_word h

/-- Behind the sign, `strtoll` reads the digits of a literal and stops. -/
theorem strtollDigits_literal (l : Literal) (text : List Char) {post : List Char}
    (hpost : NoDigit post) :
    strtollDigits text l.neg (l.radix.lead ++ l.digits ++ post) =
      { value := max (-2 ^ 63) (min l.value (2 ^ 63 - 1)), erange := decide ¬ FitsI64 l.value,
        rest := post } := by
  obtain ⟨zero, hz, hbase, hne, hdig⟩ := strtollBase_literal l hpost
  have hdigits : (((zero ++ l.digits) ++ post).head?).any (isDigitIn l.radix.base) = true := by
    rcases hzd : zero ++ l.digits with _ | ⟨d, ds⟩
    · exact absurd hzd hne
    · simpa using hdig d (by simp [hzd])
  have hscan : scanDigits l.radix.base 0 ((zero ++ l.digits) ++ post) =
      (digitsFrom l.radix.base 0 l.digits, post) := by
    rw [scanDigits_append _ hdig _ (hpost.any _), digitsFrom_zero_append hz]
  unfold strtollDigits
  simp only [hbase, hdigits, if_true, hscan]
  rfl

/-- `strtoll` reads a literal up to its end, past blanks in front of it. -/
theorem strtoll_literal (l : Literal) {pre post : List Char} (hpre : ∀ c ∈ pre, isspace c = true)
    (hpost : NoDigit post) :
    strtoll (pre ++ (l.text ++ post)) =
      { value := max (-2 ^ 63) (min l.value (2 ^ 63 - 1)), erange := decide ¬ FitsI64 l.value,
        rest := post } := by
  have hdrop : (pre ++ (l.text ++ post)).dropWhile isspace = l.text ++ post := by
    apply dropWhile_blanks hpre
    obtain ⟨c, rest, ht, hc, -⟩ := l.head_text
    intro x hx
    rw [ht] at hx
    have : c = x := by simpa using hx
    exact this ▸ isspace_head_term hc
  have hdigits := strtollDigits_literal l (pre ++ (l.text ++ post)) hpost
  unfold strtoll
  simp only [hdrop]
  rcases hn : l.neg with _ | _ <;> rw [hn] at hdigits
  · -- without a sign the text begins with a word character
    have ht : l.text ++ post = l.radix.lead ++ l.digits ++ post := by simp [Literal.text, hn]
    have hsign : ∀ s, wordChar s = false → (l.text ++ post).head? ≠ some s := by
      intro s hs
      rw [ht]
      rcases hb : l.radix.lead ++ l.digits with _ | ⟨c, rest⟩
      · exact absurd hb l.body_ne_nil
      · have hw : wordChar c = true := l.word_of_mem (hb ▸ mem_cons_self)
        simpa using ne_of_word hw hs
    rw [if_neg (hsign '-' (by decide)), if_neg (hsign '+' (by decide))]
    rw [← hdigits, ht]
  · have ht : l.text ++ post = '-' :: (l.radix.lead ++ l.digits ++ post) := by
      simp [Literal.text, hn]
    rw [← hdigits, ht]
    rw [if_pos head?_cons, tail_cons]

end MeuOS.As
