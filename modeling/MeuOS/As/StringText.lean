import MeuOS.As.NumericReference

namespace MeuOS.As

open MeuOS.Lib List

/-!
# Strings in C's notation (`as_parse.c`)

* `Piece`, `CString` — what C writes between the quotes of a string, and the bytes it stands for;
* `stringLoop_text` — `parse_string_bytes` reads a string as C does but for hexadecimal escapes of
  more than two digits;
* `stringLoop_replace` — a reference replaced in a string makes it longer;
* `resolve_grows` — so a string keeps its length exactly when there is no match in it;
* `parseLine_ascii` — a line with `.ascii` comes to the string;
* `strings_and_references_iff` — the bytes of the string are appended exactly when the line fits, no
  match of the reference pattern stands in it, its hexadecimal escapes are short, and the section
  has room; and the operands of a line are replaced as they should be exactly when the line fits
  and each match is an operand.
-/

/-! ### Strings -/

/-- The simple escapes of C. -/
def cEscape (c : Char) : Option Nat :=
  match c with
  | '\'' => some 39
  | '"' => some 34
  | '?' => some 63
  | '\\' => some 92
  | 'a' => some 7
  | 'b' => some 8
  | 'f' => some 12
  | 'n' => some 10
  | 'r' => some 13
  | 't' => some 9
  | 'v' => some 11
  | _ => none

/-- What a string consists of. -/
inductive Piece where
  | plain (c : Char)
  | simple (c : Char)
  | octal (digits : List Char)
  | hex (digits : List Char)
  deriving DecidableEq, Repr

namespace Piece

def text : Piece → List Char
  | plain c => [c]
  | simple c => ['\\', c]
  | octal digits => '\\' :: digits
  | hex digits => '\\' :: 'x' :: digits

/-- The byte that C gives to it. -/
def byte : Piece → UInt8
  | plain c => UInt8.ofNat c.toNat
  | simple c => UInt8.ofNat ((cEscape c).getD 0)
  | octal digits => UInt8.ofNat (digitsFrom 8 0 digits)
  | hex digits => UInt8.ofNat (digitsFrom 16 0 digits)

/-- C's rules for a piece in front of a character: a number has all the digits that it can. -/
def Ok (next : Option Char) : Piece → Prop
  | plain c => c ≠ '"' ∧ c ≠ '\\' ∧ c ≠ '\n' ∧ c.toNat ≠ 0 ∧ c.toNat < 256
  | simple c => (cEscape c).isSome
  | octal digits =>
    digits ≠ [] ∧ digits.length ≤ 3 ∧ (∀ c ∈ digits, isDigitIn 8 c = true) ∧
      digitsFrom 8 0 digits < 256 ∧ (digits.length < 3 → next.any (isDigitIn 8) = false)
  | hex digits =>
    digits ≠ [] ∧ (∀ c ∈ digits, isDigitIn 16 c = true) ∧ digitsFrom 16 0 digits < 256 ∧
      next.any (isDigitIn 16) = false

/-- A hexadecimal escape has one or two digits. -/
def Short : Piece → Prop
  | hex digits => digits.length ≤ 2
  | _ => True

end Piece

/-- Pieces that C takes apart as they are, up to the closing quote. -/
def PiecesOk : List Piece → Prop
  | [] => True
  | p :: ps => p.Ok (ps.flatMap Piece.text ++ ['"']).head? ∧ PiecesOk ps

/-- A string, as C writes it. -/
structure CString where
  pieces : List Piece
  ok : PiecesOk pieces

namespace CString

/-- What stands between the quotes. -/
def text (s : CString) : List Char := s.pieces.flatMap Piece.text

/-- The bytes it stands for. -/
def bytes (s : CString) : Bytes := s.pieces.map Piece.byte

end CString

/-! ### `parse_string_bytes` reads strings -/

/-- The bytes that `parse_string_bytes` gives to a piece. -/
def Piece.readBytes : Piece → Bytes
  | hex digits =>
    UInt8.ofNat (digitsFrom 16 0 (digits.take 2)) ::
      (digits.drop 2).map fun c => UInt8.ofNat c.toNat
  | p => [p.byte]

/-- `bs` is read up to `tail`. -/
def Reads (text : List Char) (bs : Bytes) (tail : List Char) : Prop :=
  stringLoop text = .ok (bs, tail)

variable {bs : Bytes} {c : Char} {p cs digits t rest : List Char} {base : Nat} {ps : List Piece}
  {st : ParseState}

/-- A byte in front of what is read. -/
theorem map_cons_eq_ok {x : Except String (Bytes × List Char)} {b : UInt8} {tail : List Char} :
    (x.map fun r => (b :: r.1, r.2)) = .ok (bs, tail) ↔
      ∃ rest : Bytes, bs = b :: rest ∧ x = .ok (rest, tail) := by
  cases x with
  | error e => simp [Except.map]
  | ok r =>
    obtain ⟨rs, t⟩ := r
    simp only [Except.map, Except.ok.injEq, Prod.mk.injEq]
    constructor
    · rintro ⟨rfl, rfl⟩
      exact ⟨rs, rfl, rfl, rfl⟩
    · rintro ⟨rest, rfl, rfl, rfl⟩
      exact ⟨rfl, rfl⟩

theorem reads_plain (hc : c ≠ '"' ∧ c ≠ '\\') {tail : List Char} :
    Reads (c :: p) bs tail ↔
      ∃ rest : Bytes, bs = UInt8.ofNat c.toNat :: rest ∧ Reads p rest tail := by
  rw [Reads, stringLoop, if_neg hc.1, if_neg hc.2, map_cons_eq_ok]
  rfl

/-- So is an escape. -/
theorem reads_escape {q : List Char} {b : UInt8} (h : readEscape p = .ok (b, q))
    {tail : List Char} :
    Reads ('\\' :: p) bs tail ↔ ∃ rest : Bytes, bs = b :: rest ∧ Reads q rest tail := by
  have hloop : stringLoop ('\\' :: p) = (stringLoop q).map fun r => (b :: r.1, r.2) := by
    rw [stringLoop, if_neg (by decide), if_pos rfl]
    split
    case h_1 e he => cases h.symm.trans he
    case h_2 b' q' he =>
      cases h.symm.trans he
      rfl
  rw [Reads, hloop, map_cons_eq_ok]
  rfl

theorem not_reads_escape {err : String} (h : readEscape p = .error err) {tail : List Char} :
    ¬Reads ('\\' :: p) bs tail := by
  rw [Reads, stringLoop, if_neg (by decide), if_pos rfl]
  split
  case h_1 => rintro ⟨⟩
  case h_2 b q hok => cases h.symm.trans hok

theorem reads_end (tail : List Char) : Reads ('"' :: tail) [] ('"' :: tail) := by
  rw [Reads, stringLoop, if_pos rfl]

/-- Characters that are neither quotes nor backslashes. -/
theorem reads_plains (h : ∀ c ∈ cs, c ≠ '"' ∧ c ≠ '\\') {tail : List Char} :
    Reads (cs ++ p) bs tail ↔
      ∃ rest : Bytes, bs = cs.map (fun c => UInt8.ofNat c.toNat) ++ rest ∧ Reads p rest tail := by
  induction cs generalizing bs with
  | nil => simp
  | cons c cs ih =>
    obtain ⟨hc, hcs⟩ := forall_mem_cons.mp h
    rw [cons_append, reads_plain hc]
    constructor
    · rintro ⟨rest, rfl, hrest⟩
      obtain ⟨rest', rfl, hrest'⟩ := (ih hcs).mp hrest
      exact ⟨rest', rfl, hrest'⟩
    · rintro ⟨rest, rfl, hrest⟩
      exact ⟨_, rfl, (ih hcs).mpr ⟨rest, rfl, hrest⟩⟩

/-- The digits of a number in front of none. -/
theorem twoDigits_append (h : ∀ c ∈ digits, isDigitIn base c = true)
    (hnext : digits.length < 2 → p.head?.any (isDigitIn base) = false) :
    twoDigits base (digits ++ p) = digits.take 2 := by
  unfold twoDigits
  rw [takeWhile_append_of_pos h]
  by_cases hlen : digits.length < 2
  · have hp : p.takeWhile (isDigitIn base) = [] := by
      cases p with
      | nil => rfl
      | cons c p =>
        have hc : isDigitIn base c = false := hnext hlen
        rw [takeWhile_cons_of_neg (by simp [hc])]
    rw [hp, append_nil]
  · rw [take_append_of_le_length (by omega)]

theorem digit_inert (h : isDigitIn base c = true) :
    c ≠ '"' ∧ c ≠ '\\' := by
  constructor <;> rintro rfl <;> exact absurd h (by simp [isDigitIn, digitVal])

theorem readEscape_simple (h : (cEscape c).isSome) (p : List Char) :
    readEscape (c :: p) = .ok (UInt8.ofNat ((cEscape c).getD 0), p) := by
  unfold cEscape at h ⊢
  split at h
  case h_12 => exact nomatch h
  all_goals simp [readEscape, isDigitIn, digitVal, simpleEscape]

/-- An octal escape. -/
theorem readEscape_octal (h : ∀ d ∈ c :: digits, isDigitIn 8 d = true) (hlen : digits.length ≤ 2)
    (hnext : digits.length < 2 → p.head?.any (isDigitIn 8) = false) :
    readEscape (c :: (digits ++ p)) = .ok (UInt8.ofNat (digitsFrom 8 0 (c :: digits)), p) := by
  obtain ⟨hc, hdigits⟩ := forall_mem_cons.mp h
  have hx : c ≠ 'x' := by
    rintro rfl
    cases hc
  rw [readEscape, if_neg hx, if_pos hc, twoDigits_append hdigits hnext,
    take_of_length_le hlen, drop_left]

/-- A hexadecimal escape: two digits at most are read. -/
theorem readEscape_hex (hne : digits ≠ [])
    (h : ∀ d ∈ digits, isDigitIn 16 d = true) (hnext : p.head?.any (isDigitIn 16) = false) :
    readEscape ('x' :: (digits ++ p)) =
      .ok (UInt8.ofNat (digitsFrom 16 0 (digits.take 2)), digits.drop 2 ++ p) := by
  have htwo : digits.take 2 ≠ [] := by simpa using hne
  rw [readEscape, if_pos rfl, twoDigits_append h fun _ => hnext, if_neg htwo]
  congr 2
  rw [length_take]
  rcases Nat.le_total digits.length 2 with hle | hle
  · rw [Nat.min_eq_right hle, drop_left, drop_of_length_le hle, nil_append]
  · rw [Nat.min_eq_left hle, drop_append_of_le_length hle]

theorem head?_append_quote (t : List Char) (tail : List Char) :
    (t ++ '"' :: tail).head? = (t ++ ['"']).head? := by
  cases t <;> rfl

/-- The bytes that are read of a string. -/
theorem reads_pieces (h : PiecesOk ps) (tail : List Char) :
    Reads (ps.flatMap Piece.text ++ '"' :: tail) (ps.flatMap Piece.readBytes) ('"' :: tail) := by
  induction ps with
  | nil => exact reads_end tail
  | cons p ps ih =>
    obtain ⟨hp, hps⟩ := h
    rw [← head?_append_quote _ tail] at hp
    have hrest := ih hps
    rw [flatMap_cons, flatMap_cons, append_assoc]
    generalize ps.flatMap Piece.text ++ '"' :: tail = rest at hp hrest ⊢
    cases p with
    | plain c => exact (reads_plain ⟨hp.1, hp.2.1⟩).mpr ⟨_, rfl, hrest⟩
    | simple c => exact (reads_escape (readEscape_simple hp rest)).mpr ⟨_, rfl, hrest⟩
    | octal digits =>
      obtain ⟨hne, hlen, hdigits, -, hnext⟩ := hp
      obtain ⟨c, digits, rfl⟩ := exists_cons_of_ne_nil hne
      rw [length_cons] at hlen hnext
      exact (reads_escape (readEscape_octal hdigits (by omega) fun hlt => hnext (by omega))).mpr
        ⟨_, rfl, hrest⟩
    | hex digits =>
      obtain ⟨hne, hdigits, -, hnext⟩ := hp
      refine (reads_escape (readEscape_hex hne hdigits hnext)).mpr ⟨_, rfl, ?_⟩
      exact (reads_plains fun c hc => digit_inert (hdigits c (mem_of_mem_drop hc))).mpr
        ⟨_, rfl, hrest⟩

/-- No byte is lost, and none is added exactly when the hexadecimal escapes are short. -/
theorem readBytes_length (ps : List Piece) :
    ps.length ≤ (ps.flatMap Piece.readBytes).length ∧
      ((ps.flatMap Piece.readBytes).length = ps.length ↔ ∀ p ∈ ps, p.Short) := by
  have hpiece : ∀ p : Piece, 1 ≤ p.readBytes.length ∧ (p.readBytes.length = 1 ↔ p.Short) := by
    intro p
    cases p with
    | hex digits =>
      simp only [Piece.readBytes, length_cons, length_map, length_drop, Piece.Short]
      omega
    | plain c => exact ⟨le_rfl, iff_of_true rfl trivial⟩
    | simple c => exact ⟨le_rfl, iff_of_true rfl trivial⟩
    | octal digits => exact ⟨le_rfl, iff_of_true rfl trivial⟩
  induction ps with
  | nil => simp
  | cons p ps ih =>
    have := hpiece p
    rw [forall_mem_cons, ← this.2, ← ih.2, flatMap_cons, length_append,
      length_cons]
    omega

/-- Short escapes are read as C reads them. -/
theorem readBytes_short (h : ∀ p ∈ ps, p.Short) :
    ps.flatMap Piece.readBytes = ps.map Piece.byte := by
  induction ps with
  | nil => rfl
  | cons p ps ih =>
    obtain ⟨hp, hps⟩ := forall_mem_cons.mp h
    rw [flatMap_cons, map_cons, ih hps]
    cases p with
    | hex digits =>
      have hp : digits.length ≤ 2 := hp
      simp [Piece.readBytes, Piece.byte, take_of_length_le hp, drop_of_length_le hp]
    | plain c => rfl
    | simple c => rfl
    | octal digits => rfl

/-! ### References in strings -/

/-- What stands in front of a match does not end in a letter or digit. -/
def Closed (t : List Char) : Prop := ∀ c, t.getLast? = some c → isalnum c = false

theorem isalnum_of_digit (h : isDigitIn base c = true) :
    isalnum c = true := by
  unfold isDigitIn at h
  unfold isalnum
  cases hd : digitVal c with
  | none =>
    rw [hd] at h
    exact nomatch h
  | some n => rfl

theorem Closed.tail {c : Char} {t : List Char} (h : Closed (c :: t)) : Closed t := by
  cases t with
  | nil => exact nofun
  | cons d t => exact fun e he => h e (by rwa [getLast?_cons_cons])

theorem Closed.drop (h : Closed t) (n : Nat) : Closed (t.drop n) := by
  intro c hc
  rw [getLast?_drop] at hc
  split at hc
  · exact nomatch hc
  · exact h c hc

/-- No number goes on behind such a text. -/
theorem Closed.twoDigits (h : Closed t) (hne : t ≠ []) (base : Nat)
    (u : List Char) : twoDigits base (t ++ u) = twoDigits base t := by
  unfold MeuOS.As.twoDigits
  have hlast : isDigitIn base (t.getLast hne) = false := by
    refine Bool.eq_false_iff.mpr fun hdigit => ?_
    have := h _ (getLast?_eq_some_getLast hne)
    rw [isalnum_of_digit hdigit] at this
    exact nomatch this
  have hlen : (t.takeWhile (isDigitIn base)).length ≠ t.length := by
    intro heq
    have hall := takeWhile_eq_self_iff.mp
      ((List.takeWhile_prefix (isDigitIn base)).eq_of_length heq)
    rw [hall _ (getLast_mem hne)] at hlast
    exact nomatch hlast
  rw [takeWhile_append, if_neg hlen]

/-- An escape in such a text is the same whatever follows, or there is no end of it. -/
theorem Closed.readEscape {e : Char} (h : Closed (e :: t)) :
    (∃ (b : UInt8) (n : Nat), ∀ u : List Char,
      readEscape (e :: (t ++ u)) = .ok (b, t.drop n ++ u)) ∨
      ∀ u : List Char, ∃ err : String, readEscape (e :: (t ++ u)) = .error err := by
  have hnumber : isalnum e = true → t ≠ [] := by
    rintro he rfl
    rw [h e rfl] at he
    exact nomatch he
  have hdrop : ∀ (base : Nat) (u : List Char), t ≠ [] →
      (t ++ u).drop (MeuOS.As.twoDigits base t).length =
        t.drop (MeuOS.As.twoDigits base t).length ++ u := by
    intro base u hne
    refine drop_append_of_le_length ?_
    exact (length_take_le' _ _).trans (takeWhile_sublist _).length_le
  by_cases hx : e = 'x'
  · have hne := hnumber (by rw [hx]; decide)
    by_cases hdigits : MeuOS.As.twoDigits 16 t = []
    · refine Or.inr fun u => ⟨"\\x escape requires hexadecimal digits", ?_⟩
      rw [MeuOS.As.readEscape, if_pos hx, h.tail.twoDigits hne, if_pos hdigits]
    · refine Or.inl ⟨UInt8.ofNat (digitsFrom 16 0 (MeuOS.As.twoDigits 16 t)),
        (MeuOS.As.twoDigits 16 t).length, fun u => ?_⟩
      rw [MeuOS.As.readEscape, if_pos hx, h.tail.twoDigits hne, if_neg hdigits, hdrop 16 u hne]
  by_cases hoctal : isDigitIn 8 e = true
  · have hne := hnumber (isalnum_of_digit hoctal)
    refine Or.inl ⟨UInt8.ofNat (digitsFrom 8 0 (e :: MeuOS.As.twoDigits 8 t)),
      (MeuOS.As.twoDigits 8 t).length, fun u => ?_⟩
    rw [MeuOS.As.readEscape, if_neg hx, if_pos hoctal, h.tail.twoDigits hne, hdrop 8 u hne]
  · refine Or.inl ⟨UInt8.ofNat (simpleEscape e), 0, fun u => ?_⟩
    rw [MeuOS.As.readEscape, if_neg hx, if_neg hoctal, drop_zero]

/-- A digit behind a backslash, in front of a letter that is no octal digit. -/
theorem readEscape_digit {d x : Char} (hd : isdigit d = true) (hx : x = 'f' ∨ x = 'b')
    (rest : List Char) : ∃ b : UInt8, readEscape (d :: x :: rest) = .ok (b, x :: rest) := by
  have hne : d ≠ 'x' := by
    rintro rfl
    cases hd
  have htwo : twoDigits 8 (x :: rest) = [] := by
    unfold twoDigits
    rw [takeWhile_cons_of_neg]
    · rfl
    · rcases hx with rfl | rfl <;> decide
  rw [readEscape, if_neg hne, htwo]
  split
  · exact ⟨_, rfl⟩
  · exact ⟨_, rfl⟩

/-- A match replaced by a longer name makes the string longer. -/
theorem reads_replace {done name : List Char} {d x : Char} (hdone : Closed done)
    (hd : isdigit d = true) (hx : x = 'f' ∨ x = 'b') (hname : ∀ c ∈ name, c ≠ '"' ∧ c ≠ '\\')
    (hlen : 2 ≤ name.length) (h : Reads (done ++ d :: x :: rest) bs ['"']) :
    ∃ bs' : Bytes, Reads (done ++ '.' :: (name ++ rest)) bs' ['"'] ∧ bs.length < bs'.length := by
  have hxinert : x ≠ '"' ∧ x ≠ '\\' := by
    rcases hx with rfl | rfl <;> decide
  induction hn : done.length using Nat.strongRecOn generalizing done bs with
  | ind n ih =>
    cases done with
    | nil =>
      -- two characters of the string
      obtain ⟨bs₁, rfl, h₁⟩ := (reads_plain (digit_inert hd)).mp h
      obtain ⟨bs₂, rfl, h₂⟩ := (reads_plain hxinert).mp h₁
      refine ⟨_, (reads_plain (by decide)).mpr ⟨_, rfl, (reads_plains hname).mpr
        ⟨bs₂, rfl, h₂⟩⟩, ?_⟩
      simp only [length_cons, length_append, length_map]
      omega
    | cons c done =>
      by_cases hquote : c = '"'
      · subst hquote
        have htail := (Prod.mk.inj (Except.ok.inj (h.symm.trans (reads_end (done ++ d :: x :: rest))))).2
        have := congrArg length htail
        simp only [length_cons, length_append, length_nil] at this
        omega
      by_cases hback : c = '\\'
      · subst hback
        cases done with
        | nil =>
          -- the digit is that of an octal escape
          obtain ⟨b, hb⟩ := readEscape_digit hd hx rest
          obtain ⟨bs₁, rfl, h₁⟩ := (reads_escape hb).mp h
          obtain ⟨bs₂, rfl, h₂⟩ := (reads_plain hxinert).mp h₁
          have hdot : readEscape ('.' :: (name ++ rest)) = .ok (46, name ++ rest) := rfl
          refine ⟨_, (reads_escape hdot).mpr ⟨_, rfl, (reads_plains hname).mpr
            ⟨bs₂, rfl, h₂⟩⟩, ?_⟩
          simp only [length_cons, length_append, length_map]
          omega
        | cons e t =>
          rcases hdone.tail.readEscape with ⟨b, k, hesc⟩ | herr
          · obtain ⟨bs₁, rfl, h₁⟩ := (reads_escape (hesc _)).mp h
            obtain ⟨bs', hbs', hlt⟩ := ih (t.drop k).length
              (by
                rw [← hn, length_drop, length_cons, length_cons]
                omega)
              (hdone.tail.tail.drop k) h₁ rfl
            refine ⟨_, (reads_escape (hesc _)).mpr ⟨bs', rfl, hbs'⟩, ?_⟩
            exact Nat.succ_lt_succ hlt
          · obtain ⟨err, herr⟩ := herr (d :: x :: rest)
            exact absurd h (not_reads_escape herr)
      · obtain ⟨bs₁, rfl, h₁⟩ := (reads_plain ⟨hquote, hback⟩).mp h
        obtain ⟨bs', hbs', hlt⟩ := ih done.length (by rw [← hn]; exact Nat.lt_succ_self _)
          hdone.tail h₁ rfl
        exact ⟨_, (reads_plain ⟨hquote, hback⟩).mpr ⟨bs', rfl, hbs'⟩, Nat.succ_lt_succ hlt⟩

theorem toDigits_inert {n : Nat} (h : c ∈ Nat.toDigits 10 n) : c ≠ '"' ∧ c ≠ '\\' := by
  have hdigit := Nat.isDigit_of_mem_toDigits (by decide) (by decide) h
  constructor <;> rintro rfl <;> cases hdigit

/-- What a match is replaced by. -/
theorem numericTarget_inert (counts : Fin 10 → Nat) (number : Fin 10) (forward : Bool) :
    ∃ name : List Char, numericTarget counts number forward = '.' :: name ∧ 2 ≤ name.length ∧
      ∀ c ∈ name, c ≠ '"' ∧ c ≠ '\\' := by
  refine ⟨"Lmt_num_".toList ++ Nat.toDigits 10 number ++ '_' ::
    Nat.toDigits 10 (if forward then counts number + 1 else counts number), rfl, ?_, ?_⟩
  · have : "Lmt_num_".toList.length = 8 := rfl
    rw [append_assoc, length_append]
    omega
  · intro c hc
    rw [mem_append, mem_append, mem_cons] at hc
    rcases hc with (hc | hc) | rfl | hc
    · have hall : "Lmt_num_".toList.all (fun c => decide (c ≠ '"' ∧ c ≠ '\\')) = true := rfl
      exact of_decide_eq_true (all_eq_true.mp hall c hc)
    · exact toDigits_inert hc
    · decide
    · exact toDigits_inert hc

/-- With its matches replaced a string has more bytes, if there is a match. -/
theorem resolve_grows {counts : Fin 10 → Nat} {offset : Nat} {as : AsFile}
    {done text : List Char} {quote escape : Bool} {prev : Option Char} {bs : Bytes}
    {r : AsFile × List Char} (hread : Reads (done ++ text) bs ['"'])
    (hr : resolveFrom counts offset as ('"' :: done) text = .ok r)
    (hprev : prev = ('"' :: done).getLast? ∨ ∀ c, text.head? = some c → isdigit c = false) :
    ∃ (t : List Char) (bs' : Bytes), r.2 = '"' :: t ∧ Reads t bs' ['"'] ∧
      bs.length ≤ bs'.length ∧
      (bs.length = bs'.length → ∀ seg ∈ segments quote escape prev text, seg.Plain) := by
  induction text using twoStepInduction generalizing as done quote escape prev bs with
  | nil =>
    cases hr
    rw [append_nil] at hread
    exact ⟨done, bs, rfl, hread, le_rfl, fun _ _ hseg => absurd hseg List.not_mem_nil⟩
  | singleton c =>
    cases hr
    exact ⟨done ++ [c], bs, rfl, hread, le_rfl, fun _ => by simp [segments, Segment.Plain]⟩
  | cons_cons d x rest ih ih' =>
    have hsame : isReference ('"' :: done).getLast? d x rest.head? =
        isReference prev d x rest.head? := by
      rcases hprev with rfl | hdigit
      · rfl
      · rw [isReference_nondigit (hdigit d rfl), isReference_nondigit (hdigit d rfl)]
    rw [resolveFrom, hsame] at hr
    rw [segments]
    split at hr
    case isTrue hmatch =>
      obtain ⟨hd, hx, -, hlast⟩ := isReference_spec (hsame.trans hmatch)
      have hclosed : Closed done := by
        intro c hc
        cases done with
        | nil => cases hc
        | cons e t =>
          rw [getLast?_cons_cons, hc] at hlast
          exact hlast
      split at hr
      case isTrue => cases hr
      case isFalse =>
        dsimp only at hr
        split at hr
        case isFalse => cases hr
        case isTrue =>
          obtain ⟨name, hname, hlen, hinert⟩ :=
            numericTarget_inert counts (digitOf d) (x == 'f')
          obtain ⟨bs₁, hread₁, hlt⟩ := reads_replace hclosed hd hx hinert hlen hread
          rw [hname] at hr
          have hread₂ : Reads (done ++ '.' :: name ++ rest) bs₁ ['"'] := by
            rw [append_assoc]
            exact hread₁
          obtain ⟨t, bs', ht, hbs', hle, -⟩ := @ih _ _ quote false _ _ hread₂ hr (Or.inl rfl)
          exact ⟨t, bs', ht, hbs', by omega, fun heq => absurd heq (by omega)⟩
    case isFalse hmatch =>
      rw [if_neg hmatch]
      have hread' : Reads (done ++ [d] ++ x :: rest) bs ['"'] := by
        rw [append_assoc]
        exact hread
      have hlast : some d = ('"' :: (done ++ [d])).getLast? := by
        rw [← cons_append, getLast?_append]
        rfl
      obtain ⟨t, bs', ht, hbs', hle, hplain⟩ := @ih' x _ _ (lexQuote quote escape d).1
        (lexQuote quote escape d).2 _ _ hread' hr (Or.inl hlast)
      refine ⟨t, bs', ht, hbs', hle, fun heq => ?_⟩
      exact forall_mem_cons.mpr ⟨trivial, hplain heq⟩

/-- Without a match the text stays as it is. -/
theorem resolveSegments_plain (counts : Fin 10 → Nat) (offset : Nat) (as : AsFile)
    (done : List Char) {segs : List Segment} (h : ∀ seg ∈ segs, seg.Plain) :
    resolveSegments counts offset as done segs = .ok (as, done ++ segs.flatMap Segment.text) := by
  induction segs generalizing done with
  | nil => simp [resolveSegments]
  | cons seg segs ih =>
    obtain ⟨hseg, hsegs⟩ := forall_mem_cons.mp h
    cases seg with
    | char c => simp [resolveSegments, ih _ hsegs, Segment.text]
    | reference operand d forward => exact absurd hseg id

/-- The function leaves the sections alone. -/
theorem resolveSegments_cur {counts : Fin 10 → Nat} {offset : Nat} {as : AsFile}
    {done : List Char} {segs : List Segment} {r : AsFile × List Char}
    (h : resolveSegments counts offset as done segs = .ok r) : r.1.cur = as.cur := by
  induction segs generalizing as done with
  | nil =>
    cases h
    rfl
  | cons seg segs ih =>
    cases seg with
    | char c => exact ih h
    | reference operand d forward =>
      rw [resolveSegments] at h
      split at h
      · cases h
      · dsimp only at h
        split at h
        · rw [ih h]
          simp [AsFile.cur]
        · cases h

/-! ### A line with `.ascii` -/

/-- A line with `.ascii` and a string. -/
structure AsciiLine where
  indent : List Char
  gap : List Char
  string : CString
  trail : List Char
  indent_blank : ∀ c ∈ indent, isspace c = true
  gap_blank : ∀ c ∈ gap, isspace c = true
  gap_ne : gap ≠ []
  trail_blank : ∀ c ∈ trail, isspace c = true

namespace AsciiLine

/-- The operand of the directive. -/
def operand (l : AsciiLine) : List Char := '"' :: (l.string.text ++ ['"'])

/-- The line without the blanks around it. -/
def core (l : AsciiLine) : List Char := ".ascii".toList ++ (l.gap ++ l.operand)

def text (l : AsciiLine) : List Char := l.indent ++ l.core ++ l.trail

theorem core_eq (l : AsciiLine) : l.core = ".ascii".toList ++ (l.gap ++ l.operand) := rfl

theorem getLast?_operand (l : AsciiLine) : l.operand.getLast? = some '"' := by
  unfold operand
  rw [← cons_append, getLast?_append]
  rfl

theorem operand_trimmed (l : AsciiLine) : Trimmed l.operand where
  head := by
    rintro c ⟨⟩
    decide
  last := by
    intro c hc
    rw [l.getLast?_operand] at hc
    cases hc
    decide

theorem core_trimmed (l : AsciiLine) : Trimmed l.core where
  head := by
    rintro c ⟨⟩
    decide
  last := by
    intro c hc
    rw [core_eq, ← append_assoc, getLast?_append, l.getLast?_operand] at hc
    cases hc
    decide

theorem trim_text (l : AsciiLine) : trim l.text = l.core := by
  have hhead : ∀ c, (l.core ++ l.trail).head? = some c → isspace c = false := by
    rintro c ⟨⟩
    decide
  rw [text, append_assoc, trim, dropWhile_blanks l.indent_blank hhead]
  exact rdropWhile_blanks l.trail_blank l.core_trimmed.last

/-- The mnemonic is in front of the operand. -/
theorem splitMnemonic_core (l : AsciiLine) :
    splitMnemonic l.core = (".ascii".toList, l.operand, 7 + leading (l.gap.tail ++ l.operand)) := by
  obtain ⟨b, gap, hgap⟩ := exists_cons_of_ne_nil l.gap_ne
  have hb : isspace b = true := l.gap_blank b (by rw [hgap]; exact mem_cons_self)
  have hrest : ∀ c ∈ gap, isspace c = true :=
    fun c hc => l.gap_blank c (by rw [hgap]; exact mem_cons_of_mem _ hc)
  have htake : l.core.takeWhile (!isspace ·) = ".ascii".toList := by
    rw [core_eq, hgap, takeWhile_append_of_pos (all_eq_true.mp rfl), cons_append,
      takeWhile_cons_of_neg (by simp [hb]), append_nil]
  have hafter : (l.core.drop ".ascii".toList.length).tail = gap ++ l.operand := by
    rw [core_eq, drop_left, hgap]
    rfl
  have htrim : trim (gap ++ l.operand) = l.operand := by
    rw [trim, dropWhile_blanks hrest l.operand_trimmed.head]
    have := rdropWhile_blanks (b := []) (by simp) l.operand_trimmed.last
    rwa [append_nil] at this
  unfold splitMnemonic
  rw [htake]
  dsimp only
  rw [hafter, htrim, hgap]
  rfl

end AsciiLine

/-- Outside strings a character that opens nothing stays. -/
theorem stripComments_keep (hash : Bool) (hq : c ≠ '"') (hs : c ≠ '/') (hh : c ≠ '#')
    (cs : List Char) :
    stripComments hash false false false (c :: cs) =
      keepChar c (stripComments hash false false false cs) := by
  cases cs with
  | nil => simp [stripComments, keepChar, hh]
  | cons d cs => simp [stripComments, hq, hs, hh]

/-- So do several. -/
theorem stripComments_keeps (hash : Bool) (h : ∀ c ∈ cs, c ≠ '"' ∧ c ≠ '/' ∧ c ≠ '#')
    (hrest : stripComments hash false false false rest = (rest, false)) :
    stripComments hash false false false (cs ++ rest) = (cs ++ rest, false) := by
  induction cs with
  | nil => exact hrest
  | cons c cs ih =>
    obtain ⟨hc, hcs⟩ := forall_mem_cons.mp h
    rw [cons_append, stripComments_keep hash hc.1 hc.2.1 hc.2.2, ih hcs]
    rfl

theorem stripComments_inert (hash : Bool) (hc : c ≠ '"' ∧ c ≠ '\\')
    (h : stripComments hash false true false cs = (cs, false)) :
    stripComments hash false true false (c :: cs) = (c :: cs, false) := by
  cases cs with
  | nil => simp [stripComments]
  | cons d cs => simp [stripComments, hc.1, hc.2, h, keepChar]

theorem stripComments_inerts (hash : Bool) (hcs : ∀ c ∈ cs, c ≠ '"' ∧ c ≠ '\\')
    (h : stripComments hash false true false rest = (rest, false)) :
    stripComments hash false true false (cs ++ rest) = (cs ++ rest, false) := by
  induction cs with
  | nil => exact h
  | cons c cs ih =>
    obtain ⟨hc, hcs⟩ := forall_mem_cons.mp hcs
    exact stripComments_inert hash hc (ih hcs)

theorem stripComments_escape (hash : Bool) (c : Char)
    (h : stripComments hash false true false cs = (cs, false)) :
    stripComments hash false true false ('\\' :: c :: cs) = ('\\' :: c :: cs, false) := by
  cases cs with
  | nil => simp [stripComments, keepChar]
  | cons d cs => simp [stripComments, h, keepChar]

/-- A string has no comment in it. -/
theorem stripComments_pieces (hash : Bool) (h : PiecesOk ps) :
    stripComments hash false true false (ps.flatMap Piece.text ++ ['"']) =
      (ps.flatMap Piece.text ++ ['"'], false) := by
  induction ps with
  | nil => simp [stripComments]
  | cons p ps ih =>
    obtain ⟨hp, hps⟩ := h
    have hrest := ih hps
    rw [flatMap_cons, append_assoc]
    cases p with
    | plain c => exact stripComments_inert hash ⟨hp.1, hp.2.1⟩ hrest
    | simple c => exact stripComments_escape hash c hrest
    | octal digits =>
      obtain ⟨hne, -, hdigits, -⟩ := hp
      obtain ⟨c, digits, rfl⟩ := exists_cons_of_ne_nil hne
      have hinert := (forall_mem_cons.mp hdigits).2
      exact stripComments_escape hash c
        (stripComments_inerts hash (fun d hd => digit_inert (hinert d hd)) hrest)
    | hex digits =>
      exact stripComments_escape hash 'x'
        (stripComments_inerts hash (fun d hd => digit_inert (hp.2.1 d hd)) hrest)

/-- The line has no comment. -/
theorem stripComments_core (hash : Bool) (l : AsciiLine) :
    stripComments hash false false false l.core = (l.core, false) := by
  have hoperand : stripComments hash false false false l.operand = (l.operand, false) := by
    have hpieces := stripComments_pieces hash l.string.ok
    unfold AsciiLine.operand
    rw [CString.text]
    cases ht : l.string.pieces.flatMap Piece.text ++ ['"'] with
    | nil => simp at ht
    | cons d t =>
      rw [ht] at hpieces
      simp [stripComments, hpieces, keepChar]
  refine stripComments_keeps hash (by simp) (stripComments_keeps hash (fun c hc => ?_) hoperand)
  have hb := l.gap_blank c hc
  refine ⟨?_, ?_, ?_⟩ <;> rintro rfl <;> cases hb

/-- The line has no label. -/
theorem scanLine_ascii (hash : Bool) (l : AsciiLine) :
    ∃ offset : Nat, scanLine hash false l.text =
      ({ labels := [], body := l.core, offset }, false) := by
  have hsplit : splitLabel l.core = none := by
    unfold splitLabel
    split
    case h_2 => rfl
    case h_1 c after hdrop =>
      -- a colon can only stand behind the gap
      obtain ⟨b, gap, hgap⟩ := exists_cons_of_ne_nil l.gap_ne
      have hb : isspace b = true := l.gap_blank b (by rw [hgap]; exact mem_cons_self)
      have hcolon : b ≠ ':' := by
        rintro rfl
        cases hb
      have hmem : b ∈ l.core.takeWhile (· ≠ ':') := by
        rw [AsciiLine.core_eq, hgap, takeWhile_append_of_pos (all_eq_true.mp rfl), cons_append,
          takeWhile_cons_of_pos (by simpa using hcolon)]
        exact mem_append_right _ mem_cons_self
      rw [if_pos (any_eq_true.mpr ⟨b, hmem, hb⟩)]
  refine ⟨leading l.text + leading l.core, ?_⟩
  unfold scanLine
  rw [l.trim_text, stripComments_core]
  dsimp only
  rw [l.core_trimmed.trim, scanLabels]
  split
  case h_1 => rfl
  case h_2 label after h => cases hsplit.symm.trans h

/-- What a line with `.ascii` comes to. -/
theorem parseLine_ascii (hash : Bool)
    (other : AsFile → List Char → List Char → Except (Fault String) AsFile)
    (hst : st.block_comment = false) (l : AsciiLine) :
    ∃ offset : Nat, parseLine hash other st l.text =
      if LINE_SIZE < l.text.length + 1 then .error (.refused "source line is too long")
      else
        resolveNumericReferences st.run.numeric_counts offset st.run.file l.operand >>= fun r =>
          parseStatement other r.1 ".ascii".toList r.2 >>= fun file =>
            .ok { run := { file, numeric_counts := st.run.numeric_counts },
                  block_comment := false } := by
  obtain ⟨offset, hscan⟩ := scanLine_ascii hash l
  refine ⟨offset + (7 + leading (l.gap.tail ++ l.operand)), ?_⟩
  have hbody : l.core ≠ [] := by simp [AsciiLine.core_eq]
  have hnone : defineLabels st.run [] = .ok st.run := rfl
  unfold parseLine
  rw [hst, hscan]
  dsimp only
  rw [hnone, except_ok_bind, if_neg hbody, l.splitMnemonic_core]

/-- `.ascii` of a text whose string is read. -/
theorem parseStatement_ascii (other : AsFile → List Char → List Char → Except (Fault String) AsFile)
    (as : AsFile) (h : Reads t bs ['"']) :
    parseStatement other as ".ascii".toList ('"' :: t) = asAppendBytes as bs := by
  have hbytes : parseStringBytes ('"' :: t) (decide (".ascii".toList ≠ ".ascii".toList)) =
      .ok bs := by
    have htrim : trim [] = [] := rfl
    have hloop : stringLoop t = .ok (bs, ['"']) := h
    rw [parseStringBytes, hloop, except_ok_bind, if_pos ⟨rfl, htrim⟩]
    simp
  rw [parseStatement, if_pos (Or.inl rfl), hbytes]

/-- No match of the reference pattern stands in the operand. -/
def AsciiLine.NoReference (l : AsciiLine) : Prop :=
  ∀ seg ∈ segments false false none l.operand, seg.Plain

theorem resolveFrom_quote (counts : Fin 10 → Nat) (offset : Nat) (as : AsFile) (t : List Char) :
    resolveFrom counts offset as [] ('"' :: t) = resolveFrom counts offset as ['"'] t := by
  cases t with
  | nil => rfl
  | cons c t => rw [resolveFrom, if_neg (by simp [isReference, isdigit, isDigitIn, digitVal])]; rfl

/-- Behind it the text is in a string. -/
theorem segments_quote (h : t ≠ []) :
    segments false false none ('"' :: t) = .char '"' :: segments true false (some '"') t := by
  cases t with
  | nil => exact absurd rfl h
  | cons c t =>
    rw [segments, if_neg (by simp [isReference, isdigit, isDigitIn, digitVal])]
    rfl

/-- The line appends the bytes of its string to the current section, and nothing else. -/
def Appends (hash : Bool) (other : AsFile → List Char → List Char → Except (Fault String) AsFile)
    (st : ParseState) (l : AsciiLine) : Prop :=
  parseLine hash other st l.text =
    .ok { st with
      run := { st.run with
        file := st.run.file.setCur (st.run.file.cur.append l.string.bytes) } }

/-- The bytes of the string are appended exactly when the line fits, no match stands in the string,
    its hexadecimal escapes are short, and the section has room. -/
theorem appends_iff (hash : Bool)
    (other : AsFile → List Char → List Char → Except (Fault String) AsFile)
    (hst : st.block_comment = false) (l : AsciiLine) :
    Appends hash other st l ↔
      l.text.length + 1 ≤ LINE_SIZE ∧ l.NoReference ∧ (∀ p ∈ l.string.pieces, p.Short) ∧
        l.string.bytes.length ≤ SIZE_MAX - st.run.file.cur.size := by
  obtain ⟨offset, hline⟩ := parseLine_ascii hash other hst l
  have hread : Reads (l.string.text ++ ['"']) (l.string.pieces.flatMap Piece.readBytes) ['"'] :=
    reads_pieces l.string.ok []
  obtain ⟨hmore, hshort⟩ := readBytes_length l.string.pieces
  have hlen : l.string.bytes.length = l.string.pieces.length := length_map _
  rw [Appends, hline]
  by_cases hfits : l.text.length + 1 ≤ LINE_SIZE
  case neg =>
    rw [if_pos (by omega)]
    exact iff_of_false (by rintro ⟨⟩) fun h => hfits h.1
  rw [if_neg (by omega), resolveNumericReferences]
  constructor
  · intro h
    obtain ⟨r, hr, h⟩ := except_bind_eq_ok h
    obtain ⟨file, hfile, h⟩ := except_bind_eq_ok h
    have hr' := hr
    rw [AsciiLine.operand, resolveFrom_quote] at hr'
    obtain ⟨t, bs, ht, hbs, hle, hplain⟩ :=
      @resolve_grows _ _ _ [] _ true false (some '"') _ _ hread hr' (Or.inl rfl)
    rw [ht, parseStatement_ascii other _ hbs] at hfile
    unfold asAppendBytes at hfile
    split at hfile
    case isTrue => cases hfile
    case isFalse hroom =>
      rw [resolveFrom_eq _ _ _ _ false false none _ (Or.inl rfl)] at hr
      rw [resolveSegments_cur hr] at hfile hroom
      -- the section has grown by as many bytes as were read
      have hsame : bs.length = l.string.bytes.length := by
        cases hfile
        have hsize := congrArg (fun s => s.run.file.cur.size) (Except.ok.inj h)
        simp only [AsFile.setCur_cur, Section.append] at hsize
        omega
      have hequal : (l.string.pieces.flatMap Piece.readBytes).length = bs.length := by omega
      refine ⟨hfits, ?_, hshort.mp (by omega), by omega⟩
      unfold AsciiLine.NoReference AsciiLine.operand
      rw [segments_quote (by simp)]
      exact forall_mem_cons.mpr ⟨trivial, hplain hequal⟩
  · rintro ⟨-, hplain, hall, hroom⟩
    rw [readBytes_short hall] at hread
    rw [resolveFrom_eq _ _ _ _ false false none _ (Or.inl rfl), resolveSegments_plain _ _ _ _ hplain,
      except_ok_bind, segments_text]
    dsimp only
    rw [nil_append, AsciiLine.operand, parseStatement_ascii other _ hread, asAppendBytes,
      if_neg, except_ok_bind, hst]
    · rfl
    · show ¬l.string.bytes.length > _
      omega

/-! ### Strings and references of a source -/

/-- The state in front of the first line. -/
def startState (as : AsFile) : ParseState where
  run := { file := as, numeric_counts := fun _ => 0 }
  block_comment := false

/-- The run has come to a line and has taken its labels. -/
structure Reaches (hash : Bool)
    (other : AsFile → List Char → List Char → Except (Fault String) AsFile) (as : AsFile)
    (lines : List (List Char)) (line : List Char) (st : ParseState) (run : AsRun) : Prop where
  lines_ok : lines.foldlM (parseLine hash other) (startState as) = .ok st
  labels_ok : defineLabels st.run (scanLine hash st.block_comment line).1.labels = .ok run

/-- The counts at a line are those of the labels up to it. -/
theorem Reaches.counts {hash : Bool}
    {other : AsFile → List Char → List Char → Except (Fault String) AsFile} {as : AsFile}
    {lines : List (List Char)} {line : List Char} {run : AsRun}
    (h : Reaches hash other as lines line st run) :
    run.numeric_counts = ((numericLabels hash false (lines ++ [line])).1.count ·) := by
  have happend : ∀ (block : Bool) (lines : List (List Char)),
      (numericLabels hash block (lines ++ [line])).1 =
        (numericLabels hash block lines).1 ++
          (scanLine hash (numericLabels hash block lines).2 line).1.labels.filterMap
            labelNumber := by
    intro block lines
    induction lines generalizing block with
    | nil => simp [numericLabels]
    | cons l lines ih => simp [numericLabels, ih]
  funext number
  obtain ⟨hcounts, hblock⟩ := numeric_counts_run h.lines_ok number
  rw [defineLabels_counts h.labels_ok, hcounts, hblock, happend, count_append]
  exact congrArg (· + _) (Nat.zero_add _)

/-- The operands of a line, and where they begin in its buffer. -/
def lineOperands (hash block : Bool) (line : List Char) : List Char × Nat :=
  let scanned := (scanLine hash block line).1
  let operands := (splitMnemonic scanned.body).2
  (operands.1, scanned.offset + operands.2)

/-- What the operands of a line should become, with the numeric labels of the lines up to it and of
    those that follow. -/
def expectedOperands (hash block : Bool) (before : List (List Char)) (line : List Char)
    (after : List (List Char)) : Option (List Char) :=
  let labels := numericLabels hash false (before ++ [line])
  let later := (numericLabels hash labels.2 after).1
  expand (nearest labels.1 later) (segments false false none (lineOperands hash block line).1)

/-- The references in the operands are replaced as they should. -/
def ReplacesOperands (hash block : Bool) (before : List (List Char)) (line : List Char)
    (after : List (List Char)) (run : AsRun) : Prop :=
  Replaces
    (resolveNumericReferences run.numeric_counts (lineOperands hash block line).2 run.file
      (lineOperands hash block line).1)
    (expectedOperands hash block before line after)

/-- The line stays inside its buffer, and each match in its operands is an operand, or one of them
    has no label before it. -/
def SafeOperands (hash block : Bool) (before : List (List Char)) (line : List Char)
    (after : List (List Char)) (run : AsRun) : Prop :=
  let segs := segments false false none (lineOperands hash block line).1
  SegmentsFit run.numeric_counts (lineOperands hash block line).2 0 segs ∧
    ((∀ seg ∈ segs, seg.Proper) ∨ expectedOperands hash block before line after = none)

/-- Strings: the bytes are appended exactly when the line fits, no match of the reference pattern
    stands in the string, its hexadecimal escapes are short, and the section has room.

    References: at any line of any source, what the replacement gives is what the nearest labels
    say exactly when the operands are safe. -/
theorem strings_and_references_iff (hash : Bool)
    (other : AsFile → List Char → List Char → Except (Fault String) AsFile) :
    (∀ (st : ParseState) (l : AsciiLine), st.block_comment = false →
      (Appends hash other st l ↔
        l.text.length + 1 ≤ LINE_SIZE ∧ l.NoReference ∧ (∀ p ∈ l.string.pieces, p.Short) ∧
          l.string.bytes.length ≤ SIZE_MAX - st.run.file.cur.size)) ∧
    ∀ (as : AsFile) (before : List (List Char)) (line : List Char) (after : List (List Char))
      (st : ParseState) (run : AsRun), Reaches hash other as before line st run →
      (ReplacesOperands hash st.block_comment before line after run ↔
        SafeOperands hash st.block_comment before line after run) := by
  refine ⟨fun st l hst => appends_iff hash other hst l, ?_⟩
  intro as before line after st run h
  unfold ReplacesOperands SafeOperands expectedOperands
  dsimp only
  rw [h.counts, ← countedTarget_eq_nearest]
  exact resolve_iff _ _ _ _

/-- `.ascii "1f"`. -/
def asciiReference : AsciiLine where
  indent := []
  gap := [' ']
  string := { pieces := [.plain '1', .plain 'f'], ok := by simp [PiecesOk, Piece.Ok] }
  trail := ['\n']
  indent_blank := nofun
  gap_blank := all_eq_true.mp rfl
  gap_ne := by decide
  trail_blank := all_eq_true.mp rfl

theorem strings_and_references_line :
    (Appends true (fun _ _ _ => .error .undefined) (startState emptyData) asciiReference ↔
      asciiReference.text.length + 1 ≤ LINE_SIZE ∧ asciiReference.NoReference ∧
        (∀ p ∈ asciiReference.string.pieces, p.Short) ∧
        asciiReference.string.bytes.length ≤ SIZE_MAX - emptyData.cur.size) ∧
    (ReplacesOperands true false [] asciiReference.text [] (startState emptyData).run ↔
      SafeOperands true false [] asciiReference.text [] (startState emptyData).run) := by
  have hreach : Reaches true (fun _ _ _ => .error .undefined) emptyData [] asciiReference.text
      (startState emptyData) (startState emptyData).run := by
    obtain ⟨offset, hscan⟩ := scanLine_ascii true asciiReference
    refine ⟨rfl, ?_⟩
    show defineLabels _ (scanLine true false asciiReference.text).1.labels = _
    rw [hscan]
    rfl
  have hline := strings_and_references_iff true fun _ _ _ => .error .undefined
  exact ⟨hline.1 (startState emptyData) asciiReference rfl,
    hline.2 emptyData [] asciiReference.text [] (startState emptyData) _ hreach⟩

/-- The string `1f` is not appended: it is taken for a reference. -/
theorem ascii_reference_replaced :
    ¬Appends true (fun _ _ _ => .error .undefined) (startState emptyData) asciiReference := by
  have hst : (startState emptyData).block_comment = false := rfl
  intro h
  have hmem : Segment.reference false '1' true ∈
      segments false false none asciiReference.operand := by decide
  have hplain : asciiReference.NoReference := ((appends_iff true _ hst asciiReference).mp h).2.1
  exact hplain _ hmem

end MeuOS.As
