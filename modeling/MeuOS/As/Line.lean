import MeuOS.As.Statement

namespace MeuOS.As

open MeuOS.Lib

/-!
# Source lines (`assemble.c`, `as_parse.c`)

`parse_line` takes comments and labels off a line, replaces the numeric references in the text of
the operands, in place, and hands that text to the directive or the instruction.

* `stripComments`, `scanLine` — a line without its comments, its labels, and the rest of it;
* `isReference`, `resolveFrom` — `resolve_numeric_references` in the buffer of the line;
* `stringLoop`, `parseStringBytes` — the string of `.ascii`, `.asciz` and `.string`;
* `parseLine` — a line; directives and instructions other than the strings are a parameter.
-/

/-! ### Comments -/

/-- A character that stays in front of the text behind it. -/
def keepChar (c : Char) (rest : List Char × Bool) : List Char × Bool := (c :: rest.1, rest.2)

/-- `strip_comments`: the text that stays, and whether a block comment is left open.  `hash` is set
    for the target whose comments begin with `#`. -/
def stripComments (hash : Bool) (block quote escape : Bool) : List Char → List Char × Bool
  | [] => ([], block)
  | [c] =>
    if block then ([], true)
    else if !escape && !quote && hash && c == '#' then ([], false)
    else ([c], false)
  | c :: d :: rest =>
    if block then
      if c = '*' ∧ d = '/' then stripComments hash false quote escape rest
      else stripComments hash true quote escape (d :: rest)
    else if escape then keepChar c (stripComments hash false quote false (d :: rest))
    else if c = '\\' ∧ quote then keepChar c (stripComments hash false quote true (d :: rest))
    else if c = '"' then keepChar c (stripComments hash false (!quote) false (d :: rest))
    else if !quote ∧ c = '/' ∧ d = '*' then stripComments hash true quote false rest
    else if !quote ∧ c = '/' ∧ d = '/' then ([], false)
    else if !quote ∧ c = '#' ∧ hash then ([], false)
    else keepChar c (stripComments hash false quote false (d :: rest))

/-! ### Labels -/

/-- How many blanks a text begins with. -/
def leading (text : List Char) : Nat := (text.takeWhile isspace).length

/-- A label in front of the text, and what follows its colon: there is no blank in it. -/
def splitLabel (text : List Char) : Option (List Char × List Char) :=
  match text.dropWhile (· ≠ ':') with
  | _ :: after =>
    if (text.takeWhile (· ≠ ':')).any isspace then none
    else some (text.takeWhile (· ≠ ':'), after)
  | [] => none

/-- A line come apart: its labels, the text behind them, and where that begins in the buffer. -/
structure Scanned where
  labels : List (List Char)
  body : List Char
  offset : Nat
  deriving DecidableEq

theorem splitLabel_length {text label after : List Char}
    (h : splitLabel text = some (label, after)) : (trim after).length < text.length := by
  unfold splitLabel at h
  split at h
  case h_1 c rest hdrop =>
    split at h
    case isTrue => exact nomatch h
    case isFalse =>
      obtain ⟨-, rfl⟩ := Prod.mk.inj (Option.some.inj h)
      have hlen := (List.dropWhile_sublist (fun c => decide (c ≠ ':')) (l := text)).length_le
      rw [hdrop, List.length_cons] at hlen
      exact (length_trim_le rest).trans_lt hlen
  case h_2 => exact nomatch h

/-- The labels at the front of a text that begins at `offset`. -/
def scanLabels (offset : Nat) (text : List Char) : Scanned :=
  match h : splitLabel text with
  | none => { labels := [], body := text, offset }
  | some (label, after) =>
    let rest := scanLabels (offset + label.length + 1 + leading after) (trim after)
    { rest with labels := label :: rest.labels }
termination_by text.length
decreasing_by exact splitLabel_length h

/-- A line without its comments, its labels taken off. -/
def scanLine (hash block : Bool) (line : List Char) : Scanned × Bool :=
  let stripped := stripComments hash block false false (trim line)
  (scanLabels (leading line + leading stripped.1) (trim stripped.1), stripped.2)

local instance ten_ne_zero : NeZero 10 := ⟨by decide⟩

/-- The number of a digit. -/
def digitOf (d : Char) : Fin 10 := Fin.ofNat 10 (d.toNat - 48)

/-- A label that is a digit is a numeric one. -/
def labelStatement (label : List Char) : Statement :=
  match label with
  | [d] => if isdigit d then .numericLabel (digitOf d) else .label label
  | _ => .label label

/-- The labels of a line. -/
def defineLabels (r : AsRun) (labels : List (List Char)) : Except (Fault String) AsRun :=
  labels.foldlM
    (fun r label =>
      if label = [] then .error (.refused "empty label") else (labelStatement label).run r) r

/-! ### Numeric references -/

/-- `char line[4096]`. -/
def LINE_SIZE : Nat := 4096

/-- `isalnum`. -/
def isalnum (c : Char) : Bool := (digitVal c).isSome

/-- A digit and `f` or `b`, with no letter or digit on either side. -/
def isReference (prev : Option Char) (d x : Char) (next : Option Char) : Bool :=
  isdigit d && (x == 'f' || x == 'b') && !next.any isalnum && !prev.any isalnum

/-- `resolve_numeric_references` from a point on: `done` is the text in front of it, in a buffer
    where the text begins at `offset`.  A replacement moves the rest of the line, with its end. -/
def resolveFrom (counts : Fin 10 → Nat) (offset : Nat) :
    AsFile → List Char → List Char → Except (Fault String) (AsFile × List Char)
  | as, done, [] => .ok (as, done)
  | as, done, [c] => .ok (as, done ++ [c])
  | as, done, d :: x :: rest =>
    if isReference done.getLast? d x rest.head? then
      if x = 'b' ∧ counts (digitOf d) = 0 then
        .error (.refused ("no previous label " ++ toString (digitOf d) ++ ":"))
      else
        let replacement := numericTarget counts (digitOf d) (x == 'f')
        if offset + done.length + replacement.length + rest.length + 1 ≤ LINE_SIZE then
          resolveFrom counts offset (getSymbol as replacement).1 (done ++ replacement) rest
        else .error .undefined
    else resolveFrom counts offset as (done ++ [d]) (x :: rest)

/-- `resolve_numeric_references`. -/
def resolveNumericReferences (counts : Fin 10 → Nat) (offset : Nat) (as : AsFile)
    (text : List Char) : Except (Fault String) (AsFile × List Char) :=
  resolveFrom counts offset as [] text

/-! ### Strings -/

/-- The byte of an escape that is no number. -/
def simpleEscape (c : Char) : Nat :=
  match c with
  | 'a' => 7
  | 'b' => 8
  | 'f' => 12
  | 'n' => 10
  | 'r' => 13
  | 't' => 9
  | 'v' => 11
  | c => c.toNat

/-- At most two digits at the front of a text. -/
def twoDigits (base : Nat) (p : List Char) : List Char := (p.takeWhile (isDigitIn base)).take 2

/-- The byte of the escape behind a backslash, and what follows it. -/
def readEscape : List Char → Except String (UInt8 × List Char)
  | [] => .error "unterminated string escape"
  | c :: p =>
    if c = 'x' then
      if twoDigits 16 p = [] then .error "\\x escape requires hexadecimal digits"
      else .ok (UInt8.ofNat (digitsFrom 16 0 (twoDigits 16 p)), p.drop (twoDigits 16 p).length)
    else if isDigitIn 8 c then
      .ok (UInt8.ofNat (digitsFrom 8 0 (c :: twoDigits 8 p)), p.drop (twoDigits 8 p).length)
    else .ok (UInt8.ofNat (simpleEscape c), p)

/-- An escape takes a character at least. -/
theorem readEscape_length {p q : List Char} {b : UInt8} (h : readEscape p = .ok (b, q)) :
    q.length < p.length := by
  have hdrop (c : Char) (p : List Char) (n : Nat) : (p.drop n).length < (c :: p).length := by
    rw [List.length_drop, List.length_cons]
    omega
  cases p with
  | nil => exact nomatch h
  | cons c p =>
    rw [readEscape] at h
    split_ifs at h
    all_goals
      cases h
      first
      | exact hdrop c p _
      | exact Nat.lt_succ_self _

/-- The bytes up to the closing quote, or to the end of the text, and what is left of it. -/
def stringLoop (text : List Char) : Except String (Bytes × List Char) :=
  match text with
  | [] => .ok ([], [])
  | c :: p =>
    if c = '"' then .ok ([], c :: p)
    else if c = '\\' then
      match _h : readEscape p with
      | .error e => .error e
      | .ok (b, q) => (stringLoop q).map fun r => (b :: r.1, r.2)
    else (stringLoop p).map fun r => (UInt8.ofNat c.toNat :: r.1, r.2)
termination_by text.length
decreasing_by
  · exact (readEscape_length ‹_›).trans (Nat.lt_succ_self _)
  · exact Nat.lt_succ_self _

/-- `parse_string_bytes`. -/
def parseStringBytes (text : List Char) (terminate : Bool) : Except String Bytes :=
  match text with
  | '"' :: p => do
      let r ← stringLoop p
      if r.2.head? = some '"' ∧ trim r.2.tail = [] then
        .ok (r.1 ++ if terminate then [0] else [])
      else .error "malformed string directive"
  | _ => .error "string directive requires a quoted string"

/-! ### Lines -/

/-- The file with its numeric labels, and whether a block comment is open. -/
structure ParseState where
  run : AsRun
  block_comment : Bool

/-- `parse_directive` and `emit_instruction`: `other` is what they do where there is no string. -/
def parseStatement (other : AsFile → List Char → List Char → Except (Fault String) AsFile)
    (as : AsFile) (mnemonic rest : List Char) : Except (Fault String) AsFile :=
  if mnemonic = ".ascii".toList ∨ mnemonic = ".asciz".toList ∨ mnemonic = ".string".toList then
    match parseStringBytes rest (decide (mnemonic ≠ ".ascii".toList)) with
    | .error e => .error (.refused e)
    | .ok bytes => asAppendBytes as bytes
  else other as mnemonic rest

/-- The mnemonic of a text, its operands, and where they begin in it. -/
def splitMnemonic (body : List Char) : List Char × List Char × Nat :=
  let mnemonic := body.takeWhile (!isspace ·)
  let after := (body.drop mnemonic.length).tail
  (mnemonic, trim after, mnemonic.length + 1 + leading after)

/-- `parse_line`, for a line that `fgets` has read whole. -/
def parseLine (hash : Bool) (other : AsFile → List Char → List Char → Except (Fault String) AsFile)
    (st : ParseState) (line : List Char) : Except (Fault String) ParseState := do
  if LINE_SIZE < line.length + 1 then .error (.refused "source line is too long")
  else
    let scanned := scanLine hash st.block_comment line
    let run ← defineLabels st.run scanned.1.labels
    if scanned.1.body = [] then .ok { run, block_comment := scanned.2 }
    else
      let (mnemonic, rest, at_) := splitMnemonic scanned.1.body
      let resolved ←
        resolveNumericReferences run.numeric_counts (scanned.1.offset + at_) run.file rest
      let file ← parseStatement other resolved.1 mnemonic resolved.2
      .ok { run := { run with file }, block_comment := scanned.2 }

end MeuOS.As
