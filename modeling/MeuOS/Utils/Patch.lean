import MeuOS.Lib.Decimal
import MeuOS.Lib.EditScript

namespace MeuOS.Utils

open MeuOS.Lib

/-!
# patch (`utils/text/patch.c`)

* `parsePatch` — the files and hunks of a patch; the counts in a hunk's header are read and not
  used: a hunk goes on while its lines have a mark;
* `applyHunk` — a hunk applied where its old lines are found first: from the line its header names
  to the end of the text, and then from the beginning.
-/

/-- `hunk_t`. -/
structure Hunk where
  old_start : Int
  old_count : Int
  new_start : Int
  new_count : Int
  lines : List Bytes
  deriving DecidableEq, Repr

/-- `file_patch_t`. -/
structure FilePatch where
  filename : Bytes
  hunks : List Hunk
  deriving DecidableEq, Repr

/-! ### Lines and numbers -/

/-- `strtok_r` with a newline, where `cur` was read of the next token: empty lines are dropped. -/
def tokensFrom : Bytes → Bytes → List Bytes
  | cur, [] => if cur.isEmpty then [] else [cur]
  | cur, c :: cs =>
    if c = 0x0a then (if cur.isEmpty then tokensFrom [] cs else cur :: tokensFrom [] cs)
    else tokensFrom (cur ++ [c]) cs

/-- The lines of a patch; the text ends at a NUL. -/
def patchLines (patchdata : Bytes) : List Bytes := tokensFrom [] (patchdata.takeWhile (· ≠ 0))

/-- What `sscanf` is asked for: a character, any white space, a number. -/
inductive ScanItem where
  | lit (c : UInt8)
  | space
  | int

/-- `isspace`. -/
def isSpace (c : UInt8) : Bool := c = 0x20 || (0x09 ≤ c && c ≤ 0x0d)

/-- `isdigit`. -/
def isDigit (c : UInt8) : Bool := 0x30 ≤ c && c ≤ 0x39

/-- The value of digits. -/
def digitsValue (ds : Bytes) : Nat := ds.foldl (fun a c => a * 10 + (c.toNat - 48)) 0

/-- `%d`: white space, a sign, digits. -/
def scanInt (s : Bytes) : Option (Int × Bytes) :=
  let s := s.dropWhile isSpace
  let neg := s.head? = some 0x2d
  let s := if s.head? = some 0x2d ∨ s.head? = some 0x2b then s.tail else s
  let ds := s.takeWhile isDigit
  if ds.isEmpty then none
  else some (if neg then -(digitsValue ds : Int) else digitsValue ds, s.dropWhile isDigit)

/-- `sscanf`: the numbers assigned before the first item that fails. -/
def sscanf : List ScanItem → Bytes → List Int
  | [], _ => []
  | .space :: f, s => sscanf f (s.dropWhile isSpace)
  | .lit _ :: _, [] => []
  | .lit c :: f, x :: s => if x = c then sscanf f s else []
  | .int :: f, s =>
    match scanInt s with
    | none => []
    | some (v, s) => v :: sscanf f s

/-- The format `@@ -%d,%d +%d,%d @@`. -/
def rangesFormat : List ScanItem :=
  [.lit 0x40, .lit 0x40, .space, .lit 0x2d, .int, .lit 0x2c, .int, .space, .lit 0x2b, .int,
    .lit 0x2c, .int, .space, .lit 0x40, .lit 0x40]

/-- The format `@@ -%d +%d @@`. -/
def startsFormat : List ScanItem :=
  [.lit 0x40, .lit 0x40, .space, .lit 0x2d, .int, .space, .lit 0x2b, .int, .space, .lit 0x40,
    .lit 0x40]

/-- A hunk from its header, without lines. -/
def parseHunkHeader (line : Bytes) : Hunk :=
  match sscanf rangesFormat line with
  | [old_start, old_count, new_start, new_count] => ⟨old_start, old_count, new_start, new_count, []⟩
  | first =>
    match sscanf startsFormat line with
    | [old_start, new_start] => ⟨old_start, 1, new_start, 1, []⟩
    | second =>
      ⟨second.headD (first.headD 0), first.getD 1 0, first.getD 2 0, 0, []⟩

/-! ### `parse_patch` -/

/-- A line of a hunk. -/
def isHunkLine (l : Bytes) : Bool :=
  l.head? = some 0x2b || l.head? = some 0x2d || l.head? = some 0x20 || l.head? = some 0x5c

/-- The hunks at the head of the lines, at most `n`, and the lines behind them. -/
def parseHunks : Nat → List Bytes → List Hunk × List Bytes
  | 0, ls => ([], ls)
  | _ + 1, [] => ([], [])
  | n + 1, l :: ls =>
    if [0x40, 0x40].isPrefixOf l then
      let rest := parseHunks n (ls.dropWhile isHunkLine)
      ({ parseHunkHeader l with lines := ls.takeWhile isHunkLine } :: rest.1, rest.2)
    else ([], l :: ls)

/-- A name without `a/` before it. -/
def oldName (name : Bytes) : Bytes := if [0x61, 0x2f].isPrefixOf name then name.drop 2 else name

/-- `--- `. -/
def oldMark : Bytes := [0x2d, 0x2d, 0x2d, 0x20]

/-- `+++ `. -/
def newMark : Bytes := [0x2b, 0x2b, 0x2b, 0x20]

/-- The files of a patch, at most `n`: lines before a header are skipped, and a line with the new
name behind it is passed. -/
def parseFiles : Nat → List Bytes → List FilePatch
  | 0, _ => []
  | n + 1, ls =>
    match ls.dropWhile fun l => !oldMark.isPrefixOf l with
    | [] => []
    | l :: rest =>
      let rest := if newMark.isPrefixOf (rest.headD []) then rest.tail else rest
      let hunks := parseHunks rest.length rest
      ⟨oldName (l.drop 4), hunks.1⟩ :: parseFiles n hunks.2

/-- `parse_patch`; every file takes a line. -/
def parsePatch (patchdata : Bytes) : List FilePatch :=
  parseFiles (patchLines patchdata).length (patchLines patchdata)

/-! ### `apply_hunk` -/

/-- The mark of a hunk's line, `+` and `-` exchanged with `-R`. -/
def hunkMark (reverse : Bool) (l : Bytes) : UInt8 :=
  let mark := l.headD 0
  if reverse then
    if mark = 0x2b then 0x2d else if mark = 0x2d then 0x2b else mark
  else mark

/-- A line without its newline. -/
def chomp (l : Bytes) : Bytes := if l.getLast? = some 0x0a then l.dropLast else l

/-- The lines of a hunk match a text from its beginning: its kept and old lines do. -/
def matchLines (reverse : Bool) : List Bytes → List Bytes → Bool
  | [], _ => true
  | h :: hs, file =>
    if hunkMark reverse h = 0x20 ∨ hunkMark reverse h = 0x2d then
      match file with
      | [] => false
      | f :: fs => if chomp h.tail = chomp f then matchLines reverse hs fs else false
    else matchLines reverse hs file

/-- The first line from `start` on at which a hunk matches. -/
def firstMatch (reverse : Bool) (hunk lines : List Bytes) (start : Nat) : Option Nat :=
  ((List.range lines.length).drop start).find? fun i => matchLines reverse hunk (lines.drop i)

/-- Where the search starts. -/
def searchStart (reverse : Bool) (hunk : Hunk) : Nat :=
  let expected := if reverse then hunk.new_start else hunk.old_start
  if 0 < expected then (expected - 1).toNat else 0

/-- `match_pos`. -/
def matchPos (reverse : Bool) (lines : List Bytes) (hunk : Hunk) : Option Nat :=
  (firstMatch reverse hunk.lines lines (searchStart reverse hunk)).or
    (firstMatch reverse hunk.lines lines 0)

/-- A line with a newline. -/
def withNewline (l : Bytes) : Bytes := if l.getLast? = some 0x0a then l else l ++ [0x0a]

/-- The new lines of a hunk: kept and added ones. -/
def newLines (reverse : Bool) (hunk : List Bytes) : List Bytes :=
  (hunk.filter fun h => hunkMark reverse h = 0x20 || hunkMark reverse h = 0x2b).map
    fun h => withNewline h.tail

/-- `old_lines_count`. -/
def oldLinesCount (reverse : Bool) (hunk : List Bytes) : Nat :=
  hunk.countP fun h => hunkMark reverse h = 0x20 || hunkMark reverse h = 0x2d

/-- `apply_hunk`; the lines of the text have their newlines. -/
def applyHunk (reverse : Bool) (lines : List Bytes) (hunk : Hunk) : Option (List Bytes) :=
  (matchPos reverse lines hunk).map fun pos =>
    splice lines pos (oldLinesCount reverse hunk.lines) (newLines reverse hunk.lines)

/-- The hunks of a file in order; the file is written when all apply. -/
def applyHunks (reverse : Bool) (lines : List Bytes) (hunks : List Hunk) : Option (List Bytes) :=
  runAll (applyHunk reverse) lines hunks

/-! ### The search -/

/-- The search visits line `i` before line `p`. -/
def VisitedBefore (start i p : Nat) : Prop := if start ≤ p then start ≤ i ∧ i < p else start ≤ i ∨ i < p

instance (start i p : Nat) : Decidable (VisitedBefore start i p) := by
  unfold VisitedBefore
  infer_instance

/-- A scan stops at the first line that matches. -/
theorem firstMatch_eq {reverse : Bool} {hunk lines : List Bytes} {start p : Nat}
    (hp : p < lines.length) (hs : start ≤ p)
    (hmatch : matchLines reverse hunk (lines.drop p) = true)
    (hnone : ∀ i, start ≤ i → i < p → matchLines reverse hunk (lines.drop i) = false) :
    firstMatch reverse hunk lines start = some p := by
  have hsplit : (List.range lines.length).drop start =
      (List.range' start (p - start)) ++ p :: List.range' (p + 1) (lines.length - p - 1) := by
    rw [List.range_eq_range', List.drop_range', Nat.mul_one, Nat.zero_add]
    have h1 : lines.length - start = (p - start) + ((lines.length - p - 1) + 1) := by omega
    rw [h1, ← List.range'_append_1, List.range'_succ, Nat.add_sub_cancel' hs]
  have hbefore : (List.range' start (p - start)).find?
      (fun i => matchLines reverse hunk (lines.drop i)) = none := by
    rw [List.find?_eq_none]
    intro i hi
    obtain ⟨h1, h2⟩ := List.mem_range'_1.mp hi
    rw [hnone i h1 (by omega)]
    decide
  rw [firstMatch, hsplit, List.find?_append, hbefore, Option.none_or]
  simp only [List.find?_cons, hmatch]

/-- A scan that matches nowhere. -/
theorem firstMatch_none {reverse : Bool} {hunk lines : List Bytes} {start : Nat}
    (hnone : ∀ i, start ≤ i → i < lines.length → matchLines reverse hunk (lines.drop i) = false) :
    firstMatch reverse hunk lines start = none := by
  rw [firstMatch, List.find?_eq_none]
  intro i hi
  rw [List.range_eq_range', List.drop_range', Nat.mul_one, Nat.zero_add] at hi
  obtain ⟨h1, h2⟩ := List.mem_range'_1.mp hi
  rw [hnone i h1 (by omega)]
  decide

/-- **The search** finds a line that matches when nothing does that it visits before. -/
theorem matchPos_eq {reverse : Bool} {lines : List Bytes} {hunk : Hunk} {p : Nat}
    (hp : p < lines.length) (hmatch : matchLines reverse hunk.lines (lines.drop p) = true)
    (hnone : ∀ i, i < lines.length → VisitedBefore (searchStart reverse hunk) i p →
      matchLines reverse hunk.lines (lines.drop i) = false) :
    matchPos reverse lines hunk = some p := by
  rw [matchPos]
  by_cases hs : searchStart reverse hunk ≤ p
  · rw [firstMatch_eq hp hs hmatch, Option.some_or]
    intro i h1 h2
    exact hnone i (by omega) (by rw [VisitedBefore, if_pos hs]; exact ⟨h1, h2⟩)
  · rw [firstMatch_none, Option.none_or, firstMatch_eq hp (Nat.zero_le p) hmatch]
    · intro i _ h2
      exact hnone i (by omega) (by rw [VisitedBefore, if_neg hs]; exact Or.inr h2)
    · intro i h1 h2
      exact hnone i h2 (by rw [VisitedBefore, if_neg hs]; exact Or.inl h1)

end MeuOS.Utils
