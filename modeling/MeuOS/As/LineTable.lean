import MeuOS.As.LineProgram
import Mathlib.Data.List.Forall2

namespace MeuOS.As

open MeuOS.Lib List

/-!
# The line table is read (`as_dwarf.c`)

* `readOps`, `runOps`, `readLines` — the rows that DWARF 2 gives to the bytes of `.debug_line`;
* `readUnit_built` — the unit behind a header gives the names of the files and the rows of the
  program, if its length fits into 32 bits;
* `readOps_program` — the program gives back the opcodes that were written;
* `runOps_program` — their rows are those recorded exactly when each follows the row before it in
  `DwarfLoc.Follows`;
* `lineTable_readable_iff` — the rows read are those recorded exactly when there are none, or the
  header buffer holds the names, each row follows the one before, no program buffer ends in the
  operand of a line that goes back, and the unit fits into 32 bits.
-/

/-! ### DWARF 2's reading -/

/-- A row of the line table. -/
@[ext]
structure Row where
  address : Nat
  file : Nat
  line : Int
  column : Nat
  deriving DecidableEq, Repr

/-- The standard opcodes that a program may have here. -/
inductive LineOp where
  | copy
  | advance_pc (n : Nat)
  | advance_line (d : Int)
  | set_file (n : Nat)
  | set_column (n : Nat)
  deriving DecidableEq, Repr

/-- One opcode with its operand, and the bytes after it. -/
def readOp : Bytes → Option (LineOp × Bytes)
  | [] => none
  | b :: bs =>
    if b = 1 then some (.copy, bs)
    else if b = 2 then (readUleb bs).map fun p => (.advance_pc p.1, p.2)
    else if b = 3 then (readSleb64 bs).map fun p => (.advance_line p.1, p.2)
    else if b = 4 then (readUleb bs).map fun p => (.set_file p.1, p.2)
    else if b = 5 then (readUleb bs).map fun p => (.set_column p.1, p.2)
    else none

/-- The opcodes of a program of at most `turns` of them. -/
def readOps : Nat → Bytes → Option (List LineOp)
  | _, [] => some []
  | 0, _ :: _ => none
  | turns + 1, bs => do
      let p ← readOp bs
      let ops ← readOps turns p.2
      return p.1 :: ops

/-- The rows of a program, from the state of the registers on. -/
def runOps : Row → List LineOp → List Row
  | _, [] => []
  | r, .copy :: ops => r :: runOps r ops
  | r, .advance_pc n :: ops => runOps { r with address := r.address + n } ops
  | r, .advance_line d :: ops => runOps { r with line := r.line + d } ops
  | r, .set_file n :: ops => runOps { r with file := n } ops
  | r, .set_column n :: ops => runOps { r with column := n } ops

/-- The registers at the start of a program. -/
def startRow : Row := { address := 0, file := 1, line := 1, column := 0 }

/-- A string with its end, and the bytes after it. -/
def readText : Bytes → Option (Bytes × Bytes)
  | [] => none
  | b :: bs => if b = 0 then some ([], bs) else (readText bs).map fun p => (b :: p.1, p.2)

/-- The directories up to the empty one, at most `turns` of them. -/
def skipDirs : Nat → Bytes → Option Bytes
  | 0, _ => none
  | turns + 1, bs => do
      let p ← readText bs
      if p.1 = [] then return p.2 else skipDirs turns p.2

/-- The names of the files up to the empty one, at most `turns` of them. -/
def readFiles : Nat → Bytes → Option (List Bytes × Bytes)
  | 0, _ => none
  | turns + 1, bs => do
      let p ← readText bs
      if p.1 = [] then return ([], p.2)
      else
        let dir ← readUleb p.2
        let time ← readUleb dir.2
        let size ← readUleb time.2
        let rest ← readFiles turns size.2
        return (p.1 :: rest.1, rest.2)

/-- What a unit says: its files and its rows. -/
@[ext]
structure LineTable where
  files : List Bytes
  rows : List Row
  deriving DecidableEq, Repr

/-- A unit that takes up all the bytes, its tables all of the header. -/
def readUnit (bs : Bytes) : Option LineTable :=
  if bs.length = 4 + leNat (slice bs 0 4) ∧ leNat (slice bs 4 2) = 2 ∧
      slice bs 10 5 = [1, 1, 251, 14, 13] ∧
      slice bs 15 12 = [0, 1, 1, 1, 1, 0, 0, 0, 1, 0, 0, 1] then do
    let tables ← skipDirs bs.length (bs.drop 27)
    let files ← readFiles bs.length tables
    if files.2 = bs.drop (10 + leNat (slice bs 6 4)) then do
      let ops ← readOps files.2.length files.2
      return { files := files.1, rows := runOps startRow ops }
    else none
  else none

/-- The table in a section: none without a byte, else one unit. -/
def readLines (bs : Bytes) : Option LineTable :=
  if bs = [] then some { files := [], rows := [] } else readUnit bs

/-- The row that a `.loc` asks for. -/
def DwarfLoc.IsRow (loc : DwarfLoc) (r : Row) : Prop :=
  r.address = loc.offset.toNat ∧ (r.file : Int) = loc.file.toInt ∧
    r.line = loc.line.toNat ∧ r.column = loc.column.toNat

/-- What is emitted reads back as the rows recorded. -/
def ReadsBack (as : LineInfo) : Prop :=
  ∃ bs t, emitDebugLine as = .ok bs ∧ readLines bs = some t ∧
    List.Forall₂ DwarfLoc.IsRow as.locs t.rows

/-! ### The header is read -/

/-- A string in front of its end. -/
theorem readText_append {name : Bytes} (h : 0 ∉ name) (rest : Bytes) :
    readText (name ++ 0 :: rest) = some (name, rest) := by
  induction name with
  | nil => rfl
  | cons b name ih =>
    rw [mem_cons, not_or] at h
    rw [cons_append, readText, if_neg (Ne.symm h.1), ih h.2, Option.map_some]

/-- The entries of the files. -/
theorem readFiles_entries (files : List DwarfFile) (rest : Bytes) {turns : Nat}
    (h : files.length < turns) :
    readFiles turns (files.flatMap fileEntry ++ 0 :: rest) =
      some (files.map fun f => f.name.bytes, rest) := by
  induction files generalizing turns with
  | nil =>
    obtain ⟨turns, rfl⟩ : ∃ t, turns = t + 1 := ⟨turns - 1, by omega⟩
    rfl
  | cons f files ih =>
    rw [length_cons] at h
    obtain ⟨turns, rfl⟩ : ∃ t, turns = t + 1 := ⟨turns - 1, by omega⟩
    have hname := readText_append f.name.no_nul
      (0 :: 0 :: 0 :: (files.flatMap fileEntry ++ 0 :: rest))
    have hrest := ih (show files.length < turns by omega)
    have hsplit : (f :: files).flatMap fileEntry ++ 0 :: rest =
        f.name.bytes ++ 0 :: 0 :: 0 :: 0 :: (files.flatMap fileEntry ++ 0 :: rest) := by
      simp [fileEntry]
    rw [hsplit, readFiles, hname]
    simp [f.name_ne, readUleb, hrest]

theorem length_le_namesSize (files : List DwarfFile) : files.length ≤ namesSize files := by
  induction files with
  | nil => exact le_rfl
  | cons f files ih =>
    rw [length_cons, namesSize, map_cons, sum_cons]
    rw [namesSize] at ih
    omega

/-- The unit behind a header, if its length fits into 32 bits. -/
theorem readUnit_built (files : List DwarfFile) (prog : Bytes) :
    readUnit (headerBytes files prog.length ++ prog) =
      if 25 + namesSize files + prog.length < 2 ^ 32 then
        (readOps prog.length prog).map fun ops =>
          { files := files.map fun f => f.name.bytes, rows := runOps startRow ops }
      else none := by
  have hlength := headerLength_eq files
  have hlen : (headerBytes files prog.length ++ prog).length =
      29 + namesSize files + prog.length := by
    rw [length_append, length_headerBytes]
  have htotal : leNat (slice (headerBytes files prog.length ++ prog) 0 4) =
      (25 + namesSize files + prog.length) % 2 ^ 32 := by
    show leNat (leBytes 4 (2 + 4 + headerLength files + prog.length)) = _
    rw [leNat_leBytes, hlength]
    congr 1
    omega
  unfold readUnit
  by_cases hfit : 25 + namesSize files + prog.length < 2 ^ 32
  · have hheader : leNat (slice (headerBytes files prog.length ++ prog) 6 4) =
        19 + namesSize files := by
      show leNat (leBytes 4 (headerLength files)) = _
      rw [hlength, leNat_leBytes_of_lt (by omega)]
    have htables : (headerBytes files prog.length ++ prog).drop 27 =
        0 :: (files.flatMap fileEntry ++ 0 :: prog) := by
      show 0 :: (files.flatMap fileEntry ++ [0] ++ prog) = _
      rw [append_assoc]
      rfl
    have hprog : (headerBytes files prog.length ++ prog).drop (10 + (19 + namesSize files)) =
        prog := drop_left' (by rw [length_headerBytes]; omega)
    -- both tables have their turns
    obtain ⟨turns, hturns⟩ : ∃ turns, (headerBytes files prog.length ++ prog).length = turns + 1 :=
      ⟨28 + namesSize files + prog.length, by omega⟩
    have hfiles := readFiles_entries files prog
      (show files.length < (headerBytes files prog.length ++ prog).length by
        have := length_le_namesSize files
        omega)
    have hdirs : skipDirs (headerBytes files prog.length ++ prog).length
        (0 :: (files.flatMap fileEntry ++ 0 :: prog)) =
          some (files.flatMap fileEntry ++ 0 :: prog) := by
      rw [hturns]
      rfl
    rw [if_pos ⟨by rw [hlen, htotal, Nat.mod_eq_of_lt hfit]; omega, rfl, rfl, rfl⟩, if_pos hfit,
      htables, hdirs, hheader, hprog]
    simp only [Option.bind_eq_bind, Option.bind_some, hfiles, if_pos]
    cases readOps prog.length prog <;> rfl
  · rw [if_neg, if_neg hfit]
    rintro ⟨heq, -⟩
    rw [hlen, htotal] at heq
    have := Nat.mod_lt (25 + namesSize files + prog.length) (show 0 < 2 ^ 32 by decide)
    omega

/-! ### The program is read -/

/-- What the advance of the line is read as. -/
def lineDelta (prev loc : DwarfLoc) : Int :=
  Int.bmod (septets (lineOperand prev.line.toUInt64 loc)) (2 ^ 64)

/-- The opcodes of a row behind another one. -/
def rowOps (prev loc : DwarfLoc) : List LineOp :=
  (if prev.offset < loc.offset then [.advance_pc (loc.offset - prev.offset).toNat] else []) ++
    [.set_file (fileOperand loc), .advance_line (lineDelta prev loc)] ++
    (if loc.column ≠ 0 then [.set_column loc.column.toNat] else []) ++ [.copy]

/-- The opcodes of the rows behind one. -/
def programOps : DwarfLoc → List DwarfLoc → List LineOp
  | _, [] => []
  | prev, loc :: locs => rowOps prev loc ++ programOps loc locs

/-- The bytes up to `rest` are these opcodes. -/
def Opcodes : List LineOp → Bytes → Bytes → Prop
  | [], bs, rest => bs = rest
  | op :: ops, bs, rest => ∃ mid : Bytes, readOp bs = some (op, mid) ∧ Opcodes ops mid rest

theorem Opcodes.append {ops ops' : List LineOp} {bs mid rest : Bytes} (h : Opcodes ops bs mid)
    (h' : Opcodes ops' mid rest) : Opcodes (ops ++ ops') bs rest := by
  induction ops generalizing bs with
  | nil =>
    obtain rfl : bs = mid := h
    exact h'
  | cons op ops ih =>
    obtain ⟨next, hop, hops⟩ := h
    exact ⟨next, hop, ih hops⟩

/-- Opcodes are read one after another. -/
theorem Opcodes.readOps {ops : List LineOp} {bs rest : Bytes} (h : Opcodes ops bs rest)
    (turns : Nat) : readOps (ops.length + turns) bs = (readOps turns rest).map (ops ++ ·) := by
  induction ops generalizing bs with
  | nil =>
    obtain rfl : bs = rest := h
    simp
  | cons op ops ih =>
    obtain ⟨mid, hop, hops⟩ := h
    obtain ⟨b, bs, rfl⟩ : ∃ b bs', bs = b :: bs' := by
      cases bs with
      | nil => exact nomatch hop
      | cons b bs => exact ⟨b, bs, rfl⟩
    rw [length_cons, Nat.add_right_comm, MeuOS.As.readOps, hop]
    case x_2 => exact cons_ne_nil b bs
    simp only [Option.bind_eq_bind, Option.bind_some, ih hops]
    cases MeuOS.As.readOps turns rest <;> rfl

theorem readOp_pc (n : Nat) (rest : Bytes) :
    readOp (2 :: (uleb n ++ rest)) = some (.advance_pc n, rest) := by
  simp [readOp]

theorem readOp_line (n : Nat) (rest : Bytes) :
    readOp (3 :: (uleb n ++ rest)) =
      some (.advance_line (Int.bmod (septets n) (2 ^ 64)), rest) := by
  simp [readOp]

theorem readOp_file (n : Nat) (rest : Bytes) :
    readOp (4 :: (uleb n ++ rest)) = some (.set_file n, rest) := by
  simp [readOp]

theorem readOp_column (n : Nat) (rest : Bytes) :
    readOp (5 :: (uleb n ++ rest)) = some (.set_column n, rest) := by
  simp [readOp]

/-- A row is its opcodes. -/
theorem opcodes_row (prev loc : DwarfLoc) (rest : Bytes) :
    Opcodes (rowOps prev loc) (rowBytes prev loc ++ rest) rest := by
  have hcopy : Opcodes [.copy] ([1] ++ rest) rest := ⟨rest, rfl, rfl⟩
  have hcolumn :
      Opcodes ((if loc.column ≠ 0 then [.set_column loc.column.toNat] else []) ++ [.copy])
      ((if loc.column ≠ 0 then 5 :: uleb loc.column.toNat else []) ++ ([1] ++ rest)) rest := by
    split
    · exact ⟨_, readOp_column _ _, hcopy⟩
    · exact hcopy
  unfold rowOps rowBytes lineDelta
  simp only [append_assoc]
  split
  · exact ⟨_, readOp_pc _ _, _, readOp_file _ _, _, readOp_line _ _, hcolumn⟩
  · exact ⟨_, readOp_file _ _, _, readOp_line _ _, hcolumn⟩

theorem opcodes_program (prev : DwarfLoc) (locs : List DwarfLoc) :
    Opcodes (programOps prev locs) (programBytes prev locs) [] := by
  induction locs generalizing prev with
  | nil => exact rfl
  | cons loc locs ih => exact (opcodes_row prev loc _).append (ih loc)

/-- An opcode takes a byte at least. -/
theorem length_programOps_le (prev : DwarfLoc) (locs : List DwarfLoc) :
    (programOps prev locs).length ≤ (programBytes prev locs).length := by
  induction locs generalizing prev with
  | nil => exact le_rfl
  | cons loc locs ih =>
    have hrow : (rowOps prev loc).length ≤ (rowBytes prev loc).length := by
      unfold rowOps rowBytes
      split <;> split <;>
        simp only [length_append, length_cons, length_nil] <;> omega
    rw [programOps, programBytes, length_append, length_append]
    exact Nat.add_le_add hrow (ih loc)

theorem readOps_program (prev : DwarfLoc) (locs : List DwarfLoc) :
    readOps (programBytes prev locs).length (programBytes prev locs) =
      some (programOps prev locs) := by
  obtain ⟨turns, hturns⟩ := Nat.exists_eq_add_of_le (length_programOps_le prev locs)
  rw [hturns, (opcodes_program prev locs).readOps]
  cases turns <;> simp [readOps]

/-! ### The rows -/

/-- The row behind another one, in terms of the program's registers. -/
def nextRow (r : Row) (prev loc : DwarfLoc) : Row where
  address := loc.offset.toNat
  file := fileOperand loc
  line := r.line + lineDelta prev loc
  column := if loc.column ≠ 0 then loc.column.toNat else r.column

/-- The opcodes of a row give one row. -/
theorem runOps_rowOps {r : Row} {prev loc : DwarfLoc} (haddress : r.address = prev.offset.toNat)
    (hle : prev.offset ≤ loc.offset) (ops : List LineOp) :
    runOps r (rowOps prev loc ++ ops) = nextRow r prev loc :: runOps (nextRow r prev loc) ops := by
  have hsum : prev.offset.toNat + (loc.offset - prev.offset).toNat = loc.offset.toNat := by
    rw [UInt64.toNat_sub_of_le _ _ hle]
    exact Nat.add_sub_cancel' (UInt64.le_iff_toNat_le.mp hle)
  unfold rowOps nextRow
  by_cases hlt : prev.offset < loc.offset
  · by_cases hcol : loc.column ≠ 0 <;> simp [hlt, hcol, runOps, haddress, hsum]
  · have heq : prev.offset = loc.offset := UInt64.le_antisymm hle (UInt64.not_lt.mp hlt)
    by_cases hcol : loc.column ≠ 0 <;> simp [hcol, runOps, haddress, heq]

/-- A row that is read as it was recorded, behind one that was. -/
structure DwarfLoc.Follows (prev loc : DwarfLoc) : Prop where
  /-- The file number is one. -/
  file : 0 ≤ loc.file.toInt
  /-- The line goes back, or forward by a number whose last septet leaves the sign alone. -/
  line : loc.line < prev.line ∨ SignClear (loc.line.toNat - prev.line.toNat)
  /-- There is no column to be taken back. -/
  column : loc.column = 0 → prev.column = 0

/-- Each row follows the one before. -/
def AllFollow : DwarfLoc → List DwarfLoc → Prop
  | _, [] => True
  | prev, loc :: locs => prev.Follows loc ∧ AllFollow loc locs

/-- The advance of the line is read as it was meant when the line goes back, or else by the sign. -/
theorem lineDelta_eq_iff (prev loc : DwarfLoc) :
    (prev.line.toNat : Int) + lineDelta prev loc = loc.line.toNat ↔
      loc.line < prev.line ∨ SignClear (loc.line.toNat - prev.line.toNat) := by
  have hp := prev.line.toNat_lt
  have hl := loc.line.toNat_lt
  unfold lineDelta
  by_cases hback : loc.line < prev.line
  · refine iff_of_true ?_ (Or.inl hback)
    have hlt := UInt32.lt_iff_toNat_lt.mp hback
    rw [lineOperand_back hback, bmod_septets_wrapped (by omega) (by omega)]
    omega
  · have hle : prev.line.toNat ≤ loc.line.toNat :=
      Nat.le_of_not_lt fun h => hback (UInt32.lt_iff_toNat_lt.mpr h)
    rw [lineOperand_forward hback, ← bmod_septets_small (by omega)]
    constructor
    · intro h
      exact Or.inr (by omega)
    · rintro (h | h)
      · exact absurd h hback
      · omega

/-- The registers behind a row, which do not depend on its file. -/
structure Row.Behind (r : Row) (prev : DwarfLoc) : Prop where
  address : r.address = prev.offset.toNat
  line : r.line = prev.line.toNat
  column : r.column = prev.column.toNat

/-- The next row is the one recorded exactly when that follows. -/
theorem isRow_nextRow {r : Row} {prev loc : DwarfLoc} (h : r.Behind prev) :
    loc.IsRow (nextRow r prev loc) ↔ prev.Follows loc := by
  have hline := lineDelta_eq_iff prev loc
  have hfile : (fileOperand loc : Int) = loc.file.toInt ↔ 0 ≤ loc.file.toInt :=
    ⟨fun hf => by omega, fun hf => (fileOperand_eq hf).1⟩
  have hcolumn : (nextRow r prev loc).column = loc.column.toNat ↔
      (loc.column = 0 → prev.column = 0) := by
    unfold nextRow
    by_cases hzero : loc.column = 0
    · rw [if_neg (not_not.mpr hzero), h.column, hzero]
      simp [← UInt32.toNat_inj]
    · simp [hzero]
  unfold DwarfLoc.IsRow
  rw [hcolumn]
  constructor
  · rintro ⟨-, hf, hl, hc⟩
    exact ⟨hfile.mp hf, hline.mp (h.line ▸ hl), hc⟩
  · rintro ⟨hf, hl, hc⟩
    refine ⟨rfl, hfile.mpr hf, ?_, hc⟩
    show r.line + lineDelta prev loc = _
    rw [h.line]
    exact hline.mpr hl

/-- The rows of the program are those recorded exactly when each follows the one before. -/
theorem runOps_program {r : Row} {prev : DwarfLoc} {locs : List DwarfLoc} (h : r.Behind prev)
    (hsorted : (prev :: locs).Pairwise fun a b => a.offset ≤ b.offset) :
    List.Forall₂ DwarfLoc.IsRow locs (runOps r (programOps prev locs)) ↔ AllFollow prev locs := by
  induction locs generalizing r prev with
  | nil => exact iff_of_true List.Forall₂.nil trivial
  | cons loc locs ih =>
    obtain ⟨hfirst, hrest⟩ := pairwise_cons.mp hsorted
    rw [programOps, runOps_rowOps h.address (hfirst loc mem_cons_self),
      forall₂_cons, isRow_nextRow h, AllFollow]
    refine and_congr_right fun hfollows => ih ?_ hrest
    obtain ⟨ha, -, hl, hc⟩ := (isRow_nextRow h).mpr hfollows
    exact ⟨ha, hl, hc⟩

/-! ### What is emitted reads back -/

/-- The rows of the section are read as they were recorded. -/
structure LineInfo.Readable (as : LineInfo) : Prop where
  /-- The header holds the names. -/
  names : 29 + namesSize as.files ≤ HDR_SIZE
  /-- Each row follows the one before. -/
  follow : AllFollow startLoc as.locs
  /-- No program buffer ends in the operand of a line that goes back. -/
  room : BackRoomy 0 startLoc as.locs
  /-- The unit fits into 32 bits. -/
  length : 25 + namesSize as.files + programSize startLoc as.locs < 2 ^ 32

theorem AllFollow.files {prev : DwarfLoc} {locs : List DwarfLoc} (h : AllFollow prev locs) :
    ∀ loc ∈ locs, 0 ≤ loc.file.toInt := by
  induction locs generalizing prev with
  | nil => exact nofun
  | cons loc locs ih =>
    intro l hl
    rcases mem_cons.mp hl with rfl | hl
    · exact h.1.file
    · exact ih h.2 l hl

/-- Where the program and the header are written, the bytes are the unit of both. -/
theorem emitDebugLine_ok {as : LineInfo} (hne : as.locs ≠ []) {bs : Bytes}
    (h : emitDebugLine as = .ok bs) :
    29 + namesSize as.files ≤ HDR_SIZE ∧
      bs = headerBytes as.files (programBytes startLoc as.locs).length ++
        programBytes startLoc as.locs ∧
      ∃ s : LineState, buildProgram as.locs = .ok s := by
  unfold emitDebugLine at h
  rw [if_neg hne] at h
  obtain ⟨s, hs, h⟩ := Checked.bind_eq_ok h
  rw [buildHeader_eq, ProgBuf.size, buildProgram_ok hs] at h
  split at h
  case isTrue hfit =>
    exact ⟨hfit, (Checked.ok.inj h).symm, s, hs⟩
  case isFalse => cases h

/-- What is emitted reads back exactly when there are no rows or the section is readable. -/
theorem readsBack_iff {as : LineInfo}
    (hsorted : as.locs.Pairwise fun a b => a.offset ≤ b.offset) :
    ReadsBack as ↔ as.locs = [] ∨ as.Readable := by
  have hsorted' : (startLoc :: as.locs).Pairwise fun a b => a.offset ≤ b.offset :=
    pairwise_cons.mpr ⟨fun _ _ => UInt64.zero_le, hsorted⟩
  have hrows := runOps_program (show startRow.Behind startLoc from ⟨rfl, rfl, rfl⟩) hsorted'
  have hunit := readUnit_built as.files (programBytes startLoc as.locs)
  rw [readOps_program, Option.map_some, length_programBytes] at hunit
  by_cases hne : as.locs = []
  · refine iff_of_true ⟨[], { files := [], rows := [] }, ?_, rfl, ?_⟩ (Or.inl hne)
    · rw [emitDebugLine, if_pos hne]
      rfl
    · rw [hne]
      exact List.Forall₂.nil
  rw [or_iff_right hne]
  constructor
  · rintro ⟨bs, t, hbs, hread, hall⟩
    obtain ⟨hnames, rfl, hprog⟩ := emitDebugLine_ok hne hbs
    rw [readLines, if_neg (by simp [headerBytes]), length_programBytes, hunit] at hread
    split at hread
    case isTrue hlength =>
      cases hread
      have hfollow := hrows.mp hall
      exact ⟨hnames, hfollow, (buildProgram_exists hfollow.files).mp hprog, hlength⟩
    case isFalse => cases hread
  · intro h
    obtain ⟨s, hs⟩ := (buildProgram_exists h.follow.files).mpr h.room
    have hemit : emitDebugLine as =
        .ok (headerBytes as.files (programBytes startLoc as.locs).length ++
          programBytes startLoc as.locs) := by
      rw [emitDebugLine, if_neg hne, hs, Checked.ok_bind, buildHeader_eq, if_pos h.names,
        ProgBuf.size, buildProgram_ok hs]
      rfl
    refine ⟨_, { files := as.files.map fun f => f.name.bytes,
                 rows := runOps startRow (programOps startLoc as.locs) },
      hemit, ?_, hrows.mpr h.follow⟩
    rw [readLines, if_neg (by simp [headerBytes]), length_programBytes, hunit, if_pos h.length]

/-- For every sequence of directives whose offsets do not decrease: the rows read from the section
    are those recorded exactly when there are none, or the header buffer holds the names of the
    files, each row follows the one before it, no program buffer ends in the operand of a line that
    goes back, and the unit fits into 32 bits. -/
theorem lineTable_readable_iff {ds : List LineDirective} {as : LineInfo}
    (_ : parseDirectives ds = .ok as)
    (hsorted : as.locs.Pairwise fun a b => a.offset ≤ b.offset) :
    ReadsBack as ↔ as.locs = [] ∨ as.Readable := readsBack_iff hsorted

theorem zero_notMem_smallName : (0 : UInt8) ∉ ([97] : Bytes) := by decide

/-- Two rows, the second one line on and the third two lines back. -/
def smallTable : List LineDirective :=
  [.file 1 ⟨[97], zero_notMem_smallName⟩, .loc 0 1 3 0, .loc 4 1 4 0, .loc 8 1 2 7]

theorem lineTable_readable_small :
    ∃ as : LineInfo, parseDirectives smallTable = .ok as ∧
      (ReadsBack as ↔ as.locs = [] ∨ as.Readable) :=
  ⟨_, rfl, @lineTable_readable_iff smallTable _ rfl (by decide)⟩

/-- A row at line 65 is read at line 1 - 64. -/
theorem lineTable_not_readable :
    ∃ as : LineInfo, parseDirectives [.file 1 ⟨[97], by decide⟩, .loc 0 1 65 0] = .ok as ∧
      as.locs.Pairwise (fun a b => a.offset ≤ b.offset) ∧ ¬ReadsBack as := by
  refine ⟨_, rfl, by decide, fun h => ?_⟩
  rcases (readsBack_iff (by decide)).mp h with hnone | hread
  · exact nomatch hnone
  · rcases hread.follow.1.line with hback | hclear
    · exact absurd hback (by decide)
    · exact hclear 0 (by decide)

end MeuOS.As
