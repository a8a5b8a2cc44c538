import MeuOS.Lib.Checked
import MeuOS.Lib.Leb128
import Mathlib.Data.List.Forall2

namespace MeuOS.As

open MeuOS.Lib List Lib.Checked

/-!
# The line number program (`as_dwarf.c`, `as_parse.c`)

`.file` and `.loc` record files and rows, and `emit_dwarf` writes them as a line number program of
DWARF 2 behind a header of fixed size.  Each number of the program is written as an unsigned LEB128,
the advance of the line too, which is read as a signed one.

* `LineInfo`, `parseDirective` — the records and the two directives;
* `emitLoc`, `buildProgram`, `buildHeader`, `emitDebugLine` — the bytes of `.debug_line`;
* `ProgBuf.Grown` — the capacity of the program buffer is doubled only at need;
* `ProgBuf.Grown.putOp_ten` — an operand of ten bytes fits exactly where no buffer ends in it;
* `rowBytes`, `emitLoc_ok`, `emitLoc_exists` — what a row adds, and when there is room for it;
* `buildProgram_ok`, `buildProgram_exists` — the same for all rows;
* `buildHeader_eq` — the header, a fault exactly where it does not fit.
-/

/-! ### The records -/

/-- A C string. -/
structure CText where
  bytes : Bytes
  no_nul : 0 ∉ bytes

/-- `struct as_dwarf_file`. -/
structure DwarfFile where
  index : Int32
  name : CText
  name_ne : name.bytes ≠ []

/-- `struct as_dwarf_loc`, for the rows of one section. -/
@[ext]
structure DwarfLoc where
  offset : UInt64
  file : Int32
  line : UInt32
  column : UInt32
  deriving DecidableEq, Repr

/-- The files and rows recorded so far. -/
structure LineInfo where
  files : List DwarfFile
  locs : List DwarfLoc

/-- A `.file` or `.loc` directive with its numbers parsed; the offset is the size of the section. -/
inductive LineDirective where
  | file (index : Int) (name : CText)
  | loc (offset : UInt64) (file_num line_num col_num : Int)

/-- `parse_directive` for `.file` and `.loc`. -/
def parseDirective (as : LineInfo) : LineDirective → Except String LineInfo
  | .file index name =>
    if h : name.bytes = [] then .error "empty filename in .file"
    else .ok { as with files := as.files ++ [⟨Int32.ofInt index, name, h⟩] }
  | .loc offset file_num line_num col_num =>
    if file_num < 0 then .error "invalid .loc file number"
    else if line_num < 0 then .error "invalid .loc line number"
    else
      .ok { as with
        locs := as.locs ++
          [⟨offset, Int32.ofInt file_num, UInt32.ofInt line_num, UInt32.ofInt col_num⟩] }

/-- The directives of a file. -/
def parseDirectives (ds : List LineDirective) : Except String LineInfo :=
  ds.foldlM parseDirective { files := [], locs := [] }

/-! ### The line number program -/

/-- The program buffer: `prog[0 .. prog_size)` in a block of `prog_cap` bytes. -/
structure ProgBuf where
  bytes : Bytes
  cap : Nat

namespace ProgBuf

/-- `prog_size`. -/
def size (p : ProgBuf) : Nat := p.bytes.length

/-- `if (prog_size + k >= prog_cap) { prog_cap *= 2; prog = mt_realloc(prog, prog_cap); }`. -/
def reserve (k : Nat) (p : ProgBuf) : ProgBuf :=
  if p.cap ≤ p.size + k then { p with cap := p.cap * 2 } else p

/-- `prog[prog_size++] = b`. -/
def put (p : ProgBuf) (b : UInt8) : Checked Unit ProgBuf :=
  if p.size < p.cap then .ok { p with bytes := p.bytes ++ [b] } else .fault

/-- A byte for which the buffer is grown first. -/
def putGrown (p : ProgBuf) (b : UInt8) : Checked Unit ProgBuf := (p.reserve 1).put b

/-- An opcode and its operand: the buffer is grown for the opcode alone. -/
def putOp (p : ProgBuf) (op : UInt8) (v : Nat) : Checked Unit ProgBuf := do
  let p ← (p.reserve 8).put op
  (uleb v).foldlM put p

end ProgBuf

/-- The program with the `prev_offset` and the `prev_line` of the next row. -/
structure LineState where
  prog : ProgBuf
  prev_offset : UInt64
  prev_line : UInt64

/-- `uint64_t v = loc->file`: an `int` as 64 bits. -/
def fileOperand (loc : DwarfLoc) : Nat := (loc.file.toInt % 2 ^ 64).toNat

/-- `uint64_t v = loc->line - prev_line`. -/
def lineOperand (prev_line : UInt64) (loc : DwarfLoc) : Nat :=
  (loc.line.toUInt64 - prev_line).toNat

/-- DW_LNS_advance_pc: the bytes of its number are checked one by one. -/
def advancePc (s : LineState) (loc : DwarfLoc) : Checked Unit ProgBuf :=
  if s.prev_offset < loc.offset then
    (s.prog.reserve 8).put 2 >>= fun p =>
      (uleb (loc.offset - s.prev_offset).toNat).foldlM ProgBuf.putGrown p
  else pure s.prog

/-- DW_LNS_set_column, for a row that has one. -/
def setColumn (p : ProgBuf) (loc : DwarfLoc) : Checked Unit ProgBuf :=
  if loc.column ≠ 0 then p.putOp 5 loc.column.toNat else pure p

/-- The bytes of one row. -/
def emitLoc (s : LineState) (loc : DwarfLoc) : Checked Unit LineState := do
  let p ← advancePc s loc
  -- DW_LNS_set_file
  let p ← p.putOp 4 (fileOperand loc)
  -- DW_LNS_advance_line
  let p ← p.putOp 3 (lineOperand s.prev_line loc)
  let p ← setColumn p loc
  -- DW_LNS_copy
  let p ← p.putGrown 1
  return { prog := p, prev_offset := loc.offset, prev_line := loc.line.toUInt64 }

/-- The program of all rows. -/
def buildProgram (locs : List DwarfLoc) : Checked Unit LineState :=
  locs.foldlM emitLoc
    { prog := { bytes := [], cap := 4096 }, prev_offset := 0, prev_line := 1 }

/-! ### The header -/

/-- `unsigned char hdr[512]`. -/
def HDR_SIZE : Nat := 512

/-- Bytes at `hdr + hpos`. -/
def putHdr (hdr bs : Bytes) : Checked Unit Bytes :=
  if hdr.length + bs.length ≤ HDR_SIZE then .ok (hdr ++ bs) else .fault

/-- `header_length`. -/
def headerLength (files : List DwarfFile) : Nat :=
  (files.foldl (fun n f => n + (f.name.bytes.length + 1) + (1 + 1 + 1))
    (1 + 1 + 1 + 1 + 1 + 12 + 1)) + 1

/-- The parameters and the lengths of the standard opcodes. -/
def stdParams : Bytes := [1, 1, 251, 14, 13, 0, 1, 1, 1, 1, 0, 0, 0, 1, 0, 0, 1]

/-- The header in front of a program of `prog_size` bytes. -/
def buildHeader (files : List DwarfFile) (prog_size : Nat) : Checked Unit Bytes := do
  let header_length := headerLength files
  let total_length := 2 + 4 + header_length + prog_size
  let hdr ← putHdr [] (leBytes 4 total_length)
  let hdr ← putHdr hdr [2, 0]
  let hdr ← putHdr hdr (leBytes 4 header_length)
  let hdr ← putHdr hdr stdParams
  let hdr ← putHdr hdr [0]
  let hdr ← files.foldlM (fun hdr f => do
    let hdr ← putHdr hdr (f.name.bytes ++ [0])
    putHdr hdr [0, 0, 0]) hdr
  putHdr hdr [0]

/-- The bytes that `emit_dwarf` adds to `.debug_line`. -/
def emitDebugLine (as : LineInfo) : Checked Unit Bytes :=
  if as.locs = [] then pure []
  else do
    let s ← buildProgram as.locs
    let hdr ← buildHeader as.files s.prog.size
    return hdr ++ s.prog.bytes

/-! ### The program buffer grows -/

namespace ProgBuf

/-- The capacity has been doubled only when it was needed. -/
def Grown (p : ProgBuf) : Prop :=
  p.size ≤ p.cap ∧ ∃ j : Nat, p.cap = 4096 * 2 ^ j ∧ (j ≠ 0 → p.cap ≤ 2 * (p.size + 8))

@[simp] theorem reserve_bytes (k : Nat) (p : ProgBuf) : (p.reserve k).bytes = p.bytes := by
  unfold reserve
  split <;> rfl

@[simp] theorem reserve_size (k : Nat) (p : ProgBuf) : (p.reserve k).size = p.size := by
  simp [size]

@[simp] theorem size_append (p : ProgBuf) (bs : Bytes) :
    size { p with bytes := p.bytes ++ bs } = p.size + bs.length := length_append

/-- There is room for more than what is asked for. -/
theorem Grown.reserve {p : ProgBuf} (h : p.Grown) {k : Nat} (hk : k ≤ 8) :
    (p.reserve k).Grown ∧ p.size + k < (p.reserve k).cap := by
  obtain ⟨hsize, j, hcap, hj⟩ := h
  have hpow : 0 < 2 ^ j := Nat.pow_pos (by omega)
  unfold ProgBuf.reserve
  split
  case isTrue hfull =>
    refine ⟨⟨?_, j + 1, ?_, ?_⟩, ?_⟩
    · show p.size ≤ p.cap * 2
      omega
    · show p.cap * 2 = _
      rw [hcap, Nat.pow_succ, Nat.mul_assoc]
    · intro _
      show p.cap * 2 ≤ 2 * (p.size + 8)
      omega
    · show p.size + k < p.cap * 2
      omega
  case isFalse hroom => exact ⟨⟨hsize, j, hcap, hj⟩, by omega⟩

theorem put_ok {p : ProgBuf} (h : p.size < p.cap) (b : UInt8) :
    p.put b = .ok { p with bytes := p.bytes ++ [b] } := if_pos h

/-- Bytes written one after another: they are there when the block holds them, and a fault else. -/
theorem foldlM_put (bs : Bytes) (p : ProgBuf) (h : p.size ≤ p.cap) :
    bs.foldlM put p =
      if p.size + bs.length ≤ p.cap then .ok { p with bytes := p.bytes ++ bs } else .fault := by
  induction bs generalizing p with
  | nil => simp [h]
  | cons b bs ih =>
    rw [foldlM_cons, length_cons]
    by_cases hlt : p.size < p.cap
    · have hsize := size_append p [b]
      have hle : size { p with bytes := p.bytes ++ [b] } ≤ p.cap := by
        rw [hsize]
        exact hlt
      rw [put_ok hlt, ok_bind, ih _ hle, hsize]
      simp [Nat.add_assoc, Nat.add_comm 1]
    · rw [put, if_neg hlt, if_neg (by omega)]
      rfl

/-- An opcode with its operand, where there is room for both. -/
theorem Grown.putOp {p : ProgBuf} (h : p.Grown) (op : UInt8) (v : Nat) :
    p.putOp op v =
      if p.size + 1 + (uleb v).length ≤ (p.reserve 8).cap then
        .ok { p.reserve 8 with bytes := p.bytes ++ op :: uleb v }
      else .fault := by
  have hroom := (h.reserve (le_refl 8)).2
  have hsize := size_append (p.reserve 8) [op]
  rw [reserve_size, length_singleton] at hsize
  rw [ProgBuf.putOp, put_ok (by rw [reserve_size]; omega), ok_bind, foldlM_put, hsize]
  · simp
  · rw [hsize]
    show p.size + 1 ≤ (p.reserve 8).cap
    omega

/-- A longer program in the same block. -/
theorem Grown.extend {p : ProgBuf} (h : p.Grown) {bs : Bytes} (hfit : p.size + bs.length ≤ p.cap) :
    ProgBuf.Grown { p with bytes := p.bytes ++ bs } := by
  obtain ⟨-, j, hcap, hj⟩ := h
  refine ⟨by simpa using hfit, j, hcap, fun h0 => ?_⟩
  have := hj h0
  rw [size_append]
  show p.cap ≤ _
  omega

theorem Grown.putGrown {p : ProgBuf} (h : p.Grown) (b : UInt8) :
    ∃ p' : ProgBuf, p.putGrown b = .ok p' ∧ p'.Grown ∧ p'.bytes = p.bytes ++ [b] := by
  obtain ⟨hgrown, hroom⟩ := h.reserve (show 1 ≤ 8 by omega)
  rw [← reserve_size 1 p] at hroom
  exact ⟨_, put_ok (by omega) b, hgrown.extend hroom.le, by simp⟩

/-- So are more of them. -/
theorem Grown.putGrowns {p : ProgBuf} (h : p.Grown) (bs : Bytes) :
    ∃ p' : ProgBuf, bs.foldlM ProgBuf.putGrown p = .ok p' ∧ p'.Grown ∧
      p'.bytes = p.bytes ++ bs := by
  induction bs generalizing p with
  | nil => exact ⟨p, rfl, h, (append_nil _).symm⟩
  | cons b bs ih =>
    obtain ⟨q, hq, hgrown, hbytes⟩ := h.putGrown b
    obtain ⟨p', hp', hgrown', hbytes'⟩ := ih hgrown
    refine ⟨p', ?_, hgrown', ?_⟩
    · rw [foldlM_cons, hq, ok_bind, hp']
    · rw [hbytes', hbytes, append_assoc, singleton_append]

/-- What an opcode with its operand leaves. -/
theorem Grown.putOp_ok {p p' : ProgBuf} (h : p.Grown) {op : UInt8} {v : Nat}
    (hp : p.putOp op v = .ok p') : p'.Grown ∧ p'.bytes = p.bytes ++ op :: uleb v := by
  rw [h.putOp] at hp
  split at hp
  case isTrue hfit =>
    cases hp
    refine ⟨?_, rfl⟩
    have hfit' : (p.reserve 8).size + (op :: uleb v).length ≤ (p.reserve 8).cap := by
      rw [reserve_size, length_cons]
      omega
    simpa using (h.reserve (le_refl 8)).1.extend hfit'
  case isFalse => exact nomatch hp

theorem Grown.putOp_short {p : ProgBuf} (h : p.Grown) (op : UInt8) {v : Nat}
    (hv : (uleb v).length ≤ 8) : ∃ p' : ProgBuf, p.putOp op v = .ok p' := by
  have hroom := (h.reserve (le_refl 8)).2
  exact ⟨_, by rw [h.putOp, if_pos (by omega)]⟩

end ProgBuf

/-- A buffer that is grown at need does not end 9 or 10 bytes from here. -/
def Roomy (size : Nat) : Prop := ∀ j : Nat, 4096 * 2 ^ j ≠ size + 9 ∧ 4096 * 2 ^ j ≠ size + 10

variable {s : LineState} {prev loc : DwarfLoc} {locs : List DwarfLoc}

/-- An operand of ten bytes fits exactly where the buffer does not end in it. -/
theorem ProgBuf.Grown.putOp_ten {p : ProgBuf} (h : p.Grown) (op : UInt8) {v : Nat}
    (hv : (uleb v).length = 10) : (∃ p' : ProgBuf, p.putOp op v = .ok p') ↔ Roomy p.size := by
  obtain ⟨⟨hsize, j, hcap, hj⟩, hroom⟩ := h.reserve (le_refl 8)
  have hiff : (∃ p' : ProgBuf, p.putOp op v = .ok p') ↔ p.size + 11 ≤ (p.reserve 8).cap := by
    rw [h.putOp, hv]
    split
    case isTrue hfit => exact iff_of_true ⟨_, rfl⟩ hfit
    case isFalse hfit => exact iff_of_false (fun ⟨_, hp⟩ => nomatch hp) hfit
  rw [ProgBuf.reserve_size] at hsize hj
  rw [hiff, hcap]
  rw [hcap] at hsize hroom hj
  constructor
  · intro hfit i
    -- a smaller block was too small before, and a larger one ends beyond
    rcases Nat.lt_trichotomy i j with hlt | rfl | hlt
    · have hle : 2 ^ (i + 1) ≤ 2 ^ j := Nat.pow_le_pow_right (by omega) hlt
      have := hj (by omega)
      rw [Nat.pow_succ] at hle
      omega
    · omega
    · have hle : 2 ^ (j + 1) ≤ 2 ^ i := Nat.pow_le_pow_right (by omega) hlt
      rw [Nat.pow_succ] at hle
      omega
  · intro hroomy
    have := hroomy j
    omega

/-! ### What a row adds to the program -/

/-- The state of the program's registers before the first row. -/
def startLoc : DwarfLoc := { offset := 0, file := 1, line := 1, column := 0 }

/-- The bytes of a row behind another one. -/
def rowBytes (prev loc : DwarfLoc) : Bytes :=
  (if prev.offset < loc.offset then 2 :: uleb (loc.offset - prev.offset).toNat else []) ++
    4 :: uleb (fileOperand loc) ++ 3 :: uleb (lineOperand prev.line.toUInt64 loc) ++
    (if loc.column ≠ 0 then 5 :: uleb loc.column.toNat else []) ++ [1]

/-- The bytes of the rows behind one. -/
def programBytes : DwarfLoc → List DwarfLoc → Bytes
  | _, [] => []
  | prev, loc :: locs => rowBytes prev loc ++ programBytes loc locs

/-- The number of septets of a number. -/
def ulebSize (n : Nat) : Nat := Nat.log 128 n + 1

/-- The size of a row in front of its DW_LNS_advance_line. -/
def lineAt (prev loc : DwarfLoc) : Nat :=
  (if prev.offset < loc.offset then 1 + ulebSize (loc.offset - prev.offset).toNat else 0) +
    (1 + ulebSize (fileOperand loc))

/-- The size of a row. -/
def rowSize (prev loc : DwarfLoc) : Nat :=
  lineAt prev loc + (1 + ulebSize (lineOperand prev.line.toUInt64 loc)) +
    (if loc.column ≠ 0 then 1 + ulebSize loc.column.toNat else 0) + 1

/-- The size of a program. -/
def programSize : DwarfLoc → List DwarfLoc → Nat
  | _, [] => 0
  | prev, loc :: locs => rowSize prev loc + programSize loc locs

/-- No buffer ends in the operand of a line that goes back. -/
def BackRoomy : Nat → DwarfLoc → List DwarfLoc → Prop
  | _, _, [] => True
  | size, prev, loc :: locs =>
    (loc.line < prev.line → Roomy (size + lineAt prev loc)) ∧
      BackRoomy (size + rowSize prev loc) loc locs

theorem length_uleb_eq (n : Nat) : (uleb n).length = ulebSize n := length_uleb n

theorem length_rowBytes (prev loc : DwarfLoc) : (rowBytes prev loc).length = rowSize prev loc := by
  unfold rowBytes rowSize lineAt
  split <;> split <;>
    simp only [length_append, length_cons, length_nil, length_uleb_eq] <;> omega

theorem length_programBytes (prev : DwarfLoc) (locs : List DwarfLoc) :
    (programBytes prev locs).length = programSize prev locs := by
  induction locs generalizing prev with
  | nil => rfl
  | cons loc locs ih =>
    rw [programBytes, programSize, length_append, length_rowBytes, ih]

/-- The state of the program behind a row. -/
structure LineState.Behind (s : LineState) (prev : DwarfLoc) : Prop where
  grown : s.prog.Grown
  offset : s.prev_offset = prev.offset
  line : s.prev_line = prev.line.toUInt64

/-- The address always fits. -/
theorem advancePc_ok (h : s.Behind prev) (loc : DwarfLoc) :
    ∃ p : ProgBuf, advancePc s loc = .ok p ∧ p.Grown ∧
      p.bytes = s.prog.bytes ++
        (if prev.offset < loc.offset then 2 :: uleb (loc.offset - prev.offset).toNat else []) := by
  unfold advancePc
  rw [h.offset]
  split
  case isTrue hlt =>
    obtain ⟨hgrown, hroom⟩ := h.grown.reserve (le_refl 8)
    have hfit : (s.prog.reserve 8).size + [(2 : UInt8)].length ≤ (s.prog.reserve 8).cap := by
      rw [ProgBuf.reserve_size, length_singleton]
      omega
    obtain ⟨p, hp, hpg, hpb⟩ :=
      (hgrown.extend hfit).putGrowns (uleb (loc.offset - prev.offset).toNat)
    refine ⟨p, ?_, hpg, ?_⟩
    · rw [ProgBuf.put_ok (by rw [ProgBuf.reserve_size]; omega), ok_bind, hp]
    · rw [hpb]
      simp
  case isFalse => exact ⟨s.prog, rfl, h.grown, (append_nil _).symm⟩

/-- So does the column. -/
theorem setColumn_ok {p : ProgBuf} (h : p.Grown) (loc : DwarfLoc) :
    ∃ q : ProgBuf, setColumn p loc = .ok q ∧ q.Grown ∧
      q.bytes = p.bytes ++ (if loc.column ≠ 0 then 5 :: uleb loc.column.toNat else []) := by
  unfold setColumn
  split
  case isTrue =>
    have hsize : (uleb loc.column.toNat).length ≤ 8 :=
      length_uleb_le (by omega) (lt_trans loc.column.toNat_lt (by decide))
    obtain ⟨q, hq⟩ := h.putOp_short 5 hsize
    exact ⟨q, hq, h.putOp_ok hq⟩
  case isFalse => exact ⟨p, rfl, h, (append_nil _).symm⟩

/-- What a row leaves. -/
theorem emitLoc_ok {s' : LineState} (h : s.Behind prev) (hs : emitLoc s loc = .ok s') :
    s'.Behind loc ∧ s'.prog.bytes = s.prog.bytes ++ rowBytes prev loc := by
  obtain ⟨p₁, hp₁, hg₁, hb₁⟩ := advancePc_ok h loc
  unfold emitLoc at hs
  rw [hp₁, ok_bind] at hs
  obtain ⟨p₂, hp₂, hs⟩ := bind_eq_ok hs
  obtain ⟨p₃, hp₃, hs⟩ := bind_eq_ok hs
  obtain ⟨hg₂, hb₂⟩ := hg₁.putOp_ok hp₂
  obtain ⟨hg₃, hb₃⟩ := hg₂.putOp_ok hp₃
  obtain ⟨p₄, hp₄, hg₄, hb₄⟩ := setColumn_ok hg₃ loc
  obtain ⟨p₅, hp₅, hg₅, hb₅⟩ := hg₄.putGrown 1
  rw [hp₄, ok_bind, hp₅, ok_bind] at hs
  cases hs
  refine ⟨⟨hg₅, rfl, rfl⟩, ?_⟩
  simp only [hb₅, hb₄, hb₃, hb₂, hb₁, h.line, rowBytes, append_assoc]

/-- The operand of a line that does not go back. -/
theorem lineOperand_forward (h : ¬loc.line < prev.line) :
    lineOperand prev.line.toUInt64 loc = loc.line.toNat - prev.line.toNat := by
  have hlt := loc.line.toNat_lt
  rw [UInt32.lt_iff_toNat_lt] at h
  unfold lineOperand
  rw [UInt64.toNat_sub, UInt32.toNat_toUInt64, UInt32.toNat_toUInt64]
  omega

/-- The operand of a line that goes back. -/
theorem lineOperand_back (h : loc.line < prev.line) :
    lineOperand prev.line.toUInt64 loc = 2 ^ 64 - (prev.line.toNat - loc.line.toNat) := by
  have hlt := prev.line.toNat_lt
  rw [UInt32.lt_iff_toNat_lt] at h
  unfold lineOperand
  rw [UInt64.toNat_sub, UInt32.toNat_toUInt64, UInt32.toNat_toUInt64]
  omega

theorem fileOperand_eq (h : 0 ≤ loc.file.toInt) :
    (fileOperand loc : Int) = loc.file.toInt ∧ fileOperand loc < 2 ^ 31 := by
  have hlt := loc.file.toInt_lt
  unfold fileOperand
  omega

/-- There is room for a row exactly when its line does not go back in front of the buffer's end. -/
theorem emitLoc_exists (h : s.Behind prev) (hfile : 0 ≤ loc.file.toInt) :
    (∃ s' : LineState, emitLoc s loc = .ok s') ↔
      (loc.line < prev.line → Roomy (s.prog.size + lineAt prev loc)) := by
  obtain ⟨p₁, hp₁, hg₁, hb₁⟩ := advancePc_ok h loc
  have hfit : (uleb (fileOperand loc)).length ≤ 8 :=
    length_uleb_le (by omega) (lt_trans (fileOperand_eq hfile).2 (by decide))
  obtain ⟨p₂, hp₂⟩ := hg₁.putOp_short 4 hfit
  obtain ⟨hg₂, hb₂⟩ := hg₁.putOp_ok hp₂
  have hsize : p₂.size = s.prog.size + lineAt prev loc := by
    unfold ProgBuf.size lineAt
    rw [hb₂, hb₁]
    split <;> simp only [length_append, length_cons, length_nil, length_uleb_eq] <;>
      omega
  -- only the operand of the line may be too long
  have hiff : (∃ s' : LineState, emitLoc s loc = .ok s') ↔
      ∃ p : ProgBuf, p₂.putOp 3 (lineOperand prev.line.toUInt64 loc) = .ok p := by
    unfold emitLoc
    rw [hp₁, ok_bind, hp₂, ok_bind, h.line]
    constructor
    · rintro ⟨s', hs⟩
      obtain ⟨p₃, hp₃, -⟩ := bind_eq_ok hs
      exact ⟨p₃, hp₃⟩
    · rintro ⟨p₃, hp₃⟩
      obtain ⟨p₄, hp₄, hg₄, -⟩ := setColumn_ok (hg₂.putOp_ok hp₃).1 loc
      obtain ⟨p₅, hp₅, -⟩ := hg₄.putGrown 1
      exact ⟨_, by rw [hp₃, ok_bind, hp₄, ok_bind, hp₅, ok_bind]; rfl⟩
  rw [hiff, ← hsize]
  by_cases hback : loc.line < prev.line
  · have hlen : (uleb (lineOperand prev.line.toUInt64 loc)).length = 10 := by
      have hlt := prev.line.toNat_lt
      have hpos := UInt32.lt_iff_toNat_lt.mp hback
      rw [lineOperand_back hback]
      have hle := length_uleb_le (k := 10) (n := 2 ^ 64 - (prev.line.toNat - loc.line.toNat))
        (by omega) (by omega)
      have hge := lt_length_uleb (k := 9) (n := 2 ^ 64 - (prev.line.toNat - loc.line.toNat))
        (by omega)
      omega
    rw [hg₂.putOp_ten 3 hlen]
    exact ⟨fun hroom _ => hroom, fun hroom => hroom hback⟩
  · refine iff_of_true (hg₂.putOp_short 3 (length_uleb_le (by omega) ?_)) fun hb => absurd hb hback
    have hlt := loc.line.toNat_lt
    rw [lineOperand_forward hback]
    omega

/-- What the rows leave. -/
theorem emitLocs_ok {s' : LineState} (h : s.Behind prev) (hs : locs.foldlM emitLoc s = .ok s') :
    s'.prog.bytes = s.prog.bytes ++ programBytes prev locs := by
  induction locs generalizing s prev with
  | nil =>
    cases hs
    exact (append_nil _).symm
  | cons loc locs ih =>
    rw [foldlM_cons] at hs
    obtain ⟨s₁, hs₁, hs⟩ := bind_eq_ok hs
    obtain ⟨hbehind, hbytes⟩ := emitLoc_ok h hs₁
    rw [ih hbehind hs, hbytes, programBytes, append_assoc]

/-- There is room for the rows exactly when there is for each. -/
theorem emitLocs_exists (h : s.Behind prev) (hfiles : ∀ loc ∈ locs, 0 ≤ loc.file.toInt) :
    (∃ s' : LineState, locs.foldlM emitLoc s = .ok s') ↔
      BackRoomy s.prog.size prev locs := by
  induction locs generalizing s prev with
  | nil => exact iff_of_true ⟨s, rfl⟩ trivial
  | cons loc locs ih =>
    have hrow := emitLoc_exists h (hfiles loc mem_cons_self)
    rw [foldlM_cons, BackRoomy, ← hrow]
    constructor
    · rintro ⟨s', hs⟩
      obtain ⟨s₁, hs₁, hs⟩ := bind_eq_ok hs
      obtain ⟨hbehind, hbytes⟩ := emitLoc_ok h hs₁
      have hrest := (ih hbehind fun l hl => hfiles l (mem_cons_of_mem _ hl)).mp ⟨s', hs⟩
      rw [ProgBuf.size, hbytes, length_append, length_rowBytes] at hrest
      exact ⟨⟨s₁, hs₁⟩, hrest⟩
    · rintro ⟨⟨s₁, hs₁⟩, hrest⟩
      obtain ⟨hbehind, hbytes⟩ := emitLoc_ok h hs₁
      have hiff := ih hbehind fun l hl => hfiles l (mem_cons_of_mem _ hl)
      rw [ProgBuf.size, hbytes, length_append, length_rowBytes] at hiff
      obtain ⟨s', hs⟩ := hiff.mpr hrest
      exact ⟨s', by rw [hs₁, ok_bind, hs]⟩

theorem start_behind : LineState.Behind
    { prog := { bytes := [], cap := 4096 }, prev_offset := 0, prev_line := 1 } startLoc :=
  ⟨⟨by decide, 0, rfl, fun h => absurd rfl h⟩, rfl, rfl⟩

theorem buildProgram_ok (h : buildProgram locs = .ok s) :
    s.prog.bytes = programBytes startLoc locs := emitLocs_ok start_behind h

theorem buildProgram_exists (h : ∀ loc ∈ locs, 0 ≤ loc.file.toInt) :
    (∃ s : LineState, buildProgram locs = .ok s) ↔ BackRoomy 0 startLoc locs :=
  emitLocs_exists start_behind h

/-! ### The header is written -/

/-- The entry of a file in the header. -/
def fileEntry (f : DwarfFile) : Bytes := f.name.bytes ++ [0] ++ [0, 0, 0]

/-- The bytes of the header. -/
def headerBytes (files : List DwarfFile) (prog_size : Nat) : Bytes :=
  leBytes 4 (2 + 4 + headerLength files + prog_size) ++ [2, 0] ++ leBytes 4 (headerLength files) ++
    stdParams ++ [0] ++ files.flatMap fileEntry ++ [0]

/-- What the names of the files take up. -/
def namesSize (files : List DwarfFile) : Nat :=
  (files.map fun f => f.name.bytes.length + 4).sum

theorem headerLength_eq (files : List DwarfFile) : headerLength files = 19 + namesSize files := by
  have hfold : ∀ n : Nat,
      files.foldl (fun n f => n + (f.name.bytes.length + 1) + (1 + 1 + 1)) n =
        n + namesSize files := by
    unfold namesSize
    induction files with
    | nil => exact fun n => rfl
    | cons f files ih =>
      intro n
      rw [foldl_cons, ih, map_cons, sum_cons]
      omega
  rw [headerLength, hfold]
  omega

theorem length_fileEntries (files : List DwarfFile) :
    (files.flatMap fileEntry).length = namesSize files := by
  rw [length_flatMap, namesSize]
  simp [fileEntry]

theorem length_headerBytes (files : List DwarfFile) (prog_size : Nat) :
    (headerBytes files prog_size).length = 29 + namesSize files := by
  simp only [headerBytes, stdParams, length_append, length_leBytes, length_fileEntries,
    length_cons, length_nil]
  omega

/-- Two writes are one. -/
theorem putHdr_putHdr (hdr bs bs' : Bytes) :
    (putHdr hdr bs >>= fun hdr => putHdr hdr bs') = putHdr hdr (bs ++ bs') := by
  unfold putHdr
  by_cases hfit : hdr.length + bs.length ≤ HDR_SIZE
  · rw [if_pos hfit, ok_bind, length_append, length_append, append_assoc,
      Nat.add_assoc]
  · rw [if_neg hfit, if_neg (by rw [length_append]; omega)]
    rfl

theorem putHdr_bind {α : Type} (hdr bs bs' : Bytes) (k : Bytes → Checked Unit α) :
    (putHdr hdr bs >>= fun hdr => putHdr hdr bs' >>= k) = putHdr hdr (bs ++ bs') >>= k := by
  rw [← putHdr_putHdr, bind_assoc]

/-- The writes of the entries are one. -/
theorem putHdr_entries (files : List DwarfFile) (hdr bs : Bytes) :
    (putHdr hdr bs >>= fun hdr => files.foldlM (fun hdr f => do
      let hdr ← putHdr hdr (f.name.bytes ++ [0])
      putHdr hdr [0, 0, 0]) hdr) = putHdr hdr (bs ++ files.flatMap fileEntry) := by
  induction files generalizing bs with
  | nil => simp only [foldlM_nil, bind_pure, flatMap_nil, append_nil]
  | cons f files ih =>
    simp only [foldlM_cons, bind_assoc]
    rw [putHdr_bind, putHdr_bind, ih, flatMap_cons, fileEntry]
    simp only [append_assoc]

/-- The header is written exactly when its buffer holds it. -/
theorem buildHeader_eq (files : List DwarfFile) (prog_size : Nat) :
    buildHeader files prog_size =
      if 29 + namesSize files ≤ HDR_SIZE then .ok (headerBytes files prog_size) else .fault := by
  have hput : buildHeader files prog_size = putHdr [] (headerBytes files prog_size) := by
    unfold buildHeader headerBytes
    rw [putHdr_bind, putHdr_bind, putHdr_bind, putHdr_bind, ← bind_assoc, putHdr_entries,
      putHdr_putHdr]
  rw [hput, putHdr, length_nil, Nat.zero_add, length_headerBytes, nil_append]

end MeuOS.As
