import MeuOS.Lib.CheckedBytes
import MeuOS.Ar.ElfSymbols

namespace MeuOS.Elf

open MeuOS.Lib MeuOS.Ar Lib.Checked

/-!
# The accesses of the ELF reader (`elf.c`)

The whole reader with its reads checked: a read outside the bytes of the file, or a division by
zero, is a fault.

* `parse`, `getSection`, `getPhdr`, `getSymbol`, `getRela`, `getString`, `findSection` — the
  reader's functions;
* `ElfCall`, `headers` — sequences of calls, and the section headers they have handed out;
* `getSymbol_safe_iff` — when looking up a symbol keeps to its table;
* `reader_safe_iff` — a sequence of calls is safe exactly when its lookups in tables with small
  entries are.
-/

/-! ### Files and headers -/

/-- A file in memory. -/
structure Image where
  bytes : Bytes
  size_lt : bytes.length < 2 ^ 64

/-- `struct mt_elf64_view`. -/
structure ElfView where
  type : Nat
  machine : Nat
  version : Nat
  entry : Nat
  program_offset : Nat
  section_offset : Nat
  flags : Nat
  header_size : Nat
  program_entry_size : Nat
  program_count : Nat
  section_entry_size : Nat
  section_count : Nat
  section_name_index : Nat
  deriving DecidableEq

/-- `struct mt_elf64_section`. -/
structure ElfSection where
  name : Nat
  type : Nat
  flags : Nat
  address : Nat
  offset : Nat
  size : Nat
  link : Nat
  info : Nat
  alignment : Nat
  entry_size : Nat
  deriving DecidableEq

/-- `struct mt_elf64_symbol`. -/
structure ElfSymbol where
  name : Nat
  info : Nat
  other : Nat
  shndx : Nat
  value : Nat
  size : Nat
  deriving DecidableEq

/-- `struct mt_elf64_phdr`. -/
structure ElfPhdr where
  type : Nat
  flags : Nat
  offset : Nat
  vaddr : Nat
  paddr : Nat
  filesz : Nat
  memsz : Nat
  align : Nat
  deriving DecidableEq

/-- `struct mt_elf64_rela`; the addend is kept as the 64 bits stored. -/
structure ElfRela where
  offset : Nat
  info : Nat
  addend : Nat
  deriving DecidableEq

def MT_SHT_RELA : Nat := 4
def MT_SHT_REL : Nat := 9

/-- A run of the reader: it returns a value, a status other than `MT_ELF_OK`, or faults. -/
abbrev Read := Checked ElfStatus

/-- `UINT64_MAX / n`. -/
def maxIndex (n : Nat) : Read Nat := if n = 0 then .fault else .ok ((2 ^ 64 - 1) / n)

/-! ### The file header -/

/-- The checks of the two tables that the header names, and the fields of the view. -/
def readHeader (p : Image) (is_elf32 : Bool) : Read ElfView := do
  let word := if is_elf32 then 4 else 8
  let tables := if is_elf32 then 28 else 32
  let sizes := if is_elf32 then 40 else 52
  let phoff ← leAt p.bytes tables word
  let shoff ← leAt p.bytes (tables + word) word
  let ehsize ← leAt p.bytes sizes 2
  let phentsize ← leAt p.bytes (sizes + 2) 2
  let phnum ← leAt p.bytes (sizes + 4) 2
  let shentsize ← leAt p.bytes (sizes + 6) 2
  let shnum ← leAt p.bytes (sizes + 8) 2
  if ehsize < (if is_elf32 then 52 else 64) ∨
      (phnum ≠ 0 ∧ phentsize < if is_elf32 then 32 else 56) ∨
      (shnum ≠ 0 ∧ shentsize < if is_elf32 then 40 else 64) ∨
      tableValid phoff phentsize phnum p.bytes.length = false ∨
      tableValid shoff shentsize shnum p.bytes.length = false then .fail .layout
  else do
    let type ← leAt p.bytes 16 2
    let machine ← leAt p.bytes 18 2
    let version ← leAt p.bytes 20 4
    let entry ← leAt p.bytes 24 word
    let flags ← leAt p.bytes (tables + word + word) 4
    let shstrndx ← leAt p.bytes (sizes + 10) 2
    return { type := type, machine := machine, version := version, entry := entry
             program_offset := phoff, section_offset := shoff, flags := flags
             header_size := ehsize, program_entry_size := phentsize, program_count := phnum
             section_entry_size := shentsize, section_count := shnum
             section_name_index := shstrndx }

/-- `mt_elf64_parse`. -/
def parse (p : Image) : Read ElfView :=
  if p.bytes.length < 64 then .fail .truncated
  else do
    let magic ← readAt p.bytes 0 4
    if magic ≠ [0x7f, 0x45, 0x4c, 0x46] then .fail .magic
    else do
      let elfClass ← leAt p.bytes 4 1
      if elfClass ≠ 1 ∧ elfClass ≠ 2 then .fail .elfClass
      else do
        let encoding ← leAt p.bytes 5 1
        if encoding ≠ 1 then .fail .encoding
        else do
          let ident ← leAt p.bytes 6 1
          let version ← leAt p.bytes 20 4
          if ident ≠ 1 ∨ version ≠ 1 then .fail .version
          else readHeader p (elfClass = 1)

/-! ### Section and program headers -/

/-- The fields of a section header of 32 bits. -/
def readSection32 (p : Image) (off : Nat) : Read ElfSection := do
  let name ← leAt p.bytes off 4
  let type ← leAt p.bytes (off + 4) 4
  let flags ← leAt p.bytes (off + 8) 4
  let address ← leAt p.bytes (off + 12) 4
  let offset ← leAt p.bytes (off + 16) 4
  let size ← leAt p.bytes (off + 20) 4
  let link ← leAt p.bytes (off + 24) 4
  let info ← leAt p.bytes (off + 28) 4
  let alignment ← leAt p.bytes (off + 32) 4
  let entry_size ← leAt p.bytes (off + 36) 4
  return ⟨name, type, flags, address, offset, size, link, info, alignment, entry_size⟩

/-- The fields of a section header of 64 bits. -/
def readSection64 (p : Image) (off : Nat) : Read ElfSection := do
  let name ← leAt p.bytes off 4
  let type ← leAt p.bytes (off + 4) 4
  let flags ← leAt p.bytes (off + 8) 8
  let address ← leAt p.bytes (off + 16) 8
  let offset ← leAt p.bytes (off + 24) 8
  let size ← leAt p.bytes (off + 32) 8
  let link ← leAt p.bytes (off + 40) 4
  let info ← leAt p.bytes (off + 44) 4
  let alignment ← leAt p.bytes (off + 48) 8
  let entry_size ← leAt p.bytes (off + 56) 8
  return ⟨name, type, flags, address, offset, size, link, info, alignment, entry_size⟩

/-- `mt_elf64_get_section`; a header of 40 bytes or less is one of 32 bits. -/
def getSection (p : Image) (view : ElfView) (index : Nat) : Read ElfSection :=
  if index ≥ view.section_count then .fail .layout
  else
    let is_elf32 := view.section_entry_size ≤ 40
    if ¬is_elf32 ∧ view.section_entry_size < 64 then .fail .layout
    else do
      let limit ← maxIndex view.section_entry_size
      if index > limit then .fail .layout
      else
        let offset := (view.section_offset + index * view.section_entry_size) % 2 ^ 64
        if offset < view.section_offset ∨
            rangeValid offset (if is_elf32 then 40 else 64) p.bytes.length = false then
          .fail .layout
        else do
          let s ← if is_elf32 then readSection32 p offset else readSection64 p offset
          if s.type ≠ MT_SHT_NOBITS ∧ rangeValid s.offset s.size p.bytes.length = false then
            .fail .layout
          else return s

/-- The fields of a program header. -/
def readPhdr (p : Image) (off : Nat) : Read ElfPhdr := do
  let type ← leAt p.bytes off 4
  let flags ← leAt p.bytes (off + 4) 4
  let offset ← leAt p.bytes (off + 8) 8
  let vaddr ← leAt p.bytes (off + 16) 8
  let paddr ← leAt p.bytes (off + 24) 8
  let filesz ← leAt p.bytes (off + 32) 8
  let memsz ← leAt p.bytes (off + 40) 8
  let align ← leAt p.bytes (off + 48) 8
  return ⟨type, flags, offset, vaddr, paddr, filesz, memsz, align⟩

/-- `mt_elf64_get_phdr`. -/
def getPhdr (p : Image) (view : ElfView) (index : Nat) : Read ElfPhdr :=
  if index ≥ view.program_count then .fail .layout
  else if view.program_entry_size < 56 then .fail .layout
  else do
    let limit ← maxIndex view.program_entry_size
    if index > limit then .fail .layout
    else
      let offset := (view.program_offset + index * view.program_entry_size) % 2 ^ 64
      if offset < view.program_offset ∨ rangeValid offset 56 p.bytes.length = false then
        .fail .layout
      else readPhdr p offset

/-! ### Entries of tables -/

/-- The bytes of an entry of a symbol table: an entry of 16 bytes or less is one of 32 bits. -/
def symbolWidth (table : ElfSection) : Nat := if table.entry_size ≤ 16 then 16 else 24

/-- The fields of a symbol of 32 bits. -/
def readSymbol32 (p : Image) (off : Nat) : Read ElfSymbol := do
  let name ← leAt p.bytes off 4
  let value ← leAt p.bytes (off + 4) 4
  let size ← leAt p.bytes (off + 8) 4
  let info ← leAt p.bytes (off + 12) 1
  let other ← leAt p.bytes (off + 13) 1
  let shndx ← leAt p.bytes (off + 14) 2
  return ⟨name, info, other, shndx, value, size⟩

/-- The fields of a symbol of 64 bits. -/
def readSymbol64 (p : Image) (off : Nat) : Read ElfSymbol := do
  let name ← leAt p.bytes off 4
  let info ← leAt p.bytes (off + 4) 1
  let other ← leAt p.bytes (off + 5) 1
  let shndx ← leAt p.bytes (off + 6) 2
  let value ← leAt p.bytes (off + 8) 8
  let size ← leAt p.bytes (off + 16) 8
  return ⟨name, info, other, shndx, value, size⟩

/-- `mt_elf64_get_symbol`. -/
def getSymbol (p : Image) (table : ElfSection) (index : Nat) : Read ElfSymbol :=
  if table.type ≠ MT_SHT_SYMTAB ∧ table.type ≠ MT_SHT_DYNSYM then .fail .argument
  else
    let is_elf32 := table.entry_size ≤ 16
    if ¬is_elf32 ∧ (table.entry_size < 24 ∨ table.size % table.entry_size ≠ 0 ∨
        index ≥ table.size / table.entry_size) then .fail .layout
    else do
      let limit ← maxIndex table.entry_size
      if index > limit then .fail .layout
      else
        let offset := (table.offset + index * table.entry_size) % 2 ^ 64
        if offset < table.offset ∨ rangeValid offset (symbolWidth table) p.bytes.length = false then
          .fail .layout
        else if is_elf32 then readSymbol32 p offset
        else readSymbol64 p offset

/-- The bytes of a relocation, with its addend or without. -/
def relaWidth (table : ElfSection) : Nat := if table.type = MT_SHT_RELA then 24 else 16

/-- `mt_elf64_get_rela`. -/
def getRela (p : Image) (table : ElfSection) (index : Nat) : Read ElfRela :=
  if table.type ≠ MT_SHT_RELA ∧ table.type ≠ MT_SHT_REL then .fail .argument
  else
    let entry_size := relaWidth table
    if table.entry_size ≠ 0 ∧ table.entry_size < entry_size then .fail .layout
    else if table.size % entry_size ≠ 0 ∨ index ≥ table.size / entry_size then .fail .layout
    else do
      let limit ← maxIndex entry_size
      if index > limit then .fail .layout
      else
        let offset := (table.offset + index * entry_size) % 2 ^ 64
        if offset < table.offset ∨ rangeValid offset entry_size p.bytes.length = false then
          .fail .layout
        else do
          let off ← leAt p.bytes offset 8
          let info ← leAt p.bytes (offset + 8) 8
          let addend ← if table.type = MT_SHT_RELA then leAt p.bytes (offset + 16) 8 else .ok 0
          return ⟨off, info, addend⟩

/-! ### Strings -/

/-- `mt_elf64_get_string`: the string at an offset of a string table, up to a zero inside it. -/
def getString (p : Image) (strings : ElfSection) (offset : Nat) : Read CString :=
  if strings.type ≠ MT_SHT_STRTAB ∨ offset ≥ strings.size ∨
      rangeValid strings.offset strings.size p.bytes.length = false then .fail .layout
  else do
    let text ← readAt p.bytes (strings.offset + offset) (strings.size - offset)
    if 0 ∈ text then return cstring text else .fail .layout

/-- The loop of `mt_elf64_find_section` over the sections given. -/
def findLoop (p : Image) (view : ElfView) (shstrtab : ElfSection) (name : CString) :
    List Nat → Read ElfSection
  | [] => .fail .layout
  | i :: is => do
      let cur ← getSection p view i
      let sname ← getString p shstrtab cur.name
      if sname = name then return cur else findLoop p view shstrtab name is

/-- `mt_elf64_find_section`. -/
def findSection (p : Image) (view : ElfView) (name : CString) : Read ElfSection :=
  if view.section_name_index ≥ view.section_count then .fail .layout
  else do
    let shstrtab ← getSection p view view.section_name_index
    if shstrtab.type ≠ MT_SHT_STRTAB then .fail .layout
    else findLoop p view shstrtab name (List.range view.section_count)

/-! ### Sequences of calls -/

/-- A call of the reader; a section header is given by the place it has among those handed out. -/
inductive ElfCall where
  | getSection (index : Nat)
  | getPhdr (index : Nat)
  | getSymbol (table index : Nat)
  | getRela (table index : Nat)
  | getString (strings offset : Nat)
  | findSection (name : CString)

/-- What a call returns. -/
inductive ElfResult where
  | header (s : ElfSection)
  | phdr (h : ElfPhdr)
  | symbol (s : ElfSymbol)
  | rela (r : ElfRela)
  | string (s : CString)

/-- The outcome of a call, where the headers given have been handed out before; a call with a
    header that has not cannot be made. -/
def ElfCall.run (p : Image) (view : ElfView) (got : List ElfSection) : ElfCall → Read ElfResult
  | .getSection index => .header <$> Elf.getSection p view index
  | .getPhdr index => .phdr <$> Elf.getPhdr p view index
  | .getSymbol table index =>
    match got[table]? with
    | some table => .symbol <$> Elf.getSymbol p table index
    | none => .fail .argument
  | .getRela table index =>
    match got[table]? with
    | some table => .rela <$> Elf.getRela p table index
    | none => .fail .argument
  | .getString strings offset =>
    match got[strings]? with
    | some strings => .string <$> Elf.getString p strings offset
    | none => .fail .argument
  | .findSection name => .header <$> Elf.findSection p view name

/-- The headers handed out after one more call. -/
def ElfCall.headers (p : Image) (view : ElfView) (got : List ElfSection) (c : ElfCall) :
    List ElfSection :=
  match c.run p view got with
  | .ok (.header s) => got ++ [s]
  | _ => got

/-- The headers that a sequence of calls has handed out. -/
def headers (p : Image) (view : ElfView) (calls : List ElfCall) : List ElfSection :=
  calls.foldl (ElfCall.headers p view) []

/-! ### Accesses that are inside -/

variable {n index off : Nat} {p : Image} {view : ElfView} {α β : Type}

theorem maxIndex_pos (h : n ≠ 0) : maxIndex n = .ok ((2 ^ 64 - 1) / n) := if_neg h

theorem mul_lt_of_le_maxIndex (hn : n ≠ 0) (h : ¬index > (2 ^ 64 - 1) / n) :
    index * n < 2 ^ 64 := by
  have hle := (Nat.le_div_iff_mul_le (Nat.pos_of_ne_zero hn)).mp (Nat.le_of_not_lt h)
  omega

/-- The check of an entry's place refuses exactly those that leave the file, wrapping sums
    included. -/
theorem place_refused {base n w size : Nat} (hsize : size < 2 ^ 64) (hn : n < 2 ^ 64) :
    ((base + n) % 2 ^ 64 < base ∨ rangeValid ((base + n) % 2 ^ 64) w size = false) ↔
      size < base + n + w := by
  rw [Bool.eq_false_iff, Ne, rangeValid_iff]
  omega

theorem place_eq {base w size : Nat} (hsize : size < 2 ^ 64) (h : base + n + w ≤ size) :
    (base + n) % 2 ^ 64 = base + n := Nat.mod_eq_of_lt (by omega)

theorem readSection32_ok (h : off + 40 ≤ p.bytes.length) :
    ∃ s, readSection32 p off = .ok s := by
  unfold readSection32
  simp (disch := omega) only [leAt_inside, ok_bind, pure_eq]
  exact ⟨_, rfl⟩

theorem readSection64_ok (h : off + 64 ≤ p.bytes.length) :
    ∃ s, readSection64 p off = .ok s := by
  unfold readSection64
  simp (disch := omega) only [leAt_inside, ok_bind, pure_eq]
  exact ⟨_, rfl⟩

theorem readPhdr_ok (h : off + 56 ≤ p.bytes.length) :
    ∃ s, readPhdr p off = .ok s := by
  unfold readPhdr
  simp (disch := omega) only [leAt_inside, ok_bind, pure_eq]
  exact ⟨_, rfl⟩

theorem readSymbol32_ok (h : off + 16 ≤ p.bytes.length) :
    ∃ s, readSymbol32 p off = .ok s := by
  unfold readSymbol32
  simp (disch := omega) only [leAt_inside, ok_bind, pure_eq]
  exact ⟨_, rfl⟩

theorem readSymbol64_ok (h : off + 24 ≤ p.bytes.length) :
    ∃ s, readSymbol64 p off = .ok s := by
  unfold readSymbol64
  simp (disch := omega) only [leAt_inside, ok_bind, pure_eq]
  exact ⟨_, rfl⟩

/-! ### What `mt_elf64_parse` accepts -/

/-- If there are sections, their headers have a size. -/
def ElfView.Sized (view : ElfView) : Prop := view.section_count ≠ 0 → view.section_entry_size ≠ 0

theorem readHeader_sat (hlen : 64 ≤ p.bytes.length) (is_elf32 : Bool) :
    (readHeader p is_elf32).Sat ElfView.Sized := by
  cases is_elf32 with
  | true =>
    unfold readHeader
    simp (disch := omega) only [leAt_inside, ok_bind, pure_eq, if_true]
    split
    · trivial
    next hchecks =>
      simp only [not_or, not_and] at hchecks
      intro hcount hzero
      exact hchecks.2.2.1 hcount (hzero.trans_lt (by decide))
  | false =>
    unfold readHeader
    simp (disch := omega) only [leAt_inside, ok_bind, pure_eq,
      Bool.false_eq_true, if_false]
    split
    · trivial
    next hchecks =>
      simp only [not_or, not_and] at hchecks
      intro hcount hzero
      exact hchecks.2.2.1 hcount (hzero.trans_lt (by decide))

/-- `mt_elf64_parse` reads inside the file. -/
theorem parse_sat (p : Image) : (parse p).Sat ElfView.Sized := by
  unfold parse
  split
  · trivial
  next hlen =>
    simp (disch := omega) only [readAt_inside, leAt_inside, ok_bind]
    -- Magic, class, encoding and versions, and then the header of the class.
    split
    · trivial
    · split
      · trivial
      · split
        · trivial
        · split
          · trivial
          · exact readHeader_sat (Nat.le_of_not_lt hlen) _

/-! ### One call -/

/-- The header's section has no bytes or lies in the file. -/
def ElfSection.Fits (p : Image) (s : ElfSection) : Prop :=
  s.type = MT_SHT_NOBITS ∨ s.offset + s.size ≤ p.bytes.length

/-- A section header of either width, once its place is computed. -/
theorem sectionAt_sat {base w : Nat} (hn : n < 2 ^ 64) {read : Image → Nat → Read ElfSection}
    (hread : ∀ off, off + w ≤ p.bytes.length → ∃ s, read p off = .ok s) :
    (if (base + n) % 2 ^ 64 < base ∨
        rangeValid ((base + n) % 2 ^ 64) w p.bytes.length = false then
      (.fail .layout : Read ElfSection)
    else read p ((base + n) % 2 ^ 64) >>= fun s =>
      if s.type ≠ MT_SHT_NOBITS ∧ rangeValid s.offset s.size p.bytes.length = false then
        .fail .layout
      else return s).Sat (ElfSection.Fits p) := by
  split
  · trivial
  next hplace =>
    rw [place_refused p.size_lt hn] at hplace
    rw [place_eq p.size_lt (Nat.le_of_not_lt hplace)]
    obtain ⟨s, hs⟩ := hread (base + n) (Nat.le_of_not_lt hplace)
    rw [hs, ok_bind]
    split
    · trivial
    next hrange =>
      rw [not_and, Bool.not_eq_false, rangeValid_iff] at hrange
      by_cases hnobits : s.type = MT_SHT_NOBITS
      · exact Or.inl hnobits
      · exact Or.inr (hrange hnobits)

/-- Section headers are read inside the file, and their sections lie there. -/
theorem getSection_sat (hview : view.Sized) (index : Nat) :
    (getSection p view index).Sat (ElfSection.Fits p) := by
  unfold getSection
  split
  · trivial
  next hindex =>
    have hsize : view.section_entry_size ≠ 0 := hview (by omega)
    dsimp only
    split
    · trivial
    · rw [maxIndex_pos hsize, ok_bind]
      split
      · trivial
      next hlimit =>
        have hmul := mul_lt_of_le_maxIndex hsize hlimit
        by_cases h32 : view.section_entry_size ≤ 40
        · simp only [h32, if_true]
          exact sectionAt_sat hmul fun off hoff => readSection32_ok hoff
        · simp only [h32, if_false]
          exact sectionAt_sat hmul fun off hoff => readSection64_ok hoff

/-- Program headers are read inside the file. -/
theorem getPhdr_sat (p : Image) (view : ElfView) (index : Nat) :
    (getPhdr p view index).Sat fun _ => True := by
  unfold getPhdr
  split
  · trivial
  · split
    · trivial
    next hsize =>
      have hne : view.program_entry_size ≠ 0 := by omega
      rw [maxIndex_pos hne, ok_bind]
      split
      · trivial
      next hlimit =>
        dsimp only
        split
        · trivial
        next hplace =>
          rw [place_refused p.size_lt (mul_lt_of_le_maxIndex hne hlimit)] at hplace
          rw [place_eq p.size_lt (Nat.le_of_not_lt hplace)]
          obtain ⟨h, hh⟩ := readPhdr_ok (Nat.le_of_not_lt hplace)
          rw [hh]
          trivial

theorem entry_inside {size width : Nat} (hwidth : width ≠ 0)
    (h : ¬(size % width ≠ 0 ∨ index ≥ size / width)) : index * width + width ≤ size := by
  rw [not_or, not_not] at h
  have hlt : index + 1 ≤ size / width := by omega
  have hle := (Nat.le_div_iff_mul_le (Nat.pos_of_ne_zero hwidth)).mp hlt
  rwa [Nat.succ_mul] at hle

/-- Relocations are read inside the file and inside their table. -/
theorem getRela_sat (p : Image) (table : ElfSection) (index : Nat) :
    (getRela p table index).Sat fun _ =>
      index * relaWidth table + relaWidth table ≤ table.size := by
  have hwidth : relaWidth table ≠ 0 := by
    unfold relaWidth
    split <;> decide
  unfold getRela
  split
  · trivial
  · dsimp only
    split
    · trivial
    · split
      · trivial
      next hindex =>
        have hin := entry_inside hwidth hindex
        rw [maxIndex_pos hwidth, ok_bind]
        split
        · trivial
        next hlimit =>
          split
          · trivial
          next hplace =>
            rw [place_refused p.size_lt (mul_lt_of_le_maxIndex hwidth hlimit)] at hplace
            rw [place_eq p.size_lt (Nat.le_of_not_lt hplace)]
            unfold relaWidth at hplace ⊢
            split
            next hrela =>
              rw [if_pos hrela] at hplace
              simp (disch := omega) only [leAt_inside, ok_bind, pure_eq]
              simpa [relaWidth, hrela] using hin
            next hrel =>
              rw [if_neg hrel] at hplace
              simp (disch := omega) only [leAt_inside, ok_bind, pure_eq]
              simpa [relaWidth, hrel] using hin

/-- Strings are read inside the file. -/
theorem getString_sat (p : Image) (strings : ElfSection) (offset : Nat) :
    (getString p strings offset).Sat fun _ => True := by
  unfold getString
  split
  · trivial
  next hchecks =>
    rw [not_or, not_or, Bool.not_eq_false, rangeValid_iff] at hchecks
    rw [readAt_inside (by omega), ok_bind]
    split
    · trivial
    · trivial

/-- The loop over the sections reads inside the file. -/
theorem findLoop_sat (hview : view.Sized) (shstrtab : ElfSection) (name : CString) (is : List Nat) :
    (findLoop p view shstrtab name is).Sat (ElfSection.Fits p) := by
  induction is with
  | nil => trivial
  | cons i is ih =>
    unfold findLoop
    apply (getSection_sat hview i).bind
    intro cur hcur
    apply (getString_sat p shstrtab cur.name).bind
    intro sname _
    split
    · exact hcur
    · exact ih

/-- The search for a section reads inside the file. -/
theorem findSection_sat (hview : view.Sized) (name : CString) :
    (findSection p view name).Sat (ElfSection.Fits p) := by
  unfold findSection
  split
  · trivial
  · apply (getSection_sat hview _).bind
    intro shstrtab _
    split
    · trivial
    · exact findLoop_sat hview shstrtab name _

/-! ### Symbols -/

/-- The table is one of symbols. -/
def ElfSection.IsSymbols (s : ElfSection) : Prop := s.type = MT_SHT_SYMTAB ∨ s.type = MT_SHT_DYNSYM

/-- The entry lies inside its table. -/
def SymbolInside (table : ElfSection) (index : Nat) : Prop :=
  index * table.entry_size + symbolWidth table ≤ table.size

/-- Looking up a symbol keeps inside the file, divides by no zero, and gives back only what lies
    inside the table. -/
def SymbolSafe (p : Image) (table : ElfSection) (index : Nat) : Prop :=
  getSymbol p table index ≠ .fault ∧
    ∀ s, getSymbol p table index = .ok s → SymbolInside table index

/-- If the entries of the symbol table are of 16 bytes or less, they have a size, and the 16 bytes
    of the one asked for lie inside the table or beyond the file. -/
def SmallEntryFits (p : Image) (table : ElfSection) (index : Nat) : Prop :=
  table.IsSymbols → table.entry_size ≤ 16 →
    table.entry_size ≠ 0 ∧
      (index * table.entry_size + 16 ≤ table.size ∨
        p.bytes.length < table.offset + index * table.entry_size + 16)

theorem beyond_of_maxIndex (hn : n ≠ 0)
    (h : index > (2 ^ 64 - 1) / n) : p.bytes.length < index * n := by
  have hlt := (Nat.div_lt_iff_lt_mul (Nat.pos_of_ne_zero hn)).mp h
  have hsize := p.size_lt
  omega

/-- An entry of 32 bits is looked up exactly where it lies in the file. -/
theorem getSymbol_small {table : ElfSection} (hsym : table.IsSymbols)
    (hsmall : table.entry_size ≤ 16) (hne : table.entry_size ≠ 0) (index : Nat) :
    (table.offset + index * table.entry_size + 16 ≤ p.bytes.length ∧
        ∃ s, getSymbol p table index = .ok s) ∨
      (p.bytes.length < table.offset + index * table.entry_size + 16 ∧
        getSymbol p table index = .fail .layout) := by
  have hwidth : symbolWidth table = 16 := if_pos hsmall
  unfold getSymbol
  rw [if_neg (fun h => hsym.elim h.1 h.2), if_neg (fun h => h.1 hsmall), maxIndex_pos hne, ok_bind,
    hwidth]
  by_cases hlimit : index > (2 ^ 64 - 1) / table.entry_size
  · have hbeyond := beyond_of_maxIndex (p := p) hne hlimit
    exact Or.inr ⟨by omega, if_pos hlimit⟩
  · rw [if_neg hlimit]
    have hiff := @place_refused table.offset _ 16 _ p.size_lt (mul_lt_of_le_maxIndex hne hlimit)
    by_cases hin : p.bytes.length < table.offset + index * table.entry_size + 16
    · exact Or.inr ⟨hin, if_pos (hiff.mpr hin)⟩
    · refine Or.inl ⟨Nat.le_of_not_lt hin, ?_⟩
      rw [if_neg (mt hiff.mp hin), if_pos hsmall, place_eq p.size_lt (Nat.le_of_not_lt hin)]
      exact readSymbol32_ok (Nat.le_of_not_lt hin)

/-- An entry of 64 bits is read inside the file and inside its table. -/
theorem getSymbol_large {table : ElfSection} (hsym : table.IsSymbols)
    (hlarge : ¬table.entry_size ≤ 16) (index : Nat) :
    (getSymbol p table index).Sat fun _ => SymbolInside table index := by
  have hwidth : symbolWidth table = 24 := if_neg hlarge
  have hne : table.entry_size ≠ 0 := by omega
  unfold getSymbol
  dsimp only
  rw [if_neg (fun h => hsym.elim h.1 h.2), maxIndex_pos hne, ok_bind]
  split
  · trivial
  next hchecks =>
    have hchecks := fun h => hchecks ⟨hlarge, h⟩
    have hin : index * table.entry_size + table.entry_size ≤ table.size :=
      entry_inside hne fun h => hchecks (Or.inr h)
    have h24 : 24 ≤ table.entry_size := Nat.le_of_not_lt fun h => hchecks (Or.inl h)
    split
    · trivial
    next hlimit =>
      split
      · trivial
      next hplace =>
        rw [place_refused p.size_lt (mul_lt_of_le_maxIndex hne hlimit), hwidth] at hplace
        rw [place_eq p.size_lt (Nat.le_of_not_lt hplace)]
        obtain ⟨s, hs⟩ := readSymbol64_ok (Nat.le_of_not_lt hplace)
        rw [hs]
        show index * table.entry_size + symbolWidth table ≤ table.size
        omega

/-- Looking up a symbol is safe exactly when small entries fit. -/
theorem getSymbol_safe_iff (p : Image) (table : ElfSection) (index : Nat) :
    SymbolSafe p table index ↔ SmallEntryFits p table index := by
  by_cases hsym : table.IsSymbols
  · by_cases hsmall : table.entry_size ≤ 16
    · by_cases hne : table.entry_size = 0
      · -- The limit of the index is a division by zero.
        have hfault : getSymbol p table index = .fault := by
          unfold getSymbol
          rw [if_neg (fun h => hsym.elim h.1 h.2), if_neg (fun h => h.1 hsmall), hne]
          rfl
        exact ⟨fun h => absurd hfault h.1, fun h => absurd hne (h hsym hsmall).1⟩
      · have hread := getSymbol_small (p := p) hsym hsmall hne index
        have hwidth : symbolWidth table = 16 := if_pos hsmall
        unfold SymbolSafe SymbolInside
        rw [hwidth]
        rcases hread with ⟨hin, s, hs⟩ | ⟨hbeyond, hfail⟩
        · rw [hs]
          refine ⟨fun h _ _ => ⟨hne, Or.inl (h.2 s rfl)⟩, fun h => ⟨nofun, fun _ _ => ?_⟩⟩
          exact (h hsym hsmall).2.resolve_right (Nat.not_lt.mpr hin)
        · rw [hfail]
          exact ⟨fun _ _ _ => ⟨hne, Or.inr hbeyond⟩, fun _ => ⟨nofun, nofun⟩⟩
    · have hsat := getSymbol_large (p := p) hsym hsmall index
      exact ⟨fun _ _ h => absurd h hsmall, fun _ => ⟨hsat.ne_fault, fun _ h => hsat.of_ok h⟩⟩
  · have hfail : getSymbol p table index = .fail .argument := if_pos (not_or.mp hsym)
    refine ⟨fun _ h => absurd h hsym, fun _ => ?_⟩
    unfold SymbolSafe
    rw [hfail]
    exact ⟨nofun, nofun⟩

/-! ### Sequences of calls -/

/-- The call reads inside the file and divides by no zero; a symbol or relocation it returns lies
    inside its table. -/
structure ElfCall.Safe (p : Image) (view : ElfView) (got : List ElfSection) (c : ElfCall) :
    Prop where
  inside : c.run p view got ≠ .fault
  symbol : ∀ k index table s, c = .getSymbol k index → got[k]? = some table →
    c.run p view got = .ok (.symbol s) → SymbolInside table index
  rela : ∀ k index table r, c = .getRela k index → got[k]? = some table →
    c.run p view got = .ok (.rela r) → index * relaWidth table + relaWidth table ≤ table.size

/-- Every call of the sequence is safe. -/
def ReaderSafe (p : Image) (view : ElfView) (calls : List ElfCall) : Prop :=
  ∀ before c, before ++ [c] <+: calls → c.Safe p view (headers p view before)

/-- Every symbol that the sequence asks for in a table of small entries fits. -/
def SmallEntriesFit (p : Image) (view : ElfView) (calls : List ElfCall) : Prop :=
  ∀ before k index table, before ++ [.getSymbol k index] <+: calls →
    (headers p view before)[k]? = some table → SmallEntryFits p table index

theorem map_eq_fault {x : Read α} {f : α → β} (h : f <$> x = .fault) :
    x = .fault := by
  match x with
  | .fault => rfl

theorem map_ne_fault {x : Read α} {P : α → Prop} (hx : x.Sat P) (f : α → β) :
    f <$> x ≠ .fault := fun h => hx.ne_fault (map_eq_fault h)

theorem map_eq_ok {x : Read α} {f : α → β} {b : β} (h : f <$> x = .ok b) :
    ∃ a, x = .ok a ∧ f a = b := by
  match x with
  | .ok a => exact ⟨a, rfl, Checked.ok.inj h⟩

/-- A call that looks up no symbol is safe. -/
theorem ElfCall.safe_of_ne (hview : view.Sized)
    (got : List ElfSection) {c : ElfCall} (hc : ∀ k index, c ≠ .getSymbol k index) :
    c.Safe p view got := by
  refine ⟨?_, fun k index _ _ h => absurd h (hc k index), ?_⟩
  · cases c with
    | getSection index => exact map_ne_fault (getSection_sat hview index) _
    | getPhdr index => exact map_ne_fault (getPhdr_sat p view index) _
    | getSymbol k index => exact absurd rfl (hc k index)
    | getRela k index =>
      unfold ElfCall.run
      dsimp only
      split
      · exact map_ne_fault (getRela_sat p _ index) _
      · exact nofun
    | getString k offset =>
      unfold ElfCall.run
      dsimp only
      split
      · exact map_ne_fault (getString_sat p _ offset) _
      · exact nofun
    | findSection name => exact map_ne_fault (findSection_sat hview name) _
  · rintro k index table r rfl htable hrun
    unfold ElfCall.run at hrun
    dsimp only at hrun
    rw [htable] at hrun
    obtain ⟨r', hr', -⟩ := map_eq_ok hrun
    exact (getRela_sat p table index).of_ok hr'

/-- A call that looks up a symbol is safe exactly when the lookup is. -/
theorem ElfCall.symbol_safe_iff {got : List ElfSection} {k : Nat} :
    (ElfCall.getSymbol k index).Safe p view got ↔
      ∀ table, got[k]? = some table → SymbolSafe p table index := by
  have hrun : ∀ table, got[k]? = some table →
      (ElfCall.getSymbol k index).run p view got = .symbol <$> Elf.getSymbol p table index := by
    intro table htable
    unfold ElfCall.run
    dsimp only
    rw [htable]
  constructor
  · intro h table htable
    refine ⟨fun hfault => h.inside ?_, fun s hs => h.symbol k index table s rfl htable ?_⟩
    · rw [hrun table htable, hfault]
      rfl
    · rw [hrun table htable, hs]
      rfl
  · intro h
    refine ⟨?_, ?_, fun _ _ _ _ hc => absurd hc nofun⟩
    · cases htable : got[k]? with
      | none =>
        unfold ElfCall.run
        dsimp only
        rw [htable]
        exact nofun
      | some table =>
        rw [hrun table htable]
        exact fun hfault => (h table htable).1 (map_eq_fault hfault)
    · rintro k' index' table s hc htable hs
      cases hc
      rw [hrun table htable] at hs
      obtain ⟨s', hs', -⟩ := map_eq_ok hs
      exact (h table htable).2 s' hs'

/-- For a file that `mt_elf64_parse` accepts, a sequence of calls is safe exactly when every
    symbol it asks for in a table of small entries fits. -/
theorem reader_safe_iff (p : Image) (view : ElfView) (hparse : parse p = .ok view)
    (calls : List ElfCall) : ReaderSafe p view calls ↔ SmallEntriesFit p view calls := by
  have hview : view.Sized := (parse_sat p).of_ok hparse
  constructor
  · intro h before k index table hbefore htable
    have hsafe := ElfCall.symbol_safe_iff.mp (h before _ hbefore) table htable
    exact (getSymbol_safe_iff p table index).mp hsafe
  · intro h before c hbefore
    by_cases hc : ∃ k index, c = .getSymbol k index
    · obtain ⟨k, index, rfl⟩ := hc
      refine ElfCall.symbol_safe_iff.mpr fun table htable => ?_
      exact (getSymbol_safe_iff p table index).mpr (h before k index table hbefore htable)
    · exact ElfCall.safe_of_ne hview _ fun k index hk => hc ⟨k, index, hk⟩

/-! ### A file with two small tables -/

set_option maxRecDepth 20000 in
/-- The header of an ELF64 file with two section headers behind it, both of symbol tables without
    bytes: the entries of the first have no size, the ones of the second 16 bytes. -/
def smallTables : Image where
  bytes :=
    [0x7f, 0x45, 0x4c, 0x46, 2, 1, 1, 0] ++ leBytes 8 0 ++ leBytes 2 1 ++ leBytes 2 62 ++
      leBytes 4 1 ++ leBytes 8 0 ++ leBytes 8 0 ++ leBytes 8 64 ++ leBytes 4 0 ++ leBytes 2 64 ++
      leBytes 2 0 ++ leBytes 2 0 ++ leBytes 2 64 ++ leBytes 2 2 ++ leBytes 2 0 ++
      (leBytes 4 0 ++ leBytes 4 2 ++ leBytes 48 0 ++ leBytes 8 0) ++
      (leBytes 4 0 ++ leBytes 4 2 ++ leBytes 48 0 ++ leBytes 8 16)
  size_lt := by decide

/-- Its view. -/
def smallView : ElfView where
  type := 1
  machine := 62
  version := 1
  entry := 0
  program_offset := 0
  section_offset := 64
  flags := 0
  header_size := 64
  program_entry_size := 0
  program_count := 0
  section_entry_size := 64
  section_count := 2
  section_name_index := 0

/-- A header of a symbol table without bytes. -/
def emptySymbols (entry_size : Nat) : ElfSection := ⟨0, 2, 0, 0, 0, 0, 0, 0, 0, entry_size⟩

set_option maxRecDepth 20000 in
theorem parse_smallTables : parse smallTables = .ok smallView := by decide

set_option maxRecDepth 20000 in
theorem getSection_smallTables :
    getSection smallTables smallView 0 = .ok (emptySymbols 0) ∧
      getSection smallTables smallView 1 = .ok (emptySymbols 16) := by
  constructor <;> decide

set_option maxRecDepth 20000 in
/-- In that file the first symbol of the first table is a division by zero, and the first one of
    the second table is returned although the table is empty. -/
theorem small_tables_unsafe :
    parse smallTables = .ok smallView ∧
      ¬ReaderSafe smallTables smallView [.getSection 0, .getSymbol 0 0] ∧
      ¬ReaderSafe smallTables smallView [.getSection 1, .getSymbol 0 0] := by
  obtain ⟨h0, h1⟩ := getSection_smallTables
  have hheaders : ∀ i n, getSection smallTables smallView i = .ok (emptySymbols n) →
      headers smallTables smallView [.getSection i] = [emptySymbols n] := by
    intro i n h
    show ElfCall.headers smallTables smallView [] (.getSection i) = _
    unfold ElfCall.headers ElfCall.run
    dsimp only
    rw [h]
    rfl
  refine ⟨parse_smallTables, fun h => ?_, fun h => ?_⟩
  · have hsafe := h [.getSection 0] (.getSymbol 0 0) List.prefix_rfl
    rw [hheaders 0 0 h0] at hsafe
    exact hsafe.inside rfl
  · have hsafe := h [.getSection 1] (.getSymbol 0 0) List.prefix_rfl
    rw [hheaders 1 16 h1] at hsafe
    have hread : ∃ s, Elf.getSymbol smallTables (emptySymbols 16) 0 = .ok s :=
      ⟨⟨1179403647, 0, 0, 0, 65794, 0⟩, by decide⟩
    obtain ⟨s, hs⟩ := hread
    have hin := (ElfCall.symbol_safe_iff.mp hsafe (emptySymbols 16) rfl).2 s hs
    exact absurd hin (by unfold SymbolInside; decide)

/-- The calls that read both headers are safe. -/
theorem small_tables_headers_safe :
    ReaderSafe smallTables smallView [.getSection 0, .getSection 1] := by
  refine (reader_safe_iff smallTables smallView parse_smallTables _).mpr ?_
  intro before k index table hbefore
  have hmem : ElfCall.getSymbol k index ∈ [ElfCall.getSection 0, ElfCall.getSection 1] :=
    hbefore.subset (List.mem_append_right _ (List.mem_singleton.mpr rfl))
  simp at hmem

end MeuOS.Elf
