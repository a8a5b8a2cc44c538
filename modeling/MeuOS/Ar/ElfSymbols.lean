import MeuOS.Ar.Format

namespace MeuOS.Ar

open MeuOS.Lib List

/-!
# The symbols of an ELF file (`elf.c`, `collect_blob_symbols` of `archive.c`)

* `elfParse`, `getSection`, `getSymbol`, `getString` — the reader of ELF files;
* `collectBlobSymbols` — the names that a member of an archive gives the index;
* `WellFormed`, `symbolNames` — a well-formed ELF64 file, and the defined global, weak and unique
  symbols of its first symbol table, read off the bytes;
* `collectBlobSymbols_wellFormed` — the reader finds exactly these.

Only the fields that the index depends on are kept of the headers, sections and symbols.
-/

/-! ### Numbers -/

def read16 (p : Bytes) (off : Nat) : Nat := leNat (slice p off 2)
def read32 (p : Bytes) (off : Nat) : Nat := leNat (slice p off 4)
def read64 (p : Bytes) (off : Nat) : Nat := leNat (slice p off 8)

/-- A byte of a file. -/
def byteAt (p : Bytes) (off : Nat) : Nat := leNat (slice p off 1)

/-- `range_valid`. -/
def rangeValid (offset length size : Nat) : Bool :=
  if offset > size then false else length ≤ size - offset

/-- `table_valid`. -/
def tableValid (offset entry_size count size : Nat) : Bool :=
  if count = 0 then true
  else if entry_size = 0 then false
  else rangeValid offset (entry_size * count) size

/-! ### The reader -/

/-- `enum mt_elf_status`, without the values nothing returns here. -/
inductive ElfStatus where
  | argument
  | truncated
  | magic
  | elfClass
  | encoding
  | version
  | layout
  deriving DecidableEq

/-- `struct mt_elf64_view`. -/
structure ElfView where
  section_offset : Nat
  section_entry_size : Nat
  section_count : Nat
  deriving DecidableEq

/-- `struct mt_elf64_section`. -/
structure ElfSection where
  type : Nat
  offset : Nat
  size : Nat
  link : Nat
  entry_size : Nat
  deriving DecidableEq

/-- `struct mt_elf64_symbol`. -/
structure ElfSymbol where
  name : Nat
  info : Nat
  shndx : Nat

def MT_SHT_SYMTAB : Nat := 2
def MT_SHT_STRTAB : Nat := 3
def MT_SHT_NOBITS : Nat := 8
def MT_SHT_DYNSYM : Nat := 11

/-- The tables of a header: sizes and positions of the program and section headers. -/
def elfTables (p : Bytes) (ehsize phoff phentsize phnum shoff shentsize shnum : Nat)
    (ehdr phdr shdr : Nat) : Except ElfStatus ElfView :=
  if ehsize < ehdr ∨ (phnum ≠ 0 ∧ phentsize < phdr) ∨ (shnum ≠ 0 ∧ shentsize < shdr) ∨
      tableValid phoff phentsize phnum p.length = false ∨
      tableValid shoff shentsize shnum p.length = false then .error .layout
  else .ok { section_offset := shoff, section_entry_size := shentsize, section_count := shnum }

/-- `mt_elf64_parse`, for files of 32 and of 64 bits. -/
def elfParse (p : Bytes) : Except ElfStatus ElfView :=
  if p.length < 64 then .error .truncated
  else if p.take 4 ≠ [0x7f, 0x45, 0x4c, 0x46] then .error .magic
  else if byteAt p 4 ≠ 1 ∧ byteAt p 4 ≠ 2 then .error .elfClass
  else if byteAt p 5 ≠ 1 then .error .encoding
  else if byteAt p 6 ≠ 1 ∨ read32 p 20 ≠ 1 then .error .version
  else if byteAt p 4 = 1 then
    elfTables p (read16 p 40) (read32 p 28) (read16 p 42) (read16 p 44) (read32 p 32)
      (read16 p 46) (read16 p 48) 52 32 40
  else
    elfTables p (read16 p 52) (read64 p 32) (read16 p 54) (read16 p 56) (read64 p 40)
      (read16 p 58) (read16 p 60) 64 56 64

/-- `mt_elf64_get_section`; a header of 40 bytes or less is one of 32 bits. -/
def getSection (p : Bytes) (view : ElfView) (index : Nat) : Except ElfStatus ElfSection :=
  if index ≥ view.section_count then .error .layout
  else
    let is_elf32 := view.section_entry_size ≤ 40
    if ¬ is_elf32 ∧ view.section_entry_size < 64 then .error .layout
    else if index > UINT64_MAX / view.section_entry_size then .error .layout
    else
      let offset := (view.section_offset + index * view.section_entry_size) % 2 ^ 64
      if offset < view.section_offset ∨
          rangeValid offset (if is_elf32 then 40 else 64) p.length = false then .error .layout
      else
        let s : ElfSection :=
          if is_elf32 then
            { type := read32 p (offset + 4), offset := read32 p (offset + 16)
              size := read32 p (offset + 20), link := read32 p (offset + 24)
              entry_size := read32 p (offset + 36) }
          else
            { type := read32 p (offset + 4), offset := read64 p (offset + 24)
              size := read64 p (offset + 32), link := read32 p (offset + 40)
              entry_size := read64 p (offset + 56) }
        if s.type ≠ MT_SHT_NOBITS ∧ rangeValid s.offset s.size p.length = false then
          .error .layout
        else .ok s

/-- `mt_elf64_get_symbol`; an entry of 16 bytes or less is one of 32 bits. -/
def getSymbol (p : Bytes) (table : ElfSection) (index : Nat) : Except ElfStatus ElfSymbol :=
  if table.type ≠ MT_SHT_SYMTAB ∧ table.type ≠ MT_SHT_DYNSYM then .error .argument
  else
    let is_elf32 := table.entry_size ≤ 16
    if ¬ is_elf32 ∧ (table.entry_size < 24 ∨ table.size % table.entry_size ≠ 0 ∨
        index ≥ table.size / table.entry_size) then .error .layout
    else if index > UINT64_MAX / table.entry_size then .error .layout
    else
      let offset := (table.offset + index * table.entry_size) % 2 ^ 64
      if offset < table.offset ∨
          rangeValid offset (if is_elf32 then 16 else 24) p.length = false then .error .layout
      else if is_elf32 then
        .ok { name := read32 p offset, info := byteAt p (offset + 12)
              shndx := read16 p (offset + 14) }
      else
        .ok { name := read32 p offset, info := byteAt p (offset + 4)
              shndx := read16 p (offset + 6) }

/-- `mt_elf64_get_string`: the string at an offset of a string table, up to a zero inside it. -/
def getString (p : Bytes) (strings : ElfSection) (offset : Nat) : Except ElfStatus CString :=
  if strings.type ≠ MT_SHT_STRTAB ∨ offset ≥ strings.size ∨
      rangeValid strings.offset strings.size p.length = false then .error .layout
  else
    let text := slice p (strings.offset + offset) (strings.size - offset)
    if 0 ∈ text then .ok (cstring text) else .error .layout

/-! ### The names of a member -/

/-- Global, weak and unique symbols, by their `info`. -/
def isExternal (info : Nat) : Bool := info >>> 4 = 1 || info >>> 4 = 2 || info >>> 4 = 10

/-- The loop over the symbols of a table, from symbol `i` on; `none` is the result -1. -/
def tableSymbols (p : Bytes) (table strings : ElfSection) : Nat → Nat → Option (List CString)
  | 0, _ => some []
  | turns + 1, i =>
    match getSymbol p table i with
    | .error _ => none
    | .ok symbol =>
      if !isExternal symbol.info ∨ symbol.shndx = 0 ∨ symbol.name = 0 then
        tableSymbols p table strings turns (i + 1)
      else
        match getString p strings symbol.name with
        | .error _ => tableSymbols p table strings turns (i + 1)
        | .ok name => (tableSymbols p table strings turns (i + 1)).map (name :: ·)

/-- The loop over the sections, from section `k` on, up to the first symbol table. -/
def sectionSymbols (p : Bytes) (view : ElfView) : Nat → Nat → Option (List CString)
  | 0, _ => some []
  | turns + 1, k =>
    match getSection p view k with
    | .error _ => none
    | .ok table =>
      if table.type ≠ MT_SHT_SYMTAB ∧ table.type ≠ MT_SHT_DYNSYM then
        sectionSymbols p view turns (k + 1)
      else if table.link ≥ view.section_count then none
      else
        match getSection p view (table.link % 2 ^ 16) with
        | .error _ => none
        | .ok strings =>
          if strings.type ≠ MT_SHT_STRTAB ∨ table.entry_size < 24 ∨
              table.size % table.entry_size ≠ 0 then none
          else tableSymbols p table strings (table.size / table.entry_size) 0

/-- `collect_blob_symbols`: the names given to `append_symbol`, in order; `none` is the result
-1. -/
def collectBlobSymbols (p : Bytes) : Option (List CString) :=
  match elfParse p with
  | .error _ => some []
  | .ok view => sectionSymbols p view view.section_count 0

/-! ### Well-formed files -/

/-- The number of sections. -/
def shnum (p : Bytes) : Nat := read16 p 60

/-- The place of the header of section `k`. -/
def shdr (p : Bytes) (k : Nat) : Nat := read64 p 40 + k * read16 p 58

/-- The header of section `k` of an ELF64 file. -/
def sectionOf (p : Bytes) (k : Nat) : ElfSection where
  type := read32 p (shdr p k + 4)
  offset := read64 p (shdr p k + 24)
  size := read64 p (shdr p k + 32)
  link := read32 p (shdr p k + 40)
  entry_size := read64 p (shdr p k + 56)

/-- `SHT_SYMTAB` and `SHT_DYNSYM`. -/
def isSymbolTable (p : Bytes) (k : Nat) : Bool :=
  (sectionOf p k).type = MT_SHT_SYMTAB || (sectionOf p k).type = MT_SHT_DYNSYM

/-- The number of symbols of a table. -/
def symbolCount (p : Bytes) (k : Nat) : Nat := (sectionOf p k).size / (sectionOf p k).entry_size

/-- The place of symbol `j` of table `k`. -/
def symbolAt (p : Bytes) (k j : Nat) : Nat :=
  (sectionOf p k).offset + j * (sectionOf p k).entry_size

/-- Symbol `j` of table `k` is global, weak or unique, and is defined. -/
def isDefined (p : Bytes) (k j : Nat) : Bool :=
  isExternal (byteAt p (symbolAt p k j + 4)) && read16 p (symbolAt p k j + 6) ≠ 0

/-- The string table of table `k`. -/
def stringsOf (p : Bytes) (k : Nat) : ElfSection := sectionOf p (sectionOf p k).link

/-- The name of symbol `j` of table `k`. -/
def symbolName (p : Bytes) (k j : Nat) : CString :=
  cstring (p.drop ((stringsOf p k).offset + read32 p (symbolAt p k j)))

/-- The first symbol table. -/
def firstTable (p : Bytes) : Option Nat := (range (shnum p)).find? (isSymbolTable p)

/-- The names of the defined global, weak and unique symbols of the first symbol table. -/
def symbolNames (p : Bytes) : List CString :=
  match firstTable p with
  | none => []
  | some k => ((range (symbolCount p k)).filter (isDefined p k)).map (symbolName p k)

/-- A little-endian ELF64 file with its tables inside, that keeps the number of its sections in
the header; its symbol tables have string tables, and every defined external symbol has a name. -/
structure WellFormed (p : Bytes) : Prop where
  length : 64 ≤ p.length
  magic : p.take 4 = [0x7f, 0x45, 0x4c, 0x46]
  elfClass : byteAt p 4 = 2
  encoding : byteAt p 5 = 1
  version : byteAt p 6 = 1 ∧ read32 p 20 = 1
  header : 64 ≤ read16 p 52
  programs : read16 p 56 ≠ 0 →
    56 ≤ read16 p 54 ∧ read64 p 32 + read16 p 54 * read16 p 56 ≤ p.length
  /-- Section 0 does not hold the number of the sections. -/
  count : shnum p = 0 → read64 p 40 = 0
  sections : shnum p ≠ 0 → 64 ≤ read16 p 58 ∧ read64 p 40 + read16 p 58 * shnum p ≤ p.length
  inside : ∀ k < shnum p, (sectionOf p k).type ≠ MT_SHT_NOBITS →
    (sectionOf p k).offset + (sectionOf p k).size ≤ p.length
  tables : ∀ k < shnum p, isSymbolTable p k = true →
    (sectionOf p k).link < shnum p ∧ (stringsOf p k).type = MT_SHT_STRTAB ∧
      24 ≤ (sectionOf p k).entry_size ∧ (sectionOf p k).size % (sectionOf p k).entry_size = 0
  names : ∀ k < shnum p, isSymbolTable p k = true → ∀ j < symbolCount p k,
    isDefined p k j = true → read32 p (symbolAt p k j) ≠ 0 ∧
      read32 p (symbolAt p k j) < (stringsOf p k).size ∧
      0 ∈ slice p ((stringsOf p k).offset + read32 p (symbolAt p k j))
        ((stringsOf p k).size - read32 p (symbolAt p k j)) ∧
      (symbolName p k j).1 ≠ []

/-! ### The reader on well-formed files -/

theorem rangeValid_iff {offset length size : Nat} :
    rangeValid offset length size = true ↔ offset + length ≤ size := by
  unfold rangeValid
  split
  · simp
    omega
  · simp
    omega

theorem read16_lt (p : Bytes) (off : Nat) : read16 p off < 2 ^ 16 := by
  have h := leNat_lt (slice p off 2)
  have hlen : (slice p off 2).length ≤ 2 := length_take_le _ _
  exact lt_of_lt_of_le h (Nat.pow_le_pow_right (by decide) hlen)

/-- A string that ends inside a piece does not see the end of the piece. -/
theorem cstring_slice {p : Bytes} {off room : Nat} (hzero : 0 ∈ slice p off room) :
    cstring (slice p off room) = cstring (p.drop off) := by
  apply Subtype.ext
  unfold cstring
  dsimp only
  unfold slice at hzero ⊢
  conv_rhs => rw [← take_append_drop room (p.drop off)]
  rw [takeWhile_append, if_neg]
  intro hall
  have hself := ( takeWhile_prefix (fun b : UInt8 => decide (b ≠ 0))).eq_of_length hall
  rw [← hself] at hzero
  exact absurd (mem_takeWhile_imp hzero) (by decide)

section wellformed

variable {p : Bytes} (h : WellFormed p)

include h

theorem WellFormed.elfParse :
    elfParse p = .ok { section_offset := read64 p 40, section_entry_size := read16 p 58,
                       section_count := shnum p } := by
  have hlen := h.length
  have hheader := h.header
  have hprograms := h.programs
  have hsections := h.sections
  have hph : tableValid (read64 p 32) (read16 p 54) (read16 p 56) p.length = true := by
    unfold tableValid
    split
    · rfl
    · rename_i hn
      obtain ⟨hsize, hfit⟩ := hprograms hn
      rw [if_neg (by omega), rangeValid_iff]
      exact hfit
  have hsh : tableValid (read64 p 40) (read16 p 58) (read16 p 60) p.length = true := by
    unfold tableValid
    split
    · rfl
    · rename_i hn
      obtain ⟨hsize, hfit⟩ := hsections hn
      rw [if_neg (by omega), rangeValid_iff]
      exact hfit
  unfold MeuOS.Ar.elfParse elfTables
  rw [if_neg (by omega), if_neg (not_not.mpr h.magic), h.elfClass, if_neg (by decide),
    if_neg (not_not.mpr h.encoding), if_neg (by rw [h.version.1, h.version.2]; decide),
    if_neg (by decide), hph, hsh]
  unfold shnum at hsections ⊢
  rw [if_neg]
  rintro (hsize | hsize | hsize | hsize | hsize)
  · omega
  · have := (hprograms hsize.1).1
    omega
  · have := (hsections hsize.1).1
    omega
  · exact nomatch hsize
  · exact nomatch hsize

/-- The header of section `k` lies inside the file. -/
theorem WellFormed.shdr_inside {k : Nat} (hk : k < shnum p) :
    64 ≤ read16 p 58 ∧ shdr p k + 64 ≤ p.length := by
  obtain ⟨hsize, hfit⟩ := h.sections (by omega)
  refine ⟨hsize, ?_⟩
  have hmul : read16 p 58 * (k + 1) ≤ read16 p 58 * shnum p := Nat.mul_le_mul_left _ hk
  rw [Nat.mul_add, Nat.mul_one] at hmul
  unfold shdr
  rw [Nat.mul_comm k]
  omega

theorem WellFormed.getSection (hmax : p.length < 2 ^ 64) {k : Nat} (hk : k < shnum p) :
    getSection p { section_offset := read64 p 40, section_entry_size := read16 p 58,
                   section_count := shnum p } k = .ok (sectionOf p k) := by
  obtain ⟨hsize, hinside⟩ := h.shdr_inside hk
  have hcount : shnum p < 2 ^ 16 := read16_lt p 60
  have hentry : read16 p 58 < 2 ^ 16 := read16_lt p 58
  have hdiv : 2 ^ 16 ≤ UINT64_MAX / read16 p 58 := by
    rw [Nat.le_div_iff_mul_le (by omega)]
    have hmul : 2 ^ 16 * read16 p 58 ≤ 2 ^ 16 * 2 ^ 16 := Nat.mul_le_mul_left _ hentry.le
    exact hmul.trans (by decide)
  have hoff : (read64 p 40 + k * read16 p 58) % 2 ^ 64 = shdr p k := by
    unfold shdr at hinside ⊢
    exact Nat.mod_eq_of_lt (by omega)
  have hle : read64 p 40 ≤ shdr p k := Nat.le_add_right _ _
  have hcheck : ¬ (shdr p k < read64 p 40 ∨ rangeValid (shdr p k) 64 p.length = false) := by
    rw [rangeValid_iff.mpr hinside]
    simp [hle]
  have hdata : ¬ ((sectionOf p k).type ≠ MT_SHT_NOBITS ∧
      rangeValid (sectionOf p k).offset (sectionOf p k).size p.length = false) := by
    rintro ⟨hbits, hfalse⟩
    rw [rangeValid_iff.mpr (h.inside k hk hbits)] at hfalse
    exact nomatch hfalse
  have hbig : ¬ read16 p 58 ≤ 40 := by omega
  unfold MeuOS.Ar.getSection
  dsimp only
  rw [if_neg (by omega), if_neg (by omega), if_neg (by omega), hoff]
  simp only [if_neg hbig]
  rw [if_neg hcheck]
  exact if_neg hdata

section table

variable (hmax : p.length < 2 ^ 64) {k : Nat} (hk : k < shnum p)
  (htable : isSymbolTable p k = true)

include hmax hk htable

omit hmax in
/-- A symbol of a table lies inside the file. -/
theorem WellFormed.symbol_inside {j : Nat} (hj : j < symbolCount p k) :
    symbolAt p k j + 24 ≤ p.length := by
  obtain ⟨-, -, hentry, hmod⟩ := h.tables k hk htable
  have hbits : (sectionOf p k).type ≠ MT_SHT_NOBITS := by
    intro hbits
    unfold isSymbolTable at htable
    rw [hbits] at htable
    exact nomatch htable
  have hinside := h.inside k hk hbits
  unfold symbolCount at hj
  unfold symbolAt
  have hmul := Nat.mul_le_mul_right (sectionOf p k).entry_size (show j + 1 ≤ _ from hj)
  rw [Nat.div_mul_cancel (Nat.dvd_of_mod_eq_zero hmod), Nat.add_mul, Nat.one_mul] at hmul
  omega

theorem WellFormed.getSymbol {j : Nat} (hj : j < symbolCount p k) :
    getSymbol p (sectionOf p k) j
      = .ok { name := read32 p (symbolAt p k j), info := byteAt p (symbolAt p k j + 4)
              shndx := read16 p (symbolAt p k j + 6) } := by
  have hinside := h.symbol_inside hk htable hj
  obtain ⟨-, -, hentry, hmod⟩ := h.tables k hk htable
  have htype : ¬ ((sectionOf p k).type ≠ MT_SHT_SYMTAB ∧
      (sectionOf p k).type ≠ MT_SHT_DYNSYM) := by
    unfold isSymbolTable at htable
    rw [Bool.or_eq_true, decide_eq_true_eq, decide_eq_true_eq] at htable
    rintro ⟨hsym, hdyn⟩
    exact htable.elim hsym hdyn
  have hbig : ¬ (sectionOf p k).entry_size ≤ 16 := by omega
  have hfits : ¬ (¬ (sectionOf p k).entry_size ≤ 16 ∧ ((sectionOf p k).entry_size < 24 ∨
      (sectionOf p k).size % (sectionOf p k).entry_size ≠ 0 ∨
      j ≥ (sectionOf p k).size / (sectionOf p k).entry_size)) := by
    unfold symbolCount at hj
    rintro ⟨-, hsmall | hrest | hmany⟩
    · omega
    · exact hrest hmod
    · omega
  have hoff : ((sectionOf p k).offset + j * (sectionOf p k).entry_size) % 2 ^ 64
      = symbolAt p k j := by
    unfold symbolAt at hinside ⊢
    exact Nat.mod_eq_of_lt (by omega)
  have hle : (sectionOf p k).offset ≤ symbolAt p k j := Nat.le_add_right _ _
  have hindex : ¬ j > UINT64_MAX / (sectionOf p k).entry_size := by
    have hmax64 : UINT64_MAX = 2 ^ 64 - 1 := rfl
    rw [gt_iff_lt, Nat.not_lt, Nat.le_div_iff_mul_le (by omega)]
    unfold symbolAt at hinside
    omega
  have hcheck : ¬ (symbolAt p k j < (sectionOf p k).offset ∨
      rangeValid (symbolAt p k j) 24 p.length = false) := by
    rw [rangeValid_iff.mpr hinside]
    simp [hle]
  unfold MeuOS.Ar.getSymbol
  rw [if_neg htype, if_neg hfits, if_neg hindex, hoff]
  simp only [if_neg hbig]
  rw [if_neg hcheck]

omit hmax in
/-- The name of a defined symbol. -/
theorem WellFormed.getString {j : Nat} (hj : j < symbolCount p k)
    (hdef : isDefined p k j = true) :
    getString p (stringsOf p k) (read32 p (symbolAt p k j)) = .ok (symbolName p k j) := by
  obtain ⟨hlink, hstrings, -, -⟩ := h.tables k hk htable
  obtain ⟨-, hlt, hzero, -⟩ := h.names k hk htable j hj hdef
  have hbits : (stringsOf p k).type ≠ MT_SHT_NOBITS := by
    rw [hstrings]
    decide
  have hinside : (stringsOf p k).offset + (stringsOf p k).size ≤ p.length :=
    h.inside _ hlink hbits
  unfold MeuOS.Ar.getString
  rw [if_neg]
  · dsimp only
    rw [if_pos hzero]
    congr 1
    exact cstring_slice hzero
  · rintro (htype | hout | hout)
    · exact htype hstrings
    · omega
    · rw [rangeValid_iff.mpr hinside] at hout
      exact nomatch hout

/-- The loop over the symbols of a table. -/
theorem WellFormed.tableSymbols {turns i : Nat} (hturns : i + turns = symbolCount p k) :
    tableSymbols p (sectionOf p k) (stringsOf p k) turns i
      = some (((range' i turns).filter (isDefined p k)).map (symbolName p k)) := by
  induction turns generalizing i with
  | zero => rfl
  | succ turns ih =>
    have hi : i < symbolCount p k := by omega
    have ih := @ih (i + 1) (by omega)
    unfold MeuOS.Ar.tableSymbols
    rw [h.getSymbol hmax hk htable hi, ih, range'_succ]
    dsimp only
    by_cases hdef : isDefined p k i = true
    · have hdef' := hdef
      unfold isDefined at hdef'
      rw [Bool.and_eq_true, decide_eq_true_eq] at hdef'
      have hname := (h.names k hk htable i hi hdef).1
      rw [if_neg (by simp [hdef'.1, hdef'.2, hname]), h.getString hk htable hi hdef,
        filter_cons_of_pos hdef]
      rfl
    · have hskip : (!isExternal (byteAt p (symbolAt p k i + 4))) = true ∨
          read16 p (symbolAt p k i + 6) = 0 ∨ read32 p (symbolAt p k i) = 0 := by
        unfold isDefined at hdef
        rw [Bool.and_eq_true, decide_eq_true_eq, not_and_or, not_not] at hdef
        rcases hdef with hext | hundef
        · exact Or.inl (by simpa using hext)
        · exact Or.inr (Or.inl hundef)
      rw [if_pos hskip, filter_cons_of_neg hdef]

end table

/-- The loop over the sections, as far as there is no symbol table before it. -/
theorem WellFormed.sectionSymbols (hmax : p.length < 2 ^ 64) {turns k : Nat}
    (hturns : k + turns = shnum p) :
    sectionSymbols p { section_offset := read64 p 40, section_entry_size := read16 p 58,
                       section_count := shnum p } turns k
      = some (match (range' k turns).find? (isSymbolTable p) with
        | none => []
        | some k => ((range (symbolCount p k)).filter (isDefined p k)).map
            (symbolName p k)) := by
  induction turns generalizing k with
  | zero => rfl
  | succ turns ih =>
    have hk : k < shnum p := by omega
    have ih := @ih (k + 1) (by omega)
    unfold MeuOS.Ar.sectionSymbols
    rw [h.getSection hmax hk, ih, range'_succ, find?_cons]
    dsimp only
    by_cases htable : isSymbolTable p k = true
    · obtain ⟨hlink, hstrings, hentry, hmod⟩ := h.tables k hk htable
      have hcount : shnum p < 2 ^ 16 := read16_lt p 60
      have htype := htable
      unfold isSymbolTable at htype
      rw [Bool.or_eq_true, decide_eq_true_eq, decide_eq_true_eq] at htype
      have hlink' : (sectionOf p k).link % 2 ^ 16 = (sectionOf p k).link :=
        Nat.mod_eq_of_lt (by omega)
      have hgood : ¬ ((stringsOf p k).type ≠ MT_SHT_STRTAB ∨ (sectionOf p k).entry_size < 24 ∨
          (sectionOf p k).size % (sectionOf p k).entry_size ≠ 0) := by
        rintro (htype | hsmall | hrest)
        · exact htype hstrings
        · omega
        · exact hrest hmod
      have hsymbols := h.tableSymbols hmax hk htable (Nat.zero_add (symbolCount p k))
      rw [if_neg (by rintro ⟨hsym, hdyn⟩; exact htype.elim hsym hdyn), if_neg (by omega), hlink',
        h.getSection hmax hlink]
      rw [htable]
      rw [← range_eq_range'] at hsymbols
      exact (if_neg hgood).trans hsymbols
    · have htype : (sectionOf p k).type ≠ MT_SHT_SYMTAB ∧ (sectionOf p k).type ≠ MT_SHT_DYNSYM := by
        unfold isSymbolTable at htable
        rwa [Bool.or_eq_true, decide_eq_true_eq, decide_eq_true_eq, not_or] at htable
      rw [if_pos htype, Bool.eq_false_iff.mpr htable]

/-- The names collected from a well-formed ELF64 file are those of the defined external symbols
of its first symbol table. -/
theorem collectBlobSymbols_wellFormed (hmax : p.length < 2 ^ 64) :
    collectBlobSymbols p = some (symbolNames p) := by
  unfold collectBlobSymbols symbolNames firstTable
  rw [h.elfParse]
  dsimp only
  rw [h.sectionSymbols hmax (Nat.zero_add _), range_eq_range']

end wellformed

/-- None of these names is empty. -/
theorem symbolNames_ne_nil {p : Bytes} (h : WellFormed p) :
    ∀ name ∈ symbolNames p, name.1 ≠ [] := by
  intro name hname
  unfold symbolNames at hname
  cases htable : firstTable p with
  | none =>
    rw [htable] at hname
    exact absurd hname not_mem_nil
  | some k =>
    rw [htable] at hname
    obtain ⟨j, hj, rfl⟩ := mem_map.mp hname
    obtain ⟨hj, hdef⟩ := mem_filter.mp hj
    unfold firstTable at htable
    have hk := mem_range.mp (mem_of_find?_eq_some htable)
    exact (h.names k hk (find?_some htable) j (mem_range.mp hj) hdef).2.2.2

end MeuOS.Ar
