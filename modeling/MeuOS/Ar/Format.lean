import MeuOS.Lib.Decimal
import Mathlib.Data.List.DropRight
import Mathlib.Data.List.Sort

namespace MeuOS.Ar

open MeuOS.Lib

/-!
# The archive format (`archive.c`)

A file begins with a magic, then come records: a header of 60 bytes, the data, and a newline where
the data has odd length.  The first record is the symbol index, the second, if there is one, the
table of long names; the others are members.

* `Blob`, `Loaded` — a member of a collection, and one as the reader gives it;
* `readHeader`, `resolveLongName`, `loadLoop`, `loadArchive` — the reader;
* `layoutLong`, `memberOffsets`, `buildIndex`, `prepareArchive` — what is laid out before writing;
* `writeHeader`, `writeRecord`, `headerName`, `writeArchive` — the writer.
-/

def MAGIC : Bytes := [33, 60, 97, 114, 99, 104, 62, 10]
def MEMBER_NAME_SIZE : Nat := 16
def MEMBER_NAME_MAX : Nat := 15
def HEADER_SIZE : Nat := 60

def UINT64_MAX : Nat := 2 ^ 64 - 1
def UINT32_MAX : Nat := 2 ^ 32 - 1
def SIZE_MAX : Nat := 2 ^ 64 - 1
def LONG_MAX : Nat := 2 ^ 63 - 1

/-- The characters that the format gives a meaning. -/
def SPACE : UInt8 := 32
def SLASH : UInt8 := 47
def NEWLINE : UInt8 := 10
def TAB : UInt8 := 9

/-- A C string: no zero byte inside. -/
abbrev CString := { s : Bytes // (0 : UInt8) ∉ s }

/-- The C string at the front of a buffer. -/
def cstring (buffer : Bytes) : CString :=
  ⟨buffer.takeWhile (· ≠ 0), fun h => by simpa using List.mem_takeWhile_imp h⟩

/-- `struct ar_blob`, with a name. -/
structure Blob where
  name : CString
  data : Bytes
  deriving DecidableEq

/-- `struct ar_blob` as `load_archive` fills it: the name may be a null pointer. -/
structure Loaded where
  name : Option CString
  data : Bytes
  deriving DecidableEq

def Blob.loaded (b : Blob) : Loaded := ⟨some b.name, b.data⟩

/-! ### Decimal fields -/

/-- `parse_decimal_text`. -/
def parseDecimalText (text : Bytes) : Option Nat :=
  if text = [] then none else digitsVal UINT64_MAX 0 text

/-- `parse_decimal` on a whole field: digits between blanks. -/
def parseDecimal (field : Bytes) : Option Nat :=
  let text := field.dropWhile (· = SPACE)
  let digits := text.takeWhile (· ≠ SPACE)
  if (text.dropWhile (· ≠ SPACE)).any (· ≠ SPACE) then none else parseDecimalText digits

/-- `put_decimal`: right-aligned, if the digits fit. -/
def putDecimal (width value : Nat) : Option Bytes :=
  let digits := decimal value
  if digits.length > width then none
  else some (List.replicate (width - digits.length) SPACE ++ digits)

/-! ### The reader -/

/-- A control character that the reader does not accept in a header's name. -/
def isControl (c : UInt8) : Bool := c < 32 && c ≠ TAB

/-- What `read_header` finds. -/
inductive Header where
  | eof
  | bad
  | header (raw : Bytes) (size : Nat) (rest : Bytes)

/-- `read_header`: the name without the blanks behind it, the size, and what follows. -/
def readHeader (file : Bytes) : Header :=
  if file = [] then .eof
  else if file.length < HEADER_SIZE then .bad
  else
    let raw := (cstring ((file.take MEMBER_NAME_SIZE).rdropWhile (· = SPACE))).1
    if slice file 58 2 ≠ [96, 10] ∨ raw.any isControl then .bad
    else
      match parseDecimal (slice file 48 10) with
      | none => .bad
      | some size => .header raw size (file.drop HEADER_SIZE)

/-- `(int)value`. -/
def toInt (value : Nat) : Int := ((value + 2 ^ 31) % 2 ^ 32 : Nat) - 2 ^ 31

/-- `resolve_long_name`: its result and the name it stores; `none` is the result -1. -/
def resolveLongName (raw longnames : Bytes) : Option (Int × Option CString) :=
  if raw.take 3 = [35, 49, 47] then
    let digits := (raw.drop 3).takeWhile fun c => 48 ≤ c && c ≤ 57
    (parseDecimalText digits).map fun n => (toInt n, none)
  else if raw.head? ≠ some SLASH then
    some (0, some (cstring (if raw.getLast? = some SLASH then raw.dropLast else raw)))
  else if raw = [SLASH] then some (1, none)
  else if raw = [SLASH, SLASH] then some (2, none)
  else
    match parseDecimalText (raw.drop 1) with
    | none => none
    | some offset =>
      if longnames.length ≤ offset then none
      else
        let start := longnames.drop offset
        let name := start.takeWhile fun c => c ≠ SLASH && c ≠ NEWLINE && c ≠ 0
        if name.length = start.length ∨ name = [] then none else some (0, some (cstring name))

/-- The byte behind data of odd length must be a newline. -/
def takePad (size : Nat) (file : Bytes) : Option Bytes :=
  if size % 2 = 0 then some file
  else
    match file with
    | [] => none
    | c :: rest => if c = NEWLINE then some rest else none

/-- `read_member_data` and the padding: the data, and what follows. -/
def readData (size : Nat) (file : Bytes) : Option (Bytes × Bytes) :=
  if file.length < size then none
  else (takePad size (file.drop size)).map fun rest => (file.take size, rest)

/-- `skip_data`: a seek, which may go past the end. -/
def skipData (size : Nat) (file : Bytes) : Option Bytes :=
  if LONG_MAX < size + size % 2 then none else some (file.drop (size + size % 2))

variable {file rest : Bytes} {size : Nat}

theorem readHeader_rest {raw : Bytes} (h : readHeader file = .header raw size rest) :
    rest = file.drop HEADER_SIZE ∧ HEADER_SIZE ≤ file.length := by
  unfold readHeader at h
  split at h
  · simp at h
  · split at h
    · simp at h
    next hlen =>
      dsimp only at h
      split at h
      · simp at h
      · split at h
        · simp at h
        · cases h
          exact ⟨rfl, Nat.not_lt.mp hlen⟩

theorem takePad_length (h : takePad size file = some rest) :
    rest.length ≤ file.length := by
  unfold takePad at h
  split at h
  · cases h
    exact Nat.le_refl _
  · rcases file with _ | ⟨c, cs⟩
    · simp at h
    · dsimp only at h
      split at h
      · cases h
        exact Nat.le_succ _
      · simp at h

theorem readData_length {data : Bytes}
    (h : readData size file = some (data, rest)) : rest.length ≤ file.length := by
  unfold readData at h
  split at h
  · simp at h
  · obtain ⟨r, hr, he⟩ := Option.map_eq_some_iff.mp h
    cases he
    have h1 := takePad_length hr
    rw [List.length_drop] at h1
    omega

theorem skipData_length (h : skipData size file = some rest) :
    rest.length ≤ file.length := by
  unfold skipData at h
  split at h
  · simp at h
  · cases h
    rw [List.length_drop]
    exact Nat.sub_le _ _

theorem readHeader_length {raw : Bytes}
    (h : readHeader file = .header raw size rest) : rest.length < file.length := by
  obtain ⟨rfl, hlen⟩ := readHeader_rest h
  have h60 : HEADER_SIZE = 60 := rfl
  rw [List.length_drop]
  omega

/-- The loop of `load_archive`. -/
def loadLoop (longnames file : Bytes) : Option (List Loaded) :=
  match _hh : readHeader file with
  | .eof => some []
  | .bad => none
  | .header raw size rest =>
    match resolveLongName raw longnames with
    | none => none
    | some (result, name) =>
      if result < 0 then none
      else if result = 2 then
        match _hd : readData size rest with
        | none => none
        | some (table, rest') => loadLoop table rest'
      else if result = 1 then
        match _hd : skipData size rest with
        | none => none
        | some rest' => loadLoop longnames rest'
      else
        match _hd : readData size rest with
        | none => none
        | some (data, rest') =>
          if 3 ≤ result then
            -- a BSD name: the front of the data
            if size < result.toNat then none
            else
              (loadLoop longnames rest').map
                (⟨some (cstring (data.take result.toNat)), data.drop result.toNat⟩ :: ·)
          else (loadLoop longnames rest').map (⟨name, data⟩ :: ·)
termination_by file.length
decreasing_by
  all_goals first
    | exact Nat.lt_of_le_of_lt (readData_length _hd) (readHeader_length _hh)
    | exact Nat.lt_of_le_of_lt (skipData_length _hd) (readHeader_length _hh)

/-- `load_archive` on the contents of the file. -/
def loadArchive (file : Bytes) : Option (List Loaded) :=
  if file.take 8 ≠ MAGIC then none else loadLoop [] (file.drop 8)

/-! ### The writer -/

/-- `append_longname` for every member with a long name: the table and each member's offset. -/
def layoutLong (table : Bytes) : List Blob → Option (Bytes × List (Option Nat))
  | [] => some (table, [])
  | b :: bs =>
    if b.name.1.length > MEMBER_NAME_MAX then
      if b.name.1.length > SIZE_MAX - 2 ∨ table.length > SIZE_MAX - b.name.1.length - 2 then none
      else
        (layoutLong (table ++ (b.name.1 ++ [SLASH, NEWLINE])) bs).map fun r =>
          (r.1, some table.length :: r.2)
    else (layoutLong table bs).map fun r => (r.1, none :: r.2)

/-- The size of a record with that much data. -/
def recordSize (size : Nat) : Nat := HEADER_SIZE + size + size % 2

/-- The offsets of the members' headers in the file, the first one at `offset`. -/
def memberOffsets (offset : Nat) : List Blob → Option (List Nat)
  | [] => some []
  | b :: bs =>
    if offset > UINT32_MAX then none
    else if b.data.length > SIZE_MAX - HEADER_SIZE - 1 then none
    else (memberOffsets (offset + recordSize b.data.length) bs).map (offset :: ·)

/-- `strcmp(a, b) <= 0`. -/
def strcmpLe : Bytes → Bytes → Bool
  | [], _ => true
  | _ :: _, [] => false
  | a :: as, b :: bs => a < b || (a = b && strcmpLe as bs)

/-- `compare_symbols`, as an order. -/
def symbolLe (a b : CString × Nat) : Bool :=
  if a.1 = b.1 then a.2 ≤ b.2 else strcmpLe a.1.1 b.1.1

/-- The index: the number of symbols, the offsets of their members, their names. -/
def buildIndex (symbols : List (CString × Nat)) (offsets : List Nat) : Option Bytes :=
  if symbols.length > UINT32_MAX then none
  else
    (symbols.mapM fun s => offsets[s.2]?).map fun offs =>
      beBytes 4 symbols.length ++ offs.flatMap (beBytes 4) ++ symbols.flatMap (·.1.1 ++ [0])

/-- The size of the index. -/
def indexSize (symbols : List (CString × Nat)) : Nat :=
  4 + symbols.length * 4 + (symbols.map (·.1.1.length + 1)).sum

/-- `struct ar_layout` and the index. -/
structure ArLayout where
  index : Bytes
  longnames : Bytes
  longOffsets : List (Option Nat)

section

-- The names that `collect_blob_symbols` appends for a member; `none` is the result -1.
variable (collectBlobSymbols : Bytes → Option (List CString))

/-- The symbols of all members, each with its member's number. -/
def collectSymbols (member : Nat) : List Blob → Option (List (CString × Nat))
  | [] => some []
  | b :: bs =>
    (collectBlobSymbols b.data).bind fun names =>
      (collectSymbols (member + 1) bs).map fun rest =>
        -- `append_symbol` ignores an empty name
        (names.filter (·.1 ≠ [])).map (·, member) ++ rest

/-- `prepare_archive`, with `build_layout`. -/
def prepareArchive (collection : List Blob) : Option ArLayout :=
  (collectSymbols collectBlobSymbols 0 collection).bind fun found =>
    (layoutLong [] collection).bind fun (longnames, longOffsets) =>
      let symbols := found.insertionSort (fun a b => symbolLe a b = true)
      if indexSize symbols > SIZE_MAX - HEADER_SIZE then none
      else
        let longSize := if longnames = [] then 0 else recordSize longnames.length
        let start := 8 + recordSize (indexSize symbols)
        if start > SIZE_MAX - longSize then none
        else
          (memberOffsets (start + longSize) collection).bind fun offsets =>
            (buildIndex symbols offsets).map fun index => ⟨index, longnames, longOffsets⟩

/-- `write_header`. -/
def writeHeader (name : Bytes) (size : Nat) : Option Bytes :=
  if name.length > MEMBER_NAME_SIZE then none
  else do
    let date ← putDecimal 12 0
    let uid ← putDecimal 6 0
    let gid ← putDecimal 6 0
    let mode ← putDecimal 8 420
    let size ← putDecimal 10 size
    some (name ++ List.replicate (MEMBER_NAME_SIZE - name.length) SPACE ++ date ++ uid ++ gid ++
      mode ++ size ++ [96, 10])

/-- `write_record`. -/
def writeRecord (name data : Bytes) : Option Bytes :=
  (writeHeader name data.length).map fun header =>
    header ++ (data ++ if data.length % 2 = 1 then [NEWLINE] else [])

/-- The name that `write_archive` puts into a member's header. -/
def headerName (b : Blob) (longOffset : Option Nat) : Option Bytes :=
  if b.name.1.length ≤ MEMBER_NAME_MAX then some (b.name.1 ++ [SLASH])
  else
    match longOffset with
    | none => none
    | some offset =>
      if (decimal offset).length + 1 > 16 then none else some (SLASH :: decimal offset)

/-- The loop of `write_archive`. -/
def writeMembers : List Blob → List (Option Nat) → Option Bytes
  | [], _ => some []
  | b :: bs, offs => do
      let name ← headerName b (offs.head?.getD none)
      let record ← writeRecord name b.data
      let rest ← writeMembers bs offs.tail
      some (record ++ rest)

/-- The record of the table of long names, if there is one. -/
def writeTable (longnames : Bytes) : Option Bytes :=
  if longnames = [] then some [] else writeRecord [SLASH, SLASH] longnames

/-- `write_archive`: the contents of the file. -/
def writeArchive (collection : List Blob) (layout : ArLayout) : Option Bytes := do
  let index ← writeRecord [SLASH] layout.index
  let longnames ← writeTable layout.longnames
  let members ← writeMembers collection layout.longOffsets
  some (MAGIC ++ (index ++ (longnames ++ members)))

end

end MeuOS.Ar
