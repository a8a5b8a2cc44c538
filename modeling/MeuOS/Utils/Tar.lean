import MeuOS.Lib.Field
import MeuOS.Lib.Decimal

namespace MeuOS.Utils

open MeuOS.Lib

/-!
# Tar archives (`utils/arch/tar.c`)

An archive is a row of blocks of 512 bytes.  Every entry has a header block, in front of which a
long name has a record of its own, and behind which the data of a regular file follow.

* `TarHeader` — the header, its fields of their lengths, and its bytes;
* `writeHeader`, `archiveFile`, `archive` — the writer;
* `extractLoop`, `doExtract` — the reader that creates the entries, as the requests it makes;
* `listLoop`, `doList` — the reader that prints the names;
* `Entry.requests`, `expectedRequests` — what creating the entries takes.
-/

def BLOCK : Nat := 512
def NAME_MAX_TAR : Nat := 100
def PATH_MAX : Nat := 4096

/-- The characters that the format or the paths give a meaning. -/
def SPACE : UInt8 := 32
def SLASH : UInt8 := 47
def NEWLINE : UInt8 := 10

/-- The text `path=`, and the magic. -/
def PATH_EQ : Bytes := [112, 97, 116, 104, 61]
def USTAR : Bytes := [117, 115, 116, 97, 114]

/-- `typeflag`: a regular file, a symbolic link, a directory, and the record of a long name. -/
def REGTYPE : UInt8 := 48
def SYMTYPE : UInt8 := 50
def DIRTYPE : UInt8 := 53
def LONGTYPE : UInt8 := 76

/-! ### Fields -/

/-- A field of a header. -/
abbrev Field (n : Nat) := { b : Bytes // b.length = n }

/-- A field after `memset`. -/
def Field.zero (n : Nat) : Field n := ⟨List.replicate n 0, List.length_replicate⟩

/-- `strncpy(field, s, n)` on a field of zeros, for `n` at most its length. -/
def strncpyField (w n : Nat) (s : Bytes) (h : n ≤ w) : Field w :=
  ⟨s.take n ++ List.replicate (w - (s.take n).length) 0, by
    have := List.length_take_le n s
    rw [List.length_append, List.length_replicate]
    omega⟩

/-- The last octal digits of a number. -/
def octalDigits : Nat → Nat → Bytes
  | 0, _ => []
  | n + 1, val => octalDigits n (val / 8) ++ [UInt8.ofNat (48 + val % 8)]

@[simp] theorem length_octalDigits (n val : Nat) : (octalDigits n val).length = n := by
  induction n generalizing val with
  | zero => rfl
  | succ n ih => simp [octalDigits, ih]

/-- `write_octal(field, sizeof(field) - 1, val)`: the digits, a blank, and the byte not written. -/
def octalField (n val : Nat) : Field (n + 2) :=
  ⟨octalDigits n val ++ [SPACE, 0], by rw [List.length_append, length_octalDigits]; rfl⟩

/-- `parse_octal`, with the digits read so far. -/
def parseOctal : Nat → Bytes → Nat
  | val, [] => val
  | val, c :: cs =>
    if 48 ≤ c ∧ c ≤ 55 then parseOctal (val * 8 + (c.toNat - 48)) cs
    else if c = SPACE ∨ c = 0 then parseOctal val cs
    else val

/-- `tar_header_t`. -/
structure TarHeader where
  name : Field 100
  mode : Field 8
  uid : Field 8
  gid : Field 8
  size : Field 12
  mtime : Field 12
  chksum : Field 8
  typeflag : UInt8
  linkname : Field 100
  magic : Field 6
  version : Field 2
  uname : Field 32
  gname : Field 32
  devmajor : Field 8
  devminor : Field 8
  pathPrefix : Field 155
  pad : Field 12

/-- The header in memory. -/
def TarHeader.bytes (h : TarHeader) : Bytes :=
  h.name.1 ++ (h.mode.1 ++ (h.uid.1 ++ (h.gid.1 ++ (h.size.1 ++ (h.mtime.1 ++ (h.chksum.1 ++
    ([h.typeflag] ++ (h.linkname.1 ++ (h.magic.1 ++ (h.version.1 ++ (h.uname.1 ++ (h.gname.1 ++
      (h.devmajor.1 ++ (h.devminor.1 ++ (h.pathPrefix.1 ++ h.pad.1)))))))))))))))

/-- `init_header`. -/
def initHeader : TarHeader where
  name := .zero 100
  mode := .zero 8
  uid := .zero 8
  gid := .zero 8
  size := .zero 12
  mtime := .zero 12
  chksum := .zero 8
  typeflag := REGTYPE
  linkname := .zero 100
  magic := ⟨USTAR ++ [SPACE], rfl⟩
  version := ⟨[48, 48], rfl⟩
  uname := .zero 32
  gname := .zero 32
  devmajor := .zero 8
  devminor := .zero 8
  pathPrefix := .zero 155
  pad := .zero 12

/-- `calc_chksum`: the sum of the bytes, those of the checksum itself taken as blanks. -/
def calcChksum (h : TarHeader) : Nat :=
  (h.bytes.zipIdx.map fun p => if 148 ≤ p.2 ∧ p.2 < 156 then SPACE.toNat else p.1.toNat).sum

/-- A header with its checksum, as it is written. -/
def TarHeader.sealed (h : TarHeader) : TarHeader :=
  { h with
    chksum := ⟨octalDigits 6 (calcChksum h) ++ [0, SPACE],
      by rw [List.length_append, length_octalDigits]; rfl⟩ }

/-! ### The writer -/

/-- What `archive_file` finds at a path. -/
inductive Node where
  | regular (content : Bytes)
  | directory
  | symlink (target : Bytes)
  deriving DecidableEq

/-- A call of `archive_file`: the name in the archive, and the file with what `lstat` tells. -/
structure Entry where
  arcname : Bytes
  node : Node
  st_mode : Nat
  st_uid : Nat
  st_gid : Nat
  st_mtime : Nat
  deriving DecidableEq

/-- `st->st_mode & 07777`. -/
def Entry.mode (e : Entry) : Nat := e.st_mode &&& 0o7777

def Node.typeflag : Node → UInt8
  | .regular _ => REGTYPE
  | .directory => DIRTYPE
  | .symlink _ => SYMTYPE

/-- The bytes of a regular file. -/
def Node.content : Node → Bytes
  | .regular content => content
  | _ => []

/-- The text that `readlink` gives for a link. -/
def Node.linkname : Node → Bytes
  | .symlink target => target
  | _ => []

/-- The bytes that are missing to a full block. -/
def padLength (size : Nat) : Nat := if size % BLOCK = 0 then 0 else BLOCK - size % BLOCK

/-- `write_padding`. -/
def padding (size : Nat) : Bytes := List.replicate (padLength size) 0

/-- The text of the record that carries a long name. -/
def paxRecord (name : Bytes) : Bytes :=
  decimal name.length ++ ([SPACE] ++ (PATH_EQ ++ (name ++ [NEWLINE])))

/-- The header in front of it. -/
def longHeader (name : Bytes) : TarHeader :=
  TarHeader.sealed
    { initHeader with
      typeflag := LONGTYPE
      size := octalField 10 (paxRecord name).length }

/-- What a long name adds in front of the header. -/
def longRecord (name : Bytes) : Bytes :=
  if NAME_MAX_TAR < name.length then
    (longHeader name).bytes ++ (paxRecord name ++ padding (paxRecord name).length)
  else []

/-- The header of an entry. -/
def entryHeader (e : Entry) : TarHeader :=
  TarHeader.sealed
    { initHeader with
      name :=
        if NAME_MAX_TAR < e.arcname.length then strncpyField 100 NAME_MAX_TAR e.arcname (by decide)
        else strncpyField 100 (NAME_MAX_TAR - 1) e.arcname (by decide)
      mode := octalField 6 e.mode
      uid := octalField 6 e.st_uid
      gid := octalField 6 e.st_gid
      size := octalField 10 e.node.content.length
      mtime := octalField 10 e.st_mtime
      typeflag := e.node.typeflag
      linkname := strncpyField 100 (NAME_MAX_TAR - 1) e.node.linkname (by decide) }

/-- `write_header`. -/
def writeHeader (e : Entry) : Bytes := longRecord e.arcname ++ (entryHeader e).bytes

/-- `archive_file`: the header, and the data of a regular file. -/
def archiveFile (e : Entry) : Bytes :=
  writeHeader e ++ (e.node.content ++ padding e.node.content.length)

/-- The archive of a row of entries, with the two empty blocks of `do_create`. -/
def archive (es : List Entry) : Bytes := es.flatMap archiveFile ++ List.replicate 1024 0

/-! ### The readers -/

/-- A C string at the front of a buffer. -/
def cstr (buf : Bytes) : Bytes := buf.takeWhile (· ≠ 0)

/-- The fields of a header that the readers use. -/
def typeflagOf (buf : Bytes) : UInt8 := buf.getD 156 0
def sizeOfHeader (buf : Bytes) : Nat := parseOctal 0 (slice buf 124 12)
def modeOf (buf : Bytes) : Nat := parseOctal 0 (slice buf 100 8)
def mtimeOf (buf : Bytes) : Nat := parseOctal 0 (slice buf 136 12)
def linknameOf (buf : Bytes) : Bytes := cstr (buf.drop 157)

/-- The name in a header: what is behind the field is read with it where no zero ends it. -/
def headerName (buf : Bytes) : Bytes :=
  let name := cstr buf
  (if buf.getD 345 0 ≠ 0 then cstr (buf.drop 345) ++ SLASH :: name else name).take (PATH_MAX - 1)

/-- A block at which the loops stop: all zeros, or not a header. -/
def isEnd (buf : Bytes) : Bool := buf.all (· = 0) || slice buf 257 5 ≠ USTAR

/-- What the extraction asks of the file system. -/
inductive Request where
  /-- The calls of `mkdir` that `mkdir_p` makes, unless one of them fails. -/
  | mkdirs (paths : List Bytes) (mode : Nat)
  | unlink (path : Bytes)
  | symlink (target path : Bytes)
  /-- `open` with `O_CREAT | O_TRUNC`, and what is written, if it was opened. -/
  | file (path : Bytes) (mode : Nat) (content : Option Bytes)
  | utime (path : Bytes) (mtime : Nat)
  deriving DecidableEq

/-- Whether a request is about an entry, and not about its time. -/
def Request.creates : Request → Bool
  | .utime .. => false
  | _ => true

/-- The path without a slash at its end, as `mkdir_p` keeps it. -/
def mkdirPath (path : Bytes) : Bytes :=
  let tmp := path.take (PATH_MAX - 1)
  if tmp.getLast? = some SLASH then tmp.dropLast else tmp

/-- The paths on which `mkdir_p` calls `mkdir`: up to every slash but the first character, and the
    whole. -/
def mkdirPaths (path : Bytes) : List Bytes :=
  let tmp := mkdirPath path
  ((List.range tmp.length).filter fun j => 1 ≤ j ∧ tmp[j]? = some SLASH).map tmp.take ++ [tmp]

/-- The directories above a name: what is before the last slash. -/
def parentDirs (name : Bytes) : List Request :=
  if SLASH ∈ name then
    [.mkdirs (mkdirPaths (name.reverse.dropWhile (· ≠ SLASH)).tail.reverse) 0o755]
  else []

/-- The record of a long name and the header behind it: the name, the header and what follows.
    Where the data end early the loop that reads the name does not end. -/
def readLongName (buf s : Bytes) : Option (Option Bytes × Bytes × Bytes) :=
  if typeflagOf buf = LONGTYPE then
    let pendingSize := sizeOfHeader buf
    if s.length < pendingSize then none
    else
      let s' := s.drop (pendingSize + padLength pendingSize)
      let got := s'.take BLOCK
      some (some (cstr (s.take pendingSize)), got ++ buf.drop got.length, s'.drop BLOCK)
  else some (none, buf, s)

/-- The body of the loop of `do_extract`, from a header and the entry's name on; `opened` is
    whether `open` succeeds. -/
def extractEntry (opened : Bool) (buf name s : Bytes) : List Request × Bytes :=
  let size := sizeOfHeader buf
  let mode := modeOf buf
  if typeflagOf buf = DIRTYPE then ([.mkdirs (mkdirPaths name) mode], s)
  else if typeflagOf buf = SYMTYPE then
    (.unlink name :: (parentDirs name ++ [.symlink (linknameOf buf) name]), s)
  else
    let mode := if mode = 0 then 0o644 else mode
    let s' := s.drop (size + padLength size)
    if opened then
      (parentDirs name ++ [.file name mode (some (s.take size)), .utime name (mtimeOf buf)], s')
    else (parentDirs name ++ [.file name mode none], s')

/-- The loop of `do_extract`; the `k`-th entry's file can be opened if `opens k` says so. -/
def extractLoop (opens : Nat → Bool) : Nat → Nat → Bytes → Option (List Request)
  | 0, _, _ => none
  | fuel + 1, k, s =>
    let buf := s.take BLOCK
    if s.length < BLOCK ∨ isEnd buf then some []
    else
      (readLongName buf (s.drop BLOCK)).bind fun (paxPath, buf, s) =>
        let name := match paxPath with
          | some path => path.take (PATH_MAX - 1)
          | none => headerName buf
        let (requests, s) := extractEntry (opens k) buf name s
        (extractLoop opens fuel (k + 1) s).map (requests ++ ·)

/-- `do_extract`: every round takes a block, so the length bounds their number. -/
def doExtract (opens : Nat → Bool) (s : Bytes) : Option (List Request) :=
  extractLoop opens (s.length + 1) 0 s

/-- The blocks that hold data of a size. -/
def blocks (size : Nat) : Nat := (size + BLOCK - 1) / BLOCK

/-- The record of a long name in `do_list`: the header behind it and what follows. -/
def skipLongName (buf s : Bytes) : Option (Bytes × Bytes) :=
  if typeflagOf buf = LONGTYPE then
    let s' := s.drop (BLOCK * blocks (sizeOfHeader buf))
    if s'.length < BLOCK then none else some (s'.take BLOCK, s'.drop BLOCK)
  else some (buf, s)

/-- The loop of `do_list`. -/
def listLoop : Nat → Bytes → Option (List Bytes)
  | 0, _ => none
  | fuel + 1, s =>
    let buf := s.take BLOCK
    if s.length < BLOCK ∨ isEnd buf then some []
    else
      match skipLongName buf (s.drop BLOCK) with
      | none => some []
      | some (buf, s) =>
        let skipped := if typeflagOf buf = REGTYPE ∨ typeflagOf buf = 0 then
          BLOCK * blocks (sizeOfHeader buf) else 0
        (listLoop fuel (s.drop skipped)).map (headerName buf :: ·)

/-- `do_list`: the lines it prints. -/
def doList (s : Bytes) : Option (List Bytes) := listLoop (s.length + 1) s

/-! ### What the entries are -/

/-- The requests that create an entry. -/
def Entry.requests (opened : Bool) (e : Entry) : List Request :=
  match e.node with
  | .directory => [.mkdirs (mkdirPaths e.arcname) e.mode]
  | .symlink target => .unlink e.arcname :: (parentDirs e.arcname ++ [.symlink target e.arcname])
  | .regular content =>
    parentDirs e.arcname ++ [.file e.arcname e.mode (if opened then some content else none)]

/-- The requests that create a row of entries, from the `k`-th on. -/
def expectedRequests (opens : Nat → Bool) : Nat → List Entry → List Request
  | _, [] => []
  | k, e :: es => e.requests (opens k) ++ expectedRequests opens (k + 1) es

/-- The calls that the format is meant for. -/
structure Entry.Valid (e : Entry) : Prop where
  name_noZero : (0 : UInt8) ∉ e.arcname
  name_lt : e.arcname.length < PATH_MAX
  link_noZero : (0 : UInt8) ∉ e.node.linkname
  link_le : e.node.linkname.length ≤ 99
  content_lt : e.node.content.length < 2 ^ 33

/-- What the readers give back as it was: names that fit the field with a zero behind, sizes of at
    most ten octal digits, and regular files with some permission. -/
structure Entry.Fits (e : Entry) : Prop where
  name_le : e.arcname.length ≤ 99
  content_lt : e.node.content.length < 2 ^ 30
  mode_ne : ∀ content, e.node = .regular content → e.mode ≠ 0

end MeuOS.Utils
