import MeuOS.Sysroot.Msys
import Mathlib.Data.List.Sort

namespace MeuOS.Sysroot

open MeuOS.Lib

/-!
# Writing `.msys` archives (`mkmsys/main.c`)

* `addMetadata`, `sortEntries` — what is packed: the collected entries and an `@mt/` entry for each,
  in the order of `entry_cmp`;
* `predictOffsets`, `writeBlocks` — the loop that computes where each block will stand, and the one
  that writes them;
* `writeMsys`, `writeMsysV2` — the file of either format.
-/

/-- The libraries that mkmsys loads, as far as it uses them. `none` is an error code of
`ZSTD_compress`, which is larger than any size. -/
structure PackLibs where
  zlibCompress : Bytes → Bytes
  zstdCompress : Bytes → Option Bytes
  /-- `ed25519_sign(sk, msg)` -/
  ed25519Sign : Bytes → Bytes → Bytes

/-- `--compress=`. -/
inductive Compression where
  | zlib | zstd
  deriving DecidableEq, Repr

/-- What the command line selects, besides the entries. -/
structure PackOptions where
  v2 : Bool := false
  compress : Option Compression := none
  incremental : Bool := false
  dedup : Bool := false
  streaming : Bool := false
  signKey : Option Bytes := none

/-- `flags`, as `main` builds it. -/
def PackOptions.flags (o : PackOptions) : Nat :=
  (match o.compress with
    | some .zlib => 0x01
    | some .zstd => 0x02
    | none => 0) +
  (if o.incremental then 0x04 else 0) + (if o.dedup then 0x0100 else 0) +
  (if o.streaming then 0x2000 else 0)

/-- `struct entry`; the hash of the name and of the data are computed when it is added. -/
structure Entry where
  name : Bytes
  data : Bytes
  mtime : Nat := 0
  fileType : Nat := 0
  mode : Nat := 0
  uid : Nat := 0
  gid : Nat := 0
  deriving DecidableEq, Repr

/-- `e->hash`. -/
def Entry.hash (e : Entry) : Nat := msysFnv1a e.name

/-- `e->name[0] == '@'`. -/
def Entry.isMeta (e : Entry) : Bool := e.name.head? = some 0x40

/-- `align4`. -/
def align4 (n : Nat) : Nat := (n + 3) / 4 * 4

/-! ### The entries -/

/-- The name of the metadata entry for a name: `@mt/` before it. -/
def mtName (name : Bytes) : Bytes := [0x40, 0x6d, 0x74, 0x2f] ++ name

/-- The metadata entry for an entry, with the time of its last change. -/
def mtEntry (e : Entry) : Entry := { name := mtName e.name, data := leBytes 8 e.mtime }

/-- The entries with a metadata entry for each that is not one itself. -/
def addMetadata (c : List Entry) : List Entry :=
  c ++ (c.filter fun e => !e.isMeta).map mtEntry

/-- `strcmp(a, b) <= 0`. -/
def strcmpLe : Bytes → Bytes → Bool
  | [], _ => true
  | _ :: _, [] => false
  | a :: as, b :: bs => a < b || (a = b && strcmpLe as bs)

/-- `entry_cmp(a, b) <= 0`. -/
def entryLe (a b : Entry) : Prop := a.hash < b.hash ∨ (a.hash = b.hash ∧ strcmpLe a.name b.name)

instance : DecidableRel entryLe := fun a b =>
  inferInstanceAs (Decidable (a.hash < b.hash ∨ (a.hash = b.hash ∧ strcmpLe a.name b.name)))

/-- `qsort` of the entries by `entry_cmp`, which no two names make equal. -/
def sortEntries (c : List Entry) : List Entry := c.insertionSort entryLe

/-! ### Phase 1: compression -/

/-- What the codec makes of some data. -/
def codecOutput (P : PackLibs) (o : PackOptions) (data : Bytes) : Option Bytes :=
  match o.compress with
  | none => none
  | some .zlib => some (P.zlibCompress data)
  | some .zstd => P.zstdCompress data

/-- `compressed[i]`: the codec's output, where it is shorter than the data. -/
def compressedBlock (P : PackLibs) (o : PackOptions) (data : Bytes) : Option Bytes :=
  if data.isEmpty then none
  else (codecOutput P o data).filter fun out => out.length < data.length

/-- What is stored of an entry: compressed where that made it shorter. -/
def storedBytes (P : PackLibs) (o : PackOptions) (e : Entry) : Bytes :=
  (compressedBlock P o e.data).getD e.data

/-- A block of the archive: the entry, the bytes that are stored for it, and the earlier entry whose
bytes it shares (`dedup_map`). -/
structure Block where
  entry : Entry
  stored : Bytes
  dup : Option Nat

/-- The first entry of a list with the same content. -/
def firstSame (earlier : List Entry) (e : Entry) : Option Nat :=
  earlier.findIdx? fun f => f.data.length = e.data.length && sha256 f.data = sha256 e.data

/-- `dedup_map[i]`, for an entry with these before it. -/
def dedupOf (dedup : Bool) (earlier : List Entry) (e : Entry) : Option Nat :=
  if dedup && !e.data.isEmpty && !e.isMeta then firstSame earlier e else none

/-- The blocks of the sorted entries, with `earlier` before them. -/
def blocksFrom (P : PackLibs) (o : PackOptions) (dedup : Bool) (earlier : List Entry) :
    List Entry → List Block
  | [] => []
  | e :: es =>
    ⟨e, storedBytes P o e, dedupOf dedup earlier e⟩ ::
      blocksFrom P o dedup (earlier ++ [e]) es

/-! ### Phase 2: the offsets -/

/-- `stream_oh`: the size of the inline header. -/
def streamOverhead (streaming : Bool) (b : Block) : Nat :=
  if streaming && b.dup.isNone then 6 + b.entry.name.length else 0

/-- `cur` behind a block. -/
def advance (streaming : Bool) (cur : Nat) (b : Block) : Nat :=
  align4 cur + streamOverhead streaming b + b.stored.length

/-- `data_offsets`, with `offs` for the blocks before. -/
def predictOffsets (streaming : Bool) : List Block → Nat → List Nat → List Nat
  | [], _, offs => offs
  | b :: bs, cur, offs =>
    let off :=
      match b.dup with
      | some j => offs.getD j 0
      | none => align4 cur + streamOverhead streaming b
    predictOffsets streaming bs (advance streaming cur b) (offs ++ [off])

/-! ### Phase 4: the data -/

/-- The zeros up to the next multiple of four. -/
def padding (pos : Nat) : Bytes := List.replicate (align4 pos - pos) 0

/-- The inline header of a block. -/
def inlineHeader (streaming : Bool) (b : Block) : Bytes :=
  if streaming then
    leBytes 2 b.entry.name.length ++ b.entry.name.take (b.entry.name.length % 2 ^ 16) ++
      leBytes 4 b.stored.length
  else []

/-- The data blocks from position `pos` of the file on. -/
def writeBlocks (streaming : Bool) : List Block → Nat → Bytes
  | [], _ => []
  | b :: bs, pos =>
    if b.dup.isSome then writeBlocks streaming bs pos
    else
      let out := padding pos ++
        (if b.entry.data.isEmpty then [] else inlineHeader streaming b ++ b.stored)
      out ++ writeBlocks streaming bs (pos + out.length)

/-! ### Version 1 -/

/-- An index entry of version 1. -/
def indexEntryV1 (b : Block) (off : Nat) : Bytes :=
  leBytes 4 b.entry.hash ++ leBytes 6 off ++ leBytes 4 b.stored.length ++
    leBytes 2 b.entry.name.length ++ b.entry.name

/-- `write_msys`: the bytes of the file. -/
def writeMsys (P : PackLibs) (o : PackOptions) (c : List Entry) : Bytes :=
  let blocks := blocksFrom P o false [] (sortEntries (addMetadata c))
  let offs := predictOffsets false blocks 32 []
  let index_offset := align4 (blocks.foldl (advance false) 32)
  let header := msysMagic ++ leBytes 8 index_offset ++ leBytes 4 blocks.length ++
    leBytes 4 o.flags ++ List.replicate 8 0
  let data := writeBlocks false blocks 32
  header ++ data ++ padding (32 + data.length) ++ (List.zipWith indexEntryV1 blocks offs).flatten

/-! ### Version 2 -/

/-- A record of the directory block. -/
structure DirItem where
  parent : Nat
  name : Bytes
  type : Nat
  deriving DecidableEq

/-- The components of a path from `pos` on, each added to the block unless it is there; a round
takes at least the slash. -/
def dirWalk (e : Entry) : Nat → Nat → List DirItem → List DirItem
  | 0, _, items => items
  | n + 1, pos, items =>
    let rest := e.name.drop pos
    let part := rest.takeWhile (· ≠ 0x2f)
    let slash := part.length < rest.length
    if rest.isEmpty then items
    else
      let parent := if 0 < pos then msysFnv1a (e.name.take (pos - 1)) / 2 ^ 16 else 0
      let name := part.take (part.length % 2 ^ 8)
      let items :=
        if items.any fun d => d.parent = parent && d.name = name then items
        else items ++ [⟨parent, name, if slash then 1 else e.fileType % 2 ^ 8⟩]
      if slash then dirWalk e n (pos + part.length + 1) items else items

/-- The directory block's records; `pathcopy` holds 4095 bytes and a NUL. -/
def dirItems (es : List Entry) : List DirItem :=
  es.foldl (fun items e =>
    if e.isMeta || 4096 ≤ e.name.length then items else dirWalk e e.name.length 0 items) []

/-- The bytes of a record of the directory block. -/
def dirItemBytes (d : DirItem) : Bytes :=
  leBytes 2 d.parent ++ leBytes 1 d.name.length ++ leBytes 1 d.type ++ d.name

/-- `content_hash_present`. -/
def hashPresent (dedup : Bool) (b : Block) : Bool := dedup || !b.entry.data.isEmpty

/-- An index entry of version 2. -/
def indexEntryV2 (dedup : Bool) (b : Block) (off : Nat) : Bytes :=
  leBytes 4 b.entry.hash ++ leBytes 6 off ++ leBytes 4 b.stored.length ++
    leBytes 4 b.entry.data.length ++ leBytes 2 b.entry.fileType ++ leBytes 2 b.entry.mode ++
    leBytes 4 b.entry.uid ++ leBytes 4 b.entry.gid ++ leBytes 1 b.entry.name.length ++
    leBytes 1 (if hashPresent dedup b then 1 else 0) ++ b.entry.name ++
    (if hashPresent dedup b then sha256 b.entry.data else [])

/-- The `sign` extension block over an index, padded to its place. -/
def signBlock (P : PackLibs) (o : PackOptions) (pos : Nat) (index : Bytes) : Bytes :=
  match o.signKey with
  | none => []
  | some sk =>
    padding pos ++ leBytes 4 0x6e676973 ++ leBytes 4 64 ++ P.ed25519Sign sk (sha256 index)

/-- `write_msys_v2`: the bytes of the file, with the header that is written over the first. -/
def writeMsysV2 (P : PackLibs) (o : PackOptions) (c : List Entry) : Bytes :=
  let es := sortEntries (addMetadata c)
  let blocks := blocksFrom P o o.dedup [] es
  let offs := predictOffsets o.streaming blocks 72 []
  let data := writeBlocks o.streaming blocks 72
  let items := dirItems es
  let dir := if items.isEmpty then [] else padding (72 + data.length) ++ items.flatMap dirItemBytes
  let body := data ++ dir
  let index_offset := align4 (72 + body.length)
  let index := (List.zipWith (indexEntryV2 o.dedup) blocks offs).flatten
  let header := msysMagicV2 ++ leBytes 8 index_offset ++ leBytes 4 blocks.length ++
    leBytes 4 (o.flags + 0x1000) ++
    leBytes 8 (if items.isEmpty then 0 else align4 (72 + data.length)) ++
    leBytes 4 items.length ++
    leBytes 4 (if o.signKey.isSome then align4 (index_offset + index.length) else 0) ++
    List.replicate 32 0
  header ++ body ++ padding (72 + body.length) ++ index ++
    signBlock P o (index_offset + index.length) index

/-- The file that mkmsys writes. -/
def pack (P : PackLibs) (o : PackOptions) (c : List Entry) : Bytes :=
  if o.v2 then writeMsysV2 P o c else writeMsys P o c

end MeuOS.Sysroot
