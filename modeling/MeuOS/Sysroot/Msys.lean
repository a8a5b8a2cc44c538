import MeuOS.Lib.Bytes
import MeuOS.Lib.HashIndex
import MeuOS.Sysroot.Sha256

namespace MeuOS.Sysroot

open MeuOS.Lib List

/-!
# Reading `.msys` archives (`libmsys/msys.c`)

An archive is a header, the data, an index of variable-length entries ordered by the FNV-1a hash of
their names, and (version 2) extension blocks. A pointer into the mapped file is modelled as the
bytes from there to the end of the file.

* `msysOpen` checks the header and walks the index; a `Msys` is an archive that passed;
* `msysSearch` looks a name up, `msysLoad` reads it, following symbolic links;
* `msysVerify`, `msysVerifyAll` compare contents with the hashes in the index and
  `msysVerifySignature` the index with its signature.
-/

/-- The `errno` values that msys.c sets. -/
inductive MsysErrno where
  | einval | eio | enoent | enomsg | enosys
  deriving DecidableEq, Repr

/-- What msys.c gets from libraries it loads at run time: `decompress_zlib` (libz),
`decompress_zstd` (libzstd) and `ed25519_verify` (libsodium). -/
structure Libs where
  decompressZlib : Bytes → Option Bytes
  decompressZstd : Bytes → Option Bytes
  /-- `ed25519_verify(pk, msg, sig) == 1` -/
  ed25519Verify : Bytes → Bytes → Bytes → Bool

/-- The little-endian number in `k` bytes from `off` on: `read16`, `read32`, `read48`. -/
def readLe (p : Bytes) (off k : Nat) : Nat := leNat (slice p off k)

/-- `MSYS_MAGIC`. -/
def msysMagic : Bytes := [0x4d, 0x73, 0x79, 0x73, 0x31, 0, 0, 0]

/-- `MSYS_MAGIC_V2`. -/
def msysMagicV2 : Bytes := [0x4d, 0x73, 0x79, 0x73, 0x32, 0, 0, 0]

/-- `MSYS_FILE_REG`. -/
def msysFileReg : Nat := 0

/-- `MSYS_FILE_SYMLINK`. -/
def msysFileSymlink : Nat := 2

/-- `msys_fnv1a`. -/
def msysFnv1a (name : Bytes) : Nat :=
  (name.foldl (fun h c => (h ^^^ c.toUInt32) * 16777619) (2166136261 : UInt32)).toNat

/-- The string at a `char *`: it ends at the first NUL. -/
def cString (p : Bytes) : Bytes := p.takeWhile (· ≠ 0)

/-! ### Header fields

They stand at the same places in both versions. -/

/-- `hdr->index_offset`. -/
def indexOffset (file : Bytes) : Nat := readLe file 8 8

/-- `hdr->index_count`. -/
def indexCount (file : Bytes) : Nat := readLe file 16 4

/-- `hdr->flags`. -/
def hdrFlags (file : Bytes) : Nat := readLe file 20 4

/-- `hdr_v2->extension_offset`. -/
def extensionOffset (file : Bytes) : Nat := readLe file 36 4

/-- `flags & MSYS_F_ZLIB`. -/
def hasZlib (file : Bytes) : Bool := (hdrFlags file).testBit 0

/-- `flags & MSYS_F_ZSTD`. -/
def hasZstd (file : Bytes) : Bool := (hdrFlags file).testBit 1

/-! ### Fields of an index entry -/

/-- The size of an entry's fixed part; the name follows it. -/
def entryFixed (v2 : Bool) : Nat := if v2 then 32 else 16

/-- `name_hash`. -/
def entryHash (e : Bytes) : Nat := readLe e 0 4

/-- `entry_doff`. -/
def entryDoff (e : Bytes) : Nat := readLe e 4 6

/-- `entry_dsize`. -/
def entryDsize (e : Bytes) : Nat := readLe e 10 4

/-- `uncompressed_size` (version 2). -/
def entryUsize (e : Bytes) : Nat := readLe e 14 4

/-- `file_type` (version 2). -/
def entryType (e : Bytes) : Nat := readLe e 18 2

/-- `entry_nlen`. -/
def entryNlen (v2 : Bool) (e : Bytes) : Nat := if v2 then readLe e 30 1 else readLe e 14 2

/-- `content_hash_present` (version 2). -/
def entryHashed (e : Bytes) : Bool := readLe e 31 1 ≠ 0

/-- The name, without a NUL. -/
def entryName (v2 : Bool) (e : Bytes) : Bytes := slice e (entryFixed v2) (entryNlen v2 e)

/-- The recorded SHA-256, behind the name (version 2). -/
def entryStored (e : Bytes) : Bytes := slice e (32 + entryNlen true e) 32

/-- The size of an entry in the file. -/
def entryLen (v2 : Bool) (e : Bytes) : Nat :=
  entryFixed v2 + entryNlen v2 e + (if v2 && entryHashed e then 32 else 0)

/-- A metadata entry: the name starts with `@`. -/
def isMetadata (v2 : Bool) (e : Bytes) : Bool :=
  0 < entryNlen v2 e && readLe e (entryFixed v2) 1 = 0x40

/-- The test of a found entry's name: the lengths and `memcmp`. -/
def isNamed (v2 : Bool) (e name : Bytes) : Bool :=
  entryNlen v2 e = name.length && slice e (entryFixed v2) name.length = name

/-! ### Opening -/

/-- The walk over the index, `n` entries from `p` on, that fills `m->entries`. -/
def walkIndex (v2 : Bool) : Nat → Bytes → Option (List Bytes)
  | 0, _ => some []
  | n + 1, p =>
    if p.length < entryFixed v2 then none
    else if p.length < entryLen v2 p then none
    else (walkIndex v2 n (p.drop (entryLen v2 p))).map (p :: ·)

/-- `struct msys`: an archive that `msys_open` accepted. -/
structure Msys where
  base : Bytes
  v2 : Bool
  entries : List Bytes
  /-- the entries are where the header says -/
  walked : walkIndex v2 (indexCount base) (base.drop (indexOffset base)) = some entries

/-- `sizeof(struct msys_header)` and `sizeof(struct msys_header_v2)`; the fields of the latter take
72 bytes, not the 64 of its comment. -/
def headerSize (v2 : Bool) : Nat := if v2 then 72 else 32

/-- The part of `msys_open` behind the detection of the format. -/
def openIndex (file : Bytes) (v2 : Bool) : Except MsysErrno Msys :=
  if indexOffset file < headerSize v2 ∨ file.length ≤ indexOffset file then .error .einval
  else
    match h : walkIndex v2 (indexCount file) (file.drop (indexOffset file)) with
    | none => .error .einval
    | some entries => .ok ⟨file, v2, entries, h⟩

/-- `msys_open` of a file with these bytes. -/
def msysOpen (file : Bytes) : Except MsysErrno Msys :=
  if file.length < 32 then .error .einval
  else if slice file 0 8 = msysMagic then openIndex file false
  else if slice file 0 8 = msysMagicV2 then openIndex file true
  else .error .einval

/-! ### Looking a name up -/

/-- `m->entries[i]`. -/
def Msys.entry (m : Msys) (i : Nat) : Bytes := m.entries.getD i []

/-- The search that `msys_search`, `msys_verify` and `msys_load_depth` make: bisect for the hash,
then scan the entries with that hash for the name. -/
def msysFind (m : Msys) (name : Bytes) : Lookup :=
  hashSearch (fun i => entryHash (m.entry i)) (fun i => isNamed m.v2 (m.entry i) name)
    (msysFnv1a name) (indexCount m.base) (indexCount m.base) 0 (indexCount m.base)

/-- The stored bytes of an entry. -/
def entryData (m : Msys) (e : Bytes) : Bytes := slice m.base (entryDoff e) (entryDsize e)

/-- `msys_search`; the `*size` bytes at the pointer it returns. -/
def msysSearch (m : Msys) (name : Bytes) : Except MsysErrno Bytes :=
  match msysFind m name with
  | .found i =>
    let e := m.entry i
    if m.base.length < entryDoff e + entryDsize e then .error .eio else .ok (entryData m e)
  | .collision => .error .enomsg
  | .absent => .error .enoent

/-! ### Loading -/

/-- `decompress`. -/
def decompress (L : Libs) (m : Msys) (data : Bytes) : Option Bytes :=
  if hasZlib m.base then L.decompressZlib data
  else if hasZstd m.base then L.decompressZstd data
  else none

/-- What `msys_load` returns (`(int)dsize`) and the buffer it hands out. -/
structure Loaded where
  ret : Int
  buf : Bytes
  deriving DecidableEq, Repr

/-- The buffer of a successful load, with its size as an `int`. -/
def Loaded.of (buf : Bytes) : Loaded := ⟨(buf.length : Int).bmod (2 ^ 32), buf⟩

/-- The end of `msys_load_depth`, from `load_data` on. -/
def loadData (L : Libs) (m : Msys) (data : Bytes) : Option Loaded :=
  if hasZlib m.base || hasZstd m.base then
    if data.isEmpty then some (.of []) else (decompress L m data).map .of
  else some (.of data)

/-- What a symbolic link's data points to: `linkbuf` holds 4095 bytes and a NUL. -/
def linkTarget (data : Bytes) : Bytes := cString (data.take 4095)

/-- `msys_load_depth`; `none` is `-1`. -/
def msysLoadDepth (L : Libs) (m : Msys) : Nat → Bytes → Option Loaded
  | 0, path =>
    match msysSearch m path with
    | .error _ => none
    | .ok data => loadData L m data
  | depth + 1, path =>
    match msysSearch m path with
    | .error _ => none
    | .ok data =>
      match m.v2, msysFind m path with
      | true, .found i =>
        if entryType (m.entry i) = msysFileSymlink then msysLoadDepth L m depth (linkTarget data)
        else loadData L m data
      | _, _ => loadData L m data

/-- `msys_load`. -/
def msysLoad (L : Libs) (m : Msys) (path : Bytes) : Option Loaded := msysLoadDepth L m 8 path

/-! ### Content hashes -/

/-- The bytes that are hashed for an entry whose stored bytes are `data`: decompressed where the
stored size differs from the original size. -/
def hashedContent (L : Libs) (m : Msys) (e data : Bytes) : Option Bytes :=
  if data.length ≠ entryUsize e then decompress L m data else some data

/-- `msys_verify`; `true` is `0`. -/
def msysVerify (L : Libs) (m : Msys) (name : Bytes) : Bool :=
  match msysSearch m name with
  | .error _ => false
  | .ok data =>
    match m.v2, msysFind m name with
    | true, .found i =>
      if entryHashed (m.entry i) then
        match hashedContent L m (m.entry i) data with
        | none => false
        | some content => entryStored (m.entry i) = sha256 content
      else true
    | _, _ => true

/-- The loop of `msys_verify_all`. The name is passed on as the C string where it stands; an entry
that is not found so, or that does not decompress, is passed over. -/
def verifyEntries (L : Libs) (m : Msys) : List Bytes → Except MsysErrno Unit
  | [] => .ok ()
  | e :: es =>
    if isMetadata m.v2 e then verifyEntries L m es
    else if m.v2 && entryHashed e then
      match msysSearch m (cString (e.drop (entryFixed m.v2))) with
      | .error _ => verifyEntries L m es
      | .ok data =>
        match hashedContent L m e data with
        | none => verifyEntries L m es
        | some content =>
          if entryStored e = sha256 content then verifyEntries L m es else .error .eio
    else verifyEntries L m es

/-- `msys_verify_all`. -/
def msysVerifyAll (L : Libs) (m : Msys) : Except MsysErrno Unit := verifyEntries L m m.entries

/-! ### Extension blocks and the signature -/

/-- The walk of `msys_get_extension`, over at most `n` blocks. -/
def findExtension (type : Nat) : Nat → Bytes → Option Bytes
  | 0, _ => none
  | n + 1, p =>
    if p.length < 8 then none
    else
      let bl := readLe p 4 4
      if p.length - 8 < bl then none
      else if readLe p 0 4 = type then some (slice p 8 bl)
      else findExtension type n (p.drop (8 + bl))

/-- `msys_get_extension`; a block takes at least its eight bytes. -/
def msysGetExtension (m : Msys) (type : Nat) : Except MsysErrno Bytes :=
  if !m.v2 then .error .enosys
  else if extensionOffset m.base = 0 then .error .enoent
  else if m.base.length ≤ extensionOffset m.base then .error .einval
  else
    match findExtension type m.base.length (m.base.drop (extensionOffset m.base)) with
    | none => .error .enoent
    | some data => .ok data

/-- How many bytes the walk of `msys_verify_signature` over `n` entries takes. -/
def indexSize : Nat → Bytes → Nat
  | 0, _ => 0
  | n + 1, p =>
    if p.length < 32 then 0
    else if p.length < entryLen true p then 0
    else entryLen true p + indexSize n (p.drop (entryLen true p))

/-- The index block of a version 2 archive, which is what is signed. -/
def indexBlock (m : Msys) : Bytes :=
  slice m.base (indexOffset m.base)
    (indexSize (indexCount m.base) (m.base.drop (indexOffset m.base)))

/-- `msys_verify_signature`; the extension's type is `sign`. -/
def msysVerifySignature (L : Libs) (m : Msys) (pk : Bytes) : Except MsysErrno Unit :=
  if !m.v2 then .error .enosys
  else
    match msysGetExtension m 0x6e676973 with
    | .error _ => .error .enoent
    | .ok sig =>
      if sig.length ≠ 64 then .error .einval
      else if L.ed25519Verify pk (sha256 (indexBlock m)) sig then .ok ()
      else .error .einval

/-! ### Streaming (`libmsys/stream.c`) -/

/-- `struct stream_entry`: the name and the stored bytes of an entry. -/
structure StreamEntry where
  name : Bytes
  data : Bytes
  deriving DecidableEq, Repr

/-- `struct msys_stream`. -/
structure MsysStream where
  entries : List StreamEntry
  pos : Nat

/-- What `msys_stream_open` takes of an entry: `msys_enumerate` refuses data outside the file, and
metadata is skipped. -/
def streamEntry (m : Msys) (e : Bytes) : Option StreamEntry :=
  if m.base.length < entryDoff e + entryDsize e then none
  else if isMetadata m.v2 e then none
  else some ⟨entryName m.v2 e, entryData m e⟩

/-- `msys_stream_open` of a file with these bytes. -/
def msysStreamOpen (file : Bytes) : Except MsysErrno MsysStream :=
  match msysOpen file with
  | .error err => .error err
  | .ok m =>
    if indexCount m.base = 0 then .error .enoent
    else .ok ⟨m.entries.filterMap (streamEntry m), 0⟩

/-- `msys_stream_next`; `none` is `0`. -/
def msysStreamNext (s : MsysStream) : Option (StreamEntry × MsysStream) :=
  s.entries[s.pos]?.map fun e => (e, { s with pos := s.pos + 1 })

/-- What at most `n` calls of `msys_stream_next` yield. -/
def streamYield : Nat → MsysStream → List StreamEntry
  | 0, _ => []
  | n + 1, s =>
    match msysStreamNext s with
    | none => []
    | some (e, s) => e :: streamYield n s

variable {n i : Nat} {v2 : Bool} {e name : Bytes} {m : Msys}

/-- The calls yield the entries from the position on, one after the other. -/
theorem streamYield_eq {s : MsysStream} (h : s.entries.length ≤ s.pos + n) :
    streamYield n s = s.entries.drop s.pos := by
  induction n generalizing s with
  | zero => rw [streamYield, drop_eq_nil_of_le (by omega)]
  | succ n ih =>
    rw [streamYield, msysStreamNext]
    by_cases hpos : s.pos < s.entries.length
    · rw [getElem?_eq_getElem hpos, Option.map_some, drop_eq_getElem_cons hpos]
      dsimp only
      have hrest : s.entries.length ≤ s.pos + 1 + n := by omega
      rw [@ih { s with pos := s.pos + 1 } hrest]
    · rw [getElem?_eq_none (Nat.le_of_not_lt hpos), Option.map_none,
        drop_eq_nil_of_le (Nat.le_of_not_lt hpos)]

/-! ### Lookups -/

theorem length_entryName (h : entryLen v2 e ≤ e.length) :
    (entryName v2 e).length = entryNlen v2 e := by
  rw [entryName, length_slice]
  rw [entryLen] at h
  omega

theorem entryName_of_isNamed (h : isNamed v2 e name = true) :
    entryName v2 e = name := by
  obtain ⟨hlen, hname⟩ := Bool.and_eq_true_iff.mp h
  rw [entryName, of_decide_eq_true hlen, of_decide_eq_true hname]

theorem isNamed_entryName (h : entryLen v2 e ≤ e.length) :
    isNamed v2 e (entryName v2 e) = true := by
  have hlen := length_entryName h
  rw [isNamed, Bool.and_eq_true_iff, hlen]
  exact ⟨decide_eq_true rfl, decide_eq_true rfl⟩

/-- The metadata test is one of the name. -/
theorem isMetadata_of_name (hlen : entryNlen v2 e = name.length)
    (hname : slice e (entryFixed v2) name.length = name) :
    isMetadata v2 e = decide (name.head? = some 0x40) := by
  rw [isMetadata, hlen]
  obtain _ | ⟨c, cs⟩ := name
  · rfl
  · -- the byte that the test reads is the name's first
    have hhead : slice e (entryFixed v2) 1 = [c] := by
      have htake : slice e (entryFixed v2) 1 = (slice e (entryFixed v2) (c :: cs).length).take 1 := by
        rw [slice, slice, take_take, length_cons, Nat.min_eq_left (by omega)]
      rw [htake, hname, take_succ_cons, take_zero]
    have hbyte : readLe e (entryFixed v2) 1 = c.toNat := by
      rw [readLe, hhead, leNat, leNat, Nat.mul_zero, Nat.add_zero]
    rw [hbyte, head?_cons, length_cons, decide_eq_true (Nat.succ_pos _), Bool.true_and]
    apply decide_eq_decide.mpr
    constructor
    · intro h
      exact congrArg some (UInt8.toNat_inj.mp h)
    · intro h
      rw [Option.some.inj h]
      rfl

/-- The walk gives as many entries as it was asked for. -/
theorem length_walkIndex {p : Bytes} {es : List Bytes}
    (h : walkIndex v2 n p = some es) : es.length = n := by
  induction n generalizing p es with
  | zero =>
    cases h
    rfl
  | succ n ih =>
    rw [walkIndex] at h
    split at h
    · cases h
    · split at h
      · cases h
      · obtain ⟨rest, hrest, rfl⟩ := Option.map_eq_some_iff.mp h
        rw [length_cons, ih hrest]

/-- Every entry that the walk gives is inside the file. -/
theorem entryLen_le_of_mem {p : Bytes} {es : List Bytes}
    (h : walkIndex v2 n p = some es) : ∀ e ∈ es, entryLen v2 e ≤ e.length := by
  induction n generalizing p es with
  | zero =>
    cases h
    exact fun e he => absurd he not_mem_nil
  | succ n ih =>
    rw [walkIndex] at h
    split at h
    · cases h
    · split at h
      · cases h
      next hlen =>
        obtain ⟨rest, hrest, rfl⟩ := Option.map_eq_some_iff.mp h
        intro e he
        obtain rfl | he := mem_cons.mp he
        · exact Nat.le_of_not_lt hlen
        · exact ih hrest e he

theorem Msys.length_entries (m : Msys) : m.entries.length = indexCount m.base :=
  length_walkIndex m.walked

theorem Msys.entry_mem (h : i < indexCount m.base) : m.entry i ∈ m.entries := by
  rw [← m.length_entries] at h
  rw [Msys.entry, getD_eq_getElem?_getD, getElem?_eq_getElem h, Option.getD_some]
  exact getElem_mem h

theorem Msys.entryLen_le (h : e ∈ m.entries) :
    entryLen m.v2 e ≤ e.length :=
  entryLen_le_of_mem m.walked e h

/-- A file with a version's magic, and an index behind the header that can be walked, is opened. -/
theorem msysOpen_base {m : Msys} (hlen : 32 ≤ m.base.length)
    (hmagic : slice m.base 0 8 = if m.v2 then msysMagicV2 else msysMagic)
    (hoff : headerSize m.v2 ≤ indexOffset m.base) (hin : indexOffset m.base < m.base.length) :
    msysOpen m.base = .ok m := by
  have hopen : openIndex m.base m.v2 = .ok m := by
    rw [openIndex, if_neg (by omega)]
    split
    next h => exact absurd (m.walked.symm.trans h) (by simp)
    next entries h =>
      obtain rfl : m.entries = entries := Option.some.inj (m.walked.symm.trans h)
      rfl
  rw [msysOpen, if_neg (Nat.not_lt.mpr hlen), hmagic]
  cases hv : m.v2 with
  | false =>
    rw [if_neg Bool.false_ne_true, if_pos rfl, ← hv, hopen]
  | true =>
    rw [if_pos rfl, if_neg (by decide), if_pos rfl, ← hv, hopen]

theorem msysFind_found (h : msysFind m name = .found i) :
    m.entry i ∈ m.entries ∧ isNamed m.v2 (m.entry i) name = true := by
  obtain ⟨hi, -, hnamed⟩ := hashSearch_found le_rfl h
  exact ⟨Msys.entry_mem hi, hnamed⟩

theorem msysSearch_of_found (h : msysFind m name = .found i)
    (hin : entryDoff (m.entry i) + entryDsize (m.entry i) ≤ m.base.length) :
    msysSearch m name = .ok (entryData m (m.entry i)) := by
  rw [msysSearch, h]
  exact if_neg (Nat.not_lt.mpr hin)

/-- An index as the writer makes it: ordered by the hashes of the names, and no name twice. -/
structure Indexed (m : Msys) : Prop where
  hash : ∀ i, i < indexCount m.base →
    entryHash (m.entry i) = msysFnv1a (entryName m.v2 (m.entry i))
  sorted : ∀ i j, i ≤ j → j < indexCount m.base → entryHash (m.entry i) ≤ entryHash (m.entry j)
  distinct : ∀ i j, i < indexCount m.base → j < indexCount m.base →
    entryName m.v2 (m.entry i) = entryName m.v2 (m.entry j) → i = j

/-- In such an index every entry is found under its name. -/
theorem Indexed.msysFind {m : Msys} (hm : Indexed m) {i : Nat} (hi : i < indexCount m.base) :
    msysFind m (entryName m.v2 (m.entry i)) = .found i := by
  apply hashSearch_of_sorted hi hm.sorted (hm.hash i hi)
  · exact isNamed_entryName (Msys.entryLen_le (Msys.entry_mem hi))
  · intro j hj _ hnamed
    exact hm.distinct j i hj hi (entryName_of_isNamed hnamed)
  · exact le_rfl
  · exact Nat.zero_le i
  · exact hi
  · omega

end MeuOS.Sysroot
