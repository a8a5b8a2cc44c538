import MeuOS.Lib.Field
import MeuOS.Compress.Solid

namespace MeuOS.Compress

open MeuOS.Lib List

/-!
# The MZv2 container (`mz_core.c`)

A header of 12 bytes, a chain of blocks (one for each file, then the file table) and an
optional signature block.  The reader walks the chain to find the file table.

* `mz2Create`, `mz2AddFile`, `mz2Finish` — the writer;
* `mz2Open`, `mz2ReadFile` — the reader;
* `Mz2Fits` — every size and offset fits the field it is written to;
* `mz2_roundtrip` — then every file is read back;
* `mz2Open_large_file` — a file of `2 ^ 24` bytes with which the archive is not even opened.
-/

/-! ### The writer -/

/-- A C string: no byte is 0. -/
abbrev CStr : Type := { bs : Bytes // (0 : UInt8) ∉ bs }

/-- `MZ_BLOCK_RAW`. -/
def MZ_BLOCK_RAW : UInt8 := 0

/-- `MZ_BLOCK_SOLID_START`. -/
def MZ_BLOCK_SOLID_START : UInt8 := 2

/-- `MZ_BLOCK_SOLID_NEXT`. -/
def MZ_BLOCK_SOLID_NEXT : UInt8 := 3

/-- `MZ_BLOCK_SIGNED`. -/
def MZ_BLOCK_SIGNED : UInt8 := 5

/-- `MZ2_HEADER_LEN`. -/
def MZ2_HEADER_LEN : Nat := 12

/-- `MZ2_BLOCK_HDR_LEN`. -/
def MZ2_BLOCK_HDR_LEN : Nat := 4

/-- `MZ2_MAGIC`. -/
def MZ2_MAGIC : Bytes := [0x4D, 0x5A, 0x76, 0x32]

/-- `MZ2_VERSION`. -/
def MZ2_VERSION : UInt8 := 2

/-- `flags & MZ_FLAG_SOLID`. -/
def isSolid (flags : Nat) : Bool := flags.testBit 0

/-- `flags & MZ_FLAG_SIGNED`. -/
def isSigned (flags : Nat) : Bool := flags.testBit 2

/-- `struct mz_file_entry`; `name_len` is the length of the name. -/
structure FileEntry where
  name : Bytes
  uid : Nat
  gid : Nat
  mode : Nat
  size : Nat
  offset : Nat
  csize : Nat
  deriving DecidableEq, Repr

/-- `struct mz_write_ctx`. -/
structure WriteCtx where
  buf : Bytes
  files : List FileEntry
  level : Int
  flags : Nat
  solid_ctx : Option SolidCtx

/-- `append_block`: the block's type, its size in three bytes and its data. -/
def block (type : UInt8) (data : Bytes) : Bytes := type :: (beBytes 3 data.length ++ data)

/-- `mz2_create`. -/
def mz2Create (level : Int) (flags : Nat) : Except MzErr WriteCtx :=
  if level < 1 ∨ level > 9 then .error .param
  else if flags >>> 3 ≠ 0 then .error .param
  else
    .ok
      { buf := MZ2_MAGIC ++ ([MZ2_VERSION, UInt8.ofNat level.toNat] ++
          (leBytes 2 flags ++ [0, 0, 0, 0]))
        files := []
        level := level
        flags := flags
        solid_ctx := none }

/-- The entry that `mz2_add_file` records for a block of `csize` bytes. -/
def newEntry (w : WriteCtx) (name : CStr) (size csize : Nat) (mode : UInt16) : FileEntry :=
  { name := name.1
    uid := 0
    gid := 0
    mode := mode.toNat
    size := size % 2 ^ 32
    offset := (w.buf.length - MZ2_HEADER_LEN) % 2 ^ 32
    csize := csize % 2 ^ 32 }

/-- `mz2_add_file`. -/
def mz2AddFile (w : WriteCtx) (name : CStr) (data : Bytes) (mode : UInt16) :
    Except MzErr WriteCtx :=
  if name.1.length > 0xFFFF then .error .param
  else if isSolid w.flags && data.length != 0 then
    match mzSolidAdd (w.solid_ctx.getD (mzSolidStart w.level)) data with
    | .error e => .error e
    | .ok (comp, ctx) =>
      .ok { w with
        buf := w.buf ++ block
          (if w.solid_ctx.isNone then MZ_BLOCK_SOLID_START else MZ_BLOCK_SOLID_NEXT) comp
        files := w.files ++ [newEntry w name data.length comp.length mode]
        solid_ctx := some ctx }
  else
    .ok { w with
      buf := w.buf ++ block MZ_BLOCK_RAW data
      files := w.files ++ [newEntry w name data.length data.length mode] }

/-- An entry of the file table. -/
def entryBytes (e : FileEntry) : Bytes :=
  leBytes 2 e.name.length ++ (e.name ++ (leBytes 4 e.uid ++ (leBytes 4 e.gid ++
    (leBytes 2 e.mode ++ (leBytes 4 e.size ++ (leBytes 4 e.offset ++ leBytes 4 e.csize))))))

/-- The file table. -/
def tableBytes (files : List FileEntry) : Bytes :=
  leBytes 4 files.length ++ files.flatMap entryBytes

/-- The signature block of `mz2_finish`: a placeholder of 99 zero bytes. -/
def signedBlock (flags : Nat) : Bytes :=
  if isSigned flags then block MZ_BLOCK_SIGNED (replicate 99 0) else []

/-- `mz2_finish`, which cannot fail once memory is granted. -/
def mz2Finish (w : WriteCtx) : Bytes :=
  w.buf ++ (block MZ_BLOCK_RAW (tableBytes w.files) ++ signedBlock w.flags)

/-! ### The reader -/

/-- `struct mz_read_ctx`. -/
structure ReadCtx where
  data : Bytes
  level : UInt8
  flags : Nat
  files : List FileEntry

/-- The type of the block at an offset. -/
def blkType (p : Bytes) (off : Nat) : UInt8 := p.getD off 0

/-- The size of the block at an offset. -/
def blkSize (p : Bytes) (off : Nat) : Nat := beNat (slice p (off + 1) 3)

/-- The walk of `mz2_open` over the block chain: the offset of the data of the last RAW block in
    front of the first signature block or of the end, 0 for none. -/
def walkBlocks (p : Bytes) (off last : Nat) : Nat :=
  if off + MZ2_BLOCK_HDR_LEN ≤ p.length then
    if off + (MZ2_BLOCK_HDR_LEN + blkSize p off) > p.length then last
    else if blkType p off = MZ_BLOCK_RAW then
      walkBlocks p (off + (MZ2_BLOCK_HDR_LEN + blkSize p off)) (off + MZ2_BLOCK_HDR_LEN)
    else if blkType p off = MZ_BLOCK_SIGNED then last
    else walkBlocks p (off + (MZ2_BLOCK_HDR_LEN + blkSize p off)) last
  else last
termination_by p.length - off
decreasing_by all_goals simp only [MZ2_BLOCK_HDR_LEN] at *; omega

/-- The entry loop of `mz2_open` from position `pos` of the file table on. -/
def parseEntries (ft : Bytes) : Nat → Nat → Except MzErr (List FileEntry)
  | 0, _ => .ok []
  | n + 1, pos =>
    if pos + 2 > ft.length then .error .data
    else
      let name_len := leNat (slice ft pos 2)
      if pos + 2 + name_len > ft.length then .error .data
      else
        let pos' := pos + 2 + name_len
        if pos' + 22 > ft.length then .error .data
        else
          match parseEntries ft n (pos' + 22) with
          | .error e => .error e
          | .ok es =>
            .ok
              ({ name := slice ft (pos + 2) name_len
                 uid := leNat (slice ft pos' 4)
                 gid := leNat (slice ft (pos' + 4) 4)
                 mode := leNat (slice ft (pos' + 8) 2)
                 size := leNat (slice ft (pos' + 10) 4)
                 offset := leNat (slice ft (pos' + 14) 4)
                 csize := leNat (slice ft (pos' + 18) 4) } :: es)

/-- `mz2_open`. -/
def mz2Open (p : Bytes) : Except MzErr ReadCtx :=
  if p.length < MZ2_HEADER_LEN then .error .param
  else if slice p 0 4 ≠ MZ2_MAGIC then .error .data
  else if p.getD 4 0 ≠ MZ2_VERSION then .error .data
  else
    let off := walkBlocks p MZ2_HEADER_LEN 0
    if off = 0 then .error .data
    else
      let ft := p.drop off
      if ft.length < 4 then .error .data
      else
        let num_files := cInt (leNat (slice ft 0 4))
        if num_files < 0 ∨ num_files.toNat > ft.length / 2 then .error .data
        else
          match parseEntries ft num_files.toNat 4 with
          | .error e => .error e
          | .ok files =>
            .ok
              { data := p
                level := p.getD 5 0
                flags := leNat (slice p 6 2)
                files := files }

/-- `mz2_read_file`; the error is the result code. -/
def mz2ReadFile (r : ReadCtx) (name : CStr) : Except Int Bytes :=
  match r.files.find? fun e => e.name = name.1 with
  | none => .error MzErr.data.code
  | some e =>
    let raw_off := MZ2_HEADER_LEN + e.offset
    if raw_off + MZ2_BLOCK_HDR_LEN > r.data.length then .error MzErr.data.code
    else if raw_off + MZ2_BLOCK_HDR_LEN + blkSize r.data raw_off > r.data.length then
      .error MzErr.data.code
    else if blkSize r.data raw_off ≠ e.csize then .error MzErr.data.code
    else
      let payload := slice r.data (raw_off + MZ2_BLOCK_HDR_LEN) (blkSize r.data raw_off)
      if blkType r.data raw_off = MZ_BLOCK_RAW then .ok payload
      else if blkType r.data raw_off = MZ_BLOCK_SOLID_START
          ∨ blkType r.data raw_off = MZ_BLOCK_SOLID_NEXT then
        match mzDecompressLz77 payload with
        | .error e => .error e.code
        | .ok (r2, raw) =>
          if r2 ≤ 0 then .error (if r2 < 0 then r2 else MzErr.data.code)
          else if raw.length ≠ e.size then .error MzErr.data.code
          else .ok raw
      else .error MzErr.codec.code

/-! ### What the writer has written -/

/-- The arguments of one call of `mz2_add_file`. -/
structure InFile where
  name : CStr
  data : Bytes
  mode : UInt16

/-- A sequence of calls of `mz2_add_file`. -/
def mz2AddAll (w : WriteCtx) : List InFile → Except MzErr WriteCtx
  | [] => .ok w
  | f :: fs =>
    match mz2AddFile w f.name f.data f.mode with
    | .error e => .error e
    | .ok w' => mz2AddAll w' fs

/-- The blocks of files that are stored raw. -/
def chain (fs : List InFile) : Bytes := fs.flatMap fun f => block MZ_BLOCK_RAW f.data

/-- The entry of a file that is stored raw at an offset of the chain. -/
def rawEntry (f : InFile) (off : Nat) : FileEntry :=
  { name := f.name.1
    uid := 0
    gid := 0
    mode := f.mode.toNat
    size := f.data.length % 2 ^ 32
    offset := off % 2 ^ 32
    csize := f.data.length % 2 ^ 32 }

/-- The entries of files that are stored raw from an offset of the chain on. -/
def entriesFrom (off : Nat) : List InFile → List FileEntry
  | [] => []
  | f :: fs => rawEntry f off :: entriesFrom (off + (4 + f.data.length)) fs

@[simp] theorem length_block (type : UInt8) (data : Bytes) :
    (block type data).length = 4 + data.length := by
  unfold block
  rw [length_cons, length_append, length_beBytes]
  omega

@[simp] theorem length_entriesFrom (off : Nat) (fs : List InFile) :
    (entriesFrom off fs).length = fs.length := by
  induction fs generalizing off with
  | nil => rfl
  | cons f fs ih => rw [entriesFrom, length_cons, length_cons, ih]

variable {w : WriteCtx} {fs : List InFile} {p : Bytes} {off flags : Nat} {f : InFile}

/-- Without the solid flag every file is a RAW block and an entry with its offset; its name is
    no longer than an entry can say. -/
theorem mz2AddAll_raw {w' : WriteCtx} (hsolid : isSolid w.flags = false)
    (hbuf : MZ2_HEADER_LEN ≤ w.buf.length) (h : mz2AddAll w fs = .ok w') :
    w'.buf = w.buf ++ chain fs ∧
      w'.files = w.files ++ entriesFrom (w.buf.length - MZ2_HEADER_LEN) fs ∧
      w'.flags = w.flags ∧ ∀ f ∈ fs, f.name.1.length ≤ 0xFFFF := by
  induction fs generalizing w with
  | nil =>
    rw [← Except.ok.inj h]
    refine ⟨?_, ?_, rfl, fun f hf => by cases hf⟩
    · exact (append_nil _).symm
    · exact (append_nil _).symm
  | cons f fs ih =>
    unfold mz2AddAll mz2AddFile at h
    by_cases hname : f.name.1.length > 0xFFFF
    · rw [if_pos hname] at h
      cases h
    rw [if_neg hname, if_neg (by simp [hsolid])] at h
    have hrest := fun hs hb => ih hs hb h
    obtain ⟨hb, hf, hflags, hnames⟩ := hrest hsolid
      (by rw [length_append]; exact Nat.le_add_right_of_le hbuf)
    refine ⟨?_, ?_, hflags, ?_⟩
    · rw [hb, append_assoc]
      rfl
    · rw [hf, append_assoc, length_append, length_block,
        Nat.sub_add_comm hbuf]
      rfl
    · intro g hg
      rcases mem_cons.mp hg with rfl | hg
      · omega
      · exact hnames g hg

/-! ### The block chain -/

/-- What the reader finds in the header of a block whose size fits three bytes. -/
theorem block_header {data : Bytes} {type : UInt8}
    (h : At p off (block type data)) (hsize : data.length < 2 ^ 24) :
    blkType p off = type ∧ blkSize p off = data.length ∧
      off + (MZ2_BLOCK_HDR_LEN + data.length) ≤ p.length ∧
      At p (off + MZ2_BLOCK_HDR_LEN) data := by
  have hlen := h.le_length
  rw [length_block] at hlen
  unfold block at h
  refine ⟨h.getD_eq, ?_, hlen, ?_⟩
  · have hbe : At p (off + 1) (beBytes 3 data.length) :=
      (At.right (a := [type]) h).left
    unfold blkSize
    rw [hbe.be_eq, Nat.mod_eq_of_lt (by simpa using hsize)]
  · have hdata : At p (off + 1) (beBytes 3 data.length ++ data) := At.right (a := [type]) h
    exact hdata.right_of_length (length_beBytes 3 _)

/-- The walk over a RAW block. -/
theorem walk_raw {data : Bytes} (last : Nat)
    (h : At p off (block MZ_BLOCK_RAW data)) (hsize : data.length < 2 ^ 24) :
    walkBlocks p off last
      = walkBlocks p (off + (4 + data.length)) (off + MZ2_BLOCK_HDR_LEN) := by
  obtain ⟨htype, hsz, hle, -⟩ := block_header h hsize
  rw [walkBlocks, hsz, htype]
  rw [if_pos (by omega), if_neg (by omega), if_pos rfl]
  rfl

/-- The walk over the blocks of files. -/
theorem walk_chain (last : Nat)
    (h : At p off (chain fs)) (hsize : ∀ f ∈ fs, f.data.length < 2 ^ 24) :
    ∃ last', walkBlocks p off last = walkBlocks p (off + (chain fs).length) last' := by
  induction fs generalizing off last with
  | nil => exact ⟨last, rfl⟩
  | cons f fs ih =>
    have hcons : At p off (block MZ_BLOCK_RAW f.data ++ chain fs) := h
    have hrest : At p (off + (4 + f.data.length)) (chain fs) :=
      hcons.right_of_length (length_block _ _)
    obtain ⟨last', hl⟩ := ih (off + MZ2_BLOCK_HDR_LEN) hrest
      fun g hg => hsize g (mem_cons_of_mem _ hg)
    refine ⟨last', ?_⟩
    rw [walk_raw last hcons.left (hsize f mem_cons_self), hl]
    have hlen : (chain (f :: fs)).length = 4 + f.data.length + (chain fs).length := by
      show (block MZ_BLOCK_RAW f.data ++ chain fs).length = _
      rw [length_append, length_block]
    rw [hlen, Nat.add_assoc]

/-- The walk ends at the file table, with or without a signature block behind it. -/
theorem walk_end {table : Bytes} (last : Nat)
    (h : At p off (block MZ_BLOCK_RAW table ++ signedBlock flags))
    (hend : off + (4 + table.length) + (signedBlock flags).length = p.length)
    (hsize : table.length < 2 ^ 24) : walkBlocks p off last = off + MZ2_BLOCK_HDR_LEN := by
  rw [walk_raw last h.left hsize]
  have hsig : At p (off + (4 + table.length)) (signedBlock flags) :=
    h.right_of_length (length_block _ _)
  unfold signedBlock at hsig hend
  by_cases hs : isSigned flags = true
  · rw [if_pos hs] at hsig hend
    obtain ⟨htype, hsz, hle, -⟩ := block_header hsig (by simp)
    rw [walkBlocks, hsz, htype, if_pos (by omega), if_neg (by omega), if_neg (by decide),
      if_pos rfl]
  · rw [if_neg hs] at hend
    rw [walkBlocks, if_neg]
    rw [← hend]
    simp [MZ2_BLOCK_HDR_LEN]

/-! ### The file table -/

/-- Every field of the entry fits its place in the table. -/
structure FileEntry.Fits (e : FileEntry) : Prop where
  name : e.name.length < 2 ^ 16
  uid : e.uid < 2 ^ 32
  gid : e.gid < 2 ^ 32
  mode : e.mode < 2 ^ 16
  size : e.size < 2 ^ 32
  offset : e.offset < 2 ^ 32
  csize : e.csize < 2 ^ 32

/-- An entry for a name that fits has fields that fit. -/
theorem rawEntry_fits (off : Nat) (h : f.name.1.length ≤ 0xFFFF) :
    (rawEntry f off).Fits where
  name := by
    show f.name.1.length < 2 ^ 16
    omega
  uid := Nat.two_pow_pos 32
  gid := Nat.two_pow_pos 32
  mode := f.mode.toNat_lt
  size := Nat.mod_lt _ (by decide)
  offset := Nat.mod_lt _ (by decide)
  csize := Nat.mod_lt _ (by decide)

/-- All entries for names that fit have fields that fit. -/
theorem entriesFrom_fits (h : ∀ f ∈ fs, f.name.1.length ≤ 0xFFFF)
    (off : Nat) : ∀ e ∈ entriesFrom off fs, e.Fits := by
  induction fs generalizing off with
  | nil =>
    intro e he
    cases he
  | cons f fs ih =>
    intro e he
    rcases mem_cons.mp he with rfl | he
    · exact rawEntry_fits off (h f mem_cons_self)
    · exact ih (fun g hg => h g (mem_cons_of_mem _ hg)) _ e he

theorem length_entryBytes (e : FileEntry) : (entryBytes e).length = 24 + e.name.length := by
  unfold entryBytes
  simp only [length_append, length_leBytes]
  omega

theorem field_eq {k n : Nat} (h : At p off (leBytes k n)) (hn : n < 256 ^ k) :
    leNat (slice p off k) = n := by
  rw [h.le_eq, Nat.mod_eq_of_lt hn]

/-- The entry loop reads back the entries that were written. -/
theorem parseEntries_flatMap {ft : Bytes} {es : List FileEntry} {pos : Nat}
    (h : At ft pos (es.flatMap entryBytes)) (hfits : ∀ e ∈ es, e.Fits) :
    parseEntries ft es.length pos = .ok es := by
  induction es generalizing pos with
  | nil => rfl
  | cons e es ih =>
    have hcons : At ft pos (entryBytes e ++ es.flatMap entryBytes) := h
    have hlen := hcons.left.le_length
    rw [length_entryBytes] at hlen
    have hfit := hfits e mem_cons_self
    have hrest := ih (hcons.right_of_length (length_entryBytes e))
      fun e' he' => hfits e' (mem_cons_of_mem _ he')
    -- The fields of the entry, each at its place.
    have h0 := hcons.left
    unfold entryBytes at h0
    have hname_len := field_eq h0.left (lt_of_lt_of_eq hfit.name (by decide))
    have h1 := h0.right_of_length (length_leBytes 2 _)
    have hname := h1.left.slice_eq rfl
    have h2 := h1.right
    have huid := field_eq h2.left (lt_of_lt_of_eq hfit.uid (by decide))
    have h3 := h2.right_of_length (length_leBytes 4 _)
    have hgid := field_eq h3.left (lt_of_lt_of_eq hfit.gid (by decide))
    have h4 := h3.right_of_length (length_leBytes 4 _)
    have hmode := field_eq h4.left (lt_of_lt_of_eq hfit.mode (by decide))
    have h5 := h4.right_of_length (length_leBytes 2 _)
    have hsize := field_eq h5.left (lt_of_lt_of_eq hfit.size (by decide))
    have h6 := h5.right_of_length (length_leBytes 4 _)
    have hoffset := field_eq h6.left (lt_of_lt_of_eq hfit.offset (by decide))
    have hcsize := field_eq (h6.right_of_length (length_leBytes 4 _))
      (lt_of_lt_of_eq hfit.csize (by decide))
    simp only [Nat.add_assoc, Nat.reduceAdd] at hgid hmode hsize hoffset hcsize hrest
    rw [length_cons, parseEntries]
    rw [hname_len, if_neg (by omega), if_neg (by omega), if_neg (by omega)]
    simp only [Nat.add_assoc]
    rw [show pos + (2 + (e.name.length + 22)) = pos + (24 + e.name.length) by omega, hrest]
    simp only [Nat.add_assoc] at huid
    rw [hname, huid, hgid, hmode, hsize, hoffset, hcsize]

theorem length_tableBytes (es : List FileEntry) :
    (tableBytes es).length = 4 + (es.map fun e => 24 + e.name.length).sum := by
  unfold tableBytes
  rw [length_append, length_leBytes, length_flatMap]
  congr 2
  exact map_congr_left fun e _ => length_entryBytes e

theorem length_le_sum (es : List FileEntry) :
    24 * es.length ≤ (es.map fun e => 24 + e.name.length).sum := by
  induction es with
  | nil => exact le_rfl
  | cons e es ih =>
    rw [map_cons, sum_cons, length_cons]
    omega

/-! ### Round trip -/

/-- Every size and offset fits the field it is written to: the size of a file and of the file
    table the three bytes of a block header, the offset of a file four bytes. -/
structure Mz2Fits (fs : List InFile) : Prop where
  size : ∀ f ∈ fs, f.data.length < 2 ^ 24
  table : 4 + (fs.map fun f => 24 + f.name.1.length).sum < 2 ^ 24
  offset : ∀ before f behind, fs = before ++ f :: behind →
    (before.map fun g => 4 + g.data.length).sum < 2 ^ 32

theorem length_chain (fs : List InFile) :
    (chain fs).length = (fs.map fun g => 4 + g.data.length).sum := by
  unfold chain
  rw [length_flatMap]
  congr 1
  exact map_congr_left fun f _ => length_block _ _

theorem map_name_entriesFrom (off : Nat) (fs : List InFile) :
    (entriesFrom off fs).map (fun e => 24 + e.name.length)
      = fs.map fun f => 24 + f.name.1.length := by
  induction fs generalizing off with
  | nil => rfl
  | cons f fs ih =>
    rw [entriesFrom, map_cons, map_cons, ih]
    rfl

/-- The first entry of a name is that of its file, when the files before have other names. -/
theorem find_entriesFrom {before behind : List InFile} (off : Nat)
    (hname : ∀ g ∈ before, g.name ≠ f.name) :
    (entriesFrom off (before ++ f :: behind)).find? (fun e => e.name = f.name.1)
      = some (rawEntry f (off + (chain before).length)) := by
  induction before generalizing off with
  | nil =>
    rw [nil_append, entriesFrom, find?_cons_of_pos (by simp [rawEntry])]
    rfl
  | cons g before ih =>
    have hne : g.name.1 ≠ f.name.1 :=
      fun h => hname g mem_cons_self (Subtype.ext h)
    rw [cons_append, entriesFrom,
      find?_cons_of_neg (by simp [rawEntry, hne]),
      ih _ fun g' hg' => hname g' (mem_cons_of_mem _ hg')]
    have hlen : (chain (g :: before)).length = 4 + g.data.length + (chain before).length := by
      show (block MZ_BLOCK_RAW g.data ++ chain before).length = _
      rw [length_append, length_block]
    rw [hlen, Nat.add_assoc]

/-- The archive of files that are stored raw. -/
def rawArchive (header : Bytes) (flags : Nat) (fs : List InFile) : Bytes :=
  header ++ (chain fs ++
    (block MZ_BLOCK_RAW (tableBytes (entriesFrom 0 fs)) ++ signedBlock flags))

/-- An archive with the magic and the version whose walk ends at a table of entries that can be
    parsed is opened. -/
theorem mz2Open_ok {n : Nat} {es : List FileEntry}
    (hlen : MZ2_HEADER_LEN ≤ p.length) (hmagic : slice p 0 4 = MZ2_MAGIC)
    (hversion : p.getD 4 0 = MZ2_VERSION) (hoff : walkBlocks p MZ2_HEADER_LEN 0 = off)
    (hpos : off ≠ 0) (hft : 4 ≤ (p.drop off).length)
    (hcount : leNat (slice (p.drop off) 0 4) = n) (hn : n < 2 ^ 31)
    (hle : n ≤ (p.drop off).length / 2) (hentries : parseEntries (p.drop off) n 4 = .ok es) :
    mz2Open p = .ok
      { data := p, level := p.getD 5 0, flags := leNat (slice p 6 2), files := es } := by
  unfold mz2Open
  rw [if_neg (not_lt.mpr hlen), if_neg (not_not.mpr hmagic), if_neg (not_not.mpr hversion)]
  dsimp only
  rw [hoff, if_neg hpos, if_neg (not_lt.mpr hft), hcount, (cInt_eq_iff n).mpr hn,
    Int.toNat_natCast, if_neg, hentries]
  rintro (hneg | hgt)
  · exact absurd hneg (not_lt.mpr (Int.natCast_nonneg n))
  · exact absurd hgt (not_lt.mpr hle)

/-- The file table that `mz2_open` finds in such an archive is the one written. -/
theorem mz2Open_rawArchive {level : Int}
    (hcreate : mz2Create level flags = .ok w) (hnames : ∀ f ∈ fs, f.name.1.length ≤ 0xFFFF)
    (hfits : Mz2Fits fs) :
    ∃ r, mz2Open (rawArchive w.buf flags fs) = .ok r ∧
      r.data = rawArchive w.buf flags fs ∧ r.files = entriesFrom 0 fs := by
  unfold mz2Create at hcreate
  split at hcreate
  · cases hcreate
  split at hcreate
  · cases hcreate
  cases hcreate
  set header := MZ2_MAGIC ++ ([MZ2_VERSION, UInt8.ofNat level.toNat] ++
    (leBytes 2 flags ++ [0, 0, 0, 0])) with hheader
  have hheaderLen : header.length = 12 := by
    rw [hheader]
    simp [MZ2_MAGIC]
  set table := tableBytes (entriesFrom 0 fs) with htable
  have htableLen : table.length = 4 + (fs.map fun f => 24 + f.name.1.length).sum := by
    rw [htable, length_tableBytes, map_name_entriesFrom]
  have hsmall : table.length < 2 ^ 24 := htableLen ▸ hfits.table
  -- The pieces of the archive, each at its place.
  set p := rawArchive header flags fs with hp
  have hall : At p 0 (header ++ (chain fs ++ (block MZ_BLOCK_RAW table ++ signedBlock flags))) :=
    At.self p
  have hchain := hall.right_of_length hheaderLen
  have hend := hchain.right
  have hlen : 0 + 12 + (chain fs).length + (4 + table.length) + (signedBlock flags).length
      = p.length := by
    rw [hp]
    unfold rawArchive
    simp only [length_append, hheaderLen, length_block, ← htable]
    omega
  -- The walk ends at the table.
  obtain ⟨last, hwalk⟩ := walk_chain 0 hchain.left hfits.size
  have hoff : walkBlocks p MZ2_HEADER_LEN 0 = 0 + 12 + (chain fs).length + 4 :=
    hwalk.trans (walk_end last hend hlen hsmall)
  set off := 0 + 12 + (chain fs).length + 4 with hoffDef
  have hft : At (p.drop off) 0 table := by
    obtain ⟨-, -, -, hdata⟩ := block_header hend.left hsmall
    exact At.drop hdata
  have hftLen := hft.le_length
  have hcount : leNat (slice (p.drop off) 0 4) = fs.length := by
    rw [htable] at hft
    unfold tableBytes at hft
    rw [hft.left.le_eq, length_entriesFrom, Nat.mod_eq_of_lt]
    have := length_le_sum (entriesFrom 0 fs)
    rw [map_name_entriesFrom, length_entriesFrom] at this
    omega
  have hentries : parseEntries (p.drop off) fs.length 4 = .ok (entriesFrom 0 fs) := by
    have hflat : At (p.drop off) 4 ((entriesFrom 0 fs).flatMap entryBytes) := by
      have h := hft
      rw [htable] at h
      unfold tableBytes at h
      have hr := h.right_of_length (length_leBytes 4 _)
      rwa [Nat.zero_add] at hr
    have h := parseEntries_flatMap hflat (entriesFrom_fits hnames 0)
    rwa [length_entriesFrom] at h
  have hcountLe : 24 * fs.length ≤ (fs.map fun f => 24 + f.name.1.length).sum := by
    have := length_le_sum (entriesFrom 0 fs)
    rwa [map_name_entriesFrom, length_entriesFrom] at this
  have hmagic : slice p 0 4 = MZ2_MAGIC := hall.left.left.slice_eq rfl
  have hversion : p.getD 4 0 = MZ2_VERSION := by
    have h := (hall.left.right_of_length (show MZ2_MAGIC.length = 4 from rfl)).left
    exact At.getD_eq h
  have hlong : MZ2_HEADER_LEN ≤ p.length := by
    rw [← hlen]
    simp only [MZ2_HEADER_LEN]
    omega
  have hopen := mz2Open_ok hlong hmagic hversion hoff (by omega) (by omega) hcount (by omega)
    (by omega) hentries
  exact ⟨_, hopen, rfl, rfl⟩

/-- Reading a file of such an archive through the table written gives its data. -/
theorem mz2ReadFile_rawArchive {header : Bytes} {before behind : List InFile} {r : ReadCtx}
    (hheader : header.length = MZ2_HEADER_LEN)
    (hdata : r.data = rawArchive header flags (before ++ f :: behind))
    (hfiles : r.files = entriesFrom 0 (before ++ f :: behind))
    (hname : ∀ g ∈ before, g.name ≠ f.name) (hsize : f.data.length < 2 ^ 24)
    (hoffset : (chain before).length < 2 ^ 32) : mz2ReadFile r f.name = .ok f.data := by
  have hall : At r.data 0 (header ++ (chain (before ++ f :: behind) ++
      (block MZ_BLOCK_RAW (tableBytes (entriesFrom 0 (before ++ f :: behind))) ++
        signedBlock flags))) := by
    rw [hdata]
    exact At.self _
  have hchain : At r.data MZ2_HEADER_LEN
      (chain before ++ (block MZ_BLOCK_RAW f.data ++ chain behind)) := by
    have h := (hall.right_of_length hheader).left
    rw [Nat.zero_add] at h
    unfold chain at h
    rw [flatMap_append, flatMap_cons] at h
    exact h
  obtain ⟨htype, hsz, hle, hpayload⟩ := block_header hchain.right.left hsize
  unfold mz2ReadFile
  rw [hfiles, find_entriesFrom 0 hname]
  dsimp only [rawEntry]
  rw [Nat.zero_add, Nat.mod_eq_of_lt hoffset, Nat.mod_eq_of_lt (by omega), hsz, htype]
  rw [if_neg (by omega), if_neg (by omega), if_neg (by omega), if_pos rfl,
    hpayload.slice_eq rfl]

/-- Files with distinct names whose sizes and offsets fit: the archive is opened, and every file
    is read back. -/
theorem mz2_roundtrip {level : Int} {flags : Nat} {w₀ w : WriteCtx} {fs : List InFile}
    (hsolid : isSolid flags = false) (hcreate : mz2Create level flags = .ok w₀)
    (hadd : mz2AddAll w₀ fs = .ok w) (hnodup : (fs.map InFile.name).Nodup)
    (hfits : Mz2Fits fs) :
    ∃ r, mz2Open (mz2Finish w) = .ok r ∧ ∀ f ∈ fs, mz2ReadFile r f.name = .ok f.data := by
  have hw₀ : w₀.buf.length = MZ2_HEADER_LEN ∧ w₀.files = [] ∧ w₀.flags = flags := by
    unfold mz2Create at hcreate
    split at hcreate
    · cases hcreate
    split at hcreate
    · cases hcreate
    cases hcreate
    exact ⟨by simp [MZ2_MAGIC, MZ2_HEADER_LEN], rfl, rfl⟩
  obtain ⟨hbuf, hfiles, hflags, hnames⟩ :=
    mz2AddAll_raw (by rw [hw₀.2.2]; exact hsolid) hw₀.1.ge hadd
  rw [hw₀.1, Nat.sub_self, hw₀.2.1, nil_append] at hfiles
  rw [hw₀.2.2] at hflags
  have hout : mz2Finish w = rawArchive w₀.buf flags fs := by
    unfold mz2Finish rawArchive
    rw [hbuf, hfiles, hflags, append_assoc]
  obtain ⟨r, hopen, hdata, hentries⟩ := mz2Open_rawArchive hcreate hnames hfits
  refine ⟨r, by rw [hout, hopen], fun f hf => ?_⟩
  obtain ⟨before, behind, rfl⟩ := append_of_mem hf
  have hother : ∀ g ∈ before, g.name ≠ f.name := by
    intro g hg hgf
    rw [map_append, nodup_append] at hnodup
    exact hnodup.2.2 _ (mem_map.mpr ⟨g, hg, rfl⟩) _
      (mem_map.mpr ⟨f, mem_cons_self, rfl⟩) hgf
  apply mz2ReadFile_rawArchive hw₀.1 hdata hentries hother
  · exact hfits.size f hf
  · rw [length_chain]
    exact hfits.offset before f behind rfl

/-- Two short files in a signed archive. -/
theorem mz2_roundtrip_signed :
    ∃ w₀ w, mz2Create 6 4 = .ok w₀ ∧
      mz2AddAll w₀ [⟨⟨[97], by decide⟩, [1, 2, 3], 0x1A4⟩, ⟨⟨[98], by decide⟩, [], 0⟩] = .ok w ∧
      ∃ r, mz2Open (mz2Finish w) = .ok r ∧
        ∀ f ∈ [(⟨⟨[97], by decide⟩, [1, 2, 3], 0x1A4⟩ : InFile), ⟨⟨[98], by decide⟩, [], 0⟩],
          mz2ReadFile r f.name = .ok f.data := by
  obtain ⟨w₀, hw₀⟩ : ∃ w₀, mz2Create 6 4 = .ok w₀ := ⟨_, rfl⟩
  obtain ⟨w, hw⟩ : ∃ w, mz2AddAll w₀
      [⟨⟨[97], by decide⟩, [1, 2, 3], 0x1A4⟩, ⟨⟨[98], by decide⟩, [], 0⟩] = .ok w := by
    cases hw₀
    exact ⟨_, rfl⟩
  refine ⟨w₀, w, hw₀, hw, mz2_roundtrip (by decide) hw₀ hw (by decide) ⟨by decide, by decide, ?_⟩⟩
  intro before f behind h
  -- At most the first of the two files stands before another one.
  rcases before with _ | ⟨a, _ | ⟨b, before⟩⟩
  · decide
  · cases h
    decide
  · have hlen := congrArg length h
    simp at hlen

/-! ### A block whose size does not fit -/

/-- A file of `2 ^ 24` bytes that begins with four bytes 0xFF: the header of its block says 0, the
    walk goes on inside the file, takes its first bytes for the file table and finds -1 files
    there. -/
theorem mz2Open_of_large (hbuf : w.buf.length = MZ2_HEADER_LEN)
    (hmagic : At w.buf 0 (MZ2_MAGIC ++ [MZ2_VERSION])) (hflags : isSigned w.flags = false)
    (hfiles : w.files = []) (hname : f.name.1.length = 1) (hsize : f.data.length = 2 ^ 24)
    (hdata : At f.data 0 [0xFF, 0xFF, 0xFF, 0xFF]) {w' : WriteCtx}
    (hsolid : isSolid w.flags = false) (hadd : mz2AddAll w [f] = .ok w') :
    mz2Open (mz2Finish w') = .error .data := by
  obtain ⟨hbuf', hfiles', hflags', -⟩ := mz2AddAll_raw hsolid hbuf.ge hadd
  rw [hbuf, Nat.sub_self, hfiles, nil_append] at hfiles'
  set table := tableBytes w'.files with htable
  have htableLen : table.length = 29 := by
    rw [htable, hfiles', length_tableBytes, map_name_entriesFrom]
    simp [hname]
  set p := mz2Finish w' with hp
  have hfin : p = w.buf ++ (block MZ_BLOCK_RAW f.data ++ block MZ_BLOCK_RAW table) := by
    rw [hp]
    unfold mz2Finish signedBlock
    rw [hbuf', hflags', hflags, ← htable]
    unfold chain
    simp
  have hall : At p 0 (w.buf ++ (block MZ_BLOCK_RAW f.data ++ block MZ_BLOCK_RAW table)) := by
    rw [← hfin]
    exact At.self p
  have hlen : p.length = 12 + ((4 + f.data.length) + 33) := by
    rw [hfin, length_append, length_append, length_block, length_block, hbuf, htableLen]
    rfl
  have hblocks : At p 12 (block MZ_BLOCK_RAW f.data ++ block MZ_BLOCK_RAW table) := by
    have h := hall.right_of_length hbuf
    rwa [Nat.zero_add] at h
  -- The first header says 0.
  have htype0 : blkType p 12 = MZ_BLOCK_RAW := At.getD_eq hblocks.left
  have hfile : At p 13 (beBytes 3 f.data.length ++ f.data) :=
    At.right (a := [MZ_BLOCK_RAW]) hblocks.left
  have hsize0 : blkSize p 12 = 0 := by
    unfold blkSize
    rw [hfile.left.be_eq, hsize]
    exact Nat.mod_self _
  -- The next header is the beginning of the file.
  have hff : At p 16 [0xFF, 0xFF, 0xFF, 0xFF] := by
    have h := hfile.right_of_length (length_beBytes 3 _)
    exact h.trans hdata
  have htype1 : blkType p 16 = 0xFF := At.getD_eq hff
  have hsize1 : blkSize p 16 = 16777215 := by
    have h : At p 17 [0xFF, 0xFF, 0xFF] := At.right (a := [0xFF]) hff
    have hslice : slice p 17 3 = [0xFF, 0xFF, 0xFF] := h.slice_eq rfl
    unfold blkSize
    rw [hslice]
    rfl
  -- The one behind it is the last byte of the table's header and the first bytes of the table.
  have htab : At p (16 + f.data.length + 3) (29 :: table) := by
    have h := hblocks.right_of_length (length_block MZ_BLOCK_RAW f.data)
    unfold block at h
    rw [htableLen, show (beBytes 3 29) = [0, 0] ++ [29] from rfl] at h
    have h3 := At.right (a := [MZ_BLOCK_RAW, 0, 0]) h
    rw [show 12 + (4 + f.data.length) + [MZ_BLOCK_RAW, 0, 0].length
      = 16 + f.data.length + 3 by simp only [length_cons, length_nil]; omega] at h3
    exact h3
  have htype2 : blkType p (16 + f.data.length + 3) = 29 := At.getD_eq htab
  have hsize2 : blkSize p (16 + f.data.length + 3) = 65536 := by
    have h : At p (16 + f.data.length + 3 + 1) (table) := At.right (a := [29]) htab
    have hcount : table = [1, 0, 0] ++ ([0] ++ (entriesFrom 0 [f]).flatMap entryBytes) := by
      rw [htable, hfiles']
      unfold tableBytes
      rw [length_entriesFrom, length_singleton, show leBytes 4 1 = [1, 0, 0, 0] by decide]
      rfl
    rw [hcount] at h
    have hslice : slice p (16 + f.data.length + 3 + 1) 3 = [1, 0, 0] := h.left.slice_eq rfl
    unfold blkSize
    rw [hslice]
    rfl
  have hwalk : walkBlocks p MZ2_HEADER_LEN 0 = 16 := by
    simp only [MZ2_HEADER_LEN]
    rw [walkBlocks, hsize0, htype0, if_pos (by simp only [MZ2_BLOCK_HDR_LEN]; omega),
      if_neg (by simp only [MZ2_BLOCK_HDR_LEN]; omega), if_pos rfl]
    simp only [MZ2_BLOCK_HDR_LEN, Nat.reduceAdd]
    rw [walkBlocks, hsize1, htype1, if_pos (by simp only [MZ2_BLOCK_HDR_LEN]; omega),
      if_neg (by simp only [MZ2_BLOCK_HDR_LEN]; omega), if_neg (by decide), if_neg (by decide)]
    rw [show 16 + (MZ2_BLOCK_HDR_LEN + 16777215) = 16 + f.data.length + 3 by
      rw [hsize]; rfl]
    rw [walkBlocks, hsize2, if_pos (by simp only [MZ2_BLOCK_HDR_LEN]; omega),
      if_pos (by simp only [MZ2_BLOCK_HDR_LEN]; omega)]
  have hcount : leNat (slice (p.drop 16) 0 4) = 4294967295 := by
    have h : At (p.drop 16) 0 [0xFF, 0xFF, 0xFF, 0xFF] := At.drop hff
    have hslice : slice (p.drop 16) 0 4 = [0xFF, 0xFF, 0xFF, 0xFF] := h.slice_eq rfl
    rw [hslice]
    rfl
  have hmagic' : At p 0 (MZ2_MAGIC ++ [MZ2_VERSION]) := by
    have h := hall.left.trans hmagic
    exact h
  have hm : slice p 0 4 = MZ2_MAGIC := hmagic'.left.slice_eq rfl
  have hv : p.getD 4 0 = MZ2_VERSION := At.getD_eq hmagic'.right
  unfold mz2Open
  rw [if_neg (by simp only [MZ2_HEADER_LEN]; omega), if_neg (not_not.mpr hm),
    if_neg (not_not.mpr hv)]
  rw [hwalk, if_neg (by decide), if_neg (by rw [length_drop]; omega), hcount,
    if_pos (.inl (by decide))]

theorem mz2AddAll_one (hsolid : isSolid w.flags = false)
    (hname : f.name.1.length ≤ 0xFFFF) : ∃ w', mz2AddAll w [f] = .ok w' := by
  unfold mz2AddAll mz2AddFile
  rw [if_neg (not_lt.mpr hname), if_neg (by simp [hsolid])]
  exact ⟨_, rfl⟩

theorem at_replicate (b : UInt8) (n : Nat) : At (replicate (n + 4) b) 0 [b, b, b, b] :=
  ⟨[], replicate n b, rfl, rfl⟩

theorem zero_notMem_largeName : (0 : UInt8) ∉ ([97] : Bytes) := by decide

/-- `2 ^ 24` bytes 0xFF. -/
def largeFile : InFile := ⟨⟨[97], zero_notMem_largeName⟩, replicate (16777212 + 4) 0xFF, 0⟩

/-- One file of `2 ^ 24` bytes 0xFF, added and finished without an error: the archive is not
    opened. -/
theorem mz2Open_large_file :
    largeFile.data.length = 2 ^ 24 ∧
    ∃ w₀ w, mz2Create 1 0 = .ok w₀ ∧ mz2AddAll w₀ [largeFile] = .ok w ∧
      mz2Open (mz2Finish w) = .error .data := by
  have hsize : largeFile.data.length = 2 ^ 24 := length_replicate
  have hdata : At largeFile.data 0 [0xFF, 0xFF, 0xFF, 0xFF] := at_replicate 0xFF 16777212
  generalize hf : largeFile = f at hsize hdata ⊢
  have hname : f.name.1.length = 1 := by
    rw [← hf]
    rfl
  obtain ⟨w₀, hw₀⟩ : ∃ w₀, mz2Create 1 0 = .ok w₀ := ⟨_, rfl⟩
  have hsolid : isSolid w₀.flags = false := by
    rw [← Except.ok.inj hw₀]
    decide
  obtain ⟨w, hw⟩ := mz2AddAll_one (f := f) hsolid (by omega)
  refine ⟨hsize, w₀, w, hw₀, hw, ?_⟩
  cases hw₀
  exact mz2Open_of_large rfl ⟨[], _, rfl, rfl⟩ (by decide) rfl hname hsize hdata hsolid hw

end MeuOS.Compress
