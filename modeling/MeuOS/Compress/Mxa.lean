import MeuOS.Compress.Chacha
import MeuOS.Compress.Mz2
import MeuOS.Lib.KeyTable

namespace MeuOS.Compress

open MeuOS.Lib

/-!
# The MxA container (`mxa_core.c`)

A header of 16 bytes, the data blocks of the files, the central directory, a footer of 40 bytes
and, with a signing key, a signature of 64 bytes.  The reader looks for the footer 104 bytes
before the end first, 40 bytes before the end next.

* `mxaCreate`, `mxaAddFile`, `mxaFinish` — the writer;
* `mxaOpen`, `mxaListFiles`, `mxaReadFile` — the reader.

The codec and the signature are parameters: `MxaCodec`, `MxaSign`.
-/

/-! ### CRC-32 -/

/-- The table of `crc32_bytes`. -/
def crcTable : List UInt32 :=
  [0x00000000, 0x77073096, 0xEE0E612C, 0x990951BA, 0x076DC419, 0x706AF48F, 0xE963A535, 0x9E6495A3,
   0x0EDB8832, 0x79DCB8A4, 0xE0D5E91E, 0x97D2D988, 0x09B64C2B, 0x7EB17CBD, 0xE7B82D07, 0x90BF1D91,
   0x1DB71064, 0x6AB020F2, 0xF3B97148, 0x84BE41DE, 0x1ADAD47D, 0x6DDDE4EB, 0xF4D4B551, 0x83D385C7,
   0x136C9856, 0x646BA8C0, 0xFD62F97A, 0x8A65C9EC, 0x14015C4F, 0x63066CD9, 0xFA0F3D63, 0x8D080DF5,
   0x3B6E20C8, 0x4C69105E, 0xD56041E4, 0xA2677172, 0x3C03E4D1, 0x4B04D447, 0xD20D85FD, 0xA50AB56B,
   0x35B5A8FA, 0x42B2986C, 0xDBBBC9D6, 0xACBCF940, 0x32D86CE3, 0x45DF5C75, 0xDCD60DCF, 0xABD13D59,
   0x26D930AC, 0x51DE003A, 0xC8D75180, 0xBFD06116, 0x21B4F4B5, 0x56B3C423, 0xCFBA9599, 0xB8BDA50F,
   0x2802B89E, 0x5F058808, 0xC60CD9B2, 0xB10BE924, 0x2F6F7C87, 0x58684C11, 0xC1611DAB, 0xB6662D3D,
   0x76DC4190, 0x01DB7106, 0x98D220BC, 0xEFD5102A, 0x71B18589, 0x06B6B51F, 0x9FBFE4A5, 0xE8B8D433,
   0x7807C9A2, 0x0F00F934, 0x9609A88E, 0xE10E9818, 0x7F6A0DBB, 0x086D3D2D, 0x91646C97, 0xE6635C01,
   0x6B6B51F4, 0x1C6C6162, 0x856530D8, 0xF262004E, 0x6C0695ED, 0x1B01A57B, 0x8208F4C1, 0xF50FC457,
   0x65B0D9C6, 0x12B7E950, 0x8BBEB8EA, 0xFCB9887C, 0x62DD1DDF, 0x15DA2D49, 0x8CD37CF3, 0xFBD44C65,
   0x4DB26158, 0x3AB551CE, 0xA3BC0074, 0xD4BB30E2, 0x4ADFA541, 0x3DD895D7, 0xA4D1C46D, 0xD3D6F4FB,
   0x4369E96A, 0x346ED9FC, 0xAD678846, 0xDA60B8D0, 0x44042D73, 0x33031DE5, 0xAA0A4C5F, 0xDD0D7CC9,
   0x5005713C, 0x270241AA, 0xBE0B1010, 0xC90C2086, 0x5768B525, 0x206F85B3, 0xB966D409, 0xCE61E49F,
   0x5EDEF90E, 0x29D9C998, 0xB0D09822, 0xC7D7A8B4, 0x59B33D17, 0x2EB40D81, 0xB7BD5C3B, 0xC0BA6CAD,
   0xEDB88320, 0x9ABFB3B6, 0x03B6E20C, 0x74B1D29A, 0xEAD54739, 0x9DD277AF, 0x04DB2615, 0x73DC1683,
   0xE3630B12, 0x94643B84, 0x0D6D6A3E, 0x7A6A5AA8, 0xE40ECF0B, 0x9309FF9D, 0x0A00AE27, 0x7D079EB1,
   0xF00F9344, 0x8708A3D2, 0x1E01F268, 0x6906C2FE, 0xF762575D, 0x806567CB, 0x196C3671, 0x6E6B06E7,
   0xFED41B76, 0x89D32BE0, 0x10DA7A5A, 0x67DD4ACC, 0xF9B9DF6F, 0x8EBEEFF9, 0x17B7BE43, 0x60B08ED5,
   0xD6D6A3E8, 0xA1D1937E, 0x38D8C2C4, 0x4FDFF252, 0xD1BB67F1, 0xA6BC5767, 0x3FB506DD, 0x48B2364B,
   0xD80D2BDA, 0xAF0A1B4C, 0x36034AF6, 0x41047A60, 0xDF60EFC3, 0xA867DF55, 0x316E8EEF, 0x4669BE79,
   0xCB61B38C, 0xBC66831A, 0x256FD2A0, 0x5268E236, 0xCC0C7795, 0xBB0B4703, 0x220216B9, 0x5505262F,
   0xC5BA3BBE, 0xB2BD0B28, 0x2BB45A92, 0x5CB36A04, 0xC2D7FFA7, 0xB5D0CF31, 0x2CD99E8B, 0x5BDEAE1D,
   0x9B64C2B0, 0xEC63F226, 0x756AA39C, 0x026D930A, 0x9C0906A9, 0xEB0E363F, 0x72076785, 0x05005713,
   0x95BF4A82, 0xE2B87A14, 0x7BB12BAE, 0x0CB61B38, 0x92D28E9B, 0xE5D5BE0D, 0x7CDCEFB7, 0x0BDBDF21,
   0x86D3D2D4, 0xF1D4E242, 0x68DDB3F8, 0x1FDA836E, 0x81BE16CD, 0xF6B9265B, 0x6FB077E1, 0x18B74777,
   0x88085AE6, 0xFF0F6A70, 0x66063BCA, 0x11010B5C, 0x8F659EFF, 0xF862AE69, 0x616BFFD3, 0x166CCF45,
   0xA00AE278, 0xD70DD2EE, 0x4E048354, 0x3903B3C2, 0xA7672661, 0xD06016F7, 0x4969474D, 0x3E6E77DB,
   0xAED16A4A, 0xD9D65ADC, 0x40DF0B66, 0x37D83BF0, 0xA9BCAE53, 0xDEBB9EC5, 0x47B2CF7F, 0x30B5FFE9,
   0xBDBDF21C, 0xCABAC28A, 0x53B39330, 0x24B4A3A6, 0xBAD03605, 0xCDD70693, 0x54DE5729, 0x23D967BF,
   0xB3667A2E, 0xC4614AB8, 0x5D681B02, 0x2A6F2B94, 0xB40BBE37, 0xC30C8EA1, 0x5A05DF1B, 0x2D02EF8D]

/-- One turn of the loop of `crc32_bytes`. -/
def crcStep (c : UInt32) (u : UInt8) : UInt32 :=
  crcTable.getD ((c ^^^ u.toUInt32) &&& 0xFF).toNat 0 ^^^ (c >>> 8)

/-- `crc32_bytes`. -/
def crc32Bytes (data : Bytes) : UInt32 := data.foldl crcStep 0xFFFFFFFF ^^^ 0xFFFFFFFF

/-- The check value of the code: the sum of "123456789". -/
example : crc32Bytes [0x31, 0x32, 0x33, 0x34, 0x35, 0x36, 0x37, 0x38, 0x39] = 0xCBF43926 := by
  decide

/-! ### Constants and results -/

/-- The error codes `MXA_ERR_*`. -/
inductive MxaErr where
  | memory
  | data
  | param
  | notfound
  | crypt
  deriving DecidableEq, Repr

/-- A call that gives no result: an error code, or a loop without end. -/
inductive MxaStop where
  | err (e : MxaErr)
  | hang
  deriving DecidableEq, Repr

/-- `MXA_MAGIC`: "MxA1". -/
def MXA_MAGIC : Nat := 0x3141784D

/-- `MXA_CD_MAGIC`: "MxCD". -/
def MXA_CD_MAGIC : Nat := 0x4443784D

/-- `MXA_CF_MAGIC`: "MxCF". -/
def MXA_CF_MAGIC : Nat := 0x4643784D

/-- `MXA_VERSION_CUR`. -/
def MXA_VERSION_CUR : UInt8 := 1

/-- `MXA_VERSION_MIN`. -/
def MXA_VERSION_MIN : UInt8 := 1

/-- `MXA_HDR_LEN`. -/
def MXA_HDR_LEN : Nat := 16

/-- `MXA_CD_HDR_LEN`. -/
def MXA_CD_HDR_LEN : Nat := 8

/-- `MXA_CD_ENTRY_BASE`. -/
def MXA_CD_ENTRY_BASE : Nat := 48

/-- `MXA_CD_FOOTER_LEN`. -/
def MXA_CD_FOOTER_LEN : Nat := 40

/-- `MXA_SIG_LEN`. -/
def MXA_SIG_LEN : Nat := 64

/-- `MXA_CODEC_STORED`. -/
def MXA_CODEC_STORED : Nat := 0

/-- `MXA_CODEC_MEUOS`. -/
def MXA_CODEC_MEUOS : Nat := 1

/-- `flags & MXA_FLAG_SIGNED`. -/
def mxaSigned (flags : Nat) : Bool := flags.testBit 0

/-- `flags & MXA_FLAG_ENCRYPTED`. -/
def mxaEncrypted (flags : Nat) : Bool := flags.testBit 1

/-- A key of 32 bytes. -/
abbrev Key32 : Type := { bs : Bytes // bs.length = 32 }

/-- `mz_compress` and `mz_decompress` for `MZ_CODEC_MEUOS`; `none` is a result that is not
    positive. -/
structure MxaCodec where
  compress : Bytes → Int → Option Bytes
  decompress : Bytes → Option Bytes

/-- `mz_ed25519_keypair` and `mz_ed25519_sign` for a secret key; `none` where the first has no
    library to call. -/
abbrev MxaSign : Type := Key32 → Bytes → Option { s : Bytes // s.length = MXA_SIG_LEN }

/-- The codec gives back what it was given. -/
def MxaCodec.RoundTrips (codec : MxaCodec) (level : Int) (data : Bytes) : Prop :=
  ∀ comp, codec.compress data level = some comp → codec.decompress comp = some data

/-! ### The writer -/

/-- `struct mxa_file_entry`, and `struct mxa_file_pending`, which has the same fields. -/
structure MxaFileEntry where
  name : Bytes
  name_len : Nat
  mode : Nat
  uid : Nat
  gid : Nat
  mtime : Nat
  offset : Nat
  size : Nat
  csize : Nat
  codec : Nat
  deriving DecidableEq, Repr

/-- `struct mxa_params`. -/
structure MxaParams where
  flags : Nat
  align : Int
  level : Int
  key : Option Key32
  sk : Option Key32

/-- `struct mxa_write_ctx`; `has_key` and `has_sk` say whether there is a key. -/
structure MxaWriteCtx where
  buf : Bytes
  total_uncompressed : Nat
  total_compressed : Nat
  flags : Nat
  align : Nat
  level : Int
  files : List MxaFileEntry
  max_files : Nat
  key : Option Key32
  sk : Option Key32

/-- `buf_grow`.  The capacity is a power of two: `2 ^ 63` bytes are more than an object may have,
    and above that the doubled capacity becomes 0, which is doubled for ever. -/
def bufGrow (need : Nat) : Except MxaStop Unit :=
  if need ≤ 2 ^ 62 then .ok ()
  else if need ≤ 2 ^ 63 then .error (.err .memory)
  else .error .hang

/-- The zero bytes that `buf_align` appends behind `len` bytes. -/
def alignPad (align len : Nat) : Nat :=
  if len % 2 ^ align = 0 then 0 else 2 ^ align - len % 2 ^ align

/-- `mxa_create`. -/
def mxaCreate (params : MxaParams) : Except MxaErr MxaWriteCtx :=
  if params.flags >>> 2 ≠ 0 then .error .param
  else if params.align < 0 ∨ params.align > 12 then .error .param
  else if params.level < 1 ∨ params.level > 9 then .error .param
  else
    .ok
      { buf := List.replicate MXA_HDR_LEN 0
        total_uncompressed := 0
        total_compressed := 0
        flags := params.flags
        align := params.align.toNat
        level := params.level
        files := []
        max_files := 0
        key := params.key
        sk := params.sk }

/-- The growth of `files` in `mxa_add_file`: the new number of places.  From `2 ^ 30` places on
    the doubled `int` is negative, and no such array can be allocated. -/
def growFiles (w : MxaWriteCtx) : Except MxaStop Nat :=
  if w.files.length ≥ w.max_files then
    let new_max := if w.max_files = 0 then 16 else cInt (w.max_files * 2)
    if new_max < 0 then .error (.err .memory) else .ok new_max.toNat
  else .ok w.max_files

/-- How `mxa_add_file` stores data: the codec and the bytes. -/
def mxaPack (codec : MxaCodec) (level : Int) (data : Bytes) : Nat × Bytes :=
  if data = [] then (MXA_CODEC_STORED, [])
  else
    match codec.compress data level with
    | none => (MXA_CODEC_STORED, data)
    | some comp => (MXA_CODEC_MEUOS, comp)

/-- The nonce: the offset in eight bytes and four zero bytes. -/
def mxaNonce (offset : Nat) : Bytes := leBytes 8 offset ++ [0, 0, 0, 0]

/-- The cipher over the bytes at an offset, where there is a key and the archive is encrypted. -/
def mxaCipher (key : Option Key32) (flags offset : Nat) (blob : Bytes) : Option Bytes :=
  match key with
  | none => some blob
  | some k => if mxaEncrypted flags then mzChacha20 k.1 (mxaNonce offset) 0 blob else some blob

/-- The arguments of one call of `mxa_add_file`; the length of the data is a `size_t`. -/
structure MxaInFile where
  name : CStr
  data : Bytes
  mode : UInt16
  uid : UInt32
  gid : UInt32
  mtime : UInt64
  size_fits : data.length < 2 ^ 64

/-- The entry that `mxa_add_file` records. -/
def mxaPending (w : MxaWriteCtx) (f : MxaInFile) (codec : Nat) (blob : Bytes) : MxaFileEntry :=
  { name := f.name.1
    name_len := f.name.1.length
    mode := f.mode.toNat
    uid := f.uid.toNat
    gid := f.gid.toNat
    mtime := f.mtime.toNat
    offset := w.buf.length
    size := f.data.length
    csize := blob.length
    codec := codec }

/-- `mxa_add_file`. -/
def mxaAddFile (codec : MxaCodec) (w : MxaWriteCtx) (f : MxaInFile) :
    Except MxaStop MxaWriteCtx := do
  let max_files ← growFiles w
  if f.name.1.length > 0xFFFF then
    .error (.err .param)
  else
    let packed := mxaPack codec w.level f.data
    bufGrow (w.buf.length + packed.2.length)
    match mxaCipher w.key w.flags w.buf.length packed.2 with
    | none => .error .hang
    | some enc =>
      let pad := alignPad w.align (w.buf.length + packed.2.length)
      bufGrow (w.buf.length + packed.2.length + pad)
      .ok { w with
        buf := w.buf ++ (enc ++ List.replicate pad 0)
        total_uncompressed := (w.total_uncompressed + f.data.length) % 2 ^ 64
        total_compressed := (w.total_compressed + packed.2.length) % 2 ^ 64
        files := w.files ++ [mxaPending w f packed.1 packed.2]
        max_files := max_files }

/-- An entry of the central directory. -/
def mxaEntryBytes (e : MxaFileEntry) : Bytes :=
  leBytes 2 e.name_len ++ (leBytes 2 e.mode ++ (leBytes 4 e.uid ++ (leBytes 4 e.gid ++
    (leBytes 8 e.mtime ++ (leBytes 8 e.offset ++ (leBytes 8 e.size ++ (leBytes 8 e.csize ++
      ([UInt8.ofNat e.codec, 0, 0, 0] ++ e.name))))))))

/-- The archive header: the fields that `mxa_finish` fills in, and the reserved bytes. -/
def mxaHeader (w : MxaWriteCtx) : Bytes :=
  leBytes 4 MXA_MAGIC ++ (leBytes 2 w.flags ++
    ([MXA_VERSION_MIN, MXA_VERSION_CUR, UInt8.ofNat w.align] ++ slice w.buf 9 7))

/-- The central directory. -/
def mxaDirectory (files : List MxaFileEntry) : Bytes :=
  leBytes 4 MXA_CD_MAGIC ++ (leBytes 4 files.length ++ files.flatMap mxaEntryBytes)

/-- What stands in front of the footer. -/
def mxaBody (w : MxaWriteCtx) : Bytes :=
  mxaHeader w ++ (w.buf.drop MXA_HDR_LEN ++ mxaDirectory w.files)

/-- The footer. -/
def mxaFooter (w : MxaWriteCtx) : Bytes :=
  leBytes 4 MXA_CF_MAGIC ++ (leBytes 4 w.files.length ++ (leBytes 8 w.buf.length ++
    (leBytes 8 w.total_uncompressed ++ (leBytes 8 w.total_compressed ++
      (leBytes 4 (crc32Bytes (w.files.flatMap mxaEntryBytes)).toNat ++
        leBytes 4 (crc32Bytes (mxaHeader w)).toNat)))))

/-- The signature: zero bytes where there is no library to sign with. -/
def mxaSignature (sign : MxaSign) (sk : Option Key32) (archive : Bytes) : Bytes :=
  match sk with
  | none => []
  | some sk =>
    match sign sk archive with
    | some sig => sig.1
    | none => List.replicate MXA_SIG_LEN 0

/-- `cd_total` of `mxa_finish`. -/
def mxaCdTotal (w : MxaWriteCtx) : Nat :=
  MXA_CD_HDR_LEN + (w.files.map fun e => MXA_CD_ENTRY_BASE + e.name_len).sum +
    MXA_CD_FOOTER_LEN + (if w.sk.isSome then MXA_SIG_LEN else 0)

/-- `mxa_finish`. -/
def mxaFinish (sign : MxaSign) (w : MxaWriteCtx) : Except MxaStop Bytes := do
  bufGrow (w.buf.length + mxaCdTotal w)
  let archive := mxaBody w ++ mxaFooter w
  .ok (archive ++ mxaSignature sign w.sk archive)

/-! ### The reader -/

/-- `struct mxa_read_ctx`. -/
structure MxaReadCtx where
  data : Bytes
  flags : Nat
  files : List MxaFileEntry
  cd_start : Nat
  key : Option Key32

/-- `r16`. -/
def r16 (p : Bytes) (off : Nat) : Nat := leNat (slice p off 2)

/-- `r32`. -/
def r32 (p : Bytes) (off : Nat) : Nat := leNat (slice p off 4)

/-- `r64`. -/
def r64 (p : Bytes) (off : Nat) : Nat := leNat (slice p off 8)

/-- A value of `scan_start` in `mxa_open`: `dist` bytes before the end, or behind the header where
    the archive is shorter. -/
def scanStart (p : Bytes) (dist : Nat) : Nat :=
  if p.length > dist then p.length - dist else MXA_HDR_LEN

/-- The search of `mxa_open` for the footer. -/
def findFooter (p : Bytes) : Option Nat :=
  let first := scanStart p (MXA_CD_FOOTER_LEN + MXA_SIG_LEN)
  if first + MXA_CD_FOOTER_LEN > p.length then none
  else if r32 p first = MXA_CF_MAGIC then some first
  else
    let second := scanStart p MXA_CD_FOOTER_LEN
    if second + MXA_CD_FOOTER_LEN > p.length ∨ r32 p second ≠ MXA_CF_MAGIC then none
    else some second

/-- The entry loop of `mxa_open`. -/
def mxaParse (p : Bytes) : Nat → Nat → Except MxaErr (List MxaFileEntry)
  | 0, _ => .ok []
  | n + 1, pos =>
    if pos + MXA_CD_ENTRY_BASE > p.length then .error .data
    else
      let name_len := r16 p pos
      if pos + MXA_CD_ENTRY_BASE + name_len > p.length then .error .data
      else
        match mxaParse p n (pos + (MXA_CD_ENTRY_BASE + name_len)) with
        | .error e => .error e
        | .ok es =>
          .ok
            ({ name := slice p (pos + MXA_CD_ENTRY_BASE) name_len
               name_len := name_len
               mode := r16 p (pos + 2)
               uid := r32 p (pos + 4)
               gid := r32 p (pos + 8)
               mtime := r64 p (pos + 12)
               offset := r64 p (pos + 20)
               size := r64 p (pos + 28)
               csize := r64 p (pos + 36)
               codec := (p.getD (pos + 44) 0).toNat } :: es)

/-- The check of the entries' sum in `mxa_open`. -/
def entriesChecked (p : Bytes) (scan cd_start total_files : Nat) : Bool :=
  total_files == 0 ||
    (cd_start + MXA_CD_HDR_LEN ≤ scan &&
      r32 p (scan + 32) == (crc32Bytes (slice p (cd_start + MXA_CD_HDR_LEN)
        (scan - (cd_start + MXA_CD_HDR_LEN)))).toNat)

/-- `mxa_open`. -/
def mxaOpen (p : Bytes) : Except MxaErr MxaReadCtx :=
  if p.length < MXA_HDR_LEN then .error .param
  else if r32 p 0 ≠ MXA_MAGIC then .error .data
  else if p.getD 7 0 > MXA_VERSION_CUR ∨ p.getD 6 0 > MXA_VERSION_CUR then .error .data
  else
    match findFooter p with
    | none => .error .data
    | some scan =>
      let cd_start := r64 p (scan + 8)
      let total_files := r32 p (scan + 4)
      if r32 p (scan + 36) ≠ (crc32Bytes (slice p 0 MXA_HDR_LEN)).toNat then .error .data
      else if (cd_start + MXA_CD_HDR_LEN) % 2 ^ 64 > p.length
          ∨ r32 p cd_start ≠ MXA_CD_MAGIC then .error .data
      else if r32 p (cd_start + 4) ≠ total_files then .error .data
      else if !entriesChecked p scan cd_start total_files then .error .data
      else
        match mxaParse p total_files (cd_start + MXA_CD_HDR_LEN) with
        | .error e => .error e
        | .ok files =>
          .ok
            { data := p
              flags := r16 p 4
              files := files
              cd_start := cd_start
              key := none }

/-- `mxa_set_key`. -/
def mxaSetKey (r : MxaReadCtx) (key : Key32) : MxaReadCtx := { r with key := some key }

/-- The C string in a buffer. -/
def cstr (bs : Bytes) : Bytes := bs.takeWhile (· ≠ 0)

/-- `mxa_list_files`. -/
def mxaListFiles (r : MxaReadCtx) : List MxaFileEntry :=
  r.files.map fun e => { e with name := cstr e.name }

/-- The branch of `mxa_read_file` for stored data.  Where the cipher runs over fewer bytes than
    the entry's size, the source leaves the rest of its buffer as allocated. -/
def readStored (r : MxaReadCtx) (e : MxaFileEntry) : Except MxaStop Bytes :=
  if e.csize > e.size then .error (.err .data)
  else if (e.offset + e.size) % 2 ^ 64 > r.data.length then .error (.err .data)
  else if r.key.isSome && mxaEncrypted r.flags then
    match mxaCipher r.key r.flags e.offset (slice r.data e.offset e.csize) with
    | none => .error .hang
    | some out => .ok (out ++ List.replicate (e.size - e.csize) 0)
  else .ok (slice r.data e.offset e.size)

/-- The branch of `mxa_read_file` for compressed data. -/
def readPacked (codec : MxaCodec) (r : MxaReadCtx) (e : MxaFileEntry) : Except MxaStop Bytes :=
  match mxaCipher r.key r.flags e.offset (slice r.data e.offset e.csize) with
  | none => .error .hang
  | some blob =>
    match codec.decompress blob with
    | none => .error (.err .data)
    | some out => if out.length ≠ e.size then .error (.err .data) else .ok out

/-- `mxa_read_file`. -/
def mxaReadFile (codec : MxaCodec) (r : MxaReadCtx) (name : CStr) : Except MxaStop Bytes :=
  match lookupKey (fun e => cstr e.name) r.files name.1 with
  | none => .error (.err .notfound)
  | some e =>
    if (e.offset + e.csize) % 2 ^ 64 > r.data.length then .error (.err .data)
    else if e.codec = MXA_CODEC_STORED then readStored r e
    else if e.codec = MXA_CODEC_MEUOS then readPacked codec r e
    else .error (.err .data)

end MeuOS.Compress
