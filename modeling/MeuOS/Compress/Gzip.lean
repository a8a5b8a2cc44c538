import MeuOS.Compress.DeflateStored
import MeuOS.Lib.CheckedBytes

namespace MeuOS.Compress.Inflate

open MeuOS.Lib List Lib.Checked

/-!
# The gzip container (`mz_gzip.c`, with `mz_crc32` of `mz_hash.c`)

A header of ten bytes, the DEFLATE stream, the CRC-32 and the size of the data.  The functions
return a length, as an `int`, or an error code; a caller takes 0 and less for a failure.

* `mzCrc32` — the checksum;
* `mzGzipCompress`, `mzGzipDecompress` — the container, with the value returned and `*result`,
  which is `none` where it is not set;
* `RoundTrips`, `mzGzip_roundTrips_iff` — the data that comes back.
-/

/-! ### The checksum -/

/-- One bit of a round of `crc32_init_table`. -/
def crc32Shift (crc : UInt32) : UInt32 :=
  if crc &&& 1 ≠ 0 then (crc >>> 1) ^^^ 0xEDB88320 else crc >>> 1

/-- `crc32_table[i]`. -/
def crc32Table (i : UInt32) : UInt32 := Nat.repeat crc32Shift 8 i

/-- `mz_crc32`. -/
def mzCrc32 (data : Bytes) : UInt32 :=
  data.foldl (fun crc b => crc32Table ((crc ^^^ b.toUInt32) &&& 0xFF) ^^^ (crc >>> 8)) 0xFFFFFFFF
    ^^^ 0xFFFFFFFF

set_option maxRecDepth 20000 in
/-- The check value of the code: the sum of "123456789". -/
example : mzCrc32 [0x31, 0x32, 0x33, 0x34, 0x35, 0x36, 0x37, 0x38, 0x39] = 0xCBF43926 := by
  decide

/-! ### The writer -/

/-- The fixed header: magic, method, no flags, no time, Unix. -/
def gzipHeader : Bytes := [0x1f, 0x8b, 8, 0, 0, 0, 0, 0, 0, 3]

/-- `mz_gzip_compress`. -/
def mzGzipCompress (grants : Nat → Bool) (input : Bytes) : Run (Int × Option Bytes) := do
  let (rc, deflate_out) ← mzDeflateCompress grants input
  if rc ≤ 0 then return (rc, none)
  else
    let total := (10 + deflate_out.length + 8) % 2 ^ 64
    if grants total then
      let out ← OutBuf.write { bytes := [], cap := total } gzipHeader
      let out ← out.write deflate_out
      let out ← out.write (leBytes 4 (mzCrc32 input).toNat)
      let out ← out.write (leBytes 4 (input.length % 2 ^ 32))
      return (cInt out.pos, some out.bytes)
    else .fail .memory

/-! ### The reader -/

/-- `FEXTRA`: a length of two bytes and as many bytes as it says. -/
def skipExtra (input : Bytes) (flg pos : Nat) : Run Nat :=
  if flg &&& 0x04 ≠ 0 then
    if pos + 2 > input.length then .fail .data
    else do
      let xlen ← leAt input pos 2
      if pos + (2 + xlen) > input.length then .fail .data else return pos + (2 + xlen)
  else .ok pos

/-- `FNAME` and `FCOMMENT`: a text with a zero behind it. -/
def skipText (bit : Nat) (input : Bytes) (flg pos : Nat) : Run Nat :=
  if flg &&& bit ≠ 0 then
    let pos := pos + ((input.drop pos).takeWhile (· ≠ 0)).length
    if pos + 1 > input.length then .fail .data else .ok (pos + 1)
  else .ok pos

/-- `FHCRC`: two bytes. -/
def skipHcrc (input : Bytes) (flg pos : Nat) : Run Nat :=
  if flg &&& 0x02 ≠ 0 then
    if pos + 2 > input.length then .fail .data else .ok (pos + 2)
  else .ok pos

/-- The checks of the header, and the place behind it. -/
def gzipHeaderEnd (input : Bytes) : Run Nat := do
  let id1 ← leAt input 0 1
  let id2 ← leAt input 1 1
  if id1 ≠ 0x1f ∨ id2 ≠ 0x8b then .fail .data
  else
    let cm ← leAt input 2 1
    if cm ≠ 8 then .fail .data
    else
      let flg ← leAt input 3 1
      let pos ← skipExtra input flg 10
      let pos ← skipText 0x08 input flg pos
      let pos ← skipText 0x10 input flg pos
      skipHcrc input flg pos

/-- The body and the trailer, from `pos` on. -/
def gzipBody (grants : Nat → Bool) (input : Bytes) (pos : Nat) : Run (Int × Option Bytes) := do
  let deflate_end := input.length - 8
  let expected_crc ← leAt input deflate_end 4
  let expected_size ← leAt input (deflate_end + 4) 4
  let raw_out ← mzDeflateDecompress grants (slice input pos (deflate_end - pos))
  if cInt raw_out.length ≤ 0 then return (cInt raw_out.length, none)
  else if (mzCrc32 raw_out).toNat ≠ expected_crc then .fail .data
  else if raw_out.length % 2 ^ 32 ≠ expected_size then .fail .data
  else return (cInt raw_out.length, some raw_out)

/-- `mz_gzip_decompress`. -/
def mzGzipDecompress (grants : Nat → Bool) (input : Bytes) : Run (Int × Option Bytes) :=
  if input.length < 18 then .fail .data
  else do
    let pos ← gzipHeaderEnd input
    if input.length < pos + 8 then .fail .data
    else if input.length - 8 < pos then .fail .data
    else gzipBody grants input pos

/-! ### The round trip -/

/-- Both calls succeed, and the second one sets `*result` to the data. -/
def RoundTrips (grants : Nat → Bool) (x : Bytes) : Prop :=
  ∃ rc z, mzGzipCompress grants x = .ok (rc, some z) ∧ 0 < rc ∧
    ∃ rc', mzGzipDecompress grants z = .ok (rc', some x) ∧ 0 ≤ rc'

/-- The container of some data. -/
def gzipBytes (x : Bytes) : Bytes :=
  gzipHeader ++ (storedBytes x ++
    (leBytes 4 (mzCrc32 x).toNat ++ leBytes 4 (x.length % 2 ^ 32)))

section roundtrip

variable {grants : Nat → Bool} {x : Bytes}

theorem length_gzipBytes (hx : x ≠ []) : (gzipBytes x).length = storedLength x.length + 18 := by
  simp only [gzipBytes, length_append, length_leBytes, length_storedBytes hx]
  show 10 + _ = _
  omega

/-- The writer, where both lengths are positive as numbers of type `int`. -/
theorem mzGzipCompress_ok (hx : x ≠ []) (hsize : storedLength x.length + 18 < 2 ^ 64)
    (hgrants : ∀ n ≤ storedLength x.length + 18, grants n = true)
    (hpos : 0 < cInt (storedLength x.length)) :
    mzGzipCompress grants x = .ok (cInt (storedLength x.length + 18), some (gzipBytes x)) := by
  have hlen := length_storedBytes hx
  have htotal : (10 + (storedBytes x).length + 8) % 2 ^ 64 = storedLength x.length + 18 := by
    rw [hlen, Nat.mod_eq_of_lt (by omega)]
    omega
  have hheader : gzipHeader.length = 10 := rfl
  unfold mzGzipCompress
  rw [mzDeflateCompress_ok hx (by omega) (hgrants _ (by omega)), ok_bind]
  dsimp only
  rw [if_neg (not_le.mpr hpos), htotal, if_pos (hgrants _ le_rfl),
    write_ok (by simp only [OutBuf.pos, length_nil, hheader]; omega), ok_bind,
    write_ok (by simp only [OutBuf.pos, nil_append, hheader, hlen]; omega), ok_bind,
    write_ok (by
      simp only [OutBuf.pos, nil_append, length_append, length_leBytes, hheader, hlen]
      omega), ok_bind,
    write_ok (by
      simp only [OutBuf.pos, nil_append, length_append, length_leBytes, hheader, hlen]
      omega), ok_bind]
  have hbytes : (([] ++ gzipHeader ++ storedBytes x ++ leBytes 4 (mzCrc32 x).toNat ++
      leBytes 4 (x.length % 2 ^ 32)) : Bytes) = gzipBytes x := by
    simp only [gzipBytes, nil_append, append_assoc]
  simp only [OutBuf.pos]
  rw [hbytes, length_gzipBytes hx]
  rfl

/-- The header that the writer writes ends at the tenth byte. -/
theorem gzipHeaderEnd_ok (t : Bytes) : gzipHeaderEnd (gzipHeader ++ t) = .ok 10 := by
  have hread : ∀ i < 10, leAt (ε := MzErr) (gzipHeader ++ t) i 1
      = .ok (leNat (slice gzipHeader i 1)) := by
    intro i hi
    have hlen : gzipHeader.length = 10 := rfl
    rw [leAt_inside (by rw [length_append, hlen]; omega),
      slice_append_left _ _ (by rw [hlen]; omega)]
  unfold gzipHeaderEnd
  rw [hread 0 (by decide), hread 1 (by decide), hread 2 (by decide), hread 3 (by decide)]
  rfl

/-- The body that the writer writes. -/
theorem gzipBody_gzipBytes (hx : x ≠ []) (hsize : 4 * storedLength x.length + 1024 < 2 ^ 64)
    (hgrants : grants (4 * storedLength x.length + 1024) = true) :
    gzipBody grants (gzipBytes x) 10
      = .ok (cInt x.length, if cInt x.length ≤ 0 then none else some x) := by
  have hlen := length_gzipBytes hx
  have hstored := length_storedBytes hx
  have hheader : gzipHeader.length = 10 := rfl
  have hend : (gzipBytes x).length - 8 = 10 + storedLength x.length := by omega
  have hcrc : slice (gzipBytes x) (10 + storedLength x.length) 4
      = leBytes 4 (mzCrc32 x).toNat := by
    unfold gzipBytes
    rw [← append_assoc]
    apply slice_append_mid
    · rw [length_append, hheader, hstored]
    · rw [length_leBytes]
  have hisize : slice (gzipBytes x) (10 + storedLength x.length + 4) 4
      = leBytes 4 (x.length % 2 ^ 32) := by
    have hsplit : gzipBytes x = (gzipHeader ++ storedBytes x ++ leBytes 4 (mzCrc32 x).toNat) ++
        (leBytes 4 (x.length % 2 ^ 32) ++ []) := by
      simp only [gzipBytes, append_assoc, append_nil]
    rw [hsplit]
    apply slice_append_mid
    · rw [length_append, length_append, hheader, hstored, length_leBytes]
    · rw [length_leBytes]
  have hraw : slice (gzipBytes x) 10 (10 + storedLength x.length - 10) = storedBytes x := by
    apply slice_append_mid
    · exact hheader.symm
    · rw [hstored]
      omega
  unfold gzipBody
  dsimp only
  rw [hend, leAt_inside (by omega), ok_bind, leAt_inside (by omega), ok_bind,
    hraw, mzDeflateDecompress_stored hx hsize hgrants, ok_bind, hcrc, hisize,
    leNat_leBytes, leNat_leBytes]
  have hcrc_lt : (mzCrc32 x).toNat < 256 ^ 4 := (mzCrc32 x).toNat_lt
  have hisize_lt : x.length % 2 ^ 32 < 256 ^ 4 := Nat.mod_lt _ (by decide)
  rw [Nat.mod_eq_of_lt hcrc_lt, Nat.mod_eq_of_lt hisize_lt]
  split
  · rfl
  · rw [if_neg (not_not.mpr rfl), if_neg (not_not.mpr rfl)]
    rfl

/-- The reader on what the writer writes. -/
theorem mzGzipDecompress_gzipBytes (hx : x ≠ [])
    (hsize : 4 * storedLength x.length + 1024 < 2 ^ 64)
    (hgrants : grants (4 * storedLength x.length + 1024) = true) :
    mzGzipDecompress grants (gzipBytes x)
      = .ok (cInt x.length, if cInt x.length ≤ 0 then none else some x) := by
  have hlen := length_gzipBytes hx
  unfold mzGzipDecompress
  rw [if_neg (by omega)]
  have hheader : gzipHeaderEnd (gzipBytes x) = .ok 10 := gzipHeaderEnd_ok _
  rw [hheader, ok_bind, if_neg (by omega), if_neg (by omega)]
  exact gzipBody_gzipBytes hx hsize hgrants

theorem mzGzipCompress_empty (hgrants : grants 1 = true) :
    mzGzipCompress grants [] = .fault := by
  unfold mzGzipCompress
  rw [mzDeflateCompress_empty hgrants]
  rfl

/-- Where there is memory, data comes back exactly when it is not empty and its own length and
the lengths of the two streams are positive as numbers of type `int`. -/
theorem mzGzip_roundTrips_iff (hlimit : ∀ n, grants n = true → n ≤ 2 ^ 62)
    (hmemory : ∀ n ≤ 4 * storedLength x.length + 1024, grants n = true) :
    RoundTrips grants x ↔
      x ≠ [] ∧ 0 < cInt (storedLength x.length) ∧ 0 < cInt (storedLength x.length + 18) ∧
        0 < cInt x.length := by
  have hsize := hlimit _ (hmemory _ le_rfl)
  by_cases hx : x = []
  · subst hx
    constructor
    · rintro ⟨rc, z, hz, -⟩
      rw [mzGzipCompress_empty (hmemory 1 (by omega))] at hz
      exact nomatch hz
    · exact fun h => absurd rfl h.1
  by_cases hdeflate : 0 < cInt (storedLength x.length)
  swap
  · constructor
    · rintro ⟨rc, z, hz, -⟩
      unfold mzGzipCompress at hz
      rw [mzDeflateCompress_ok hx (by omega) (hmemory _ (by omega)), ok_bind] at hz
      dsimp only at hz
      rw [if_pos (not_lt.mp hdeflate)] at hz
      exact nomatch (Prod.mk.inj (ok.inj hz)).2
    · exact fun h => absurd h.2.1 hdeflate
  have hz := mzGzipCompress_ok hx (by omega) (fun n hn => hmemory n (by omega)) hdeflate
  have hback := mzGzipDecompress_gzipBytes hx (by omega) (hmemory _ le_rfl)
  constructor
  · rintro ⟨rc, z, hz', hrc, rc', hback', -⟩
    obtain ⟨rfl, rfl⟩ := by simpa using ok.inj (hz.symm.trans hz')
    obtain ⟨-, hresult⟩ := Prod.mk.inj (ok.inj (hback.symm.trans hback'))
    refine ⟨hx, hdeflate, hrc, ?_⟩
    by_contra hneg
    rw [if_pos (not_lt.mp hneg)] at hresult
    exact nomatch hresult
  · rintro ⟨-, -, hrc, hlen⟩
    rw [if_neg (not_le.mpr hlen)] at hback
    exact ⟨_, _, hz, hrc, _, hback, hlen.le⟩

end roundtrip

/-- One byte comes back. -/
theorem mzGzip_roundTrips_byte :
    RoundTrips (fun n => n ≤ 2 ^ 62) [0x61] ↔
      ([0x61] : Bytes) ≠ [] ∧ 0 < cInt (storedLength 1) ∧ 0 < cInt (storedLength 1 + 18) ∧
        0 < cInt 1 :=
  mzGzip_roundTrips_iff (fun _ h => of_decide_eq_true h)
    fun n hn => decide_eq_true (hn.trans (by decide))

/-- The empty string does not come back: its only block does not fit the buffer of one byte that
the writer allocates for it. -/
theorem mzGzip_empty : ¬ RoundTrips (fun n => n ≤ 2 ^ 62) [] := by
  rintro ⟨rc, z, hz, -⟩
  rw [mzGzipCompress_empty (by decide)] at hz
  exact nomatch hz

/-- Nor does the container of the empty string, written elsewhere: the reader returns 0 for it
and leaves `*result` as it was. -/
example : mzGzipDecompress (fun n => n ≤ 2 ^ 62)
    (gzipHeader ++ [1, 0, 0, 0xFF, 0xFF, 0, 0, 0, 0, 0, 0, 0, 0]) = .ok (0, none) := by
  decide +kernel

end MeuOS.Compress.Inflate
