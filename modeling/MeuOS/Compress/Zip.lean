import MeuOS.Compress.Gzip

namespace MeuOS.Compress.Inflate

open MeuOS.Lib Lib.Checked

/-!
# The ZIP reader (`mz_zip.c`)

The reader looks for the record at the end of the archive, reads the entries of the central
directory, and finds the data of a member behind the member's local header.  Every read of the
archive is checked: one outside it ends the run with `Checked.fault`.

* `ZipEntry`, `ZipReader` — an entry and the reader;
* `mzZipReaderOpen`, `mzZipReaderExtract` — the two calls;
* `mzZipReaderOpen_sat` — opening reads inside the archive;
* `ExtractInside`, `mzZipReader_inBounds` — the entries that are extracted inside the archive.
-/

/-! ### The reader -/

/-- `MZ_ZIP_CDIR_SIG`. -/
def MZ_ZIP_CDIR_SIG : Nat := 0x02014b50

/-- `MZ_ZIP_LOCAL_SIG`. -/
def MZ_ZIP_LOCAL_SIG : Nat := 0x04034b50

/-- `struct mz_zip_entry`; the sizes and the offset are numbers of 32 bits. -/
structure ZipEntry where
  name : Bytes
  crc32 : Nat
  compressed_size : Nat
  uncompressed_size : Nat
  method : Nat
  local_header_offset : Nat
  deriving DecidableEq

/-- `struct mz_zip_reader`; `count` is the number of entries. -/
structure ZipReader where
  data : Bytes
  entries : List ZipEntry
  deriving DecidableEq

/-- The comparison of some bytes, one after the other, up to the first difference. -/
def matchesAt (data : Bytes) : Nat → Bytes → Run Bool
  | _, [] => .ok true
  | i, b :: bs => do
      let d ← leAt data i 1
      if d = b.toNat then matchesAt data (i + 1) bs else return false

/-- `for (size_t i = len - 22 + 1; i-- > scan_start; )`; `none` when the record is not found. -/
def findEocd (data : Bytes) (scan_start : Nat) : Nat → Run (Option Nat)
  | 0 => .ok none
  | i + 1 =>
    if i + 1 > scan_start then do
      let found ← matchesAt data i [0x50, 0x4b, 0x05, 0x06]
      if found then return some i else findEocd data scan_start i
    else .ok none

/-- An entry of the central directory, and the place of the next one. -/
def centralEntry (data : Bytes) (pos : Nat) : Run (ZipEntry × Nat) :=
  if pos + 46 > data.length then .fail .data
  else do
    let sig ← leAt data pos 4
    if sig ≠ MZ_ZIP_CDIR_SIG then .fail .data
    else
      let method ← leAt data (pos + 10) 2
      let crc32 ← leAt data (pos + 16) 4
      let compressed_size ← leAt data (pos + 20) 4
      let uncompressed_size ← leAt data (pos + 24) 4
      let name_len ← leAt data (pos + 28) 2
      let extra_len ← leAt data (pos + 30) 2
      let comment_len ← leAt data (pos + 32) 2
      let local_header_offset ← leAt data (pos + 42) 4
      if pos + 46 + name_len > data.length then .fail .data
      else
        let copy_len := if name_len < 511 then name_len else 511
        let name ← readAt data (pos + 46) copy_len
        return ({ name := name, crc32 := crc32, compressed_size := compressed_size,
                  uncompressed_size := uncompressed_size, method := method,
                  local_header_offset := local_header_offset },
          pos + (46 + name_len + extra_len + comment_len))

/-- `for (int i = 0; i < total_entries; i++)`. -/
def centralEntries (data : Bytes) : Nat → Nat → Run (List ZipEntry)
  | 0, _ => .ok []
  | turns + 1, pos => do
      let (e, pos) ← centralEntry data pos
      let es ← centralEntries data turns pos
      return e :: es

/-- `mz_zip_reader_open`: a reader takes 32 bytes of memory and an entry 532. -/
def mzZipReaderOpen (grants : Nat → Bool) (data : Bytes) : Run ZipReader :=
  if data.length < 22 then .fail .data
  else do
    let scan_start := if data.length ≥ 65557 then data.length - 65557 else 0
    match ← findEocd data scan_start (data.length - 22 + 1) with
    | none => .fail .data
    | some eocd_pos =>
      let total_entries ← leAt data (eocd_pos + 10) 2
      let cdir_offset ← leAt data (eocd_pos + 16) 4
      let cdir_size ← leAt data (eocd_pos + 12) 4
      if (cdir_offset + cdir_size) % 2 ^ 32 > data.length then .fail .data
      else if !grants 32 then .fail .memory
      else if total_entries = 0 then return { data := data, entries := [] }
      else if !grants (total_entries * 532) then .fail .memory
      else
        let entries ← centralEntries data total_entries cdir_offset
        return { data := data, entries := entries }

/-! ### Extraction -/

/-- A stored member, with its data at `data_offset`. -/
def extractStored (grants : Nat → Bool) (data : Bytes) (e : ZipEntry) (data_offset : Nat) :
    Run (Int × Option Bytes) :=
  if grants (if e.uncompressed_size > 0 then e.uncompressed_size else 1) then do
    let out ← readAt data data_offset e.uncompressed_size
    if (mzCrc32 out).toNat ≠ e.crc32 then .fail .data
    else return (cInt e.uncompressed_size, some out)
  else .fail .memory

/-- A deflated member, with its data at `data_offset`. -/
def extractDeflated (grants : Nat → Bool) (data : Bytes) (e : ZipEntry) (data_offset : Nat) :
    Run (Int × Option Bytes) := do
  let raw ← mzDeflateDecompress grants (slice data data_offset e.compressed_size)
  if cInt raw.length ≤ 0 then return (cInt raw.length, none)
  else if raw.length ≠ e.uncompressed_size then .fail .data
  else if (mzCrc32 raw).toNat ≠ e.crc32 then .fail .data
  else return (cInt raw.length, some raw)

/-- `mz_zip_reader_extract`, for one entry.  The sums with `local_header_offset` are numbers of 32
bits. -/
def extractEntry (grants : Nat → Bool) (data : Bytes) (e : ZipEntry) :
    Run (Int × Option Bytes) :=
  if (e.local_header_offset + 30) % 2 ^ 32 > data.length then .fail .data
  else do
    let sig ← leAt data e.local_header_offset 4
    if sig ≠ MZ_ZIP_LOCAL_SIG then .fail .data
    else
      let name_len ← leAt data (e.local_header_offset + 26) 2
      let extra_len ← leAt data (e.local_header_offset + 28) 2
      let data_offset := (e.local_header_offset + 30 + name_len + extra_len) % 2 ^ 32
      if data_offset + e.compressed_size > data.length then .fail .data
      else if e.method = 0 then extractStored grants data e data_offset
      else if e.method = 8 then extractDeflated grants data e data_offset
      else .fail .data

/-- `mz_zip_reader_extract`: the value returned and `*out_data`, where it is set. -/
def mzZipReaderExtract (grants : Nat → Bool) (reader : ZipReader) (idx : Int) :
    Run (Int × Option Bytes) :=
  if idx < 0 then .fail .param
  else
    match reader.entries[idx.toNat]? with
    | none => .fail .param
    | some e => extractEntry grants reader.data e

/-! ### Opening -/

theorem matchesAt_sat {data : Bytes} {i : Nat} {bs : Bytes} (h : i + bs.length ≤ data.length) :
    (matchesAt data i bs).Sat fun _ => True := by
  induction bs generalizing i with
  | nil => trivial
  | cons b bs ih =>
    rw [List.length_cons] at h
    apply (leAt_sat (show i + 1 ≤ data.length by omega)).bind
    intro d _
    split
    · exact ih (by omega)
    · trivial

/-- The search finds a place with a whole record behind it. -/
theorem findEocd_sat {data : Bytes} {scan_start i : Nat} (h : i + 21 ≤ data.length) :
    (findEocd data scan_start i).Sat fun r => ∀ p ∈ r, p + 22 ≤ data.length := by
  induction i with
  | zero =>
    show ∀ p ∈ (none : Option Nat), _
    simp
  | succ i ih =>
    unfold findEocd
    split
    · have hlen : ([0x50, 0x4b, 0x05, 0x06] : Bytes).length = 4 := rfl
      apply (matchesAt_sat (by rw [hlen]; omega)).bind
      intro found _
      split
      · show ∀ p ∈ some i, _
        simp
        omega
      · exact ih (by omega)
    · show ∀ p ∈ (none : Option Nat), _
      simp

theorem centralEntry_sat (data : Bytes) (pos : Nat) :
    (centralEntry data pos).Sat fun _ => True := by
  unfold centralEntry
  split
  · trivial
  rename_i hroom
  apply (leAt_sat (show pos + 4 ≤ data.length by omega)).bind
  intro sig _
  split
  · trivial
  apply (leAt_sat (show pos + 10 + 2 ≤ data.length by omega)).bind
  intro method _
  apply (leAt_sat (show pos + 16 + 4 ≤ data.length by omega)).bind
  intro crc32 _
  apply (leAt_sat (show pos + 20 + 4 ≤ data.length by omega)).bind
  intro compressed_size _
  apply (leAt_sat (show pos + 24 + 4 ≤ data.length by omega)).bind
  intro uncompressed_size _
  apply (leAt_sat (show pos + 28 + 2 ≤ data.length by omega)).bind
  intro name_len _
  apply (leAt_sat (show pos + 30 + 2 ≤ data.length by omega)).bind
  intro extra_len _
  apply (leAt_sat (show pos + 32 + 2 ≤ data.length by omega)).bind
  intro comment_len _
  apply (leAt_sat (show pos + 42 + 4 ≤ data.length by omega)).bind
  intro local_header_offset _
  split
  · trivial
  rename_i hname
  have hcopy : (if name_len < 511 then name_len else 511) ≤ name_len := by
    split <;> omega
  apply (readAt_sat (show pos + 46 + (if name_len < 511 then name_len else 511) ≤ data.length by
    omega)).bind
  intro name _
  trivial

theorem centralEntries_sat (data : Bytes) (turns pos : Nat) :
    (centralEntries data turns pos).Sat fun _ => True := by
  induction turns generalizing pos with
  | zero => trivial
  | succ turns ih =>
    apply (centralEntry_sat data pos).bind
    intro r _
    exact (ih r.2).bind fun _ _ => trivial

/-- Opening reads inside the archive, and the reader keeps the archive. -/
theorem mzZipReaderOpen_sat (grants : Nat → Bool) (data : Bytes) :
    (mzZipReaderOpen grants data).Sat fun r => r.data = data := by
  unfold mzZipReaderOpen
  split
  · trivial
  rename_i hlen
  apply (findEocd_sat (show data.length - 22 + 1 + 21 ≤ data.length by omega)).bind
  intro r hr
  match r with
  | none => trivial
  | some eocd_pos =>
    have heocd : eocd_pos + 22 ≤ data.length := hr eocd_pos rfl
    apply (leAt_sat (show eocd_pos + 10 + 2 ≤ data.length by omega)).bind
    intro total_entries _
    apply (leAt_sat (show eocd_pos + 16 + 4 ≤ data.length by omega)).bind
    intro cdir_offset _
    apply (leAt_sat (show eocd_pos + 12 + 4 ≤ data.length by omega)).bind
    intro cdir_size _
    split
    · trivial
    split
    · trivial
    split
    · rfl
    split
    · trivial
    apply (centralEntries_sat data total_entries cdir_offset).bind
    intro entries _
    rfl

/-! ### Extracting -/

/-- The number `rd32` or `rd16` reads. -/
def fieldAt (data : Bytes) (off k : Nat) : Nat := leNat (slice data off k)

/-- `data_offset` of an entry. -/
def ZipEntry.dataOffset (e : ZipEntry) (data : Bytes) : Nat :=
  (e.local_header_offset + 30 + fieldAt data (e.local_header_offset + 26) 2
    + fieldAt data (e.local_header_offset + 28) 2) % 2 ^ 32

/-- What is read of a member's data is there: all of `uncompressed_size` for a stored member, and
no block that overruns the decoder's arrays for a deflated one. -/
def DataInside (grants : Nat → Bool) (data : Bytes) (e : ZipEntry) : Prop :=
  (e.method = 0 → grants (if e.uncompressed_size > 0 then e.uncompressed_size else 1) = true →
      e.uncompressed_size = 0 ∨ e.dataOffset data + e.uncompressed_size ≤ data.length) ∧
    (e.method = 8 → ∀ s, BlockStart grants (slice data (e.dataOffset data) e.compressed_size) s →
      ¬ OverrunsAt s.1)

/-- The condition under which a member is extracted inside the archive.  The first check lets
through an offset whose sum with 30 is beyond 32 bits: the local header is inside then only if it
really is. -/
def ExtractInside (grants : Nat → Bool) (data : Bytes) (e : ZipEntry) : Prop :=
  (e.local_header_offset + 30) % 2 ^ 32 ≤ data.length →
    e.local_header_offset + 4 ≤ data.length ∧
      (fieldAt data e.local_header_offset 4 = MZ_ZIP_LOCAL_SIG →
        e.local_header_offset + 30 ≤ data.length ∧
          (e.dataOffset data + e.compressed_size ≤ data.length → DataInside grants data e))

section extract

variable {grants : Nat → Bool} {data : Bytes} {e : ZipEntry}

theorem extractStored_inside (off : Nat) :
    extractStored grants data e off ≠ .fault ↔
      (grants (if e.uncompressed_size > 0 then e.uncompressed_size else 1) = true →
        e.uncompressed_size = 0 ∨ off + e.uncompressed_size ≤ data.length) := by
  unfold extractStored
  generalize (if e.uncompressed_size > 0 then e.uncompressed_size else 1) = room
  split
  · rename_i hgrants
    constructor
    · intro hne _
      by_contra hout
      apply hne
      rw [readAt_outside (by omega) (by omega), fault_bind]
    · intro hin
      unfold readAt
      rw [if_pos (hin hgrants), ok_bind]
      split <;> simp
  · rename_i hgrants
    exact ⟨fun _ h => absurd h hgrants, fun _ => fail_ne_fault _⟩

/-- Behind the decoder there is no further read. -/
theorem extractDeflated_inside (off : Nat) :
    extractDeflated grants data e off ≠ .fault ↔
      mzDeflateDecompress grants (slice data off e.compressed_size) ≠ .fault := by
  unfold extractDeflated
  cases mzDeflateDecompress grants (slice data off e.compressed_size) with
  | ok raw =>
    rw [ok_bind]
    refine ⟨fun _ => ok_ne_fault _, fun _ => ?_⟩
    split
    · exact ok_ne_fault _
    split
    · exact fail_ne_fault _
    split <;> simp
  | fail _ => simp
  | fault => simp
  | stuck => simp

/-- A member is extracted inside the archive exactly under that condition. -/
theorem extractEntry_inside (hgrants : ∀ n, grants n = true → n ≤ 2 ^ 62) :
    extractEntry grants data e ≠ .fault ↔ ExtractInside grants data e := by
  unfold extractEntry ExtractInside
  by_cases hcheck : (e.local_header_offset + 30) % 2 ^ 32 > data.length
  · rw [if_pos hcheck]
    exact ⟨fun _ h => absurd h (Nat.not_le.mpr hcheck), fun _ => fail_ne_fault _⟩
  rw [if_neg hcheck, imp_iff_right (Nat.not_lt.mp hcheck)]
  by_cases hsig_in : e.local_header_offset + 4 ≤ data.length
  swap
  · rw [leAt_outside (by decide) (Nat.not_le.mp hsig_in), fault_bind]
    exact ⟨fun h => absurd rfl h, fun h => absurd h.1 hsig_in⟩
  have hread : leAt (ε := MzErr) data e.local_header_offset 4
      = .ok (fieldAt data e.local_header_offset 4) := leAt_inside hsig_in
  rw [hread, ok_bind, and_iff_right hsig_in]
  by_cases hsig : fieldAt data e.local_header_offset 4 = MZ_ZIP_LOCAL_SIG
  swap
  · rw [if_pos hsig]
    exact ⟨fun _ h => absurd h hsig, fun _ => fail_ne_fault _⟩
  rw [if_neg (not_not.mpr hsig), imp_iff_right hsig]
  by_cases hheader : e.local_header_offset + 30 ≤ data.length
  swap
  · -- One of the two length fields is outside.
    refine ⟨fun h => absurd ?_ h, fun h => absurd h.1 hheader⟩
    by_cases hname : e.local_header_offset + 26 + 2 ≤ data.length
    · rw [leAt_inside hname, ok_bind, leAt_outside (by decide) (by omega),
        fault_bind]
    · rw [leAt_outside (by decide) (Nat.not_le.mp hname), fault_bind]
  rw [leAt_inside (by omega), ok_bind, leAt_inside (by omega), ok_bind,
    and_iff_right hheader]
  change (if e.dataOffset data + e.compressed_size > data.length then _ else
    if e.method = 0 then extractStored grants data e (e.dataOffset data)
    else if e.method = 8 then extractDeflated grants data e (e.dataOffset data)
    else _) ≠ _ ↔ _
  by_cases hdata : e.dataOffset data + e.compressed_size > data.length
  · rw [if_pos hdata]
    exact ⟨fun _ h => absurd h (Nat.not_le.mpr hdata), fun _ => fail_ne_fault _⟩
  rw [if_neg hdata, imp_iff_right (Nat.not_lt.mp hdata)]
  unfold DataInside
  by_cases hstored : e.method = 0
  · have hdeflated : ¬ e.method = 8 := by omega
    rw [if_pos hstored, extractStored_inside, imp_iff_right hstored,
      and_iff_left (fun h => absurd h hdeflated)]
  rw [if_neg hstored, and_iff_right (fun h => absurd h hstored)]
  by_cases hdeflated : e.method = 8
  · rw [if_pos hdeflated, extractDeflated_inside, imp_iff_right hdeflated,
      mzDeflateDecompress_inBounds hgrants]
  · rw [if_neg hdeflated]
    exact ⟨fun _ h => absurd h hdeflated, fun _ => fail_ne_fault _⟩

end extract

/-- Opening reads inside the archive; and where it succeeds, a member is extracted inside the
archive exactly under the condition above. -/
theorem mzZipReader_inBounds {grants : Nat → Bool} (hgrants : ∀ n, grants n = true → n ≤ 2 ^ 62)
    (data : Bytes) :
    mzZipReaderOpen grants data ≠ .fault ∧
      ∀ reader, mzZipReaderOpen grants data = .ok reader → ∀ (idx : Nat) (e : ZipEntry),
        reader.entries[idx]? = some e →
          (mzZipReaderExtract grants reader idx ≠ .fault ↔ ExtractInside grants data e) := by
  have hopen := mzZipReaderOpen_sat grants data
  refine ⟨hopen.ne_fault, ?_⟩
  intro reader hreader idx e he
  have hdata : reader.data = data := hopen.of_ok hreader
  unfold mzZipReaderExtract
  rw [if_neg (by omega), Int.toNat_natCast, he, hdata]
  exact extractEntry_inside hgrants

/-- An archive of one stored member without data, whose entry gives a size. -/
def emptyMember (uncompressed_size : Nat) : Bytes :=
  [0x50, 0x4b, 0x03, 0x04] ++ List.replicate 26 0 ++
    ([0x50, 0x4b, 0x01, 0x02] ++ List.replicate 20 0 ++ leBytes 4 uncompressed_size ++
      List.replicate 18 0) ++
    ([0x50, 0x4b, 0x05, 0x06] ++ List.replicate 6 0 ++ leBytes 2 1 ++ leBytes 4 46 ++
      leBytes 4 30 ++ List.replicate 2 0)

/-- The reader of such an archive. -/
def emptyMemberReader (uncompressed_size : Nat) : ZipReader where
  data := emptyMember uncompressed_size
  entries := [{ name := [], crc32 := 0, compressed_size := 0,
                uncompressed_size := uncompressed_size, method := 0, local_header_offset := 0 }]

/-- The member whose entry says the truth. -/
theorem mzZipReader_inBounds_empty :
    mzZipReaderExtract (fun n => n ≤ 2 ^ 62) (emptyMemberReader 0) 0 ≠ .fault ↔
      ExtractInside (fun n => n ≤ 2 ^ 62) (emptyMember 0)
        { name := [], crc32 := 0, compressed_size := 0, uncompressed_size := 0, method := 0,
          local_header_offset := 0 } :=
  (mzZipReader_inBounds (fun _ h => of_decide_eq_true h) (emptyMember 0)).2 (emptyMemberReader 0)
    (by decide) 0 _ rfl

/-- A stored member of 0 bytes whose entry gives 1000: the archive of 98 bytes is opened, and the
`memcpy` of the extraction leaves it. -/
theorem mzZipReader_overread :
    mzZipReaderOpen (fun n => n ≤ 2 ^ 62) (emptyMember 1000) = .ok (emptyMemberReader 1000) ∧
      mzZipReaderExtract (fun n => n ≤ 2 ^ 62) (emptyMemberReader 1000) 0 = .fault := by
  decide

end MeuOS.Compress.Inflate
