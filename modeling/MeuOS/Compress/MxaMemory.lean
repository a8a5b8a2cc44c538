import MeuOS.Compress.MeuosMemory
import MeuOS.Compress.Mxa

namespace MeuOS.Compress.MxaMemory

open MeuOS.Lib Lib.Checked

/-!
# The reader of `mxa_core.c` over a piece of memory

`mxa_open` and `mxa_read_file` again, with every read of the archive and every store to an
allocated block checked.  The numbers of 64 bits that the archive holds are added modulo `2 ^ 64`.

* `mxaOpen`, `mxaReadFile` — the two calls;
* `Accepted`, `mxaOpen_inside` — the archives that get past the footer, and those of them that are
  opened inside;
* `DataInside`, `mxaReadFile_inside` — the entries that are read inside the archive;
* `mxaRead_inside` — both, and `mxaRead_wrapped`, an archive that is left.
-/

variable {grants : Nat → Bool}

deriving instance DecidableEq for MxaReadCtx

/-! ### Opening -/

/-- The search for the footer. -/
def findFooterAt (p : Bytes) : Checked MxaErr (Option Nat) :=
  let first := scanStart p (MXA_CD_FOOTER_LEN + MXA_SIG_LEN)
  if first + MXA_CD_FOOTER_LEN > p.length then .ok none
  else do
    let magic ← leAt p first 4
    if magic = MXA_CF_MAGIC then return some first
    else
      let second := scanStart p MXA_CD_FOOTER_LEN
      if second + MXA_CD_FOOTER_LEN > p.length then return none
      else
        let magic ← leAt p second 4
        if magic ≠ MXA_CF_MAGIC then return none else return some second

/-- The check of the entries' sum. -/
def checkEntries (p : Bytes) (scan cd_entries_off total_files : Nat) : Checked MxaErr Unit :=
  if total_files > 0 then
    if cd_entries_off > scan then .fail .data
    else do
      let stored_crc ← leAt p (scan + 32) 4
      let entries ← readAt p cd_entries_off (scan - cd_entries_off)
      if stored_crc ≠ (crc32Bytes entries).toNat then .fail .data else return ()
  else .ok ()

/-- An entry of the directory with its name, which takes `name_len + 1` bytes of memory, and the
place of the next one. -/
def entryAt (grants : Nat → Bool) (p : Bytes) (cd_pos : Nat) :
    Checked MxaErr (MxaFileEntry × Nat) :=
  if cd_pos + MXA_CD_ENTRY_BASE > p.length then .fail .data
  else do
    let name_len ← leAt p cd_pos 2
    if cd_pos + MXA_CD_ENTRY_BASE + name_len > p.length then .fail .data
    else if grants (name_len + 1) then
      let name ← readAt p (cd_pos + MXA_CD_ENTRY_BASE) name_len
      storeIn (name_len + 1) 0 name_len
      storeIn (name_len + 1) name_len 1
      let mode ← leAt p (cd_pos + 2) 2
      let uid ← leAt p (cd_pos + 4) 4
      let gid ← leAt p (cd_pos + 8) 4
      let mtime ← leAt p (cd_pos + 12) 8
      let offset ← leAt p (cd_pos + 20) 8
      let size ← leAt p (cd_pos + 28) 8
      let csize ← leAt p (cd_pos + 36) 8
      let codec ← leAt p (cd_pos + 44) 1
      return ({ name := name, name_len := name_len, mode := mode, uid := uid, gid := gid,
                mtime := mtime, offset := offset, size := size, csize := csize, codec := codec },
        cd_pos + (MXA_CD_ENTRY_BASE + name_len))
    else .fail .memory

/-- `for (uint32_t i = 0; i < total_files; i++)`, with the entries stored in an array of
`total_files` places of 72 bytes. -/
def entriesAt (grants : Nat → Bool) (p : Bytes) (total_files : Nat) :
    Nat → Nat → Nat → Checked MxaErr (List MxaFileEntry)
  | 0, _, _ => .ok []
  | turns + 1, i, cd_pos => do
      let (e, cd_pos) ← entryAt grants p cd_pos
      storeIn (total_files * 72) (i * 72) 72
      let es ← entriesAt grants p total_files turns (i + 1) cd_pos
      return e :: es

/-- What `mxa_open` does with the directory: the context takes 88 bytes of memory. -/
def directoryAt (grants : Nat → Bool) (p : Bytes) (scan cd_start total_files : Nat) :
    Checked MxaErr MxaReadCtx :=
  if (cd_start + MXA_CD_HDR_LEN) % 2 ^ 64 > p.length then .fail .data
  else do
    let magic ← leAt p cd_start 4
    if magic ≠ MXA_CD_MAGIC then .fail .data
    else
      let count ← leAt p (cd_start + 4) 4
      if count ≠ total_files then .fail .data
      else if !grants 88 then .fail .memory
      else
        let flags ← leAt p 4 2
        checkEntries p scan ((cd_start + MXA_CD_HDR_LEN) % 2 ^ 64) total_files
        if total_files > 0 ∧ !grants (total_files * 72) then .fail .memory
        else
          let files ← entriesAt grants p total_files total_files 0
            ((cd_start + MXA_CD_HDR_LEN) % 2 ^ 64)
          return { data := p, flags := flags, files := files, cd_start := cd_start, key := none }

/-- `mxa_open`. -/
def mxaOpen (grants : Nat → Bool) (p : Bytes) : Checked MxaErr MxaReadCtx :=
  if p.length < MXA_HDR_LEN then .fail .param
  else do
    let magic ← leAt p 0 4
    if magic ≠ MXA_MAGIC then .fail .data
    else
      let v_cur ← leAt p 7 1
      let v_min ← leAt p 6 1
      if v_cur > MXA_VERSION_CUR.toNat ∨ v_min > MXA_VERSION_CUR.toNat then .fail .data
      else
        match ← findFooterAt p with
        | none => .fail .data
        | some scan =>
          let cd_start ← leAt p (scan + 8) 8
          let total_files ← leAt p (scan + 4) 4
          let sum ← leAt p (scan + 36) 4
          let header ← readAt p 0 MXA_HDR_LEN
          if sum ≠ (crc32Bytes header).toNat then .fail .data
          else directoryAt grants p scan cd_start total_files

/-! ### Reading -/

/-- The key, where the archive is encrypted and there is one. -/
def cipherKey (r : MxaReadCtx) : Option Key32 := if mxaEncrypted r.flags then r.key else none

/-- `mz_chacha20` from the archive into a block of `cap` bytes.  A turn takes at most as many bytes
as are left modulo `2 ^ 32`, so that the cipher gets to the end of the first `csize` modulo
`2 ^ 32` bytes and stays there for ever if there are more. -/
def cipherAt (r : MxaReadCtx) (key : Key32) (e : MxaFileEntry) (cap : Nat) :
    Checked MxaErr Bytes := do
  let blob ← readAt r.data e.offset (e.csize % 2 ^ 32)
  storeIn cap 0 (e.csize % 2 ^ 32)
  if e.csize ≥ 2 ^ 32 then .stuck
  else
    match mzChacha20 key.1 (mxaNonce e.offset) 0 blob with
    | none => .stuck
    | some out => return out

/-- `out_sz`. -/
def outSize (e : MxaFileEntry) : Nat := if e.size > 0 then e.size else 1

/-- The branch of `mxa_read_file` for stored data.  The source leaves the bytes behind the first
`csize` ones as allocated. -/
def readStored (grants : Nat → Bool) (r : MxaReadCtx) (e : MxaFileEntry) : Checked MxaErr Bytes :=
  if e.csize > e.size then .fail .data
  else if (e.offset + e.size) % 2 ^ 64 > r.data.length then .fail .data
  else if grants (outSize e) then
    match cipherKey r with
    | some key => do
        let out ← cipherAt r key e (outSize e)
        return out ++ List.replicate (e.size - e.csize) 0
    | none => do
        let out ← readAt r.data e.offset e.size
        storeIn (outSize e) 0 e.size
        return out
  else .fail .memory

/-- What `mxa_read_file` makes of the result of `mz_decompress`. -/
def unpacked (e : MxaFileEntry) : Checked MzErr (Int × Bytes) → Checked MxaErr Bytes
  | .ok (ret, decomp) =>
    if ret ≤ 0 then .fail .data
    else if decomp.length ≠ e.size then .fail .data
    else .ok decomp
  | .fail _ => .fail .data
  | .fault => .fault
  | .stuck => .stuck

/-- The compressed data of an entry in the archive. -/
def packedAt (r : MxaReadCtx) (e : MxaFileEntry) : Src :=
  { bytes := r.data.drop e.offset, left := e.csize }

/-- The branch of `mxa_read_file` for compressed data. -/
def readPacked (grants : Nat → Bool) (r : MxaReadCtx) (e : MxaFileEntry) : Checked MxaErr Bytes :=
  match cipherKey r with
  | some key =>
    if grants e.csize then do
      let decrypt_buf ← cipherAt r key e e.csize
      unpacked e (meuosFrom grants (.whole decrypt_buf))
    else .fail .memory
  | none => unpacked e (meuosFrom grants (packedAt r e))

/-- `num_files` is an `int`: it is negative from `2 ^ 31` entries on, and no entry is looked at. -/
def listedFiles (r : MxaReadCtx) : List MxaFileEntry :=
  if r.files.length < 2 ^ 31 then r.files else []

/-- The entry that `mxa_read_file` finds. -/
def entryNamed (r : MxaReadCtx) (name : CStr) : Option MxaFileEntry :=
  lookupKey (fun e => cstr e.name) (listedFiles r) name.1

/-- `mxa_read_file`, for the entry found. -/
def readEntry (grants : Nat → Bool) (r : MxaReadCtx) (e : MxaFileEntry) : Checked MxaErr Bytes :=
  if (e.offset + e.csize) % 2 ^ 64 > r.data.length then .fail .data
  else if e.codec = MXA_CODEC_STORED then readStored grants r e
  else if e.codec = MXA_CODEC_MEUOS then readPacked grants r e
  else .fail .data

/-- `mxa_read_file`. -/
def mxaReadFile (grants : Nat → Bool) (r : MxaReadCtx) (name : CStr) : Checked MxaErr Bytes :=
  match entryNamed r name with
  | none => .fail .notfound
  | some e => readEntry grants r e

/-! ### Which archives are opened inside -/

/-- The search for the footer stays inside. -/
theorem findFooterAt_eq (p : Bytes) : findFooterAt p = .ok (findFooter p) := by
  unfold findFooterAt findFooter MXA_CD_FOOTER_LEN
  by_cases hfirst : scanStart p (40 + MXA_SIG_LEN) + 40 > p.length
  · rw [if_pos hfirst, if_pos hfirst]
  rw [if_neg hfirst, if_neg hfirst, leAt_inside (by omega), ok_bind]
  change (if r32 p _ = _ then _ else _) = _
  by_cases hmagic : r32 p (scanStart p (40 + MXA_SIG_LEN)) = MXA_CF_MAGIC
  · rw [if_pos hmagic, if_pos hmagic]
    rfl
  rw [if_neg hmagic, if_neg hmagic]
  by_cases hsecond : scanStart p 40 + 40 > p.length
  · rw [if_pos hsecond, if_pos (Or.inl hsecond)]
    rfl
  rw [if_neg hsecond, leAt_inside (by omega), ok_bind]
  change (if r32 p _ ≠ _ then _ else _) = _
  by_cases hmagic' : r32 p (scanStart p 40) ≠ MXA_CF_MAGIC
  · rw [if_pos hmagic', if_pos (Or.inr hmagic')]
    rfl
  · rw [if_neg hmagic', if_neg (not_or.mpr ⟨hsecond, hmagic'⟩)]
    rfl

/-- A footer that is found lies inside. -/
theorem findFooter_inside {p : Bytes} {scan : Nat} (h : findFooter p = some scan) :
    scan + 40 ≤ p.length := by
  unfold findFooter MXA_CD_FOOTER_LEN at h
  dsimp only at h
  split at h
  · exact nomatch h
  split at h
  · cases h
    omega
  split at h
  · exact nomatch h
  · cases h
    omega

/-- The archive has a header and, at `scan`, a footer that `mxa_open` accepts. -/
structure Accepted (p : Bytes) (scan : Nat) : Prop where
  length : MXA_HDR_LEN ≤ p.length
  magic : r32 p 0 = MXA_MAGIC
  version : leNat (slice p 7 1) ≤ MXA_VERSION_CUR.toNat ∧
    leNat (slice p 6 1) ≤ MXA_VERSION_CUR.toNat
  footer : findFooter p = some scan
  sum : r32 p (scan + 36) = (crc32Bytes (slice p 0 MXA_HDR_LEN)).toNat

/-- Behind an accepted footer `mxa_open` goes on to the directory; otherwise it gives up. -/
theorem mxaOpen_cases (grants : Nat → Bool) (p : Bytes) :
    (∃ e, mxaOpen grants p = .fail e) ∧ (∀ scan, ¬ Accepted p scan) ∨
      ∃ scan, Accepted p scan ∧
        mxaOpen grants p = directoryAt grants p scan (r64 p (scan + 8)) (r32 p (scan + 4)) := by
  unfold mxaOpen
  by_cases hlen : p.length < MXA_HDR_LEN
  · rw [if_pos hlen]
    exact Or.inl ⟨⟨_, rfl⟩, fun scan h => absurd h.length (by omega)⟩
  have h16 : 16 ≤ p.length := Nat.not_lt.mp hlen
  rw [if_neg hlen, leAt_inside (by omega), ok_bind]
  by_cases hmagic : leNat (slice p 0 4) ≠ MXA_MAGIC
  · rw [if_pos hmagic]
    exact Or.inl ⟨⟨_, rfl⟩, fun scan h => hmagic h.magic⟩
  rw [if_neg hmagic, leAt_inside (by omega), ok_bind, leAt_inside (by omega),
    ok_bind]
  by_cases hversion : leNat (slice p 7 1) > MXA_VERSION_CUR.toNat ∨
      leNat (slice p 6 1) > MXA_VERSION_CUR.toNat
  · rw [if_pos hversion]
    refine Or.inl ⟨⟨_, rfl⟩, fun scan h => ?_⟩
    have hle := h.version
    omega
  rw [if_neg hversion, findFooterAt_eq, ok_bind]
  cases hfooter : findFooter p with
  | none =>
    refine Or.inl ⟨⟨_, rfl⟩, fun scan h => ?_⟩
    exact absurd (hfooter.symm.trans h.footer) nofun
  | some scan =>
    have hscan := findFooter_inside hfooter
    have hhdr : 0 + MXA_HDR_LEN ≤ p.length := by
      rw [Nat.zero_add]
      exact h16
    dsimp only
    rw [leAt_inside (by omega), ok_bind, leAt_inside (by omega), ok_bind,
      leAt_inside (by omega), ok_bind, readAt_inside hhdr, ok_bind]
    by_cases hsum : leNat (slice p (scan + 36) 4) ≠ (crc32Bytes (slice p 0 MXA_HDR_LEN)).toNat
    · rw [if_pos hsum]
      refine Or.inl ⟨⟨_, rfl⟩, fun scan' h => ?_⟩
      cases hfooter.symm.trans h.footer
      exact hsum h.sum
    · rw [if_neg hsum]
      refine Or.inr ⟨scan, ⟨h16, not_not.mp hmagic, ?_, hfooter, not_not.mp hsum⟩, rfl⟩
      omega

/-! ### The directory -/

theorem entryAt_sat (grants : Nat → Bool) (p : Bytes) (cd_pos : Nat) :
    (entryAt grants p cd_pos).Sat fun r => r.1.offset < 2 ^ 64 := by
  unfold entryAt MXA_CD_ENTRY_BASE
  split
  · trivial
  rename_i hroom
  apply (leAt_sat (show cd_pos + 2 ≤ p.length by omega)).bind
  rintro name_len -
  split
  · trivial
  rename_i hname
  split
  · apply (readAt_sat (show cd_pos + 48 + name_len ≤ p.length by omega)).bind
    rintro name -
    rw [storeIn_inside (by omega), ok_bind, storeIn_inside (by omega), ok_bind]
    apply (leAt_sat (show cd_pos + 2 + 2 ≤ p.length by omega)).bind
    rintro mode -
    apply (leAt_sat (show cd_pos + 4 + 4 ≤ p.length by omega)).bind
    rintro uid -
    apply (leAt_sat (show cd_pos + 8 + 4 ≤ p.length by omega)).bind
    rintro gid -
    apply (leAt_sat (show cd_pos + 12 + 8 ≤ p.length by omega)).bind
    rintro mtime -
    apply (leAt_sat (show cd_pos + 20 + 8 ≤ p.length by omega)).bind
    rintro offset ⟨-, hoffset⟩
    apply (leAt_sat (show cd_pos + 28 + 8 ≤ p.length by omega)).bind
    rintro size -
    apply (leAt_sat (show cd_pos + 36 + 8 ≤ p.length by omega)).bind
    rintro csize -
    apply (leAt_sat (show cd_pos + 44 + 1 ≤ p.length by omega)).bind
    rintro codec -
    exact hoffset
  · trivial

/-- The entry loop stays inside the archive, and inside the array of the entries. -/
theorem entriesAt_sat (grants : Nat → Bool) (p : Bytes) {total_files turns i cd_pos : Nat}
    (hi : i + turns = total_files) :
    (entriesAt grants p total_files turns i cd_pos).Sat fun es => ∀ e ∈ es, e.offset < 2 ^ 64 := by
  induction turns generalizing i cd_pos with
  | zero => exact fun e he => absurd he List.not_mem_nil
  | succ turns ih =>
    apply (entryAt_sat grants p cd_pos).bind
    rintro ⟨e, cd_pos'⟩ hoffset
    have hplace : i * 72 + 72 ≤ total_files * 72 := by omega
    dsimp only at hoffset ⊢
    rw [storeIn_inside hplace, ok_bind]
    apply (ih (by omega)).bind
    intro es hes
    exact List.forall_mem_cons.mpr ⟨hoffset, hes⟩

theorem checkEntries_sat {p : Bytes} {scan cd_entries_off total_files : Nat}
    (hscan : scan + 40 ≤ p.length) :
    (checkEntries p scan cd_entries_off total_files).Sat fun _ => True := by
  unfold checkEntries
  split
  · split
    · trivial
    rename_i hoff
    apply (leAt_sat (show scan + 32 + 4 ≤ p.length by omega)).bind
    rintro stored_crc -
    apply (readAt_sat (show cd_entries_off + (scan - cd_entries_off) ≤ p.length by omega)).bind
    rintro entries -
    split <;> trivial
  · trivial

section directory

variable {p : Bytes} {scan cd_start total_files : Nat} (hscan : scan + 40 ≤ p.length)

include hscan

/-- A directory whose header ends below `2 ^ 64` is read inside. -/
theorem directoryAt_sat (hwrap : cd_start + 8 < 2 ^ 64) :
    (directoryAt grants p scan cd_start total_files).Sat fun r =>
      r.data = p ∧ ∀ e ∈ r.files, e.offset < 2 ^ 64 := by
  unfold directoryAt MXA_CD_HDR_LEN
  rw [Nat.mod_eq_of_lt hwrap]
  split
  · trivial
  apply (leAt_sat (show cd_start + 4 ≤ p.length by omega)).bind
  rintro magic -
  split
  · trivial
  apply (leAt_sat (show cd_start + 4 + 4 ≤ p.length by omega)).bind
  rintro count -
  split
  · trivial
  split
  · trivial
  apply (leAt_sat (show 4 + 2 ≤ p.length by omega)).bind
  rintro flags -
  apply (checkEntries_sat hscan).bind
  rintro ⟨⟩ -
  split
  · trivial
  apply (entriesAt_sat grants p (Nat.zero_add total_files)).bind
  rintro files hfiles
  exact ⟨rfl, hfiles⟩

theorem directoryAt_fault (hlen : p.length < 2 ^ 63) (hcd : cd_start < 2 ^ 64)
    (hwrap : 2 ^ 64 ≤ cd_start + 8) :
    directoryAt grants p scan cd_start total_files = .fault := by
  unfold directoryAt MXA_CD_HDR_LEN
  rw [if_neg (by omega), leAt_outside (by decide) (by omega), fault_bind]

end directory

/-- The directory begins far enough below `2 ^ 64` for its header to end there. -/
def DirectoryInside (p : Bytes) : Prop := ∀ scan, Accepted p scan → r64 p (scan + 8) + 8 < 2 ^ 64

theorem r64_lt (p : Bytes) (off : Nat) : r64 p off < 2 ^ 64 := by
  have h := leNat_lt (slice p off 8)
  have hlen : (slice p off 8).length ≤ 8 := List.length_take_le _ _
  exact lt_of_lt_of_le h (Nat.pow_le_pow_right (by decide) hlen)

/-- Opening keeps inside the archive exactly where the directory's header does. -/
theorem mxaOpen_inside (grants : Nat → Bool) {p : Bytes} (hlen : p.length < 2 ^ 63) :
    mxaOpen grants p ≠ .fault ↔ DirectoryInside p := by
  obtain ⟨⟨e, hopen⟩, hno⟩ | ⟨scan, hacc, hopen⟩ := mxaOpen_cases grants p
  · rw [hopen]
    exact ⟨fun _ scan h => absurd h (hno scan), fun _ => fail_ne_fault e⟩
  · have hscan := findFooter_inside hacc.footer
    rw [hopen]
    constructor
    · intro hne scan' hacc'
      cases hacc.footer.symm.trans hacc'.footer
      by_contra hwrap
      exact hne (directoryAt_fault hscan hlen (r64_lt p _) (Nat.not_lt.mp hwrap))
    · intro hin
      exact (directoryAt_sat hscan (hin scan hacc)).ne_fault

/-- The reader keeps the archive, and its offsets are numbers of 64 bits. -/
theorem mxaOpen_ok {p : Bytes} (hlen : p.length < 2 ^ 63) {r : MxaReadCtx}
    (h : mxaOpen grants p = .ok r) : r.data = p ∧ ∀ e ∈ r.files, e.offset < 2 ^ 64 := by
  obtain ⟨⟨e, hopen⟩, -⟩ | ⟨scan, hacc, hopen⟩ := mxaOpen_cases grants p
  · exact absurd (hopen.symm.trans h) nofun
  · have hscan := findFooter_inside hacc.footer
    have hdir := hopen.symm.trans h
    have hwrap : r64 p (scan + 8) + 8 < 2 ^ 64 := by
      by_contra hwrap
      rw [directoryAt_fault hscan hlen (r64_lt p _) (Nat.not_lt.mp hwrap)] at hdir
      exact nomatch hdir
    exact (directoryAt_sat hscan hwrap).of_ok hdir

/-! ### Which entries are read inside -/

/-- What the cipher gets through of an entry's data lies inside.  It does if the end of the data is
below `2 ^ 64`. -/
def CipherInside (r : MxaReadCtx) (e : MxaFileEntry) : Prop :=
  e.csize % 2 ^ 32 = 0 ∨ e.offset + e.csize % 2 ^ 32 ≤ r.data.length

/-- Stored data: the end is below `2 ^ 64`. -/
def StoredInside (r : MxaReadCtx) (e : MxaFileEntry) : Prop :=
  match cipherKey r with
  | some _ => CipherInside r e
  | none => e.offset + e.size < 2 ^ 64

/-- Compressed data: the end is below `2 ^ 64`, or the decoder is done before the end of the
archive. -/
def PackedInside (grants : Nat → Bool) (r : MxaReadCtx) (e : MxaFileEntry) : Prop :=
  match cipherKey r with
  | some _ => grants e.csize = true → CipherInside r e
  | none => e.offset + e.csize < 2 ^ 64 ∨ meuosFrom grants (packedAt r e) ≠ .fault

/-- The condition under which an entry is read inside the archive: it gets past the checks only
with its data inside. -/
def DataInside (grants : Nat → Bool) (r : MxaReadCtx) (e : MxaFileEntry) : Prop :=
  (e.offset + e.csize) % 2 ^ 64 ≤ r.data.length →
    (e.codec = MXA_CODEC_STORED → e.csize ≤ e.size →
      (e.offset + e.size) % 2 ^ 64 ≤ r.data.length → grants (outSize e) = true →
        StoredInside r e) ∧
    (e.codec = MXA_CODEC_MEUOS → PackedInside grants r e)

section entry

variable {r : MxaReadCtx} {e : MxaFileEntry}

theorem cipherAt_inside {key : Key32} {cap : Nat} (hcap : e.csize % 2 ^ 32 ≤ cap) :
    cipherAt r key e cap ≠ .fault ↔ CipherInside r e := by
  unfold cipherAt CipherInside
  rw [bind_ne_fault, readAt_ne_fault]
  intro blob
  rw [storeIn_inside (by omega), ok_bind]
  split
  · nofun
  split
  · nofun
  · exact ok_ne_fault _

theorem unpacked_inside {x : Checked MzErr (Int × Bytes)} :
    unpacked e x ≠ .fault ↔ x ≠ .fault := by
  match x with
  | .ok (ret, decomp) =>
    refine ⟨fun _ => ok_ne_fault _, fun _ => ?_⟩
    simp only [unpacked]
    split
    · exact fail_ne_fault _
    split
    · exact fail_ne_fault _
    · exact ok_ne_fault _
  | .fail err => exact ⟨fun _ => fail_ne_fault _, fun _ => fail_ne_fault _⟩
  | .fault => exact ⟨fun h => absurd rfl h, fun h => absurd rfl h⟩
  | .stuck => exact ⟨fun _ => nofun, fun _ => nofun⟩

theorem readStored_inside (hlen : r.data.length < 2 ^ 63) (hoffset : e.offset < 2 ^ 64) :
    readStored grants r e ≠ .fault ↔ (e.csize ≤ e.size →
      (e.offset + e.size) % 2 ^ 64 ≤ r.data.length → grants (outSize e) = true →
        StoredInside r e) := by
  unfold readStored
  by_cases hsize : e.csize > e.size
  · rw [if_pos hsize]
    exact ⟨fun _ h => absurd hsize (Nat.not_lt.mpr h), fun _ => fail_ne_fault _⟩
  rw [if_neg hsize, imp_iff_right (Nat.not_lt.mp hsize)]
  by_cases hend : (e.offset + e.size) % 2 ^ 64 > r.data.length
  · rw [if_pos hend]
    exact ⟨fun _ h => absurd hend (Nat.not_lt.mpr h), fun _ => fail_ne_fault _⟩
  rw [if_neg hend, imp_iff_right (Nat.not_lt.mp hend)]
  by_cases hgrants : grants (outSize e) = true
  · have hcap : e.size ≤ outSize e := by
      unfold outSize
      split <;> omega
    rw [if_pos hgrants, imp_iff_right hgrants]
    unfold StoredInside
    cases cipherKey r with
    | some key =>
      have hmod := Nat.mod_le e.csize (2 ^ 32)
      rw [bind_ne_fault, cipherAt_inside (by omega)]
      exact fun _ => ok_ne_fault _
    | none =>
      rw [bind_ne_fault, readAt_ne_fault]
      · -- Past the checks, the data ends inside exactly where its end was not reduced.
        omega
      · intro out
        rw [storeIn_inside (by omega), ok_bind]
        exact ok_ne_fault _
  · rw [if_neg hgrants]
    exact ⟨fun _ h => absurd h hgrants, fun _ => fail_ne_fault _⟩

theorem readPacked_inside
    (hend : (e.offset + e.csize) % 2 ^ 64 ≤ r.data.length) :
    readPacked grants r e ≠ .fault ↔ PackedInside grants r e := by
  unfold readPacked PackedInside
  cases cipherKey r with
  | some key =>
    dsimp only
    by_cases hgrants : grants e.csize = true
    · rw [if_pos hgrants, imp_iff_right hgrants, bind_ne_fault,
        cipherAt_inside (Nat.mod_le _ _)]
      intro decrypt_buf
      rw [unpacked_inside]
      exact (meuosFrom_sat (Src.whole_inside decrypt_buf)).ne_fault
    · rw [if_neg hgrants]
      exact ⟨fun _ h => absurd h hgrants, fun _ => fail_ne_fault _⟩
  | none =>
    rw [unpacked_inside]
    constructor
    · exact Or.inr
    · rintro (hfits | hdone)
      · rw [Nat.mod_eq_of_lt hfits] at hend
        apply (meuosFrom_sat _).ne_fault
        show e.csize ≤ (r.data.drop e.offset).length
        rw [List.length_drop]
        omega
      · exact hdone

/-- An entry is read inside the archive exactly where its data is. -/
theorem readEntry_inside (hlen : r.data.length < 2 ^ 63) (hoffset : e.offset < 2 ^ 64) :
    readEntry grants r e ≠ .fault ↔ DataInside grants r e := by
  unfold readEntry DataInside
  by_cases hend : (e.offset + e.csize) % 2 ^ 64 > r.data.length
  · rw [if_pos hend]
    exact ⟨fun _ h => absurd hend (Nat.not_lt.mpr h), fun _ => fail_ne_fault _⟩
  rw [if_neg hend, imp_iff_right (Nat.not_lt.mp hend)]
  by_cases hstored : e.codec = MXA_CODEC_STORED
  · have hother : e.codec ≠ MXA_CODEC_MEUOS := by
      rw [hstored]
      decide
    rw [if_pos hstored, readStored_inside hlen hoffset, imp_iff_right hstored]
    exact ⟨fun h => ⟨h, fun hc => absurd hc hother⟩, fun h => h.1⟩
  rw [if_neg hstored]
  by_cases hpacked : e.codec = MXA_CODEC_MEUOS
  · rw [if_pos hpacked, readPacked_inside (Nat.not_lt.mp hend), imp_iff_right hpacked]
    exact ⟨fun h => ⟨fun hc => absurd hc hstored, h⟩, fun h => h.2⟩
  · rw [if_neg hpacked]
    exact ⟨fun _ => ⟨fun hc => absurd hc hstored, fun hc => absurd hc hpacked⟩,
      fun _ => fail_ne_fault _⟩

end entry

/-- The entry found is one of the reader's. -/
theorem mem_of_entryNamed {r : MxaReadCtx} {name : CStr} {e : MxaFileEntry}
    (h : entryNamed r name = some e) : e ∈ r.files := by
  have hmem := (lookupKey_some h).2
  unfold listedFiles at hmem
  split at hmem
  · exact hmem
  · exact absurd hmem List.not_mem_nil

/-- Opening an archive keeps inside it exactly where the header of the directory does, and then
reading under any name, with or without a key, keeps inside it exactly where the data of the entry
found does. -/
theorem mxaRead_inside (grants : Nat → Bool) {p : Bytes} (hlen : p.length < 2 ^ 63) :
    (mxaOpen grants p ≠ .fault ↔ DirectoryInside p) ∧
      ∀ r, mxaOpen grants p = .ok r → ∀ (key : Option Key32) (name : CStr),
        (mxaReadFile grants { r with key := key } name ≠ .fault ↔
          ∀ e, entryNamed r name = some e → DataInside grants { r with key := key } e) := by
  refine ⟨mxaOpen_inside grants hlen, fun r hopen key name => ?_⟩
  obtain ⟨hdata, hoffsets⟩ := mxaOpen_ok hlen hopen
  have hnamed : entryNamed { r with key := key } name = entryNamed r name := rfl
  unfold mxaReadFile
  rw [hnamed]
  cases he : entryNamed r name with
  | none =>
    exact ⟨fun _ e h => absurd h nofun, fun _ => fail_ne_fault _⟩
  | some e =>
    have hmem : e ∈ r.files := mem_of_entryNamed he
    have hr : ({ r with key := key } : MxaReadCtx).data.length < 2 ^ 63 := by
      rw [hdata]
      exact hlen
    rw [readEntry_inside hr (hoffsets e hmem)]
    exact ⟨fun h e' he' => Option.some.inj he' ▸ h, fun h => h e rfl⟩

/-! ### A sum that is reduced -/

/-- An archive of one stored file, `a`, of 32 bytes at the offset `2 ^ 64 - 16`. -/
def wrapped : Bytes :=
  leBytes 4 MXA_MAGIC ++ [0, 0, 1, 1, 0] ++ leBytes 7 0 ++
    leBytes 4 MXA_CD_MAGIC ++ leBytes 4 1 ++
    (leBytes 2 1 ++ leBytes 18 0 ++ leBytes 8 (2 ^ 64 - 16) ++ leBytes 8 32 ++ leBytes 8 32 ++
      leBytes 4 0 ++ [97]) ++
    leBytes 4 MXA_CF_MAGIC ++ leBytes 4 1 ++ leBytes 8 16 ++ leBytes 16 0 ++
    leBytes 4 2112821171 ++ leBytes 4 4240094349

/-- Both sums are 16, and the 32 bytes are copied from in front of the archive. -/
theorem mxaRead_wrapped :
    (mxaOpen (fun _ => true) wrapped >>= fun r =>
      mxaReadFile (fun _ => true) r ⟨[97], by decide⟩) = .fault := by
  decide +kernel

/-- The archive is opened inside. -/
theorem mxaRead_inside_wrapped : DirectoryInside wrapped :=
  (mxaRead_inside (fun _ => true) (by decide : wrapped.length < 2 ^ 63)).1.mp
    (by decide +kernel)

end MeuOS.Compress.MxaMemory
