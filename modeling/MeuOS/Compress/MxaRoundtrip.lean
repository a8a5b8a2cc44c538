import MeuOS.Compress.Combo
import MeuOS.Compress.Mxa
import Mathlib.Data.List.TakeWhile

namespace MeuOS.Compress

open MeuOS.Lib List

/-!
# The MxA container: round trip

* `MxaStored` — what an entry of the directory promises about a file;
* `MxaWritten` — the invariant of a run of `mxa_add_file`, kept by every call
  (`MxaWritten.addFile`);
* `FooterMark` — the four bytes at which the reader looks first say "MxCF" by accident;
* `mxa_roundtrip` — an archive that is signed or has no such mark is opened, lists the files
  added and gives back their data;
* `mxaOpen_footer_mark` — one empty file with a name of 64 bytes, and the archive is not opened.
-/

/-! ### One call of the writer -/

variable {w w' : MxaWriteCtx} {codec : MxaCodec} {f : MxaInFile} {key : Option Key32} {flags : Nat}
  {enc p archive data : Bytes} {params : MxaParams} {e : MxaFileEntry} {fs : List MxaInFile}
  {sign : MxaSign} {r : MxaReadCtx}

theorem bufGrow_ok {need : Nat} {u : Unit} (h : bufGrow need = .ok u) : need ≤ 2 ^ 62 := by
  unfold bufGrow at h
  by_contra hn
  rw [if_neg hn] at h
  split at h <;> cases h

/-- There is a place for the new entry, and an `int` can count the places. -/
theorem growFiles_ok {m : Nat} (hle : w.files.length ≤ w.max_files)
    (hmax : w.max_files < 2 ^ 31) (h : growFiles w = .ok m) :
    w.files.length + 1 ≤ m ∧ m < 2 ^ 31 := by
  unfold growFiles at h
  by_cases hfull : w.files.length ≥ w.max_files
  · rw [if_pos hfull] at h
    by_cases hzero : w.max_files = 0
    · rw [if_pos hzero, if_neg (by decide)] at h
      cases h
      have h16 : (16 : Int).toNat = 16 := rfl
      omega
    · rw [if_neg hzero] at h
      -- A doubled size that is not negative has not wrapped.
      have hcInt : ¬ cInt (w.max_files * 2) < 0 → cInt (w.max_files * 2) = (w.max_files * 2 : Nat)
          ∧ w.max_files * 2 < 2 ^ 31 := by
        intro hneg
        have hlt : w.max_files * 2 < 2 ^ 31 := by
          by_contra hge
          apply hneg
          unfold cInt
          rw [Int.bmod_def]
          split <;> omega
        exact ⟨(cInt_eq_iff _).mpr hlt, hlt⟩
      by_cases hneg : cInt (w.max_files * 2) < 0
      · rw [if_pos hneg] at h
        cases h
      · obtain ⟨heq, hlt⟩ := hcInt hneg
        rw [if_neg hneg, heq, Int.toNat_natCast] at h
        cases h
        omega
  · rw [if_neg hfull] at h
    cases h
    omega

/-- All that a successful call of `mxa_add_file` does. -/
theorem mxaAddFile_ok (h : mxaAddFile codec w f = .ok w') :
    ∃ max_files enc pad,
      growFiles w = .ok max_files ∧ f.name.1.length ≤ 0xFFFF ∧
      mxaCipher w.key w.flags w.buf.length (mxaPack codec w.level f.data).2 = some enc ∧
      w.buf.length + (mxaPack codec w.level f.data).2.length + pad ≤ 2 ^ 62 ∧
      w' = { w with
        buf := w.buf ++ (enc ++ replicate pad 0)
        total_uncompressed := (w.total_uncompressed + f.data.length) % 2 ^ 64
        total_compressed :=
          (w.total_compressed + (mxaPack codec w.level f.data).2.length) % 2 ^ 64
        files := w.files ++ [mxaPending w f (mxaPack codec w.level f.data).1
          (mxaPack codec w.level f.data).2]
        max_files := max_files } := by
  unfold mxaAddFile at h
  obtain ⟨max_files, hgrow, h⟩ := bind_ok h
  by_cases hname : f.name.1.length > 0xFFFF
  · rw [if_pos hname] at h
    cases h
  rw [if_neg hname] at h
  obtain ⟨_, -, h⟩ := bind_ok h
  rcases hcipher : mxaCipher w.key w.flags w.buf.length
      (mxaPack codec w.level f.data).2 with _ | enc
  · rw [hcipher] at h
    cases h
  rw [hcipher] at h
  obtain ⟨_, hfit, h⟩ := bind_ok h
  exact ⟨max_files, enc, _, hgrow, not_lt.mp hname, rfl, bufGrow_ok hfit,
    (Except.ok.inj h).symm⟩

/-! ### The cipher -/

/-- The cipher keeps the length. -/
theorem mxaCipher_length {offset : Nat} {blob : Bytes}
    (h : mxaCipher key flags offset blob = some enc) : enc.length = blob.length := by
  unfold mxaCipher at h
  split at h
  · rw [Option.some.inj h]
  · split at h
    · exact mzChacha20_length h
    · rw [Option.some.inj h]

/-- The cipher undoes itself. -/
theorem mxaCipher_involutive {offset : Nat} {blob : Bytes}
    (h : mxaCipher key flags offset blob = some enc) :
    mxaCipher key flags offset enc = some blob := by
  rcases key with _ | k
  · cases h
    rfl
  · unfold mxaCipher at h ⊢
    dsimp only at h ⊢
    by_cases hflag : mxaEncrypted flags = true
    · rw [if_pos hflag] at h ⊢
      exact mzChacha20_involutive h
    · rw [if_neg hflag] at h ⊢
      rw [Option.some.inj h]

/-! ### A run of the writer -/

/-- The entry records the file, and the file's bytes, packed and enciphered, stand at the entry's
    offset. -/
structure MxaStored (codec : MxaCodec) (params : MxaParams) (p : Bytes) (f : MxaInFile)
    (e : MxaFileEntry) : Prop where
  name : e.name = f.name.1
  name_len : e.name_len = f.name.1.length
  name_fits : f.name.1.length ≤ 0xFFFF
  mode : e.mode = f.mode.toNat
  uid : e.uid = f.uid.toNat
  gid : e.gid = f.gid.toNat
  mtime : e.mtime = f.mtime.toNat
  size : e.size = f.data.length
  codec_id : e.codec = (mxaPack codec params.level f.data).1
  csize : e.csize = (mxaPack codec params.level f.data).2.length
  offset : MXA_HDR_LEN ≤ e.offset
  blob : ∃ enc, mxaCipher params.key params.flags e.offset
    (mxaPack codec params.level f.data).2 = some enc ∧ At p e.offset enc

theorem MxaStored.append (h : MxaStored codec params p f e) (q : Bytes) :
    MxaStored codec params (p ++ q) f e := by
  obtain ⟨enc, hcipher, hat⟩ := h.blob
  exact { h with blob := ⟨enc, hcipher, hat.append q⟩ }

/-- The invariant of the writer: the files added so far are stored in the buffer. -/
structure MxaWritten (codec : MxaCodec) (params : MxaParams) (fs : List MxaInFile)
    (w : MxaWriteCtx) : Prop where
  flags : w.flags = params.flags
  level : w.level = params.level
  key : w.key = params.key
  sk : w.sk = params.sk
  header : MXA_HDR_LEN ≤ w.buf.length
  empty : w.files = [] → w.buf.length = MXA_HDR_LEN
  places : w.files.length ≤ w.max_files
  count : w.max_files < 2 ^ 31
  files : List.Forall₂ (MxaStored codec params w.buf) fs w.files

/-- The invariant holds after `mxa_create`. -/
theorem MxaWritten.create (codec : MxaCodec)
    (h : mxaCreate params = .ok w) : MxaWritten codec params [] w := by
  unfold mxaCreate at h
  split at h
  · cases h
  split at h
  · cases h
  split at h
  · cases h
  cases h
  exact
    { flags := rfl
      level := rfl
      key := rfl
      sk := rfl
      header := length_replicate.ge
      empty := fun _ => length_replicate
      places := le_rfl
      count := Nat.two_pow_pos 31
      files := .nil }

/-- A call of `mxa_add_file` keeps the invariant. -/
theorem MxaWritten.addFile (h : MxaWritten codec params fs w)
    (hadd : mxaAddFile codec w f = .ok w') : MxaWritten codec params (fs ++ [f]) w' := by
  obtain ⟨max_files, enc, pad, hgrow, hname, hcipher, -, rfl⟩ := mxaAddFile_ok hadd
  obtain ⟨hplace, hmax⟩ := growFiles_ok h.places h.count hgrow
  have hnew : MxaStored codec params (w.buf ++ (enc ++ replicate pad 0)) f
      (mxaPending w f (mxaPack codec w.level f.data).1
        (mxaPack codec w.level f.data).2) := by
    rw [h.level, h.key, h.flags] at hcipher
    rw [h.level]
    exact
      { name := rfl
        name_len := rfl
        name_fits := hname
        mode := rfl
        uid := rfl
        gid := rfl
        mtime := rfl
        size := rfl
        codec_id := rfl
        csize := rfl
        offset := h.header
        blob := ⟨enc, hcipher, At.mid _ _ _⟩ }
  refine
    { flags := h.flags
      level := h.level
      key := h.key
      sk := h.sk
      header := ?_
      empty := fun hnil => ?_
      places := ?_
      count := hmax
      files := ?_ }
  · rw [length_append]
    exact Nat.le_add_right_of_le h.header
  · simp at hnil
  · rw [length_append]
    exact hplace
  · apply rel_append
    · exact h.files.imp fun _ _ hstored => hstored.append _
    · exact .cons hnew .nil

/-- A run of `mxa_add_file` keeps the invariant. -/
theorem MxaWritten.addAll {fs' : List MxaInFile} (h : MxaWritten codec params fs w)
    (hadd : fs'.foldlM (mxaAddFile codec) w = .ok w') :
    MxaWritten codec params (fs ++ fs') w' := by
  induction fs' generalizing fs w with
  | nil =>
    cases hadd
    rwa [append_nil]
  | cons f fs' ih =>
    rw [foldlM_cons] at hadd
    obtain ⟨w₁, hfirst, hrest⟩ := bind_ok hadd
    have hall := ih (h.addFile hfirst) hrest
    rwa [append_assoc] at hall

/-! ### The central directory -/

/-- Every field of the entry fits its place in the directory. -/
structure MxaFileEntry.Fits (e : MxaFileEntry) : Prop where
  name : e.name.length = e.name_len
  name_len : e.name_len < 2 ^ 16
  mode : e.mode < 2 ^ 16
  uid : e.uid < 2 ^ 32
  gid : e.gid < 2 ^ 32
  mtime : e.mtime < 2 ^ 64
  offset : e.offset < 2 ^ 64
  size : e.size < 2 ^ 64
  csize : e.csize < 2 ^ 64
  codec : e.codec < 2 ^ 8

theorem length_mxaEntryBytes (e : MxaFileEntry) :
    (mxaEntryBytes e).length = MXA_CD_ENTRY_BASE + e.name.length := by
  unfold mxaEntryBytes
  simp only [length_append, length_leBytes, length_cons, length_nil,
    MXA_CD_ENTRY_BASE]
  omega

/-- The codec of a packed file is one of the two. -/
theorem mxaPack_codec (codec : MxaCodec) (level : Int) (data : Bytes) :
    (mxaPack codec level data).1 = MXA_CODEC_STORED
      ∨ (mxaPack codec level data).1 = MXA_CODEC_MEUOS := by
  unfold mxaPack
  split
  · exact .inl rfl
  · split
    · exact .inl rfl
    · exact .inr rfl

/-- The entry of a file stored in a buffer that memory can hold fits the directory. -/
theorem MxaStored.fits {codec : MxaCodec} {params : MxaParams} {p : Bytes} {f : MxaInFile}
    {e : MxaFileEntry} (h : MxaStored codec params p f e) (hp : p.length ≤ 2 ^ 62) : e.Fits := by
  obtain ⟨enc, hcipher, hat⟩ := h.blob
  have hend := hat.le_length
  rw [mxaCipher_length hcipher, ← h.csize] at hend
  exact
    { name := by rw [h.name, h.name_len]
      name_len := by
        have := h.name_fits
        rw [h.name_len]
        omega
      mode := h.mode ▸ f.mode.toNat_lt
      uid := h.uid ▸ f.uid.toNat_lt
      gid := h.gid ▸ f.gid.toNat_lt
      mtime := h.mtime ▸ f.mtime.toNat_lt
      offset := by omega
      size := h.size ▸ f.size_fits
      csize := by omega
      codec := by
        rw [h.codec_id]
        rcases mxaPack_codec codec params.level f.data with hc | hc <;> rw [hc] <;> decide }

/-- The entry loop reads back the entries that were written. -/
theorem mxaParse_flatMap {es : List MxaFileEntry} {pos : Nat}
    (h : At p pos (es.flatMap mxaEntryBytes)) (hfits : ∀ e ∈ es, e.Fits) :
    mxaParse p es.length pos = .ok es := by
  induction es generalizing pos with
  | nil => rfl
  | cons e es ih =>
    have hcons : At p pos (mxaEntryBytes e ++ es.flatMap mxaEntryBytes) := h
    have hlen := hcons.left.le_length
    rw [length_mxaEntryBytes] at hlen
    have hfit := hfits e mem_cons_self
    have hrest := ih (hcons.right_of_length (length_mxaEntryBytes e))
      fun e' he' => hfits e' (mem_cons_of_mem _ he')
    -- The fields of the entry, each at its place.
    have h0 := hcons.left
    unfold mxaEntryBytes at h0
    have hname_len : r16 p pos = e.name_len :=
      field_eq h0.left (lt_of_lt_of_eq hfit.name_len (by decide))
    have h1 := h0.right_of_length (length_leBytes 2 _)
    have hmode : r16 p (pos + 2) = e.mode :=
      field_eq h1.left (lt_of_lt_of_eq hfit.mode (by decide))
    have h2 := h1.right_of_length (length_leBytes 2 _)
    have huid : r32 p (pos + 4) = e.uid :=
      field_eq h2.left (lt_of_lt_of_eq hfit.uid (by decide))
    have h3 := h2.right_of_length (length_leBytes 4 _)
    have hgid : r32 p (pos + 8) = e.gid :=
      field_eq h3.left (lt_of_lt_of_eq hfit.gid (by decide))
    have h4 := h3.right_of_length (length_leBytes 4 _)
    have hmtime : r64 p (pos + 12) = e.mtime :=
      field_eq h4.left (lt_of_lt_of_eq hfit.mtime (by decide))
    have h5 := h4.right_of_length (length_leBytes 8 _)
    have hoffset : r64 p (pos + 20) = e.offset :=
      field_eq h5.left (lt_of_lt_of_eq hfit.offset (by decide))
    have h6 := h5.right_of_length (length_leBytes 8 _)
    have hsize : r64 p (pos + 28) = e.size :=
      field_eq h6.left (lt_of_lt_of_eq hfit.size (by decide))
    have h7 := h6.right_of_length (length_leBytes 8 _)
    have hcsize : r64 p (pos + 36) = e.csize :=
      field_eq h7.left (lt_of_lt_of_eq hfit.csize (by decide))
    have h8 := h7.right_of_length (length_leBytes 8 _)
    have hcodec : (p.getD (pos + 44) 0).toNat = e.codec := by
      have hbyte : p.getD (pos + 44) 0 = UInt8.ofNat e.codec := At.getD_eq h8
      rw [hbyte]
      exact (UInt8.toNat_ofNat').trans (Nat.mod_eq_of_lt hfit.codec)
    have hname : slice p (pos + MXA_CD_ENTRY_BASE) e.name_len = e.name :=
      (h8.right_of_length (n := 4) rfl).slice_eq hfit.name
    rw [hfit.name] at hlen hrest
    rw [length_cons, mxaParse]
    rw [hname_len, if_neg (by omega), if_neg (by omega), hrest]
    rw [hname, hmode, huid, hgid, hmtime, hoffset, hsize, hcsize, hcodec]

/-! ### The finished archive -/

theorem length_mxaHeader (h : MXA_HDR_LEN ≤ w.buf.length) :
    (mxaHeader w).length = MXA_HDR_LEN := by
  have hres : (slice w.buf 9 7).length = 7 := length_slice w.buf h
  unfold mxaHeader
  simp only [length_append, length_leBytes, hres, length_cons, length_nil,
    MXA_HDR_LEN]

theorem length_mxaFooter (w : MxaWriteCtx) : (mxaFooter w).length = MXA_CD_FOOTER_LEN := by
  unfold mxaFooter
  simp only [length_append, length_leBytes, MXA_CD_FOOTER_LEN]

theorem length_mxaSignature (sign : MxaSign) (sk : Option Key32) (archive : Bytes) :
    (mxaSignature sign sk archive).length = if sk.isSome then MXA_SIG_LEN else 0 := by
  unfold mxaSignature
  rcases sk with _ | sk
  · rfl
  · dsimp only
    rw [Option.isSome_some, if_pos rfl]
    rcases sign sk archive with _ | sig
    · exact length_replicate
    · exact sig.2

/-- In front of the footer: the buffer and a directory header and entries. -/
theorem length_mxaBody (h : MXA_HDR_LEN ≤ w.buf.length) :
    (mxaBody w).length
      = w.buf.length + (MXA_CD_HDR_LEN + (w.files.flatMap mxaEntryBytes).length) := by
  unfold mxaBody mxaDirectory
  rw [length_append, length_mxaHeader h, length_append, length_drop,
    length_append, length_append, length_leBytes, length_leBytes]
  simp only [MXA_CD_HDR_LEN]
  omega

/-- `cd_total` counts the bytes behind the data. -/
theorem mxaCdTotal_eq (h : ∀ e ∈ w.files, e.name.length = e.name_len) :
    mxaCdTotal w = MXA_CD_HDR_LEN + (w.files.flatMap mxaEntryBytes).length + MXA_CD_FOOTER_LEN +
      (if w.sk.isSome then MXA_SIG_LEN else 0) := by
  unfold mxaCdTotal
  rw [length_flatMap]
  congr 4
  exact map_congr_left fun e he => by rw [length_mxaEntryBytes, h e he]

/-- The parts of a finished archive, and its length. -/
theorem mxaFinish_ok (h : mxaFinish sign w = .ok archive) :
    w.buf.length + mxaCdTotal w ≤ 2 ^ 62 ∧
      archive = mxaBody w ++
        (mxaFooter w ++ mxaSignature sign w.sk (mxaBody w ++ mxaFooter w)) := by
  unfold mxaFinish at h
  obtain ⟨_, hfit, h⟩ := bind_ok h
  refine ⟨bufGrow_ok hfit, ?_⟩
  rw [← append_assoc]
  exact (Except.ok.inj h).symm

/-- "MxCF" stands 64 bytes in front of the footer. -/
def FooterMark (w : MxaWriteCtx) : Prop :=
  64 < (mxaBody w).length ∧ r32 (mxaBody w) ((mxaBody w).length - 64) = MXA_CF_MAGIC

instance (w : MxaWriteCtx) : Decidable (FooterMark w) := inferInstanceAs (Decidable (_ ∧ _))

theorem magic_eq {off n : Nat} (h : At p off (leBytes 4 n)) (hn : n < 2 ^ 32) :
    r32 p off = n := field_eq h (lt_of_lt_of_eq hn (by decide))

/-- The footer is at the first place. -/
theorem findFooter_first {first : Nat}
    (hfirst : scanStart p (MXA_CD_FOOTER_LEN + MXA_SIG_LEN) = first)
    (hle : first + MXA_CD_FOOTER_LEN ≤ p.length) (hmagic : r32 p first = MXA_CF_MAGIC) :
    findFooter p = some first := by
  unfold findFooter
  rw [hfirst]
  rw [if_neg (not_lt.mpr hle), if_pos hmagic]

/-- The footer is at the second place. -/
theorem findFooter_second {first second : Nat}
    (hfirst : scanStart p (MXA_CD_FOOTER_LEN + MXA_SIG_LEN) = first)
    (hfirstLe : first + MXA_CD_FOOTER_LEN ≤ p.length) (hother : r32 p first ≠ MXA_CF_MAGIC)
    (hsecond : scanStart p MXA_CD_FOOTER_LEN = second)
    (hle : second + MXA_CD_FOOTER_LEN ≤ p.length) (hmagic : r32 p second = MXA_CF_MAGIC) :
    findFooter p = some second := by
  unfold findFooter
  rw [hfirst, hsecond]
  rw [if_neg (not_lt.mpr hfirstLe), if_neg hother, if_neg]
  rintro (hbad | hbad)
  · exact hbad.not_ge hle
  · exact hbad hmagic

theorem scanStart_of_lt {dist : Nat} (h : dist < p.length) :
    scanStart p dist = p.length - dist := if_pos h

theorem scanStart_of_le {dist : Nat} (h : p.length ≤ dist) :
    scanStart p dist = MXA_HDR_LEN := if_neg (not_lt.mpr h)

/-- The footer is found where it is: with a signature at the first place; without one at the
    second, unless the first bears the mark. -/
theorem findFooter_eq {sig : Bytes} (hheader : MXA_HDR_LEN ≤ w.buf.length)
    (hempty : w.files = [] → w.buf.length = MXA_HDR_LEN)
    (hsig : sig.length = if w.sk.isSome then MXA_SIG_LEN else 0)
    (hmark : w.sk.isSome ∨ ¬ FooterMark w) :
    findFooter (mxaBody w ++ (mxaFooter w ++ sig)) = some (mxaBody w).length := by
  set p := mxaBody w ++ (mxaFooter w ++ sig) with hp
  have hlen : p.length = (mxaBody w).length + (MXA_CD_FOOTER_LEN + sig.length) := by
    rw [hp, length_append, length_append, length_mxaFooter]
  have hmagic : r32 p (mxaBody w).length = MXA_CF_MAGIC := by
    have hfooter : At p (mxaBody w).length (mxaFooter w) := At.mid _ _ _
    unfold mxaFooter at hfooter
    exact magic_eq hfooter.left (by decide)
  have hbody := length_mxaBody hheader
  by_cases hsk : w.sk.isSome
  · -- The first place is that of the footer.
    rw [if_pos hsk] at hsig
    apply findFooter_first _ _ hmagic
    · have h16 : MXA_HDR_LEN = 16 := rfl
      rw [scanStart_of_lt] <;> omega
    · omega
  rw [if_neg hsk] at hsig
  have h16 : MXA_HDR_LEN = 16 := rfl
  have hsecond : scanStart p MXA_CD_FOOTER_LEN = (mxaBody w).length := by
    rw [scanStart_of_lt] <;> omega
  by_cases hfar : 64 < (mxaBody w).length
  · -- The first place lies in the body, and it bears no mark.
    have hfirst : scanStart p (MXA_CD_FOOTER_LEN + MXA_SIG_LEN) = (mxaBody w).length - 64 := by
      have h64 : MXA_SIG_LEN = 64 := rfl
      rw [scanStart_of_lt] <;> omega
    apply findFooter_second hfirst _ _ hsecond (by omega) hmagic
    · omega
    · intro hbad
      refine hmark.resolve_left hsk ⟨hfar, ?_⟩
      unfold r32 at hbad ⊢
      rwa [hp, slice_append_left _ _ (by omega)] at hbad
  · -- A short archive has no files; behind its header stands the directory.
    have hnil : w.files = [] := by
      rcases hfiles : w.files with _ | ⟨e, es⟩
      · rfl
      · rw [hfiles, flatMap_cons, length_append, length_mxaEntryBytes] at hbody
        simp only [MXA_CD_ENTRY_BASE, MXA_CD_HDR_LEN, MXA_HDR_LEN] at hbody hheader
        omega
    have hfirst : scanStart p (MXA_CD_FOOTER_LEN + MXA_SIG_LEN) = MXA_HDR_LEN := by
      have h64 : MXA_SIG_LEN = 64 := rfl
      apply scanStart_of_le
      omega
    have hdir : At p MXA_HDR_LEN (mxaDirectory w.files) := by
      have hall : At p 0 (mxaBody w) := (At.self (mxaBody w)).append _
      unfold mxaBody at hall
      rw [drop_eq_nil_of_le (hempty hnil).le, nil_append] at hall
      have h := hall.right_of_length (length_mxaHeader hheader)
      rwa [Nat.zero_add] at h
    have hother : r32 p MXA_HDR_LEN = MXA_CD_MAGIC := by
      unfold mxaDirectory at hdir
      exact magic_eq hdir.left (by decide)
    apply findFooter_second hfirst _ _ hsecond (by omega) hmagic
    · have := hempty hnil
      omega
    · rw [hother]
      decide

/-! ### Opening -/

/-- An archive in which every number that `mxa_open` compares is what it expects is opened. -/
theorem mxaOpen_ok {scan cd n : Nat} {es : List MxaFileEntry}
    (hlen : MXA_HDR_LEN ≤ p.length) (hmagic : r32 p 0 = MXA_MAGIC)
    (hcur : p.getD 7 0 = MXA_VERSION_CUR) (hmin : p.getD 6 0 = MXA_VERSION_MIN)
    (hscan : findFooter p = some scan) (hcd : r64 p (scan + 8) = cd)
    (hn : r32 p (scan + 4) = n)
    (hcrc : r32 p (scan + 36) = (crc32Bytes (slice p 0 MXA_HDR_LEN)).toNat)
    (hfits : cd + MXA_CD_HDR_LEN ≤ p.length) (hp : p.length < 2 ^ 64)
    (hdir : r32 p cd = MXA_CD_MAGIC) (hcount : r32 p (cd + 4) = n)
    (hsum : entriesChecked p scan cd n = true) (hflags : r16 p 4 = flags)
    (hparse : mxaParse p n (cd + MXA_CD_HDR_LEN) = .ok es) :
    mxaOpen p = .ok { data := p, flags := flags, files := es, cd_start := cd, key := none } := by
  unfold mxaOpen
  rw [if_neg (not_lt.mpr hlen), if_neg (not_not.mpr hmagic), hcur, hmin, if_neg (by decide), hscan]
  dsimp only
  rw [hcd, hn, if_neg (not_not.mpr hcrc), if_neg, if_neg (not_not.mpr hcount), hsum,
    if_neg (by decide), hparse, hflags]
  rintro (hbad | hbad)
  · rw [Nat.mod_eq_of_lt (lt_of_le_of_lt hfits hp)] at hbad
    exact hbad.not_ge hfits
  · exact hbad hdir

/-- The fields of the header of an archive. -/
theorem header_fields (rest : Bytes) (hheader : MXA_HDR_LEN ≤ w.buf.length)
    (hflags : w.flags < 2 ^ 16) :
    r32 (mxaBody w ++ rest) 0 = MXA_MAGIC ∧ r16 (mxaBody w ++ rest) 4 = w.flags ∧
      (mxaBody w ++ rest).getD 6 0 = MXA_VERSION_MIN ∧
      (mxaBody w ++ rest).getD 7 0 = MXA_VERSION_CUR ∧
      slice (mxaBody w ++ rest) 0 MXA_HDR_LEN = mxaHeader w := by
  have hat : At (mxaBody w ++ rest) 0 (mxaHeader w) := by
    have hall : At (mxaBody w ++ rest) 0 (mxaBody w) := (At.self (mxaBody w)).append _
    unfold mxaBody at hall
    exact hall.left
  refine ⟨?_, ?_, ?_, ?_, hat.slice_eq (length_mxaHeader hheader)⟩
  all_goals unfold mxaHeader at hat
  · exact magic_eq hat.left (by decide)
  · have h := (hat.right_of_length (length_leBytes 4 _)).left
    exact field_eq h (lt_of_lt_of_eq hflags (by decide))
  · have h := (hat.right_of_length (length_leBytes 4 _)).right_of_length (length_leBytes 2 _)
    exact At.getD_eq h
  · have h := (hat.right_of_length (length_leBytes 4 _)).right_of_length (length_leBytes 2 _)
    exact At.getD_eq (At.right (a := [MXA_VERSION_MIN]) h)

/-- The fields of a footer that are read. -/
theorem footer_fields {scan : Nat} (h : At p scan (mxaFooter w))
    (hcount : w.files.length < 2 ^ 32) (hstart : w.buf.length < 2 ^ 64) :
    r32 p (scan + 4) = w.files.length ∧ r64 p (scan + 8) = w.buf.length ∧
      r32 p (scan + 32) = (crc32Bytes (w.files.flatMap mxaEntryBytes)).toNat ∧
      r32 p (scan + 36) = (crc32Bytes (mxaHeader w)).toNat := by
  unfold mxaFooter at h
  have h1 := h.right_of_length (length_leBytes 4 _)
  have h2 := h1.right_of_length (length_leBytes 4 _)
  have h3 := h2.right_of_length (length_leBytes 8 _)
  have h4 := h3.right_of_length (length_leBytes 8 _)
  have h5 := h4.right_of_length (length_leBytes 8 _)
  have h6 := h5.right_of_length (length_leBytes 4 _)
  refine ⟨?_, ?_, ?_, ?_⟩
  · exact field_eq h1.left (lt_of_lt_of_eq hcount (by decide))
  · exact field_eq h2.left (lt_of_lt_of_eq hstart (by decide))
  · exact field_eq h5.left (lt_of_lt_of_eq (UInt32.toNat_lt _) (by decide))
  · exact field_eq h6 (lt_of_lt_of_eq (UInt32.toNat_lt _) (by decide))

theorem directory_at {rest : Bytes} (hheader : MXA_HDR_LEN ≤ w.buf.length) :
    At (mxaBody w ++ rest) w.buf.length (mxaDirectory w.files) := by
  have hall : At (mxaBody w ++ rest) 0 (mxaBody w) := (At.self (mxaBody w)).append _
  unfold mxaBody at hall
  have hdrop := (hall.right_of_length (length_mxaHeader hheader)).right
  rwa [length_drop, Nat.zero_add, Nat.add_sub_cancel' hheader] at hdrop

/-- What the buffer holds behind its header stands at the same place of the archive. -/
theorem buf_at {rest bs : Bytes} {off : Nat}
    (hheader : MXA_HDR_LEN ≤ w.buf.length) (hoff : MXA_HDR_LEN ≤ off) (h : At w.buf off bs) :
    At (mxaBody w ++ rest) off bs := by
  have hall : At (mxaBody w ++ rest) 0 (mxaBody w) := (At.self (mxaBody w)).append _
  unfold mxaBody at hall
  have hdrop := (hall.right_of_length (length_mxaHeader hheader)).left
  rw [Nat.zero_add] at hdrop
  have hcut : At (w.buf.drop MXA_HDR_LEN) (off - MXA_HDR_LEN) bs := by
    apply At.drop
    rwa [Nat.add_sub_cancel' hoff]
  have h := hdrop.trans hcut
  rwa [Nat.add_sub_cancel' hoff] at h

/-- A finished archive is opened, and the entries found are those recorded. -/
theorem mxaOpen_finished (h : MxaWritten codec params fs w)
    (hflags : params.flags < 4) (hfin : mxaFinish sign w = .ok archive)
    (hmark : params.sk.isSome ∨ ¬ FooterMark w) :
    archive.length ≤ 2 ^ 62 ∧
    List.Forall₂ (MxaStored codec params archive) fs w.files ∧
    mxaOpen archive = .ok
      { data := archive
        flags := params.flags
        files := w.files
        cd_start := w.buf.length
        key := none } := by
  obtain ⟨hlimit, harchive⟩ := mxaFinish_ok hfin
  have hbufLimit : w.buf.length ≤ 2 ^ 62 := by omega
  have hfits : ∀ e ∈ w.files, e.Fits := by
    intro e he
    obtain ⟨i, hi, rfl⟩ := getElem_of_mem he
    have hi' : i < fs.length := h.files.length_eq ▸ hi
    have hstored : MxaStored codec params w.buf fs[i] w.files[i] := by
      simpa using h.files.get hi' hi
    exact hstored.fits hbufLimit
  rw [mxaCdTotal_eq fun e he => (hfits e he).name] at hlimit
  have hbody := length_mxaBody h.header
  set sig := mxaSignature sign w.sk (mxaBody w ++ mxaFooter w) with hsig
  have hsigLen : sig.length = if w.sk.isSome then MXA_SIG_LEN else 0 := length_mxaSignature _ _ _
  have hlen : archive.length = (mxaBody w).length + (MXA_CD_FOOTER_LEN + sig.length) := by
    rw [harchive, length_append, length_append, length_mxaFooter]
  have hlen62 : archive.length ≤ 2 ^ 62 := by omega
  refine ⟨hlen62, ?_, ?_⟩
  · refine h.files.imp fun f e hstored => ?_
    obtain ⟨enc, hcipher, hat⟩ := hstored.blob
    refine { hstored with blob := ⟨enc, hcipher, ?_⟩ }
    rw [harchive]
    exact buf_at h.header hstored.offset hat
  -- Every number that the reader compares, at its place.
  have hcount : w.files.length < 2 ^ 32 := by
    have := h.places
    have := h.count
    omega
  have hfound : findFooter archive = some (mxaBody w).length := by
    rw [harchive]
    refine findFooter_eq h.header h.empty hsigLen ?_
    rwa [h.sk]
  have hfooter : At archive (mxaBody w).length (mxaFooter w) := harchive ▸ At.mid _ _ _
  obtain ⟨hn, hcd, hsum, hcrc⟩ := footer_fields hfooter hcount (by omega)
  obtain ⟨hmagic, hflagsEq, hmin, hcur, hhdr⟩ :=
    header_fields (mxaFooter w ++ sig) h.header (by rw [h.flags]; omega)
  rw [← harchive] at hmagic hflagsEq hmin hcur hhdr
  have hdir : At archive w.buf.length (mxaDirectory w.files) := harchive ▸ directory_at h.header
  unfold mxaDirectory at hdir
  have hdirCount : r32 archive (w.buf.length + 4) = w.files.length :=
    magic_eq (hdir.right_of_length (length_leBytes 4 _)).left hcount
  have hentries : At archive (w.buf.length + MXA_CD_HDR_LEN)
      (w.files.flatMap mxaEntryBytes) := by
    have hat := (hdir.right_of_length (length_leBytes 4 _)).right_of_length (length_leBytes 4 _)
    rwa [Nat.add_assoc] at hat
  have hchecked :
      entriesChecked archive (mxaBody w).length w.buf.length w.files.length = true := by
    have hslice : slice archive (w.buf.length + MXA_CD_HDR_LEN)
        ((mxaBody w).length - (w.buf.length + MXA_CD_HDR_LEN)) = w.files.flatMap mxaEntryBytes := by
      apply hentries.slice_eq
      omega
    unfold entriesChecked
    rw [hslice, hsum]
    simp only [beq_self_eq_true, Bool.and_true, Bool.or_eq_true, decide_eq_true_eq]
    right
    omega
  rw [← h.flags]
  apply mxaOpen_ok _ hmagic hcur hmin hfound hcd hn _ _ _ (magic_eq hdir.left (by decide))
    hdirCount hchecked hflagsEq (mxaParse_flatMap hentries hfits)
  · have := h.header
    omega
  · rw [hcrc, hhdr]
  · omega
  · omega

/-! ### Reading -/

theorem cstr_eq (name : CStr) : cstr name.1 = name.1 := by
  unfold cstr
  rw [takeWhile_eq_self_iff]
  intro b hb
  have hne : b ≠ 0 := fun h => name.2 (h ▸ hb)
  simpa using hne

/-- Without a key or the flag the cipher changes nothing. -/
theorem mxaCipher_plain
    (h : ¬ (key.isSome && mxaEncrypted flags) = true) (offset : Nat) (blob : Bytes) :
    mxaCipher key flags offset blob = some blob := by
  unfold mxaCipher
  rcases key with _ | k
  · rfl
  · dsimp only
    rw [if_neg]
    simpa using h

/-- The data of an entry that stores a file as it is. -/
theorem readStored_eq (hsize : e.size = data.length) (hcsize : e.csize = data.length)
    (hcipher : mxaCipher r.key r.flags e.offset data = some enc) (hat : At r.data e.offset enc)
    (hlen : r.data.length < 2 ^ 64) : readStored r e = .ok data := by
  have hencLen := mxaCipher_length hcipher
  have hend := hat.le_length
  unfold readStored
  rw [if_neg (by omega), if_neg (by rw [Nat.mod_eq_of_lt] <;> omega)]
  by_cases hkey : (r.key.isSome && mxaEncrypted r.flags) = true
  · rw [if_pos hkey, hat.slice_eq (hencLen.trans hcsize.symm), mxaCipher_involutive hcipher]
    dsimp only
    rw [hsize, hcsize, Nat.sub_self, replicate_zero, append_nil]
  · rw [mxaCipher_plain hkey] at hcipher
    cases hcipher
    rw [if_neg hkey, hat.slice_eq hsize.symm]

/-- The data of an entry that stores a compressed file. -/
theorem readPacked_eq {comp : Bytes} (hsize : e.size = data.length) (hcsize : e.csize = comp.length)
    (hcipher : mxaCipher r.key r.flags e.offset comp = some enc) (hat : At r.data e.offset enc)
    (hdec : codec.decompress comp = some data) : readPacked codec r e = .ok data := by
  have hencLen := mxaCipher_length hcipher
  unfold readPacked
  rw [hat.slice_eq (hencLen.trans hcsize.symm), mxaCipher_involutive hcipher]
  dsimp only
  rw [hdec]
  dsimp only
  rw [if_neg (not_not.mpr hsize.symm)]

/-- A stored file is read back. -/
theorem mxaReadFile_stored (h : MxaStored codec params r.data f e)
    (hkey : r.key = params.key) (hflags : r.flags = params.flags)
    (hlen : r.data.length < 2 ^ 64) (hcodec : codec.RoundTrips params.level f.data)
    (hfind : lookupKey (fun e => cstr e.name) r.files f.name.1 = some e) :
    mxaReadFile codec r f.name = .ok f.data := by
  obtain ⟨enc, hcipher, hat⟩ := h.blob
  have hend := hat.le_length
  rw [mxaCipher_length hcipher, ← h.csize] at hend
  rw [← hkey, ← hflags] at hcipher
  have hid := h.codec_id
  have hcsize := h.csize
  unfold mxaReadFile
  rw [hfind]
  dsimp only
  rw [if_neg (by rw [Nat.mod_eq_of_lt] <;> omega)]
  -- How the file was packed decides which branch reads it.
  unfold mxaPack at hid hcsize hcipher
  by_cases hnil : f.data = []
  · rw [if_pos hnil] at hid hcsize hcipher
    rw [if_pos hid]
    apply readStored_eq h.size _ _ hat hlen
    · rw [hcsize, hnil]
    · rw [hnil]
      exact hcipher
  rw [if_neg hnil] at hid hcsize hcipher
  rcases hcomp : codec.compress f.data params.level with _ | comp
  · rw [hcomp] at hid hcsize hcipher
    rw [if_pos hid]
    exact readStored_eq h.size hcsize hcipher hat hlen
  · rw [hcomp] at hid hcsize hcipher
    dsimp only at hid
    rw [hid, if_neg (by decide), if_pos rfl]
    exact readPacked_eq h.size hcsize hcipher hat (hcodec comp hcomp)

/-! ### Round trip -/

/-- The reader with the key of the writer, where it had one. -/
def mxaUnlock (r : MxaReadCtx) (key : Option Key32) : MxaReadCtx :=
  match key with
  | none => r
  | some k => mxaSetKey r k

theorem mxaListFiles_eq (h : ∀ e ∈ r.files, cstr e.name = e.name) :
    mxaListFiles r = r.files := by
  unfold mxaListFiles
  rw [map_congr_left (g := id) fun e he => by rw [h e he]; rfl, map_id]

/-- Only the two flags are accepted. -/
theorem mxaCreate_flags (h : mxaCreate params = .ok w) :
    params.flags < 4 := by
  unfold mxaCreate at h
  by_contra hge
  rw [if_pos] at h
  · cases h
  · rw [Nat.shiftRight_eq_div_pow]
    omega

/-- Files with distinct names, added and finished without an error, in an archive that is signed
    or bears no mark: the archive is opened, lists the files in order, and gives back their
    data. -/
theorem mxa_roundtrip {codec : MxaCodec} {sign : MxaSign} {params : MxaParams}
    {w₀ w : MxaWriteCtx} {fs : List MxaInFile} {archive : Bytes}
    (hcreate : mxaCreate params = .ok w₀) (hadd : fs.foldlM (mxaAddFile codec) w₀ = .ok w)
    (hfinish : mxaFinish sign w = .ok archive) (hnodup : (fs.map MxaInFile.name).Nodup)
    (hcodec : ∀ f ∈ fs, codec.RoundTrips params.level f.data)
    (hmark : params.sk.isSome ∨ ¬ FooterMark w) :
    ∃ r, mxaOpen archive = .ok r ∧
      List.Forall₂ (MxaStored codec params archive) fs (mxaListFiles (mxaUnlock r params.key)) ∧
      ∀ f ∈ fs, mxaReadFile codec (mxaUnlock r params.key) f.name = .ok f.data := by
  have hflags : params.flags < 4 := mxaCreate_flags hcreate
  have hwritten : MxaWritten codec params fs w := (MxaWritten.create codec hcreate).addAll hadd
  obtain ⟨hlen, hstored, hopen⟩ := mxaOpen_finished hwritten hflags hfinish hmark
  refine ⟨_, hopen, ?_⟩
  set r : MxaReadCtx := mxaUnlock
    { data := archive
      flags := params.flags
      files := w.files
      cd_start := w.buf.length
      key := none } params.key with hr
  have hfields : r.data = archive ∧ r.flags = params.flags ∧ r.files = w.files ∧
      r.key = params.key := by
    rw [hr]
    unfold mxaUnlock
    rcases params.key with _ | k
    · exact ⟨rfl, rfl, rfl, rfl⟩
    · exact ⟨rfl, rfl, rfl, rfl⟩
  obtain ⟨hdata, hrflags, hfiles, hkey⟩ := hfields
  have hname : ∀ f e, MxaStored codec params archive f e → cstr e.name = f.name.1 := by
    intro f e hfe
    rw [hfe.name]
    exact cstr_eq f.name
  have hlist : mxaListFiles r = w.files := by
    rw [mxaListFiles_eq, hfiles]
    rw [hfiles]
    intro e he
    obtain ⟨i, hi, rfl⟩ := getElem_of_mem he
    have hi' : i < fs.length := hstored.length_eq ▸ hi
    have hfe : MxaStored codec params archive fs[i] w.files[i] := by
      simpa using hstored.get hi' hi
    rw [hname _ _ hfe, hfe.name]
  refine ⟨hlist ▸ hstored, fun f hf => ?_⟩
  have hnodup' : (fs.map fun g => g.name.1).Nodup := by
    have := hnodup.map Subtype.val_injective
    rwa [map_map] at this
  obtain ⟨e, hfind, hfe⟩ := lookupKey_forall₂ hstored hname hnodup' hf
  rw [← hdata] at hfe
  rw [← hfiles] at hfind
  apply mxaReadFile_stored hfe hkey hrflags _ (hcodec f hf) hfind
  rw [hdata]
  omega

/-! ### The mark in a long name -/

/-- A number whose most significant byte is not 0 is large. -/
theorem le_leNat {bs : Bytes} (hne : bs ≠ []) (h : (0 : UInt8) ∉ bs) :
    256 ^ (bs.length - 1) ≤ leNat bs := by
  induction bs with
  | nil => exact absurd rfl hne
  | cons b bs ih =>
    rw [mem_cons, not_or] at h
    rcases bs with _ | ⟨c, bs⟩
    · have hb : b.toNat ≠ 0 := fun hz => h.1 (UInt8.toNat_inj.mp (by rw [hz]; rfl))
      simp only [leNat, length_singleton]
      omega
    · have hrest := ih (cons_ne_nil _ _) h.2
      rw [length_cons, Nat.add_sub_cancel, length_cons]
      rw [length_cons, Nat.add_sub_cancel] at hrest
      unfold leNat
      rw [Nat.pow_succ]
      omega

/-- The last file's name is the end of what stands in front of the footer. -/
theorem mxaBody_ends (h : MxaWritten codec params (fs ++ [f]) w) :
    ∃ front, mxaBody w = front ++ f.name.1 := by
  have hlen := h.files.length_eq
  rcases eq_nil_or_concat w.files with hnil | ⟨es, e, hfiles⟩
  · rw [hnil] at hlen
    simp at hlen
  rw [concat_eq_append] at hfiles
  have hR : MxaStored codec params w.buf f e := by
    have hes : fs.length = es.length := by
      rw [hfiles] at hlen
      simpa using hlen
    have hget := h.files.get (i := fs.length) (by simp) (by rw [hfiles]; simp [hes])
    simpa [hfiles, hes] using hget
  refine ⟨mxaHeader w ++ (w.buf.drop MXA_HDR_LEN ++ (leBytes 4 MXA_CD_MAGIC ++
    (leBytes 4 w.files.length ++ (es.flatMap mxaEntryBytes ++
      (leBytes 2 e.name_len ++ (leBytes 2 e.mode ++ (leBytes 4 e.uid ++ (leBytes 4 e.gid ++
        (leBytes 8 e.mtime ++ (leBytes 8 e.offset ++ (leBytes 8 e.size ++ (leBytes 8 e.csize ++
          [UInt8.ofNat e.codec, 0, 0, 0])))))))))))), ?_⟩
  unfold mxaBody mxaDirectory
  rw [hfiles, flatMap_append, flatMap_singleton, ← hR.name]
  unfold mxaEntryBytes
  simp only [append_assoc]

/-- In an archive that is not signed and whose last name has 64 bytes or more, the mark is in
    that name; no byte of a name is 0, so that the start of the directory that the reader takes
    from it lies behind the end. -/
theorem mxaOpen_marked {w₀ : MxaWriteCtx} (hcreate : mxaCreate params = .ok w₀)
    (hadd : (fs ++ [f]).foldlM (mxaAddFile codec) w₀ = .ok w)
    (hfinish : mxaFinish sign w = .ok archive) (hlen : archive.length < 2 ^ 56)
    (hname : 64 ≤ f.name.1.length) (hsk : params.sk.isSome = false) (hmark : FooterMark w) :
    mxaOpen archive = .error .data := by
  have hwritten : MxaWritten codec params (fs ++ [f]) w :=
    (MxaWritten.create codec hcreate).addAll hadd
  have hflags : params.flags < 4 := mxaCreate_flags hcreate
  obtain ⟨-, harchive⟩ := mxaFinish_ok hfinish
  obtain ⟨front, hfront⟩ := mxaBody_ends hwritten
  set sig := mxaSignature sign w.sk (mxaBody w ++ mxaFooter w) with hsig
  have hsigLen : sig.length = 0 := by
    rw [hsig, length_mxaSignature, hwritten.sk, hsk]
    rfl
  have harchiveLen : archive.length = (mxaBody w).length + 40 := by
    rw [harchive, length_append, length_append, length_mxaFooter, hsigLen]
    rfl
  obtain ⟨hfar, hbad⟩ := hmark
  obtain ⟨hmagic, -, hmin, hcur, -⟩ :=
    header_fields (mxaFooter w ++ sig) hwritten.header (by rw [hwritten.flags]; omega)
  rw [← harchive] at hmagic hmin hcur
  -- The first place is inside the name.
  set scan := (mxaBody w).length - 64 with hscan
  have hfirst : scanStart archive (MXA_CD_FOOTER_LEN + MXA_SIG_LEN) = scan := by
    have h104 : MXA_CD_FOOTER_LEN + MXA_SIG_LEN = 104 := rfl
    rw [h104, scanStart_of_lt] <;> omega
  have hfound : findFooter archive = some scan := by
    have h40 : MXA_CD_FOOTER_LEN = 40 := rfl
    apply findFooter_first hfirst
    · omega
    · unfold r32 at hbad ⊢
      rwa [harchive, slice_append_left _ _ (by omega)]
  have hbodyLen : (mxaBody w).length = front.length + f.name.1.length := by
    rw [hfront, length_append]
  -- What is taken for the start of the directory are eight bytes of the name.
  have hslice : slice archive (scan + 8) 8 = slice f.name.1 (f.name.1.length - 56) 8 := by
    rw [harchive, slice_append_left _ _ (by omega), hfront,
      slice_append_right _ _ _ (by omega)]
    congr 1
    omega
  have hbig : 2 ^ 56 ≤ r64 archive (scan + 8) := by
    have hpiece : (slice f.name.1 (f.name.1.length - 56) 8).length = 8 :=
      length_slice _ (by omega)
    have hnonzero : (0 : UInt8) ∉ slice f.name.1 (f.name.1.length - 56) 8 := by
      intro hz
      unfold slice at hz
      exact f.name.2 (mem_of_mem_drop (mem_of_mem_take hz))
    have h := le_leNat (by intro hnil; rw [hnil] at hpiece; cases hpiece) hnonzero
    rw [hpiece] at h
    unfold r64
    rw [hslice]
    exact h
  have hbehind : r32 archive (r64 archive (scan + 8)) ≠ MXA_CD_MAGIC := by
    unfold r32 slice
    rw [drop_eq_nil_of_le (by omega)]
    decide
  unfold mxaOpen
  rw [if_neg (by simp only [MXA_HDR_LEN]; omega), if_neg (not_not.mpr hmagic), hcur, hmin,
    if_neg (by decide), hfound]
  dsimp only
  split
  · rfl
  · rw [if_pos (.inr hbehind)]

/-! ### With the codec of the library -/

/-- `mz_compress` and `mz_decompress` for `MZ_CODEC_MEUOS`. -/
def meuosCodec : MxaCodec :=
  { compress := fun data level =>
      match mzCompressMeuos data level with
      | .error _ => none
      | .ok (r, out) => if r ≤ 0 then none else some out
    decompress := fun data =>
      match mzDecompressMeuos data with
      | .error _ => none
      | .ok (r, out) => if r ≤ 0 then none else some out }

/-- At the levels without an entropy coder the codec gives back what it was given. -/
theorem meuosCodec_roundTrips {level : Int} (hlevel : level < 4)
    (hne : data ≠ []) (hlen : data.length < 2 ^ 31) : meuosCodec.RoundTrips level data := by
  intro comp hcomp
  unfold meuosCodec at hcomp ⊢
  dsimp only at hcomp ⊢
  split at hcomp
  · cases hcomp
  next r out hout =>
  split at hcomp
  · cases hcomp
  next hr =>
  cases hcomp
  have hkeeps : ∀ rc lz77, mzCompressLz77 data level = .ok (rc, lz77) → ComboKeeps lz77 level := by
    intro rc lz77 _
    unfold ComboKeeps comboEntropy
    rw [if_neg (by omega), if_neg (by omega)]
    trivial
  have hpos : 0 < data.length := length_pos_iff.mpr hne
  rw [mzMeuos_roundtrip hlen hout (by omega) hkeeps]
  dsimp only
  rw [if_neg]
  rw [(cInt_eq_iff _).mpr hlen]
  omega

/-- A run of the writer: create, add and finish, without a library to sign with. -/
def mxaWrite (params : MxaParams) (fs : List MxaInFile) :
    Except MxaStop (MxaWriteCtx × MxaWriteCtx × Bytes) :=
  match mxaCreate params with
  | .error e => .error (.err e)
  | .ok w₀ => do
      let w ← fs.foldlM (mxaAddFile meuosCodec) w₀
      let archive ← mxaFinish (fun _ _ => none) w
      .ok (w₀, w, archive)

theorem mxaWrite_ok {w₀ : MxaWriteCtx} (h : mxaWrite params fs = .ok (w₀, w, archive)) :
    mxaCreate params = .ok w₀ ∧ fs.foldlM (mxaAddFile meuosCodec) w₀ = .ok w ∧
      mxaFinish (fun _ _ => none) w = .ok archive := by
  unfold mxaWrite at h
  split at h
  · cases h
  next w₁ hcreate =>
  obtain ⟨w₂, hadd, h⟩ := bind_ok h
  obtain ⟨archive', hfinish, h⟩ := bind_ok h
  cases h
  exact ⟨hcreate, hadd, hfinish⟩

/-- An empty file whose name begins with "MxCF" and has 64 bytes. -/
def markedFile : MxaInFile :=
  { name := ⟨[0x4D, 0x78, 0x43, 0x46] ++ replicate 60 0x61, by decide⟩
    data := []
    mode := 0
    uid := 0
    gid := 0
    mtime := 0
    size_fits := by decide }

/-- No flags, no alignment, the lowest level and no keys. -/
def plainParams : MxaParams := { flags := 0, align := 0, level := 1, key := none, sk := none }

set_option maxRecDepth 20000 in
theorem markedFile_run :
    (match mxaWrite plainParams [markedFile] with
      | .ok (_, w, archive) => decide (FooterMark w) && decide (archive.length < 2 ^ 56)
      | .error _ => false) = true := by decide

/-- The archive with this one file is not opened. -/
theorem mxaOpen_footer_mark :
    ∃ w₀ w archive, mxaCreate plainParams = .ok w₀ ∧
      [markedFile].foldlM (mxaAddFile meuosCodec) w₀ = .ok w ∧
      mxaFinish (fun _ _ => none) w = .ok archive ∧ mxaOpen archive = .error .data := by
  have hrun := markedFile_run
  split at hrun
  · next w₀ w archive hok =>
    obtain ⟨hcreate, hadd, hfinish⟩ := mxaWrite_ok hok
    rw [Bool.and_eq_true, decide_eq_true_eq, decide_eq_true_eq] at hrun
    have hlast : ([] ++ [markedFile]).foldlM (mxaAddFile meuosCodec) w₀ = .ok w := hadd
    have hopen : mxaOpen archive = .error .data :=
      mxaOpen_marked hcreate hlast hfinish hrun.2 (by decide) rfl hrun.1
    exact ⟨w₀, w, archive, hcreate, hadd, hfinish, hopen⟩
  · cases hrun

/-- A signed and encrypted archive, aligned to eight bytes. -/
def sealedParams : MxaParams :=
  { flags := 3
    align := 3
    level := 1
    key := some ⟨replicate 32 7, by decide⟩
    sk := some ⟨replicate 32 9, by decide⟩ }

/-- A short file. -/
def shortFile : MxaInFile :=
  { name := ⟨[0x66], by decide⟩
    data := [0x61, 0x62, 0x63]
    mode := 420
    uid := 1
    gid := 2
    mtime := 3
    size_fits := by decide }

theorem sealed_run :
    (match mxaWrite sealedParams [shortFile, markedFile] with
      | .ok _ => true
      | .error _ => false) = true := by decide

theorem mxa_roundtrip_sealed :
    ∃ archive r, mxaOpen archive = .ok r ∧
      List.Forall₂ (MxaStored meuosCodec sealedParams archive) [shortFile, markedFile]
        (mxaListFiles (mxaUnlock r sealedParams.key)) ∧
      ∀ f ∈ [shortFile, markedFile],
        mxaReadFile meuosCodec (mxaUnlock r sealedParams.key) f.name = .ok f.data := by
  have hrun := sealed_run
  split at hrun
  · next res hok =>
    obtain ⟨w₀, w, archive⟩ := res
    obtain ⟨hcreate, hadd, hfinish⟩ := mxaWrite_ok hok
    have hnames : ([shortFile, markedFile].map MxaInFile.name).Nodup := by decide
    have hcodec : ∀ f ∈ [shortFile, markedFile],
        meuosCodec.RoundTrips sealedParams.level f.data := by
      intro f hf
      rcases mem_pair.mp hf with rfl | rfl
      · exact meuosCodec_roundTrips (by decide) (by decide) (by decide)
      · intro comp hcomp
        cases hcomp
    exact ⟨archive, mxa_roundtrip hcreate hadd hfinish hnames hcodec (.inl rfl)⟩
  · cases hrun

end MeuOS.Compress
