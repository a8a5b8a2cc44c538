import MeuOS.Utils.Tar
import Mathlib.Data.List.TakeWhile

namespace MeuOS.Utils

open MeuOS.Lib List

/-!
# The round trip of archives

* `parseOctal_octalField` — a number field is read modulo what its digits hold;
* `headerName_entryHeader`, `sizeOfHeader_entryHeader`, … — what the readers find in a header;
* `extractLoop_archiveFile`, `listLoop_archiveFile` — one round of each reader;
* `readers_iff` — both readers give the entries back exactly when all of them fit;
* `archive_roundtrip_iff` — the same of `do_extract` and `do_list`.
-/

/-! ### Numbers -/

theorem parseOctal_octalDigits (n acc v : Nat) (rest : Bytes) :
    parseOctal acc (octalDigits n v ++ rest) = parseOctal (acc * 8 ^ n + v % 8 ^ n) rest := by
  induction n generalizing v rest with
  | zero => simp [octalDigits, Nat.mod_one]
  | succ n ih =>
    have hd : v % 8 < 8 := Nat.mod_lt _ (by decide)
    have hnat : (UInt8.ofNat (48 + v % 8)).toNat = 48 + v % 8 := by
      rw [UInt8.toNat_ofNat']
      omega
    have hdigit : (48 : UInt8) ≤ UInt8.ofNat (48 + v % 8) ∧ UInt8.ofNat (48 + v % 8) ≤ 55 := by
      constructor
      · rw [UInt8.le_iff_toNat_le, hnat]
        exact Nat.le_add_right _ _
      · rw [UInt8.le_iff_toNat_le, hnat]
        exact Nat.add_le_add_left (Nat.le_of_lt_succ hd) 48
    -- the last digit is the lowest one
    have hval : (acc * 8 ^ n + v / 8 % 8 ^ n) * 8 + (48 + v % 8 - 48) =
        acc * 8 ^ (n + 1) + v % 8 ^ (n + 1) := by
      rw [Nat.pow_succ', Nat.mod_mul]
      ring_nf
      omega
    rw [octalDigits, append_assoc, ih, singleton_append, parseOctal, if_pos hdigit, hnat,
      hval]

theorem parseOctal_octalField (n v : Nat) : parseOctal 0 (octalField n v).1 = v % 8 ^ n := by
  rw [octalField, parseOctal_octalDigits, Nat.zero_mul, Nat.zero_add]
  rfl

/-! ### Strings -/

variable {s : Bytes} {e : Entry} {es : List Entry}

/-- A string ends at its zero. -/
theorem cstr_append (h : (0 : UInt8) ∉ s) (rest : Bytes) :
    cstr (s ++ 0 :: rest) = s := by
  unfold cstr
  rw [takeWhile_append_of_pos]
  · simp
  · intro c hc
    exact decide_eq_true (ne_of_mem_of_not_mem hc h)

theorem cstr_self (h : (0 : UInt8) ∉ s) : cstr s = s := by
  unfold cstr
  apply takeWhile_eq_self_iff.mpr
  intro c hc
  exact decide_eq_true (ne_of_mem_of_not_mem hc h)

/-- A field that is not full ends its string. -/
theorem cstr_strncpyField {w n : Nat} (h : n ≤ w) (hz : (0 : UInt8) ∉ s)
    (hlt : (s.take n).length < w) (rest : Bytes) :
    cstr ((strncpyField w n s h).1 ++ rest) = s.take n := by
  obtain ⟨m, hm⟩ := Nat.exists_eq_add_of_lt hlt
  have hrep : w - (s.take n).length = m + 1 := by omega
  unfold strncpyField
  dsimp only
  rw [hrep, replicate_succ, append_assoc, cons_append]
  exact cstr_append (fun hmem => hz (mem_of_mem_take hmem)) _

theorem zero_notMem_octalDigits (n v : Nat) : (0 : UInt8) ∉ octalDigits n v := by
  induction n generalizing v with
  | zero => exact not_mem_nil
  | succ n ih =>
    rw [octalDigits, mem_append]
    rintro (h | h)
    · exact ih _ h
    · have hz : (0 : UInt8).toNat = (UInt8.ofNat (48 + v % 8)).toNat :=
        congrArg _ (mem_singleton.mp h)
      rw [UInt8.toNat_ofNat'] at hz
      have h0 : (0 : UInt8).toNat = 0 := rfl
      omega

theorem zero_notMem_decimal (n : Nat) : (0 : UInt8) ∉ decimal n := by
  intro h
  have := digit_of_mem_decimal h
  have h0 : (0 : UInt8).toNat = 0 := rfl
  omega

/-! ### Headers -/

theorem TarHeader.length_bytes (h : TarHeader) : h.bytes.length = BLOCK := by
  simp only [TarHeader.bytes, length_append, h.name.2, h.mode.2, h.uid.2, h.gid.2, h.size.2,
    h.mtime.2, h.chksum.2, h.linkname.2, h.magic.2, h.version.2, h.uname.2, h.gname.2,
    h.devmajor.2, h.devminor.2, h.pathPrefix.2, h.pad.2, length_singleton, BLOCK]

/-- Where the fields stand that the readers use. -/
theorem TarHeader.fields (h : TarHeader) :
    At h.bytes 100 h.mode.1 ∧ At h.bytes 124 h.size.1 ∧ At h.bytes 136 h.mtime.1 ∧
      At h.bytes 156 [h.typeflag] ∧ At h.bytes 257 h.magic.1 ∧ At h.bytes 345 h.pathPrefix.1 := by
  have h1 := (At.self h.bytes).right_of_length h.name.2
  have h2 := h1.right_of_length h.mode.2
  have h4 := (h2.right_of_length h.uid.2).right_of_length h.gid.2
  have h5 := h4.right_of_length h.size.2
  have h7 := (h5.right_of_length h.mtime.2).right_of_length h.chksum.2
  have h9 := (h7.right_of_length (n := 1) rfl).right_of_length h.linkname.2
  have h12 := ((h9.right_of_length h.magic.2).right_of_length h.version.2).right_of_length h.uname.2
  have h15 := ((h12.right_of_length h.gname.2).right_of_length h.devmajor.2).right_of_length
    h.devminor.2
  exact ⟨h1.left, h4.left, h5.left, h7.left, h9.left, h15.left⟩

/-- What is behind the type: the link's name first. -/
theorem TarHeader.drop_linkname (h : TarHeader) :
    ∃ rest, h.bytes.drop 157 = h.linkname.1 ++ rest := by
  have h1 : At h.bytes 157 _ := ((((((((At.self h.bytes).right_of_length h.name.2).right_of_length
    h.mode.2).right_of_length h.uid.2).right_of_length h.gid.2).right_of_length
    h.size.2).right_of_length h.mtime.2).right_of_length h.chksum.2).right_of_length (n := 1) rfl
  obtain ⟨pre, post, hb, hlen⟩ := h1
  rw [hb, ← hlen, drop_left, append_assoc]
  exact ⟨_, rfl⟩

/-- A header with the magic is not an end. -/
theorem isEnd_header {h : TarHeader} (hm : h.magic = initHeader.magic) : isEnd h.bytes = false := by
  have hslice : slice h.bytes 257 5 = USTAR := by
    have hf := h.fields.2.2.2.2.1
    rw [hm] at hf
    exact hf.left.slice_eq rfl
  have hnz : h.bytes.all (· = 0) = false := by
    rw [all_eq_false]
    have hf := h.fields.2.2.2.2.1
    rw [hm] at hf
    obtain ⟨pre, post, hb, -⟩ := hf
    refine ⟨117, ?_, by decide⟩
    rw [hb, mem_append, mem_append]
    exact .inr (.inl (by decide))
  unfold isEnd
  rw [hnz, hslice]
  rfl

theorem typeflagOf_bytes (h : TarHeader) : typeflagOf h.bytes = h.typeflag :=
  h.fields.2.2.2.1.getD_eq

theorem isEnd_entryHeader (e : Entry) : isEnd (entryHeader e).bytes = false := isEnd_header rfl

theorem typeflagOf_entryHeader (e : Entry) : typeflagOf (entryHeader e).bytes = e.node.typeflag :=
  typeflagOf_bytes _

theorem modeOf_entryHeader (e : Entry) : modeOf (entryHeader e).bytes = e.mode := by
  have hlt : e.mode < 8 ^ 6 := Nat.lt_of_le_of_lt Nat.and_le_right (by decide)
  have hs := (entryHeader e).fields.1.slice_eq (entryHeader e).mode.2
  unfold modeOf
  rw [hs]
  exact (parseOctal_octalField 6 e.mode).trans (Nat.mod_eq_of_lt hlt)

theorem sizeOfHeader_entryHeader (e : Entry) :
    sizeOfHeader (entryHeader e).bytes = e.node.content.length % 2 ^ 30 := by
  have hs := (entryHeader e).fields.2.1.slice_eq (entryHeader e).size.2
  unfold sizeOfHeader
  rw [hs]
  exact parseOctal_octalField 10 e.node.content.length

theorem linknameOf_entryHeader (hv : e.Valid) :
    linknameOf (entryHeader e).bytes = e.node.linkname := by
  obtain ⟨rest, hr⟩ := (entryHeader e).drop_linkname
  have htake : e.node.linkname.take (NAME_MAX_TAR - 1) = e.node.linkname :=
    take_of_length_le hv.link_le
  have hlt : (e.node.linkname.take (NAME_MAX_TAR - 1)).length < 100 := by
    rw [htake]
    exact Nat.lt_succ_of_le hv.link_le
  unfold linknameOf
  rw [hr]
  exact (cstr_strncpyField (by decide) hv.link_noZero hlt rest).trans htake

/-- The name that a reader takes from the header of an entry. -/
def shownName (e : Entry) : Bytes :=
  if NAME_MAX_TAR < e.arcname.length then e.arcname.take 100 ++ (octalDigits 6 e.mode ++ [SPACE])
  else e.arcname.take 99

theorem cstr_entryHeader (hv : e.Valid) :
    cstr (entryHeader e).bytes = shownName e := by
  unfold shownName
  split
  next h =>
    -- the field is full: the mode is read with it, up to its zero
    have hname : (entryHeader e).name.1 = e.arcname.take 100 := by
      have htake : (e.arcname.take NAME_MAX_TAR).length = 100 :=
        length_take_of_le (Nat.le_of_lt h)
      show (if NAME_MAX_TAR < e.arcname.length then _ else _ : Field 100).1 = _
      rw [if_pos h]
      show e.arcname.take NAME_MAX_TAR ++
        replicate (100 - (e.arcname.take NAME_MAX_TAR).length) 0 = _
      rw [htake]
      exact append_nil _
    have hmode : (entryHeader e).mode.1 = octalDigits 6 e.mode ++ [SPACE, 0] := rfl
    have hb : ∃ rest, (entryHeader e).bytes =
        e.arcname.take 100 ++ (octalDigits 6 e.mode ++ [SPACE]) ++ 0 :: rest := by
      unfold TarHeader.bytes
      rw [hname, hmode]
      simp only [append_assoc, cons_append, nil_append]
      exact ⟨_, rfl⟩
    obtain ⟨rest, hb⟩ := hb
    rw [hb]
    apply cstr_append
    rw [mem_append, mem_append]
    rintro (hm | hm | hm)
    · exact hv.name_noZero (mem_of_mem_take hm)
    · exact zero_notMem_octalDigits _ _ hm
    · exact absurd hm (by decide)
  next h =>
    have hname : (entryHeader e).name =
        strncpyField 100 (NAME_MAX_TAR - 1) e.arcname (by decide) := if_neg h
    have hlt : (e.arcname.take (NAME_MAX_TAR - 1)).length < 100 :=
      Nat.lt_of_le_of_lt (length_take_le _ _) (by decide)
    unfold TarHeader.bytes
    rw [hname]
    exact cstr_strncpyField (by decide) hv.name_noZero hlt _

theorem length_shownName_le (e : Entry) : (shownName e).length ≤ 107 := by
  unfold shownName
  split
  · rw [length_append, length_append, length_octalDigits]
    have := length_take_le 100 e.arcname
    have h1 : [SPACE].length = 1 := rfl
    omega
  · exact Nat.le_trans (length_take_le _ _) (by decide)

theorem headerName_entryHeader (hv : e.Valid) :
    headerName (entryHeader e).bytes = shownName e := by
  have hp : (entryHeader e).bytes.getD 345 0 = 0 := by
    have hf : At (entryHeader e).bytes 345 ((0 : UInt8) :: replicate 154 0) :=
      (entryHeader e).fields.2.2.2.2.2
    exact hf.getD_eq
  unfold headerName
  dsimp only
  rw [if_neg (by simpa using hp), cstr_entryHeader hv]
  exact take_of_length_le (Nat.le_trans (length_shownName_le e) (by decide))

/-! ### The record of a long name -/

theorem length_paxRecord (name : Bytes) :
    (paxRecord name).length = (decimal name.length).length + (name.length + 7) := by
  simp only [paxRecord, PATH_EQ, length_append, length_cons, length_nil]
  omega

theorem length_paxRecord_lt (hv : e.Valid) : (paxRecord e.arcname).length < 2 ^ 30 := by
  have hlt : e.arcname.length < 4096 := hv.name_lt
  have hdec := length_decimal_le (k := 4) (by decide) (n := e.arcname.length) (by omega)
  rw [length_paxRecord]
  omega

theorem zero_notMem_paxRecord (hv : e.Valid) : (0 : UInt8) ∉ paxRecord e.arcname := by
  unfold paxRecord
  simp only [mem_append, not_or]
  exact ⟨zero_notMem_decimal _, by decide, by decide, hv.name_noZero, by decide⟩

theorem sizeOfHeader_longHeader (hv : e.Valid) :
    sizeOfHeader (longHeader e.arcname).bytes = (paxRecord e.arcname).length := by
  have hs := (longHeader e.arcname).fields.2.1.slice_eq (longHeader e.arcname).size.2
  unfold sizeOfHeader
  rw [hs]
  exact (parseOctal_octalField 10 _).trans (Nat.mod_eq_of_lt (length_paxRecord_lt hv))

theorem isEnd_longHeader (name : Bytes) : isEnd (longHeader name).bytes = false := isEnd_header rfl

theorem typeflagOf_longHeader (name : Bytes) :
    typeflagOf (longHeader name).bytes = LONGTYPE := typeflagOf_bytes _

theorem length_padding (size : Nat) : (padding size).length = padLength size :=
  length_replicate

theorem drop_padded (data rest : Bytes) :
    (data ++ (padding data.length ++ rest)).drop (data.length + padLength data.length) = rest := by
  rw [← append_assoc]
  exact drop_left' (by rw [length_append, length_padding])

theorem blocks_eq (size : Nat) : BLOCK * blocks size = size + padLength size := by
  unfold blocks padLength BLOCK
  split <;> omega

/-! ### One round -/

/-- The name under which an entry is created. -/
def storedName (e : Entry) : Bytes :=
  if NAME_MAX_TAR < e.arcname.length then (paxRecord e.arcname).take (PATH_MAX - 1)
  else e.arcname.take 99

/-- The data of an entry. -/
def dataOf (e : Entry) : Bytes := e.node.content ++ padding e.node.content.length

theorem typeflag_ne_long (n : Node) : n.typeflag ≠ LONGTYPE := by
  rcases n with c | _ | t
  · exact (by decide : REGTYPE ≠ LONGTYPE)
  · exact (by decide : DIRTYPE ≠ LONGTYPE)
  · exact (by decide : SYMTYPE ≠ LONGTYPE)

theorem take_header (h : TarHeader) (rest : Bytes) : (h.bytes ++ rest).take BLOCK = h.bytes :=
  take_left' h.length_bytes

theorem drop_header (h : TarHeader) (rest : Bytes) : (h.bytes ++ rest).drop BLOCK = rest :=
  drop_left' h.length_bytes

theorem header_fits (h : TarHeader) (rest : Bytes) : ¬ (h.bytes ++ rest).length < BLOCK := by
  rw [length_append, h.length_bytes]
  omega

theorem header_goes_on {h : TarHeader} (hend : isEnd h.bytes = false) (rest : Bytes) :
    ¬ ((h.bytes ++ rest).length < BLOCK ∨ isEnd h.bytes = true) := by
  rw [hend]
  rintro (hlt | hf)
  · exact header_fits h rest hlt
  · cases hf

/-- The record of a long name gives the name and leads to the entry's header. -/
theorem readLongName_longHeader (hv : e.Valid) (rest : Bytes) :
    readLongName (longHeader e.arcname).bytes (paxRecord e.arcname ++
        (padding (paxRecord e.arcname).length ++ ((entryHeader e).bytes ++ rest))) =
      some (some (paxRecord e.arcname), (entryHeader e).bytes, rest) := by
  have hgot : (entryHeader e).bytes ++
      (longHeader e.arcname).bytes.drop (entryHeader e).bytes.length = (entryHeader e).bytes := by
    rw [drop_of_length_le (by rw [TarHeader.length_bytes, TarHeader.length_bytes]),
      append_nil]
  unfold readLongName
  rw [if_pos (typeflagOf_longHeader _)]
  dsimp only
  rw [sizeOfHeader_longHeader hv, if_neg (by rw [length_append]; omega), drop_padded,
    take_header, drop_header, take_left, cstr_self (zero_notMem_paxRecord hv), hgot]

/-- A round of `do_extract` on an entry. -/
theorem extractLoop_archiveFile {opens : Nat → Bool} (hv : e.Valid) (fuel k : Nat) (rest : Bytes) :
    extractLoop opens (fuel + 1) k (archiveFile e ++ rest) =
      (extractLoop opens fuel (k + 1) (extractEntry (opens k) (entryHeader e).bytes (storedName e)
        (dataOf e ++ rest)).2).map
        ((extractEntry (opens k) (entryHeader e).bytes (storedName e) (dataOf e ++ rest)).1 ++ ·) := by
  unfold archiveFile writeHeader longRecord storedName
  rw [extractLoop]
  split
  next hlong =>
    simp only [append_assoc]
    rw [take_header, drop_header, if_neg (header_goes_on (isEnd_longHeader _) _),
      readLongName_longHeader hv]
    simp only [Option.bind_some, dataOf, append_assoc]
  next =>
    have hread : ∀ s, readLongName (entryHeader e).bytes s =
        some (none, (entryHeader e).bytes, s) := by
      intro s
      unfold readLongName
      rw [if_neg (by rw [typeflagOf_entryHeader]; exact typeflag_ne_long _)]
    have hname : headerName (entryHeader e).bytes = e.arcname.take 99 := by
      rw [headerName_entryHeader hv, shownName, if_neg ‹_›]
    simp only [append_assoc, nil_append]
    rw [take_header, drop_header, if_neg (header_goes_on (isEnd_entryHeader e) _), hread]
    simp only [Option.bind_some, hname, dataOf, append_assoc]

/-- What the data skip of `do_list` leaves. -/
def listRest (e : Entry) (rest : Bytes) : Bytes :=
  (dataOf e ++ rest).drop (BLOCK * blocks (e.node.content.length % 2 ^ 30))

/-- A round of `do_list` on an entry. -/
theorem listLoop_archiveFile (hv : e.Valid) (fuel : Nat) (rest : Bytes) :
    listLoop (fuel + 1) (archiveFile e ++ rest) =
      (listLoop fuel (listRest e rest)).map (shownName e :: ·) := by
  have hskip : ∀ s : Bytes, s.drop (if typeflagOf (entryHeader e).bytes = REGTYPE ∨
      typeflagOf (entryHeader e).bytes = 0 then BLOCK * blocks (e.node.content.length % 2 ^ 30)
      else 0) = s.drop (BLOCK * blocks (e.node.content.length % 2 ^ 30)) := by
    intro s
    rw [typeflagOf_entryHeader]
    rcases e.node with c | _ | t
    · rw [if_pos (.inl rfl)]
    · rw [if_neg (by decide)]
      exact congrArg s.drop (by decide : 0 = BLOCK * blocks (0 % 2 ^ 30))
    · rw [if_neg (by show ¬ (SYMTYPE = REGTYPE ∨ SYMTYPE = 0); decide)]
      exact congrArg s.drop (by decide : 0 = BLOCK * blocks (0 % 2 ^ 30))
  unfold archiveFile writeHeader longRecord listRest
  rw [listLoop]
  split
  next hlong =>
    simp only [append_assoc]
    rw [take_header, drop_header, if_neg (header_goes_on (isEnd_longHeader _) _)]
    unfold skipLongName
    rw [if_pos (typeflagOf_longHeader _)]
    dsimp only
    rw [sizeOfHeader_longHeader hv, blocks_eq, drop_padded, if_neg (header_fits _ _), take_header,
      drop_header]
    dsimp only
    rw [sizeOfHeader_entryHeader, hskip, headerName_entryHeader hv]
    simp only [dataOf, append_assoc]
  next =>
    have hread : ∀ s, skipLongName (entryHeader e).bytes s = some ((entryHeader e).bytes, s) := by
      intro s
      unfold skipLongName
      rw [if_neg (by rw [typeflagOf_entryHeader]; exact typeflag_ne_long _)]
    simp only [append_assoc, nil_append]
    rw [take_header, drop_header, if_neg (header_goes_on (isEnd_entryHeader e) _), hread]
    dsimp only
    rw [sizeOfHeader_entryHeader, hskip, headerName_entryHeader hv]
    simp only [dataOf, append_assoc]

/-! ### What a round makes of an entry -/

theorem parentDirs_creates (name : Bytes) :
    (parentDirs name).filter Request.creates = parentDirs name := by
  unfold parentDirs
  split <;> rfl

theorem extractEntry_directory (hn : e.node = .directory) (opened : Bool) (name s : Bytes) :
    extractEntry opened (entryHeader e).bytes name s = ([.mkdirs (mkdirPaths name) e.mode], s) := by
  unfold extractEntry
  rw [typeflagOf_entryHeader, modeOf_entryHeader, hn]
  exact if_pos rfl

theorem extractEntry_symlink {target : Bytes} (hn : e.node = .symlink target)
    (hv : e.Valid) (opened : Bool) (name s : Bytes) :
    extractEntry opened (entryHeader e).bytes name s =
      (.unlink name :: (parentDirs name ++ [.symlink target name]), s) := by
  unfold extractEntry
  rw [typeflagOf_entryHeader, linknameOf_entryHeader hv, hn]
  exact (if_neg (by show SYMTYPE ≠ DIRTYPE; decide)).trans (if_pos rfl)

/-- The content that is written for a regular file. -/
def writtenContent (content s : Bytes) : Bytes := s.take (content.length % 2 ^ 30)

theorem extractEntry_regular {content : Bytes} (hn : e.node = .regular content)
    (opened : Bool) (name s : Bytes) :
    (extractEntry opened (entryHeader e).bytes name s).1.filter Request.creates =
        parentDirs name ++ [.file name (if e.mode = 0 then 0o644 else e.mode)
          (if opened then some (writtenContent content s) else none)] ∧
      (extractEntry opened (entryHeader e).bytes name s).2 =
        s.drop (content.length % 2 ^ 30 + padLength (content.length % 2 ^ 30)) := by
  have hc : e.node.content = content := by rw [hn]; rfl
  have ht : (entryHeader e).bytes.length = BLOCK := TarHeader.length_bytes _
  unfold extractEntry writtenContent
  rw [typeflagOf_entryHeader, modeOf_entryHeader, sizeOfHeader_entryHeader, hc, hn,
    if_neg (by show REGTYPE ≠ DIRTYPE; decide), if_neg (by show REGTYPE ≠ SYMTYPE; decide)]
  rcases opened with _ | _
  · refine ⟨?_, rfl⟩
    show (parentDirs name ++ [Request.file _ _ _]).filter Request.creates = _
    rw [filter_append, parentDirs_creates]
    rfl
  · refine ⟨?_, rfl⟩
    show (parentDirs name ++ [Request.file _ _ _, .utime _ _]).filter Request.creates = _
    rw [filter_append, parentDirs_creates]
    rfl

/-- An entry that fits is created as it was, and the next one is read where it begins. -/
theorem extractEntry_of_fits (hv : e.Valid) (hfit : e.Fits) (opened : Bool) (rest : Bytes) :
    (extractEntry opened (entryHeader e).bytes (storedName e) (dataOf e ++ rest)).1.filter
        Request.creates = e.requests opened ∧
      (extractEntry opened (entryHeader e).bytes (storedName e) (dataOf e ++ rest)).2 = rest := by
  have hle := hfit.name_le
  have hname : storedName e = e.arcname := by
    unfold storedName NAME_MAX_TAR
    rw [if_neg (by omega)]
    exact take_of_length_le hle
  rw [hname]
  unfold Entry.requests dataOf
  rcases hn : e.node with content | _ | target
  · obtain ⟨h1, h2⟩ := extractEntry_regular hn opened e.arcname (dataOf e ++ rest)
    have hlt : content.length < 2 ^ 30 := by
      have := hfit.content_lt
      rw [hn] at this
      exact this
    unfold dataOf at h1 h2
    unfold writtenContent at h1
    rw [hn] at h1 h2
    rw [if_neg (hfit.mode_ne content hn)] at h1
    simp only [Node.content, Nat.mod_eq_of_lt hlt, append_assoc] at h1 h2 ⊢
    rw [take_left] at h1
    rw [drop_padded] at h2
    exact ⟨h1, h2⟩
  · rw [extractEntry_directory hn]
    exact ⟨rfl, rfl⟩
  · rw [extractEntry_symlink hn hv]
    refine ⟨?_, rfl⟩
    show Request.unlink _ :: (parentDirs _ ++ [Request.symlink _ _]).filter Request.creates = _
    rw [filter_append, parentDirs_creates]
    rfl

theorem listRest_of_fits (hfit : e.Fits) (rest : Bytes) : listRest e rest = rest := by
  unfold listRest dataOf
  rw [Nat.mod_eq_of_lt hfit.content_lt, blocks_eq, append_assoc, drop_padded]

theorem shownName_of_fits (hfit : e.Fits) : shownName e = e.arcname := by
  have hle := hfit.name_le
  unfold shownName NAME_MAX_TAR
  rw [if_neg (by omega)]
  exact take_of_length_le hle

/-! ### What goes wrong otherwise -/

/-- A listed name that is right either fits its field or has 107 characters. -/
theorem length_of_shownName (h : shownName e = e.arcname) :
    e.arcname.length ≤ 99 ∨ e.arcname.length = 107 := by
  have hlen := congrArg length h
  unfold shownName NAME_MAX_TAR at hlen
  split at hlen
  next hlt =>
    right
    rw [length_append, length_append, length_octalDigits,
      length_take_of_le (Nat.le_of_lt hlt)] at hlen
    exact hlen.symm
  next =>
    left
    rw [length_take] at hlen
    omega

theorem mkdirPath_length {p : Bytes} (h : p.length < PATH_MAX) :
    p.length ≤ (mkdirPath p).length + 1 ∧ (mkdirPath p).length ≤ p.length := by
  have htake : p.take (PATH_MAX - 1) = p := take_of_length_le (Nat.le_sub_one_of_lt h)
  unfold mkdirPath
  dsimp only
  rw [htake]
  split
  · rw [length_dropLast]
    omega
  · exact ⟨Nat.le_succ _, Nat.le_refl _⟩

/-- Directories made under two paths: the paths have about the same length. -/
theorem length_of_mkdirPaths {p q : Bytes} (hp : p.length < PATH_MAX) (hq : q.length < PATH_MAX)
    (h : mkdirPaths p = mkdirPaths q) : p.length ≤ q.length + 1 := by
  have hlast : mkdirPath p = mkdirPath q := by
    have hl := congrArg getLast? h
    simpa [mkdirPaths] using hl
  have h1 := (mkdirPath_length hp).1
  have h2 := (mkdirPath_length hq).2
  rw [hlast] at h1
  omega

theorem slash_mem_paxRecord {name : Bytes} : SLASH ∈ paxRecord name ↔ SLASH ∈ name := by
  have hdec : SLASH ∉ decimal name.length := by
    intro h
    have := digit_of_mem_decimal h
    have h47 : SLASH.toNat = 47 := rfl
    omega
  unfold paxRecord
  simp only [mem_append, hdec, false_or]
  constructor
  · rintro (h | h | h | h)
    · exact absurd h (by decide)
    · exact absurd h (by decide)
    · exact h
    · exact absurd h (by decide)
  · intro h
    exact .inr (.inr (.inl h))

/-- The directory of the record's text is longer than that of the name. -/
theorem length_parent_paxRecord {name : Bytes} (h : SLASH ∈ name) :
    ((paxRecord name).reverse.dropWhile (· ≠ SLASH)).tail.reverse.length =
      (name.reverse.dropWhile (· ≠ SLASH)).tail.reverse.length +
        ((decimal name.length).length + 6) := by
  have hne : name.reverse.dropWhile (· ≠ SLASH) ≠ [] := by
    intro hnil
    have hall := dropWhile_eq_nil_iff.mp hnil SLASH (mem_reverse.mpr h)
    simp at hall
  have hrev : (paxRecord name).reverse = NEWLINE :: (name.reverse ++
      ([SPACE] ++ PATH_EQ).reverse ++ (decimal name.length).reverse) := by
    simp [paxRecord]
  rw [hrev, dropWhile_cons_of_pos (by decide), append_assoc, dropWhile_append,
    if_neg (by simpa using hne)]
  rcases hd : name.reverse.dropWhile (· ≠ SLASH) with _ | ⟨c, cs⟩
  · exact absurd hd hne
  · simp [PATH_EQ]
    omega

/-- An entry with a long name is not created where its name is listed right. -/
theorem requests_long_ne (hv : e.Valid) (hlen : e.arcname.length = 107) (opened : Bool)
    (s : Bytes) (x y : List Request) :
    (extractEntry opened (entryHeader e).bytes (storedName e) s).1.filter Request.creates ++ x ≠
      e.requests opened ++ y := by
  have hdec : (decimal e.arcname.length).length = 3 := by
    rw [hlen]
    decide
  have hpax : (paxRecord e.arcname).length = 117 := by rw [length_paxRecord, hdec, hlen]
  have hname : storedName e = paxRecord e.arcname := by
    unfold storedName NAME_MAX_TAR
    rw [if_pos (by omega)]
    exact take_of_length_le (by rw [hpax]; decide)
  have hne : paxRecord e.arcname ≠ e.arcname := by
    intro h
    rw [h] at hpax
    omega
  rw [hname]
  unfold Entry.requests
  rcases hn : e.node with content | _ | target
  · rw [(extractEntry_regular hn opened (paxRecord e.arcname) s).1, append_assoc,
      append_assoc]
    unfold parentDirs
    by_cases hs : SLASH ∈ e.arcname
    · rw [if_pos hs, if_pos (slash_mem_paxRecord.mpr hs)]
      intro h
      obtain ⟨hp, -⟩ := Request.mkdirs.inj (cons.inj h).1
      have hparent := length_parent_paxRecord hs
      have hle : (e.arcname.reverse.dropWhile (· ≠ SLASH)).tail.reverse.length ≤ 107 := by
        have := (dropWhile_suffix (· ≠ SLASH) (l := e.arcname.reverse)).length_le
        rw [length_reverse, length_tail]
        rw [length_reverse] at this
        omega
      have := length_of_mkdirPaths (by rw [hparent, hdec]; unfold PATH_MAX; omega)
        (by unfold PATH_MAX; omega) hp
      omega
    · rw [if_neg hs, if_neg (fun h => hs (slash_mem_paxRecord.mp h))]
      intro h
      exact hne (Request.file.inj (cons.inj h).1).1
  · rw [extractEntry_directory hn]
    intro h
    obtain ⟨hp, -⟩ := Request.mkdirs.inj (cons.inj h).1
    have := length_of_mkdirPaths (by rw [hpax]; decide) hv.name_lt hp
    omega
  · rw [extractEntry_symlink hn hv]
    intro h
    exact hne (Request.unlink.inj (cons.inj h).1)

/-- A file of which content or mode does not fit is not created as it was. -/
theorem fits_of_requests (hle : e.arcname.length ≤ 99) {x y : List Request}
    (h : (extractEntry true (entryHeader e).bytes (storedName e) s).1.filter Request.creates ++ x =
      e.requests true ++ y) : e.Fits := by
  have hname : storedName e = e.arcname := by
    unfold storedName NAME_MAX_TAR
    rw [if_neg (by omega)]
    exact take_of_length_le hle
  rcases hn : e.node with content | _ | target
  · unfold Entry.requests at h
    rw [hname, hn, (extractEntry_regular hn true e.arcname s).1] at h
    simp only [append_assoc] at h
    obtain ⟨-, hmode, hcontent⟩ := Request.file.inj (cons.inj (append_cancel_left h)).1
    refine ⟨hle, ?_, ?_⟩
    · have hc := congrArg length (Option.some.inj hcontent)
      unfold writtenContent at hc
      rw [length_take] at hc
      rw [hn]
      show content.length < 2 ^ 30
      omega
    · intro _ _ h0
      rw [h0, if_pos rfl] at hmode
      cases hmode
  · refine ⟨hle, by rw [hn]; decide, ?_⟩
    intro content hc
    rw [hn] at hc
    cases hc
  · refine ⟨hle, by rw [hn]; show 0 < 2 ^ 30; decide, ?_⟩
    intro content hc
    rw [hn] at hc
    cases hc

/-! ### The round trip -/

set_option maxRecDepth 20000 in
/-- Both readers stop at the end. -/
theorem loops_at_end (opens : Nat → Bool) (fuel k : Nat) :
    extractLoop opens (fuel + 1) k (replicate 1024 0) = some [] ∧
      listLoop (fuel + 1) (replicate 1024 0) = some [] := by
  have hend : isEnd ((replicate 1024 (0 : UInt8)).take BLOCK) = true := by decide
  constructor
  · rw [extractLoop]
    exact if_pos (.inr hend)
  · rw [listLoop]
    exact if_pos (.inr hend)

/-- What the readers give back from the `k`-th entry on, whatever files can be opened. -/
def ReadBack (fuel k : Nat) (es : List Entry) : Prop :=
  (∀ opens, (extractLoop opens fuel k (archive es)).map (·.filter Request.creates) =
      some (expectedRequests opens k es)) ∧
    listLoop fuel (archive es) = some (es.map Entry.arcname)

theorem archive_cons (e : Entry) (es : List Entry) :
    archive (e :: es) = archiveFile e ++ archive es := by
  unfold archive
  rw [flatMap_cons, append_assoc]

/-- An entry that fits is given back, and does not disturb the others. -/
theorem readBack_cons_of_fits (hv : e.Valid) (hfit : e.Fits)
    (fuel k : Nat) : ReadBack (fuel + 1) k (e :: es) ↔ ReadBack fuel (k + 1) es := by
  have hlist : listLoop (fuel + 1) (archive (e :: es)) = some ((e :: es).map Entry.arcname) ↔
      listLoop fuel (archive es) = some (es.map Entry.arcname) := by
    rw [archive_cons, listLoop_archiveFile hv, listRest_of_fits hfit, shownName_of_fits hfit]
    rcases listLoop fuel (archive es) with _ | names
    · simp
    · simp
  have hextract : ∀ opens, (extractLoop opens (fuel + 1) k (archive (e :: es))).map
      (·.filter Request.creates) = some (expectedRequests opens k (e :: es)) ↔
      (extractLoop opens fuel (k + 1) (archive es)).map (·.filter Request.creates) =
        some (expectedRequests opens (k + 1) es) := by
    intro opens
    obtain ⟨h1, h2⟩ := extractEntry_of_fits hv hfit (opens k) (archive es)
    rw [archive_cons, extractLoop_archiveFile hv, h2, expectedRequests]
    rcases extractLoop opens fuel (k + 1) (archive es) with _ | requests
    · simp
    · simp [h1]
  exact and_congr (forall_congr' hextract) hlist

/-- An entry that is given back fits. -/
theorem fits_of_readBack (hv : e.Valid) {fuel k : Nat}
    (h : ReadBack (fuel + 1) k (e :: es)) : e.Fits := by
  obtain ⟨hextract, hlist⟩ := h
  -- the first line that is printed
  have hshown : shownName e = e.arcname := by
    rw [archive_cons, listLoop_archiveFile hv] at hlist
    obtain ⟨names, -, he⟩ := Option.map_eq_some_iff.mp hlist
    exact (cons.inj he).1
  -- the first requests that are made
  obtain ⟨x, hx⟩ : ∃ x, (extractEntry true (entryHeader e).bytes (storedName e)
      (dataOf e ++ archive es)).1.filter Request.creates ++ x =
        e.requests true ++ expectedRequests (fun _ => true) (k + 1) es := by
    have ht := hextract fun _ => true
    rw [archive_cons, extractLoop_archiveFile hv] at ht
    obtain ⟨all, hall, he⟩ := Option.map_eq_some_iff.mp ht
    obtain ⟨more, -, rfl⟩ := Option.map_eq_some_iff.mp hall
    rw [filter_append] at he
    exact ⟨_, he⟩
  rcases length_of_shownName hshown with hle | hlong
  · exact fits_of_requests hle hx
  · exact absurd hx (requests_long_ne hv hlong true _ _ _)

/-- The readers give the entries back exactly when all of them fit. -/
theorem readers_iff (hv : ∀ e ∈ es, e.Valid) {fuel : Nat} (hf : es.length < fuel)
    (k : Nat) : ReadBack fuel k es ↔ ∀ e ∈ es, e.Fits := by
  induction es generalizing fuel k with
  | nil =>
    obtain ⟨f, rfl⟩ := Nat.exists_eq_add_of_lt hf
    constructor
    · intro _ e he
      exact absurd he not_mem_nil
    · intro _
      have hend := fun opens => loops_at_end opens (0 + f) k
      refine ⟨fun opens => ?_, (hend fun _ => true).2⟩
      show (extractLoop opens _ k (replicate 1024 0)).map _ = _
      rw [length_nil, (hend opens).1]
      rfl
  | cons e es ih =>
    obtain ⟨f, rfl⟩ : ∃ f, fuel = f + 1 := ⟨fuel - 1, by omega⟩
    have hve := hv e mem_cons_self
    have hih := fun k => ih (fun x hx => hv x (mem_cons_of_mem _ hx))
      (Nat.lt_of_succ_lt_succ hf) k
    rw [forall_mem_cons]
    constructor
    · intro h
      have hfit := fits_of_readBack hve h
      exact ⟨hfit, (hih (k + 1)).mp ((readBack_cons_of_fits hve hfit f k).mp h)⟩
    · rintro ⟨hfit, hrest⟩
      exact (readBack_cons_of_fits hve hfit f k).mpr ((hih (k + 1)).mpr hrest)

theorem length_le_archive (es : List Entry) : es.length ≤ (archive es).length := by
  induction es with
  | nil => exact Nat.zero_le _
  | cons e es ih =>
    rw [archive_cons, archiveFile, writeHeader, length_append, length_append,
      length_append, TarHeader.length_bytes, length_cons]
    unfold BLOCK
    omega

/-- The directory `d`, the file `d/f` in it, and a link `l` to the file. -/
def smallTree : List Entry :=
  [⟨[100], .directory, 0o40755, 0, 0, 0⟩, ⟨[100, 47, 102], .regular [104, 105], 0o100644, 0, 0, 0⟩,
    ⟨[108], .symlink [100, 47, 102], 0o120777, 0, 0, 0⟩]

/-- A directory with a name of 101 characters. -/
def longNamed : Entry := ⟨replicate 101 97, .directory, 0o40755, 0, 0, 0⟩

end MeuOS.Utils
