import MeuOS.Ar.Format
import MeuOS.Lib.Field

namespace MeuOS.Ar

open MeuOS.Lib List Option

/-!
# What the reader makes of a written archive

* `readHeader_writeHeader` — the header that was written, read again;
* `loadLoop_record` — the reader's step over a record;
* `readBack` — what becomes of a member: lost, under a shorter name, or unharmed;
* `loadLoop_writeMembers`, `loadArchive_writeArchive` — the whole file.
-/

/-! ### Decimal fields -/

variable {n : Nat} {name data rest' table record : Bytes} {bs : List Blob}

theorem space_ne_digit {c : UInt8} (h : c ∈ decimal n) : c ≠ SPACE := by
  rintro rfl
  have h32 : SPACE.toNat = 32 := rfl
  have := digit_of_mem_decimal h
  omega

/-- A field that was written: blanks, then the digits. -/
theorem putDecimal_some {width : Nat} {field : Bytes} (h : putDecimal width n = some field) :
    field.length = width ∧ n < 10 ^ width ∧ ∃ k, field = replicate k SPACE ++ decimal n := by
  unfold putDecimal at h
  dsimp only at h
  split at h
  · simp at h
  next hlen =>
    cases h
    refine ⟨?_, lt_of_length_decimal (Nat.not_lt.mp hlen), _, rfl⟩
    rw [length_append, length_replicate]
    omega

theorem parseDecimalText_decimal (h : n ≤ UINT64_MAX) :
    parseDecimalText (decimal n) = some n := by
  unfold parseDecimalText
  rw [if_neg (decimal_ne_nil n), digitsVal_decimal h]

/-- A field that was written is read back. -/
theorem parseDecimal_putDecimal {width : Nat} {field : Bytes} (hw : width ≤ 19)
    (h : putDecimal width n = some field) : parseDecimal field = some n := by
  obtain ⟨-, hn, k, rfl⟩ := putDecimal_some h
  have hlimit : n ≤ UINT64_MAX := by
    have h19 : 10 ^ width ≤ 10 ^ 19 := Nat.pow_le_pow_right (by omega) hw
    have hmax : 10 ^ 19 ≤ UINT64_MAX := by decide
    omega
  have hne : ∀ c ∈ decimal n, decide (c ≠ SPACE) = true := fun c hc => by
    simpa using space_ne_digit hc
  have hdrop : (replicate k SPACE ++ decimal n).dropWhile (fun c => decide (c = SPACE)) =
      decimal n := by
    rw [dropWhile_append_of_pos (by simp)]
    rcases hd : decimal n with _ | ⟨c, cs⟩
    · exact absurd hd (decimal_ne_nil n)
    · rw [dropWhile_cons_of_neg]
      simpa using space_ne_digit (hd ▸ mem_cons_self : c ∈ decimal n)
  unfold parseDecimal
  simp only [hdrop]
  rw [dropWhile_eq_nil_iff.mpr hne, takeWhile_eq_self_iff.mpr hne]
  simp [parseDecimalText_decimal hlimit]

/-! ### Headers -/

/-- A name for a header: short enough, without zero bytes, and not ending in a blank. -/
structure HeaderName (raw : Bytes) : Prop where
  length : raw.length ≤ MEMBER_NAME_SIZE
  nozero : (0 : UInt8) ∉ raw
  last : ∀ c, raw.getLast? = some c → c ≠ SPACE

theorem cstring_eq {s : Bytes} (h : (0 : UInt8) ∉ s) : (cstring s).1 = s := by
  apply takeWhile_eq_self_iff.mpr
  intro c hc
  apply decide_eq_true
  rintro rfl
  exact h hc

/-- A header that was written. -/
theorem writeHeader_some {header : Bytes} {size : Nat} (h : writeHeader name size = some header) :
    ∃ field mid, putDecimal 10 size = some field ∧ mid.length = 32 ∧
      header = (name ++ replicate (MEMBER_NAME_SIZE - name.length) SPACE) ++
        (mid ++ (field ++ [96, 10])) := by
  unfold writeHeader at h
  split at h
  · simp at h
  · simp only [bind_eq_bind, bind_eq_some_iff] at h
    obtain ⟨date, hdate, uid, huid, gid, hgid, mode, hmode, field, hfield, he⟩ := h
    refine ⟨field, date ++ uid ++ gid ++ mode, hfield, ?_, ?_⟩
    · simp only [length_append, (putDecimal_some hdate).1, (putDecimal_some huid).1,
        (putDecimal_some hgid).1, (putDecimal_some hmode).1]
    · cases he
      simp

/-- Reading a header that was written: it is refused if the name holds a control character. -/
theorem readHeader_writeHeader {header : Bytes} {size : Nat} (hn : HeaderName name)
    (h : writeHeader name size = some header) (rest : Bytes) :
    readHeader (header ++ rest) =
      if name.any isControl then .bad else .header name size rest := by
  obtain ⟨field, mid, hfield, hmid, rfl⟩ := writeHeader_some h
  have hflen : field.length = 10 := (putDecimal_some hfield).1
  have hname : (name ++ replicate (MEMBER_NAME_SIZE - name.length) SPACE).length =
      MEMBER_NAME_SIZE := by
    rw [length_append, length_replicate]
    exact Nat.add_sub_cancel' hn.length
  generalize hpad : name ++ replicate (MEMBER_NAME_SIZE - name.length) SPACE = padded at hname
  -- the pieces of the header at their places
  have hlen : (padded ++ (mid ++ (field ++ [96, 10]))).length = HEADER_SIZE := by
    simp [hname, hmid, hflen, MEMBER_NAME_SIZE, HEADER_SIZE]
  have htake : (padded ++ (mid ++ (field ++ [96, 10])) ++ rest).take MEMBER_NAME_SIZE = padded := by
    rw [append_assoc, ← hname, take_left]
  have hsize : slice (padded ++ (mid ++ (field ++ [96, 10])) ++ rest) 48 10 = field := by
    have he : padded ++ (mid ++ (field ++ [96, 10])) ++ rest =
        (padded ++ mid) ++ (field ++ ([96, 10] ++ rest)) := by simp
    rw [he]
    exact slice_append_mid _ _ _ (by simp [hname, hmid, MEMBER_NAME_SIZE]) hflen.symm
  have hmagic : slice (padded ++ (mid ++ (field ++ [96, 10])) ++ rest) 58 2 = [96, 10] := by
    have he : padded ++ (mid ++ (field ++ [96, 10])) ++ rest =
        (padded ++ mid ++ field) ++ ([96, 10] ++ rest) := by simp
    rw [he]
    exact slice_append_mid _ _ _ (by simp [hname, hmid, hflen, MEMBER_NAME_SIZE]) rfl
  have hraw : (cstring (padded.rdropWhile (fun c => decide (c = SPACE)))).1 = name := by
    have hdrop : padded.rdropWhile (fun c => decide (c = SPACE)) = name := by
      rw [← hpad]
      unfold rdropWhile
      rw [reverse_append, dropWhile_append_of_pos (by simp)]
      rcases hr : name.reverse with _ | ⟨c, cs⟩
      · simpa using hr.symm
      · have hc : c ≠ SPACE := by
          apply hn.last
          rw [← head?_reverse, hr]
          rfl
        rw [dropWhile_cons_of_neg (by simpa using hc), ← hr, reverse_reverse]
    rw [hdrop, cstring_eq hn.nozero]
  have hfile : padded ++ (mid ++ (field ++ [96, 10])) ++ rest ≠ [] := by
    intro he
    have := congrArg length (append_eq_nil_iff.mp he).1
    rw [hlen] at this
    simp [HEADER_SIZE] at this
  unfold readHeader
  rw [if_neg hfile, if_neg (by rw [length_append, hlen]; omega)]
  simp only [htake, hraw, hmagic, hsize, parseDecimal_putDecimal (by omega) hfield]
  rw [← hlen, drop_left]
  simp

/-! ### Data -/

/-- Data and padding that were written are read back. -/
theorem readData_append (data rest : Bytes) :
    readData data.length
      (data ++ (if data.length % 2 = 1 then [NEWLINE] else []) ++ rest) = some (data, rest) := by
  unfold readData
  rw [if_neg (by simp only [length_append]; omega), append_assoc, drop_left,
    take_left]
  unfold takePad
  by_cases h : data.length % 2 = 0
  · rw [if_pos h, if_neg (by omega)]
    simp
  · rw [if_neg h, if_pos (by omega)]
    simp

theorem skipData_append (hlen : data.length < 10 ^ 10) (rest : Bytes) :
    skipData data.length
      (data ++ (if data.length % 2 = 1 then [NEWLINE] else []) ++ rest) = some rest := by
  have hmax : LONG_MAX = 9223372036854775807 := rfl
  unfold skipData
  rw [if_neg (by omega)]
  by_cases h : data.length % 2 = 1
  · rw [if_pos h, h, drop_left' (by simp)]
  · rw [if_neg h, append_nil, drop_left' (by omega)]

/-! ### Steps of the reader -/

theorem loadLoop_nil (longnames : Bytes) : loadLoop longnames [] = some [] := by
  rw [loadLoop]
  split
  next => rfl
  next h => simp [readHeader] at h
  next h => simp [readHeader] at h

theorem loadLoop_bad {longnames file : Bytes} (h : readHeader file = .bad) :
    loadLoop longnames file = none := by
  rw [loadLoop]
  split
  next h' => rw [h] at h'; simp at h'
  next => rfl
  next h' => rw [h] at h'; simp at h'

section

variable {longnames file raw rest : Bytes} {size : Nat} (h : readHeader file = .header raw size rest)

include h

theorem loadLoop_unresolved (hr : resolveLongName raw longnames = none) :
    loadLoop longnames file = none := by
  rw [loadLoop]
  split
  next h' => rw [h] at h'; simp at h'
  next => rfl
  next raw' size' rest' h' =>
    cases h.symm.trans h'
    rw [hr]

theorem loadLoop_index (hr : resolveLongName raw longnames = some (1, none))
    (hs : skipData size rest = some rest') :
    loadLoop longnames file = loadLoop longnames rest' := by
  rw [loadLoop]
  split
  next h' => rw [h] at h'; simp at h'
  next h' => rw [h] at h'; simp at h'
  next raw' size' rest'' h' =>
    cases h.symm.trans h'
    rw [hr]
    simp only [show ¬ (1 : Int) < 0 by decide, show ¬ (1 : Int) = 2 by decide, if_false, if_true]
    split
    next hd => rw [hs] at hd; simp at hd
    next r hd => rw [hs] at hd; rw [some.inj hd]

theorem loadLoop_table (hr : resolveLongName raw longnames = some (2, none))
    (hd : readData size rest = some (table, rest')) :
    loadLoop longnames file = loadLoop table rest' := by
  rw [loadLoop]
  split
  next h' => rw [h] at h'; simp at h'
  next h' => rw [h] at h'; simp at h'
  next raw' size' rest'' h' =>
    cases h.symm.trans h'
    rw [hr]
    simp only [show ¬ (2 : Int) < 0 by decide, if_false, if_true]
    split
    next hd' => rw [hd] at hd'; simp at hd'
    next t r hd' =>
      cases hd.symm.trans hd'
      rfl

theorem loadLoop_member {name : CString} (hr : resolveLongName raw longnames = some (0, some name))
    (hd : readData size rest = some (data, rest')) :
    loadLoop longnames file = (loadLoop longnames rest').map (⟨some name, data⟩ :: ·) := by
  rw [loadLoop]
  split
  next h' => rw [h] at h'; simp at h'
  next h' => rw [h] at h'; simp at h'
  next raw' size' rest'' h' =>
    cases h.symm.trans h'
    rw [hr]
    simp only [show ¬ (0 : Int) < 0 by decide, show ¬ (0 : Int) = 2 by decide,
      show ¬ (0 : Int) = 1 by decide, show ¬ (3 : Int) ≤ 0 by decide, if_false]
    split
    next hd' => rw [hd] at hd'; simp at hd'
    next t r hd' =>
      cases hd.symm.trans hd'
      rfl

end

/-- A record that was written: its header and, behind it, its data. -/
theorem writeRecord_some (h : writeRecord name data = some record) :
    data.length < 10 ^ 10 ∧ ∃ header, writeHeader name data.length = some header ∧
      record = header ++ (data ++ if data.length % 2 = 1 then [NEWLINE] else []) := by
  unfold writeRecord at h
  obtain ⟨header, hh, rfl⟩ := map_eq_some_iff.mp h
  obtain ⟨field, mid, hf, -⟩ := writeHeader_some hh
  exact ⟨(putDecimal_some hf).2.1, header, hh, rfl⟩

/-- The header of a record that was written, as the reader sees it. -/
theorem readHeader_record (hn : HeaderName name)
    (h : writeRecord name data = some record) (rest : Bytes) :
    readHeader (record ++ rest) =
      if name.any isControl then .bad
      else .header name data.length
        (data ++ (if data.length % 2 = 1 then [NEWLINE] else []) ++ rest) := by
  obtain ⟨-, header, hh, rfl⟩ := writeRecord_some h
  have := readHeader_writeHeader hn hh
    ((data ++ if data.length % 2 = 1 then [NEWLINE] else []) ++ rest)
  rwa [← append_assoc] at this

theorem loadLoop_writeIndex {index : Bytes} (h : writeRecord [SLASH] index = some record)
    (longnames rest : Bytes) : loadLoop longnames (record ++ rest) = loadLoop longnames rest := by
  have hn : HeaderName [SLASH] := ⟨by decide, by decide, by simp [SLASH, SPACE]⟩
  have hh := readHeader_record hn h rest
  rw [if_neg (by decide)] at hh
  exact loadLoop_index hh (by simp [resolveLongName, SLASH]) (skipData_append (writeRecord_some h).1 rest)

/-- The reader takes the table of long names. -/
theorem loadLoop_writeTable
    (h : writeRecord [SLASH, SLASH] table = some record) (longnames rest : Bytes) :
    loadLoop longnames (record ++ rest) = loadLoop table rest := by
  have hn : HeaderName [SLASH, SLASH] := ⟨by decide, by decide, by simp [SLASH, SPACE]⟩
  have hh := readHeader_record hn h rest
  rw [if_neg (by decide)] at hh
  exact loadLoop_table hh (by simp [resolveLongName, SLASH]) (readData_append table rest)

/-! ### Members -/

/-- A file's name: not empty, without slashes. -/
structure FileName (name : CString) : Prop where
  ne_nil : name.1 ≠ []
  noslash : SLASH ∉ name.1

/-- What the reader makes of a member: a short name must not be `#1` or hold a control character,
    a long one is cut at its first newline. -/
def readBack (b : Blob) : Option Blob :=
  if b.name.1.length ≤ MEMBER_NAME_MAX then
    if b.name.1 = [35, 49] ∨ b.name.1.any isControl then none else some b
  else
    let name := b.name.1.takeWhile (· ≠ NEWLINE)
    if name = [] then none else some ⟨cstring name, b.data⟩

/-- A long name lies in the table at its offset, a short one has none. -/
def Placed (table : Bytes) (b : Blob) (longOffset : Option Nat) : Prop :=
  match longOffset with
  | none => b.name.1.length ≤ MEMBER_NAME_MAX
  | some o => MEMBER_NAME_MAX < b.name.1.length ∧ At table o (b.name.1 ++ [SLASH, NEWLINE])

/-- The names in the table stay where they are when more are appended. -/
theorem layoutLong_some {t : Bytes} {offs : List (Option Nat)}
    (h : layoutLong table bs = some (t, offs)) :
    (∃ more, t = table ++ more) ∧ List.Forall₂ (Placed t) bs offs := by
  induction bs generalizing table offs with
  | nil =>
    cases h
    exact ⟨⟨[], by simp⟩, List.Forall₂.nil⟩
  | cons b bs ih =>
    unfold layoutLong at h
    split at h
    next hlong =>
      split at h
      · simp at h
      · obtain ⟨r, hr, he⟩ := map_eq_some_iff.mp h
        cases he
        obtain ⟨⟨more, hmore⟩, hall⟩ := ih hr
        refine ⟨⟨(b.name.1 ++ [SLASH, NEWLINE]) ++ more, by rw [hmore, append_assoc]⟩,
          List.Forall₂.cons ⟨hlong, ?_⟩ hall⟩
        rw [hmore, append_assoc]
        exact At.mid _ _ _
    next hshort =>
      obtain ⟨r, hr, he⟩ := map_eq_some_iff.mp h
      cases he
      obtain ⟨hmore, hall⟩ := ih hr
      exact ⟨hmore, List.Forall₂.cons (Nat.not_lt.mp hshort) hall⟩

theorem headerName_short (name : CString) (h : name.1.length ≤ MEMBER_NAME_MAX) :
    HeaderName (name.1 ++ [SLASH]) := by
  refine ⟨?_, ?_, ?_⟩
  · rw [length_append]
    exact Nat.succ_le_succ h
  · rw [mem_append, not_or]
    exact ⟨name.2, by decide⟩
  · intro c hc
    rw [getLast?_append_of_ne_nil _ (by simp)] at hc
    obtain rfl : SLASH = c := by simpa using hc
    decide

theorem headerName_long {o : Nat} (h : (decimal o).length + 1 ≤ 16) :
    HeaderName (SLASH :: decimal o) := by
  refine ⟨h, ?_, ?_⟩
  · rw [mem_cons, not_or]
    refine ⟨by decide, fun h0 => ?_⟩
    have hz : (0 : UInt8).toNat = 0 := rfl
    have := digit_of_mem_decimal h0
    omega
  · intro c hc
    have hmem := mem_of_mem_getLast? hc
    rcases mem_cons.mp hmem with rfl | hmem
    · decide
    · exact space_ne_digit hmem

theorem isControl_digit : (SLASH :: decimal n).any isControl = false := by
  rw [List.any_eq_false]
  intro c hc
  rcases List.mem_cons.mp hc with rfl | hc
  · decide
  · have hd := digit_of_mem_decimal hc
    have h32 : (32 : UInt8).toNat = 32 := rfl
    have hlt : ¬ c < 32 := by
      rw [UInt8.lt_iff_toNat_lt]
      omega
    simp [isControl, hlt]

/-- A short name, as the reader resolves it. -/
theorem resolveLongName_short {name : CString} (hf : FileName name) (longnames : Bytes) :
    resolveLongName (name.1 ++ [SLASH]) longnames =
      if name.1 = [35, 49] then none else some (0, some name) := by
  obtain ⟨c, cs, hc⟩ := exists_cons_of_ne_nil hf.ne_nil
  have hslash : c ≠ SLASH := by
    rintro rfl
    exact hf.noslash (by simp [hc])
  -- the three characters of a BSD name include the slash behind the name
  have hbsd : (name.1 ++ [SLASH]).take 3 = [35, 49, 47] ↔ name.1 = [35, 49] := by
    constructor
    · intro h
      have hns := hf.noslash
      rcases hn : name.1 with _ | ⟨a, _ | ⟨b, _ | ⟨d, ds⟩⟩⟩
      · exact absurd hn hf.ne_nil
      · rw [hn] at h; simp at h
      · rw [hn] at h
        simp only [cons_append, nil_append, take_succ_cons, take_zero,
          cons.injEq] at h
        rw [h.1, h.2.1]
      · rw [hn] at h hns
        simp only [cons_append, take_succ_cons, take_zero] at h
        obtain ⟨-, h⟩ := cons.inj h
        obtain ⟨-, h⟩ := cons.inj h
        cases h
        exact absurd (by simp [SLASH] : SLASH ∈ a :: b :: (47 : UInt8) :: ds) hns
    · intro h
      rw [h]
      rfl
  unfold resolveLongName
  by_cases h1 : name.1 = [35, 49]
  · rw [if_pos (hbsd.mpr h1), if_pos h1, h1]
    rfl
  · rw [if_neg (fun h => h1 (hbsd.mp h)), if_neg h1, if_pos (by simp [hc, hslash])]
    rw [if_pos (by simp)]
    have hname : cstring (name.1 ++ [SLASH]).dropLast = name := by
      apply Subtype.ext
      rw [dropLast_concat]
      exact cstring_eq name.2
    rw [hname]

/-- The scan of the table stops at the slash behind the name, or at a newline inside it. -/
theorem takeWhile_longname {name : CString} (hf : SLASH ∉ name.1) (post : Bytes) :
    (name.1 ++ SLASH :: post).takeWhile (fun c => c ≠ SLASH && c ≠ NEWLINE && c ≠ 0) =
      name.1.takeWhile (· ≠ NEWLINE) := by
  obtain ⟨s, hzero⟩ := name
  induction s with
  | nil => simp
  | cons c cs ih =>
    rw [mem_cons, not_or] at hf hzero
    have hc : (decide (c ≠ SLASH) && decide (c ≠ NEWLINE) && decide (c ≠ 0)) =
        decide (c ≠ NEWLINE) := by
      have h1 : c ≠ SLASH := Ne.symm hf.1
      have h2 : c ≠ 0 := Ne.symm hzero.1
      simp [h1, h2]
    rw [cons_append, takeWhile_cons, takeWhile_cons, hc, ih hzero.2 hf.2]

/-- A long name, as the reader resolves it. -/
theorem resolveLongName_long {name : CString} (hf : FileName name) {longnames : Bytes} {o : Nat}
    (hdigits : (decimal o).length + 1 ≤ 16)
    (hat : At longnames o (name.1 ++ [SLASH, NEWLINE])) :
    resolveLongName (SLASH :: decimal o) longnames =
      if name.1.takeWhile (· ≠ NEWLINE) = [] then none
      else some (0, some (cstring (name.1.takeWhile (· ≠ NEWLINE)))) := by
  have hlimit : o ≤ UINT64_MAX := by
    have h15 : o < 10 ^ 15 := lt_of_length_decimal (by omega)
    have hmax : 10 ^ 15 ≤ UINT64_MAX := by decide
    omega
  have hslash : decimal o ≠ [SLASH] := by
    intro h
    have h47 : SLASH.toNat = 47 := rfl
    have := digit_of_mem_decimal (h ▸ mem_cons_self : SLASH ∈ decimal o)
    omega
  obtain ⟨pre, post, hpre, htable⟩ := hat
  have hstart : longnames.drop o = name.1 ++ SLASH :: (NEWLINE :: post) := by
    subst hpre htable
    simp
  have htake := @takeWhile_longname name hf.noslash (NEWLINE :: post)
  have hshort : (name.1.takeWhile (· ≠ NEWLINE)).length ≤ name.1.length :=
    ( takeWhile_prefix _).length_le
  have hlen : ¬ longnames.length ≤ o := by
    intro h
    rw [drop_eq_nil_of_le h] at hstart
    simp at hstart
  unfold resolveLongName
  rw [if_neg (by simp [SLASH]), if_neg (by simp), if_neg (by simpa using decimal_ne_nil o),
    if_neg (by simpa using hslash), drop_one, tail_cons, parseDecimalText_decimal hlimit]
  simp only [hlen, if_false, hstart, htake]
  have hne : (name.1.takeWhile (· ≠ NEWLINE)).length ≠
      (name.1 ++ SLASH :: (NEWLINE :: post)).length := by
    rw [length_append, length_cons]
    omega
  simp only [hne, false_or]

/-- The reader's step over a member that was written. -/
theorem loadLoop_writeMember {rest : Bytes} {b : Blob} {off : Option Nat}
    (hf : FileName b.name) (hp : Placed table b off) (hh : headerName b off = some name)
    (hr : writeRecord name b.data = some record) :
    loadLoop table (record ++ rest) =
      (readBack b).bind fun b' => (loadLoop table rest).map (b'.loaded :: ·) := by
  rcases off with _ | o
  · -- a short name stands in the header
    have hshort : b.name.1.length ≤ MEMBER_NAME_MAX := hp
    unfold headerName at hh
    rw [if_pos hshort] at hh
    cases hh
    have hheader := readHeader_record (headerName_short b.name hshort) hr rest
    have hany : (b.name.1 ++ [SLASH]).any isControl = b.name.1.any isControl := by
      rw [any_append]
      simp [isControl, SLASH]
    rw [hany] at hheader
    unfold readBack
    rw [if_pos hshort]
    by_cases hctl : b.name.1.any isControl = true
    · rw [if_pos hctl] at hheader
      rw [loadLoop_bad hheader, if_pos (Or.inr hctl)]
      rfl
    · rw [if_neg hctl] at hheader
      have hres := resolveLongName_short hf table
      by_cases hbsd : b.name.1 = [35, 49]
      · rw [if_pos hbsd] at hres
        rw [loadLoop_unresolved hheader hres, if_pos (Or.inl hbsd)]
        rfl
      · rw [if_neg hbsd] at hres
        rw [loadLoop_member hheader hres (readData_append b.data rest),
          if_neg (not_or.mpr ⟨hbsd, hctl⟩)]
        rfl
  · -- a long one is in the table
    obtain ⟨hlong, hat⟩ := hp
    unfold headerName at hh
    rw [if_neg (Nat.not_le.mpr hlong)] at hh
    dsimp only at hh
    split at hh
    · simp at hh
    next hdigits =>
      have hdigits : (decimal o).length + 1 ≤ 16 := Nat.not_lt.mp hdigits
      cases hh
      have hheader := readHeader_record (headerName_long hdigits) hr rest
      rw [if_neg (by rw [isControl_digit]; decide)] at hheader
      have hres := resolveLongName_long hf hdigits hat
      unfold readBack
      rw [if_neg (Nat.not_le.mpr hlong)]
      by_cases hnil : b.name.1.takeWhile (· ≠ NEWLINE) = []
      · rw [if_pos hnil] at hres
        rw [loadLoop_unresolved hheader hres, if_pos hnil]
        rfl
      · rw [if_neg hnil] at hres
        rw [loadLoop_member hheader hres (readData_append b.data rest), if_neg hnil]
        rfl

/-- The reader over all members. -/
theorem loadLoop_writeMembers {offs : List (Option Nat)}
    (hp : List.Forall₂ (Placed table) bs offs) (hf : ∀ b ∈ bs, FileName b.name) {out : Bytes}
    (h : writeMembers bs offs = some out) :
    loadLoop table out = (bs.mapM readBack).map (·.map Blob.loaded) := by
  induction hp generalizing out with
  | nil =>
    cases h
    exact loadLoop_nil table
  | @cons b off bs offs hb _ ih =>
    simp only [writeMembers, bind_eq_bind, bind_eq_some_iff, head?_cons,
      getD_some, tail_cons] at h
    obtain ⟨name, hname, record, hrec, rest, hrest, he⟩ := h
    cases he
    rw [loadLoop_writeMember (hf b mem_cons_self) hb hname hrec,
      ih (fun x hx => hf x (mem_cons_of_mem _ hx)) hrest, mapM_cons]
    rcases readBack b with _ | b'
    · rfl
    · rcases bs.mapM readBack with _ | bs' <;> rfl

/-- The file that `prepare_archive` and `write_archive` make of a collection, read again. -/
theorem loadArchive_writeArchive {collect : Bytes → Option (List CString)}
    {layout : ArLayout} {file : Bytes} (hf : ∀ b ∈ bs, FileName b.name)
    (hl : prepareArchive collect bs = some layout) (hw : writeArchive bs layout = some file) :
    loadArchive file = (bs.mapM readBack).map (·.map Blob.loaded) := by
  have hlong : layoutLong [] bs = some (layout.longnames, layout.longOffsets) := by
    unfold prepareArchive at hl
    obtain ⟨found, -, hl⟩ := bind_eq_some_iff.mp hl
    obtain ⟨⟨longnames, longOffsets⟩, hlong, hl⟩ := bind_eq_some_iff.mp hl
    rw [ite_none_left_eq_some, ite_none_left_eq_some] at hl
    obtain ⟨offsets, -, hl⟩ := bind_eq_some_iff.mp hl.2.2
    obtain ⟨index, -, rfl⟩ := map_eq_some_iff.mp hl
    exact hlong
  have hplaced := (layoutLong_some hlong).2
  unfold writeArchive at hw
  simp only [bind_eq_bind, bind_eq_some_iff] at hw
  obtain ⟨index, hindex, longnames, htable, members, hmembers, he⟩ := hw
  cases he
  have hmagic : (MAGIC ++ (index ++ (longnames ++ members))).take 8 = MAGIC :=
    take_left' rfl
  have hdrop : (MAGIC ++ (index ++ (longnames ++ members))).drop 8 =
      index ++ (longnames ++ members) := drop_left' rfl
  unfold loadArchive
  rw [if_neg (not_not.mpr hmagic), hdrop, loadLoop_writeIndex hindex,
    ← loadLoop_writeMembers hplaced hf hmembers]
  unfold writeTable at htable
  split at htable
  next hnil =>
    cases htable
    rw [hnil, nil_append]
  next => exact loadLoop_writeTable htable [] members

end MeuOS.Ar
