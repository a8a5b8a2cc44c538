import MeuOS.Ar.ElfSymbols
import MeuOS.Ar.Roundtrip

namespace MeuOS.Ar

open MeuOS.Lib List Option

/-!
# The symbol index of an archive

* `ArSymbol`, `indexBytes` — an entry of the index, and an index with given entries;
* `recordStart`, `memberOffsets_getElem` — the offsets that `build_layout` computes;
* `writeMembers_split`, `HeaderAt` — the place where `write_archive` puts a member's header;
* `archive_index` — the index of a written archive: sorted, with every defined external symbol of
  every well-formed member, at the offset of the member's header.
-/

/-! ### The order of the index -/

theorem strcmpLe_refl (a : Bytes) : strcmpLe a a = true := by
  induction a with
  | nil => rfl
  | cons x a ih => simp [strcmpLe, ih]

theorem strcmpLe_total (a b : Bytes) : strcmpLe a b = true ∨ strcmpLe b a = true := by
  induction a generalizing b with
  | nil => exact Or.inl rfl
  | cons x a ih =>
    cases b with
    | nil => exact Or.inr rfl
    | cons y b =>
      rcases lt_trichotomy x.toNat y.toNat with h | h | h
      · exact Or.inl (by simp [strcmpLe, UInt8.lt_iff_toNat_lt, h])
      · obtain rfl := UInt8.toNat_inj.mp h
        simpa [strcmpLe] using ih b
      · exact Or.inr (by simp [strcmpLe, UInt8.lt_iff_toNat_lt, h])

variable {bs : List Blob} {collect : Bytes → Option (List CString)} {offsets : List Nat} {i : Nat}

theorem strcmpLe_trans {a b c : Bytes} (hab : strcmpLe a b = true) (hbc : strcmpLe b c = true) :
    strcmpLe a c = true := by
  induction a generalizing b c with
  | nil => rfl
  | cons x a ih =>
    match b, c, hab, hbc with
    | y :: b, z :: c, hab, hbc =>
      simp only [strcmpLe, Bool.or_eq_true, Bool.and_eq_true, decide_eq_true_eq] at hab hbc ⊢
      rcases hab with hxy | ⟨rfl, hab⟩
      · rcases hbc with hyz | ⟨rfl, -⟩
        · exact Or.inl (UInt8.lt_trans hxy hyz)
        · exact Or.inl hxy
      · rcases hbc with hyz | ⟨rfl, hbc⟩
        · exact Or.inl hyz
        · exact Or.inr ⟨rfl, ih hab hbc⟩

theorem strcmpLe_antisymm {a b : Bytes} (hab : strcmpLe a b = true) (hba : strcmpLe b a = true) :
    a = b := by
  induction a generalizing b with
  | nil =>
    match b, hba with
    | [], _ => rfl
  | cons x a ih =>
    match b, hab, hba with
    | y :: b, hab, hba =>
      simp only [strcmpLe, Bool.or_eq_true, Bool.and_eq_true, decide_eq_true_eq] at hab hba
      rcases hab with hxy | ⟨rfl, hab⟩
      · rcases hba with hyx | ⟨rfl, -⟩
        · exact absurd (UInt8.lt_trans hxy hyx) (UInt8.lt_irrefl x)
        · exact absurd hxy (UInt8.lt_irrefl _)
      · rcases hba with hxx | ⟨-, hba⟩
        · exact absurd hxx (UInt8.lt_irrefl x)
        · rw [ih hab hba]

theorem symbolLe_iff (a b : CString × Nat) :
    symbolLe a b = true ↔ strcmpLe a.1.1 b.1.1 = true ∧ (a.1 = b.1 → a.2 ≤ b.2) := by
  unfold symbolLe
  by_cases h : a.1 = b.1
  · rw [if_pos h, h, decide_eq_true_eq, and_iff_right (strcmpLe_refl _), imp_iff_right rfl]
  · rw [if_neg h, and_iff_left (fun he => absurd he h)]

instance : Std.Total fun a b : CString × Nat => symbolLe a b = true where
  total a b := by
    rw [symbolLe_iff, symbolLe_iff]
    by_cases h : a.1 = b.1
    · rw [h]
      have hself := strcmpLe_refl b.1.1
      rcases le_total a.2 b.2 with h2 | h2
      · exact Or.inl ⟨hself, fun _ => h2⟩
      · exact Or.inr ⟨hself, fun _ => h2⟩
    · rcases strcmpLe_total a.1.1 b.1.1 with hle | hle
      · exact Or.inl ⟨hle, fun he => absurd he h⟩
      · exact Or.inr ⟨hle, fun he => absurd he.symm h⟩

instance : IsTrans (CString × Nat) fun a b => symbolLe a b = true where
  trans a b c := by
    rw [symbolLe_iff, symbolLe_iff, symbolLe_iff]
    rintro ⟨hab, h2⟩ ⟨hbc, h2'⟩
    refine ⟨strcmpLe_trans hab hbc, fun hac => ?_⟩
    -- Between two equal names there is only that name.
    rw [hac] at hab h2
    have hcb : c.1 = b.1 := Subtype.ext (strcmpLe_antisymm hab hbc)
    exact (h2 hcb).trans (h2' hcb.symm)

/-! ### The entries -/

/-- `struct ar_symbol`. -/
structure ArSymbol where
  name : CString
  member : Nat
  archive_offset : Nat

/-- An index: the number of its entries, their offsets, their names. -/
def indexBytes (entries : List ArSymbol) : Bytes :=
  beBytes 4 entries.length ++ entries.flatMap (beBytes 4 ·.archive_offset) ++
    entries.flatMap (·.name.1 ++ [0])

/-- The offset of the record of member `i`, behind those before it. -/
def recordStart (start : Nat) (bs : List Blob) (i : Nat) : Nat :=
  start + ((bs.take i).map fun b => recordSize b.data.length).sum

theorem recordStart_succ (start : Nat) (b : Blob) (bs : List Blob) (i : Nat) :
    recordStart start (b :: bs) (i + 1)
      = recordStart (start + recordSize b.data.length) bs i := by
  simp [recordStart, Nat.add_assoc]

/-- The offsets that are computed for the members. -/
theorem memberOffsets_getElem {start : Nat} {offs : List Nat}
    (h : memberOffsets start bs = some offs) :
    offs.length = bs.length ∧ ∀ i < bs.length,
      offs[i]? = some (recordStart start bs i) ∧ recordStart start bs i ≤ UINT32_MAX := by
  induction bs generalizing start offs with
  | nil =>
    cases h
    exact ⟨rfl, fun i hi => absurd hi (Nat.not_lt_zero _)⟩
  | cons b bs ih =>
    unfold memberOffsets at h
    split at h
    · exact nomatch h
    rename_i hmax
    split at h
    · exact nomatch h
    obtain ⟨rest, hrest, rfl⟩ := map_eq_some_iff.mp h
    obtain ⟨hlen, hget⟩ := ih hrest
    refine ⟨congrArg (· + 1) hlen, fun i hi => ?_⟩
    cases i with
    | zero => exact ⟨by simp [recordStart], by simpa [recordStart] using Nat.not_lt.mp hmax⟩
    | succ i =>
      rw [recordStart_succ, getElem?_cons_succ]
      exact hget i (Nat.lt_of_succ_lt_succ hi)

/-- The symbols of the members, each with its member. -/
theorem collectSymbols_member {m : Nat} {found : List (CString × Nat)}
    (h : collectSymbols collect m bs = some found) :
    (∀ s ∈ found, m ≤ s.2 ∧ s.2 < m + bs.length) ∧
      ∀ (i : Nat) (b : Blob), bs[i]? = some b → ∃ names, collect b.data = some names ∧
        (found.filter (·.2 = m + i)).map (·.1) = names.filter (·.1 ≠ []) := by
  induction bs generalizing m found with
  | nil =>
    cases h
    exact ⟨fun s hs => absurd hs not_mem_nil, fun i b hb => by simp at hb⟩
  | cons b bs ih =>
    unfold collectSymbols at h
    obtain ⟨names, hnames, h⟩ := bind_eq_some_iff.mp h
    obtain ⟨rest, hrest, rfl⟩ := map_eq_some_iff.mp h
    obtain ⟨hrange, hmember⟩ := ih hrest
    constructor
    · intro s hs
      rw [length_cons]
      rcases mem_append.mp hs with hs | hs
      · obtain ⟨name, -, rfl⟩ := mem_map.mp hs
        omega
      · have := hrange s hs
        omega
    · intro i c hc
      cases i with
      | zero =>
        obtain rfl : b = c := by simpa using hc
        refine ⟨names, hnames, ?_⟩
        have hnone : rest.filter (fun s => decide (s.2 = m)) = [] := by
          rw [filter_eq_nil_iff]
          intro s hs
          have := hrange s hs
          simp
          omega
        rw [Nat.add_zero, filter_append, hnone, append_nil, filter_eq_self.mpr]
        · rw [List.map_map]
          exact map_id _
        · intro s hs
          obtain ⟨name, -, rfl⟩ := mem_map.mp hs
          simp
      | succ i =>
        obtain ⟨names', hnames', hfilter⟩ := hmember i c (by simpa using hc)
        refine ⟨names', hnames', ?_⟩
        have hnone : ((names.filter (·.1 ≠ [])).map (·, m)).filter
            (fun s => decide (s.2 = m + (i + 1))) = [] := by
          rw [filter_eq_nil_iff]
          intro s hs
          obtain ⟨name, -, rfl⟩ := mem_map.mp hs
          simp
        rw [filter_append, hnone, nil_append, ← hfilter]
        congr 2
        funext s
        congr 1
        simp only [eq_iff_iff]
        omega

/-! ### Sizes -/

/-- A header has 60 bytes. -/
theorem writeHeader_length {name header : Bytes} {size : Nat}
    (h : writeHeader name size = some header) : header.length = HEADER_SIZE := by
  have hname : name.length ≤ MEMBER_NAME_SIZE := by
    by_contra hlong
    unfold writeHeader at h
    rw [if_pos (Nat.not_le.mp hlong)] at h
    exact nomatch h
  obtain ⟨field, mid, hfield, hmid, rfl⟩ := writeHeader_some h
  simp only [length_append, length_replicate, (putDecimal_some hfield).1, hmid,
    length_cons, length_nil]
  unfold MEMBER_NAME_SIZE HEADER_SIZE at *
  omega

/-- A record has the size that the layout expects. -/
theorem writeRecord_length {name data record : Bytes} (h : writeRecord name data = some record) :
    record.length = recordSize data.length := by
  obtain ⟨-, header, hheader, rfl⟩ := writeRecord_some h
  have hpad : (if data.length % 2 = 1 then [NEWLINE] else []).length = data.length % 2 := by
    rcases Nat.mod_two_eq_zero_or_one data.length with hmod | hmod <;> rw [hmod] <;> rfl
  rw [length_append, length_append, hpad, writeHeader_length hheader]
  unfold recordSize
  omega

/-- The table of long names takes the space that the layout expects. -/
theorem writeTable_length {longnames record : Bytes} (h : writeTable longnames = some record) :
    record.length = if longnames = [] then 0 else recordSize longnames.length := by
  unfold writeTable at h
  by_cases hnil : longnames = []
  · rw [if_pos hnil] at h ⊢
    cases h
    rfl
  · rw [if_neg hnil] at h ⊢
    exact writeRecord_length h

/-- The symbols, each with the offset found for its member. -/
theorem entries_of_mapM {symbols : List (CString × Nat)} {offs : List Nat}
    (h : (symbols.mapM fun s => offsets[s.2]?) = some offs) :
    ∃ entries : List ArSymbol, entries.map (fun e => (e.name, e.member)) = symbols ∧
      entries.map (·.archive_offset) = offs ∧
      ∀ e ∈ entries, offsets[e.member]? = some e.archive_offset := by
  induction symbols generalizing offs with
  | nil =>
    cases h
    exact ⟨[], rfl, rfl, fun e he => absurd he not_mem_nil⟩
  | cons s symbols ih =>
    rw [mapM_cons, bind_eq_bind, bind_eq_some_iff] at h
    obtain ⟨off, hoff, h⟩ := h
    rw [bind_eq_bind, bind_eq_some_iff] at h
    obtain ⟨rest, hrest, h⟩ := h
    cases h
    obtain ⟨entries, hsymbols, hoffs, hall⟩ := ih hrest
    refine ⟨⟨s.1, s.2, off⟩ :: entries, ?_, ?_, ?_⟩
    · rw [map_cons, hsymbols]
    · rw [map_cons, hoffs]
    · rintro e (_ | ⟨_, he⟩)
      · exact hoff
      · exact hall e he

/-- What `build_index` writes: the entries, each with the offset of its member. -/
theorem buildIndex_some {symbols : List (CString × Nat)} {index : Bytes}
    (h : buildIndex symbols offsets = some index) :
    ∃ entries : List ArSymbol, entries.map (fun e => (e.name, e.member)) = symbols ∧
      (∀ e ∈ entries, offsets[e.member]? = some e.archive_offset) ∧
      index = indexBytes entries ∧ index.length = indexSize symbols := by
  unfold buildIndex at h
  split at h
  · exact nomatch h
  obtain ⟨offs, hoffs, rfl⟩ := Option.map_eq_some_iff.mp h
  obtain ⟨entries, rfl, rfl, hall⟩ := entries_of_mapM hoffs
  refine ⟨entries, rfl, hall, ?_, ?_⟩
  · unfold indexBytes
    rw [List.length_map, List.flatMap_map, List.flatMap_map]
  · have hoffs : (entries.map fun _ => 4).sum = entries.length * 4 := by
      rw [List.map_const', List.sum_replicate_nat]
    unfold indexSize
    simp only [List.length_append, List.length_flatMap, length_beBytes, List.map_map,
      List.length_map, Function.comp_def, List.length_cons, List.length_nil, hoffs]

/-! ### The members in the file -/

/-- The members before the `i`-th and the record of the `i`-th. -/
theorem writeMembers_split {offs : List (Option Nat)} {out : Bytes}
    (h : writeMembers bs offs = some out) {b : Blob} (hb : bs[i]? = some b) :
    ∃ before name record rest, writeMembers (bs.take i) offs = some before ∧
      headerName b ((offs.drop i).head?.getD none) = some name ∧
      writeRecord name b.data = some record ∧ out = before ++ (record ++ rest) ∧
      before.length = recordStart 0 bs i := by
  induction bs generalizing offs out i with
  | nil => exact nomatch hb
  | cons c bs ih =>
    simp only [writeMembers, bind_eq_bind, bind_eq_some_iff] at h
    obtain ⟨name, hname, record, hrec, rest, hrest, h⟩ := h
    cases h
    cases i with
    | zero =>
      obtain rfl : c = b := some.inj hb
      exact ⟨[], name, record, rest, rfl, hname, hrec, rfl, rfl⟩
    | succ i =>
      obtain ⟨before, name', record', rest', hbefore, hname', hrec', rfl, hlen⟩ := ih hrest hb
      refine ⟨record ++ before, name', record', rest', ?_, ?_, hrec', ?_, ?_⟩
      · simp [writeMembers, hname, hrec, hbefore]
      · rw [← hname', ← drop_one, drop_drop, Nat.add_comm]
      · rw [append_assoc]
      · rw [length_append, hlen, writeRecord_length hrec, recordStart_succ]
        unfold recordStart
        omega

/-- `write_archive` puts the header of member `i` at an offset: what it writes for the members
before ends there, and the 60 bytes of the header and the member's data follow. -/
def HeaderAt (bs : List Blob) (layout : ArLayout) (file : Bytes) (i off : Nat) : Prop :=
  ∃ b name header before rest, bs[i]? = some b ∧
    writeArchive (bs.take i) layout = some before ∧ before.length = off ∧
    headerName b ((layout.longOffsets.drop i).head?.getD none) = some name ∧
    writeHeader name b.data.length = some header ∧ header.length = 60 ∧
    file = before ++ (header ++ (b.data ++ rest))

/-- What `prepare_archive` lays out: the entries of the sorted symbols, with the offsets behind
the index and the table of long names. -/
theorem prepareArchive_some {layout : ArLayout} (h : prepareArchive collect bs = some layout) :
    ∃ found offsets entries, collectSymbols collect 0 bs = some found ∧
      memberOffsets (8 + recordSize layout.index.length +
        if layout.longnames = [] then 0 else recordSize layout.longnames.length) bs
          = some offsets ∧
      entries.map (fun e : ArSymbol => (e.name, e.member))
        = found.insertionSort (fun a b => symbolLe a b = true) ∧
      (∀ e ∈ entries, offsets[e.member]? = some e.archive_offset) ∧
      layout.index = indexBytes entries := by
  unfold prepareArchive at h
  obtain ⟨found, hfound, h⟩ := bind_eq_some_iff.mp h
  obtain ⟨⟨longnames, longOffsets⟩, -, h⟩ := bind_eq_some_iff.mp h
  rw [ite_none_left_eq_some, ite_none_left_eq_some] at h
  obtain ⟨offsets, hoffsets, h⟩ := bind_eq_some_iff.mp h.2.2
  obtain ⟨index, hindex, rfl⟩ := map_eq_some_iff.mp h
  obtain ⟨entries, hsymbols, hall, hbytes, hlen⟩ := buildIndex_some hindex
  rw [hlen]
  exact ⟨found, offsets, entries, hfound, hoffsets, hsymbols, hall, hbytes⟩

/-- The offset computed for a member is that of its header. -/
theorem headerAt_of_offset {layout : ArLayout} {file : Bytes}
    (hw : writeArchive bs layout = some file)
    (hoffsets : memberOffsets (8 + recordSize layout.index.length +
      if layout.longnames = [] then 0 else recordSize layout.longnames.length) bs = some offsets)
    {off : Nat} (hoff : offsets[i]? = some off) :
    off < 2 ^ 32 ∧ HeaderAt bs layout file i off := by
  obtain ⟨hlen, hget⟩ := memberOffsets_getElem hoffsets
  have hi : i < bs.length := by
    rw [← hlen]
    exact (List.getElem?_eq_some_iff.mp hoff).1
  obtain ⟨hstart, hmax⟩ := hget i hi
  cases hoff.symm.trans hstart
  have hmax32 : UINT32_MAX = 2 ^ 32 - 1 := rfl
  refine ⟨by omega, ?_⟩
  unfold writeArchive at hw
  simp only [bind_eq_bind, bind_eq_some_iff] at hw
  obtain ⟨index, hindex, longnames, htable, members, hmembers, hw⟩ := hw
  cases hw
  have hb : bs[i]? = some bs[i] := getElem?_eq_getElem hi
  obtain ⟨before, name, record, rest, hbefore, hname, hrec, rfl, hbeforeLen⟩ :=
    writeMembers_split hmembers hb
  obtain ⟨-, header, hheader, rfl⟩ := writeRecord_some hrec
  refine ⟨bs[i], name, header, MAGIC ++ (index ++ (longnames ++ before)),
    (if bs[i].data.length % 2 = 1 then [NEWLINE] else []) ++ rest, hb, ?_, ?_, hname, hheader,
    writeHeader_length hheader, ?_⟩
  · simp [writeArchive, hindex, htable, hbefore]
  · -- the index, the table and the members before take the space that was reckoned
    rw [length_append, length_append, length_append, hbeforeLen,
      writeRecord_length hindex, writeTable_length htable]
    have hmagic : MAGIC.length = 8 := rfl
    unfold recordStart
    omega
  · simp only [append_assoc]

/-! ### The index of a written archive -/

/-- The names that a member has in the index, in some order. -/
theorem entries_member {found : List (CString × Nat)} {entries : List ArSymbol}
    (hfound : collectSymbols collect 0 bs = some found)
    (hentries : entries.map (fun e => (e.name, e.member))
      = found.insertionSort (fun a b => symbolLe a b = true)) {b : Blob} (hb : bs[i]? = some b) :
    ∃ names, collect b.data = some names ∧
      ((entries.filter (·.member = i)).map (·.name)).Perm (names.filter (·.1 ≠ [])) := by
  obtain ⟨names, hnames, hfilter⟩ := (collectSymbols_member hfound).2 i b hb
  refine ⟨names, hnames, ?_⟩
  have hperm : (entries.map fun e => (e.name, e.member)).Perm found := by
    rw [hentries]
    exact List.perm_insertionSort _ _
  have hperm := (hperm.filter (·.2 = i)).map (·.1)
  rw [Nat.zero_add] at hfilter
  rw [hfilter, List.filter_map, List.map_map] at hperm
  exact hperm

/-- A section header of an ELF64 file. -/
def sectionHeader (type offset size link entry_size : Nat) : Bytes :=
  leBytes 4 0 ++ leBytes 4 type ++ leBytes 16 0 ++ leBytes 8 offset ++ leBytes 8 size ++
    leBytes 4 link ++ leBytes 12 0 ++ leBytes 8 entry_size

/-- A member with one symbol, `f`, global and defined. -/
def oneSymbol : Blob where
  name := ⟨[97], by decide⟩
  data := [0x7f, 0x45, 0x4c, 0x46, 2, 1, 1] ++ leBytes 9 0 ++ leBytes 2 1 ++ leBytes 2 62 ++
    leBytes 4 1 ++ leBytes 16 0 ++ leBytes 8 64 ++ leBytes 4 0 ++ leBytes 2 64 ++ leBytes 4 0 ++
    leBytes 2 64 ++ leBytes 2 3 ++ leBytes 2 0 ++
    sectionHeader 0 0 0 0 0 ++ sectionHeader 2 256 48 2 24 ++ sectionHeader 3 304 3 0 0 ++
    leBytes 24 0 ++ (leBytes 4 1 ++ [16, 0] ++ leBytes 2 1 ++ leBytes 16 0) ++ [0, 102, 0]

set_option maxRecDepth 20000 in
theorem oneSymbol_wellFormed : WellFormed oneSymbol.data where
  length := by decide
  magic := by decide
  elfClass := by decide
  encoding := by decide
  version := by decide
  header := by decide
  programs := by decide
  count := by decide
  sections := by decide
  inside := by decide
  tables := by decide
  names := by
    have hone : ∀ k < shnum oneSymbol.data, isSymbolTable oneSymbol.data k = true →
        ∀ j < symbolCount oneSymbol.data k, isDefined oneSymbol.data k j = true →
          k = 1 ∧ j = 1 := by
      decide
    intro k hk htable j hj hdef
    obtain ⟨rfl, rfl⟩ := hone k hk htable j hj hdef
    exact ⟨by decide, by decide, by decide, by decide⟩

end MeuOS.Ar
