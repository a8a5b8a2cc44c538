import MeuOS.Lib.RecordWalk
import MeuOS.Ld.Dynamic

namespace MeuOS.Ld

open MeuOS.Lib List

/-!
# Program headers (`elfout.c`) and the room of `.dynamic` (`dynamic.c`)

`write_executable` writes the number of program headers into the ELF header before it writes them
one by one, and `build_dynamic_tables` reserves the entries of `.dynamic` that
`fill_dynamic_addresses` writes after layout.

* `ensureDynamicSection`, `ensurePieSection` — groups of an `ET_DYN` that are there from the start;
* `ehRecord`, `ehFrameHdr` — the size of `.eh_frame_hdr`;
* `phnum` — the number in the ELF header;
* `programHeaders` — the headers written;
* `dynamicTags_length_le_iff` — when the entries of `.dynamic` have room;
* `header_counts_iff` — when both counts match.
-/

/-! ### Groups of an `ET_DYN` -/

/-- `ensure_dynamic_section`. -/
def ensureDynamicSection (c : DynContext) (s : GroupData) : GroupData :=
  if !c.dyn then s
  else
    let (s, k) := s.get ".dynamic" SHT_DYNAMIC (SHF_ALLOC ||| SHF_WRITE) 8
    s.setRank k 2

/-- `ensure_pie_section`. -/
def ensurePieSection (c : DynContext) (dynamic_linker : Option String) (s : GroupData) :
    Checked String GroupData :=
  if !c.pie then .ok s
  else do
    let (s, k) := s.get ".interp" SHT_PROGBITS SHF_ALLOC 1
    let (s, _) ← (s.setRank k 1).append k
      (stringBytes (dynamic_linker.getD "/lib/ld-meuos.so.1")) 1
    return s

/-- The lines of `apply_link_script`: each sets the rank of a group. -/
def scriptRanks (lines : List (String × Int)) (groups : List LdGroup) : List LdGroup :=
  lines.foldl
    (fun groups line =>
      match findGroup groups line.1 with
      | none => groups
      | some k => groups.modify k fun g => { g with rank := line.2 })
    groups

/-! ### The context of `write_executable` -/

/-- What the headers are written from. -/
structure OutContext extends DynContext where
  eh_frame_hdr : Bool
  build_id : Bool
  ehdr_size : Nat
  tls : TlsContext
  data : Nat → Bytes

/-- `ctx->groups`. -/
def OutContext.groups (o : OutContext) : List LdGroup := o.tls.groups

/-- `base_addr`. -/
def OutContext.base (o : OutContext) : Nat := if o.shared then 0 else LD_BASE

/-- The end of a group in the file. -/
def LdGroup.fileEnd (g : LdGroup) : Nat := add64 g.file_offset g.size

/-- `rx_end`. -/
def rxEnd (groups : List LdGroup) : Nat :=
  groups.foldl
    (fun rx_end g =>
      if g.rank < 2 then
        if g.nobits then rx_end else if g.fileEnd > rx_end then g.fileEnd else rx_end
      else rx_end)
    LD_PAGE

/-- `file_end` behind the first loop over the groups. -/
def fileEnd (groups : List LdGroup) : Nat :=
  groups.foldl
    (fun file_end g => if g.alloc && !g.nobits && file_end < g.fileEnd then g.fileEnd else file_end)
    LD_PAGE

/-- `memory_end`, in two loops over the groups. -/
def memoryEnd (groups : List LdGroup) : Nat :=
  let memory_end := groups.foldl
    (fun memory_end g => if g.alloc && memory_end < g.fileEnd then g.fileEnd else memory_end)
    LD_PAGE
  groups.foldl
    (fun memory_end g =>
      if g.alloc && g.nobits && memory_end < g.fileEnd then g.fileEnd else memory_end)
    memory_end

/-! ### `.eh_frame_hdr` -/

/-- One turn of `eh_parse_fdes`: a record that is no CIE is an FDE.  The bytes behind the two words
    of a record tell the addresses, not the number of records. -/
def ehRecord (data : Bytes) (offset : Nat) : Taken Nat Nat :=
  if offset + 8 > data.length then .done
  else
    let len := leNat (slice data offset 4)
    if len = 0 then .done
    else
      -- `end` is a `uint32_t`
      let stop := (offset + 4 + len) % 2 ^ 32
      if stop > data.length then .done
      else if leNat (slice data (offset + 4) 4) = 0 then .next [] stop
      else .next [offset] stop

/-- The bytes that `build_eh_frame_hdr` reads FDEs from. -/
def ehFrameBytes (o : OutContext) : Option Bytes :=
  match findGroup o.groups ".eh_frame" with
  | none => none
  | some k =>
    match o.groups[k]? with
    | none => none
    | some g => if g.size > 0 ∧ !g.nobits then some (o.data k) else none

/-- `eh_frame_hdr_vma` and `eh_frame_hdr_size`; a loop over records that goes on for more than
    `fuel` turns gives nothing. -/
def ehFrameHdr (fuel : Nat) (o : OutContext) : Option (Nat × Nat) :=
  if !o.eh_frame_hdr then some (0, 0)
  else
    match ehFrameBytes o with
    | none => some (0, 0)
    | some data =>
      (walkRecords (ehRecord data) fuel 0).map fun fdes =>
        (add64 o.base (add64 (fileEnd o.groups) (if o.build_id then 24 else 0)),
          if fdes.length = 0 then 0 else 12 + fdes.length * 8)

/-! ### The number of program headers -/

/-- `if (cond) phnum++`. -/
def one (b : Bool) : Nat := if b then 1 else 0

/-- `phnum`. -/
def phnum (o : OutContext) : Nat :=
  1 + one (memoryEnd o.groups > rxEnd o.groups) + one (o.tls.tls_size ≠ 0) + 1 +
    one o.eh_frame_hdr + (if o.dyn then 2 else 0) + one o.pie +
    one (o.dyn && (hasGroup o.groups ".dynamic" || hasGroup o.groups ".got"))

/-! ### The program headers -/

/-- A program header with its type and its flags. -/
structure ProgramHeader extends Phdr where
  type : Nat
  flags : Nat
  deriving DecidableEq, Repr

/-- `LD_PT_LOAD`. -/
def PT_LOAD : Nat := 1

/-- `MT_PT_DYNAMIC`. -/
def PT_DYNAMIC : Nat := 2

/-- `MT_PT_INTERP`. -/
def PT_INTERP : Nat := 3

/-- `MT_PT_PHDR`. -/
def PT_PHDR : Nat := 6

/-- `LD_PT_TLS`. -/
def PT_TLS : Nat := 7

/-- `MT_PT_GNU_EH_FRAME`. -/
def PT_GNU_EH_FRAME : Nat := 0x6474e550

/-- `MT_PT_GNU_STACK`. -/
def PT_GNU_STACK : Nat := 0x6474e551

/-- `MT_PT_GNU_RELRO`. -/
def PT_GNU_RELRO : Nat := 0x6474e552

/-- `LD_PF_X`. -/
def PF_X : Nat := 1

/-- `LD_PF_W`. -/
def PF_W : Nat := 2

/-- `LD_PF_R`. -/
def PF_R : Nat := 4

/-- The header of the table of program headers. -/
def phdrHeader (o : OutContext) : ProgramHeader :=
  let size := phnum o * (if o.elf64 then 56 else 32)
  ⟨⟨o.ehdr_size, add64 o.base o.ehdr_size, size, size, 8⟩, PT_PHDR, PF_R⟩

/-- The first `PT_LOAD`: code and what is only read. -/
def loadHeader (o : OutContext) : ProgramHeader :=
  let rx_end := rxEnd o.groups
  let size := if rx_end > LD_PAGE then rx_end else LD_PAGE
  ⟨⟨0, o.base, size, size, LD_PAGE⟩, PT_LOAD, PF_R ||| PF_X⟩

/-- The second `PT_LOAD`: what is written. -/
def dataHeader (o : OutContext) (eh_frame_hdr_size : Nat) : ProgramHeader :=
  let rx_end := rxEnd o.groups
  let alloc_file_end :=
    add64 (add64 (fileEnd o.groups) (if o.build_id then 24 else 0)) eh_frame_hdr_size
  let rw_page := alignUp64 rx_end LD_PAGE
  let alloc_end := if rx_end > alloc_file_end then rx_end else alloc_file_end
  ⟨⟨rw_page, add64 o.base rw_page, alloc_end - rw_page, memoryEnd o.groups - rw_page, LD_PAGE⟩,
    PT_LOAD, PF_R ||| PF_W⟩

/-- A header for a group that exists. -/
def groupHeader (groups : List LdGroup) (name : String) (align type flags : Nat) :
    List ProgramHeader :=
  match (findGroup groups name).bind (groups[·]?) with
  | none => []
  | some g => [⟨⟨g.file_offset, g.address, g.size, g.size, align⟩, type, flags⟩]

/-- `relro_start` and `relro_end`. -/
def relroSpan (groups : List LdGroup) : Nat × Nat :=
  let span :=
    match (findGroup groups ".dynamic").bind (groups[·]?) with
    | none => (2 ^ 64 - 1, 0)
    | some g => (g.address, add64 g.address g.size)
  match (findGroup groups ".got").bind (groups[·]?) with
  | none => span
  | some g =>
    let got_end := add64 g.address g.size
    (if g.address < span.1 then g.address else span.1,
      if got_end > span.2 then got_end else span.2)

/-- The header of what is made read-only behind relocation. -/
def relroHeader (o : OutContext) : ProgramHeader :=
  let mask := 2 ^ 64 - LD_PAGE
  let rstart := (relroSpan o.groups).1 &&& mask
  let rend := add64 (relroSpan o.groups).2 (LD_PAGE - 1) &&& mask
  ⟨⟨sub64 rstart o.base, rstart, sub64 rend rstart, sub64 rend rstart, 1⟩, PT_GNU_RELRO, PF_R⟩

/-- The headers that `write_executable` writes, in order. -/
def programHeaders (o : OutContext) (eh_frame_hdr_vma eh_frame_hdr_size : Nat) :
    List ProgramHeader :=
  (if o.dyn then [phdrHeader o] else []) ++ [loadHeader o] ++
    (if memoryEnd o.groups > rxEnd o.groups then [dataHeader o eh_frame_hdr_size] else []) ++
    (if o.dyn then groupHeader o.groups ".dynamic" 8 PT_DYNAMIC (PF_R ||| PF_W) else []) ++
    (if o.pie then groupHeader o.groups ".interp" 1 PT_INTERP PF_R else []) ++
    (ptTls o.tls).toList.map (fun p => ⟨p, PT_TLS, PF_R⟩) ++
    [⟨⟨0, 0, 0, 0, 16⟩, PT_GNU_STACK, PF_R ||| PF_W⟩] ++
    (if o.eh_frame_hdr ∧ eh_frame_hdr_size > 0 then
      -- the address stands in the place of the offset as well
      [⟨⟨eh_frame_hdr_vma, eh_frame_hdr_vma, eh_frame_hdr_size, eh_frame_hdr_size, 4⟩,
        PT_GNU_EH_FRAME, PF_R⟩]
    else []) ++
    (if o.dyn ∧ (relroSpan o.groups).2 > 0 then [relroHeader o] else [])

/-- The headers part of `write_executable`: the number written and the headers written. -/
def writeHeaders (fuel : Nat) (o : OutContext) : Option (Nat × List ProgramHeader) :=
  (ehFrameHdr fuel o).map fun eh => (phnum o, programHeaders o eh.1 eh.2)

/-! ### Counting headers -/

theorem length_groupHeader (groups : List LdGroup) (name : String) (align type flags : Nat) :
    (groupHeader groups name align type flags).length = one (hasGroup groups name) := by
  unfold groupHeader hasGroup
  cases hk : findGroup groups name with
  | none => rfl
  | some k =>
    obtain ⟨hlt, -⟩ := findGroup_some hk
    simp [getElem?_eq_getElem hlt, one]

theorem length_ptTls (tls : TlsContext) : (ptTls tls).toList.length = one (tls.tls_size ≠ 0) := by
  unfold ptTls
  by_cases hsize : tls.tls_size = 0
  · simp [hsize, one]
  · simp [hsize, one]

/-- Where the groups of an `ET_DYN` exist, the number is too large by the headers that are counted
    for an option and written for a size. -/
theorem length_programHeaders {o : OutContext} (vma size : Nat)
    (hdynamic : o.dyn = true → hasGroup o.groups ".dynamic" = true)
    (hinterp : o.pie = true → hasGroup o.groups ".interp" = true) :
    (programHeaders o vma size).length + one (o.eh_frame_hdr && size == 0) +
      one (o.dyn && (relroSpan o.groups).2 == 0) = phnum o := by
  have htls := length_ptTls o.tls
  have hdyn : (if o.dyn then groupHeader o.groups ".dynamic" 8 PT_DYNAMIC (PF_R ||| PF_W)
      else []).length = one o.dyn := by
    cases h : o.dyn with
    | false => rfl
    | true => rw [if_pos rfl, length_groupHeader, hdynamic h]
  have hpie : (if o.pie then groupHeader o.groups ".interp" 1 PT_INTERP PF_R
      else []).length = one o.pie := by
    cases h : o.pie with
    | false => rfl
    | true => rw [if_pos rfl, length_groupHeader, hinterp h]
  have hload : (if memoryEnd o.groups > rxEnd o.groups then [dataHeader o size]
      else []).length = one (memoryEnd o.groups > rxEnd o.groups) := by
    by_cases h : memoryEnd o.groups > rxEnd o.groups
    · simp [h, one]
    · simp [h, one]
  have heh : (if o.eh_frame_hdr ∧ size > 0 then
      [(⟨⟨vma, vma, size, size, 4⟩, PT_GNU_EH_FRAME, PF_R⟩ : ProgramHeader)] else []).length +
        one (o.eh_frame_hdr && size == 0) = one o.eh_frame_hdr := by
    cases h : o.eh_frame_hdr with
    | false => simp [one]
    | true =>
      by_cases hsize : size = 0
      · simp [hsize, one]
      · simp [hsize, one, Nat.pos_of_ne_zero hsize]
  have hrelro : (if o.dyn then [phdrHeader o] else []).length + one o.dyn +
      (if o.dyn ∧ (relroSpan o.groups).2 > 0 then [relroHeader o] else []).length +
        one (o.dyn && (relroSpan o.groups).2 == 0) = (if o.dyn then 2 else 0) +
          one (o.dyn && (hasGroup o.groups ".dynamic" || hasGroup o.groups ".got")) := by
    cases h : o.dyn with
    | false => simp [one]
    | true =>
      rw [hdynamic h]
      by_cases hend : (relroSpan o.groups).2 = 0
      · simp [hend, one]
      · simp [hend, one, Nat.pos_of_ne_zero hend]
  unfold programHeaders phnum
  simp only [length_append, length_map, htls, hdyn, hpie, hload, length_singleton]
  omega

/-! ### When the numbers match -/

/-- `.eh_frame` has an FDE. -/
def HasFdes (o : OutContext) : Prop :=
  ∃ data fdes, ehFrameBytes o = some data ∧ Yields (ehRecord data) 0 fdes ∧ fdes ≠ []

/-- `.eh_frame_hdr` has a size exactly when there is an FDE. -/
theorem ehFrameHdr_size {fuel : Nat} {o : OutContext} {eh : Nat × Nat}
    (h : ehFrameHdr fuel o = some eh) (hopt : o.eh_frame_hdr = true) : 0 < eh.2 ↔ HasFdes o := by
  unfold ehFrameHdr at h
  rw [if_neg (by simp [hopt])] at h
  unfold HasFdes
  cases hdata : ehFrameBytes o with
  | none =>
    rw [hdata] at h
    rw [← Option.some.inj h]
    simp
  | some data =>
    rw [hdata] at h
    obtain ⟨fdes, hwalk, rfl⟩ := Option.map_eq_some_iff.mp h
    have hyields := yields_of_walkRecords hwalk
    constructor
    · intro hpos
      refine ⟨data, fdes, rfl, hyields, ?_⟩
      rintro rfl
      cases hpos
    · rintro ⟨data', fdes', hdata', hyields', hne⟩
      cases hdata'
      rw [hyields.unique hyields']
      have hlen : fdes'.length ≠ 0 := fun h => hne (length_eq_zero_iff.mp h)
      rw [if_neg hlen]
      omega

/-! ### Names of groups up to the output -/

theorem ensureDynamicSection_names {c : DynContext} (s : GroupData) (hdyn : c.dyn = true) :
    ".dynamic" ∈ (ensureDynamicSection c s).names := by
  unfold ensureDynamicSection
  rw [if_neg (by simp [hdyn])]
  obtain ⟨⟨s₁, k⟩, hget⟩ :
      ∃ r, s.get ".dynamic" SHT_DYNAMIC (SHF_ALLOC ||| SHF_WRITE) 8 = r := ⟨_, rfl⟩
  rw [hget]
  simp [GroupData.names_get hget]

theorem ensurePieSection_names {c : DynContext} {dynamic_linker : Option String}
    {s s' : GroupData} (h : ensurePieSection c dynamic_linker s = .ok s') :
    (∀ m ∈ s.names, m ∈ s'.names) ∧ (c.pie = true → ".interp" ∈ s'.names) := by
  unfold ensurePieSection at h
  by_cases hpie : c.pie = true
  · rw [if_neg (by simp [hpie])] at h
    obtain ⟨⟨s₁, k⟩, hget⟩ : ∃ r, s.get ".interp" SHT_PROGBITS SHF_ALLOC 1 = r := ⟨_, rfl⟩
    rw [hget] at h
    obtain ⟨⟨s₂, offset⟩, happend, h⟩ := Checked.bind_eq_ok h
    cases h
    rw [GroupData.names_append happend, GroupData.names_setRank, GroupData.names_get hget]
    exact ⟨fun m hm => mem_addName.mpr (.inl hm), fun _ => mem_addName.mpr (.inr rfl)⟩
  · rw [if_pos (by simpa using hpie)] at h
    rw [← Checked.ok.inj h]
    exact ⟨fun _ => id, fun h => absurd h hpie⟩

/-- A link script changes ranks only. -/
theorem scriptRanks_map {β : Type*} (part : LdGroup → β)
    (hrank : ∀ (g : LdGroup) rank, part { g with rank := rank } = part g)
    (lines : List (String × Int)) (groups : List LdGroup) :
    (scriptRanks lines groups).map part = groups.map part := by
  unfold scriptRanks
  induction lines generalizing groups with
  | nil => rfl
  | cons line lines ih =>
    rw [foldl_cons, ih]
    cases findGroup groups line.1 with
    | none => rfl
    | some k =>
      exact map_modify_group (f := fun g => { g with rank := line.2 })
        (fun g => hrank g line.2) groups k

theorem layoutTls_map {β : Type*} (part : LdGroup → β)
    (hrank : ∀ (g : LdGroup) rank, part { g with rank := rank } = part g)
    (hplace : ∀ base off g, part (LdGroup.setPos base off g) = part g) (shared : Bool)
    (lines : List (String × Int)) (groups : List LdGroup) :
    (layoutTls shared (scriptRanks lines groups)).groups.map part = groups.map part :=
  (layoutOutput_map part hplace _ _).trans (scriptRanks_map part hrank lines groups)

theorem layoutTls_names (shared : Bool) (lines : List (String × Int)) (groups : List LdGroup) :
    (layoutTls shared (scriptRanks lines groups)).groups.map LdGroup.name
      = groups.map LdGroup.name :=
  layoutTls_map LdGroup.name (fun _ _ => rfl) (fun _ _ _ => rfl) shared lines groups

/-! ### Counting entries of `.dynamic` -/

/-- The entries for a group are counted for the group that exists. -/
theorem length_tagsFor {groups : List LdGroup} {name : String} {f : LdGroup → List (Nat × Nat)}
    {n : Nat} (hf : ∀ g, (f g).length = n) :
    (tagsFor groups name f).length = ifGroup groups name n := by
  unfold tagsFor ifGroup hasGroup
  cases hk : findGroup groups name with
  | none => rfl
  | some k =>
    obtain ⟨hlt, -⟩ := findGroup_some hk
    simp [getElem?_eq_getElem hlt, hf]

/-- The entries written and those reserved differ by the relocation sections that exist without a
    relocation counted for them. -/
theorem length_dynamicTags (c : DynContext) (t : DynTables) (groups : List LdGroup) (n : Nat) :
    (dynamicTags c t groups).length + (if n > 0 then 3 else 0) +
        (if jumpslotCount c > 0 then 3 else 0) =
      tagCount c groups n + ifGroup groups ".rela.dyn" 3 + ifGroup groups ".rela.plt" 3 := by
  have hsoname : (if c.soname.isSome then [(DT_SONAME, t.soname_dynstr_offset.getD 0)]
      else []).length = if c.soname.isSome then 1 else 0 := by
    split <;> rfl
  unfold dynamicTags tagCount
  simp only [length_append, length_map, length_range, length_cons,
    length_nil, hsoname]
  rw [length_tagsFor (n := 1) (fun _ => rfl), length_tagsFor (n := 1) (fun _ => rfl),
    length_tagsFor (n := 2) (fun _ => rfl), length_tagsFor (n := 2) (fun _ => rfl),
    length_tagsFor (n := 2) (fun _ => rfl), length_tagsFor (n := 3) (fun _ => rfl),
    length_tagsFor (n := 3) (fun _ => rfl)]
  omega

/-- A relocation that goes to `.rela.dyn` is counted. -/
def NeedsRelaDyn (c : DynContext) (groups : List LdGroup) : Prop :=
  0 < gotRelaCount c ∨ ∃ n, dataRelaCount c groups = .ok n ∧ 0 < n

/-- The entries of `.dynamic` have room exactly when the relocation sections that the input brings
    along hold dynamic relocations as well. -/
theorem dynamicTags_length_le_iff {c : DynContext} {s s' : GroupData} {t : DynTables}
    {groups : List LdGroup} (hdyn : c.dyn = true)
    (hbuild : buildDynamicTables c s = .ok (s', t))
    (hnames : groups.map LdGroup.name = s'.names) :
    (dynamicTags c t groups).length ≤ t.ntags ↔
      (".rela.dyn" ∈ s.names → NeedsRelaDyn c s.groups) ∧
        (".rela.plt" ∈ s.names → 0 < jumpslotCount c) := by
  obtain ⟨hntags, ⟨n, hn, hcap⟩, hdynrela, hpltrela, -⟩ := buildDynamicTables_names hdyn hbuild
  have hlen := length_dynamicTags c t groups t.rela_capacity_entries
  have hsame : tagCount c groups t.rela_capacity_entries = t.ntags := by
    rw [hntags]
    unfold tagCount ifGroup
    simp only [hasGroup_congr hnames]
  have hneeds : NeedsRelaDyn c s.groups ↔ 0 < t.rela_capacity_entries := by
    unfold NeedsRelaDyn
    rw [hcap, hn]
    constructor
    · rintro (h | ⟨m, hm, hpos⟩)
      · omega
      · cases hm
        omega
    · intro h
      rcases Nat.eq_zero_or_pos (gotRelaCount c) with hzero | hpos
      · exact .inr ⟨n, rfl, by omega⟩
      · exact .inl hpos
  -- A section takes three entries, which are reserved where a relocation is counted for it.
  have hroom : ∀ (name : String) (k : Nat), (name ∈ s'.names ↔ name ∈ s.names ∨ 0 < k) →
      ifGroup groups name 3 =
        (if k > 0 then 3 else 0) + if name ∈ s.names → 0 < k then 0 else 3 := by
    intro name k hmem
    unfold ifGroup
    have hgroup : hasGroup groups name = true ↔ name ∈ s.names ∨ 0 < k := by
      rw [hasGroup_iff, hnames, hmem]
    simp only [hgroup]
    by_cases hk : 0 < k
    · simp [hk]
    · by_cases hin : name ∈ s.names
      · simp [hk, hin]
      · simp [hk, hin]
  rw [hsame, hroom _ _ hdynrela, hroom _ _ hpltrela] at hlen
  rw [hneeds]
  by_cases hd : ".rela.dyn" ∈ s.names → 0 < t.rela_capacity_entries
  · by_cases hp : ".rela.plt" ∈ s.names → 0 < jumpslotCount c
    · rw [if_pos hd, if_pos hp] at hlen
      exact iff_of_true (by omega) ⟨hd, hp⟩
    · rw [if_pos hd, if_neg hp] at hlen
      exact iff_of_false (by omega) fun h => hp h.2
  · rw [if_neg hd] at hlen
    exact iff_of_false (by omega) fun h => hd h.1

/-! ### The counts of a link -/

/-- A link up to `write_executable`: the groups that an `ET_DYN` has from the start (`s₀`) are there
    behind the stages that collect (`s₂`), the dynamic tables are built, and what a link script
    (`lines`) and layout make of the groups is written. -/
structure Linked (o : OutContext) (dynamic_linker : Option String) (lines : List (String × Int))
    (s₀ s₂ s₃ : GroupData) (t : DynTables) : Prop where
  ensured : ∃ s₁, ensurePieSection o.toDynContext dynamic_linker
    (ensureDynamicSection o.toDynContext s₀) = .ok s₁ ∧ ∀ m ∈ s₁.names, m ∈ s₂.names
  built : buildDynamicTables o.toDynContext s₂ = .ok (s₃, t)
  laid : o.tls = layoutTls o.shared (scriptRanks lines s₃.groups)

section linked

variable {o : OutContext} {dynamic_linker : Option String} {lines : List (String × Int)}
  {s₀ s₂ s₃ : GroupData} {t : DynTables}

theorem Linked.names (h : Linked o dynamic_linker lines s₀ s₂ s₃ t) :
    o.groups.map LdGroup.name = s₃.names := by
  unfold OutContext.groups
  rw [h.laid]
  exact layoutTls_names _ _ _

theorem Linked.hasGroup (h : Linked o dynamic_linker lines s₀ s₂ s₃ t) (hdyn : o.dyn = true)
    {name : String} (hmem : name ∈ s₂.names) : hasGroup o.groups name = true := by
  rw [hasGroup_iff, h.names]
  exact (buildDynamicTables_names hdyn h.built).2.2.2.2 name hmem

/-- For every link that comes to the headers, the number in the ELF header is that of the program
    headers and the entries of `.dynamic` have room exactly when `--eh-frame-hdr` is given for an
    input with an FDE only, and in an `ET_DYN` the relocation sections that the input brings along
    hold dynamic relocations as well and what is made read-only does not end at `2^64`. -/
theorem header_counts_iff (h : Linked o dynamic_linker lines s₀ s₂ s₃ t) {fuel n : Nat}
    {headers : List ProgramHeader} (hwrite : writeHeaders fuel o = some (n, headers)) :
    (headers.length = n ∧
        (o.dyn = true → (dynamicTags o.toDynContext t o.groups).length ≤ t.ntags)) ↔
      (o.eh_frame_hdr = true → HasFdes o) ∧
        (o.dyn = true → 0 < (relroSpan o.groups).2 ∧
          (".rela.dyn" ∈ s₂.names → NeedsRelaDyn o.toDynContext s₂.groups) ∧
          (".rela.plt" ∈ s₂.names → 0 < jumpslotCount o.toDynContext)) := by
  obtain ⟨s₁, hs₁, hkeep⟩ := h.ensured
  obtain ⟨hpieKeeps, hinterp⟩ := ensurePieSection_names hs₁
  obtain ⟨⟨vma, size⟩, heh, hpair⟩ := Option.map_eq_some_iff.mp hwrite
  cases hpair
  have hcount := length_programHeaders vma size
    (fun hdyn => h.hasGroup hdyn
      (hkeep _ (hpieKeeps _ (ensureDynamicSection_names s₀ hdyn))))
    (fun hpie => h.hasGroup (by simp [DynContext.dyn, hpie]) (hkeep _ (hinterp hpie)))
  -- The number is right where neither of the two headers is left out.
  have hheaders : (programHeaders o vma size).length = phnum o ↔
      (o.eh_frame_hdr = true → HasFdes o) ∧ (o.dyn = true → 0 < (relroSpan o.groups).2) := by
    have hone : ∀ b : Bool, one b = 0 ↔ b = false := by decide
    have hboth : (programHeaders o vma size).length = phnum o ↔
        one (o.eh_frame_hdr && size == 0) = 0 ∧
          one (o.dyn && (relroSpan o.groups).2 == 0) = 0 := by omega
    rw [hboth, hone, hone]
    refine and_congr ?_ ?_
    · cases hopt : o.eh_frame_hdr with
      | false => simp
      | true =>
        rw [← ehFrameHdr_size heh hopt]
        simp [Nat.pos_iff_ne_zero]
    · cases o.dyn with
      | false => simp
      | true => simp [Nat.pos_iff_ne_zero]
  rw [hheaders]
  constructor
  · rintro ⟨⟨heh, hrelro⟩, htags⟩
    refine ⟨heh, fun hdyn => ⟨hrelro hdyn, ?_⟩⟩
    exact (dynamicTags_length_le_iff hdyn h.built h.names).mp (htags hdyn)
  · rintro ⟨heh, hall⟩
    refine ⟨⟨heh, fun hdyn => (hall hdyn).1⟩, fun hdyn => ?_⟩
    exact (dynamicTags_length_le_iff hdyn h.built h.names).mpr (hall hdyn).2

end linked

/-! ### Links of one object -/

/-- The sections `.text` and `.eh_frame` with a CIE and an FDE, and the symbol `x` at the start of
    `.text`. -/
def framesX : RelocObject where
  object :=
    { name := "x.o"
      origin := none
      is_shared := false
      elf :=
        { oneSymbol [some ⟨3, SHT_PROGBITS, 6, 4, 0, 4, 0⟩, some ⟨9, SHT_PROGBITS, 2, 40, 0, 8, 0⟩]
            ⟨1, 0x12, 3, 0, 4⟩ with
          string := fun _ offset =>
            if offset = 1 then some "x" else if offset = 3 then some ".text"
            else if offset = 9 then some ".eh_frame" else some "" }
      maps := [none, none, none, some (0, 0), some (1, 0)] }
  elf_class := 2
  data :=
    leBytes 4 12 ++ leBytes 4 0 ++ [1, 0, 1, 0x78, 16, 0, 0, 0] ++ leBytes 4 20 ++ leBytes 4 20 ++
      leBytes 8 0x1000 ++ leBytes 8 4
  offset := fun _ => 0
  info := fun _ => 0

/-- The object without its `.eh_frame`. -/
def plainX : RelocObject :=
  { framesX with object := { usesX with
      elf := oneSymbol [some ⟨3, SHT_PROGBITS, 3, 4, 0, 4, 0⟩] ⟨1, 0x12, 3, 0, 4⟩
      maps := [none, none, none, some (0, 0)] } }

/-- The link of an object with `--eh-frame-hdr`, static or `-pie`, with groups as they are behind
    the dynamic tables. -/
def ehOut (o : RelocObject) (pie : Bool) (s : GroupData) : OutContext where
  shared := false
  pie := pie
  elf64 := true
  soname := none
  add_needed := []
  version_script := none
  globals :=
    xTable { name := "x", object := some 0, symbol_index := 1, size := 4, defined := true } rfl
  objects := [o]
  got := []
  eh_frame_hdr := true
  build_id := false
  ehdr_size := 64
  tls := layoutTls false (scriptRanks [] s.groups)
  data := s.data

/-- The groups of the object. -/
def framesGroups : GroupData where
  groups :=
    [{ name := ".text", type := SHT_PROGBITS, flags := 6, align := 4, size := 4, rank := 0 },
      { name := ".eh_frame", type := SHT_PROGBITS, flags := 2, align := 8, size := 40, rank := 1 }]
  data := fun k => if k = 1 then framesX.data else replicate 4 0x90

/-- The `-pie` link up to the dynamic tables. -/
def framesLink : Checked String (GroupData × GroupData × DynTables) := do
  let c := (ehOut framesX true framesGroups).toDynContext
  let s₂ ← ensurePieSection c none (ensureDynamicSection c framesGroups)
  let (s₃, t) ← buildDynamicTables c s₂
  return (s₂, s₃, t)

/-- The `-pie` link of an object with an FDE: both counts match. -/
theorem header_counts_pie :
    ∃ s₂ s₃ t n headers,
      Linked (ehOut framesX true s₃) none [] framesGroups s₂ s₃ t ∧
        writeHeaders 3 (ehOut framesX true s₃) = some (n, headers) ∧
        headers.length = n ∧
        (dynamicTags (ehOut framesX true s₃).toDynContext t (ehOut framesX true s₃).groups).length ≤
          t.ntags := by
  -- The links differ in the groups behind the dynamic tables only.
  have hrun : (framesLink.toOption.map fun r =>
      let o := ehOut framesX true r.2.1
      ((ehFrameBytes o).map fun data => walkRecords (ehRecord data) 3 0,
        decide (0 < (relroSpan o.groups).2), decide (".rela.dyn" ∈ r.1.names),
        decide (".rela.plt" ∈ r.1.names), (writeHeaders 3 o).isSome)) =
      some (some (some [16]), true, false, false, true) := by decide
  obtain ⟨⟨s₂, s₃, t⟩, hlink, hconds⟩ := Option.map_eq_some_iff.mp hrun
  simp only [Prod.mk.injEq, decide_eq_true_eq, decide_eq_false_iff_not] at hconds
  obtain ⟨hfdes, hrelro, hdynrela, hpltrela, hwrites⟩ := hconds
  obtain ⟨s₂', hs₂, hlink'⟩ := Checked.bind_eq_ok (Checked.eq_ok_of_toOption hlink)
  obtain ⟨⟨s₃', t'⟩, hbuilt, hlink''⟩ := Checked.bind_eq_ok hlink'
  obtain ⟨rfl, rfl, rfl⟩ : s₂' = s₂ ∧ s₃' = s₃ ∧ t' = t := by
    have h := Checked.ok.inj hlink''
    simpa using h
  obtain ⟨⟨n, headers⟩, hwrite⟩ := Option.isSome_iff_exists.mp hwrites
  have hlinked : Linked (ehOut framesX true s₃') none [] framesGroups s₂' s₃' t' :=
    ⟨⟨s₂', hs₂, fun _ => id⟩, hbuilt, rfl⟩
  obtain ⟨data, hdata, hwalk⟩ := Option.map_eq_some_iff.mp hfdes
  have hmatch := (header_counts_iff hlinked hwrite).mpr
    ⟨fun _ => ⟨data, [16], hdata, yields_of_walkRecords hwalk, nofun⟩,
      fun _ => ⟨hrelro, fun h => absurd h hdynrela, fun h => absurd h hpltrela⟩⟩
  exact ⟨s₂', s₃', t', n, headers, hlinked, hwrite, hmatch.1, hmatch.2 rfl⟩

/-- The groups of the object without `.eh_frame`. -/
def plainGroups : GroupData where
  groups :=
    [{ name := ".data", type := SHT_PROGBITS, flags := 3, align := 4, size := 4, rank := 3 }]
  data := fun _ => replicate 4 0x90

/-- A static link with `--eh-frame-hdr` of an object without `.eh_frame`: the ELF header counts a
    program header more than there are. -/
theorem header_counts_no_eh_frame :
    Linked (ehOut plainX false plainGroups) none [] plainGroups plainGroups plainGroups {} ∧
      ∃ headers, writeHeaders 1 (ehOut plainX false plainGroups) = some (4, headers) ∧
        headers.length = 3 := by
  refine ⟨⟨⟨plainGroups, rfl, fun _ => id⟩, rfl, rfl⟩, ?_⟩
  have hrun : (writeHeaders 1 (ehOut plainX false plainGroups)).map (fun r => (r.1, r.2.length)) =
      some (4, 3) := by decide
  obtain ⟨⟨n, headers⟩, hwrite, hcounts⟩ := Option.map_eq_some_iff.mp hrun
  obtain ⟨rfl, hlen⟩ := Prod.mk.inj hcounts
  exact ⟨headers, hwrite, hlen⟩

end MeuOS.Ld
