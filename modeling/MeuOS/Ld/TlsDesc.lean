import MeuOS.Ld.Apply

namespace MeuOS.Ld

open MeuOS.Lib List Lib.Checked

/-!
# TLS descriptors of a static x86_64 link (`got.c`, `reloc.c`)

A general- or local-dynamic access to a thread-local symbol of a static link goes through a
descriptor of 16 bytes in `.data`, made and found by the symbol's name, that every relocation
fills in as it is applied.

* `addTlsDesc`, `collectTlsDescriptors` — how descriptors are made;
* `DescsStacked`, `collectTlsDescriptors_stacked` — they share no byte and lie in `.data`;
* `TlsRef` — the descriptor and the offset from the thread pointer of a relocation;
* `FieldsApart` — the fields of a link share no byte with each other and with the descriptors;
* `tls_descriptors_iff` — every descriptor tells the offset of each symbol that refers to it
  exactly when symbols that share one have the same offset.
-/

/-! ### How descriptors are made -/

/-- `add_tls_desc`. -/
def addTlsDesc (groups : List LdGroup) (descs : List LdTlsDesc) (name : String) :
    Except String (List LdGroup × List LdTlsDesc) :=
  match tlsDescIndex descs name with
  | some _ => .ok (groups, descs)
  | none =>
    let (groups, g) := getGroup groups ".data" SHT_PROGBITS (SHF_ALLOC ||| SHF_WRITE) 8
    let groups := groups.modify g fun group => { group with rank := 3 }
    match appendGroupData groups g 16 8 with
    | none => .error "output section overflow"
    | some (groups, offset) => .ok (groups, descs ++ [⟨name, g, offset⟩])

/-- The types of general- and local-dynamic accesses. -/
def IsDynamicTls (type : Nat) : Prop := type = R_X86_64_TLSGD ∨ type = R_X86_64_TLSLD

instance (type : Nat) : Decidable (IsDynamicTls type) := inferInstanceAs (Decidable (_ ∨ _))

/-- An entry of the loop of `collect_tls_descriptors`. -/
def collectTlsEntry (o : RelocObject) (k : Nat) (sec : ElfSection)
    (st : List LdGroup × List LdTlsDesc) (n : Nat) :
    Checked String (List LdGroup × List LdTlsDesc) := do
  let info ← leAt o.data (o.offset k + n * sec.entry_size + 8) 8
  if ¬IsDynamicTls (info % 2 ^ 32) then return st
  else do
    let (_, name) ← ofExcept (getSymbolByIndex o.object (info / 2 ^ 32))
    ofExcept (addTlsDesc st.1 st.2 name)

/-- A section of the loop. -/
def collectTlsSection (o : RelocObject) (st : List LdGroup × List LdTlsDesc) (k : Nat) :
    Checked String (List LdGroup × List LdTlsDesc) :=
  match o.object.elf.getSection k with
  | none => .fail "link failed"
  | some sec =>
    if sec.type ≠ SHT_RELA ∧ sec.type ≠ SHT_REL then .ok st
    else if o.elf_class = 1 then .ok st
    else if sec.entry_size < 24 ∨ sec.size % sec.entry_size ≠ 0 then .ok st
    else (range (sec.size / sec.entry_size)).foldlM (collectTlsEntry o k sec) st

/-- `collect_tls_descriptors` for a static x86_64 link. -/
def collectTlsDescriptors (groups : List LdGroup) (objects : List RelocObject) :
    Checked String (List LdGroup × List LdTlsDesc) :=
  objects.foldlM (fun st o => (range o.count).foldlM (collectTlsSection o) st) (groups, [])

/-! ### Where descriptors are -/

/-- The size of the group of a name, 0 when there is none. -/
def groupSize (groups : List LdGroup) (name : String) : Nat :=
  ((findGroup groups name).bind (groups[·]?)).elim 0 LdGroup.size

/-- Descriptors lie one behind the other in `.data`, which leaves room for its alignment. -/
structure DescsStacked (groups : List LdGroup) (descs : List LdTlsDesc) : Prop where
  names : (descs.map LdTlsDesc.name).Nodup
  stacked : descs.Pairwise fun d e => d.offset + 16 ≤ e.offset
  inside : ∀ d ∈ descs, findGroup groups ".data" = some d.group ∧
    d.offset + 16 ≤ groupSize groups ".data"
  room : groupSize groups ".data" ≤ 2 ^ 64 - 8

variable {groups groups' : List LdGroup} {name : String} {k off tp : Nat} {s s' : RelocState}
  {c : RelocContext} {p : RelocPos} {d : LdTlsDesc}

/-- The group of a name before and after a change of it. -/
theorem groupSize_modify {i : Nat} (hi : findGroup groups name = some i) :
    ∃ g, groups[i]? = some g ∧ groupSize groups name = g.size ∧
      ∀ f : LdGroup → LdGroup, (∀ g, (f g).name = g.name) →
        findGroup (groups.modify i f) name = some i ∧
          groupSize (groups.modify i f) name = (f g).size := by
  obtain ⟨hlt, -⟩ := findGroup_some hi
  have hg : groups[i]? = some groups[i] := getElem?_eq_getElem hlt
  refine ⟨groups[i], hg, by simp [groupSize, hi, hg], fun f hf => ?_⟩
  have hi' : findGroup (groups.modify i f) name = some i := by rw [findGroup_modify hf, hi]
  exact ⟨hi', by simp [groupSize, hi', hg]⟩

/-- `get_group` finds or makes the group of the name and keeps its size. -/
theorem getGroup_found (groups : List LdGroup) (name : String) (type flags align : Nat) :
    ∃ groups' k, getGroup groups name type flags align = (groups', k) ∧
      findGroup groups' name = some k ∧ groupSize groups' name = groupSize groups name ∧
      ∀ j, findGroup groups name = some j → j = k := by
  unfold getGroup
  cases hfind : findGroup groups name with
  | some i =>
    have hname : ∀ g : LdGroup,
        (if g.align < align then { g with align := align } else g).name = g.name := by
      intro g
      split <;> rfl
    obtain ⟨g, -, hsize, hmodify⟩ := groupSize_modify hfind
    obtain ⟨hi, hsize'⟩ := hmodify _ hname
    refine ⟨_, _, rfl, hi, ?_, fun j hj => (Option.some_inj.mp hj).symm⟩
    rw [hsize, hsize']
    split <;> rfl
  | none =>
    have hnone := hfind
    unfold findGroup at hnone
    have hlast : findGroup (groups ++ [⟨name, type, flags, if align = 0 then 1 else align, 0,
        sectionRank name, 0, 0⟩]) name = some groups.length := by
      unfold findGroup
      rw [findIdx?_append, hnone]
      simp
    refine ⟨_, _, rfl, hlast, ?_, nofun⟩
    simp [groupSize, hlast, hfind]

/-- `append_group_data` of 16 bytes at a multiple of 8, with room for the alignment. -/
theorem appendGroupData_group
    (hk : findGroup groups name = some k) (hroom : groupSize groups name ≤ 2 ^ 64 - 8)
    (h : appendGroupData groups k 16 8 = some (groups', off)) :
    findGroup groups' name = some k ∧ groupSize groups name ≤ off ∧
      groupSize groups' name = off + 16 ∧ groupSize groups' name ≤ 2 ^ 64 - 8 := by
  obtain ⟨g, hg, hsize, hmodify⟩ := groupSize_modify hk
  unfold appendGroupData at h
  rw [hg] at h
  dsimp only at h
  rw [show (if 8 = 0 then 1 else 8) = 8 from rfl] at h
  have hup : alignUp64 g.size 8 = alignUp g.size 8 :=
    alignUp64_eq (k := 3) (by decide) (by rw [← hsize]; omega)
  rw [hup] at h
  split at h
  next => cases h
  next hfits =>
    cases h
    have hle := le_alignUp g.size (show 0 < 8 by decide)
    have hdvd := dvd_alignUp g.size 8
    obtain ⟨hi, hsize'⟩ := hmodify
      (fun g' => { g' with size := add64 (alignUp g.size 8) 16 }) (fun _ => rfl)
    dsimp only at hsize'
    rw [hi, hsize', hsize, add64_eq (by omega)]
    exact ⟨rfl, hle, rfl, by omega⟩

/-- A new descriptor lies behind the ones before. -/
theorem addTlsDesc_stacked {descs descs' : List LdTlsDesc} (hst : DescsStacked groups descs)
    (h : addTlsDesc groups descs name = .ok (groups', descs')) : DescsStacked groups' descs' := by
  unfold addTlsDesc at h
  cases hidx : tlsDescIndex descs name with
  | some i =>
    rw [hidx] at h
    cases h
    exact hst
  | none =>
    rw [hidx] at h
    obtain ⟨groups₁, k, hget, hk, hsize, hsame⟩ :=
      getGroup_found groups ".data" SHT_PROGBITS (SHF_ALLOC ||| SHF_WRITE) 8
    rw [hget] at h
    dsimp only at h
    -- The rank is no part of what is kept.
    obtain ⟨g, -, hg, hmodify⟩ := groupSize_modify hk
    obtain ⟨hk', hsize'⟩ := hmodify (fun g => { g with rank := 3 }) (fun _ => rfl)
    dsimp only at hsize'
    rw [← hg, hsize] at hsize'
    split at h
    next => cases h
    next groups₂ off happend =>
      cases h
      have hroom : groupSize (groups₁.modify k fun g => { g with rank := 3 }) ".data" ≤
          2 ^ 64 - 8 := by
        rw [hsize']
        exact hst.room
      obtain ⟨hk₂, hle, hsize₂, hroom₂⟩ := appendGroupData_group hk' hroom happend
      rw [hsize'] at hle
      refine ⟨?_, ?_, fun d hd => ?_, hroom₂⟩
      · have hnew : name ∉ descs.map LdTlsDesc.name := by
          intro hmem
          obtain ⟨d, hd, rfl⟩ := mem_map.mp hmem
          have := findIdx?_eq_none_iff.mp hidx d hd
          simp at this
        rw [map_append, nodup_append]
        refine ⟨hst.names, nodup_singleton _, fun a ha b hb hab => hnew ?_⟩
        obtain rfl := mem_singleton.mp hb
        exact hab ▸ ha
      · refine pairwise_append.mpr ⟨hst.stacked, pairwise_singleton _ _, ?_⟩
        intro d hd e he
        obtain rfl := mem_singleton.mp he
        exact (hst.inside d hd).2.trans hle
      · rw [hsize₂]
        rcases mem_append.mp hd with hold | hnew
        · obtain ⟨hgroup, hin⟩ := hst.inside d hold
          exact ⟨by rw [hk₂, hsame _ hgroup], by omega⟩
        · obtain rfl := mem_singleton.mp hnew
          exact ⟨hk₂, le_rfl⟩

/-- Descriptors are made one behind the other. -/
theorem collectTlsDescriptors_stacked {objects : List RelocObject}
    {descs : List LdTlsDesc} (hroom : groupSize groups ".data" ≤ 2 ^ 64 - 8)
    (h : collectTlsDescriptors groups objects = .ok (groups', descs)) :
    DescsStacked groups' descs := by
  have hentry : ∀ o k sec st n st', DescsStacked st.1 st.2 →
      collectTlsEntry o k sec st n = .ok st' → DescsStacked st'.1 st'.2 := by
    intro o k sec st n st' hst h
    obtain ⟨info, -, h⟩ := bind_eq_ok h
    split at h
    · cases h
      exact hst
    · obtain ⟨⟨sym, name⟩, -, h⟩ := bind_eq_ok h
      exact addTlsDesc_stacked hst (ofExcept_eq_ok h)
  have hsection : ∀ o st k st', DescsStacked st.1 st.2 →
      collectTlsSection o st k = .ok st' → DescsStacked st'.1 st'.2 := by
    intro o st k st' hst h
    unfold collectTlsSection at h
    split at h
    · cases h
    · split_ifs at h
      · cases h
        exact hst
      · cases h
        exact hst
      · cases h
        exact hst
      · exact foldlM_keeps (I := fun st => DescsStacked st.1 st.2) (hentry o _ _) hst h
  have hstart : DescsStacked groups [] := ⟨.nil, .nil, fun d hd => absurd hd not_mem_nil, hroom⟩
  exact foldlM_keeps (I := fun st : List LdGroup × List LdTlsDesc => DescsStacked st.1 st.2)
    (fun st o st' hst h => foldlM_keeps (I := fun st => DescsStacked st.1 st.2)
      (hsection o) hst h) hstart h

/-! ### Where relocations write -/

/-- Two pieces of the data of groups share no byte. -/
def DataApart (k off len k' off' len' : Nat) : Prop :=
  k ≠ k' ∨ off + len ≤ off' ∨ off' + len' ≤ off

/-- The descriptors share no byte, and each lies in a group that has data. -/
structure DescsPlaced (c : RelocContext) (s : RelocState) : Prop where
  names : (c.tls_descs.map LdTlsDesc.name).Nodup
  apart : c.tls_descs.Pairwise fun d e => DataApart d.group d.offset 16 e.group e.offset 16
  inside : ∀ d ∈ c.tls_descs, ∃ g, s.got.groups[d.group]? = some g ∧ g.type ≠ SHT_NOBITS ∧
    d.offset + 16 ≤ g.size

/-- The entry is for a field of `width` bytes at `off` of its group. -/
def FieldAt (p : RelocPos) (r : LdRela) (off width : Nat) : Prop :=
  readRela p.object p.k p.sec p.n = .ok r ∧
    off = targetOffset p.object.object (p.object.info p.k) r.offset ∧ width = x86FieldWidth r.type

/-- The fields of the entries share no byte with each other and with the descriptors. -/
structure FieldsApart (c : RelocContext) (l : List RelocPos) : Prop where
  fields : l.Pairwise fun p q => ∀ r off width r' off' width', FieldAt p r off width →
    FieldAt q r' off' width' → DataApart p.target off width q.target off' width'
  descs : ∀ p ∈ l, ∀ r off width, FieldAt p r off width → ∀ d ∈ c.tls_descs,
    DataApart p.target off width d.group d.offset 16

/-- The entry is a general- or local-dynamic access to a symbol with the descriptor `d` and the
    offset `tp` from the thread pointer. -/
def TlsRef (c : RelocContext) (p : RelocPos) (d : LdTlsDesc) (tp : Nat) : Prop :=
  ∃ r sym name i tls_off, readRela p.object p.k p.sec p.n = .ok r ∧ IsDynamicTls r.type ∧
    getSymbolByIndex p.object.object r.symbol_index = .ok (sym, name) ∧
    tlsDescIndex c.tls_descs name = some i ∧ c.tls_descs[i]? = some d ∧
    symbolTlsOffset c.link c.tls p.object.object r.symbol_index = .ok tls_off ∧
    tp = sub64 tls_off c.tls.tls_size

/-- `{ti_module = 1, ti_offset}`. -/
def descBytes (tp : Nat) : Bytes := leBytes 8 1 ++ leBytes 8 tp

/-- What a successful store leaves elsewhere. -/
theorem store_elsewhere {i len : Nat} {b : Bytes} {k' : Nat}
    (h : s.store k off b = .ok s') (hap : DataApart k off b.length k' i len) :
    slice (s'.data k') i len = slice (s.data k') i len := by
  obtain ⟨hle, rfl⟩ := store_eq_ok h
  dsimp only
  by_cases hk : k' = k
  · subst hk
    rw [Function.update_self]
    rcases hap with hne | hbefore | hbehind
    · exact absurd rfl hne
    · exact slice_overwrite_behind hle hbefore
    · exact slice_overwrite_before hle hbehind
  · rw [Function.update_of_ne hk]

theorem store_there {b : Bytes} (h : s.store k off b = .ok s') :
    slice (s'.data k) off b.length = b := by
  obtain ⟨hle, rfl⟩ := store_eq_ok h
  dsimp only
  rw [Function.update_self]
  exact slice_overwrite hle

/-! ### One relocation -/

theorem address_eq {g : LdGroup} (h : s.got.groups[k]? = some g) :
    s.address k = g.address := by
  unfold RelocState.address
  rw [h]
  rfl

/-- Filling a descriptor stores its 16 bytes. -/
theorem staticDescriptor_eq_ok {o : LdObject} {index a : Nat} (hplaced : DescsPlaced c s)
    (h : staticDescriptor c s o name index = .ok (s', a)) :
    ∃ i d tls_off, tlsDescIndex c.tls_descs name = some i ∧ c.tls_descs[i]? = some d ∧
      symbolTlsOffset c.link c.tls o index = .ok tls_off ∧ a = add64 (s.address d.group) d.offset ∧
      s.store d.group d.offset (descBytes (sub64 tls_off c.tls.tls_size)) = .ok s' := by
  unfold staticDescriptor at h
  split at h
  next => cases h
  next d hd =>
    obtain ⟨i, hi, hdi⟩ := Option.bind_eq_some_iff.mp hd
    obtain ⟨g, hg, h⟩ := bind_eq_ok h
    obtain ⟨tls_off, hoff, h⟩ := bind_eq_ok h
    obtain ⟨g', hg', htype, hsize⟩ := hplaced.inside d (mem_of_getElem? hdi)
    cases hg'.symm.trans (group_eq_ok hg)
    rw [if_pos ⟨htype, hsize⟩] at h
    obtain ⟨s₁, hs₁, h⟩ := bind_eq_ok h
    cases h
    exact ⟨i, d, tls_off, hi, hdi, ofExcept_eq_ok hoff, by rw [address_eq hg'], hs₁⟩

theorem type_of_abs64 {type : Nat} (h : x86Kind type = .abs64) : type = R_X86_64_64 := by
  unfold x86Kind at h
  split_ifs at h with _ _ _ _ h64
  exact h64

/-- In a static link a value is computed without a change of the state, or behind the filling of
    a descriptor. -/
theorem x86Value_static {o : LdObject} {r : LdRela} {resolved place : Nat} {w : Option (Nat × Nat)}
    (hstatic : c.dyn = false) (h : x86Value c s o r name resolved place = .ok (s', w)) :
    (¬IsDynamicTls r.type ∧ s' = s ∧ ∃ value, w = some (value, x86FieldWidth r.type)) ∨
      (IsDynamicTls r.type ∧ ∃ a, staticDescriptor c s o name r.symbol_index = .ok (s', a) ∧
        w = relativeField r place a) := by
  have hkind : ∀ {k : X86Kind}, x86Kind r.type = k → k ≠ .tls → ¬IsDynamicTls r.type := by
    rintro k hk htls (hgd | hld)
    · rw [hgd] at hk
      exact htls hk.symm
    · rw [hld] at hk
      exact htls hk.symm
  have hwidth : ∀ {k : X86Kind}, x86Kind r.type = k → k ≠ .abs64 → x86FieldWidth r.type = 4 := by
    intro k hk habs
    refine if_neg fun h64 => ?_
    rw [h64] at hk
    exact habs hk.symm
  unfold x86Value at h
  cases hk : x86Kind r.type with
  | gotpcrel =>
    rw [hk] at h
    obtain ⟨field, hfield, h⟩ := bind_eq_ok h
    cases h
    unfold gotField at hfield
    split at hfield
    next => cases hfield
    next =>
      obtain ⟨slot, -, hfield⟩ := bind_eq_ok hfield
      cases hfield
      rw [hwidth hk nofun]
      exact Or.inl ⟨hkind hk nofun, rfl, _, rfl⟩
  | plt32 =>
    rw [hk] at h
    dsimp only at h
    rw [if_neg (by rw [hstatic]; exact fun h => absurd h.1 nofun)] at h
    cases h
    rw [hwidth hk nofun]
    exact Or.inl ⟨hkind hk nofun, rfl, _, rfl⟩
  | pc32 =>
    rw [hk] at h
    cases h
    rw [hwidth hk nofun]
    exact Or.inl ⟨hkind hk nofun, rfl, _, rfl⟩
  | tls =>
    rw [hk] at h
    dsimp only at h
    rw [if_pos (by rw [hstatic]; rfl)] at h
    split at h
    next hdtp =>
      cases h
      rw [hdtp]
      exact Or.inl ⟨by decide, rfl, _, rfl⟩
    next hdtp =>
      split at h
      next hgd =>
        obtain ⟨⟨s₁, a⟩, ha, h⟩ := bind_eq_ok h
        cases h
        exact Or.inr ⟨hgd, a, ha, rfl⟩
      next hgd =>
        obtain ⟨field, hfield, h⟩ := bind_eq_ok h
        cases h
        obtain ⟨tls_off, -, hfield⟩ := bind_eq_ok hfield
        cases hfield
        rw [hwidth hk nofun]
        exact Or.inl ⟨hgd, rfl, _, rfl⟩
  | abs64 =>
    rw [hk] at h
    cases h
    have h8 : x86FieldWidth r.type = 8 := if_pos (type_of_abs64 hk)
    rw [h8]
    exact Or.inl ⟨hkind hk nofun, rfl, _, rfl⟩
  | abs32 =>
    rw [hk] at h
    cases h
    rw [hwidth hk nofun]
    exact Or.inl ⟨hkind hk nofun, rfl, _, rfl⟩
  | tpoff32 =>
    rw [hk] at h
    obtain ⟨field, hfield, h⟩ := bind_eq_ok h
    cases h
    obtain ⟨tls_off, -, hfield⟩ := bind_eq_ok hfield
    cases hfield
    rw [hwidth hk nofun]
    exact Or.inl ⟨hkind hk nofun, rfl, _, rfl⟩
  | unsupported =>
    rw [hk] at h
    cases h

/-- What the field of a general- or local-dynamic access is made from: the address of its
    descriptor and the addend, relative to the place. -/
def tlsFieldValue (s : RelocState) (p : RelocPos) (d : LdTlsDesc) (r : LdRela) (off : Nat) : Nat :=
  sub64 (add64 (add64 (s.address d.group) d.offset) r.addend) (add64 (s.address p.target) off)

/-- What one relocation of a static link writes: its field, and before that its descriptor. -/
inductive StaticStep (c : RelocContext) (s : RelocState) (p : RelocPos) (s' : RelocState) : Prop
  | field {r : LdRela} {off : Nat} {b : Bytes} (hfield : FieldAt p r off b.length)
      (htype : ¬IsDynamicTls r.type) (hstore : s.store p.target off b = .ok s')
  | descriptor {r : LdRela} {off : Nat} {d : LdTlsDesc} {tp : Nat} {s₁ : RelocState}
      (hfield : FieldAt p r off 4) (href : TlsRef c p d tp)
      (hdesc : s.store d.group d.offset (descBytes tp) = .ok s₁)
      (hstore : s₁.store p.target off (leBytes 4 (tlsFieldValue s p d r off)) = .ok s')

/-- A relocation for a group with bytes is such a step. -/
theorem writeX86_step
    (hstatic : c.dyn = false) (hplaced : DescsPlaced c s) (hsize : s.sizeOf p.target ≠ 0)
    (h : writeX86 c s p = .ok s') : StaticStep c s p s' := by
  obtain ⟨r, hr, h⟩ := bind_eq_ok h
  obtain ⟨g, hg, h⟩ := bind_eq_ok h
  have hgroup := group_eq_ok hg
  have hne : g.size ≠ 0 := by
    unfold RelocState.sizeOf at hsize
    rwa [hgroup] at hsize
  rw [if_neg hne] at h
  split at h
  next => cases h
  next =>
    obtain ⟨resolved, -, h⟩ := bind_eq_ok h
    obtain ⟨⟨sym, name⟩, hname, h⟩ := bind_eq_ok h
    obtain ⟨⟨s₁, w⟩, hvalue, h⟩ := bind_eq_ok h
    rcases x86Value_static hstatic hvalue with ⟨htype, rfl, value, rfl⟩ | ⟨htype, a, ha, rfl⟩
    · dsimp only at h
      split at h
      next => cases h
      next =>
        refine .field ⟨hr, rfl, ?_⟩ htype h
        rw [length_leBytes]
    · obtain ⟨i, d, tls_off, hi, hd, hoff, rfl, hstore⟩ := staticDescriptor_eq_ok hplaced ha
      dsimp only [relativeField] at h
      have h4 : x86FieldWidth r.type = 4 := by
        rcases htype with hgd | hld
        · rw [hgd]
          rfl
        · rw [hld]
          rfl
      split at h
      next => cases h
      next =>
        rw [← address_eq hgroup] at h
        exact .descriptor ⟨hr, rfl, h4.symm⟩
          ⟨r, sym, name, i, tls_off, hr, htype, ofExcept_eq_ok hname, hi, hd, hoff, rfl⟩ hstore h

/-- The groups stay. -/
theorem StaticStep.got_eq (h : StaticStep c s p s') : s'.got = s.got := by
  cases h with
  | field _ _ hstore =>
    obtain ⟨-, rfl⟩ := store_eq_ok hstore
    rfl
  | descriptor _ _ hdesc hstore =>
    obtain ⟨-, rfl⟩ := store_eq_ok hstore
    obtain ⟨-, rfl⟩ := store_eq_ok hdesc
    rfl

/-- An entry has one descriptor and one offset. -/
theorem TlsRef.unique {d' : LdTlsDesc} {tp' : Nat}
    (h : TlsRef c p d tp) (h' : TlsRef c p d' tp') : d = d' ∧ tp = tp' := by
  obtain ⟨r, sym, name, i, tls_off, hr, -, hname, hi, hd, hoff, rfl⟩ := h
  obtain ⟨r', sym', name', i', tls_off', hr', -, hname', hi', hd', hoff', rfl⟩ := h'
  cases hr.symm.trans hr'
  cases hname.symm.trans hname'
  cases hi.symm.trans hi'
  cases hoff.symm.trans hoff'
  exact ⟨Option.some_inj.mp (hd.symm.trans hd'), rfl⟩

theorem length_descBytes (tp : Nat) : (descBytes tp).length = 16 := by
  simp [descBytes]

theorem DataApart.symm {len k' off' len' : Nat} (h : DataApart k off len k' off' len') :
    DataApart k' off' len' k off len := h.imp Ne.symm Or.symm

/-- Two descriptors are the same or share no byte. -/
theorem DescsPlaced.eq_or_apart (h : DescsPlaced c s)
    {e : LdTlsDesc} (hd : d ∈ c.tls_descs) (he : e ∈ c.tls_descs) :
    d = e ∨ DataApart d.group d.offset 16 e.group e.offset 16 := by
  obtain ⟨i, hi, rfl⟩ := getElem_of_mem hd
  obtain ⟨j, hj, rfl⟩ := getElem_of_mem he
  have hap := pairwise_iff_getElem.mp h.apart
  rcases lt_trichotomy i j with hlt | rfl | hgt
  · exact Or.inr (hap i j hi hj hlt)
  · exact Or.inl rfl
  · exact Or.inr (hap j i hj hi hgt).symm

/-! ### The run -/

theorem TlsRef.mem (h : TlsRef c p d tp) : d ∈ c.tls_descs := by
  obtain ⟨r, sym, name, i, tls_off, -, -, -, -, hd, -⟩ := h
  exact mem_of_getElem? hd

/-- The descriptor tells the offset. -/
def Tells (s : RelocState) (d : LdTlsDesc) (tp : Nat) : Prop :=
  slice (s.data d.group) d.offset 16 = descBytes tp

theorem Tells.unique {tp' : Nat} (htp : tp < 2 ^ 64)
    (htp' : tp' < 2 ^ 64) (h : Tells s d tp) (h' : Tells s d tp') : tp = tp' := by
  have heq : descBytes tp = descBytes tp' := h.symm.trans h'
  have hbytes : leBytes 8 tp = leBytes 8 tp' := append_cancel_left heq
  have hnat := congrArg leNat hbytes
  rwa [leNat_leBytes_of_lt htp, leNat_leBytes_of_lt htp'] at hnat

/-- A step keeps what a descriptor tells, if it refers to another one or tells the same. -/
theorem StaticStep.keeps (h : StaticStep c s p s') (hplaced : DescsPlaced c s)
    (hd : d ∈ c.tls_descs)
    (hap : ∀ r off width, FieldAt p r off width → DataApart p.target off width d.group d.offset 16)
    (htp : ∀ tp', TlsRef c p d tp' → tp' = tp) (ht : Tells s d tp) : Tells s' d tp := by
  unfold Tells at ht ⊢
  cases h with
  | field hfield _ hstore => rw [store_elsewhere hstore (hap _ _ _ hfield), ht]
  | descriptor hfield href hdesc hstore =>
    rw [store_elsewhere hstore (by rw [length_leBytes]; exact hap _ _ _ hfield)]
    rcases hplaced.eq_or_apart href.mem hd with rfl | hother
    · have hthere := store_there hdesc
      rw [length_descBytes, htp _ href] at hthere
      exact hthere
    · rw [store_elsewhere hdesc (by rw [length_descBytes]; exact hother), ht]

/-- A step that refers to a descriptor makes it tell the offset. -/
theorem StaticStep.tells (h : StaticStep c s p s')
    (hap : ∀ r off width, FieldAt p r off width → DataApart p.target off width d.group d.offset 16)
    (href : TlsRef c p d tp) : Tells s' d tp := by
  unfold Tells
  cases h with
  | field hfield htype _ =>
    obtain ⟨r, _, _, _, _, hr, hdyn, _⟩ := href
    cases hfield.1.symm.trans hr
    exact absurd hdyn htype
  | descriptor hfield href' hdesc hstore =>
    obtain ⟨rfl, rfl⟩ := href.unique href'
    rw [store_elsewhere hstore (by rw [length_leBytes]; exact hap _ _ _ hfield)]
    have hthere := store_there hdesc
    rwa [length_descBytes] at hthere

/-- The field of the entry points at the descriptor. -/
def Points (s s' : RelocState) (p : RelocPos) (d : LdTlsDesc) : Prop :=
  ∃ r off, FieldAt p r off 4 ∧
    slice (s'.data p.target) off 4 = leBytes 4 (tlsFieldValue s p d r off)

/-- A step keeps the field of another entry. -/
theorem StaticStep.keeps_field {q : RelocPos} (h : StaticStep c s q s')
    (hap : ∀ r' off' width, FieldAt q r' off' width → DataApart p.target off 4 q.target off' width)
    (hdescs : ∀ d ∈ c.tls_descs, DataApart p.target off 4 d.group d.offset 16) :
    slice (s'.data p.target) off 4 = slice (s.data p.target) off 4 := by
  cases h with
  | field hfield _ hstore => exact store_elsewhere hstore (hap _ _ _ hfield).symm
  | descriptor hfield href hdesc hstore =>
    rw [store_elsewhere hstore (by rw [length_leBytes]; exact (hap _ _ _ hfield).symm)]
    exact store_elsewhere hdesc (by rw [length_descBytes]; exact (hdescs _ href.mem).symm)

/-- A step of a general- or local-dynamic access makes its field point at its descriptor. -/
theorem StaticStep.points
    (h : StaticStep c s p s') {r : LdRela} (hr : readRela p.object p.k p.sec p.n = .ok r)
    (htype : IsDynamicTls r.type) : ∃ d tp, TlsRef c p d tp ∧ Points s s' p d := by
  cases h with
  | field hfield hnot _ =>
    cases hfield.1.symm.trans hr
    exact absurd htype hnot
  | descriptor hfield href hdesc hstore =>
    refine ⟨_, _, href, _, _, hfield, ?_⟩
    have hthere := store_there hstore
    rwa [length_leBytes] at hthere

/-- What holds behind a part of the run. -/
structure RunInv (c : RelocContext) (s s' : RelocState) (l : List RelocPos) : Prop where
  got : s'.got = s.got
  points : ∀ p ∈ l, ∀ r, readRela p.object p.k p.sec p.n = .ok r → IsDynamicTls r.type →
    ∃ d tp, TlsRef c p d tp ∧ Points s s' p d
  tells : (∀ p ∈ l, ∀ q ∈ l, ∀ d tp tp', TlsRef c p d tp → TlsRef c q d tp' → tp = tp') →
    ∀ p ∈ l, ∀ d tp, TlsRef c p d tp → Tells s' d tp

/-- The run keeps what holds behind its parts. -/
theorem runInv (hstatic : c.dyn = false)
    (hplaced : DescsPlaced c s) {l : List RelocPos} (hsizes : ∀ p ∈ l, s.sizeOf p.target ≠ 0)
    (hfields : FieldsApart c l) (h : l.foldlM (writeX86 c) s = .ok s') :
    RunInv c s s' l := by
  induction l using reverseRecOn generalizing s' with
  | nil =>
    cases h
    exact ⟨rfl, fun p hp => absurd hp not_mem_nil, fun _ p hp => absurd hp not_mem_nil⟩
  | append_singleton l q ih =>
    rw [foldlM_append] at h
    obtain ⟨s₁, hs₁, h⟩ := bind_eq_ok h
    rw [foldlM_cons] at h
    obtain ⟨s₂, hs₂, h⟩ := bind_eq_ok h
    obtain rfl := ok.inj h
    have hpair := pairwise_append.mp hfields.fields
    have hinv := ih (fun p hp => hsizes p (mem_append_left _ hp))
      ⟨hpair.1, fun p hp => hfields.descs p (mem_append_left _ hp)⟩ hs₁
    have hq : q ∈ l ++ [q] := mem_append_right _ (mem_singleton.mpr rfl)
    have hplaced₁ : DescsPlaced c s₁ :=
      ⟨hplaced.names, hplaced.apart, by rw [hinv.got]; exact hplaced.inside⟩
    have hsize : s₁.sizeOf q.target ≠ 0 := by
      unfold RelocState.sizeOf
      rw [hinv.got]
      exact hsizes q hq
    have hstep := writeX86_step hstatic hplaced₁ hsize hs₂
    have hgot : s₂.got = s.got := hstep.got_eq.trans hinv.got
    have haddr : s₁.address = s.address := by
      unfold RelocState.address
      rw [hinv.got]
    refine ⟨hgot, fun p hp r hr htype => ?_, fun hsame p hp d tp href => ?_⟩
    · rcases mem_append.mp hp with hold | hnew
      · -- The new step keeps the fields of the earlier ones.
        obtain ⟨d, tp, href, r', off, hfield, hslice⟩ := hinv.points p hold r hr htype
        refine ⟨d, tp, href, r', off, hfield, ?_⟩
        rw [hstep.keeps_field, hslice]
        · intro r'' off' width hfield'
          exact hpair.2.2 p hold q (mem_singleton.mpr rfl) _ _ _ _ _ _ hfield hfield'
        · exact fun d hd => hfields.descs p hp _ _ _ hfield d hd
      · obtain rfl := mem_singleton.mp hnew
        obtain ⟨d, tp, href, r', off, hfield, hslice⟩ := hstep.points hr htype
        refine ⟨d, tp, href, r', off, hfield, ?_⟩
        rw [hslice]
        unfold tlsFieldValue
        rw [haddr]
    · rcases mem_append.mp hp with hold | hnew
      · -- The new step refers to another descriptor or fills in the same offset.
        have htells := hinv.tells (fun p hp q hq => hsame p (mem_append_left _ hp) q
          (mem_append_left _ hq)) p hold d tp href
        refine hstep.keeps hplaced₁ href.mem (fun r off width hfield =>
          hfields.descs q hq r off width hfield d href.mem) (fun tp' href' => ?_) htells
        exact (hsame p hp q hq d tp tp' href href').symm
      · obtain rfl := mem_singleton.mp hnew
        exact hstep.tells (fun r off width hfield =>
          hfields.descs p hq r off width hfield d href.mem) href

/-- Entries that the loops come to are for groups with bytes. -/
theorem sizeOf_of_mem {size : Nat → Nat} {objects : List RelocObject}
    (h : p ∈ relocPositions size objects) : size p.target ≠ 0 := by
  obtain ⟨o, -, h⟩ := mem_flatMap.mp h
  split at h
  · exact absurd h not_mem_nil
  · obtain ⟨k, -, h⟩ := mem_flatMap.mp h
    unfold sectionPositions at h
    split at h
    · exact absurd h not_mem_nil
    · split at h
      · exact absurd h not_mem_nil
      · split at h
        · exact absurd h not_mem_nil
        · split at h
          · exact absurd h not_mem_nil
          next hsize =>
            obtain ⟨n, -, rfl⟩ := mem_map.mp h
            exact hsize

theorem TlsRef.lt (h : TlsRef c p d tp) : tp < 2 ^ 64 := by
  obtain ⟨r, sym, name, i, tls_off, -, -, -, -, -, -, rfl⟩ := h
  unfold sub64
  exact Nat.mod_lt _ (by decide)

/-- Along the relocations of a static link, all groups keep their sizes. -/
theorem writeX86_keeps (hstatic : c.dyn = false) (hplaced : DescsPlaced c s)
    (h : writeX86 c s p = .ok s') : s'.got = s.got := by
  by_cases hsize : s.sizeOf p.target = 0
  · obtain ⟨r, -, h⟩ := bind_eq_ok h
    obtain ⟨g, hg, h⟩ := bind_eq_ok h
    have hz : g.size = 0 := by
      unfold RelocState.sizeOf at hsize
      rwa [group_eq_ok hg] at hsize
    rw [if_pos hz] at h
    cases h
    rfl
  · exact (writeX86_step hstatic hplaced hsize h).got_eq

/-- Descriptors of a collection, once layout has kept `.data` with its bytes. -/
theorem DescsStacked.placed (hst : DescsStacked groups c.tls_descs)
    (hkept : ∀ k, findGroup groups ".data" = some k → ∃ g, s.got.groups[k]? = some g ∧
      g.type ≠ SHT_NOBITS ∧ groupSize groups ".data" ≤ g.size) : DescsPlaced c s := by
  refine ⟨hst.names, hst.stacked.imp fun hle => Or.inr (Or.inl hle), fun d hd => ?_⟩
  obtain ⟨hgroup, hin⟩ := hst.inside d hd
  obtain ⟨g, hg, htype, hsize⟩ := hkept _ hgroup
  exact ⟨g, hg, htype, hin.trans hsize⟩

/-- In a static link that keeps `.data` and whose fields share no byte, the field of every general-
    or local-dynamic access points at the access's descriptor, and all descriptors tell the offsets
    of the symbols that refer to them exactly when symbols with one descriptor have one offset. -/
theorem tls_descriptors_iff {c : RelocContext} {s s' : RelocState} {objects : List RelocObject}
    {groups groups' : List LdGroup} (hstatic : c.dyn = false)
    (hroom : groupSize groups ".data" ≤ 2 ^ 64 - 8)
    (hcollect : collectTlsDescriptors groups objects = .ok (groups', c.tls_descs))
    (hkept : ∀ k, findGroup groups' ".data" = some k → ∃ g, s.got.groups[k]? = some g ∧
      g.type ≠ SHT_NOBITS ∧ groupSize groups' ".data" ≤ g.size)
    (hfields : FieldsApart c (relocPositions s.sizeOf objects))
    (h : applyRelocations (writeX86 c) s objects = .ok s') :
    (∀ p ∈ relocPositions s.sizeOf objects, ∀ r, readRela p.object p.k p.sec p.n = .ok r →
        IsDynamicTls r.type → ∃ d tp, TlsRef c p d tp ∧ Points s s' p d) ∧
      ((∀ p ∈ relocPositions s.sizeOf objects, ∀ d tp, TlsRef c p d tp → Tells s' d tp) ↔
        ∀ p ∈ relocPositions s.sizeOf objects, ∀ q ∈ relocPositions s.sizeOf objects,
          ∀ d tp tp', TlsRef c p d tp → TlsRef c q d tp' → tp = tp') := by
  have hplaced := (collectTlsDescriptors_stacked hroom hcollect).placed hkept
  have hrun : (relocPositions s.sizeOf objects).foldlM (writeX86 c) s = .ok s' := by
    refine @applyRelocations_run _ s.sizeOf (fun t => t.got = s.got) ?_ ?_ _ _ _ rfl h
    · intro t ht
      unfold RelocState.sizeOf
      rw [ht]
    · intro t p t' ht hwrite
      refine (writeX86_keeps hstatic ?_ hwrite).trans ht
      exact ⟨hplaced.names, hplaced.apart, by rw [ht]; exact hplaced.inside⟩
  have hinv := runInv hstatic hplaced (fun p hp => sizeOf_of_mem hp) hfields hrun
  refine ⟨hinv.points, fun htells p hp q hq d tp tp' href href' => ?_, hinv.tells⟩
  exact (htells p hp d tp href).unique href.lt href'.lt (htells q hq d tp' href')

/-! ### Two local variables of one name -/

/-- An object with a thread-local variable `x` of its own and a general-dynamic access to it,
    both `k` bytes behind the start of their groups. -/
def localTlsX (k : Nat) : RelocObject where
  object :=
    { name := "x.o"
      origin := none
      is_shared := false
      elf := oneSymbol [some ⟨3, SHT_PROGBITS, 0x403, 4, 0, 4, 0⟩,
        some ⟨9, SHT_PROGBITS, 6, 4, 0, 4, 0⟩, some ⟨15, SHT_RELA, 0, 24, 1, 8, 24⟩]
        ⟨1, 6, 3, 0, 4⟩
      maps := [none, none, none, some (1, k), some (0, k), none] }
  elf_class := 2
  data := leBytes 8 0 ++ leBytes 8 (2 ^ 32 + R_X86_64_TLSGD) ++ leBytes 8 (2 ^ 64 - 4)
  offset := fun _ => 0
  info := fun _ => 4

/-- The groups of a link of two such objects, with the descriptors, as layout places them. -/
def tlsXGroups : List LdGroup :=
  [{ name := ".text", type := SHT_PROGBITS, flags := 6, align := 4, size := 8, rank := 0,
     address := 0x401000 },
    { name := ".tdata", type := SHT_PROGBITS, flags := 0x403, align := 4, size := 8, rank := 3,
      address := 0x402000 },
    { name := ".data", type := SHT_PROGBITS, flags := 3, align := 8, size := 16, rank := 3,
      address := 0x402008 }]

/-- A static link of two such objects. -/
def tlsXLink (a b : RelocObject) : RelocContext where
  link := xLink wantedX wantedX_name [a.object, b.object]
  shared := false
  pie := false
  tls := ⟨tlsXGroups, some 1, none, 8, 8, 4⟩
  tls_size_lt := by decide
  got_group := none
  plt_offset := fun _ => 0
  tls_descs := [⟨"x", 2, 0⟩]

/-- The state of that link before relocations. -/
def tlsXState : RelocState where
  got := ⟨tlsXGroups, []⟩
  data := fun k => replicate (if k = 2 then 16 else 8) 0

/-- The entry of the object. -/
def tlsXPos (k : Nat) : RelocPos := ⟨localTlsX k, 5, ⟨15, SHT_RELA, 0, 24, 1, 8, 24⟩, 0, 0⟩

theorem readRela_tlsX (k : Nat) :
    readRela (tlsXPos k).object (tlsXPos k).k (tlsXPos k).sec (tlsXPos k).n =
      .ok ⟨0, R_X86_64_TLSGD, 1, 2 ^ 64 - 4⟩ := by
  have hdata : readRela (localTlsX 0) 5 ⟨15, SHT_RELA, 0, 24, 1, 8, 24⟩ 0 =
      .ok ⟨0, R_X86_64_TLSGD, 1, 2 ^ 64 - 4⟩ := by decide
  exact hdata

/-- One such object: its field and its descriptor are right. -/
theorem tls_descriptors_iff_alone :
    ∃ s', applyRelocations (writeX86 (tlsXLink (localTlsX 0) (localTlsX 4))) tlsXState
        [localTlsX 0] = .ok s' ∧
      ((∀ p ∈ relocPositions tlsXState.sizeOf [localTlsX 0], ∀ r,
          readRela p.object p.k p.sec p.n = .ok r → IsDynamicTls r.type → ∃ d tp,
            TlsRef (tlsXLink (localTlsX 0) (localTlsX 4)) p d tp ∧ Points tlsXState s' p d) ∧
        ((∀ p ∈ relocPositions tlsXState.sizeOf [localTlsX 0], ∀ d tp,
            TlsRef (tlsXLink (localTlsX 0) (localTlsX 4)) p d tp → Tells s' d tp) ↔
          ∀ p ∈ relocPositions tlsXState.sizeOf [localTlsX 0],
            ∀ q ∈ relocPositions tlsXState.sizeOf [localTlsX 0], ∀ d tp tp',
              TlsRef (tlsXLink (localTlsX 0) (localTlsX 4)) p d tp →
                TlsRef (tlsXLink (localTlsX 0) (localTlsX 4)) q d tp' → tp = tp')) := by
  have hpos : relocPositions tlsXState.sizeOf [localTlsX 0] = [tlsXPos 0] := rfl
  obtain ⟨s', hs'⟩ : ∃ s', applyRelocations
      (writeX86 (tlsXLink (localTlsX 0) (localTlsX 4))) tlsXState [localTlsX 0] = .ok s' := ⟨_, rfl⟩
  refine ⟨s', hs', @tls_descriptors_iff _ _ _ _ (tlsXGroups.take 2) _ rfl (by decide) rfl ?_ ?_ hs'⟩
  · intro k hk
    obtain rfl : 2 = k := Option.some_inj.mp hk
    exact ⟨_, rfl, by decide, by decide⟩
  · rw [hpos]
    refine ⟨pairwise_singleton _ _, fun p hp r off width hfield d hd => ?_⟩
    obtain rfl := mem_singleton.mp hp
    obtain rfl := mem_singleton.mp hd
    exact Or.inl (by decide)

/-- Two such objects: the link succeeds, and the descriptor that the field of the first points at
    tells the offset of the variable of the second. -/
theorem tls_descriptor_of_other_object :
    ∃ groups s', collectTlsDescriptors (tlsXGroups.take 2) [localTlsX 0, localTlsX 4] =
        .ok (groups, (tlsXLink (localTlsX 0) (localTlsX 4)).tls_descs) ∧
      applyRelocations (writeX86 (tlsXLink (localTlsX 0) (localTlsX 4))) tlsXState
        [localTlsX 0, localTlsX 4] = .ok s' ∧
      ∃ p ∈ relocPositions tlsXState.sizeOf [localTlsX 0, localTlsX 4], ∃ d tp,
        TlsRef (tlsXLink (localTlsX 0) (localTlsX 4)) p d tp ∧ Points tlsXState s' p d ∧
          ¬Tells s' d tp := by
  obtain ⟨s', hs'⟩ : ∃ s', applyRelocations (writeX86 (tlsXLink (localTlsX 0) (localTlsX 4)))
      tlsXState [localTlsX 0, localTlsX 4] = .ok s' := ⟨_, rfl⟩
  have hbytes : ((applyRelocations (writeX86 (tlsXLink (localTlsX 0) (localTlsX 4)))
      tlsXState [localTlsX 0, localTlsX 4]).toOption.map fun t =>
        (slice (t.data 0) 0 4, slice (t.data 2) 0 16)) = some (leBytes 4 0x1004, descBytes (2 ^ 64 - 4)) := by decide
  rw [hs'] at hbytes
  obtain ⟨hfield, hdesc⟩ := Prod.mk.inj (Option.some_inj.mp hbytes)
  have hpos : relocPositions tlsXState.sizeOf [localTlsX 0, localTlsX 4] =
      [tlsXPos 0, tlsXPos 4] := rfl
  refine ⟨_, s', rfl, hs', tlsXPos 0, by rw [hpos]; exact mem_cons_self, ⟨"x", 2, 0⟩,
    2 ^ 64 - 8, ?_, ?_, fun htells => ?_⟩
  · exact ⟨_, ⟨1, 6, 3, 0, 4⟩, "x", 0, 0, readRela_tlsX 0, Or.inl rfl, by decide, rfl, rfl,
      by decide, by decide⟩
  · exact ⟨_, 0, ⟨readRela_tlsX 0, rfl, rfl⟩, hfield⟩
  · exact absurd (hdesc.symm.trans htells) (by decide)

end MeuOS.Ld
