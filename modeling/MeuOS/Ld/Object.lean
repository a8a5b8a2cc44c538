import MeuOS.Ld.Symbol

namespace MeuOS.Ld

open MeuOS.Lib List

/-!
# Sections of an object in the output groups (`link.c`, `symbol.c`)

`get_group` and `append_group_data` as the code calls them, with the index and the offset they
return and any alignment, and the section loop of an object:

* `getGroup`, `appendGroupData` — the two operations on the group array;
* `getGroup_groups`, `appendGroupData_groups` — on well-formed sections they are the operations
  of `GroupTable`;
* `collectSectionLoop` — the section loop;
* `LdContext`, `appendObject` — the state of a link and `append_object`.
-/

/-! ### The group array -/

/-- `get_group`: the groups and the index of the group of the name. -/
def getGroup (groups : List LdGroup) (name : String) (type flags align : Nat) :
    List LdGroup × Nat :=
  match findGroup groups name with
  | some i => (groups.modify i fun g => if g.align < align then { g with align := align } else g, i)
  | none =>
    (groups ++
      [{ name := name
         type := type
         flags := flags
         align := if align = 0 then 1 else align
         size := 0
         rank := sectionRank name }], groups.length)

/-- `append_group_data` on the group at an index: the groups and the offset of the new bytes;
    `none` for an overflow. -/
def appendGroupData (groups : List LdGroup) (i size align : Nat) : Option (List LdGroup × Nat) :=
  match groups[i]? with
  | none => none
  | some g =>
    let aligned := alignUp64 g.size (if align = 0 then 1 else align)
    if size > 2 ^ 64 - 1 - aligned then none
    else some (groups.modify i fun g => { g with size := add64 aligned size }, aligned)

theorem findGroup_some {groups : List LdGroup} {name : String} {i : Nat}
    (h : findGroup groups name = some i) : ∃ hi : i < groups.length, groups[i].name = name := by
  unfold findGroup at h
  obtain ⟨hi, hp, -⟩ := findIdx?_eq_some_iff_getElem.mp h
  exact ⟨hi, by simpa using hp⟩

/-- A name without an index names no group. -/
theorem findGroup_none {groups : List LdGroup} {name : String}
    (h : findGroup groups name = none) : name ∉ groups.map LdGroup.name := by
  unfold findGroup at h
  rw [findIdx?_eq_none_iff] at h
  intro hm
  obtain ⟨g, hg, rfl⟩ := mem_map.mp hm
  simpa using h g hg

/-- With distinct names, changing the group at the index of a name is changing the groups of
    that name. -/
theorem modify_eq_map {groups : List LdGroup} (hn : (groups.map LdGroup.name).Nodup) {i : Nat}
    (hi : i < groups.length) (f : LdGroup → LdGroup) :
    groups.modify i f = groups.map fun g => if g.name = groups[i].name then f g else g := by
  apply ext_getElem
  · simp
  · intro j hj hj'
    rw [getElem_modify, getElem_map]
    have hj0 : j < groups.length := by simpa using hj'
    by_cases hij : i = j
    · subst hij
      rw [if_pos rfl, if_pos rfl]
    · rw [if_neg hij, if_neg]
      intro hname
      have hi' : i < (groups.map LdGroup.name).length := by simpa using hi
      have hj' : j < (groups.map LdGroup.name).length := by simpa using hj0
      have hij' : (groups.map LdGroup.name)[i] = (groups.map LdGroup.name)[j] := by
        simpa using hname.symm
      exact hij ((List.Nodup.getElem_inj_iff hn).mp hij')

/-- On a section of a well-formed table `get_group` is the table's operation. -/
theorem getGroup_groups (t : GroupTable) (s : Section) :
    (getGroup t.groups s.name s.type s.flags s.align).1 = (t.getGroup s).groups := by
  have hpos : s.align ≠ 0 := by
    obtain ⟨k, -, hk⟩ := s.align_pow
    rw [hk]
    exact (Nat.two_pow_pos k).ne'
  unfold getGroup GroupTable.getGroup
  cases hf : findGroup t.groups s.name with
  | some i =>
    obtain ⟨hi, hname⟩ := findGroup_some hf
    have hmem : s.name ∈ t.groups.map LdGroup.name :=
      mem_map.mpr ⟨t.groups[i], getElem_mem hi, hname⟩
    rw [dif_pos hmem]
    dsimp only
    rw [modify_eq_map t.nodup hi, hname]
    refine map_congr_left fun g _ => ?_
    unfold raiseAlign
    by_cases hg : g.name = s.name
    · simp [hg]
    · simp [hg]
  | none =>
    rw [dif_neg (findGroup_none hf)]
    rw [if_neg hpos]
    rfl

/-- On the group of a section of a well-formed table `append_group_data` is the table's
    operation. -/
theorem appendGroupData_groups (t : GroupTable) (s : Section) {i : Nat}
    (hf : findGroup t.groups s.name = some i) :
    (appendGroupData t.groups i s.size s.align).map Prod.fst = (t.append s).map (·.groups) := by
  have hpos : s.align ≠ 0 := by
    obtain ⟨k, -, hk⟩ := s.align_pow
    rw [hk]
    exact (Nat.two_pow_pos k).ne'
  obtain ⟨hi, hname⟩ := findGroup_some hf
  -- The table asks all groups of the name, of which there is one.
  have hcond : (∀ g ∈ t.groups, g.name = s.name → alignUp64 g.size s.align + s.size < 2 ^ 64)
      ↔ ¬s.size > 2 ^ 64 - 1 - alignUp64 t.groups[i].size s.align := by
    constructor
    · intro hall
      have := hall _ (getElem_mem hi) hname
      omega
    · intro hle g hg hgn
      have hgi : g = t.groups[i] :=
        inj_on_of_nodup_map t.nodup hg (getElem_mem hi) (hgn.trans hname.symm)
      have hlt := s.size_lt
      have hal : alignUp64 g.size s.align < 2 ^ 64 := by
        unfold alignUp64
        exact lt_of_le_of_lt Nat.and_le_left (add64_lt _ _)
      rw [hgi] at hal ⊢
      omega
  unfold appendGroupData GroupTable.append
  rw [getElem?_eq_getElem hi]
  dsimp only
  rw [if_neg hpos]
  by_cases hc : s.size > 2 ^ 64 - 1 - alignUp64 t.groups[i].size s.align
  · rw [if_pos hc, if_neg (fun h => hcond.mp h hc)]
    rfl
  · rw [if_neg hc, if_pos (hcond.mpr hc), Option.map_some, Option.map_some,
      modify_eq_map t.nodup hi, hname, Option.some_inj]
    refine map_congr_left fun g hg => ?_
    unfold grow
    by_cases hgn : g.name = s.name
    · have hgi : g = t.groups[i] :=
        inj_on_of_nodup_map t.nodup hg (getElem_mem hi) (hgn.trans hname.symm)
      rw [if_pos hgn, if_pos hgn, hgi]
    · rw [if_neg hgn, if_neg hgn]

/-! ### The section loop -/

/-- The section types that take part in the output. -/
def ElfSection.collected (s : ElfSection) : Bool :=
  s.type == SHT_PROGBITS || s.type == SHT_NOBITS || s.type == SHT_INIT_ARRAY
    || s.type == SHT_FINI_ARRAY || s.type == SHT_PREINIT_ARRAY

/-- The alignment asked for, at least one. -/
def ElfSection.align (s : ElfSection) : Nat := if s.alignment = 0 then 1 else s.alignment

/-- The section loop over the indices given, with the groups and the section maps so far.  The
    loop for members of archives (`member`, `collect_one_object_sections`) gives the group of a
    section that is not loaded the section's flags; the one for input files does not. -/
def collectSectionLoop (member : Bool) (name : String) (o : ElfObject) :
    List Nat → List LdGroup → List (Option (Nat × Nat)) →
      Except String (List LdGroup × List (Option (Nat × Nat)))
  | [], groups, maps => .ok (groups, maps)
  | j :: js, groups, maps =>
    match o.getSection j with
    | none => .error ("invalid section in object: " ++ name)
    | some s =>
      if !s.collected then collectSectionLoop member name o js groups maps
      else
        match o.sectionName j with
        | none => .error ("section has no name: " ++ name)
        | some secName =>
          if secName = "" then .error ("section has no name: " ++ name)
          else
            let (groups, i) := getGroup groups secName s.type s.flags s.align
            let groups :=
              if member && s.flags &&& SHF_ALLOC == 0 then
                groups.modify i fun g => { g with flags := s.flags }
              else groups
            match appendGroupData groups i s.size s.align with
            | none => .error "output section overflow"
            | some (groups, offset) =>
              collectSectionLoop member name o js groups (maps.set j (some (i, offset)))

/-! ### The state of a link -/

/-- The part of `struct ld_context` that symbol resolution reads and writes. -/
structure LdContext where
  target : Target
  objects : List LdObject
  groups : List LdGroup
  globals : GlobalTable

/-- A failed link: the message and the objects that were taken up to then. -/
structure LdFail where
  message : String
  objects : List LdObject

/-- `append_object` for a file the ELF reader has accepted: no section has a group yet. -/
def appendObject (ctx : LdContext) (name : String) (origin : Option (Nat × Nat))
    (o : ElfObject) : Except LdFail LdContext :=
  match o.getSection o.section_name_index with
  | none => .error ⟨"invalid section-name table: " ++ name, ctx.objects⟩
  | some _ =>
    .ok { ctx with
      objects := ctx.objects ++
        [{ name := name
           origin := origin
           is_shared := o.type ≠ ET_REL
           elf := o
           maps := replicate o.sections.length none }] }

end MeuOS.Ld
