import MeuOS.Ld.Headers
import MeuOS.Ld.RelaDyn
import MeuOS.Rtld.Lookup

namespace MeuOS.Rtld

open MeuOS.Lib MeuOS.Ld List Lib.Checked Option

/-!
# Dynamic symbols, from the linker to the loader (`dynamic.c`, `rtld.c`)

* `outputLib` — the tables of an output, as the loader sees them;
* `hitAt_entry` — the loader's test of a symbol that the linker wrote;
* `Finds`, `finds_iff` — an exported global is found exactly when it has a section index;
* `dynamic_symbols_iff` — when all exported names are found and all dynamic relocations have the
  index of the symbol of their name.
-/

/-! ### Names -/

theorem nameBytes_inj {a b : String} : nameBytes a = nameBytes b ↔ a = b := by
  unfold nameBytes
  constructor
  · intro h
    exact String.toByteArray_inj.mp (ByteArray.ext (Array.toList_inj.mp h))
  · rintro rfl
    rfl

theorem nameBytes_ne_nil {name : String} (h : name ≠ "") : nameBytes name ≠ [] := by
  intro hnil
  have hempty : nameBytes name = nameBytes "" := hnil
  exact h (nameBytes_inj.mp hempty)

/-- A name takes two bytes of `.dynstr` at least. -/
theorem two_mul_le_dynstrBytes (c : DynContext) :
    2 * (dynsymNames c).length + 1 ≤ (dynstrBytes c).length := by
  have hnamed : ∀ name ∈ dynsymNames c, name ≠ "" := by
    intro name hname
    rw [← names_dynsymGlobals c []] at hname
    obtain ⟨p, hp, rfl⟩ := mem_map.mp hname
    exact c.globals.named _ (mem_dynsymGlobals hp).1
  have hstrings : ∀ names : List String, (∀ name ∈ names, name ≠ "") →
      2 * names.length ≤ (names.flatMap stringBytes).length := by
    intro names hne
    induction names with
    | nil => exact le_rfl
    | cons name names ih =>
      have hpos := length_pos_iff.mpr (nameBytes_ne_nil (hne name mem_cons_self))
      have hrest := ih fun n hn => hne n (mem_cons_of_mem _ hn)
      simp only [flatMap_cons, length_append, length_cons, stringBytes,
        length_nil] at hrest ⊢
      omega
  have h := hstrings _ hnamed
  have hlead : 1 ≤ (leadBytes c).length := by simp [leadBytes]
  unfold dynstrBytes
  rw [length_append]
  omega

/-! ### The output as the loader sees it -/

/-- What `DT_SYMTAB`, `DT_HASH`, `DT_STRTAB` and `DT_STRSZ` of the output lead to.  The stages behind
    `fill_dynamic_addresses` write to sections of the input and to the GOT only. -/
def outputLib (c : DynContext) (t : DynTables) (groups : List LdGroup) (s : GroupData) :
    SymbolLib where
  symtab := (findGroup groups ".dynsym").map fun k => fillDynsym c t groups (s.data k)
  hash := (findGroup groups ".hash").map s.data
  strtab := ((findGroup groups ".dynstr").map s.data).getD []
  strsz := namedGroup groups ".dynstr" LdGroup.size

theorem slice_slice {bs : Bytes} {off len i k : Nat} (h : i + k ≤ len) :
    slice (slice bs off len) i k = slice bs (off + i) k := by
  unfold slice
  rw [drop_take, drop_drop, take_take, Nat.min_eq_left (by omega)]

theorem leAt_field {bs a b : Bytes} {off len k v : Nat} (hin : off + len ≤ bs.length)
    (hslice : slice bs off len = a ++ (leBytes k v ++ b)) (hfit : a.length + k ≤ len)
    (hv : v < 256 ^ k) : leAt (ε := String) bs (off + a.length) k = .ok v := by
  rw [leAt_inside (by omega), ← slice_slice hfit, hslice,
    slice_append_mid _ _ _ rfl (length_leBytes k v).symm, leNat_leBytes_of_lt hv]

/-- The loader takes a symbol that the linker wrote for the definition of a name when it has a
    section index and this name. -/
theorem hitAt_entry {c : DynContext} {groups : List LdGroup} {lib : SymbolLib} {e : DynsymEntry}
    {i : Nat} {symtab name rest : Bytes} (h64 : c.elf64 = true)
    (hin : 24 * i + 24 ≤ symtab.length)
    (hslice : slice symtab (24 * i) 24 = dynsymEntryBytes c groups e)
    (hpos : 0 < e.dynstr_offset) (hsz : e.dynstr_offset < lib.strsz)
    (hlt : e.dynstr_offset < 2 ^ 32) (hstt : e.stt < 2 ^ 4)
    (hstr : lib.strtab.drop e.dynstr_offset = stringBytes e.global.name ++ rest)
    (hnul : 0 ∉ nameBytes e.global.name) (hname : 0 ∉ name) :
    hitAt lib symtab name i =
      .ok (dynsymShndx e.global != 0 && nameBytes e.global.name == name) := by
  have hshndx : dynsymShndx e.global < 2 ^ 16 := by
    unfold dynsymShndx
    split
    · split
      · exact Nat.mod_lt _ (by decide)
      · decide
    · decide
  have hbind : ((dynsymBind e.global <<< 4 ||| e.stt) % 2 ^ 8) >>> 4 ≠ 0 := by
    have htwo : dynsymBind e.global = 1 ∨ dynsymBind e.global = 2 := by
      unfold dynsymBind
      split
      · exact .inl rfl
      · split
        · exact .inr rfl
        · exact .inl rfl
    rw [← Nat.shiftLeft_add_eq_or_of_lt hstt, Nat.shiftLeft_eq, Nat.shiftRight_eq_div_pow]
    rcases htwo with h | h
    · rw [h]
      omega
    · rw [h]
      omega
  unfold dynsymEntryBytes writeDynsymEntry at hslice
  rw [if_pos h64] at hslice
  simp only [append_assoc] at hslice
  have hread_name : leAt (ε := String) symtab (24 * i) 4 = .ok e.dynstr_offset :=
    leAt_field (a := []) hin hslice (by decide) hlt
  have hread_info : leAt (ε := String) symtab (24 * i + 4) 1 =
      .ok ((dynsymBind e.global <<< 4 ||| e.stt) % 2 ^ 8) := by
    have h := leAt_field (a := leBytes 4 e.dynstr_offset) hin hslice (by simp)
      (Nat.mod_lt _ (by decide))
    rwa [length_leBytes] at h
  have hread_shndx : leAt (ε := String) symtab (24 * i + 6) 2 = .ok (dynsymShndx e.global) := by
    rw [← append_assoc, ← append_assoc] at hslice
    have h := leAt_field hin hslice (by simp) hshndx
    simpa using h
  unfold hitAt
  rw [hread_name, ok_bind, if_pos ⟨hpos, hsz⟩, hread_info, ok_bind, hread_shndx,
    ok_bind]
  by_cases hzero : dynsymShndx e.global = 0
  · rw [if_neg fun h => h.2 hzero, hzero]
    rfl
  · rw [if_pos ⟨hbind, hzero⟩, hstr]
    unfold stringBytes
    rw [append_assoc, singleton_append, rtldStrcmp_eq hnul hname]
    simp [hzero]

/-! ### The search for an exported name -/

theorem find?_eq_some_of_unique {α : Type*} {l : List α} {p : α → Bool} {a : α} (ha : a ∈ l)
    (hp : p a = true) (huniq : ∀ b ∈ l, p b = true → b = a) : l.find? p = some a := by
  cases hf : l.find? p with
  | none => exact absurd hp (find?_eq_none.mp hf a ha)
  | some b => rw [huniq b (mem_of_find?_eq_some hf) (find?_some hf)]

theorem dynsymShndx_ne_zero {g : LdGlobal} (hdef : g.defined = true) :
    dynsymShndx g ≠ 0 ↔ ∃ k, g.group = some k ∧ (k + 1) % 2 ^ 16 ≠ 0 := by
  unfold dynsymShndx
  cases g.group with
  | none => simp
  | some k => simp [hdef]

section link

variable {c : DynContext} {s s' : GroupData} {t : DynTables} {lines : List (String × Int)}
  {groups : List LdGroup}

/-- The tables of a link and the groups that are laid out for its output. -/
structure Tables (c : DynContext) (s s' : GroupData) (t : DynTables) (lines : List (String × Int))
    (groups : List LdGroup) : Prop where
  dyn : c.dyn = true
  fresh : NoTables s
  built : buildDynamicTables c s = .ok (s', t)
  laid : groups = (layoutTls c.shared (scriptRanks lines s'.groups)).groups
  /-- Names are C strings. -/
  cnames : ∀ g ∈ c.globals.items, 0 ∉ nameBytes g.name
  /-- The GOT has one entry for a name. -/
  got : (c.got.map LdGotEntry.name).Nodup
  /-- `st_name` has 32 bits. -/
  size : (dynstrBytes c).length < 2 ^ 32

theorem Tables.names (h : Tables c s s' t lines groups) : t.names = dynsymNames c := by
  obtain ⟨-, -, -, -, -, groups₀, hentries⟩ := buildDynamicTables_contents h.dyn h.fresh h.built
  apply ext_getElem?
  intro i
  unfold DynTables.names
  rw [getElem?_map]
  cases he : t.entries[i]? with
  | some e => exact (entriesOf_spec h.size (hentries ▸ he)).2.1.symm
  | none =>
    have hlen := getElem?_eq_none_iff.mp he
    rw [hentries, length_entriesOf] at hlen
    exact (getElem?_eq_none hlen).symm

/-- What the loader sees of the tables. -/
theorem Tables.outputLib_eq (h : Tables c s s' t lines groups) :
    outputLib c t groups s' =
      { symtab := some (fillDynsym c t groups
          (replicate ((t.entries.length + 1) * c.symSize) 0))
        hash := some (hashBytes t.entries.length (t.entries.map fun e => nameBytes e.global.name))
        strtab := dynstrBytes c
        strsz := (dynstrBytes c).length } := by
  obtain ⟨⟨i, hstr⟩, ⟨j, hsym⟩, ⟨k, hhash⟩, -, hcount, -⟩ :=
    buildDynamicTables_contents h.dyn h.fresh h.built
  have hnames : groups.map LdGroup.name = s'.groups.map LdGroup.name := by
    rw [h.laid]
    exact layoutTls_names _ _ _
  have hsizes : groups.map LdGroup.size = s'.groups.map LdGroup.size := by
    rw [h.laid]
    exact layoutTls_map LdGroup.size (fun _ _ => rfl) (fun _ _ _ => rfl) _ _ _
  have hsize : namedGroup groups ".dynstr" LdGroup.size = (dynstrBytes c).length := by
    obtain ⟨g, hg, -, hgsize⟩ := hstr.sized
    have hget : (groups.map LdGroup.size)[i]? = some (dynstrBytes c).length := by
      rw [hsizes, getElem?_map, hg, ← hgsize]
      rfl
    rw [getElem?_map] at hget
    obtain ⟨g', hg', hsize'⟩ := map_eq_some_iff.mp hget
    unfold namedGroup
    rw [findGroup_congr hnames, hstr.found, bind_some, hg']
    exact hsize'
  unfold outputLib
  rw [findGroup_congr hnames ".dynsym", findGroup_congr hnames ".hash",
    findGroup_congr hnames ".dynstr", hsym.found, hhash.found, hstr.found, hsize, map_some,
    map_some, map_some, hsym.data, hhash.data, hstr.data, hcount]
  rfl

/-- The search for a name finds the entry of an exported global of the output. -/
def Finds (c : DynContext) (t : DynTables) (groups : List LdGroup) (s : GroupData)
    (g : LdGlobal) : Prop :=
  ∃ i e, t.entries[i]? = some e ∧ e.global = g ∧ ∀ fuel, dynsymCount c < fuel → ∀ libs,
    rtldFindSym fuel (outputLib c t groups s :: libs) (nameBytes g.name) = .ok (some (0, i + 1))

/-- The search of the output for the name of an exported global comes to its end: at the entry of
    the global, or, where that has no section index, without a symbol. -/
theorem Tables.search (h : Tables c s s' t lines groups) (h64 : c.elf64 = true) {g : LdGlobal}
    (hg : g ∈ exportedGlobals c) :
    ∃ i e, t.entries[i]? = some e ∧ e.global = g ∧ ∀ fuel, dynsymCount c < fuel →
      findInLib fuel (outputLib c t groups s') (nameBytes g.name) =
        .ok (if dynsymShndx g ≠ 0 then some (i + 1) else none) := by
  obtain ⟨-, -, -, hoffset, hcount, groups₀, hentries⟩ :=
    buildDynamicTables_contents h.dyn h.fresh h.built
  have hgmem : g ∈ c.globals.items := (mem_filter.mp hg).1
  -- The entry of the global, and that of any name.
  have hname : g.name ∈ t.names := by
    rw [h.names]
    exact mem_append_left _ (mem_map_of_mem hg)
  obtain ⟨e, he, hename⟩ := mem_map.mp hname
  obtain ⟨i, hi⟩ := getElem?_of_mem he
  have hspec := entriesOf_spec h.size (hentries ▸ hi)
  have heg : e.global = g := by
    have hmem := (mem_dynsymGlobals hspec.1).1
    have hfind := GlobalTable.find_of_mem hmem
    rw [hename, GlobalTable.find_of_mem hgmem] at hfind
    exact (some.inj hfind).symm
  refine ⟨i, e, hi, heg, fun fuel hfuel => ?_⟩
  have hnodup : t.names.Nodup := by
    rw [h.names]
    exact dynsymNames_nodup h.got
  let names := t.entries.map fun e => nameBytes e.global.name
  have hlen : names.length = t.entries.length := length_map _
  let test : Nat → Bool := fun j => (t.entries[j - 1]?).elim false fun e =>
    dynsymShndx e.global != 0 && nameBytes e.global.name == nameBytes g.name
  have hhit : ∀ j < names.length, hitAt (outputLib c t groups s')
      (fillDynsym c t groups (replicate ((t.entries.length + 1) * c.symSize) 0))
        (nameBytes g.name) (j + 1) = .ok (test (j + 1)) := by
    intro j hj
    obtain ⟨e', hej⟩ : ∃ e', t.entries[j]? = some e' :=
      ⟨_, getElem?_eq_getElem (hlen ▸ hj)⟩
    obtain ⟨hmem, -, hpos, hlt, rest, hdrop⟩ := entriesOf_spec h.size (hentries ▸ hej)
    obtain ⟨hitem, hstt, -⟩ := mem_dynsymGlobals hmem
    obtain ⟨hslice, hlength⟩ := @slice_fillDynsym c t groups j e' hoffset hej
    have hsym : c.symSize = 24 := by rw [DynContext.symSize, if_pos h64]
    have htest : test (j + 1) = (dynsymShndx e'.global != 0 &&
        nameBytes e'.global.name == nameBytes g.name) := by
      show (t.entries[j + 1 - 1]?).elim false _ = _
      rw [Nat.add_sub_cancel, hej]
      rfl
    rw [htest, h.outputLib_eq]
    rw [hsym] at hslice hlength ⊢
    rw [Nat.mul_comm (j + 1) 24] at hslice
    exact hitAt_entry h64 (by omega) hslice hpos hlt (lt_trans hlt h.size) hstt hdrop
      (h.cnames _ hitem) (h.cnames g hgmem)
  have hsmall : 2 * (names.length + 1) ≤ 2 ^ 32 := by
    have h₁ := two_mul_le_dynstrBytes c
    have h₂ := h.size
    rw [← h.names, DynTables.names, length_map] at h₁
    omega
  have hlib := h.outputLib_eq
  have hfind : findInLib fuel (outputLib c t groups s') (nameBytes g.name) =
      .ok ((members (buckets names.length names)
        (elfHash32 (nameBytes g.name) % bucketCount names.length)).find? test) :=
    findInLib_eq (by rw [hlib]) (by rw [hlib, hlen]) hsmall hhit (by omega)
  rw [hfind]
  -- Another hit would be another entry of the name.
  have hunique : ∀ b ∈ members (buckets names.length names)
      (elfHash32 (nameBytes g.name) % bucketCount names.length), test b = true → b = i + 1 := by
    intro b hb htest
    obtain ⟨k, rfl, -⟩ := mem_members.mp hb
    cases hk : t.entries[k]? with
    | none => simp [test, hk] at htest
    | some e' =>
      have hsame : e'.global.name = g.name := by
        simp only [test, Nat.add_sub_cancel, hk, elim_some, Bool.and_eq_true,
          beq_iff_eq] at htest
        exact nameBytes_inj.mp htest.2
      have hki : t.names[k]? = some g.name := by
        rw [DynTables.names, getElem?_map, hk, ← hsame]
        rfl
      have hii : t.names[i]? = some g.name := by
        rw [DynTables.names, getElem?_map, hi, ← hename]
        rfl
      have hlt : i < t.names.length := (List.getElem?_eq_some_iff.mp hii).1
      rw [(getElem?_inj hlt hnodup).mp (hii.trans hki.symm)]
  have hself : test (i + 1) = (dynsymShndx g != 0) := by
    simp [test, hi, heg]
  congr 1
  by_cases hshndx : dynsymShndx g = 0
  · rw [if_neg (not_not.mpr hshndx), find?_eq_none]
    intro b hb htest
    rw [hunique b hb htest, hself, hshndx] at htest
    cases htest
  · rw [if_pos hshndx]
    refine find?_eq_some_of_unique (mem_members.mpr ⟨i, rfl, ?_⟩) (by simp [hself, hshndx]) hunique
    unfold buckets
    rw [getElem?_map, getElem?_map, hi, ← heg]
    rfl

/-- An exported global is found exactly when it has a section index. -/
theorem Tables.finds_iff (h : Tables c s s' t lines groups) (h64 : c.elf64 = true) {g : LdGlobal}
    (hg : g ∈ exportedGlobals c) :
    Finds c t groups s' g ↔ ∃ k, g.group = some k ∧ (k + 1) % 2 ^ 16 ≠ 0 := by
  have hdef : g.defined = true := by
    have h := (mem_filter.mp hg).2
    simp only [Bool.and_eq_true] at h
    exact h.1.1
  rw [← dynsymShndx_ne_zero hdef]
  obtain ⟨i, e, hi, heg, hsearch⟩ := h.search h64 hg
  have hrun : ∀ fuel, dynsymCount c < fuel → ∀ libs, dynsymShndx g ≠ 0 →
      rtldFindSym fuel (outputLib c t groups s' :: libs) (nameBytes g.name) =
        .ok (some (0, i + 1)) := by
    intro fuel hfuel libs hshndx
    unfold rtldFindSym findSymFrom
    rw [hsearch fuel hfuel, if_pos hshndx]
    rfl
  constructor
  · rintro ⟨j, e', -, -, hfinds⟩ hshndx
    have hnone : rtldFindSym (dynsymCount c + 1) [outputLib c t groups s'] (nameBytes g.name) =
        .ok none := by
      unfold rtldFindSym findSymFrom
      rw [hsearch _ (Nat.lt_succ_self _), if_neg (not_not.mpr hshndx)]
      rfl
    exact absurd (hnone.symm.trans (hfinds _ (Nat.lt_succ_self _) [])) nofun
  · intro hshndx
    exact ⟨i, e, hi, heg, fun fuel hfuel libs => hrun fuel hfuel libs hshndx⟩

end link

/-- For every `-shared` or `-pie` link that comes to its dynamic relocations: all exported names are
    found by the loader (of an ELF64 output, which it loads only) and all relocations of the GOT
    have the index of the symbol of their name, except those against the load base, exactly when
    every exported global is in a group and every name that a relocation by a symbol is for is in
    `.dynsym`, with an index that fits. -/
theorem dynamic_symbols_iff {c : RelaContext} {s s' : GroupData} {t : DynTables}
    {lines : List (String × Int)} {groups : List LdGroup} {r : RelaTables}
    (h : Tables c.toDynContext s s' t lines groups) (hrela : buildRelaDyn c t groups = .ok r) :
    ∃ got_addr xs, r.dyn = c.got.flatMap (fun e => (gotRelas c t groups got_addr e).1) ++ xs ∧
      r.plt = c.got.flatMap (fun e => (gotRelas c t groups got_addr e).2) ∧
      (∀ x ∈ xs, x.info = c.relative) ∧
      (((c.elf64 = true → ∀ g ∈ exportedGlobals c.toDynContext,
            Finds c.toDynContext t groups s' g) ∧
          ∀ e ∈ c.got,
            ∀ x ∈ (gotRelas c t groups got_addr e).1 ++ (gotRelas c t groups got_addr e).2,
              x.type c.elf64 ≠ c.relative → Carries c t e x) ↔
        (c.elf64 = true → ∀ g ∈ exportedGlobals c.toDynContext,
            ∃ k, g.group = some k ∧ (k + 1) % 2 ^ 16 ≠ 0) ∧
          ∀ e ∈ c.got, NeedsIndex c e →
            e.name ∈ dynsymNames c.toDynContext ∧ IndexFits c e) := by
  obtain ⟨got_addr, xs, hdyn, hplt, hxs⟩ := buildRelaDyn_eq hrela h.dyn
  have hnodup : t.names.Nodup := by
    rw [h.names]
    exact dynsymNames_nodup h.got
  have hsmall : t.names.length + 1 < 2 ^ 32 := by
    have h₁ := two_mul_le_dynstrBytes c.toDynContext
    have h₂ := h.size
    rw [h.names]
    omega
  refine ⟨got_addr, xs, hdyn, hplt, hxs, and_congr ?_ ?_⟩
  · exact forall_congr' fun h64 => forall₂_congr fun g hg => h.finds_iff h64 hg
  · exact forall₂_congr fun e _ => carries_iff h.names hnodup hsmall got_addr

/-! ### Links with one import -/

/-- A `-shared` or `-pie` link for x86-64 with the global `x` and some requests for the GOT. -/
def xDynLink (pie : Bool) (g : LdGlobal) (hg : g.name = "x") (calls : List GotCall) :
    RelaContext where
  shared := !pie
  pie := pie
  elf64 := true
  soname := none
  add_needed := []
  version_script := none
  globals := xTable g hg
  objects := [⟨usesX, 2, [], fun _ => 0, fun _ => 0⟩]
  got := (runGot [] calls).items
  target_name := "x86_64"
  got_group := some 1
  x86_64_class := fun _ => rfl
  arm_class := by decide

/-- The groups of such a link before its dynamic tables. -/
def xDynGroups : GroupData where
  groups :=
    [{ name := ".text", type := SHT_PROGBITS, flags := 6, align := 4, size := 8, rank := 0 },
      { name := ".got", type := SHT_PROGBITS, flags := 3, align := 8, size := 8, rank := 2 },
      { name := ".dynamic", type := SHT_DYNAMIC, flags := 3, align := 8, size := 0, rank := 2 }]
  data := fun k => if k = 2 then [] else replicate 8 0

/-- The groups of the output. -/
def xDynOut (c : RelaContext) (s : GroupData) : List LdGroup :=
  (layoutTls c.shared (scriptRanks [] s.groups)).groups

/-- Such a link up to its dynamic relocations. -/
def xDynRun (c : RelaContext) : Checked String (GroupData × DynTables × RelaTables) := do
  let (s, t) ← buildDynamicTables c.toDynContext xDynGroups
  let r ← buildRelaDyn c t (xDynOut c s)
  return (s, t, r)

theorem xDynRun_tables {pie : Bool} {g : LdGlobal} {hg : g.name = "x"} {calls : List GotCall}
    {s : GroupData} {t : DynTables} {r : RelaTables}
    (hgot : ((runGot [] calls).items.map LdGotEntry.name).Nodup)
    (hsize : (dynstrBytes (xDynLink pie g hg calls).toDynContext).length < 2 ^ 32)
    (hrun : xDynRun (xDynLink pie g hg calls) = .ok (s, t, r)) :
    Tables (xDynLink pie g hg calls).toDynContext xDynGroups s t []
        (xDynOut (xDynLink pie g hg calls) s) ∧
      buildRelaDyn (xDynLink pie g hg calls) t (xDynOut (xDynLink pie g hg calls) s) = .ok r := by
  obtain ⟨⟨s', t'⟩, hbuilt, hrun⟩ := bind_eq_ok hrun
  obtain ⟨r', hrela, hrun⟩ := bind_eq_ok hrun
  have hsame : s' = s ∧ t' = t ∧ r' = r := by simpa using ok.inj hrun
  obtain ⟨rfl, rfl, rfl⟩ := hsame
  refine ⟨⟨?_, ?_, hbuilt, rfl, ?_, hgot, hsize⟩, hrela⟩
  · cases pie <;> rfl
  · unfold NoTables
    decide
  · intro g' hg'
    rw [mem_singleton.mp hg', hg]
    decide

/-- A shared library that exports the function `x` and calls it as `x@PLT`: the loader finds `x`, and
    the relocation for its slot has its index. -/
theorem dynamic_symbols_shared :
    ∃ c s t r, c = xDynLink false { name := "x", defined := true } rfl [.jumpslot "x"] ∧
      Tables c.toDynContext xDynGroups s t [] (xDynOut c s) ∧
      buildRelaDyn c t (xDynOut c s) = .ok r ∧
      Finds c.toDynContext t (xDynOut c s) s { name := "x", defined := true } ∧
      ∃ e x, c.got = [e] ∧ r.plt = [x] ∧ Carries c t e x := by
  have hrun : (xDynRun (xDynLink false { name := "x", defined := true } rfl
      [.jumpslot "x"])).toOption.isSome = true := by
    decide
  obtain ⟨⟨s, t, r⟩, hlink⟩ := isSome_iff_exists.mp hrun
  obtain ⟨htables, hrela⟩ := xDynRun_tables (by decide) (by decide)
    (eq_ok_of_toOption hlink)
  obtain ⟨got_addr, xs, -, hplt, -, hiff⟩ := dynamic_symbols_iff htables hrela
  obtain ⟨hfinds, hcarries⟩ := hiff.mpr
    ⟨fun _ g hg => ⟨0, by
      obtain rfl := mem_singleton.mp (mem_filter.mp hg).1
      rfl, by decide⟩, fun e he _ => ⟨by
      obtain rfl := mem_singleton.mp he
      decide, .inl rfl⟩⟩
  refine ⟨_, s, t, r, rfl, htables, hrela, hfinds rfl _ (by decide), _, _, rfl, hplt, ?_⟩
  exact hcarries _ (mem_singleton_self _) _ (mem_singleton_self _)
    (RelaContext.type_jumpSlot _ _ _)

set_option maxRecDepth 20000 in
/-- A `-pie` executable that reads a variable `x` of a shared library through the GOT: the
    `GLOB_DAT` relocation for its slot has symbol index 0. -/
theorem dynamic_symbols_data_import :
    ∃ s t r, Tables (xDynLink true wantedX rfl [.entry "x"]).toDynContext xDynGroups s t []
        (xDynOut (xDynLink true wantedX rfl [.entry "x"]) s) ∧
      buildRelaDyn (xDynLink true wantedX rfl [.entry "x"]) t
        (xDynOut (xDynLink true wantedX rfl [.entry "x"]) s) = .ok r ∧
      ∃ x ∈ r.dyn, x.type true = R_X86_64_GLOB_DAT ∧ x.symbol true = 0 := by
  have hrun : ((xDynRun (xDynLink true wantedX rfl [.entry "x"])).toOption.map fun p =>
      p.2.2.dyn.map fun x => (x.type true, x.symbol true)) = some [(R_X86_64_GLOB_DAT, 0)] := by
    decide
  obtain ⟨⟨s, t, r⟩, hlink, hdyn⟩ := map_eq_some_iff.mp hrun
  obtain ⟨htables, hrela⟩ := xDynRun_tables (by decide) (by decide)
    (eq_ok_of_toOption hlink)
  refine ⟨s, t, r, htables, hrela, ?_⟩
  have hmem : (R_X86_64_GLOB_DAT, 0) ∈ r.dyn.map fun x => (x.type true, x.symbol true) := by
    rw [hdyn]
    exact mem_singleton_self _
  obtain ⟨x, hx, hpair⟩ := mem_map.mp hmem
  obtain ⟨htype, hsymbol⟩ := Prod.mk.inj hpair
  exact ⟨x, hx, htype, hsymbol⟩

end MeuOS.Rtld
