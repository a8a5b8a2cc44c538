import MeuOS.Ld.Apply
import MeuOS.Lib.HashChain
import Mathlib.NumberTheory.Bertrand

namespace MeuOS.Ld

open MeuOS.Lib Lib.Checked

/-!
# Dynamic tables (`dynamic.c`)

`build_dynamic_tables` makes `.dynstr`, `.dynsym`, `.hash`, the room of the dynamic relocations and
the room of `.dynamic` before layout; `fill_dynamic_addresses` writes the entries of `.dynamic`
behind it.

* `GroupData` — the output groups with their bytes;
* `exportedGlobals`, `importedItems` — what `.dynsym` is for;
* `buildDynamicTables` — the stage before layout, in the parts `addStrings`, `addDynsym`, `addHash`,
  `addRela`, `addPlt` and `addDynamic`;
* `dynamicTags` — the entries of `.dynamic`;
* `buildDynamicTables_names` — groups are only added.
-/

/-! ### Groups with bytes -/

/-- The output groups and the bytes of each. -/
structure GroupData where
  groups : List LdGroup
  data : Nat → Bytes

/-- `get_group`: a new group is empty. -/
def GroupData.get (s : GroupData) (name : String) (type flags align : Nat) : GroupData × Nat :=
  let (groups, k) := getGroup s.groups name type flags align
  ({ groups := groups
     data := if k = s.groups.length then Function.update s.data k [] else s.data }, k)

/-- `append_group_data`: the bytes lie behind those before, at the alignment.  A group without file
    space keeps no bytes. -/
def GroupData.append (s : GroupData) (k : Nat) (bytes : Bytes) (align : Nat) :
    Checked String (GroupData × Nat) :=
  match appendGroupData s.groups k bytes.length align with
  | none => .fail "output section overflow"
  | some (groups, offset) =>
    let old := s.data k
    let new :=
      if (s.groups[k]?).elim true LdGroup.nobits then old
      else old ++ List.replicate (offset - old.length) 0 ++ bytes
    .ok ({ groups := groups, data := Function.update s.data k new }, offset)

/-- `ctx->groups[k].rank = rank`. -/
def GroupData.setRank (s : GroupData) (k : Nat) (rank : Int) : GroupData :=
  { s with groups := s.groups.modify k fun g => { g with rank := rank } }

/-! ### Input -/

/-- What `build_dynamic_tables` reads of the context, apart from the groups. -/
structure DynContext where
  shared : Bool
  pie : Bool
  elf64 : Bool
  soname : Option String
  add_needed : List String
  version_script : Option (List String)
  globals : GlobalTable
  objects : List RelocObject
  got : List LdGotEntry

/-- The output is an `ET_DYN`. -/
def DynContext.dyn (c : DynContext) : Bool := c.shared || c.pie

/-- The bytes of a name. -/
def nameBytes (name : String) : Bytes := name.toUTF8.data.toList

/-- A name with its end. -/
def stringBytes (name : String) : Bytes := nameBytes name ++ [0]

/-! ### The symbols of `.dynsym` -/

/-- The version script lets the global through. -/
def DynContext.keeps (c : DynContext) (g : LdGlobal) : Bool :=
  match c.version_script with
  | none => true
  | some names => names.any (· == g.name)

/-- The globals that are exported. -/
def exportedGlobals (c : DynContext) : List LdGlobal :=
  c.globals.items.filter fun g => g.defined && !g.weak && c.keeps g

/-- A defined global has the name. -/
def alreadyDefined (c : DynContext) (name : String) : Bool :=
  c.globals.items.any fun g => g.defined && g.name == name

/-- The GOT entries that import a function. -/
def importedItems (c : DynContext) : List LdGotEntry :=
  c.got.filter fun e => e.reloc_type == R_X86_64_JUMP_SLOT && !alreadyDefined c e.name

/-- `nsym`. -/
def dynsymCount (c : DynContext) : Nat := (exportedGlobals c).length + (importedItems c).length

/-- `struct ld_dynsym_entry`. -/
structure DynsymEntry where
  global : LdGlobal
  dynstr_offset : Nat
  stt : Nat
  deriving DecidableEq, Repr

/-- The globals of the entries and their types: exported ones, and imports that have a global. -/
def dynsymGlobals (c : DynContext) (groups : List LdGroup) : List (LdGlobal × Nat) :=
  ((exportedGlobals c).map fun g => (g, dynsymType groups g)) ++
    (importedItems c).filterMap fun e => (c.globals.find e.name).map fun g => (g, STT_FUNC)

/-! ### Strings -/

/-- Strings appended to a group, and their offsets. -/
def addStrings (k : Nat) : GroupData → List String → Checked String (GroupData × List Nat)
  | s, [] => .ok (s, [])
  | s, name :: names => do
      let (s, offset) ← s.append k (stringBytes name) 1
      let (s, offsets) ← addStrings k s names
      return (s, offset :: offsets)

/-- The strings that come before the names of symbols: `DT_SONAME` and `DT_NEEDED`. -/
def leadingStrings (c : DynContext) : List String :=
  c.soname.toList ++ c.add_needed ++
    (c.objects.filter (·.object.is_shared)).map (·.object.name)

/-! ### The hash table -/

/-- `elf_hash32`. -/
def elfHash32 (name : Bytes) : Nat :=
  name.foldl
    (fun h b =>
      let h := ((h <<< 4) + b.toNat) % 2 ^ 32
      let g := h &&& 0xf0000000
      let h := if g ≠ 0 then h ^^^ (g >>> 24) else h
      h &&& (2 ^ 32 - 1 - g))
    0

/-- No number from 2 on whose square is at most `p` divides it. -/
def TrialPrime (p : Nat) : Prop := ∀ i ≤ p, 2 ≤ i → i * i ≤ p → p % i ≠ 0

instance (p : Nat) : Decidable (TrialPrime p) :=
  inferInstanceAs (Decidable (∀ i ≤ p, 2 ≤ i → i * i ≤ p → p % i ≠ 0))

variable {groups groups' : List LdGroup} {name : String} {s s' : GroupData} {align k : Nat}
  {c : DynContext}

theorem trialPrime_of_prime {p : Nat} (h : p.Prime) : TrialPrime p := by
  intro i _ hi hsq hmod
  rcases (Nat.dvd_prime h).mp (Nat.dvd_of_mod_eq_zero hmod) with rfl | rfl
  · omega
  · have hmul : i * 2 ≤ i * i := Nat.mul_le_mul_left i hi
    omega

/-- The loop of `next_prime32`, for at most `turns` numbers. -/
def searchPrime : Nat → Nat → Nat
  | 0, p => p
  | turns + 1, p => if TrialPrime p then p else searchPrime turns (p + 1)

/-- `next_prime32`, for numbers whose squares fit; there is a prime up to twice every number. -/
def nextPrime32 (n : Nat) : Nat := searchPrime (max n 2 + 1) (max n 2)

theorem le_searchPrime (turns p : Nat) : p ≤ searchPrime turns p := by
  induction turns generalizing p with
  | zero => exact le_rfl
  | succ turns ih =>
    unfold searchPrime
    split
    · exact le_rfl
    · exact (Nat.le_succ p).trans (ih (p + 1))

/-- Nothing that passes the test is passed over. -/
theorem searchPrime_le {turns p q : Nat} (hq : TrialPrime q) (hle : p ≤ q) :
    searchPrime turns p ≤ q := by
  induction turns generalizing p with
  | zero => exact hle
  | succ turns ih =>
    unfold searchPrime
    split
    next => exact hle
    next hp =>
      have hne : p ≠ q := fun h => hp (h ▸ hq)
      exact ih (by omega)

/-- The number found is below twice the number from which the search starts. -/
theorem nextPrime32_lt (n : Nat) : nextPrime32 n < 2 * max n 2 := by
  obtain ⟨q, hq, hlt, hle⟩ := Nat.exists_prime_lt_and_le_two_mul (max n 2) (by omega)
  have hfound : nextPrime32 n ≤ q := searchPrime_le (trialPrime_of_prime hq) hlt.le
  have hne : q ≠ 2 * max n 2 := by
    rintro rfl
    have htwo := (Nat.prime_dvd_prime_iff_eq Nat.prime_two hq).mp (Nat.dvd_mul_right 2 _)
    omega
  omega

theorem two_le_nextPrime32 (n : Nat) : 2 ≤ nextPrime32 n :=
  (le_max_right n 2).trans (le_searchPrime _ _)

/-- `nbucket` for `nsym` symbols. -/
def bucketCount (nsym : Nat) : Nat := nextPrime32 (if nsym + 1 > 1 then nsym + 1 else 3)

/-- The bytes of `.hash`. -/
def hashBytes (nsym : Nat) (names : List Bytes) : Bytes :=
  let nbucket := bucketCount nsym
  let w := chains (names.map fun name => elfHash32 name % nbucket)
  leBytes 4 nbucket ++ leBytes 4 (nsym + 1) ++
    ((List.range nbucket).flatMap fun i => leBytes 4 (w.bucket i)) ++
    (List.range (nsym + 1)).flatMap fun i => leBytes 4 (w.chain i)

/-! ### The parts of the stage -/

/-- `.dynstr` up to the names of symbols: the group, the offset of `DT_SONAME` and those of
    `DT_NEEDED`. -/
def addDynstr (c : DynContext) (s : GroupData) :
    Checked String (GroupData × Nat × Option Nat × List Nat) := do
  let (s, k) := s.get ".dynstr" SHT_STRTAB SHF_ALLOC 1
  let (s, _) ← s.append k [0] 1
  let (s, offsets) ← addStrings k s (leadingStrings c)
  match c.soname with
  | some _ => return (s, k, offsets.head?.map (· % 2 ^ 32), offsets.tail.map (· % 2 ^ 32))
  | none => return (s, k, none, offsets.map (· % 2 ^ 32))

/-- `MT_SHT_DYNSYM`. -/
def SHT_DYNSYM : Nat := 11

/-- `MT_SHT_HASH`. -/
def SHT_HASH : Nat := 5

/-- `MT_SHT_DYNAMIC`. -/
def SHT_DYNAMIC : Nat := 6

/-- `SHF_EXECINSTR`. -/
def SHF_EXECINSTR : Nat := 4

/-- The size of a symbol. -/
def DynContext.symSize (c : DynContext) : Nat := if c.elf64 then 24 else 16

/-- The size of a dynamic relocation. -/
def DynContext.relaSize (c : DynContext) : Nat := if c.elf64 then 24 else 12

/-- The size of an entry of `.dynamic`. -/
def DynContext.dynSize (c : DynContext) : Nat := if c.elf64 then 16 else 8

/-- The room of `.dynsym` and the entries for its symbols. -/
def addDynsym (c : DynContext) (s : GroupData) (dynstr : Nat) :
    Checked String (GroupData × Nat × List DynsymEntry) := do
  let (s, k) := s.get ".dynsym" SHT_DYNSYM SHF_ALLOC 8
  let (s, data_offset) ← s.append k (List.replicate ((dynsymCount c + 1) * c.symSize) 0) 8
  let globals := dynsymGlobals c s.groups
  let (s, offsets) ← addStrings dynstr s (globals.map (·.1.name))
  return (s, data_offset, globals.zipWith (fun g offset => ⟨g.1, offset % 2 ^ 32, g.2⟩) offsets)

/-- `.hash`.  A symbol that was counted and has no entry is read where nothing was written. -/
def addHash (c : DynContext) (s : GroupData) (entries : List DynsymEntry) :
    Checked String GroupData := do
  let (s, k) := s.get ".hash" SHT_HASH SHF_ALLOC 4
  if entries.length < dynsymCount c then .fault
  else do
    let names := (entries.take (dynsymCount c)).map fun e => nameBytes e.global.name
    let (s, _) ← s.append k (hashBytes (dynsymCount c) names) 4
    return s

/-- The type and the symbol index of an entry of a relocation section, as the ELF class has it. -/
def relocInfo (o : RelocObject) (k : Nat) (sec : ElfSection) (n : Nat) :
    Checked String (Nat × Nat) :=
  let p := o.offset k + n * sec.entry_size
  if o.elf_class = 1 then do
    let info ← leAt o.data (p + 4) 4
    return (info % 2 ^ 8, info / 2 ^ 8)
  else do
    let info ← leAt o.data (p + 8) 8
    return (info % 2 ^ 32, info / 2 ^ 32)

/-- The group of an index is not a thread-local one. -/
def plainAt (groups : List LdGroup) (k : Nat) : Bool :=
  (groups[k]?).elim true fun group => group.name != ".tdata" && group.name != ".tbss"

/-- The relocation is absolute and against a global of a group that is not thread-local. -/
def needsRelative (c : DynContext) (groups : List LdGroup) (o : RelocObject) (type index : Nat) :
    Bool :=
  (type == R_X86_64_64 || type == R_X86_64_32 || type == R_X86_64_32S) &&
    match getSymbolByIndex o.object index with
    | .error _ => false
    | .ok (_, name) =>
      match c.globals.find name with
      | none => false
      | some g =>
        match g.group with
        | none => false
        | some k => g.defined && plainAt groups k

/-- The absolute relocations of a section that need a dynamic one. -/
def relativeCount (c : DynContext) (groups : List LdGroup) (o : RelocObject) (count k : Nat) :
    Checked String Nat :=
  match o.object.elf.getSection k with
  | none => .ok count
  | some sec =>
    if sec.type ≠ SHT_RELA ∧ sec.type ≠ SHT_REL then .ok count
    else if sec.entry_size = 0 ∨ sec.size % sec.entry_size ≠ 0 then .ok count
    else
      (List.range (sec.size / sec.entry_size)).foldlM
        (fun count n => do
          let (type, index) ← relocInfo o k sec n
          return if needsRelative c groups o type index then count + 1 else count)
        count

/-- `data_rela_count`. -/
def dataRelaCount (c : DynContext) (groups : List LdGroup) : Checked String Nat :=
  (c.objects.filter (!·.object.is_shared)).foldlM
    (fun count o => (List.range o.count).foldlM (relativeCount c groups o) count) 0

/-- `n_jumpslots`. -/
def jumpslotCount (c : DynContext) : Nat := c.got.countP (·.reloc_type == R_X86_64_JUMP_SLOT)

/-- The dynamic relocations of the other GOT entries. -/
def gotRelaCount (c : DynContext) : Nat :=
  ((c.got.filter (·.reloc_type != R_X86_64_JUMP_SLOT)).map fun e =>
    if e.tls then if e.slots ≥ 2 then 2 else 1 else 1).sum

/-- The room of a relocation section for `n` relocations; none is made for no relocation. -/
def addRela (c : DynContext) (s : GroupData) (name : String) (n : Nat) :
    Checked String GroupData :=
  if n = 0 then .ok s
  else do
    let (s, k) := s.get name SHT_RELA SHF_ALLOC 8
    let (s, _) ← (s.setRank k 1).append k (List.replicate (n * c.relaSize) 0) 8
    return s

/-- `jmp *GOT_slot(%rip)`, still without its field. -/
def pltStub : Bytes := [0xff, 0x25, 0, 0, 0, 0]

/-- `.plt` with a stub for each imported function. -/
def addPlt (c : DynContext) (s : GroupData) : Checked String GroupData :=
  if jumpslotCount c = 0 then .ok s
  else do
    let (s, k) := s.get ".plt" SHT_PROGBITS (SHF_ALLOC ||| SHF_EXECINSTR) 16
    (List.range (jumpslotCount c)).foldlM
      (fun s _ => do
        let (s, _) ← s.append k pltStub 16
        return s)
      (s.setRank k 0)

/-- The group exists. -/
def hasGroup (groups : List LdGroup) (name : String) : Bool := (findGroup groups name).isSome

/-- A number for a group that exists. -/
def ifGroup (groups : List LdGroup) (name : String) (n : Nat) : Nat :=
  if hasGroup groups name then n else 0

/-- The shared libraries of the input. -/
def sharedCount (c : DynContext) : Nat := c.objects.countP (·.object.is_shared)

/-- `ntags`. -/
def tagCount (c : DynContext) (groups : List LdGroup) (n_regular_rela : Nat) : Nat :=
  5 + (if c.soname.isSome then 1 else 0) + (if n_regular_rela > 0 then 3 else 0) +
    (if jumpslotCount c > 0 then 3 else 0) + ifGroup groups ".init" 1 + ifGroup groups ".fini" 1 +
    ifGroup groups ".init_array" 2 + ifGroup groups ".fini_array" 2 +
    ifGroup groups ".preinit_array" 2 + (c.add_needed.length + sharedCount c) + 1

/-- The room of `.dynamic`. -/
def addDynamic (c : DynContext) (s : GroupData) (ntags : Nat) : Checked String GroupData :=
  match findGroup s.groups ".dynamic" with
  | none => .fail "out of memory"
  | some k => do
      let (s, _) ← s.append k (List.replicate (ntags * c.dynSize) 0) 8
      return s

/-- What `build_dynamic_tables` leaves in the context, apart from the groups. -/
structure DynTables where
  entries : List DynsymEntry := []
  dynsym_data_offset : Nat := 0
  soname_dynstr_offset : Option Nat := none
  needed_dynstr_offsets : List Nat := []
  rela_capacity_entries : Nat := 0
  rela_plt_capacity_entries : Nat := 0
  ntags : Nat := 0

/-- `build_dynamic_tables`. -/
def buildDynamicTables (c : DynContext) (s : GroupData) : Checked String (GroupData × DynTables) :=
  if !c.dyn then .ok (s, {})
  else do
    let (s, dynstr, soname, needed) ← addDynstr c s
    let (s, data_offset, entries) ← addDynsym c s dynstr
    let s ← addHash c s entries
    let data_rela_count ← dataRelaCount c s.groups
    let n_regular_rela := gotRelaCount c + data_rela_count
    let s ← addRela c s ".rela.dyn" n_regular_rela
    let s ← addRela c s ".rela.plt" (jumpslotCount c)
    let s ← addPlt c s
    let ntags := tagCount c s.groups n_regular_rela
    let s ← addDynamic c s ntags
    return (s,
      { entries := entries
        dynsym_data_offset := data_offset
        soname_dynstr_offset := soname
        needed_dynstr_offsets := needed
        rela_capacity_entries := n_regular_rela
        rela_plt_capacity_entries := jumpslotCount c
        ntags := ntags })

/-! ### The entries of `.dynamic` -/

section tags

/-- `MT_DT_SYMTAB`. -/
def DT_SYMTAB : Nat := 6

/-- `MT_DT_SYMENT`. -/
def DT_SYMENT : Nat := 11

/-- `MT_DT_STRTAB`. -/
def DT_STRTAB : Nat := 5

/-- `MT_DT_STRSZ`. -/
def DT_STRSZ : Nat := 10

/-- `MT_DT_HASH`. -/
def DT_HASH : Nat := 4

/-- `MT_DT_SONAME`. -/
def DT_SONAME : Nat := 14

/-- `MT_DT_NEEDED`. -/
def DT_NEEDED : Nat := 1

/-- `MT_DT_INIT`. -/
def DT_INIT : Nat := 12

/-- `MT_DT_FINI`. -/
def DT_FINI : Nat := 13

/-- `MT_DT_INIT_ARRAY`. -/
def DT_INIT_ARRAY : Nat := 25

/-- `MT_DT_INIT_ARRAYSZ`. -/
def DT_INIT_ARRAYSZ : Nat := 27

/-- `MT_DT_FINI_ARRAY`. -/
def DT_FINI_ARRAY : Nat := 26

/-- `MT_DT_FINI_ARRAYSZ`. -/
def DT_FINI_ARRAYSZ : Nat := 28

/-- `MT_DT_PREINIT_ARRAY`. -/
def DT_PREINIT_ARRAY : Nat := 32

/-- `MT_DT_PREINIT_ARRAYSZ`. -/
def DT_PREINIT_ARRAYSZ : Nat := 33

/-- `MT_DT_RELA`. -/
def DT_RELA : Nat := 7

/-- `MT_DT_RELASZ`. -/
def DT_RELASZ : Nat := 8

/-- `MT_DT_RELAENT`. -/
def DT_RELAENT : Nat := 9

/-- `MT_DT_JMPREL`. -/
def DT_JMPREL : Nat := 23

/-- `MT_DT_PLTRELSZ`. -/
def DT_PLTRELSZ : Nat := 2

/-- `MT_DT_PLTREL`. -/
def DT_PLTREL : Nat := 20

/-- `MT_DT_NULL`. -/
def DT_NULL : Nat := 0

/-- Entries for a group that exists. -/
def tagsFor (groups : List LdGroup) (name : String) (f : LdGroup → List (Nat × Nat)) :
    List (Nat × Nat) :=
  match (findGroup groups name).bind (groups[·]?) with
  | none => []
  | some g => f g

/-- A number of the group of a name. -/
def namedGroup (groups : List LdGroup) (name : String) (f : LdGroup → Nat) : Nat :=
  ((findGroup groups name).bind (groups[·]?)).elim 0 f

/-- The entries that `fill_dynamic_addresses` writes, with `DT_NULL`. -/
def dynamicTags (c : DynContext) (t : DynTables) (groups : List LdGroup) : List (Nat × Nat) :=
  [(DT_SYMTAB, namedGroup groups ".dynsym" LdGroup.address),
    (DT_SYMENT, c.symSize),
    (DT_STRTAB, namedGroup groups ".dynstr" LdGroup.address),
    (DT_STRSZ, namedGroup groups ".dynstr" LdGroup.size),
    (DT_HASH, namedGroup groups ".hash" LdGroup.address)] ++
  (if c.soname.isSome then [(DT_SONAME, t.soname_dynstr_offset.getD 0)] else []) ++
  ((List.range (c.add_needed.length + sharedCount c)).map fun i =>
    (DT_NEEDED, t.needed_dynstr_offsets.getD i 0)) ++
  tagsFor groups ".init" (fun g => [(DT_INIT, g.address)]) ++
  tagsFor groups ".fini" (fun g => [(DT_FINI, g.address)]) ++
  tagsFor groups ".init_array" (fun g =>
    [(DT_INIT_ARRAY, g.address), (DT_INIT_ARRAYSZ, g.size)]) ++
  tagsFor groups ".fini_array" (fun g =>
    [(DT_FINI_ARRAY, g.address), (DT_FINI_ARRAYSZ, g.size)]) ++
  tagsFor groups ".preinit_array" (fun g =>
    [(DT_PREINIT_ARRAY, g.address), (DT_PREINIT_ARRAYSZ, g.size)]) ++
  tagsFor groups ".rela.dyn" (fun g =>
    [(DT_RELA, g.address), (DT_RELASZ, t.rela_capacity_entries * c.relaSize),
      (DT_RELAENT, c.relaSize)]) ++
  tagsFor groups ".rela.plt" (fun g =>
    [(DT_JMPREL, g.address), (DT_PLTRELSZ, t.rela_plt_capacity_entries * c.relaSize),
      (DT_PLTREL, DT_RELA)]) ++
  [(DT_NULL, 0)]

end tags

/-! ### Names of groups -/

theorem hasGroup_iff :
    hasGroup groups name = true ↔ name ∈ groups.map LdGroup.name := by
  unfold hasGroup findGroup
  rw [List.findIdx?_isSome]
  simp

theorem hasGroup_congr (h : groups.map LdGroup.name = groups'.map LdGroup.name) (name : String) :
    hasGroup groups name = hasGroup groups' name := by
  rw [Bool.eq_iff_iff, hasGroup_iff, hasGroup_iff, h]

/-- The names of the groups. -/
def GroupData.names (s : GroupData) : List String := s.groups.map LdGroup.name

@[simp] theorem GroupData.names_setRank (s : GroupData) (k : Nat) (rank : Int) :
    (s.setRank k rank).names = s.names :=
  names_modify_group (f := fun g => { g with rank := rank }) (fun _ => rfl) _ _

/-- The names behind `get_group`. -/
def addName (names : List String) (name : String) : List String :=
  if name ∈ names then names else names ++ [name]

@[simp] theorem mem_addName {names : List String} {m : String} :
    m ∈ addName names name ↔ m ∈ names ∨ m = name := by
  unfold addName
  by_cases hmem : name ∈ names
  · rw [if_pos hmem]
    refine ⟨Or.inl, ?_⟩
    rintro (hm | rfl)
    · exact hm
    · exact hmem
  · simp [hmem]

/-- `get_group` adds the name where it is missing. -/
theorem GroupData.names_get {type flags : Nat}
    (h : s.get name type flags align = (s', k)) : s'.names = addName s.names name := by
  unfold GroupData.get getGroup at h
  unfold addName
  cases hf : findGroup s.groups name with
  | some i =>
    have hmem : name ∈ s.names := by
      unfold GroupData.names
      rw [← hasGroup_iff, hasGroup, hf]
      rfl
    rw [hf] at h
    cases h
    rw [if_pos hmem]
    refine names_modify_group (fun g => ?_) _ _
    split <;> rfl
  | none =>
    have hnot : name ∉ s.names := by
      unfold GroupData.names
      rw [← hasGroup_iff, hasGroup, hf]
      exact nofun
    rw [hf] at h
    cases h
    rw [if_neg hnot]
    simp [GroupData.names]

/-- What `append_group_data` does where the size does not overflow. -/
theorem appendGroupData_eq_some {i size off : Nat}
    (h : appendGroupData groups i size align = some (groups', off)) :
    ∃ g, groups[i]? = some g ∧ off = alignUp64 g.size (if align = 0 then 1 else align) ∧
      off + size < 2 ^ 64 ∧
        groups' = groups.modify i fun g => { g with size := add64 off size } := by
  unfold appendGroupData at h
  cases hg : groups[i]? with
  | none =>
    rw [hg] at h
    cases h
  | some g =>
    rw [hg] at h
    dsimp only at h
    by_cases hfits : size > 2 ^ 64 - 1 - alignUp64 g.size (if align = 0 then 1 else align)
    · rw [if_pos hfits] at h
      cases h
    · rw [if_neg hfits] at h
      cases h
      have hlt : alignUp64 g.size (if align = 0 then 1 else align) < 2 ^ 64 :=
        lt_of_le_of_lt Nat.and_le_left (add64_lt _ _)
      exact ⟨g, rfl, rfl, by omega, rfl⟩

/-- What an appending of bytes does. -/
theorem GroupData.append_eq_ok {offset : Nat} {bytes : Bytes}
    (h : s.append k bytes align = .ok (s', offset)) :
    ∃ g, s.groups[k]? = some g ∧ offset = alignUp64 g.size (if align = 0 then 1 else align) ∧
      offset + bytes.length < 2 ^ 64 ∧
      s'.groups = s.groups.modify k (fun g => { g with size := add64 offset bytes.length }) ∧
      s'.data = Function.update s.data k (if g.nobits then s.data k
        else s.data k ++ List.replicate (offset - (s.data k).length) 0 ++ bytes) := by
  unfold GroupData.append at h
  cases happend : appendGroupData s.groups k bytes.length align with
  | none =>
    rw [happend] at h
    cases h
  | some r =>
    rw [happend] at h
    obtain ⟨g, hg, hoff, hfits, hgroups⟩ := appendGroupData_eq_some happend
    rw [hg] at h
    cases h
    exact ⟨g, hg, hoff, hfits, hgroups, rfl⟩

/-- Bytes are appended to groups that are there. -/
theorem GroupData.names_append {offset : Nat} {bytes : Bytes}
    (h : s.append k bytes align = .ok (s', offset)) : s'.names = s.names := by
  obtain ⟨g, -, -, -, hgroups, -⟩ := GroupData.append_eq_ok h
  unfold GroupData.names
  rw [hgroups]
  exact names_modify_group (f := fun g => { g with size := add64 offset bytes.length })
    (fun _ => rfl) _ _

theorem addStrings_names {names : List String} {offsets : List Nat}
    (h : addStrings k s names = .ok (s', offsets)) : s'.names = s.names := by
  induction names generalizing s offsets with
  | nil =>
    cases h
    rfl
  | cons name names ih =>
    obtain ⟨⟨s₁, offset⟩, h₁, h⟩ := bind_eq_ok h
    obtain ⟨⟨s₂, offsets₂⟩, h₂, h⟩ := bind_eq_ok h
    cases h
    rw [ih h₂, GroupData.names_append h₁]

/-- The room of a relocation section is made for a number of relocations that is not 0. -/
theorem addRela_names {n : Nat} (h : addRela c s name n = .ok s') :
    s'.names = if n = 0 then s.names else addName s.names name := by
  unfold addRela at h
  by_cases hn : n = 0
  · rw [if_pos hn] at h
    rw [if_pos hn, ok.inj h]
  · rw [if_neg hn] at h
    obtain ⟨⟨s₀, k⟩, hget⟩ : ∃ r, s.get name SHT_RELA SHF_ALLOC 8 = r := ⟨_, rfl⟩
    rw [hget] at h
    obtain ⟨⟨s₁, offset⟩, happend, h⟩ := bind_eq_ok h
    cases h
    rw [if_neg hn, GroupData.names_append happend, GroupData.names_setRank,
      GroupData.names_get hget]

theorem addPlt_names (h : addPlt c s = .ok s') :
    s'.names = if jumpslotCount c = 0 then s.names else addName s.names ".plt" := by
  unfold addPlt at h
  by_cases hn : jumpslotCount c = 0
  · rw [if_pos hn] at h
    rw [if_pos hn, ok.inj h]
  · rw [if_neg hn] at h
    obtain ⟨⟨s₀, k⟩, hget⟩ :
        ∃ r, s.get ".plt" SHT_PROGBITS (SHF_ALLOC ||| SHF_EXECINSTR) 16 = r := ⟨_, rfl⟩
    rw [hget] at h
    have hkeep := foldlM_keeps (I := fun t => t.names = s₀.names) ?_ ?_ h
    · rw [if_neg hn, hkeep, GroupData.names_get hget]
    · intro t _ t' ht hstep
      obtain ⟨⟨t₁, offset⟩, happend, hstep⟩ := bind_eq_ok hstep
      cases hstep
      rw [GroupData.names_append happend, ht]
    · exact GroupData.names_setRank _ _ _

theorem addDynstr_names {r : Nat × Option Nat × List Nat}
    (h : addDynstr c s = .ok (s', r)) : s'.names = addName s.names ".dynstr" := by
  unfold addDynstr at h
  obtain ⟨⟨s₀, k⟩, hget⟩ : ∃ r, s.get ".dynstr" SHT_STRTAB SHF_ALLOC 1 = r := ⟨_, rfl⟩
  rw [hget] at h
  obtain ⟨⟨s₁, o₁⟩, h₁, h⟩ := bind_eq_ok h
  obtain ⟨⟨s₂, o₂⟩, h₂, h⟩ := bind_eq_ok h
  have hnames : s'.names = s₂.names := by
    cases hso : c.soname with
    | none =>
      rw [hso] at h
      cases h
      rfl
    | some _ =>
      rw [hso] at h
      cases h
      rfl
  rw [hnames, addStrings_names h₂, GroupData.names_append h₁, GroupData.names_get hget]

theorem addDynsym_names {dynstr : Nat}
    {r : Nat × List DynsymEntry} (h : addDynsym c s dynstr = .ok (s', r)) :
    s'.names = addName s.names ".dynsym" := by
  unfold addDynsym at h
  obtain ⟨⟨s₀, k⟩, hget⟩ : ∃ r, s.get ".dynsym" SHT_DYNSYM SHF_ALLOC 8 = r := ⟨_, rfl⟩
  rw [hget] at h
  obtain ⟨⟨s₁, o₁⟩, h₁, h⟩ := bind_eq_ok h
  obtain ⟨⟨s₂, o₂⟩, h₂, h⟩ := bind_eq_ok h
  cases h
  rw [addStrings_names h₂, GroupData.names_append h₁, GroupData.names_get hget]

theorem addHash_names {entries : List DynsymEntry}
    (h : addHash c s entries = .ok s') : s'.names = addName s.names ".hash" := by
  unfold addHash at h
  obtain ⟨⟨s₀, k⟩, hget⟩ : ∃ r, s.get ".hash" SHT_HASH SHF_ALLOC 4 = r := ⟨_, rfl⟩
  rw [hget] at h
  dsimp only at h
  by_cases hmissing : entries.length < dynsymCount c
  · rw [if_pos hmissing] at h
    cases h
  · rw [if_neg hmissing] at h
    obtain ⟨⟨s₁, o₁⟩, h₁, h⟩ := bind_eq_ok h
    cases h
    rw [GroupData.names_append h₁, GroupData.names_get hget]

theorem addDynamic_names {ntags : Nat}
    (h : addDynamic c s ntags = .ok s') : s'.names = s.names := by
  unfold addDynamic at h
  cases hk : findGroup s.groups ".dynamic" with
  | none =>
    rw [hk] at h
    cases h
  | some k =>
    rw [hk] at h
    obtain ⟨⟨s₁, o₁⟩, h₁, h⟩ := bind_eq_ok h
    cases h
    exact GroupData.names_append h₁

/-- A group that is added under another name hides no thread-local one. -/
theorem plainAt_of_addName (htdata : name ≠ ".tdata") (htbss : name ≠ ".tbss")
    (h : groups'.map LdGroup.name = addName (groups.map LdGroup.name) name) (k : Nat) :
    plainAt groups' k = plainAt groups k := by
  have hof : ∀ gs : List LdGroup, plainAt gs k =
      ((gs.map LdGroup.name)[k]?).elim true fun m => m != ".tdata" && m != ".tbss" := by
    intro gs
    unfold plainAt
    rw [List.getElem?_map]
    cases gs[k]? <;> rfl
  rw [hof, hof, h]
  unfold addName
  split
  · rfl
  · rw [List.getElem?_append]
    split
    · rfl
    · next hk =>
        rw [List.getElem?_eq_none (not_lt.mp hk)]
        cases hlast : [name][k - (groups.map LdGroup.name).length]? with
        | none => rfl
        | some m =>
          obtain rfl : m = name := List.mem_singleton.mp (List.mem_of_getElem? hlast)
          simp [htdata, htbss]

/-- The relocations counted depend on which groups are thread-local only. -/
theorem dataRelaCount_congr (h : ∀ k, plainAt groups' k = plainAt groups k) :
    dataRelaCount c groups' = dataRelaCount c groups := by
  have hneeds : needsRelative c groups' = needsRelative c groups := by
    ext o type index
    unfold needsRelative
    simp only [h]
  unfold dataRelaCount relativeCount
  rw [hneeds]

/-- The stage only adds groups, and the entries of `.dynamic` are counted for the groups that there
    are behind it. -/
theorem buildDynamicTables_names {t : DynTables}
    (hdyn : c.dyn = true) (h : buildDynamicTables c s = .ok (s', t)) :
    t.ntags = tagCount c s'.groups t.rela_capacity_entries ∧
      (∃ n, dataRelaCount c s.groups = .ok n ∧ t.rela_capacity_entries = gotRelaCount c + n) ∧
      (".rela.dyn" ∈ s'.names ↔ ".rela.dyn" ∈ s.names ∨ 0 < t.rela_capacity_entries) ∧
      (".rela.plt" ∈ s'.names ↔ ".rela.plt" ∈ s.names ∨ 0 < jumpslotCount c) ∧
      ∀ m ∈ s.names, m ∈ s'.names := by
  unfold buildDynamicTables at h
  rw [if_neg (by simp [hdyn])] at h
  obtain ⟨⟨s₁, dynstr, soname, needed⟩, h₁, h⟩ := bind_eq_ok h
  obtain ⟨⟨s₂, data_offset, entries⟩, h₂, h⟩ := bind_eq_ok h
  obtain ⟨s₃, h₃, h⟩ := bind_eq_ok h
  obtain ⟨n, hn, h⟩ := bind_eq_ok h
  obtain ⟨s₄, h₄, h⟩ := bind_eq_ok h
  obtain ⟨s₅, h₅, h⟩ := bind_eq_ok h
  obtain ⟨s₆, h₆, h⟩ := bind_eq_ok h
  obtain ⟨s₇, h₇, h⟩ := bind_eq_ok h
  obtain ⟨rfl, rfl⟩ := Prod.mk.inj (ok.inj h)
  have hnames := addDynamic_names h₇
  have hall : ∀ m, m ∈ s₇.names ↔ ((((((m ∈ s.names ∨ m = ".dynstr") ∨ m = ".dynsym") ∨
      m = ".hash") ∨ (m = ".rela.dyn" ∧ 0 < gotRelaCount c + n)) ∨
        (m = ".rela.plt" ∧ 0 < jumpslotCount c)) ∨ (m = ".plt" ∧ 0 < jumpslotCount c)) := by
    have hmade : ∀ (names : List String) (name m : String) (k : Nat),
        (m ∈ if k = 0 then names else addName names name) ↔ m ∈ names ∨ m = name ∧ 0 < k := by
      intro names name m k
      by_cases hk : k = 0
      · simp [hk]
      · simp [hk, Nat.pos_of_ne_zero hk]
    intro m
    rw [hnames, addPlt_names h₆, hmade, addRela_names h₅, hmade, addRela_names h₄, hmade,
      addHash_names h₃, addDynsym_names h₂, addDynstr_names h₁]
    simp
  -- Relocations are counted when three groups were added, none of them thread-local.
  have hcount : dataRelaCount c s.groups = .ok n := by
    rw [← hn]
    refine (dataRelaCount_congr fun k => ?_).symm
    rw [plainAt_of_addName (by decide) (by decide) (addHash_names h₃),
      plainAt_of_addName (by decide) (by decide) (addDynsym_names h₂),
      plainAt_of_addName (by decide) (by decide) (addDynstr_names h₁)]
  refine ⟨?_, ⟨n, hcount, rfl⟩, ?_, ?_, fun m hm => ?_⟩
  · -- The count is made before the room of `.dynamic`, which adds no group.
    have hsame : ∀ name k, ifGroup s₆.groups name k = ifGroup s₇.groups name k := by
      intro name k
      unfold ifGroup
      rw [hasGroup_congr hnames.symm]
    unfold tagCount
    simp only [hsame]
  · rw [hall]
    simp
  · rw [hall]
    simp
  · rw [hall]
    simp [hm]

end MeuOS.Ld
