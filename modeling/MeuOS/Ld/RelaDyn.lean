import MeuOS.Ld.DynamicTables

namespace MeuOS.Ld

open MeuOS.Lib List Lib.Checked

/-!
# Dynamic relocations (`dynamic.c`)

`build_rela_dyn` fills `.rela.dyn` and `.rela.plt` behind layout.

* `gotRelas` — the dynamic relocations of a GOT entry;
* `dataRela` — the dynamic relocation of an absolute relocation of an input;
* `buildRelaDyn` — both tables;
* `buildRelaDyn_eq` — they have the relocations of all GOT entries, in order;
* `carries_iff` — when those of an entry have the index of the symbol of its name.
-/

/-- What `build_rela_dyn` reads of the context, apart from the groups.  The class of a target is
    that of its name. -/
structure RelaContext extends DynContext where
  target_name : String
  got_group : Option Nat
  x86_64_class : target_name = "x86_64" → elf64 = true
  arm_class : target_name = "arm" → elf64 = false

/-- A dynamic relocation. -/
structure RelaEntry where
  offset : Nat
  info : Nat
  addend : Nat
  deriving DecidableEq, Repr

/-- The symbol index of a relocation, as it is written for the class. -/
def RelaEntry.symbol (elf64 : Bool) (x : RelaEntry) : Nat :=
  if elf64 then x.info % 2 ^ 64 / 2 ^ 32 else x.info % 2 ^ 32 / 2 ^ 8

/-- The type of a relocation, as it is written for the class. -/
def RelaEntry.type (elf64 : Bool) (x : RelaEntry) : Nat :=
  if elf64 then x.info % 2 ^ 32 else x.info % 2 ^ 8

/-- `MT_R_X86_64_GLOB_DAT`. -/
def R_X86_64_GLOB_DAT : Nat := 6

/-- `MT_R_X86_64_RELATIVE`. -/
def R_X86_64_RELATIVE : Nat := 8

/-- `MT_R_X86_64_DTPMOD64`. -/
def R_X86_64_DTPMOD64 : Nat := 16

/-- `MT_R_X86_64_DTPOFF64`. -/
def R_X86_64_DTPOFF64 : Nat := 17

/-- `MT_R_X86_64_TPOFF64`. -/
def R_X86_64_TPOFF64 : Nat := 18

/-- `MT_R_386_JUMP_SLOT`. -/
def R_386_JUMP_SLOT : Nat := 7

/-- `MT_R_ARM_JUMP_SLOT`. -/
def R_ARM_JUMP_SLOT : Nat := 22

/-- `MT_R_ARM_RELATIVE`. -/
def R_ARM_RELATIVE : Nat := 23

/-! ### The relocations of a GOT entry -/

/-- The loop over `dynsym_entries`: the index of the symbol of a name, 0 for none. -/
def dynsymIndex (t : DynTables) (name : String) : Nat :=
  match t.entries.findIdx? (·.global.name == name) with
  | some j => j + 1
  | none => 0

/-- `((uint64_t)sym_idx << 32) | type`. -/
def info64 (sym_idx type : Nat) : Nat := sym_idx * 2 ^ 32 + type

/-- `(sym_idx << 8) | type`. -/
def info32 (sym_idx type : Nat) : Nat := sym_idx * 2 ^ 8 % 2 ^ 32 + type

/-- The type of a relocation against the load base. -/
def RelaContext.relative (c : RelaContext) : Nat :=
  if c.target_name = "arm" then R_ARM_RELATIVE else R_X86_64_RELATIVE

/-- The info of a `JUMP_SLOT`. -/
def RelaContext.jumpSlot (c : RelaContext) (sym_idx : Nat) : Nat :=
  if c.target_name = "arm" then info32 sym_idx R_ARM_JUMP_SLOT
  else if !c.elf64 then info32 sym_idx R_386_JUMP_SLOT
  else info64 sym_idx R_X86_64_JUMP_SLOT

/-- The value of a global that the link defines in a group. -/
def placedValue (c : DynContext) (groups : List LdGroup) (name : String) : Option Nat :=
  match c.globals.find name with
  | none => none
  | some g =>
    match g.group with
    | none => none
    | some k =>
      if g.defined then some (add64 ((groups[k]?).elim 0 LdGroup.address) g.offset) else none

/-- The body of the loop over the GOT: the relocations for `.rela.dyn` and those for `.rela.plt`. -/
def gotRelas (c : RelaContext) (t : DynTables) (groups : List LdGroup) (got_addr : Nat)
    (e : LdGotEntry) : List RelaEntry × List RelaEntry :=
  let got_entry := add64 got_addr e.offset
  let sym_idx := dynsymIndex t e.name
  if e.tls then
    if e.slots ≥ 2 then
      ([⟨got_entry, info64 sym_idx R_X86_64_DTPMOD64, 0⟩,
        ⟨add64 got_entry 8, info64 sym_idx R_X86_64_DTPOFF64, 0⟩], [])
    else ([⟨got_entry, info64 sym_idx R_X86_64_TPOFF64, 0⟩], [])
  else if e.reloc_type = R_X86_64_JUMP_SLOT then ([], [⟨got_entry, c.jumpSlot sym_idx, 0⟩])
  else
    match placedValue c.toDynContext groups e.name with
    | some value => ([⟨got_entry, c.relative, value⟩], [])
    | none =>
      if c.target_name = "x86_64" then
        ([⟨got_entry, info64 sym_idx R_X86_64_GLOB_DAT, 0⟩], [])
      else ([], [])

/-! ### The tables -/

/-- `.rela.dyn` and `.rela.plt` as far as they are filled. -/
structure RelaTables where
  dyn : List RelaEntry := []
  plt : List RelaEntry := []

/-- An entry for a table that was made with some room. -/
def relaAdd (groups : List LdGroup) (name : String) (capacity : Nat) (table : List RelaEntry)
    (x : RelaEntry) : Checked String (List RelaEntry) :=
  if !hasGroup groups name then .fail ""
  else if table.length ≥ capacity then .fail ("internal: " ++ name ++ " overflow")
  else .ok (table ++ [x])

/-- `rela_dyn_add`. -/
def relaDynAdd (t : DynTables) (groups : List LdGroup) (r : RelaTables) (x : RelaEntry) :
    Checked String RelaTables := do
  let dyn ← relaAdd groups ".rela.dyn" t.rela_capacity_entries r.dyn x
  return { r with dyn := dyn }

/-- `rela_plt_add`. -/
def relaPltAdd (t : DynTables) (groups : List LdGroup) (r : RelaTables) (x : RelaEntry) :
    Checked String RelaTables := do
  let plt ← relaAdd groups ".rela.plt" t.rela_plt_capacity_entries r.plt x
  return { r with plt := plt }

/-- One turn of the loop over the GOT. -/
def addGotRelas (c : RelaContext) (t : DynTables) (groups : List LdGroup) (got_addr : Nat)
    (r : RelaTables) (e : LdGotEntry) : Checked String RelaTables := do
  let r ← (gotRelas c t groups got_addr e).1.foldlM (relaDynAdd t groups) r
  (gotRelas c t groups got_addr e).2.foldlM (relaPltAdd t groups) r

/-- One turn of the loop over the entries of a relocation section, which is for a section that is
    `offset` bytes behind the start of the group at `target_addr`. -/
def dataRela (c : RelaContext) (t : DynTables) (groups : List LdGroup) (o : RelocObject) (k : Nat)
    (sec : ElfSection) (target_addr offset : Nat) (r : RelaTables) (n : Nat) :
    Checked String RelaTables := do
  let x ← readRela o k sec n
  if needsRelative c.toDynContext groups o x.type x.symbol_index then
    match getSymbolByIndex o.object x.symbol_index with
    | .error _ => return r
    | .ok (_, name) =>
      let value := (placedValue c.toDynContext groups name).getD 0
      relaDynAdd t groups r
        ⟨add64 (add64 target_addr offset) x.offset, c.relative, add64 value x.addend⟩
  else return r

/-- One turn of the loop over the sections of an object. -/
def dataRelaSection (c : RelaContext) (t : DynTables) (groups : List LdGroup) (o : RelocObject)
    (r : RelaTables) (k : Nat) : Checked String RelaTables :=
  match o.object.elf.getSection k with
  | none => .ok r
  | some sec =>
    if sec.type ≠ SHT_RELA ∧ sec.type ≠ SHT_REL then .ok r
    else if sec.entry_size = 0 ∨ sec.size % sec.entry_size ≠ 0 then .ok r
    else
      match o.object.map (o.info k) with
      | none => .ok r
      | some (target, offset) =>
        (range (sec.size / sec.entry_size)).foldlM
          (dataRela c t groups o k sec ((groups[target]?).elim 0 LdGroup.address) offset) r

/-- `build_rela_dyn`, up to the sizes of the tables.  Without a GOT the address of its group is read
    in front of the groups. -/
def buildRelaDyn (c : RelaContext) (t : DynTables) (groups : List LdGroup) :
    Checked String RelaTables :=
  if !c.dyn ∨ (c.got = [] ∧ t.rela_capacity_entries = 0) then .ok {}
  else
    match c.got_group.bind (groups[·]?) with
    | none => .fault
    | some g => do
        let r ← c.got.foldlM (addGotRelas c t groups g.address) {}
        (c.objects.filter (!·.object.is_shared)).foldlM
          (fun r o => (range o.count).foldlM (dataRelaSection c t groups o) r) r

/-! ### The tables that are filled -/

section tables

variable {c : RelaContext} {t : DynTables} {groups : List LdGroup}

variable {r r' : RelaTables}

theorem relaAdd_eq_ok {name : String} {capacity : Nat} {table table' : List RelaEntry}
    {x : RelaEntry} (h : relaAdd groups name capacity table x = .ok table') :
    table' = table ++ [x] := by
  unfold relaAdd at h
  split at h
  next => cases h
  next =>
    split at h
    next => cases h
    next => exact (ok.inj h).symm

theorem relaDynAdd_run {xs : List RelaEntry}
    (h : xs.foldlM (relaDynAdd t groups) r = .ok r') : r'.dyn = r.dyn ++ xs ∧ r'.plt = r.plt := by
  induction xs generalizing r with
  | nil =>
    cases h
    simp
  | cons x xs ih =>
    rw [foldlM_cons] at h
    obtain ⟨r₁, h₁, h⟩ := bind_eq_ok h
    obtain ⟨dyn, hdyn, h₁⟩ := bind_eq_ok h₁
    cases h₁
    obtain ⟨hrest, hplt⟩ := ih h
    rw [hrest, hplt, relaAdd_eq_ok hdyn]
    simp

theorem relaPltAdd_run {xs : List RelaEntry}
    (h : xs.foldlM (relaPltAdd t groups) r = .ok r') : r'.plt = r.plt ++ xs ∧ r'.dyn = r.dyn := by
  induction xs generalizing r with
  | nil =>
    cases h
    simp
  | cons x xs ih =>
    rw [foldlM_cons] at h
    obtain ⟨r₁, h₁, h⟩ := bind_eq_ok h
    obtain ⟨plt, hplt, h₁⟩ := bind_eq_ok h₁
    cases h₁
    obtain ⟨hrest, hdyn⟩ := ih h
    rw [hrest, hdyn, relaAdd_eq_ok hplt]
    simp

/-- The loop over the GOT adds the relocations of its entries. -/
theorem addGotRelas_run {got_addr : Nat} {got : List LdGotEntry}
    (h : got.foldlM (addGotRelas c t groups got_addr) r = .ok r') :
    r'.dyn = r.dyn ++ got.flatMap (fun e => (gotRelas c t groups got_addr e).1) ∧
      r'.plt = r.plt ++ got.flatMap (fun e => (gotRelas c t groups got_addr e).2) := by
  induction got generalizing r with
  | nil =>
    cases h
    simp
  | cons e got ih =>
    rw [foldlM_cons] at h
    obtain ⟨r₁, h₁, h⟩ := bind_eq_ok h
    obtain ⟨r₀, h₀, h₁⟩ := bind_eq_ok h₁
    obtain ⟨hd₀, hp₀⟩ := relaDynAdd_run h₀
    obtain ⟨hp₁, hd₁⟩ := relaPltAdd_run h₁
    obtain ⟨hd, hp⟩ := ih h
    rw [hd, hp, hd₁, hp₁, hd₀, hp₀, flatMap_cons, flatMap_cons, append_assoc,
      append_assoc]
    exact ⟨rfl, rfl⟩

/-- A stage that only adds relocations against the load base to `.rela.dyn`. -/
def AddsRelative (c : RelaContext) (r r' : RelaTables) : Prop :=
  r'.plt = r.plt ∧ ∃ xs, r'.dyn = r.dyn ++ xs ∧ ∀ x ∈ xs, x.info = c.relative

theorem AddsRelative.refl (r : RelaTables) : AddsRelative c r r := ⟨rfl, [], by simp, nofun⟩

theorem AddsRelative.trans {r'' : RelaTables} (h : AddsRelative c r r')
    (h' : AddsRelative c r' r'') : AddsRelative c r r'' := by
  obtain ⟨hp, xs, hd, hxs⟩ := h
  obtain ⟨hp', xs', hd', hxs'⟩ := h'
  refine ⟨hp'.trans hp, xs ++ xs', by rw [hd', hd, append_assoc], fun x hx => ?_⟩
  rcases mem_append.mp hx with hx | hx
  · exact hxs x hx
  · exact hxs' x hx

theorem dataRela_adds {o : RelocObject} {k target_addr offset n : Nat} {sec : ElfSection}
    (h : dataRela c t groups o k sec target_addr offset r n = .ok r') :
    AddsRelative c r r' := by
  unfold dataRela at h
  obtain ⟨x, -, h⟩ := bind_eq_ok h
  by_cases hneeds : needsRelative c.toDynContext groups o x.type x.symbol_index = true
  · rw [if_pos hneeds] at h
    cases hsym : getSymbolByIndex o.object x.symbol_index with
    | error e =>
      rw [hsym] at h
      cases h
      exact .refl r
    | ok p =>
      rw [hsym] at h
      obtain ⟨dyn, hdyn, h⟩ := bind_eq_ok h
      cases h
      exact ⟨rfl, _, relaAdd_eq_ok hdyn, fun x hx => by rw [mem_singleton.mp hx]⟩
  · rw [if_neg hneeds] at h
    cases h
    exact .refl r

theorem dataRelaSection_adds {o : RelocObject} {k : Nat}
    (h : dataRelaSection c t groups o r k = .ok r') : AddsRelative c r r' := by
  unfold dataRelaSection at h
  split at h
  next =>
    cases h
    exact .refl r
  next sec _ =>
    split at h
    next =>
      cases h
      exact .refl r
    next =>
      split at h
      next =>
        cases h
        exact .refl r
      next =>
        split at h
        next =>
          cases h
          exact .refl r
        next target offset _ =>
          exact foldlM_keeps (I := fun r' => AddsRelative c r r')
            (fun r₁ n r₂ h₁ hstep => h₁.trans (dataRela_adds hstep)) (.refl r) h

/-- The tables have the relocations of all GOT entries, and behind them in `.rela.dyn` such against
    the load base. -/
theorem buildRelaDyn_eq (h : buildRelaDyn c t groups = .ok r) (hdyn : c.dyn = true) :
    ∃ got_addr xs, r.dyn = c.got.flatMap (fun e => (gotRelas c t groups got_addr e).1) ++ xs ∧
      r.plt = c.got.flatMap (fun e => (gotRelas c t groups got_addr e).2) ∧
      ∀ x ∈ xs, x.info = c.relative := by
  unfold buildRelaDyn at h
  by_cases hempty : !c.dyn ∨ (c.got = [] ∧ t.rela_capacity_entries = 0)
  · rw [if_pos hempty] at h
    cases h
    have hgot : c.got = [] := by
      rcases hempty with hstatic | hgot
      · simp [hdyn] at hstatic
      · exact hgot.1
    exact ⟨0, [], by simp [hgot], by simp [hgot], nofun⟩
  · rw [if_neg hempty] at h
    cases hg : c.got_group.bind (groups[·]?) with
    | none =>
      rw [hg] at h
      cases h
    | some g =>
      rw [hg] at h
      obtain ⟨r₁, h₁, h⟩ := bind_eq_ok h
      obtain ⟨hd, hp⟩ := addGotRelas_run h₁
      have hadds : AddsRelative c r₁ r := by
        refine foldlM_keeps (I := fun r' => AddsRelative c r₁ r') ?_ (.refl r₁) h
        intro r₂ o r₃ h₂ hstep
        exact h₂.trans (foldlM_keeps (I := fun r' => AddsRelative c r₂ r')
          (fun _ k _ h₃ hsec => h₃.trans (dataRelaSection_adds hsec)) (.refl r₂) hstep)
      obtain ⟨hplt, xs, hdynr, hxs⟩ := hadds
      exact ⟨g.address, xs, by rw [hdynr, hd]; simp, by rw [hplt, hp]; simp, hxs⟩

end tables

/-! ### Symbol indices -/

variable {name : String} {idx type : Nat}

theorem symbol_info64 (hidx : idx < 2 ^ 32) (htype : type < 2 ^ 8)
    (offset addend : Nat) (elf64 : Bool) :
    RelaEntry.symbol elf64 ⟨offset, info64 idx type, addend⟩ = if elf64 then idx else 0 := by
  unfold RelaEntry.symbol info64
  cases elf64 with
  | false =>
    simp only [Bool.false_eq_true, if_false]
    omega
  | true =>
    simp only [if_true]
    omega

theorem type_info64 (htype : type < 2 ^ 8) (offset addend : Nat) (elf64 : Bool) :
    RelaEntry.type elf64 ⟨offset, info64 idx type, addend⟩ = type := by
  unfold RelaEntry.type info64
  cases elf64 with
  | false =>
    simp only [Bool.false_eq_true, if_false]
    omega
  | true =>
    simp only [if_true]
    omega

theorem symbol_info32 (htype : type < 2 ^ 8) (offset addend : Nat) :
    RelaEntry.symbol false ⟨offset, info32 idx type, addend⟩ = idx % 2 ^ 24 := by
  unfold RelaEntry.symbol info32
  simp only [Bool.false_eq_true, if_false]
  omega

theorem type_info32 (htype : type < 2 ^ 8) (offset addend : Nat) :
    RelaEntry.type false ⟨offset, info32 idx type, addend⟩ = type := by
  unfold RelaEntry.type info32
  simp only [Bool.false_eq_true, if_false]
  omega

section indices

variable {c : RelaContext} {t : DynTables} {groups : List LdGroup} {e : LdGotEntry} {x : RelaEntry}

/-- A relocation has the index of a symbol of the name of its GOT slot. -/
def Carries (c : RelaContext) (t : DynTables) (e : LdGotEntry) (x : RelaEntry) : Prop :=
  ∃ i entry, t.entries[i]? = some entry ∧ entry.global.name = e.name ∧
    x.symbol c.elf64 = i + 1

/-- The names of the entries for `.dynsym`. -/
def DynTables.names (t : DynTables) : List String := t.entries.map (·.global.name)

theorem dynsymIndex_of_mem (h : name ∈ t.names) :
    dynsymIndex t name = t.names.idxOf name + 1 := by
  unfold dynsymIndex
  have hidx : t.entries.findIdx? (·.global.name == name) = some (t.names.idxOf name) := by
    have hmap : t.entries.findIdx? (·.global.name == name) = t.names.findIdx? (· == name) := by
      unfold DynTables.names
      rw [findIdx?_map]
      rfl
    exact hmap.trans (findIdx?_eq_some_of_exists ⟨name, h, beq_self_eq_true name⟩)
  rw [hidx]

theorem dynsymIndex_of_not_mem (h : name ∉ t.names) : dynsymIndex t name = 0 := by
  unfold dynsymIndex
  have hidx : t.entries.findIdx? (·.global.name == name) = none := by
    rw [findIdx?_eq_none_iff]
    intro entry hentry
    simp only [beq_eq_false_iff_ne]
    rintro rfl
    exact h (mem_map_of_mem hentry)
  rw [hidx]

theorem Carries.mem (h : Carries c t e x) : e.name ∈ t.names := by
  obtain ⟨i, entry, hget, hname, -⟩ := h
  rw [← hname]
  exact mem_map_of_mem (mem_of_getElem? hget)

/-- The index found is carried when the symbol is there. -/
theorem carries_iff_mem (h : x.symbol c.elf64 = dynsymIndex t e.name) :
    Carries c t e x ↔ e.name ∈ t.names := by
  refine ⟨Carries.mem, fun hmem => ?_⟩
  have hlt := idxOf_lt_length_of_mem hmem
  have hlt' : t.names.idxOf e.name < t.entries.length := by
    rwa [DynTables.names, length_map] at hlt
  refine ⟨_, _, getElem?_eq_getElem hlt', ?_, h.trans (dynsymIndex_of_mem hmem)⟩
  have hget : t.names[t.names.idxOf e.name] = e.name := getElem_idxOf hlt
  exact (getElem_map _).symm.trans hget

/-- An index of 24 bits is carried when the symbol is there and its index is that small. -/
theorem carries_iff_lt (hnodup : t.names.Nodup)
    (h : x.symbol c.elf64 = dynsymIndex t e.name % 2 ^ 24) :
    Carries c t e x ↔ e.name ∈ t.names ∧ t.names.idxOf e.name + 1 < 2 ^ 24 := by
  constructor
  · intro hcarries
    have hmem := hcarries.mem
    refine ⟨hmem, ?_⟩
    obtain ⟨i, entry, hget, hname, hsym⟩ := hcarries
    -- The index is that of the symbol, since there is one of the name only.
    have hi : t.names.idxOf e.name = i := by
      obtain ⟨hlt, hentry⟩ := List.getElem?_eq_some_iff.mp hget
      have hlt' : i < t.names.length := by rwa [DynTables.names, length_map]
      have hgeti : t.names[i] = e.name := by simp [DynTables.names, hentry, hname]
      rw [← hgeti]
      exact hnodup.idxOf_getElem i hlt'
    rw [h, dynsymIndex_of_mem hmem, hi] at hsym
    omega
  · rintro ⟨hmem, hlt⟩
    refine (carries_iff_mem ?_).mpr hmem
    rw [h, dynsymIndex_of_mem hmem, Nat.mod_eq_of_lt hlt]

theorem RelaContext.relative_eq (c : RelaContext) :
    c.relative = R_ARM_RELATIVE ∧ c.elf64 = false ∨ c.relative = R_X86_64_RELATIVE := by
  unfold RelaContext.relative
  by_cases harm : c.target_name = "arm"
  · rw [if_pos harm]
    exact .inl ⟨rfl, c.arm_class harm⟩
  · rw [if_neg harm]
    exact .inr rfl

/-- A GOT entry gets a relocation by a symbol. -/
def NeedsIndex (c : RelaContext) (e : LdGotEntry) : Prop :=
  e.tls = true ∨ e.reloc_type = R_X86_64_JUMP_SLOT ∨
    (c.target_name = "x86_64" ∧ ∀ g, c.globals.find e.name = some g → g.defined = true →
      g.group = none)

theorem placedValue_eq_none :
    placedValue c.toDynContext groups name = none ↔
      ∀ g, c.globals.find name = some g → g.defined = true → g.group = none := by
  unfold placedValue
  cases c.globals.find name with
  | none => simp
  | some g =>
    cases hk : g.group with
    | none => simp [hk]
    | some k =>
      cases hdef : g.defined with
      | false => simp [hk, hdef]
      | true => simp [hk, hdef]

/-- The index fits the field that it is written to. -/
def IndexFits (c : RelaContext) (e : LdGotEntry) : Prop :=
  c.elf64 = true ∨ (e.tls = false ∧ (dynsymNames c.toDynContext).idxOf e.name + 1 < 2 ^ 24)

theorem RelaContext.symbol_jumpSlot (hidx : idx < 2 ^ 32) (offset addend : Nat) :
    RelaEntry.symbol c.elf64 ⟨offset, c.jumpSlot idx, addend⟩ =
      if c.elf64 then idx else idx % 2 ^ 24 := by
  unfold RelaContext.jumpSlot
  by_cases harm : c.target_name = "arm"
  · rw [if_pos harm, c.arm_class harm]
    exact symbol_info32 (by decide) _ _
  · rw [if_neg harm]
    cases c.elf64 with
    | false => exact symbol_info32 (by decide) _ _
    | true => exact symbol_info64 hidx (by decide) _ _ true

theorem RelaContext.type_jumpSlot (idx offset addend : Nat) :
    RelaEntry.type c.elf64 ⟨offset, c.jumpSlot idx, addend⟩ ≠ c.relative := by
  unfold RelaContext.jumpSlot RelaContext.relative
  by_cases harm : c.target_name = "arm"
  · rw [if_pos harm, if_pos harm, c.arm_class harm, type_info32 (by decide)]
    decide
  · rw [if_neg harm, if_neg harm]
    cases c.elf64 with
    | false =>
      show RelaEntry.type false ⟨offset, info32 idx R_386_JUMP_SLOT, addend⟩ ≠ R_X86_64_RELATIVE
      rw [type_info32 (by decide)]
      decide
    | true =>
      show RelaEntry.type true ⟨offset, info64 idx R_X86_64_JUMP_SLOT, addend⟩ ≠ R_X86_64_RELATIVE
      rw [type_info64 (by decide)]
      decide

/-- The relocations of a GOT entry by a symbol have the index of the symbol of its name exactly when
    that symbol is in `.dynsym` and the index fits. -/
theorem carries_iff (hnames : t.names = dynsymNames c.toDynContext) (hnodup : t.names.Nodup)
    (hsmall : t.names.length + 1 < 2 ^ 32) (got_addr : Nat) :
    (∀ x ∈ (gotRelas c t groups got_addr e).1 ++ (gotRelas c t groups got_addr e).2,
        x.type c.elf64 ≠ c.relative → Carries c t e x) ↔
      (NeedsIndex c e → e.name ∈ dynsymNames c.toDynContext ∧ IndexFits c e) := by
  have hidx : dynsymIndex t e.name < 2 ^ 32 := by
    by_cases hmem : e.name ∈ t.names
    · rw [dynsymIndex_of_mem hmem]
      have hlt := idxOf_lt_length_of_mem hmem
      omega
    · rw [dynsymIndex_of_not_mem hmem]
      omega
  unfold IndexFits
  rw [← hnames]
  unfold gotRelas
  by_cases htls : e.tls = true
  · -- Thread-local: one relocation or two, whose index is written for ELF64 only.
    have htls64 : ∀ offset type, type < 2 ^ 8 → (Carries c t e
        ⟨offset, info64 (dynsymIndex t e.name) type, 0⟩ ↔ e.name ∈ t.names ∧ c.elf64 = true) := by
      intro offset type htype
      have hsym := symbol_info64 hidx htype offset 0 c.elf64
      cases h64 : c.elf64 with
      | false =>
        rw [h64, if_neg (by decide)] at hsym
        refine iff_of_false ?_ (by simp)
        rintro ⟨i, entry, -, -, hi⟩
        rw [h64, hsym] at hi
        omega
      | true =>
        rw [h64, if_pos rfl] at hsym
        rw [carries_iff_mem (h64 ▸ hsym)]
        simp
    have hrel : ∀ offset type, type < 2 ^ 8 → type ≠ R_ARM_RELATIVE → type ≠ R_X86_64_RELATIVE →
        RelaEntry.type c.elf64 ⟨offset, info64 (dynsymIndex t e.name) type, 0⟩ ≠ c.relative := by
      intro offset type htype harm hx86
      rw [type_info64 htype]
      rcases c.relative_eq with ⟨h, -⟩ | h
      · rwa [h]
      · rwa [h]
    have hneeds : NeedsIndex c e := .inl htls
    rw [if_pos htls]
    by_cases hslots : e.slots ≥ 2
    · rw [if_pos hslots]
      simp only [append_nil, mem_cons, not_mem_nil, or_false, forall_eq_or_imp,
        forall_eq, htls64 _ R_X86_64_DTPMOD64 (by decide), htls64 _ R_X86_64_DTPOFF64 (by decide),
        hneeds, true_imp_iff, htls, Bool.true_eq_false, false_and, or_false]
      constructor
      · exact fun h => h.1 (hrel _ _ (by decide) (by decide) (by decide))
      · exact fun h => ⟨fun _ => h, fun _ => h⟩
    · rw [if_neg hslots]
      simp only [append_nil, mem_singleton, forall_eq, or_false,
        htls64 _ R_X86_64_TPOFF64 (by decide), hneeds, true_imp_iff, htls, Bool.true_eq_false,
        false_and]
      constructor
      · exact fun h => h (hrel _ _ (by decide) (by decide) (by decide))
      · exact fun h _ => h
  · have htls' : e.tls = false := by simpa using htls
    rw [if_neg htls]
    by_cases hjump : e.reloc_type = R_X86_64_JUMP_SLOT
    · -- A function: the index has 24 bits for ELF32.
      have hneeds : NeedsIndex c e := .inr (.inl hjump)
      have hcarries : Carries c t e ⟨add64 got_addr e.offset, c.jumpSlot (dynsymIndex t e.name), 0⟩ ↔
          e.name ∈ t.names ∧ (c.elf64 = true ∨ t.names.idxOf e.name + 1 < 2 ^ 24) := by
        have hsym := c.symbol_jumpSlot hidx (add64 got_addr e.offset) 0
        cases h64 : c.elf64 with
        | false =>
          rw [h64, if_neg (by decide)] at hsym
          rw [carries_iff_lt hnodup (h64 ▸ hsym)]
          simp
        | true =>
          rw [h64, if_pos rfl] at hsym
          rw [carries_iff_mem (h64 ▸ hsym)]
          simp
      rw [if_pos hjump]
      simp only [nil_append, mem_singleton, forall_eq, hcarries, hneeds, true_imp_iff,
        htls', true_and]
      constructor
      · exact fun h => h (c.type_jumpSlot _ _ _)
      · exact fun h _ => h
    · rw [if_neg hjump]
      cases hplaced : placedValue c.toDynContext groups e.name with
      | some value =>
        -- Defined in this link: no symbol is needed.
        have hneeds : ¬ NeedsIndex c e := by
          rintro (h | h | ⟨-, h⟩)
          · exact htls h
          · exact hjump h
          · rw [placedValue_eq_none.mpr h] at hplaced
            cases hplaced
        refine iff_of_true ?_ fun h => absurd h hneeds
        intro x hx htype
        simp only [append_nil, mem_singleton] at hx
        subst hx
        refine absurd ?_ htype
        rcases c.relative_eq with ⟨h, h64⟩ | h
        · rw [h, h64]
          rfl
        · rw [h]
          cases c.elf64 <;> rfl
      | none =>
        by_cases hx86 : c.target_name = "x86_64"
        · -- Data of another module, for x86-64 only.
          have h64 := c.x86_64_class hx86
          have hneeds : NeedsIndex c e := .inr (.inr ⟨hx86, placedValue_eq_none.mp hplaced⟩)
          have hsym : RelaEntry.symbol c.elf64 ⟨add64 got_addr e.offset,
              info64 (dynsymIndex t e.name) R_X86_64_GLOB_DAT, 0⟩ = dynsymIndex t e.name := by
            rw [symbol_info64 hidx (by decide), if_pos h64]
          rw [if_pos hx86]
          simp only [append_nil, mem_singleton, forall_eq, carries_iff_mem hsym, hneeds,
            true_imp_iff, h64, true_or, and_true]
          have htype : RelaEntry.type c.elf64 ⟨add64 got_addr e.offset,
              info64 (dynsymIndex t e.name) R_X86_64_GLOB_DAT, 0⟩ ≠ c.relative := by
            rw [type_info64 (by decide)]
            rcases c.relative_eq with ⟨-, h⟩ | h
            · exact absurd (h64.symm.trans h) nofun
            · rw [h]
              decide
          rw [h64] at htype
          constructor
          · exact fun h => h htype
          · exact fun h _ => h
        · rw [if_neg hx86]
          have hneeds : ¬ NeedsIndex c e := by
            rintro (h | h | ⟨h, -⟩)
            · exact htls h
            · exact hjump h
            · exact hx86 h
          exact iff_of_true (fun x hx => absurd hx (by simp)) fun h => absurd h hneeds

end indices

end MeuOS.Ld
