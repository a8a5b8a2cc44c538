import MeuOS.Ld.Passes
import MeuOS.Ld.Resolve

namespace MeuOS.Ld

/-!
# Thread-local variables in the linker (`reloc.c`, `dynamic.c`, `elfout.c`)

The TLS block of a module is `.tdata` followed by `.tbss`.  The linker states where a variable is
in three places: the field of a local-exec relocation, the value of a dynamic symbol and the
header `PT_TLS`.

* `layoutTls` — the TLS fields that layout leaves in the context;
* `symbolTlsOffset`, `tpoff32Field` — a local-exec relocation;
* `dynsymType`, `dynsymValue` — a dynamic symbol;
* `ptTls` — the program header;
* `TlsContext.position` — the place of a variable in the block;
* `symbolTlsOffset_position` — a relocation counts from the place in the block.
-/

/-! ### The context after layout -/

/-- The fields of `struct ld_context` that the TLS code reads after layout. -/
structure TlsContext where
  groups : List LdGroup
  tls_tdata_group : Option Nat
  tls_tbss_group : Option Nat
  tls_tdata_size : Nat
  tls_size : Nat
  tls_align : Nat

/-- What `layout_output` leaves for the TLS code. -/
def layoutTls (shared : Bool) (groups : List LdGroup) : TlsContext :=
  let l := layoutOutput shared groups
  { groups := l.groups
    tls_tdata_group := findGroup groups ".tdata"
    tls_tbss_group := findGroup groups ".tbss"
    tls_tdata_size := l.tls_tdata_size
    tls_size := l.tls_size
    tls_align := l.tls_align }

/-! ### Local-exec relocations -/

/-- Where `symbol_tls_offset` puts `.tbss` in the block. -/
def tbssBase (tls : TlsContext) : Nat :=
  match tls.tls_tbss_group.bind (tls.groups[·]?) with
  | none => tls.tls_tdata_size
  | some g => alignUp64 tls.tls_tdata_size g.alignOf

/-- The offset in the block of an offset in a group. -/
def tlsOffset (tls : TlsContext) (group : Option Nat) (offset : Nat) (name : String) :
    Except String Nat :=
  if group = tls.tls_tdata_group then .ok offset
  else if group = tls.tls_tbss_group then .ok (add64 (tbssBase tls) offset)
  else .error ("TPOFF32 relocation against non-TLS symbol: " ++ name)

/-- `symbol_tls_offset`. -/
def symbolTlsOffset (ctx : LdContext) (tls : TlsContext) (o : LdObject) (index : Nat) :
    Except String Nat :=
  match getSymbolByIndex o index with
  | .error e => .error e
  | .ok (sym, name) =>
    if sym.sec = SHN_UNDEF then
      match ctx.globals.find name with
      | none => .error ("undefined symbol: " ++ name)
      | some g =>
        if !g.defined then .error ("undefined symbol: " ++ name)
        else tlsOffset tls g.group (add64 g.offset sym.value) name
    else
      match o.map sym.sec with
      | none => .error ("symbol section was discarded: " ++ name)
      | some place => tlsOffset tls (some place.1) (add64 place.2 sym.value) name

/-- Subtraction of two `uint64_t`. -/
def sub64 (a b : Nat) : Nat := (a + (2 ^ 64 - b)) % 2 ^ 64

/-- The four bytes that `write_relocation` stores for `R_X86_64_TPOFF32`. -/
def tpoff32Field (tls : TlsContext) (tls_off addend : Nat) : Nat :=
  add64 (sub64 tls_off tls.tls_size) addend % 2 ^ 32

/-! ### Dynamic symbols -/

/-- `MT_STT_OBJECT`. -/
def STT_OBJECT : Nat := 1

/-- `MT_STT_FUNC`. -/
def STT_FUNC : Nat := 2

/-- `MT_STT_TLS`. -/
def STT_TLS : Nat := 6

/-- The type that `build_dynamic_tables` gives an exported global. -/
def dynsymType (groups : List LdGroup) (g : LdGlobal) : Nat :=
  match g.group.bind (groups[·]?) with
  | none => STT_OBJECT
  | some group =>
    if group.name = ".text" then STT_FUNC
    else if group.name = ".tdata" || group.name = ".tbss" then STT_TLS
    else STT_OBJECT

/-- The `st_value` that `fill_dynamic_addresses` writes for an exported global. -/
def dynsymValue (groups : List LdGroup) (stt : Nat) (g : LdGlobal) : Nat :=
  match g.group with
  | none => 0
  | some k =>
    if !g.defined then 0
    else if stt = STT_TLS then g.offset
    else add64 ((groups[k]?).elim 0 LdGroup.address) g.offset

/-! ### The program header -/

/-- A program header. -/
structure Phdr where
  offset : Nat
  vaddr : Nat
  filesz : Nat
  memsz : Nat
  align : Nat
  deriving DecidableEq, Repr

/-- The `PT_TLS` that `write_executable` writes for a block that is not empty. -/
def ptTls (tls : TlsContext) : Option Phdr :=
  if tls.tls_size = 0 then none
  else
    let tdata := tls.tls_tdata_group.bind (tls.groups[·]?)
    let start := tdata.or (tls.tls_tbss_group.bind (tls.groups[·]?))
    some
      { offset := (start.map LdGroup.file_offset).getD 0
        vaddr := (start.map LdGroup.address).getD 0
        filesz := (tdata.map LdGroup.size).getD 0
        memsz := tls.tls_size
        align := tls.tls_align }

/-! ### Places in the block -/

/-- Where a variable that is at an offset of a group is in the block: `.tdata` comes first and
    `.tbss` at its alignment behind. -/
def TlsContext.position (tls : TlsContext) (group : Option Nat) (offset : Nat) : Option Nat :=
  if group.isNone then none
  else if group = tls.tls_tdata_group then some offset
  else if group = tls.tls_tbss_group then
    (tls.tls_tbss_group.bind (tls.groups[·]?)).map fun g =>
      add64 (alignUp64 tls.tls_tdata_size g.align) offset
  else none

/-- The group and the offset of the variable that a relocation names: an undefined symbol is the
    global's, another one is in a section of its object. -/
def variablePlace (ctx : LdContext) (o : LdObject) (index : Nat) : Option (Option Nat × Nat) :=
  match getSymbolByIndex o index with
  | .error _ => none
  | .ok (sym, name) =>
    if sym.sec = SHN_UNDEF then
      (ctx.globals.find name).map fun g => (g.group, add64 g.offset sym.value)
    else (o.map sym.sec).map fun place => (some place.1, add64 place.2 sym.value)

/-! ### Layout keeps what is no place -/

section Keeps

variable {β : Type*} (f : LdGroup → β) (hf : ∀ base off g, f (LdGroup.setPos base off g) = f g)
include hf

theorem passOver_map (tls : Nat → Bool) (sel adv : LdGroup → Bool) (base i o : Nat)
    (gs : List LdGroup) : (passOver tls sel adv base i o gs).1.map f = gs.map f := by
  induction gs generalizing i o with
  | nil => rfl
  | cons g gs ih =>
    unfold passOver
    split
    · dsimp only
      rw [List.map_cons, List.map_cons, hf, ih]
    · dsimp only
      rw [List.map_cons, List.map_cons, ih]

theorem passRanks_map (tls : Nat → Bool) (sel : Int → LdGroup → Bool) (adv : LdGroup → Bool)
    (base : Nat) (ranks : List Int) (st : LayoutSt) :
    (passRanks tls sel adv base ranks st).1.map f = st.1.map f := by
  induction ranks generalizing st with
  | nil => rfl
  | cons r rs ih =>
    show (passRanks tls sel adv base rs _).1.map f = _
    rw [ih, passOver_map f hf]

theorem set_map {gs : List LdGroup} {k : Nat} {g : LdGroup} (hg : gs[k]? = some g)
    (base off : Nat) : (gs.set k (g.setPos base off)).map f = gs.map f := by
  rw [List.map_set, hf]
  apply List.ext_getElem?
  intro i
  rw [List.getElem?_set]
  split
  · rename_i hik
    subst hik
    rw [List.getElem?_map, hg, List.length_map]
    rw [if_pos (List.getElem?_eq_some_iff.mp hg).1]
    rfl
  · rfl

theorem placeAt_map (base k : Nat) (st : LayoutSt) : (placeAt base k st).1.map f = st.1.map f := by
  unfold placeAt
  split
  · rfl
  · rename_i g hg
    exact set_map f hf hg _ _

theorem layTdata_map (base : Nat) (tdata : Option Nat) (st : LayoutSt) :
    (layTdata base tdata st).1.map f = st.1.map f := by
  unfold layTdata
  split
  · rfl
  · exact placeAt_map f hf _ _ _

theorem layTbss_map (base : Nat) (tdata tbss : Option Nat) (st : LayoutSt) :
    (layTbss base tdata tbss st).1.map f = st.1.map f := by
  unfold layTbss
  split
  · rfl
  · split
    · exact placeAt_map f hf _ _ _
    · split
      · rfl
      · rename_i g hg
        exact set_map f hf hg _ _

theorem layoutOutput_map (shared : Bool) (gs : List LdGroup) :
    (layoutOutput shared gs).groups.map f = gs.map f := by
  unfold layoutOutput
  dsimp only
  rw [passRanks_map f hf, layTbss_map f hf, layTdata_map f hf, passRanks_map f hf,
    passRanks_map f hf, passRanks_map f hf]

end Keeps

/-! ### Relocations count from the place in the block -/

section Position

variable (shared : Bool) (t : GroupTable)

/-- The alignment of a group behind layout. -/
theorem layoutTls_align {k : Nat} {g : LdGroup}
    (hg : (layoutTls shared t.groups).groups[k]? = some g) : ∃ j < 64, g.align = 2 ^ j := by
  have hmap := layoutOutput_map LdGroup.align (fun _ _ _ => rfl) shared t.groups
  have hk : ((layoutOutput shared t.groups).groups.map LdGroup.align)[k]? = some g.align := by
    rw [List.getElem?_map]
    exact congrArg (Option.map LdGroup.align) hg
  rw [hmap] at hk
  obtain ⟨h, hh, halign⟩ := List.mem_map.mp (List.mem_of_getElem? hk)
  rw [← halign]
  exact (t.fresh h hh).align_pow

/-- A place in the block is in one of the two groups. -/
theorem position_cases {tls : TlsContext} {group : Option Nat} {offset pos : Nat}
    (hpos : tls.position group offset = some pos) :
    (∃ k, group = some k) ∧
      (group = tls.tls_tdata_group ∧ pos = offset ∨
        group ≠ tls.tls_tdata_group ∧ group = tls.tls_tbss_group ∧
          ∃ g, tls.tls_tbss_group.bind (tls.groups[·]?) = some g ∧
            pos = add64 (alignUp64 tls.tls_tdata_size g.align) offset) := by
  unfold TlsContext.position at hpos
  split at hpos
  · cases hpos
  · rename_i hsome
    refine ⟨Option.ne_none_iff_exists'.mp (by simpa using hsome), ?_⟩
    split at hpos
    · rename_i hg
      exact Or.inl ⟨hg, (Option.some.inj hpos).symm⟩
    · rename_i hg
      split at hpos
      · rename_i hb
        obtain ⟨g, hfind, hg'⟩ := Option.map_eq_some_iff.mp hpos
        exact Or.inr ⟨hg, hb, g, hfind, hg'.symm⟩
      · cases hpos

/-- The alignment of `.tbss` is not zero, so the relocations and the block round in the same
    way. -/
theorem tbssBase_eq {g : LdGroup} (hfind : (layoutTls shared t.groups).tls_tbss_group.bind
      ((layoutTls shared t.groups).groups[·]?) = some g) :
    tbssBase (layoutTls shared t.groups)
      = alignUp64 (layoutTls shared t.groups).tls_tdata_size g.align := by
  obtain ⟨k, -, hgk⟩ := Option.bind_eq_some_iff.mp hfind
  obtain ⟨j, -, hj⟩ := layoutTls_align shared t hgk
  have halign : g.alignOf = g.align := by
    unfold LdGroup.alignOf
    rw [if_neg (by rw [hj]; exact (Nat.two_pow_pos j).ne')]
  unfold tbssBase
  rw [hfind]
  dsimp only
  rw [halign]

/-- The offset of a place in the block is its position. -/
theorem tlsOffset_position {group : Option Nat} {offset off pos : Nat} {name : String}
    (h : tlsOffset (layoutTls shared t.groups) group offset name = .ok off)
    (hpos : (layoutTls shared t.groups).position group offset = some pos) : off = pos := by
  unfold tlsOffset at h
  obtain ⟨-, ⟨hg, rfl⟩ | ⟨hg, hb, g, hfind, rfl⟩⟩ := position_cases hpos
  · rw [if_pos hg] at h
    exact (Except.ok.inj h).symm
  · rw [if_neg hg, if_pos hb, tbssBase_eq shared t hfind] at h
    exact (Except.ok.inj h).symm

/-- A relocation counts from the position of the variable that it names. -/
theorem symbolTlsOffset_position {ctx : LdContext} {o : LdObject} {index off pos : Nat}
    {place : Option Nat × Nat}
    (h : symbolTlsOffset ctx (layoutTls shared t.groups) o index = .ok off)
    (hplace : variablePlace ctx o index = some place)
    (hpos : (layoutTls shared t.groups).position place.1 place.2 = some pos) : off = pos := by
  unfold symbolTlsOffset at h
  unfold variablePlace at hplace
  split at h
  · cases h
  · rename_i sym name hsym
    rw [hsym] at hplace
    dsimp only at hplace
    split at h
    · rename_i hundef
      rw [if_pos hundef] at hplace
      obtain ⟨g, hg, rfl⟩ := Option.map_eq_some_iff.mp hplace
      rw [hg] at h
      dsimp only at h
      split at h
      · cases h
      · exact tlsOffset_position shared t h hpos
    · rename_i hdef
      rw [if_neg hdef] at hplace
      obtain ⟨m, hm, rfl⟩ := Option.map_eq_some_iff.mp hplace
      rw [hm] at h
      exact tlsOffset_position shared t h hpos

end Position

end MeuOS.Ld
