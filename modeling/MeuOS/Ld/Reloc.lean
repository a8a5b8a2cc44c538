import MeuOS.Lib.Overwrite
import MeuOS.Ld.Got
import MeuOS.Ld.SymbolValue
import MeuOS.Ld.Tls
import Mathlib.Data.Int.ModEq

namespace MeuOS.Ld

open MeuOS.Lib Lib.Checked

/-!
# Relocations of x86_64 (`reloc.c`)

`write_relocation` computes the value of a field in 64-bit arithmetic and stores its low bytes in
the data of the output group.

* `RelocContext`, `RelocState` — what relocations read, and the groups, the GOT and the data that
  they may change;
* `x86Value` — the value and the width for each type;
* `writeRelocationX86` — the whole of it for a decoded entry;
* `exactValue` — the number that a field of 32 bits stands for;
* `x86_field_iff` — a field that is stored stands for its number exactly when the number fits.
-/

/-! ### Types -/

/-- `LD_R_X86_64_64`. -/
def R_X86_64_64 : Nat := 1

/-- `LD_R_X86_64_PC32`. -/
def R_X86_64_PC32 : Nat := 2

/-- `LD_R_X86_64_PLT32`. -/
def R_X86_64_PLT32 : Nat := 4

/-- `LD_R_X86_64_GOTPCREL`. -/
def R_X86_64_GOTPCREL : Nat := 9

/-- `LD_R_X86_64_32`. -/
def R_X86_64_32 : Nat := 10

/-- `LD_R_X86_64_32S`. -/
def R_X86_64_32S : Nat := 11

/-- `LD_R_X86_64_DTPMOD`. -/
def R_X86_64_DTPMOD : Nat := 16

/-- `LD_R_X86_64_DTPOFF`. -/
def R_X86_64_DTPOFF : Nat := 21

/-- `LD_R_X86_64_TPOFF32`. -/
def R_X86_64_TPOFF32 : Nat := 23

/-- `LD_R_X86_64_REX_GOTPCRELX`. -/
def R_X86_64_REX_GOTPCRELX : Nat := 42

/-! ### The state of relocation -/

/-- A decoded entry of a relocation section; the addend is kept as its 64 bits. -/
structure LdRela where
  offset : Nat
  type : Nat
  symbol_index : Nat
  addend : Nat
  deriving DecidableEq, Repr

/-- `struct ld_tls_desc`. -/
structure LdTlsDesc where
  name : String
  group : Nat
  offset : Nat
  deriving DecidableEq, Repr

/-- What relocations read and do not change: the symbols, the TLS fields of layout, `got.group`,
    the places of the stubs in `.plt` and the TLS descriptors. -/
structure RelocContext where
  link : LdContext
  shared : Bool
  pie : Bool
  tls : TlsContext
  tls_size_lt : tls.tls_size < 2 ^ 64
  got_group : Option Nat
  plt_offset : Nat → Nat
  tls_descs : List LdTlsDesc

/-- The groups with the GOT, and the data of each group; a group without file space has none. -/
structure RelocState where
  got : LdGot
  data : Nat → Bytes

/-- The output is loaded at an address that is not known yet. -/
def RelocContext.dyn (c : RelocContext) : Bool := c.shared || c.pie

/-- The address of a group. -/
def RelocState.address (s : RelocState) (k : Nat) : Nat := (s.got.groups[k]?).elim 0 LdGroup.address

/-- `&ctx->groups[k]`. -/
def RelocState.group (s : RelocState) (k : Nat) : Checked String LdGroup :=
  match s.got.groups[k]? with
  | some g => .ok g
  | none => .fault

variable {s s' : RelocState} {name : String} {c : RelocContext}

theorem group_eq_ok {k : Nat} {g : LdGroup} (h : s.group k = .ok g) :
    s.got.groups[k]? = some g := by
  unfold RelocState.group at h
  split at h
  next g' hg' => rw [hg', ok.inj h]
  next => cases h

/-- A store into the data of a group. -/
def RelocState.store (s : RelocState) (k off : Nat) (b : Bytes) : Checked String RelocState := do
  let data ← patchAt (s.data k) off b
  return { s with data := Function.update s.data k data }

/-- The result of a function that accesses no array. -/
def ofExcept {α : Type} : Except String α → Checked String α
  | .ok a => .ok a
  | .error e => .fail e

theorem ofExcept_eq_ok {α : Type} {x : Except String α} {a : α} (h : ofExcept x = .ok a) :
    x = .ok a := by
  match x with
  | .ok b => exact congrArg Except.ok (ok.inj h)

/-- `tls_desc_index`. -/
def tlsDescIndex (descs : List LdTlsDesc) (name : String) : Option Nat :=
  descs.findIdx? (·.name == name)

/-- `reloc_field_width` for x86_64. -/
def x86FieldWidth (type : Nat) : Nat := if type = R_X86_64_64 then 8 else 4

/-! ### The value of a field -/

/-- The address of a GOT entry, in the group that `got.group` names. -/
def gotSlotAddress (c : RelocContext) (s : RelocState) (i : Nat) : Checked String Nat :=
  match c.got_group with
  | none => .fault
  | some k => do
      let g ← s.group k
      match s.got.items[i]? with
      | none => .fault
      | some e => return add64 g.address e.offset

/-- Where a call of an import goes: to its stub in `.plt`, or to the GOT entry if there is no
    `.plt`.  The entry is made if it is missing. -/
def importTarget (c : RelocContext) (s : RelocState) (name : String) :
    Checked String (RelocState × Nat) :=
  match addGotEntry s.got name with
  | .error _ => .fail ("cannot create GOT entry for %s: " ++ name)
  | .ok got => do
      let i := (gotIndex got.items name).getD 0
      let s := { s with got := { got with items := got.items.modify i LdGotEntry.jumpslot } }
      match findGroup s.got.groups ".plt" with
      | some plt => return (s, add64 (s.address plt) (c.plt_offset i))
      | none => do
          let slot ← gotSlotAddress c s i
          return (s, slot)

/-- The static descriptor of a general- or local-dynamic access: it is filled, and its address
    returned. -/
def staticDescriptor (c : RelocContext) (s : RelocState) (o : LdObject) (name : String)
    (index : Nat) : Checked String (RelocState × Nat) :=
  match (tlsDescIndex c.tls_descs name).bind (c.tls_descs[·]?) with
  | none => .fail ("missing static TLS descriptor: " ++ name)
  | some d => do
      let g ← s.group d.group
      let tls_off ← ofExcept (symbolTlsOffset c.link c.tls o index)
      let s ←
        if g.type ≠ SHT_NOBITS ∧ d.offset + 16 ≤ g.size then
          s.store d.group d.offset (leBytes 8 1 ++ leBytes 8 (sub64 tls_off c.tls.tls_size))
        else pure s
      return (s, add64 g.address d.offset)

/-- The cases of the dispatch on the type. -/
inductive X86Kind where
  | gotpcrel
  | plt32
  | pc32
  | tls
  | abs64
  | abs32
  | tpoff32
  | unsupported
  deriving DecidableEq

/-- The case of a type. -/
def x86Kind (type : Nat) : X86Kind :=
  if type = R_X86_64_GOTPCREL ∨ type = R_X86_64_REX_GOTPCRELX then .gotpcrel
  else if type = R_X86_64_PLT32 then .plt32
  else if type = R_X86_64_PC32 then .pc32
  else if type = R_X86_64_TLSGD ∨ type = R_X86_64_TLSLD ∨ type = R_X86_64_DTPOFF ∨
      type = R_X86_64_DTPMOD ∨ type = R_X86_64_GOTTPOFF then .tls
  else if type = R_X86_64_64 then .abs64
  else if type = R_X86_64_32 ∨ type = R_X86_64_32S then .abs32
  else if type = R_X86_64_TPOFF32 then .tpoff32
  else .unsupported

/-- A value relative to the place, for a field of 32 bits. -/
def relativeField (r : LdRela) (place target : Nat) : Option (Nat × Nat) :=
  some (sub64 (add64 target r.addend) place, 4)

/-- The value of a field for the offset of a thread-local symbol from the thread pointer. -/
def tpoffField (c : RelocContext) (o : LdObject) (r : LdRela) : Checked String (Option (Nat × Nat)) := do
  let tls_off ← ofExcept (symbolTlsOffset c.link c.tls o r.symbol_index)
  return some (add64 (sub64 tls_off c.tls.tls_size) r.addend, 4)

/-- The value of a field that refers to a GOT entry. -/
def gotField (c : RelocContext) (s : RelocState) (r : LdRela) (missing name : String) (place : Nat) :
    Checked String (Option (Nat × Nat)) :=
  match gotIndex s.got.items name with
  | none => .fail (missing ++ ": " ++ name)
  | some i => do
      let slot ← gotSlotAddress c s i
      return relativeField r place slot

/-- The value of a field and its width, for the symbol's value and the place; no value for a field
    that is left to the loader. -/
def x86Value (c : RelocContext) (s : RelocState) (o : LdObject) (r : LdRela) (name : String)
    (resolved place : Nat) : Checked String (RelocState × Option (Nat × Nat)) :=
  match x86Kind r.type with
  | .gotpcrel => do
      let field ← gotField c s r "missing GOT entry" name place
      return (s, field)
  | .plt32 =>
    if c.dyn ∧ resolved = 0 then do
      let (s, target) ← importTarget c s name
      return (s, relativeField r place target)
    else return (s, relativeField r place resolved)
  | .pc32 => return (s, relativeField r place resolved)
  | .tls =>
    if !c.dyn then
      if r.type = R_X86_64_DTPOFF then return (s, some (add64 resolved r.addend, 4))
      else if r.type = R_X86_64_TLSGD ∨ r.type = R_X86_64_TLSLD then do
        let (s, desc) ← staticDescriptor c s o name r.symbol_index
        return (s, relativeField r place desc)
      else do
        let field ← tpoffField c o r
        return (s, field)
    else if r.type = R_X86_64_DTPOFF ∨ r.type = R_X86_64_DTPMOD then return (s, none)
    else do
      let field ← gotField c s r "missing TLS GOT entry" name place
      return (s, field)
  | .abs64 => return (s, some (add64 resolved r.addend, 8))
  | .abs32 => return (s, some (add64 resolved r.addend, 4))
  | .tpoff32 => do
      let field ← tpoffField c o r
      return (s, field)
  | .unsupported => .fail ("unsupported relocation type: " ++ name)

/-! ### One relocation -/

/-- The offset in the output group of an offset in a section of the object. -/
def targetOffset (o : LdObject) (info offset : Nat) : Nat :=
  add64 ((o.map info).elim 0 Prod.snd) offset

/-- `write_relocation` for x86_64 and an entry of a section about section `info`, whose group is
    `target`. -/
def writeRelocationX86 (c : RelocContext) (s : RelocState) (o : LdObject) (info target : Nat)
    (r : LdRela) : Checked String RelocState := do
  let g ← s.group target
  if g.size = 0 then return s
  else if r.offset > g.size ∨ x86FieldWidth r.type > g.size - r.offset then
    .fail "relocation offset is outside output section"
  else do
    let resolved ← ofExcept (symbolValue c.link s.address c.dyn o r.symbol_index)
    let (_, name) ← ofExcept (getSymbolByIndex o r.symbol_index)
    let offset := targetOffset o info r.offset
    let (s, value) ← x86Value c s o r name resolved (add64 g.address offset)
    match value with
    | none => return s
    | some (value, width) =>
      if g.type = SHT_NOBITS ∨ offset > g.size ∨ width > g.size - offset then
        .fail "relocation targets non-file section"
      else s.store target offset (leBytes width value)

/-! ### Exact numbers -/

/-- The number that the 64 bits of an addend stand for. -/
def LdRela.signed (r : LdRela) : Int := (r.addend : Int).bmod (2 ^ 64)

/-- The entry of an import and its offset: the one of the name, or the next one. -/
def importEntry (s : RelocState) (name : String) : Nat × Nat :=
  match gotIndex s.got.items name with
  | some i => (i, (s.got.items[i]?).elim 0 LdGotEntry.offset)
  | none => (s.got.items.length, totalGotSlots s.got.items * 8)

/-- Where a call of an import goes. -/
def importAddress (c : RelocContext) (s : RelocState) (name : String) : Nat :=
  match findGroup s.got.groups ".plt" with
  | some plt => add64 (s.address plt) (c.plt_offset (importEntry s name).1)
  | none => add64 (c.got_group.elim 0 s.address) (importEntry s name).2

/-- The number that a field of 32 bits stands for: `S + A - P`, with the stub of an import for `S`
    in a call and the GOT entry in a reference to it; `S + A`; or the offset from the thread
    pointer and `A`. -/
def exactValue (c : RelocContext) (s : RelocState) (o : LdObject) (r : LdRela) (place : Nat) :
    Option Int :=
  match symbolValue c.link s.address c.dyn o r.symbol_index, getSymbolByIndex o r.symbol_index with
  | .ok S, .ok (_, name) =>
    match x86Kind r.type with
    | .pc32 => some (S + r.signed - place)
    | .plt32 =>
      if c.dyn ∧ S = 0 then some (importAddress c s name + r.signed - place)
      else some (S + r.signed - place)
    | .abs32 => some (S + r.signed)
    | .gotpcrel =>
      some (add64 (c.got_group.elim 0 s.address) (importEntry s name).2 + r.signed - place)
    | .tpoff32 =>
      (symbolTlsOffset c.link c.tls o r.symbol_index).toOption.map fun tls_off =>
        tls_off - c.tls.tls_size + r.signed
    | _ => none
  | _, _ => none

/-- The number a field of 32 bits is read as: extended with zeros for `R_X86_64_32`, with its sign
    else. -/
def readField (type field : Nat) : Int :=
  if type = R_X86_64_32 then field else (field : Int).bmod (2 ^ 32)

/-- The number fits a field of 32 bits. -/
def FitsField (type : Nat) (v : Int) : Prop :=
  if type = R_X86_64_32 then 0 ≤ v ∧ v < 2 ^ 32 else -2 ^ 31 ≤ v ∧ v < 2 ^ 31

theorem add64_modEq (a b : Nat) : (add64 a b : Int) ≡ a + b [ZMOD 2 ^ 64] := by
  unfold add64 Int.ModEq
  omega

theorem sub64_modEq {a b : Nat} (hb : b < 2 ^ 64) : (sub64 a b : Int) ≡ a - b [ZMOD 2 ^ 64] := by
  unfold sub64 Int.ModEq
  omega

theorem signed_modEq (r : LdRela) : (r.addend : Int) ≡ r.signed [ZMOD 2 ^ 64] := by
  unfold LdRela.signed Int.ModEq
  exact (Int.bmod_emod).symm

/-- The low 32 bits of a value that is a number up to multiples of `2 ^ 64` stand for the number
    exactly when it fits. -/
theorem readField_iff (type : Nat) {value : Nat} {v : Int} (h : (value : Int) ≡ v [ZMOD 2 ^ 64]) :
    readField type (value % 2 ^ 32) = v ↔ FitsField type v := by
  unfold Int.ModEq at h
  unfold readField FitsField
  split
  · omega
  · rw [Int.bmod_def]
    omega

/-! ### The GOT entry of an import -/

/-- Making an entry changes no address and does not touch `.plt`. -/
theorem addGotEntry_address {got got' : LdGot} (h : addGotEntry got name = .ok got') :
    findGroup got'.groups ".plt" = findGroup got.groups ".plt" ∧
      ∀ k : Nat, (got'.groups[k]?).elim 0 LdGroup.address =
        (got.groups[k]?).elim 0 LdGroup.address := by
  rcases addGotEntry_groups h with heq | ⟨g, hname, haddr, heq⟩
  · rw [heq]
    exact ⟨rfl, fun _ => rfl⟩
  · rw [heq]
    constructor
    · unfold findGroup
      rw [List.findIdx?_append]
      simp [hname]
    · intro k
      rw [List.getElem?_append]
      split
      · rfl
      next hk =>
        rw [List.getElem?_eq_none (Nat.le_of_not_lt hk)]
        rcases Nat.eq_zero_or_pos (k - got.groups.length) with hz | hpos
        · simp [hz, haddr]
        · rw [List.getElem?_eq_none (by rw [List.length_singleton]; exact hpos)]

/-- The entry of an import is where `importEntry` says. -/
theorem addGotEntry_entry {got' : LdGot} (h : addGotEntry s.got name = .ok got') :
    gotIndex got'.items name = some (importEntry s name).1 ∧
      ∃ e, got'.items[(importEntry s name).1]? = some e ∧ e.offset = (importEntry s name).2 := by
  unfold importEntry
  cases hidx : gotIndex s.got.items name with
  | some i =>
    obtain ⟨hi, -⟩ := gotIndex_some hidx
    have hitems : got'.items = s.got.items := by
      unfold addGotEntry at h
      split at h
      next => cases h
      next =>
        rw [hidx] at h
        exact (congrArg LdGot.items (Except.ok.inj h)).symm
    rw [hitems]
    dsimp only
    rw [List.getElem?_eq_getElem hi]
    exact ⟨hidx, _, rfl, rfl⟩
  | none =>
    have hname : name ≠ "" := by
      rintro rfl
      cases h
    obtain ⟨groups, hnew⟩ := addGotEntry_new hidx hname
    cases hnew.symm.trans h
    refine ⟨gotIndex_concat hidx, ?_⟩
    dsimp only
    rw [List.getElem?_concat_length]
    exact ⟨_, rfl, rfl⟩

theorem gotSlotAddress_eq_ok {i slot : Nat} (h : gotSlotAddress c s i = .ok slot) :
    ∃ e, s.got.items[i]? = some e ∧ slot = add64 (c.got_group.elim 0 s.address) e.offset := by
  unfold gotSlotAddress at h
  split at h
  next => cases h
  next k hk =>
    obtain ⟨g, hg, h⟩ := bind_eq_ok h
    split at h
    next => cases h
    next e he =>
      refine ⟨e, he, ?_⟩
      rw [hk]
      dsimp only [Option.elim]
      unfold RelocState.address
      rw [group_eq_ok hg]
      exact (ok.inj h).symm

/-- A call of an import goes where `importAddress` says. -/
theorem importTarget_eq_ok {target : Nat} (h : importTarget c s name = .ok (s', target)) :
    target = importAddress c s name ∧ s'.data = s.data := by
  unfold importTarget at h
  split at h
  next => cases h
  next got hgot =>
    obtain ⟨hplt, haddr⟩ := addGotEntry_address hgot
    obtain ⟨hidx, e, he, hoff⟩ := addGotEntry_entry hgot
    unfold importAddress
    dsimp only at h
    rw [hidx, Option.getD_some] at h
    rw [← hplt]
    split at h
    next plt hfind =>
      cases h
      refine ⟨?_, rfl⟩
      unfold RelocState.address
      dsimp only
      rw [haddr]
    next hfind =>
      obtain ⟨slot, hslot, h⟩ := bind_eq_ok h
      cases h
      obtain ⟨e', he', rfl⟩ := gotSlotAddress_eq_ok hslot
      refine ⟨?_, rfl⟩
      -- The kind of the entry changes, its offset does not.
      have hoff' : e'.offset = e.offset := by
        dsimp only at he'
        rw [List.getElem?_modify, he, Option.map_eq_map, Option.map_some, if_pos rfl] at he'
        cases he'
        rfl
      rw [hoff', hoff]
      have hsame : RelocState.address
          ⟨{ got with items := got.items.modify (importEntry s name).1 LdGotEntry.jumpslot }, s.data⟩
            = s.address := funext haddr
      rw [hsame]

/-! ### The value is the number, up to multiples of `2 ^ 64` -/

/-- The types whose fields have 32 bits and stand for a number that is known when the output is
    linked. -/
def Narrow (type : Nat) : Prop :=
  type = R_X86_64_PC32 ∨ type = R_X86_64_PLT32 ∨ type = R_X86_64_32 ∨ type = R_X86_64_32S ∨
    type = R_X86_64_GOTPCREL ∨ type = R_X86_64_TPOFF32

theorem narrow_kind {type : Nat} (h : Narrow type) :
    x86Kind type = .pc32 ∨ x86Kind type = .plt32 ∨ x86Kind type = .abs32 ∨
      x86Kind type = .gotpcrel ∨ x86Kind type = .tpoff32 := by
  rcases h with rfl | rfl | rfl | rfl | rfl | rfl <;> decide

theorem relative_modEq (r : LdRela) {target place : Nat} (hplace : place < 2 ^ 64) :
    (sub64 (add64 target r.addend) place : Int) ≡ target + r.signed - place [ZMOD 2 ^ 64] :=
  (sub64_modEq hplace).trans
    (((add64_modEq target r.addend).trans ((signed_modEq r).add_left _)).sub_right _)

/-- The value of a narrow field is its number. -/
theorem x86Value_exact {o : LdObject} {r : LdRela}
    {sym : ElfSymbol} {resolved place : Nat} {w : Option (Nat × Nat)}
    (hplace : place < 2 ^ 64) (htype : Narrow r.type)
    (hres : symbolValue c.link s.address c.dyn o r.symbol_index = .ok resolved)
    (hname : getSymbolByIndex o r.symbol_index = .ok (sym, name))
    (h : x86Value c s o r name resolved place = .ok (s', w)) :
    ∃ value v, w = some (value, 4) ∧ exactValue c s o r place = some v ∧
      (value : Int) ≡ v [ZMOD 2 ^ 64] := by
  unfold exactValue
  rw [hres, hname]
  unfold x86Value at h
  rcases narrow_kind htype with hk | hk | hk | hk | hk
  · rw [hk] at h ⊢
    cases h
    exact ⟨_, _, rfl, rfl, relative_modEq r hplace⟩
  · rw [hk] at h ⊢
    dsimp only at h ⊢
    by_cases himport : c.dyn ∧ resolved = 0
    · rw [if_pos himport] at h ⊢
      obtain ⟨⟨s₁, target⟩, htarget, h⟩ := bind_eq_ok h
      cases h
      obtain ⟨rfl, -⟩ := importTarget_eq_ok htarget
      exact ⟨_, _, rfl, rfl, relative_modEq r hplace⟩
    · rw [if_neg himport] at h ⊢
      cases h
      exact ⟨_, _, rfl, rfl, relative_modEq r hplace⟩
  · rw [hk] at h ⊢
    cases h
    exact ⟨_, _, rfl, rfl, (add64_modEq _ _).trans ((signed_modEq r).add_left _)⟩
  · rw [hk] at h ⊢
    dsimp only at h ⊢
    obtain ⟨field, hfield, h⟩ := bind_eq_ok h
    cases h
    unfold gotField at hfield
    split at hfield
    next => cases hfield
    next i hi =>
      obtain ⟨slot, hslot, hfield⟩ := bind_eq_ok hfield
      cases hfield
      obtain ⟨e, he, rfl⟩ := gotSlotAddress_eq_ok hslot
      refine ⟨_, _, rfl, rfl, ?_⟩
      have hentry : (importEntry s name).2 = e.offset := by
        unfold importEntry
        rw [hi]
        dsimp only
        rw [he]
        rfl
      rw [hentry]
      exact relative_modEq r hplace
  · rw [hk] at h ⊢
    dsimp only at h ⊢
    obtain ⟨field, hfield, h⟩ := bind_eq_ok h
    cases h
    obtain ⟨tls_off, hoff, hfield⟩ := bind_eq_ok hfield
    cases hfield
    cases htls : symbolTlsOffset c.link c.tls o r.symbol_index with
    | error e =>
      rw [htls] at hoff
      cases hoff
    | ok off =>
      rw [htls] at hoff
      cases hoff
      refine ⟨_, _, rfl, rfl, (add64_modEq _ _).trans ?_⟩
      exact (sub64_modEq c.tls_size_lt).add (signed_modEq r)

/-! ### The field -/

theorem store_eq_ok {k off : Nat} {b : Bytes} (h : s.store k off b = .ok s') :
    off + b.length ≤ (s.data k).length ∧
      s' = ⟨s.got, Function.update s.data k (overwrite (s.data k) off b)⟩ := by
  obtain ⟨data, hdata, h⟩ := bind_eq_ok h
  obtain ⟨hle, rfl⟩ := patchAt_eq_ok hdata
  exact ⟨hle, (ok.inj h).symm⟩

/-- A relocation of a narrow type that succeeds has nothing to do in a discarded group, or it
    stores a field that stands for the number exactly when the number fits. -/
theorem x86_field_iff {c : RelocContext} {s s' : RelocState} {o : LdObject} {info target : Nat}
    {r : LdRela} (htype : Narrow r.type) (h : writeRelocationX86 c s o info target r = .ok s') :
    ∃ g, s.got.groups[target]? = some g ∧
      ((g.size = 0 ∧ s' = s) ∨
        ∃ v, exactValue c s o r (add64 g.address (targetOffset o info r.offset)) = some v ∧
          (readField r.type (leNat (slice (s'.data target) (targetOffset o info r.offset) 4)) = v ↔
            FitsField r.type v)) := by
  obtain ⟨g, hg, h⟩ := bind_eq_ok h
  refine ⟨g, group_eq_ok hg, ?_⟩
  split at h
  next hsize => exact Or.inl ⟨hsize, (ok.inj h).symm⟩
  next =>
    right
    split at h
    next => cases h
    next =>
      obtain ⟨resolved, hres, h⟩ := bind_eq_ok h
      obtain ⟨⟨sym, name⟩, hname, h⟩ := bind_eq_ok h
      obtain ⟨⟨s₁, w⟩, hvalue, h⟩ := bind_eq_ok h
      obtain ⟨value, v, rfl, hv, hmod⟩ :=
        x86Value_exact (add64_lt _ _) htype (ofExcept_eq_ok hres) (ofExcept_eq_ok hname) hvalue
      refine ⟨v, hv, ?_⟩
      dsimp only at h
      split at h
      next => cases h
      next =>
        obtain ⟨hle, rfl⟩ := store_eq_ok h
        dsimp only
        rw [Function.update_self]
        have hslice := slice_overwrite hle
        rw [length_leBytes] at hslice
        rw [hslice, leNat_leBytes]
        exact readField_iff r.type hmod

/-! ### A reference that is too far -/

/-- A static link of one object, with `x` at the start of its `.data` at `0x400000`. -/
def dataLink : RelocContext where
  link := xLink wantedX wantedX_name [dataX 0x11 0]
  shared := false
  pie := false
  tls := ⟨[], none, none, 0, 0, 1⟩
  tls_size_lt := by decide
  got_group := none
  plt_offset := fun _ => 0
  tls_descs := []

/-- The state of that link before relocations. -/
def dataState : RelocState where
  got := ⟨[{ dataGroup with address := 0x400000 }], []⟩
  data := fun _ => [0, 0, 0, 0, 0, 0, 0, 0]

/-- A relocation of type `R_X86_64_32S` against `x`, at the start of `.data`. -/
def absoluteX (addend : Nat) : LdRela := ⟨0, R_X86_64_32S, 1, addend⟩

/-- The state after it. -/
def dataStateX (addend : Nat) : RelocState :=
  ⟨dataState.got, Function.update dataState.data 0
    (overwrite (dataState.data 0) 0 (leBytes 4 (add64 0x400000 addend)))⟩

theorem writeRelocationX86_absoluteX (addend : Nat) :
    writeRelocationX86 dataLink dataState (dataX 0x11 0) 3 0 (absoluteX addend)
      = .ok (dataStateX addend) := by
  have hres : symbolValue dataLink.link dataState.address dataLink.dyn (dataX 0x11 0) 1
      = .ok 0x400000 := by decide
  have hname : getSymbolByIndex (dataX 0x11 0) 1 = .ok (⟨1, 0x11, 3, 0, 4⟩, "x") := by
    decide
  unfold writeRelocationX86
  rw [show (absoluteX addend).symbol_index = 1 from rfl, hres, hname]
  rfl

/-- With the addend 0 the field stands for its number. -/
theorem absoluteX_near :
    ∃ g, dataState.got.groups[0]? = some g ∧
      ((g.size = 0 ∧ dataStateX 0 = dataState) ∨
        ∃ v, exactValue dataLink dataState (dataX 0x11 0) (absoluteX 0)
            (add64 g.address (targetOffset (dataX 0x11 0) 3 0)) = some v ∧
          (readField R_X86_64_32S (leNat (slice ((dataStateX 0).data 0)
            (targetOffset (dataX 0x11 0) 3 0) 4)) = v ↔ FitsField R_X86_64_32S v)) :=
  x86_field_iff (by unfold Narrow; decide) (writeRelocationX86_absoluteX 0)

/-- With the addend `0x7fc00000` the number is `2 ^ 31`, the relocation succeeds, and the field
    reads as `-2 ^ 31`. -/
theorem absoluteX_far :
    writeRelocationX86 dataLink dataState (dataX 0x11 0) 3 0 (absoluteX 0x7fc00000)
        = .ok (dataStateX 0x7fc00000) ∧
      exactValue dataLink dataState (dataX 0x11 0) (absoluteX 0x7fc00000) 0x400000
        = some (2 ^ 31) ∧
      readField R_X86_64_32S (leNat (slice ((dataStateX 0x7fc00000).data 0) 0 4)) = -2 ^ 31 :=
  ⟨writeRelocationX86_absoluteX _, by decide, by decide⟩

end MeuOS.Ld
