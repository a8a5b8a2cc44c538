import MeuOS.Lib.KeyTable
import MeuOS.Ld.Group

namespace MeuOS.Ld

open MeuOS.Lib

/-!
# Global symbols of the linker (`symbol.c`)

Object files as the ELF reader shows them, the table of globals, and how the symbols of one
object enter it:

* `GlobalTable` — the globals, every name once and never empty;
* `registerGlobalSymbol` — one occurrence of a global or weak symbol;
* `LdGlobal.declare` — what an accepted occurrence does to its global;
* `registerGlobalSymbol_find` — the table after an accepted occurrence;
* `collectOneObjectSymbols` — all symbols of an object.
-/

/-! ### Object files -/

/-- `MT_ET_REL`. -/
def ET_REL : Nat := 1

/-- `MT_SHT_PROGBITS`. -/
def SHT_PROGBITS : Nat := 1

/-- `MT_SHT_SYMTAB`. -/
def SHT_SYMTAB : Nat := 2

/-- `MT_SHT_STRTAB`. -/
def SHT_STRTAB : Nat := 3

/-- `MT_SHT_INIT_ARRAY`. -/
def SHT_INIT_ARRAY : Nat := 14

/-- `MT_SHT_FINI_ARRAY`. -/
def SHT_FINI_ARRAY : Nat := 15

/-- `MT_SHT_PREINIT_ARRAY`. -/
def SHT_PREINIT_ARRAY : Nat := 16

/-- `MT_SHN_UNDEF`. -/
def SHN_UNDEF : Nat := 0

/-- `LD_SHN_COMMON`. -/
def SHN_COMMON : Nat := 0xfff2

/-- `LD_STB_LOCAL`. -/
def STB_LOCAL : Nat := 0

/-- `LD_STB_WEAK`. -/
def STB_WEAK : Nat := 2

/-- The fields of `struct mt_target` that the symbol code reads: the machine and the size of a
    symbol entry of its ELF class. -/
structure Target where
  emachine : Nat
  symSize : Nat

/-- `struct mt_elf64_section`; the name is an offset in the section-name table. -/
structure ElfSection where
  name : Nat
  type : Nat
  flags : Nat
  size : Nat
  link : Nat
  alignment : Nat
  entry_size : Nat
  deriving DecidableEq, Repr

/-- `struct mt_elf64_symbol`; the name is an offset in the string table and `sec` its
    `section`. -/
structure ElfSymbol where
  name : Nat
  info : Nat
  sec : Nat
  value : Nat
  size : Nat
  deriving DecidableEq, Repr

/-- An object file as the ELF reader shows it. -/
structure ElfObject where
  type : Nat
  machine : Nat
  /-- The section headers; `none` where `mt_elf64_get_section` fails. -/
  sections : List (Option ElfSection)
  section_name_index : Nat
  /-- `mt_elf64_get_symbol`: the entry of a symbol table, given by its section. -/
  symbol : Nat → Nat → Option ElfSymbol
  /-- `mt_elf64_get_string`: the string at an offset of a string table. -/
  string : Nat → Nat → Option String

/-- `mt_elf64_get_section`. -/
def ElfObject.getSection (o : ElfObject) (i : Nat) : Option ElfSection := (o.sections[i]?).join

/-- `object_section_name`. -/
def ElfObject.sectionName (o : ElfObject) (i : Nat) : Option String :=
  (o.getSection i).bind fun s => o.string o.section_name_index s.name

/-- The binding of a symbol, `info >> LD_STB_SHIFT`. -/
def ElfSymbol.binding (s : ElfSymbol) : Nat := s.info >>> 4

/-- The symbol has a place in a section of its object. -/
def ElfSymbol.isDefined (s : ElfSymbol) : Bool := s.sec != SHN_UNDEF && s.sec != SHN_COMMON

/-- The symbol asks for a COMMON allocation. -/
def ElfSymbol.isCommon (s : ElfSymbol) : Bool := s.sec == SHN_COMMON

/-- The symbol is weak. -/
def ElfSymbol.isWeak (s : ElfSymbol) : Bool := s.binding == STB_WEAK

/-- The name of a symbol in a string table; `none` for the nameless and the unreadable. -/
def ElfObject.symbolName (o : ElfObject) (strtab : Nat) (s : ElfSymbol) : Option String :=
  if s.name = 0 then none else o.string strtab s.name

/-- The search for the first symbol table. -/
inductive SymtabSearch where
  | unreadable
  | absent
  | found (index : Nat) (table : ElfSection)

/-- The loop over the section headers that stops at the first symbol table. -/
def findSymtab : List (Option ElfSection) → Nat → SymtabSearch
  | [], _ => .absent
  | none :: _, _ => .unreadable
  | some s :: rest, i => if s.type = SHT_SYMTAB then .found i s else findSymtab rest (i + 1)

/-- The number of entries of a table; a table of empty entries has none. -/
def ElfSection.count (s : ElfSection) : Nat := s.size / s.entry_size

/-- `struct ld_object`.  `origin` tells the archive and the member it was extracted from. -/
structure LdObject where
  name : String
  origin : Option (Nat × Nat)
  is_shared : Bool
  elf : ElfObject
  /-- The output group and the offset there of each section; `none` for no group. -/
  maps : List (Option (Nat × Nat))

/-- `object->maps[section]`, when the section exists and has a group. -/
def LdObject.map (o : LdObject) (sec : Nat) : Option (Nat × Nat) :=
  if sec < o.elf.sections.length then (o.maps[sec]?).join else none

/-! ### Globals -/

/-- `struct ld_global`; `object` is the position of the defining object. -/
structure LdGlobal where
  name : String
  object : Option Nat := none
  symbol_index : Nat := 0
  group : Option Nat := some 0
  offset : Nat := 0
  size : Nat := 0
  align : Nat := 0
  defined : Bool := false
  weak : Bool := false
  common : Bool := false
  absolute : Bool := false
  deriving DecidableEq, Repr

/-- The globals: every name once, no empty name. -/
structure GlobalTable where
  items : List LdGlobal
  nodup : (items.map LdGlobal.name).Nodup
  named : ∀ g ∈ items, g.name ≠ ""

/-- No global. -/
def GlobalTable.empty : GlobalTable := ⟨[], List.nodup_nil, fun _ h => by cases h⟩

/-- `find_global`. -/
def GlobalTable.find (t : GlobalTable) (name : String) : Option LdGlobal :=
  lookupKey LdGlobal.name t.items name

/-- `get_global`: the global of a name, a new one if there is none. -/
def GlobalTable.get (t : GlobalTable) (name : String) (hname : name ≠ "") : GlobalTable :=
  { items := touchKey LdGlobal.name { name := name } t.items
    nodup := nodup_touchKey t.nodup _
    named := by
      intro g hg
      unfold touchKey at hg
      split at hg
      · exact t.named g hg
      · rcases List.mem_append.mp hg with hg | hg
        · exact t.named g hg
        · rw [List.mem_singleton.mp hg]
          exact hname }

/-- A change to the global of a name that keeps the name. -/
def GlobalTable.update (t : GlobalTable) (name : String) (f : LdGlobal → LdGlobal)
    (hf : ∀ g, (f g).name = g.name) : GlobalTable :=
  { items := updateKey LdGlobal.name name f t.items
    nodup := by
      rw [map_key_updateKey hf]
      exact t.nodup
    named := by
      intro g hg
      obtain ⟨g0, hg0, rfl⟩ := List.mem_map.mp hg
      split
      · rw [hf]
        exact t.named g0 hg0
      · exact t.named g0 hg0 }

variable {t t' : GlobalTable} {name n : String} {g : LdGlobal} {s : ElfSymbol} {object index : Nat}
  {o : LdObject} {target : Target}

theorem GlobalTable.find_name (h : t.find name = some g) : g.name = name := (lookupKey_some h).1

theorem GlobalTable.find_empty (t : GlobalTable) : t.find "" = none := by
  cases hf : t.find "" with
  | none => rfl
  | some g => exact absurd (GlobalTable.find_name hf) (t.named g (lookupKey_some hf).2)

theorem GlobalTable.find_of_mem (h : g ∈ t.items) :
    t.find g.name = some g := lookupKey_of_mem t.nodup h

theorem GlobalTable.find_get (t : GlobalTable) (hname : name ≠ "") (n : String) :
    (t.get name hname).find n
      = if n = name then some ((t.find n).getD { name := name }) else t.find n :=
  lookupKey_touchKey (κ := String) _ t.items n

theorem GlobalTable.find_update (t : GlobalTable) (name : String) {f : LdGlobal → LdGlobal}
    (hf : ∀ g, (f g).name = g.name) (n : String) :
    (t.update name f hf).find n = if n = name then (t.find n).map f else t.find n :=
  lookupKey_updateKey (κ := String) hf t.items n

/-! ### One occurrence -/

/-- The change an accepted occurrence makes to its global: symbol `index` of the object at
    position `object`, placed at `place` when it is a definition. -/
def LdGlobal.declare (object index : Nat) (s : ElfSymbol) (place : Nat × Nat) (g : LdGlobal) :
    LdGlobal :=
  if s.isDefined then
    if !g.defined || (g.weak && !s.isWeak) then
      { g with
        object := some object
        symbol_index := index
        group := some place.1
        offset := add64 place.2 s.value
        size := s.size
        align := 1
        defined := true
        weak := s.isWeak
        common := false }
    else g
  else if s.isCommon then
    if !g.defined then
      { g with
        common := true
        size := if g.size < s.size then s.size else g.size
        align := if g.align < s.value then s.value else g.align }
    else g
  else if !g.defined then { g with weak := s.isWeak }
  else g

/-- An occurrence keeps the name of its global. -/
@[simp] theorem LdGlobal.declare_name (object index : Nat) (s : ElfSymbol) (place : Nat × Nat)
    (g : LdGlobal) : (g.declare object index s place).name = g.name := by
  unfold LdGlobal.declare
  split
  · split <;> rfl
  · split
    · split <;> rfl
    · split <;> rfl

/-- An occurrence never undefines. -/
theorem LdGlobal.declare_defined (object index : Nat) (s : ElfSymbol) (place : Nat × Nat)
    (h : g.defined) : (g.declare object index s place).defined := by
  unfold LdGlobal.declare
  split
  · split
    · rfl
    · exact h
  · split
    · rw [if_neg (by simp [h])]
      exact h
    · rw [if_neg (by simp [h])]
      exact h

/-- A definition defines. -/
theorem LdGlobal.declare_defines (object index : Nat) (place : Nat × Nat)
    (g : LdGlobal) (h : s.isDefined) : (g.declare object index s place).defined := by
  unfold LdGlobal.declare
  rw [if_pos h]
  split
  · rfl
  · rename_i hnot
    simp only [Bool.or_eq_true, Bool.not_eq_true', not_or, Bool.not_eq_false] at hnot
    exact hnot.1

/-- `register_global_symbol` for symbol `index` of the object at position `object`. -/
def registerGlobalSymbol (t : GlobalTable) (object : Nat) (o : LdObject) (index : Nat)
    (s : ElfSymbol) (name : String) : Except String GlobalTable :=
  if hname : name = "" then .ok t
  else if s.binding = STB_LOCAL then .ok t
  else if s.isDefined then
    match o.map s.sec with
    | none => .error ("symbol points to discarded section: " ++ name)
    | some place =>
      if (t.find name).any (fun g => g.defined && !g.weak) && !s.isWeak then
        .error ("multiple definition: " ++ name)
      else
        .ok ((t.get name hname).update name (·.declare object index s place) (by simp))
  else .ok ((t.get name hname).update name (·.declare object index s (0, 0)) (by simp))

/-- The symbol enters the table: it is named and not local. -/
def ElfSymbol.Global (s : ElfSymbol) (name : String) : Prop := name ≠ "" ∧ s.binding ≠ STB_LOCAL

instance (s : ElfSymbol) (name : String) : Decidable (s.Global name) :=
  inferInstanceAs (Decidable (_ ∧ _))

/-- The table after an accepted occurrence: the global of its name has taken it, every other
    name finds what it found. -/
theorem registerGlobalSymbol_find
    (h : registerGlobalSymbol t object o index s name = .ok t') (n : String) :
    t'.find n
      = if n = name ∧ s.Global name then
          some (((t.find n).getD { name := name }).declare object index s
            ((o.map s.sec).getD (0, 0)))
        else t.find n := by
  have hfind (place : Nat × Nat) (hname : name ≠ "") :
      ((t.get name hname).update name (·.declare object index s place) (by simp)).find n
        = if n = name then
            some (((t.find n).getD { name := name }).declare object index s place)
          else t.find n := by
    rw [GlobalTable.find_update, GlobalTable.find_get]
    split <;> rfl
  unfold registerGlobalSymbol at h
  by_cases hname : name = ""
  · rw [dif_pos hname] at h
    rw [if_neg (fun hg => hg.2.1 hname), Except.ok.inj h]
  rw [dif_neg hname] at h
  by_cases hlocal : s.binding = STB_LOCAL
  · rw [if_pos hlocal] at h
    rw [if_neg (fun hg => hg.2.2 hlocal), Except.ok.inj h]
  rw [if_neg hlocal] at h
  have hglobal : s.Global name := ⟨hname, hlocal⟩
  simp only [hglobal, and_true]
  by_cases hdef : s.isDefined
  · rw [if_pos hdef] at h
    cases hplace : o.map s.sec with
    | none => rw [hplace] at h; cases h
    | some place =>
      rw [hplace] at h
      dsimp only at h
      split at h
      · cases h
      · rw [← Except.ok.inj h]
        exact hfind place hname
  · rw [if_neg hdef] at h
    rw [← Except.ok.inj h, hfind (0, 0) hname]
    -- Where the symbol is no definition, its place is not read.
    have hplace (g : LdGlobal) (p q : Nat × Nat) :
        g.declare object index s p = g.declare object index s q := by
      unfold LdGlobal.declare
      rw [if_neg hdef, if_neg hdef]
    split
    · rw [hplace]
    · rfl

/-! ### The symbols of an object -/

/-- `prepare_object_symbol`: the first symbol table and its section. -/
def prepareObjectSymbol (target : Target) (name : String) (o : ElfObject) :
    Except String (Option (Nat × ElfSection)) :=
  match findSymtab o.sections 0 with
  | .unreadable => .error ("invalid symbol section: " ++ name)
  | .absent => .ok none
  | .found i s =>
    match o.getSection s.link with
    | none => .error ("invalid symbol table: " ++ name)
    | some strtab =>
      if strtab.type ≠ SHT_STRTAB ∨ s.entry_size < target.symSize
          ∨ s.size % s.entry_size ≠ 0 then
        .error ("invalid symbol table: " ++ name)
      else .ok (some (i, s))

/-- The symbol loop of `collect_one_object_symbols` over the indices given. -/
def collectSymbolLoop (object : Nat) (o : LdObject) (table : Nat) (s : ElfSection) :
    List Nat → GlobalTable → Except String GlobalTable
  | [], t => .ok t
  | j :: js, t =>
    match o.elf.symbol table j with
    | none => .error ("invalid symbol: " ++ o.name)
    | some sym =>
      match o.elf.symbolName s.link sym with
      | none => collectSymbolLoop object o table s js t
      | some name =>
        match registerGlobalSymbol t object o j sym name with
        | .error e => .error e
        | .ok t' => collectSymbolLoop object o table s js t'

/-- `collect_one_object_symbols` for the object at position `object`. -/
def collectOneObjectSymbols (target : Target) (object : Nat) (o : LdObject) (t : GlobalTable) :
    Except String GlobalTable :=
  if o.is_shared then .ok t
  else
    match prepareObjectSymbol target o.name o.elf with
    | .error e => .error e
    | .ok none => .ok t
    | .ok (some (i, s)) => collectSymbolLoop object o i s (List.range s.count) t

/-! ### What the symbols of an object define -/

/-- The name has a definition. -/
def GlobalTable.Defines (t : GlobalTable) (name : String) : Prop :=
  ∃ g, t.find name = some g ∧ g.defined = true

/-- An accepted occurrence undefines no name. -/
theorem registerGlobalSymbol_mono (h : registerGlobalSymbol t object o index s name = .ok t')
    (hn : t.Defines n) : t'.Defines n := by
  obtain ⟨g, hg, hdef⟩ := hn
  unfold GlobalTable.Defines
  rw [registerGlobalSymbol_find h n, hg]
  split
  · exact ⟨_, rfl, LdGlobal.declare_defined _ _ _ _ hdef⟩
  · exact ⟨g, rfl, hdef⟩

theorem registerGlobalSymbol_defines
    (h : registerGlobalSymbol t object o index s name = .ok t') (hg : s.Global name)
    (hs : s.isDefined) : t'.Defines name := by
  unfold GlobalTable.Defines
  rw [registerGlobalSymbol_find h name, if_pos ⟨rfl, hg⟩]
  exact ⟨_, rfl, LdGlobal.declare_defines _ _ _ _ hs⟩

/-- A symbol loop undefines no name. -/
theorem collectSymbolLoop_mono {table : Nat} {s : ElfSection} {js : List Nat}
    (h : collectSymbolLoop object o table s js t = .ok t') (hn : t.Defines n) :
    t'.Defines n := by
  induction js generalizing t with
  | nil => rw [← Except.ok.inj h]; exact hn
  | cons j js ih =>
    unfold collectSymbolLoop at h
    split at h
    · cases h
    · split at h
      · exact ih h hn
      · split at h
        · cases h
        · rename_i hreg
          exact ih h (registerGlobalSymbol_mono hreg hn)

/-- A symbol loop defines the names of the definitions it passes. -/
theorem collectSymbolLoop_defines {table : Nat} {s : ElfSection} {js : List Nat}
    (h : collectSymbolLoop object o table s js t = .ok t') {j : Nat} (hj : j ∈ js)
    {sym : ElfSymbol} (hsym : o.elf.symbol table j = some sym)
    (hname : o.elf.symbolName s.link sym = some name) (hg : sym.Global name)
    (hs : sym.isDefined) : t'.Defines name := by
  induction js generalizing t with
  | nil => cases hj
  | cons j' js ih =>
    unfold collectSymbolLoop at h
    rcases List.mem_cons.mp hj with rfl | hj
    · rw [hsym] at h
      dsimp only at h
      rw [hname] at h
      dsimp only at h
      split at h
      · cases h
      · rename_i hreg
        exact collectSymbolLoop_mono h (registerGlobalSymbol_defines hreg hg hs)
    · split at h
      · cases h
      · split at h
        · exact ih h hj
        · split at h
          · cases h
          · exact ih h hj

/-- The table that `prepare_object_symbol` gives is the first symbol table. -/
theorem prepareObjectSymbol_ok {o : ElfObject}
    {r : Option (Nat × ElfSection)} (h : prepareObjectSymbol target name o = .ok r) :
    findSymtab o.sections 0 = r.elim .absent (fun x => .found x.1 x.2) := by
  unfold prepareObjectSymbol at h
  cases hf : findSymtab o.sections 0 with
  | unreadable => rw [hf] at h; cases h
  | absent =>
    rw [hf] at h
    rw [← Except.ok.inj h]
    rfl
  | found i s =>
    rw [hf] at h
    dsimp only at h
    split at h
    · cases h
    · split at h
      · cases h
      · rw [← Except.ok.inj h]
        rfl

/-- The symbols of an object undefine no name. -/
theorem collectOneObjectSymbols_mono (h : collectOneObjectSymbols target object o t = .ok t')
    (hn : t.Defines n) : t'.Defines n := by
  unfold collectOneObjectSymbols at h
  split at h
  · rw [← Except.ok.inj h]; exact hn
  · split at h
    · cases h
    · rw [← Except.ok.inj h]; exact hn
    · exact collectSymbolLoop_mono h hn

/-- The object declares a global or weak symbol of a name, in its first symbol table. -/
def ElfObject.Declares (o : ElfObject) (sym : ElfSymbol) (name : String) : Prop :=
  ∃ i s j, findSymtab o.sections 0 = .found i s ∧ j < s.count ∧ o.symbol i j = some sym ∧
    o.symbolName s.link sym = some name ∧ sym.binding ≠ STB_LOCAL

/-- Once its symbols are collected, every name an object defines is defined. -/
theorem collectOneObjectSymbols_defines (h : collectOneObjectSymbols target object o t = .ok t')
    (hsh : o.is_shared = false) {sym : ElfSymbol}
    (hd : o.elf.Declares sym name) (hname : name ≠ "") (hs : sym.isDefined) :
    t'.Defines name := by
  obtain ⟨i, s, j, hf, hj, hsym, hstr, hb⟩ := hd
  unfold collectOneObjectSymbols at h
  rw [if_neg (by simp [hsh])] at h
  split at h
  · cases h
  · rename_i hp
    have habs := prepareObjectSymbol_ok hp
    rw [hf] at habs
    cases habs
  · rename_i i' s' hp
    have hfound := prepareObjectSymbol_ok hp
    rw [hf] at hfound
    obtain ⟨hi, hs'⟩ := SymtabSearch.found.inj hfound
    subst hi hs'
    exact collectSymbolLoop_defines h (List.mem_range.mpr hj) hsym hstr ⟨hname, hb⟩ hs

end MeuOS.Ld
