import MeuOS.As.Text
import MeuOS.Lib.Bytes

namespace MeuOS.As

open MeuOS.Lib

/-!
# The assembler's output: sections, symbols and fixups (`assemble.c`)

* `AsFile` — the part of `struct as_file` that the data directives read and write;
* `getSymbol`, `referSymbol` — look a symbol up, adding it when it is new;
* `asAppendBytes`, `asEmitLe` — bytes at the end of a section;
* `asAddFixup`, `asAddFixupDiff` — a fixup for the linker.
-/

def SHT_NOBITS : Nat := 8
def STB_GLOBAL : Nat := 1
def STT_NOTYPE : Nat := 0
def SIZE_MAX : Nat := 2 ^ 64 - 1

/-- `struct as_section`: a section that is not `NOBITS` holds as many bytes as its size says. -/
structure Section where
  name : List Char
  type : Nat
  data : Bytes
  size : Nat
  size_eq : type ≠ SHT_NOBITS → size = data.length

/-- `struct as_symbol`. -/
structure Symbol where
  name : List Char
  sec : Int
  value : Nat
  size : Nat
  bind : Nat
  type : Nat
  other : Nat
  defined : Bool
  output_index : Nat
  deriving Repr, DecidableEq

/-- `struct as_fixup`; `symbol2` is the second operand of a symbol difference. -/
structure Fixup where
  sec : Nat
  offset : Nat
  type : Nat
  width : Nat
  addend : Int
  symbol : List Char
  symbol2 : Option (List Char)
  deriving Repr, DecidableEq

/-- `struct as_file`; `target` is the ELF machine of the target, if one is set. -/
structure AsFile where
  sections : List Section
  symbols : List Symbol
  fixups : List Fixup
  current : Nat
  target : Option Nat
  current_lt : current < sections.length

/-- `as->sections[as->current]`. -/
def AsFile.cur (as : AsFile) : Section := as.sections.get ⟨as.current, as.current_lt⟩

theorem AsFile.getElem?_current (as : AsFile) : as.sections[as.current]? = some as.cur :=
  List.getElem?_eq_getElem as.current_lt

/-! ### Symbols -/

/-- `find_symbol`: the index of the first symbol of that name. -/
def findSymbol (as : AsFile) (name : List Char) : Option Nat :=
  as.symbols.findIdx? (fun s => s.name = name)

/-- The symbol that `get_symbol` adds. -/
def newSymbol (name : List Char) : Symbol :=
  { name, sec := -1, value := 0, size := 0, bind := 0, type := STT_NOTYPE, other := 0,
    defined := false, output_index := 0 }

/-- `get_symbol`: the symbol's index, after adding it if need be. -/
def getSymbol (as : AsFile) (name : List Char) : AsFile × Nat :=
  match findSymbol as name with
  | some i => (as, i)
  | none => ({ as with symbols := as.symbols ++ [newSymbol name] }, as.symbols.length)

/-- Look a symbol up for a reference: an undefined one that is not a local label becomes global. -/
def referSymbol (as : AsFile) (name : List Char) : AsFile :=
  let (as, i) := getSymbol as name
  { as with
    symbols := as.symbols.modify i fun s =>
      if s.defined = false ∧ name.head? ≠ some '.' then { s with bind := STB_GLOBAL } else s }

@[simp] theorem getSymbol_sections (as : AsFile) (name : List Char) :
    (getSymbol as name).1.sections = as.sections := by
  unfold getSymbol
  rcases findSymbol as name with _ | i <;> rfl

@[simp] theorem getSymbol_current (as : AsFile) (name : List Char) :
    (getSymbol as name).1.current = as.current := by
  unfold getSymbol
  rcases findSymbol as name with _ | i <;> rfl

@[simp] theorem getSymbol_fixups (as : AsFile) (name : List Char) :
    (getSymbol as name).1.fixups = as.fixups := by
  unfold getSymbol
  rcases findSymbol as name with _ | i <;> rfl

@[simp] theorem getSymbol_target (as : AsFile) (name : List Char) :
    (getSymbol as name).1.target = as.target := by
  unfold getSymbol
  rcases findSymbol as name with _ | i <;> rfl

@[simp] theorem referSymbol_sections (as : AsFile) (name : List Char) :
    (referSymbol as name).sections = as.sections := getSymbol_sections as name

@[simp] theorem referSymbol_current (as : AsFile) (name : List Char) :
    (referSymbol as name).current = as.current := getSymbol_current as name

@[simp] theorem referSymbol_fixups (as : AsFile) (name : List Char) :
    (referSymbol as name).fixups = as.fixups := getSymbol_fixups as name

@[simp] theorem referSymbol_target (as : AsFile) (name : List Char) :
    (referSymbol as name).target = as.target := getSymbol_target as name

@[simp] theorem referSymbol_cur (as : AsFile) (name : List Char) :
    (referSymbol as name).cur = as.cur := by
  unfold AsFile.cur
  simp

/-! ### Bytes -/

/-- Bytes at the end of a section; a `NOBITS` section only grows. -/
def Section.append (sec : Section) (bytes : Bytes) : Section :=
  { sec with
    data := if sec.type = SHT_NOBITS then sec.data else sec.data ++ bytes
    size := sec.size + bytes.length
    size_eq := fun h => by
      rw [if_neg h, List.length_append, sec.size_eq h] }

/-- The file with the current section replaced. -/
def AsFile.setCur (as : AsFile) (sec : Section) : AsFile :=
  { as with
    sections := as.sections.set as.current sec
    current_lt := by
      rw [List.length_set]
      exact as.current_lt }

@[simp] theorem AsFile.setCur_cur (as : AsFile) (sec : Section) : (as.setCur sec).cur = sec := by
  simp [AsFile.cur, AsFile.setCur]

/-- `as_append_bytes` on the current section. -/
def asAppendBytes (as : AsFile) (bytes : Bytes) : Except (Fault String) AsFile :=
  if bytes.length > SIZE_MAX - as.cur.size then .error (.refused "section size overflow")
  else .ok (as.setCur (as.cur.append bytes))

/-- `as_emit_le`. -/
def asEmitLe (as : AsFile) (value width : Nat) : Except (Fault String) AsFile :=
  asAppendBytes as (leBytes width value)

/-- When bytes are emitted, and what the file is then. -/
theorem asEmitLe_ok {as as' : AsFile} {value width : Nat} (hw : 0 < width) :
    asEmitLe as value width = .ok as' ↔
      as.cur.size + width ≤ SIZE_MAX ∧ as' = as.setCur (as.cur.append (leBytes width value)) := by
  unfold asEmitLe asAppendBytes
  rw [length_leBytes]
  split
  · constructor
    · intro h
      simp at h
    · rintro ⟨h, -⟩
      omega
  · rw [Except.ok.injEq, eq_comm]
    constructor
    · intro h
      exact ⟨by omega, h⟩
    · exact fun h => h.2

/-! ### Fixups -/

/-- `as_add_fixup`, for the current section. -/
def asAddFixup (as : AsFile) (offset width type : Nat) (addend : Int) (symbol : List Char) : AsFile :=
  referSymbol
    { as with
      fixups := as.fixups ++
        [{ sec := as.current, offset, type, width, addend, symbol, symbol2 := none }] }
    symbol

/-- `as_add_fixup_diff`, for the current section. -/
def asAddFixupDiff (as : AsFile) (offset width type : Nat) (addend : Int)
    (symbol symbol2 : List Char) : AsFile :=
  referSymbol
    { as with
      fixups := as.fixups ++
        [{ sec := as.current, offset, type, width, addend, symbol, symbol2 := some symbol2 }] }
    symbol

end MeuOS.As
