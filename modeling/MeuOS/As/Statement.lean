import MeuOS.As.DataDirective

namespace MeuOS.As

open MeuOS.Lib

/-!
# Statements (`assemble.c`, `as_parse.c`)

A source file as the statements that its lines come apart into: labels, directives, and
instructions with the bytes and fixups of the target's encoder.  What stands in a data directive is
text, one operand at a time.

* `Statement`, `Statement.run` — the statements and what each does to the file;
* `assemble` — the run over a whole source;
* `updateSymbol` — all of them look a symbol up, add it if need be, and change its fields;
* `parseDataValue_eq` — an operand is read first, whatever the file holds, and emitted then.
-/

def STB_LOCAL : Nat := 0
def STB_WEAK : Nat := 2
def STV_HIDDEN : Nat := 2
def SHT_PROGBITS : Nat := 1

/-! ### Symbols -/

/-- `get_symbol`, and a change of the symbol's fields. -/
def updateSymbol (as : AsFile) (name : List Char) (f : Symbol → Symbol) : AsFile :=
  { (getSymbol as name).1 with
    symbols := (getSymbol as name).1.symbols.modify (getSymbol as name).2 f
    current_lt := (getSymbol as name).1.current_lt }

/-- A reference to a symbol, as a change of its fields. -/
def Symbol.refer (s : Symbol) : Symbol :=
  if s.defined = false ∧ s.name.head? ≠ some '.' then { s with bind := STB_GLOBAL } else s

/-- The symbol of a name, as far as it has been seen. -/
def AsFile.symbol (as : AsFile) (name : List Char) : Symbol :=
  (as.symbols.find? fun s => s.name = name).getD (newSymbol name)

/-- The two directives that list symbols. -/
inductive SymbolDirective where
  | globl
  | weak
  deriving DecidableEq

def SymbolDirective.bind : SymbolDirective → Nat
  | .globl => STB_GLOBAL
  | .weak => STB_WEAK

/-- `parse_symbol_list`, for one name. -/
def bindSymbol (d : SymbolDirective) (as : AsFile) (name : List Char) : AsFile :=
  updateSymbol as name fun s => { s with bind := d.bind, other := 0 }

/-! ### Sections -/

/-- `section_attributes`: the section's type. -/
def sectionType (name : List Char) : Nat :=
  if name = ".bss".toList ∨ name = ".tbss".toList then SHT_NOBITS else SHT_PROGBITS

/-- A section that `get_section` adds. -/
def newSection (name : List Char) : Section where
  name := name
  type := sectionType name
  data := []
  size := 0
  size_eq _ := rfl

/-- `get_section`, and its index becomes the current one. -/
def enterSection (as : AsFile) (name : List Char) : AsFile :=
  match h : as.sections.findIdx? fun s => s.name = name with
  | some i => { as with
      current := i
      current_lt := (List.findIdx?_eq_some_iff_findIdx_eq.mp h).1 }
  | none => { as with
      sections := as.sections ++ [newSection name]
      current := as.sections.length
      current_lt := by simp }

/-! ### Statements -/

/-- A fixup as an encoder returns it: its place within the instruction. -/
structure InsnFixup where
  offset : Nat
  width : Nat
  type : Nat
  addend : Int
  symbol : List Char
  deriving DecidableEq

/-- The fields of two fixups have no byte in common. -/
def InsnFixup.Apart (f g : InsnFixup) : Prop :=
  f.offset + f.width ≤ g.offset ∨ g.offset + g.width ≤ f.offset

/-- `struct mt_insn`, of which the file gets the bytes and the fixups.  Encoders put fixups on
    different fields of the instruction. -/
structure EncodedInsn where
  bytes : Bytes
  fixups : List InsnFixup
  within : ∀ f ∈ fixups, f.offset + f.width ≤ bytes.length
  apart : fixups.Pairwise InsnFixup.Apart
  deriving DecidableEq

/-- What a source consists of. -/
inductive Statement where
  /-- `.text`, `.section` and the like. -/
  | enter (name : List Char)
  /-- A label of a name. -/
  | label (name : List Char)
  /-- A label of a digit. -/
  | numericLabel (number : Fin 10)
  /-- `Nf` or `Nb` in front of the statement whose operand it is. -/
  | numericReference (number : Fin 10) (forward : Bool)
  /-- `.globl`, `.global` and `.weak`. -/
  | list (d : SymbolDirective) (names : List (List Char))
  | hidden (names : List (List Char))
  | type (name : List Char) (type : Option Nat)
  | size (name : List Char) (size : Option Nat)
  | comm (name : List Char) (size align : Nat)
  | set (name : List Char) (value : Int)
  /-- An operand of a data directive. -/
  | data (text : List Char) (width : Nat)
  /-- Strings, fills and alignments. -/
  | bytes (bytes : Bytes)
  | insn (i : EncodedInsn)
  deriving DecidableEq

/-- The file with the counts of numeric labels. -/
structure AsRun where
  file : AsFile
  numeric_counts : Fin 10 → Nat

/-- `.Lmt_num_%d_%zu`. -/
def numericName (number : Fin 10) (count : Nat) : List Char :=
  ".Lmt_num_".toList ++ Nat.toDigits 10 number ++ '_' :: Nat.toDigits 10 count

/-- A label: the symbol is defined at the end of the current section.  `text` is what stands in the
    line, which decides whether the binding becomes local. -/
def defineLabel (as : AsFile) (name text : List Char) : Except (Fault String) AsFile :=
  if (as.symbol name).defined then
    .error (.refused ("duplicate symbol: " ++ String.ofList text))
  else
    .ok (updateSymbol as name fun s =>
      { s with
        defined := true
        sec := as.current
        value := as.cur.size
        bind := if text.head? = some '.' then STB_LOCAL else s.bind })

/-- The name that a numeric reference is replaced by. -/
def numericTarget (counts : Fin 10 → Nat) (number : Fin 10) (forward : Bool) : List Char :=
  numericName number (if forward then counts number + 1 else counts number)

/-- `as_add_fixup` for the fixups of an instruction, which ends at the end of the section. -/
def addInsnFixups (start : Nat) (as : AsFile) (fixups : List InsnFixup) : AsFile :=
  fixups.foldl
    (fun as f => asAddFixup as (start + f.offset) f.width f.type f.addend f.symbol) as

/-- What a statement does to the file, numeric labels apart. -/
def Statement.runFile (as : AsFile) : Statement → Except (Fault String) AsFile
  | .enter name => .ok (enterSection as name)
  | .label name => defineLabel as name name
  | .list d names => .ok (names.foldl (bindSymbol d) as)
  | .hidden names =>
    .ok (names.foldl (fun as n => updateSymbol as n fun s => { s with other := STV_HIDDEN }) as)
  | .type name t => .ok (updateSymbol as name fun s => { s with type := t.getD s.type })
  | .size name n => .ok (updateSymbol as name fun s => { s with size := n.getD s.size })
  | .comm name n align =>
    .ok (updateSymbol as name fun s =>
      { s with defined := true, sec := -2, size := n, value := align, bind := STB_GLOBAL })
  | .set name value =>
    if (as.symbol name).defined then
      .error (.refused (".equ: symbol '" ++ String.ofList name ++ "' already defined"))
    else
      .ok (updateSymbol as name fun s =>
        { s with defined := true, value := (value % 2 ^ 64).toNat, sec := -1 })
  | .data text width => parseDataValue as text width
  | .bytes bs => asAppendBytes as bs
  | .insn i => do
      let as' ← asAppendBytes as i.bytes
      .ok (addInsnFixups as.cur.size as' i.fixups)
  | .numericLabel _ => .ok as
  | .numericReference _ _ => .ok as

/-- A statement. -/
def Statement.run (r : AsRun) : Statement → Except (Fault String) AsRun
  | .numericLabel number => do
      let count := r.numeric_counts number + 1
      let as ← defineLabel r.file (numericName number count) (Nat.toDigits 10 number)
      .ok { file := as, numeric_counts := Function.update r.numeric_counts number count }
  | .numericReference number forward =>
    if forward = false ∧ r.numeric_counts number = 0 then
      .error (.refused ("no previous label " ++ toString number ++ ":"))
    else
      .ok { r with
        file := (getSymbol r.file (numericTarget r.numeric_counts number forward)).1 }
  | s => do
      let as ← s.runFile r.file
      .ok { r with file := as }

/-- The file before the first line: the section `.text` alone. -/
def AsRun.start (target : Option Nat) : AsRun where
  file :=
    { sections := [newSection ".text".toList], symbols := [], fixups := [], current := 0,
      target := target, current_lt := Nat.zero_lt_one }
  numeric_counts _ := 0

/-- A source from its first line on. -/
def assemble (target : Option Nat) (source : List Statement) : Except (Fault String) AsRun :=
  source.foldlM Statement.run (AsRun.start target)

/-! ### Operands -/

/-- An operand of a data directive, as it is read. -/
inductive DataOperand where
  | number (value : Int)
  | symbol (name : List Char) (addend : Int)
  | difference (name : List Char) (addend : Int) (sym2 : List Char) (k : Int)
  deriving DecidableEq

/-- Read an operand: the part of `parse_data_value` before the file is touched. -/
def readOperand (text : List Char) (diff : Option (List Char × Int)) :
    Except (Fault String) DataOperand :=
  match parseReference (trim text) with
  | .error .undefined => .error .undefined
  | .error (.refused ()) =>
    .error (.refused ("invalid data expression: " ++ String.ofList (trimInPlace text)))
  | .ok (referent, modifier) =>
    if modifier ≠ [] then
      .error (.refused ("unsupported data relocation modifier: " ++ String.ofList modifier))
    else
      match referent, diff with
      | .number v, none => .ok (.number v)
      | .number _, some _ => .error .undefined
      | .symbol name addend, none => .ok (.symbol name addend)
      | .symbol name addend, some (sym2, k) => .ok (.difference name addend sym2 k)

/-- The operand of a text, with the spaced minus looked for. -/
def readData (text : List Char) : Except (Fault String) DataOperand :=
  match findSpacedDash (trim text) with
  | none => readOperand (trimInPlace text) none
  | some (sym1, tail) =>
    match differenceTail tail with
    | .error .undefined => .error .undefined
    | .error (.refused sym2) =>
      .error (.refused ("invalid symbol-difference expression: " ++
        String.ofList (text.takeWhile isspace ++ (sym1 ++ (" - ".toList ++ sym2)))))
    | .ok diff => readOperand sym1 (some diff)

/-- Emit an operand. -/
def emitOperand (as : AsFile) (width : Nat) : DataOperand → Except (Fault String) AsFile
  | .number v => asEmitLe as (v % 2 ^ 64).toNat width
  | .symbol name addend => emitReference as as.cur.size width name addend
  | .difference name addend sym2 k => emitDifference as as.cur.size width name addend sym2 k

theorem dataOperand_eq (as : AsFile) (text : List Char) (diff : Option (List Char × Int))
    (width : Nat) :
    dataOperand as text diff width = (readOperand text diff).bind (emitOperand as width) := by
  unfold dataOperand readOperand
  match parseReference (trim text) with
  | .error .undefined => rfl
  | .error (.refused ()) => rfl
  | .ok (referent, modifier) =>
    dsimp only
    split
    · rfl
    · match referent, diff with
      | .number v, none => rfl
      | .number _, some _ => rfl
      | .symbol name addend, none => rfl
      | .symbol name addend, some (sym2, k) => rfl

/-- `parse_data_value` reads its operand, whatever the file holds, and emits it then. -/
theorem parseDataValue_eq (as : AsFile) (text : List Char) (width : Nat) :
    parseDataValue as text width = (readData text).bind (emitOperand as width) := by
  unfold parseDataValue readData
  match findSpacedDash (trim text) with
  | none => exact dataOperand_eq as _ none width
  | some (sym1, tail) =>
    dsimp only
    match differenceTail tail with
    | .error .undefined => rfl
    | .error (.refused sym2) => rfl
    | .ok diff => exact dataOperand_eq as sym1 (some diff) width

end MeuOS.As
