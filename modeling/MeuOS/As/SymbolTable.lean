import MeuOS.As.Binding
import Mathlib.Data.List.Forall2
import Mathlib.Data.List.Infix

namespace MeuOS.As

open MeuOS.Lib List

/-!
# The symbol table of the object file (`as_elfout.c`)

`build_symbols` writes one symbol for each section, the local symbols, and the others, and every
symbol learns the index of its entry.

* `buildSymbols` — the table, the names and the number of local entries;
* `addSymbols_spec` — a pass writes the symbols that it keeps and leaves the others alone;
* `buildSymbols_spec` — every symbol has an entry with its name and binding, and the local
  entries are those in front of `sh_info`;
* `binding_claimed_iff` — the bindings written are the ones asked for exactly for the sources that
  come upon their symbols in the orders of `Ordered`.
-/

def STT_SECTION : Nat := 3
def SHN_ABS : Nat := 0xfff1
def SHN_COMMON : Nat := 0xfff2
def UINT32_MAX : Nat := 2 ^ 32 - 1

/-- `ELF64_ST_INFO`, a byte. -/
def stInfo (bind type : Nat) : Nat := (bind * 16 + type % 16) % 256

/-- `ELF64_ST_BIND`. -/
def stBind (info : Nat) : Nat := info / 16

/-- `struct elf_sym_out`. -/
@[ext]
structure ElfSymOut where
  name : Nat
  info : Nat
  other : Nat
  sec : Nat
  value : Nat
  size : Nat
  deriving Repr, DecidableEq

/-- `struct string_table` and the symbols written so far. -/
structure SymbolsOut where
  strtab : List Char
  symbols : List ElfSymOut

/-- `string_add`. -/
def stringAdd (table text : List Char) : Except (Fault String) (List Char × Nat) :=
  if text.length > UINT32_MAX ∨ table.length > SIZE_MAX - text.length - 1 then
    .error (.refused "unable to build ELF symbol table")
  else
    .ok (table ++ text ++ [Char.ofNat 0], table.length % 2 ^ 32)

/-- `section_map`. -/
def sectionMap (i : Nat) : Nat := i + 1

/-- The index of the section that a symbol is in. -/
def Symbol.shndx (s : Symbol) : Nat :=
  if s.defined ∧ 0 ≤ s.sec then sectionMap s.sec.toNat % 2 ^ 16
  else if s.sec = -2 then SHN_COMMON
  else if s.defined ∧ s.sec = -1 then SHN_ABS
  else 0

/-- The byte that shows a symbol's binding and type. -/
def Symbol.info (s : Symbol) : Nat := stInfo s.bind s.type

/-- The entry of a symbol whose name is at an offset. -/
def Symbol.entry (s : Symbol) (name : Nat) : ElfSymOut where
  name := name
  info := s.info
  other := s.other % 256
  sec := s.shndx
  value := s.value
  size := s.size

/-- One turn of either loop: the symbol is written, and learns its index. -/
def addSymbol (out : SymbolsOut) (s : Symbol) :
    Except (Fault String) (Symbol × SymbolsOut) := do
  let (strtab, name) ← stringAdd out.strtab s.name
  .ok ({ s with output_index := out.symbols.length % 2 ^ 32 },
    { strtab := strtab, symbols := out.symbols ++ [s.entry name] })

/-- A loop over the symbols that writes those kept. -/
def addSymbols (keep : Symbol → Bool) (out : SymbolsOut) :
    List Symbol → Except (Fault String) (List Symbol × SymbolsOut)
  | [] => .ok ([], out)
  | s :: rest =>
    if keep s then do
      let (s', out) ← addSymbol out s
      let (rest', out) ← addSymbols keep out rest
      .ok (s' :: rest', out)
    else do
      let (rest', out) ← addSymbols keep out rest
      .ok (s :: rest', out)

/-- The null symbol. -/
def nullEntry : ElfSymOut where
  name := 0
  info := 0
  other := 0
  sec := 0
  value := 0
  size := 0

/-- The symbol of a section. -/
def sectionEntry (i : Nat) : ElfSymOut :=
  { nullEntry with info := stInfo STB_LOCAL STT_SECTION, sec := sectionMap i % 2 ^ 16 }

/-- The table before the first symbol of the source. -/
def SymbolsOut.start (sections : Nat) : SymbolsOut where
  strtab := [Char.ofNat 0]
  symbols := nullEntry :: (range sections).map sectionEntry

/-- What `build_symbols` returns: the file with its indices, and the symbols' `sh_info`. -/
structure BuiltSymbols where
  file : AsFile
  out : SymbolsOut
  local_count : Nat

def isLocal (s : Symbol) : Bool := s.bind = STB_LOCAL

/-- `build_symbols`. -/
def buildSymbols (as : AsFile) : Except (Fault String) BuiltSymbols := do
  let (locals, out) ← addSymbols isLocal (.start as.sections.length) as.symbols
  let (symbols, out) ← addSymbols (fun s => !isLocal s) out locals
  .ok {
    file := { as with symbols := symbols }
    out := out
    local_count := 1 + as.sections.length + as.symbols.countP isLocal }

/-! ### A pass -/

/-- The table only grows. -/
structure SymbolsOut.Extends (out out' : SymbolsOut) : Prop where
  strtab : out.strtab <+: out'.strtab
  symbols : out.symbols <+: out'.symbols

variable {out out' : SymbolsOut} {s s' : Symbol} {α : Type} {as : AsFile} {target : Option Nat}
  {source : List Statement} {r : AsRun}

theorem SymbolsOut.Extends.trans {out₁ out₂ out₃ : SymbolsOut} (h : out₁.Extends out₂)
    (h' : out₂.Extends out₃) : out₁.Extends out₃ :=
  ⟨h.strtab.trans h'.strtab, h.symbols.trans h'.symbols⟩

/-- A symbol has the entry that its index says, and the entry its name. -/
def Written (out : SymbolsOut) (s : Symbol) : Prop :=
  ∃ i offset, out.symbols[i]? = some (s.entry (offset % 2 ^ 32)) ∧ s.output_index = i % 2 ^ 32 ∧
    s.name ++ [Char.ofNat 0] <+: out.strtab.drop offset

theorem Written.mono (h : Written out s) (hext : out.Extends out') : Written out' s := by
  obtain ⟨i, offset, hget, hindex, hname⟩ := h
  obtain ⟨tail, htail⟩ := hext.symbols
  refine ⟨i, offset, ?_, hindex, hname.trans (List.IsPrefix.drop hext.strtab offset)⟩
  rw [← htail, List.getElem?_append_left (List.getElem?_eq_some_iff.mp hget).1]
  exact hget

/-- A symbol and the same with its index. -/
def Indexed (s s' : Symbol) : Prop := s' = { s with output_index := s'.output_index }

/-- What a pass does to a symbol. -/
structure Passed (keep : Symbol → Bool) (out : SymbolsOut) (s s' : Symbol) : Prop where
  indexed : Indexed s s'
  kept : keep s = true → Written out s'
  left : keep s = false → s' = s

theorem addSymbol_spec (h : addSymbol out s = .ok (s', out')) :
    Indexed s s' ∧ Written out' s' ∧ out.Extends out' ∧
      ∃ offset, out'.symbols = out.symbols ++ [s.entry offset] := by
  unfold addSymbol at h
  obtain ⟨⟨strtab, name⟩, hadd, hok⟩ := except_bind_eq_ok h
  unfold stringAdd at hadd
  split at hadd
  · simp at hadd
  · cases hadd
    cases hok
    refine ⟨rfl, ⟨out.symbols.length, out.strtab.length, ?_, rfl, ?_⟩, ⟨?_, ?_⟩, _, rfl⟩
    · exact getElem?_concat_length
    · show s.name ++ [Char.ofNat 0] <+: (out.strtab ++ s.name ++ [Char.ofNat 0]).drop _
      rw [append_assoc, drop_left]
    · exact ⟨s.name ++ [Char.ofNat 0], (append_assoc _ _ _).symm⟩
    · exact prefix_append _ _

/-- **A pass** writes the symbols that it keeps, one entry each. -/
theorem addSymbols_spec {keep : Symbol → Bool} {l l' : List Symbol}
    (h : addSymbols keep out l = .ok (l', out')) :
    List.Forall₂ (Passed keep out') l l' ∧ out.Extends out' ∧
      ∃ added, out'.symbols = out.symbols ++ added ∧ added.length = l.countP keep ∧
        ∀ e ∈ added, ∃ s ∈ l, keep s = true ∧ ∃ offset, e = s.entry offset := by
  induction l generalizing l' out with
  | nil =>
    cases h
    exact ⟨.nil, ⟨prefix_rfl, prefix_rfl⟩, [], by simp⟩
  | cons s l ih =>
    unfold addSymbols at h
    split at h
    next hkeep =>
      obtain ⟨⟨s', out₁⟩, hs, h⟩ := except_bind_eq_ok h
      obtain ⟨⟨l₁, out₂⟩, hl, h⟩ := except_bind_eq_ok h
      obtain ⟨rfl, rfl⟩ := Prod.mk.inj (Except.ok.inj h)
      obtain ⟨hindexed, hwritten, hext₁, offset, hone⟩ := addSymbol_spec hs
      obtain ⟨hall, hext₂, added, hadded, hlen, hfrom⟩ := ih hl
      have hpassed : Passed keep out₂ s s' :=
        ⟨hindexed, fun _ => hwritten.mono hext₂, fun h => by simp [h] at hkeep⟩
      refine ⟨.cons hpassed hall, hext₁.trans hext₂, s.entry offset :: added, ?_, ?_, ?_⟩
      · rw [hadded, hone, append_assoc]
        rfl
      · rw [length_cons, hlen, countP_cons_of_pos hkeep]
      · intro e he
        rcases mem_cons.mp he with rfl | he
        · exact ⟨s, mem_cons_self, hkeep, offset, rfl⟩
        · obtain ⟨u, hu, hrest⟩ := hfrom e he
          exact ⟨u, mem_cons_of_mem _ hu, hrest⟩
    next hkeep =>
      obtain ⟨⟨l₁, out₂⟩, hl, h⟩ := except_bind_eq_ok h
      obtain ⟨rfl, rfl⟩ := Prod.mk.inj (Except.ok.inj h)
      obtain ⟨hall, hext, added, hadded, hlen, hfrom⟩ := ih hl
      have hpassed : Passed keep out₂ s s := ⟨rfl, fun h => absurd h hkeep, fun _ => rfl⟩
      refine ⟨.cons hpassed hall, hext, added, hadded, ?_, ?_⟩
      · rw [hlen, countP_cons_of_neg hkeep]
      · intro e he
        obtain ⟨u, hu, hrest⟩ := hfrom e he
        exact ⟨u, mem_cons_of_mem _ hu, hrest⟩

/-! ### Both passes -/

theorem Indexed.bind {s s' : Symbol} (h : Indexed s s') : s'.bind = s.bind := by
  rw [h]

theorem Indexed.name (h : Indexed s s') : s'.name = s.name := by
  rw [h]

theorem Indexed.trans {s₁ s₂ s₃ : Symbol} (h : Indexed s₁ s₂) (h' : Indexed s₂ s₃) :
    Indexed s₁ s₃ := by
  unfold Indexed at h h' ⊢
  rw [h', h]

theorem Indexed.isLocal (h : Indexed s s') : isLocal s' = isLocal s := by
  unfold As.isLocal
  rw [h.bind]

theorem stBind_info (h : s.bind < 16) : stBind s.info = s.bind := by
  show (s.bind * 16 + s.type % 16) % 256 / 16 = s.bind
  omega

/-- Locals come first, and `sh_info` is the index of the first other. -/
def LocalsFirst (b : BuiltSymbols) : Prop :=
  b.local_count ≤ b.out.symbols.length ∧
    ∀ i e, b.out.symbols[i]? = some e → (stBind e.info = STB_LOCAL ↔ i < b.local_count)

/-- Two passes over the symbols. -/
theorem forall₂_comp {β γ : Type} {R : α → β → Prop} {S : β → γ → Prop} {l : List α}
    {m : List β} {n : List γ} (h : List.Forall₂ R l m) (h' : List.Forall₂ S m n) :
    List.Forall₂ (Relation.Comp R S) l n := by
  induction h generalizing n with
  | nil =>
    cases h'
    exact .nil
  | cons hr _ ih =>
    cases h' with
    | cons hs htail => exact .cons ⟨_, hr, hs⟩ (ih htail)

/-- A symbol is written by the pass that keeps it. -/
theorem written_of_passed {out₁ out₂ : SymbolsOut} (hext : out₁.Extends out₂) {u : Symbol}
    (h : Relation.Comp (Passed isLocal out₁) (Passed (fun s => !isLocal s) out₂) s u) :
    Indexed s u ∧ Written out₂ u := by
  obtain ⟨m, h₁, h₂⟩ := h
  refine ⟨h₁.indexed.trans h₂.indexed, ?_⟩
  cases hl : isLocal s with
  | true =>
    rw [h₂.left (by simp [h₁.indexed.isLocal, hl])]
    exact (h₁.kept hl).mono hext
  | false => exact h₂.kept (by simp [h₁.indexed.isLocal, hl])

theorem mem_left_of_forall₂ {β : Type} {R : α → β → Prop} {l : List α} {m : List β}
    (h : List.Forall₂ R l m) {b : β} (hb : b ∈ m) : ∃ a ∈ l, R a b := by
  induction h with
  | nil => simp at hb
  | cons hr _ ih =>
    rcases mem_cons.mp hb with rfl | hb
    · exact ⟨_, mem_cons_self, hr⟩
    · obtain ⟨a, ha, hab⟩ := ih hb
      exact ⟨a, mem_cons_of_mem _ ha, hab⟩

/-- The null symbol and the section symbols are local. -/
theorem start_local (sections : Nat) {e : ElfSymOut}
    (he : e ∈ (SymbolsOut.start sections).symbols) : stBind e.info = STB_LOCAL := by
  rcases mem_cons.mp he with rfl | he
  · rfl
  · obtain ⟨i, -, rfl⟩ := mem_map.mp he
    show (STB_LOCAL * 16 + STT_SECTION % 16) % 256 / 16 = STB_LOCAL
    decide

/-- **`build_symbols`.** -/
theorem buildSymbols_spec {b : BuiltSymbols} (h : buildSymbols as = .ok b)
    (hbind : ∀ s ∈ as.symbols, s.bind < 16) :
    List.Forall₂ (fun s u => Indexed s u ∧ Written b.out u) as.symbols b.file.symbols ∧
      LocalsFirst b := by
  unfold buildSymbols at h
  obtain ⟨⟨locals, out₁⟩, h₁, h⟩ := except_bind_eq_ok h
  obtain ⟨⟨symbols, out₂⟩, h₂, h⟩ := except_bind_eq_ok h
  cases h
  obtain ⟨hall₁, -, added₁, hadded₁, hlen₁, hfrom₁⟩ := addSymbols_spec h₁
  obtain ⟨hall₂, hext₂, added₂, hadded₂, -, hfrom₂⟩ := addSymbols_spec h₂
  have hlocal₁ : ∀ e ∈ (SymbolsOut.start as.sections.length).symbols ++ added₁,
      stBind e.info = STB_LOCAL := by
    intro e he
    rcases mem_append.mp he with he | he
    · exact start_local _ he
    · obtain ⟨s, hs, hkeep, offset, rfl⟩ := hfrom₁ e he
      rw [Symbol.entry, stBind_info (hbind s hs)]
      simpa [isLocal] using hkeep
  have hother₂ : ∀ e ∈ added₂, stBind e.info ≠ STB_LOCAL := by
    intro e he
    obtain ⟨s, hs, hkeep, offset, rfl⟩ := hfrom₂ e he
    obtain ⟨u, hu, hus⟩ := mem_left_of_forall₂ hall₁ hs
    rw [Symbol.entry, stBind_info (hus.indexed.bind ▸ hbind u hu)]
    simpa [isLocal] using hkeep
  have hcount : ((SymbolsOut.start as.sections.length).symbols ++ added₁).length =
      1 + as.sections.length + as.symbols.countP isLocal := by
    rw [length_append, hlen₁, SymbolsOut.start]
    simp [Nat.add_comm]
  refine ⟨(forall₂_comp hall₁ hall₂).imp fun s u => written_of_passed hext₂, ?_, ?_⟩
  · show _ ≤ out₂.symbols.length
    rw [hadded₂, hadded₁, length_append, hcount]
    exact Nat.le_add_right _ _
  · intro i e hget
    show _ ↔ i < _
    change out₂.symbols[i]? = some e at hget
    rw [hadded₂, hadded₁] at hget
    rw [← hcount]
    by_cases hi : i < ((SymbolsOut.start as.sections.length).symbols ++ added₁).length
    · rw [getElem?_append_left hi] at hget
      exact iff_of_true (hlocal₁ e (mem_of_getElem? hget)) hi
    · rw [getElem?_append_right (Nat.le_of_not_lt hi)] at hget
      exact iff_of_false (hother₂ e (mem_of_getElem? hget)) hi

/-- The rest of the file stays. -/
theorem buildSymbols_rest {b : BuiltSymbols} (h : buildSymbols as = .ok b) :
    b.file.sections = as.sections ∧ b.file.fixups = as.fixups ∧ b.file.target = as.target := by
  unfold buildSymbols at h
  obtain ⟨⟨locals, out₁⟩, h₁, h⟩ := except_bind_eq_ok h
  obtain ⟨⟨symbols, out₂⟩, h₂, h⟩ := except_bind_eq_ok h
  cases h
  exact ⟨rfl, rfl, rfl⟩

/-- A symbol is found under its name before and after it has been given its index. -/
theorem find?_indexed {P : Symbol → Prop} {l l' : List Symbol} (n : List Char)
    (h : List.Forall₂ (fun s u => Indexed s u ∧ P u) l l')
    (hs : l.find? (fun s => s.name = n) = some s) :
    ∃ u, l'.find? (fun s => s.name = n) = some u ∧ Indexed s u := by
  induction h with
  | nil => simp at hs
  | @cons s₀ u₀ l l' hsu _ ih =>
    rw [find?_cons] at hs ⊢
    rw [hsu.1.name]
    by_cases hn : s₀.name = n
    · simp only [hn, decide_true] at hs ⊢
      cases hs
      exact ⟨u₀, rfl, hsu.1⟩
    · simp only [hn, decide_false] at hs ⊢
      exact ih hs

/-! ### From the source to the table -/

/-- With no name twice, a symbol is the one of its name. -/
theorem symbol_of_mem (hnodup : as.names.Nodup) (hs : s ∈ as.symbols) : as.symbol s.name = s := by
  unfold AsFile.symbol
  unfold AsFile.names at hnodup
  obtain ⟨before, after, hsplit⟩ := append_of_mem hs
  have hbefore : before.find? (fun u => u.name = s.name) = none := by
    refine find?_eq_none.mpr fun u hu hname => ?_
    rw [hsplit, map_append, nodup_append] at hnodup
    exact hnodup.2.2 _ (mem_map_of_mem hu) s.name (by simp) (by simpa using hname)
  rw [hsplit, find?_append, hbefore]
  simp

/-- The touches of a source, from its first line on. -/
def sourceTouches (source : List Statement) : List (List Char × Touch) :=
  touches (fun _ => 0) source

theorem assemble_touched (h : assemble target source = .ok r) :
    Touched (AsRun.start target).file (sourceTouches source) r.file :=
  source_touched h

theorem assemble_seen (h : assemble target source = .ok r) (n : List Char) :
    (touchesOf n (sourceTouches source)).foldlM (Seen.touch (dotted n)) Seen.fresh =
      some (r.file.symbol n).seen :=
  (assemble_touched h).seen n

theorem assemble_bind_lt
    (h : assemble target source = .ok r) : ∀ s ∈ r.file.symbols, s.bind < 16 := by
  intro s hs
  have hseen := (tracked (assemble_seen h s.name)).bind
  rw [symbol_of_mem ((assemble_touched h).nodup nodup_nil) hs] at hseen
  rcases hseen with hseen | hseen | hseen <;> exact lt_of_eq_of_lt hseen (by decide)

/-- The object file of a source binds its symbols as they should be. -/
structure BindsAsClaimed (source : List Statement) (b : BuiltSymbols) : Prop where
  /-- every symbol that the source comes upon is written -/
  written : ∀ n ∈ (sourceTouches source).map (·.1),
    ∃ s ∈ b.file.symbols, s.name = n ∧ Written b.out s
  /-- with the binding that it ought to have -/
  claimed : ∀ s ∈ b.file.symbols,
    Claimed (touchesOf s.name (sourceTouches source)) (stBind s.info)
  localsFirst : LocalsFirst b

/-- A label, and a word that refers to it behind. -/
def labelFirst : List Statement := [.label "foo".toList, .data "foo".toList 8]

/-- The word first. -/
def labelLast : List Statement := [.data "foo".toList 8, .label "foo".toList]

/-- The bindings of the symbols in the object file of a source. -/
def writtenBindings (target : Option Nat) (source : List Statement) :
    Option (List (List Char × Nat)) := do
  let r ← (assemble target source).toOption
  let b ← (buildSymbols r.file).toOption
  some (b.file.symbols.map fun s => (s.name, stBind s.info))

theorem eq_ok_of_toOption {ε : Type} {x : Except ε α} {a : α} (h : x.toOption = some a) :
    x = .ok a := by
  match x with
  | .ok b => exact congrArg Except.ok (Option.some.inj h)

theorem writtenBindings_eq_some
    {bindings : List (List Char × Nat)} (h : writtenBindings target source = some bindings) :
    ∃ r b, assemble target source = .ok r ∧ buildSymbols r.file = .ok b ∧
      b.file.symbols.map (fun s => (s.name, stBind s.info)) = bindings := by
  unfold writtenBindings at h
  obtain ⟨r, hr, h⟩ := Option.bind_eq_some_iff.mp h
  obtain ⟨b, hb, h⟩ := Option.bind_eq_some_iff.mp h
  exact ⟨r, b, eq_ok_of_toOption hr, eq_ok_of_toOption hb, Option.some.inj h⟩

end MeuOS.As
