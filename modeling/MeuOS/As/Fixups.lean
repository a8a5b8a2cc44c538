import MeuOS.As.Layout
import MeuOS.As.SymbolTable
import MeuOS.Lib.Overwrite

namespace MeuOS.As

open MeuOS.Lib

/-!
# Fixups become bytes or relocations (`as_elfout.c`)

`resolve_fixups` looks at the fixups one by one.  What it can tell, it writes into the section; the
rest becomes relocations for the linker.

* `decideFixup`, `resolveFixup`, `resolveFixups` — the code;
* `Resolving` — what it keeps of the file, and `resolve_spec`;
* `resolve_field` — a field that has been patched keeps its bytes to the end.
-/

/-! ### The code -/

def EM_X86_64 : Nat := 62
def R_X86_64_PC32 : Nat := 2
def R_X86_64_PLT32 : Nat := 4
def R_ARM_REL32 : Nat := 3

/-- `struct out_reloc`. -/
structure OutReloc where
  offset : Nat
  type : Nat
  sym : Nat
  addend : Int
  deriving Repr, DecidableEq

/-- The sections with the fields patched so far, and `groups`. -/
structure Resolved where
  sections : List Section
  groups : Nat → List OutReloc

/-- An `int64_t` made from a `uint64_t`. -/
def toI64 (v : Nat) : Int := (v : Int).bmod (2 ^ 64)

/-- `a - b` in `int64_t`; overflow is undefined. -/
def subI64 {ε : Type} (a b : Int) : Except (Fault ε) Int :=
  if FitsI64 (a - b) then .ok (a - b) else .error .undefined

/-- `find_symbol`, with the error for a name that is not there. -/
def internalSymbol (as : AsFile) (name : List Char) : Except (Fault String) Symbol :=
  match as.symbols.find? fun s => s.name = name with
  | some s => .ok s
  | none => .error (.refused ("undefined internal symbol: " ++ String.ofList name))

/-- The relocations that the assembler works out by itself. -/
def rawResolvable (target : Option Nat) (type : Nat) : Bool :=
  ((target = some EM_X86_64 ∨ target = some EM_386) ∧
      (type = R_X86_64_PC32 ∨ type = R_X86_64_PLT32)) ∨
    target = some EM_ARM ∧ type = R_ARM_REL32

/-- What becomes of a fixup. -/
inductive Decision where
  | patch (value : Int)
  | reloc (sym : Nat) (addend : Int)
  deriving Repr, DecidableEq

/-- A symbol is defined in the section of a fixup. -/
def Symbol.inSectionOf (s : Symbol) (fix : Fixup) : Bool := s.defined ∧ s.sec = fix.sec

/-- What the body of `resolve_fixups` does with a fixup. -/
def decideFixup (as : AsFile) (fix : Fixup) : Except (Fault String) Decision := do
  let symbol ← internalSymbol as fix.symbol
  match fix.symbol2 with
  | some name2 => do
      let symbol2 ← internalSymbol as name2
      if symbol.inSectionOf fix && symbol2.inSectionOf fix then do
        let delta ← subI64 (toI64 symbol.value) (toI64 symbol2.value)
        let delta ← addI64 delta fix.addend
        .ok (.patch delta)
      else do
        let addend ← subI64 fix.addend (toI64 symbol2.value)
        .ok (.reloc symbol.output_index addend)
  | none =>
    if symbol.inSectionOf fix && rawResolvable as.target fix.type then do
      let value ← addI64 (toI64 symbol.value) fix.addend
      let value ← subI64 value
        (if fix.type = R_X86_64_PC32 ∨ fix.type = R_X86_64_PLT32 then toI64 fix.offset else 0)
      .ok (.patch value)
    else .ok (.reloc symbol.output_index fix.addend)

/-- Bytes stored in a section. -/
def Section.patch (s : Section) (offset : Nat) (bs : Bytes) : Section :=
  if h : offset + bs.length ≤ s.data.length then
    { s with
      data := overwrite s.data offset bs
      size_eq := fun ht => (s.size_eq ht).trans (length_overwrite h).symm }
  else s

/-- The low bytes of a value, as `uint64_t`. -/
def fieldBytes (width : Nat) (value : Int) : Bytes := leBytes width (value % 2 ^ 64).toNat

/-- `patch_le`; a `NOBITS` section has no data. -/
def patchLe (st : Resolved) (fix : Fixup) (value : Int) : Except (Fault String) Resolved :=
  match st.sections[fix.sec]? with
  | none => .error .undefined
  | some s =>
    if fix.offset > s.size ∨ fix.width > s.size - fix.offset then
      .error (.refused "internal relocation offset out of range")
    else if fix.width ≠ 4 ∧ fix.width ≠ 8 ∧ fix.width ≠ 2 ∧ fix.width ≠ 1 then
      .error (.refused "unsupported relocation width")
    else if s.type = SHT_NOBITS then .error .undefined
    else
      .ok { st with
        sections := st.sections.set fix.sec (s.patch fix.offset (fieldBytes fix.width value)) }

/-- `reloc_add`. -/
def relocAdd (st : Resolved) (fix : Fixup) (sym : Nat) (addend : Int) : Resolved :=
  { st with
    groups := Function.update st.groups fix.sec
      (st.groups fix.sec ++ [{ offset := fix.offset, type := fix.type, sym, addend }]) }

/-- One turn of `resolve_fixups`. -/
def resolveFixup (as : AsFile) (st : Resolved) (fix : Fixup) :
    Except (Fault String) Resolved := do
  match ← decideFixup as fix with
  | .patch value => patchLe st fix value
  | .reloc sym addend => .ok (relocAdd st fix sym addend)

/-- Before the first fixup. -/
def Resolved.start (as : AsFile) : Resolved where
  sections := as.sections
  groups _ := []

/-- `resolve_fixups`. -/
def resolveFixups (as : AsFile) : Except (Fault String) Resolved :=
  as.fixups.foldlM (resolveFixup as) (.start as)

/-- The symbols and the resolved fixups of a source. -/
def objectOf (target : Option Nat) (source : List Statement) :
    Option (BuiltSymbols × Resolved) := do
  let r ← (assemble target source).toOption
  let b ← (buildSymbols r.file).toOption
  let out ← (resolveFixups b.file).toOption
  some (b, out)

variable {st st' out : Resolved} {fix : Fixup} {value a b : Int} {as : AsFile}

theorem objectOf_eq_some {target : Option Nat} {source : List Statement}
    {p : BuiltSymbols × Resolved} (h : objectOf target source = some p) :
    ∃ r, assemble target source = .ok r ∧ buildSymbols r.file = .ok p.1 ∧
      resolveFixups p.1.file = .ok p.2 := by
  unfold objectOf at h
  obtain ⟨r, hr, h⟩ := Option.bind_eq_some_iff.mp h
  obtain ⟨b, hb, h⟩ := Option.bind_eq_some_iff.mp h
  obtain ⟨out, hout, h⟩ := Option.bind_eq_some_iff.mp h
  cases h
  exact ⟨r, eq_ok_of_toOption hr, eq_ok_of_toOption hb, eq_ok_of_toOption hout⟩

/-! ### What it keeps -/

/-- The bytes of a fixup's field. -/
def Resolved.field (st : Resolved) (fix : Fixup) : Option Bytes :=
  (st.sections[fix.sec]?).map fun s => slice s.data fix.offset fix.width

/-- The sections have the types and sizes of the file. -/
def Resolving (as : AsFile) (st : Resolved) : Prop :=
  ∀ i : Nat, (st.sections[i]?).map (fun s => (s.type, s.size)) =
    (as.sections[i]?).map fun s => (s.type, s.size)

@[simp] theorem Section.patch_type (s : Section) (offset : Nat) (bs : Bytes) :
    (s.patch offset bs).type = s.type := by
  unfold Section.patch
  split <;> rfl

@[simp] theorem Section.patch_size (s : Section) (offset : Nat) (bs : Bytes) :
    (s.patch offset bs).size = s.size := by
  unfold Section.patch
  split <;> rfl

@[simp] theorem length_fieldBytes (width : Nat) (value : Int) :
    (fieldBytes width value).length = width := length_leBytes _ _

/-- What `patch_le` does when it returns. -/
theorem patchLe_eq_ok (h : patchLe st fix value = .ok st') :
    ∃ s, st.sections[fix.sec]? = some s ∧ s.type ≠ SHT_NOBITS ∧
      fix.offset + fix.width ≤ s.data.length ∧
      st' = { st with
        sections := st.sections.set fix.sec (s.patch fix.offset (fieldBytes fix.width value)) } := by
  unfold patchLe at h
  split at h
  · simp at h
  next s hs =>
    split at h
    · simp at h
    next hrange =>
      split at h
      · simp at h
      · split at h
        · simp at h
        next htype =>
          refine ⟨s, hs, htype, ?_, (Except.ok.inj h).symm⟩
          rw [← s.size_eq htype]
          omega

/-- What one turn does when it returns. -/
theorem resolveFixup_eq_ok (h : resolveFixup as st fix = .ok st') :
    (∃ value, decideFixup as fix = .ok (.patch value) ∧ patchLe st fix value = .ok st') ∨
      ∃ sym addend, decideFixup as fix = .ok (.reloc sym addend) ∧
        st' = relocAdd st fix sym addend := by
  unfold resolveFixup at h
  obtain ⟨d, hd, h⟩ := except_bind_eq_ok h
  cases d with
  | patch value => exact Or.inl ⟨value, hd, h⟩
  | reloc sym addend => exact Or.inr ⟨sym, addend, hd, (Except.ok.inj h).symm⟩

theorem patchLe_width (h : patchLe st fix value = .ok st') : 0 < fix.width ∧ fix.width ≤ 8 := by
  unfold patchLe at h
  split at h
  · simp at h
  · split at h
    · simp at h
    · split at h
      · simp at h
      next hwidth => omega

theorem resolving_step (hst : Resolving as st)
    (h : resolveFixup as st fix = .ok st') : Resolving as st' := by
  rcases resolveFixup_eq_ok h with ⟨value, -, hp⟩ | ⟨sym, addend, -, rfl⟩
  · obtain ⟨s, hs, -, -, rfl⟩ := patchLe_eq_ok hp
    intro i
    rw [← hst i]
    show ((st.sections.set fix.sec _)[i]?).map _ = _
    rw [List.getElem?_set]
    by_cases hi : fix.sec = i
    · subst hi
      rw [if_pos rfl, if_pos (List.getElem?_eq_some_iff.mp hs).1, hs]
      simp
    · rw [if_neg hi]
  · exact hst

theorem resolving_run {fixups : List Fixup}
    (hst : Resolving as st) (h : fixups.foldlM (resolveFixup as) st = .ok st') :
    Resolving as st' := by
  induction fixups generalizing st with
  | nil =>
    cases h
    exact hst
  | cons f fixups ih =>
    rw [List.foldlM_cons] at h
    obtain ⟨st₁, h₁, h₂⟩ := except_bind_eq_ok h
    exact ih (resolving_step hst h₁) h₂

/-- The field of a fixup that is patched. -/
theorem patched_field (h : patchLe st fix value = .ok st') :
    st'.field fix = some (fieldBytes fix.width value) := by
  obtain ⟨s, hs, -, hfits, rfl⟩ := patchLe_eq_ok h
  have hfits' : fix.offset + (fieldBytes fix.width value).length ≤ s.data.length := by
    rwa [length_fieldBytes]
  have hread := slice_overwrite hfits'
  rw [length_fieldBytes] at hread
  unfold Resolved.field
  rw [List.getElem?_set_self (List.getElem?_eq_some_iff.mp hs).1, Option.map_some,
    Section.patch, dif_pos hfits']
  exact congrArg some hread

/-- Another fixup leaves the field alone. -/
theorem field_step {g : Fixup} (hapart : fix.Apart g)
    (h : resolveFixup as st g = .ok st') : st'.field fix = st.field fix := by
  rcases resolveFixup_eq_ok h with ⟨value, -, hp⟩ | ⟨sym, addend, -, rfl⟩
  · obtain ⟨s, hs, -, hfits, rfl⟩ := patchLe_eq_ok hp
    have hfits' : g.offset + (fieldBytes g.width value).length ≤ s.data.length := by
      rwa [length_fieldBytes]
    unfold Resolved.field
    rw [List.getElem?_set]
    by_cases hsec : g.sec = fix.sec
    · have hapart := hapart hsec.symm
      rw [if_pos hsec, if_pos (hsec ▸ (List.getElem?_eq_some_iff.mp hs).1), ← hsec, hs,
        Option.map_some, Option.map_some, Section.patch, dif_pos hfits']
      rcases hapart with hbefore | hbehind
      · exact congrArg some (slice_overwrite_before hfits' hbefore)
      · exact congrArg some (slice_overwrite_behind hfits' (by rwa [length_fieldBytes]))
    · rw [if_neg hsec]
  · rfl

/-- The rest of the run leaves a field alone. -/
theorem field_run {fixups : List Fixup}
    (hapart : ∀ g ∈ fixups, fix.Apart g) (h : fixups.foldlM (resolveFixup as) st = .ok st') :
    st'.field fix = st.field fix := by
  induction fixups generalizing st with
  | nil =>
    cases h
    rfl
  | cons g fixups ih =>
    rw [List.foldlM_cons] at h
    obtain ⟨st₁, h₁, h₂⟩ := except_bind_eq_ok h
    rw [ih (fun g' hg' => hapart g' (List.mem_cons_of_mem _ hg')) h₂]
    exact field_step (hapart g List.mem_cons_self) h₁

/-- The turn of a fixup, and what its field holds in the end. -/
theorem resolve_turn (hl : Laid as) (h : resolveFixups as = .ok out) (hfix : fix ∈ as.fixups) :
    ∃ st st', resolveFixup as st fix = .ok st' ∧ out.field fix = st'.field fix := by
  obtain ⟨before, after, hsplit⟩ := List.append_of_mem hfix
  unfold resolveFixups at h
  have hapart := hl.apart
  rw [hsplit] at h hapart
  rw [List.foldlM_append] at h
  obtain ⟨st, -, h⟩ := except_bind_eq_ok h
  rw [List.foldlM_cons] at h
  obtain ⟨st', hstep, hrest⟩ := except_bind_eq_ok h
  have hafter := List.pairwise_cons.mp (List.pairwise_append.mp hapart).2.1
  exact ⟨st, st', hstep, field_run hafter.1 hrest⟩

/-- **A field that is patched holds its bytes in the end.** -/
theorem resolve_field (hl : Laid as) (h : resolveFixups as = .ok out) (hfix : fix ∈ as.fixups)
    (hd : decideFixup as fix = .ok (.patch value)) :
    out.field fix = some (fieldBytes fix.width value) ∧ 0 < fix.width ∧ fix.width ≤ 8 := by
  obtain ⟨st, st', hstep, hfield⟩ := resolve_turn hl h hfix
  rw [hfield]
  rcases resolveFixup_eq_ok hstep with ⟨value', hd', hp⟩ | ⟨sym, addend, hd', -⟩
  · rw [hd] at hd'
    cases hd'
    exact ⟨patched_field hp, patchLe_width hp⟩
  · rw [hd] at hd'
    cases hd'

theorem resolve_decides (hl : Laid as) (h : resolveFixups as = .ok out) (hfix : fix ∈ as.fixups) :
    ∃ d, decideFixup as fix = .ok d := by
  obtain ⟨st, st', hstep, -⟩ := resolve_turn hl h hfix
  obtain ⟨d, hd, -⟩ := except_bind_eq_ok hstep
  exact ⟨d, hd⟩

/-- The symbols' indices do not matter for where the fixups lie. -/
theorem laid_built {target : Option Nat} {source : List Statement} {r : AsRun} {b : BuiltSymbols}
    (h : assemble target source = .ok r) (hb : buildSymbols r.file = .ok b) : Laid b.file := by
  obtain ⟨hsections, hfixups, -⟩ := buildSymbols_rest hb
  have hl := assemble_laid h
  constructor
  · rw [hfixups, hsections]
    exact hl.within
  · rw [hfixups]
    exact hl.apart

/-! ### Values and their bytes -/

theorem addI64_eq_ok_iff {ε : Type} {v : Int} :
    addI64 (ε := ε) a b = .ok v ↔ FitsI64 (a + b) ∧ v = a + b := by
  unfold addI64
  by_cases h : FitsI64 (a + b)
  · rw [if_pos h, and_iff_right h, Except.ok.injEq, eq_comm]
  · rw [if_neg h]
    exact iff_of_false nofun (fun h' => h h'.1)

theorem subI64_eq_ok_iff {ε : Type} {v : Int} :
    subI64 (ε := ε) a b = .ok v ↔ FitsI64 (a - b) ∧ v = a - b := by
  unfold subI64
  by_cases h : FitsI64 (a - b)
  · rw [if_pos h, and_iff_right h, Except.ok.injEq, eq_comm]
  · rw [if_neg h]
    exact iff_of_false nofun (fun h' => h h'.1)

theorem toI64_dvd (v : Nat) : (2 ^ 64 : Int) ∣ toI64 v - v := Int.dvd_bmod_sub_self

/-- The low bytes of a value as a number. -/
theorem leNat_fieldBytes {width : Nat} (hw : width ≤ 8) (a : Int) :
    (leNat (fieldBytes width a) : Int) = a % 256 ^ width := by
  have hdvd : (256 ^ width : Int) ∣ 2 ^ 64 := by
    have h : (256 : Int) ^ width ∣ 256 ^ 8 := pow_dvd_pow 256 hw
    exact h
  unfold fieldBytes
  rw [leNat_leBytes]
  rw [Int.natCast_mod, Int.toNat_of_nonneg (Int.emod_nonneg _ (by decide)), Int.natCast_pow]
  exact Int.emod_emod_of_dvd a hdvd

/-- Fields hold values up to multiples of their range. -/
theorem fieldBytes_eq_iff {width : Nat} (hw : width ≤ 8) :
    fieldBytes width a = fieldBytes width b ↔ (256 ^ width : Int) ∣ a - b := by
  rw [Int.dvd_iff_emod_eq_zero, ← Int.emod_eq_emod_iff_emod_sub_eq_zero, ← leNat_fieldBytes hw a, ← leNat_fieldBytes hw b]
  constructor
  · exact fun h => by rw [h]
  · intro h
    have ha := leBytes_leNat (fieldBytes width a)
    have hb := leBytes_leNat (fieldBytes width b)
    rw [length_fieldBytes] at ha hb
    rw [← ha, ← hb, Int.natCast_inj.mp h]

end MeuOS.As
