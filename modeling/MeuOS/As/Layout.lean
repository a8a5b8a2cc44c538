import MeuOS.As.Binding

namespace MeuOS.As

open MeuOS.Lib List

/-!
# Where fixups lie

Every fixup of an assembled file is on bytes of its own: they are appended to the current section
for it, and sections only grow.

* `Laid` — the fixups of a file lie in their sections and share no byte;
* `Lays` — what a step may do to a file, and `lays_fixups`: bytes with the fixups on them;
* `source_lays`, `assemble_laid` — the run of a source.
-/

/-! ### Files and steps -/

/-- Two fixups share no byte. -/
def Fixup.Apart (f g : Fixup) : Prop :=
  f.sec = g.sec → f.offset + f.width ≤ g.offset ∨ g.offset + g.width ≤ f.offset

/-- The fixups of a file lie in their sections and are apart. -/
structure Laid (as : AsFile) : Prop where
  within : ∀ f ∈ as.fixups, ∃ s, as.sections[f.sec]? = some s ∧ f.offset + f.width ≤ s.size
  apart : as.fixups.Pairwise Fixup.Apart

/-- Sections stay and grow. -/
def Grown (as as' : AsFile) : Prop :=
  ∀ (i : Nat) (s : Section), as.sections[i]? = some s →
    ∃ s' : Section, as'.sections[i]? = some s' ∧ s'.type = s.type ∧ s.size ≤ s'.size

/-- What a step may do: sections and fixups stay and become more. -/
structure Lays (as as' : AsFile) : Prop where
  sections : Grown as as'
  fixups : as.fixups <+: as'.fixups
  laid : Laid as → Laid as'

variable {as as₁ as' : AsFile} {bs : Bytes} {r : AsRun}

theorem Lays.trans {as₂ : AsFile} (h : Lays as as₁) (h' : Lays as₁ as₂) :
    Lays as as₂ where
  sections i s hs := by
    obtain ⟨s₁, hs₁, htype₁, hsize₁⟩ := h.sections i s hs
    obtain ⟨s₂, hs₂, htype₂, hsize₂⟩ := h'.sections i s₁ hs₁
    exact ⟨s₂, hs₂, htype₂.trans htype₁, hsize₁.trans hsize₂⟩
  fixups := h.fixups.trans h'.fixups
  laid hl := h'.laid (h.laid hl)

/-- Sections may grow alone. -/
theorem Lays.of_fixups (hfixups : as'.fixups = as.fixups)
    (hsections : Grown as as') : Lays as as' where
  sections := hsections
  fixups := hfixups ▸ prefix_rfl
  laid hl := by
    constructor
    · intro f hf
      rw [hfixups] at hf
      obtain ⟨s, hs, hfits⟩ := hl.within f hf
      obtain ⟨s', hs', -, hsize⟩ := hsections _ s hs
      exact ⟨s', hs', hfits.trans hsize⟩
    · rw [hfixups]
      exact hl.apart

theorem Lays.of_symbols (hsections : as'.sections = as.sections)
    (hfixups : as'.fixups = as.fixups) : Lays as as' :=
  Lays.of_fixups hfixups fun _ s hs => ⟨s, hsections ▸ hs, rfl, le_rfl⟩

theorem Lays.refl (as : AsFile) : Lays as as := Lays.of_symbols rfl rfl

@[simp] theorem updateSymbol_sections (as : AsFile) (m : List Char) (f : Symbol → Symbol) :
    (updateSymbol as m f).sections = as.sections := getSymbol_sections as m

@[simp] theorem updateSymbol_fixups (as : AsFile) (m : List Char) (f : Symbol → Symbol) :
    (updateSymbol as m f).fixups = as.fixups := getSymbol_fixups as m

theorem lays_update (as : AsFile) (m : List Char) (f : Symbol → Symbol) :
    Lays as (updateSymbol as m f) :=
  Lays.of_symbols (updateSymbol_sections as m f) (updateSymbol_fixups as m f)

/-! ### Bytes -/

theorem asAppendBytes_ok (h : asAppendBytes as bs = .ok as') :
    as' = as.setCur (as.cur.append bs) := by
  unfold asAppendBytes at h
  split at h
  · simp at h
  · exact (Except.ok.inj h).symm

/-- The sections when bytes have been appended. -/
theorem appended_sections (h : asAppendBytes as bs = .ok as')
    {i : Nat} {s : Section} (hs : as.sections[i]? = some s) :
    as'.sections[i]? = some (if i = as.current then s.append bs else s) := by
  obtain rfl := asAppendBytes_ok h
  have hi := (List.getElem?_eq_some_iff.mp hs).1
  show (as.sections.set as.current _)[i]? = _
  rw [List.getElem?_set]
  by_cases hic : i = as.current
  · subst hic
    have hcur : as.cur = s := Option.some.inj (as.getElem?_current.symm.trans hs)
    rw [if_pos rfl, if_pos rfl, if_pos hi, hcur]
  · rw [if_neg (fun h => hic h.symm), if_neg hic, hs]

theorem appended_grown (h : asAppendBytes as bs = .ok as') :
    Grown as as' := by
  intro i s hs
  refine ⟨_, appended_sections h hs, ?_⟩
  split
  · exact ⟨rfl, Nat.le_add_right _ _⟩
  · exact ⟨rfl, le_rfl⟩

theorem lays_append (h : asAppendBytes as bs = .ok as') :
    Lays as as' := by
  refine Lays.of_fixups ?_ (appended_grown h)
  rw [asAppendBytes_ok h]
  rfl

/-- Bytes at the end of the current section, and fixups on them. -/
theorem lays_fixups {as₂ : AsFile} {fs : List Fixup}
    (h : asAppendBytes as bs = .ok as₁) (hsections : as₂.sections = as₁.sections)
    (hfixups : as₂.fixups = as.fixups ++ fs)
    (hon : ∀ f ∈ fs, f.sec = as.current ∧ as.cur.size ≤ f.offset ∧
      f.offset + f.width ≤ as.cur.size + bs.length)
    (hapart : fs.Pairwise Fixup.Apart) : Lays as as₂ where
  sections i s hs := hsections ▸ appended_grown h i s hs
  fixups := hfixups ▸ prefix_append _ _
  laid hl := by
    have hcur := appended_sections h as.getElem?_current
    rw [if_pos rfl] at hcur
    constructor
    · intro f hf
      rw [hfixups, mem_append] at hf
      rw [hsections]
      rcases hf with hf | hf
      · obtain ⟨s, hs, hfits⟩ := hl.within f hf
        obtain ⟨s', hs', -, hsize⟩ := appended_grown h _ s hs
        exact ⟨s', hs', hfits.trans hsize⟩
      · obtain ⟨hsec, -, hfits⟩ := hon f hf
        exact ⟨_, hsec ▸ hcur, hfits⟩
    · rw [hfixups]
      refine pairwise_append.mpr ⟨hl.apart, hapart, fun f hf g hg hsec => ?_⟩
      -- a fixup before ends where the new bytes begin
      obtain ⟨s, hs, hfits⟩ := hl.within f hf
      obtain ⟨hgsec, hgoff, -⟩ := hon g hg
      rw [hsec, hgsec, as.getElem?_current] at hs
      cases hs
      exact Or.inl (hfits.trans hgoff)

/-! ### Statements -/

/-- A fixup of an instruction that begins at `start`. -/
def InsnFixup.placed (sec start : Nat) (f : InsnFixup) : Fixup where
  sec := sec
  offset := start + f.offset
  type := f.type
  width := f.width
  addend := f.addend
  symbol := f.symbol
  symbol2 := none

theorem addInsnFixups_eq (start : Nat) (as : AsFile) (fs : List InsnFixup) :
    (addInsnFixups start as fs).sections = as.sections ∧
      (addInsnFixups start as fs).fixups = as.fixups ++ fs.map (InsnFixup.placed as.current start) := by
  unfold addInsnFixups
  induction fs generalizing as with
  | nil => simp
  | cons f fs ih =>
    rw [foldl_cons]
    obtain ⟨hsections, hfixups⟩ :=
      ih (asAddFixup as (start + f.offset) f.width f.type f.addend f.symbol)
    rw [hsections, hfixups]
    unfold asAddFixup
    simp [InsnFixup.placed]

theorem lays_insn {i : EncodedInsn} (h : asAppendBytes as i.bytes = .ok as₁) :
    Lays as (addInsnFixups as.cur.size as₁ i.fixups) := by
  obtain ⟨hsections, hfixups⟩ := addInsnFixups_eq as.cur.size as₁ i.fixups
  have hcurrent : as₁.current = as.current := by
    rw [asAppendBytes_ok h]
    rfl
  have hbefore : as₁.fixups = as.fixups := by
    rw [asAppendBytes_ok h]
    rfl
  rw [hcurrent, hbefore] at hfixups
  refine lays_fixups h hsections hfixups ?_ ?_
  · intro f hf
    obtain ⟨g, hg, rfl⟩ := mem_map.mp hf
    have hwithin := i.within g hg
    refine ⟨rfl, Nat.le_add_right _ _, ?_⟩
    show as.cur.size + g.offset + g.width ≤ _
    omega
  · refine pairwise_map.mpr (i.apart.imp fun {f g} hfg _ => ?_)
    show as.cur.size + f.offset + f.width ≤ as.cur.size + g.offset ∨
      as.cur.size + g.offset + g.width ≤ as.cur.size + f.offset
    unfold InsnFixup.Apart at hfg
    omega

/-- The fixup of an operand, if it has one. -/
def DataOperand.fixups (as : AsFile) (width : Nat) : DataOperand → List Fixup
  | .number _ => []
  | .symbol name addend =>
    [{ sec := as.current, offset := as.cur.size, type := dataRelocType as.target width,
       width, addend, symbol := name, symbol2 := none }]
  | .difference name addend sym2 k =>
    [{ sec := as.current, offset := as.cur.size, type := dataRelocType as.target width,
       width, addend := addend + k, symbol := name, symbol2 := some sym2 }]

/-- An operand that has been emitted. -/
theorem emitOperand_spec {width : Nat} {o : DataOperand} (h : emitOperand as width o = .ok as') :
    as'.fixups = as.fixups ++ o.fixups as width ∧ Lays as as' := by
  cases o with
  | number v =>
    have hfixups : as'.fixups = as.fixups := by
      rw [asAppendBytes_ok h]
      rfl
    exact ⟨by rw [hfixups, DataOperand.fixups, append_nil], lays_append h⟩
  | symbol name addend =>
    obtain ⟨as₁, h₁, h₂⟩ := except_bind_eq_ok h
    cases h₂
    have has₁ := asAppendBytes_ok h₁
    have hfixups : (asAddFixup as₁ as.cur.size width (dataRelocType as₁.target width) addend
        name).fixups = (referSymbol as name).fixups ++
          DataOperand.fixups (referSymbol as name) width (.symbol name addend) := by
      rw [has₁]
      simp [asAddFixup, DataOperand.fixups, AsFile.setCur]
    have hlays : Lays as (referSymbol as name) :=
      Lays.of_symbols (referSymbol_sections as name) (referSymbol_fixups as name)
    refine ⟨by simpa [DataOperand.fixups] using hfixups, hlays.trans ?_⟩
    refine lays_fixups h₁ (referSymbol_sections _ _) hfixups ?_ (pairwise_singleton _ _)
    intro f hf
    obtain rfl := mem_singleton.mp hf
    refine ⟨rfl, le_rfl, ?_⟩
    rw [length_leBytes]
  | difference name addend sym2 k =>
    obtain ⟨as₁, h₁, h₂⟩ := except_bind_eq_ok h
    obtain ⟨sum, hsum, h₃⟩ := except_bind_eq_ok h₂
    cases h₃
    have hsum : sum = addend + k := by
      unfold addI64 at hsum
      split at hsum
      · exact (Except.ok.inj hsum).symm
      · simp at hsum
    have has₁ := asAppendBytes_ok h₁
    have hfixups : (asAddFixupDiff as₁ as.cur.size width (dataRelocType as₁.target width) sum
        name sym2).fixups = (referSymbol (referSymbol as name) sym2).fixups ++
          DataOperand.fixups (referSymbol (referSymbol as name) sym2) width
            (.difference name addend sym2 k) := by
      rw [has₁, hsum]
      simp [asAddFixupDiff, DataOperand.fixups, AsFile.setCur]
    have hlays : Lays as (referSymbol (referSymbol as name) sym2) :=
      (Lays.of_symbols (referSymbol_sections as name) (referSymbol_fixups as name)).trans
        (Lays.of_symbols (referSymbol_sections _ sym2) (referSymbol_fixups _ sym2))
    refine ⟨by simpa [DataOperand.fixups] using hfixups, hlays.trans ?_⟩
    refine lays_fixups h₁ (referSymbol_sections _ _) hfixups ?_ (pairwise_singleton _ _)
    intro f hf
    obtain rfl := mem_singleton.mp hf
    refine ⟨rfl, le_rfl, ?_⟩
    rw [length_leBytes]

theorem lays_foldl {α : Type} {step : AsFile → α → AsFile} (hstep : ∀ as a, Lays as (step as a))
    (l : List α) (as : AsFile) : Lays as (l.foldl step as) := by
  induction l generalizing as with
  | nil => exact Lays.refl as
  | cons a l ih => exact (hstep as a).trans (ih (step as a))

theorem lays_enterSection (as : AsFile) (name : List Char) : Lays as (enterSection as name) := by
  unfold enterSection
  split
  · exact Lays.of_symbols rfl rfl
  · refine Lays.of_fixups rfl fun i s hs => ⟨s, ?_, rfl, le_rfl⟩
    show (as.sections ++ [newSection name])[i]? = some s
    rw [List.getElem?_append_left (List.getElem?_eq_some_iff.mp hs).1]
    exact hs

theorem lays_defineLabel {name text : List Char}
    (h : defineLabel as name text = .ok as') : Lays as as' := by
  unfold defineLabel at h
  split at h
  · simp at h
  · cases h
    exact lays_update as name _

theorem lays_runFile {s : Statement} (h : s.runFile as = .ok as') :
    Lays as as' := by
  cases s with
  | enter name =>
    cases h
    exact lays_enterSection as name
  | label name => exact lays_defineLabel h
  | list d names =>
    cases h
    exact lays_foldl (fun as n => lays_update as n _) names as
  | hidden names =>
    cases h
    exact lays_foldl (fun as n => lays_update as n _) names as
  | set name value =>
    unfold Statement.runFile at h
    dsimp only at h
    split at h
    · simp at h
    · cases h
      exact lays_update as name _
  | data text width =>
    unfold Statement.runFile at h
    dsimp only at h
    rw [parseDataValue_eq] at h
    obtain ⟨o, -, hemit⟩ := except_bind_eq_ok h
    exact (emitOperand_spec hemit).2
  | bytes bs => exact lays_append h
  | insn i =>
    obtain ⟨as₁, h₁, h₂⟩ := except_bind_eq_ok h
    cases h₂
    exact lays_insn h₁
  | _ =>
    cases h
    first | exact lays_update as _ _ | exact Lays.refl _

/-- A statement. -/
theorem lays_run {r' : AsRun} {s : Statement} (h : s.run r = .ok r') :
    Lays r.file r'.file := by
  cases s with
  | numericLabel number =>
    obtain ⟨as, has, hr⟩ := except_bind_eq_ok h
    cases hr
    exact lays_defineLabel has
  | numericReference number forward =>
    unfold Statement.run at h
    dsimp only at h
    split at h
    · simp at h
    · cases h
      exact Lays.of_symbols (getSymbol_sections _ _) (getSymbol_fixups _ _)
  | _ =>
    obtain ⟨as, has, hr⟩ := except_bind_eq_ok h
    cases hr
    exact lays_runFile has

/-- A source. -/
theorem source_lays {source : List Statement} {r' : AsRun}
    (h : source.foldlM Statement.run r = .ok r') : Lays r.file r'.file := by
  induction source generalizing r with
  | nil =>
    obtain rfl := Except.ok.inj h
    exact Lays.refl r.file
  | cons s source ih =>
    rw [foldlM_cons] at h
    obtain ⟨r₁, h₁, h₂⟩ := except_bind_eq_ok h
    exact (lays_run h₁).trans (ih h₂)

/-- **The fixups of an assembled file lie in their sections and share no byte.** -/
theorem assemble_laid {target : Option Nat} {source : List Statement}
    (h : assemble target source = .ok r) : Laid r.file := by
  refine (source_lays h).laid ⟨?_, List.Pairwise.nil⟩
  intro f hf
  exact absurd hf (by simp [AsRun.start])

end MeuOS.As
