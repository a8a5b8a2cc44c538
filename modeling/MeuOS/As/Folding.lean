import MeuOS.As.Fixups
import Mathlib.Algebra.Order.Ring.Int
import Mathlib.Algebra.Ring.Divisibility.Basic

namespace MeuOS.As

open MeuOS.Lib

/-!
# Fixups that never reach the linker (`as_elfout.c`)

A reference relative to its place, to a symbol of the same section, is worked out by the assembler.
The linker would have written `S + A - P`, whatever the addresses of the sections and whichever
definition of a weak symbol is taken.

* `Link`, `Link.value` — a later link, and what it would have written;
* `decideFixup_folds` — what the assembler writes;
* `folding_invisible_iff` — when the two agree in every link.
-/

/-- What a later link decides: the addresses of the file's sections, and the strong definitions
    found elsewhere. -/
structure Link where
  address : Nat → Nat
  strong : List Char → Option Nat

/-- `S`: a strong definition takes the place of a weak one. -/
def Link.symbol (l : Link) (s : Symbol) : Nat :=
  let own := l.address s.sec.toNat + s.value
  if s.bind = STB_WEAK then (l.strong s.name).getD own else own

/-- `S + A - P`. -/
def Link.value (l : Link) (s : Symbol) (fix : Fixup) : Int :=
  l.symbol s + fix.addend - (l.address fix.sec + fix.offset : Nat)

/-- The assembler works out the reference to a symbol by itself. -/
structure Folds (as : AsFile) (fix : Fixup) (s : Symbol) : Prop where
  single : fix.symbol2 = none
  symbol : internalSymbol as fix.symbol = .ok s
  same : s.inSectionOf fix = true
  resolvable : rawResolvable as.target fix.type = true

/-- What the assembler takes for the place. -/
def Fixup.place (fix : Fixup) : Int :=
  if fix.type = R_X86_64_PC32 ∨ fix.type = R_X86_64_PLT32 then toI64 fix.offset else 0

variable {as : AsFile} {fix : Fixup} {s : Symbol}

/-- **What the assembler writes.** -/
theorem decideFixup_folds (hf : Folds as fix s) {d : Decision} (h : decideFixup as fix = .ok d) :
    d = .patch (toI64 s.value + fix.addend - fix.place) := by
  unfold decideFixup at h
  obtain ⟨s', hs', h⟩ := except_bind_eq_ok h
  rw [hf.symbol] at hs'
  cases hs'
  rw [hf.single] at h
  rw [hf.same, hf.resolvable] at h
  obtain ⟨v, hv, h⟩ := except_bind_eq_ok h
  obtain ⟨w, hw, h⟩ := except_bind_eq_ok h
  cases h
  rw [(subI64_eq_ok_iff.mp hw).2, (addI64_eq_ok_iff.mp hv).2]
  rfl

/-- The types that are folded. -/
theorem Folds.type (hf : Folds as fix s) :
    (fix.type = R_X86_64_PC32 ∨ fix.type = R_X86_64_PLT32) ∨ fix.type = R_ARM_REL32 := by
  have h := hf.resolvable
  unfold rawResolvable at h
  rcases of_decide_eq_true h with h | h
  · exact Or.inl h.2
  · exact Or.inr h.2

theorem Folds.sec (hf : Folds as fix s) :
    s.sec.toNat = fix.sec := by
  have h := hf.same
  unfold Symbol.inSectionOf at h
  rw [(of_decide_eq_true h).2]
  rfl

/-- For a symbol of the file itself, the address of the section cancels out. -/
theorem Link.value_own (hf : Folds as fix s) {l : Link}
    (hs : l.symbol s = l.address s.sec.toNat + s.value) :
    l.value s fix = s.value + fix.addend - fix.offset := by
  unfold Link.value
  rw [hs, hf.sec]
  push_cast
  omega

/-- With the place that the assembler takes, the field holds the value of the symbol's own
    definition exactly when the offset of a `REL32` does not show. -/
theorem own_iff (hf : Folds as fix s) (hw : fix.width ≤ 8) :
    fieldBytes fix.width (toI64 s.value + fix.addend - fix.place) =
        fieldBytes fix.width (s.value + fix.addend - fix.offset) ↔
      (fix.type = R_ARM_REL32 → 256 ^ fix.width ∣ fix.offset) := by
  have hrange : (256 ^ fix.width : Int) ∣ 2 ^ 64 := by
    have h : (256 : Int) ^ fix.width ∣ 256 ^ 8 := pow_dvd_pow 256 hw
    exact h
  have hvalue := hrange.trans (toI64_dvd s.value)
  rw [fieldBytes_eq_iff hw]
  rcases hf.type with htype | htype
  · -- the offset is subtracted
    have hplace : fix.place = toI64 fix.offset := if_pos htype
    have hoffset := hrange.trans (toI64_dvd fix.offset)
    rw [hplace]
    refine iff_of_true ?_ fun hrel => ?_
    · have hsum : toI64 s.value + fix.addend - toI64 fix.offset -
          (s.value + fix.addend - fix.offset) =
            toI64 s.value - s.value - (toI64 fix.offset - fix.offset) := by omega
      rw [hsum]
      exact dvd_sub hvalue hoffset
    · rcases htype with h | h <;> exact absurd (h.symm.trans hrel) (by decide)
  · -- it is not
    have hplace : fix.place = 0 := if_neg (by rw [htype]; decide)
    have hsum : toI64 s.value + fix.addend - fix.place - (s.value + fix.addend - fix.offset) =
        (toI64 s.value - s.value) + (fix.offset : Int) := by omega
    rw [hsum, dvd_add_right hvalue]
    refine ⟨fun h _ => ?_, fun h => ?_⟩
    · exact_mod_cast h
    · exact_mod_cast h htype

/-- No field shows two neighbouring addresses alike. -/
theorem fieldBytes_succ_ne {width : Nat} (hpos : 0 < width) (hw : width ≤ 8) (a : Int) :
    fieldBytes width (a + 1) ≠ fieldBytes width a := by
  rw [Ne, fieldBytes_eq_iff hw, add_sub_cancel_left]
  intro h
  have hle := Int.le_of_dvd one_pos h
  have hbig : (256 : Int) ^ 1 ≤ 256 ^ width := pow_le_pow_right₀ (by decide) hpos
  omega

/-- The fields that the assembler has worked out hold what every later link would have written. -/
def FoldingInvisible (as : AsFile) (out : Resolved) : Prop :=
  ∀ fix ∈ as.fixups, ∀ s, Folds as fix s →
    ∀ l : Link, out.field fix = some (fieldBytes fix.width (l.value s fix))

/-- Folding is invisible exactly when no weak symbol is folded and the offset of no folded `REL32`
    shows in its field. -/
theorem folding_invisible_iff {target : Option Nat} {source : List Statement} {r : AsRun}
    {b : BuiltSymbols} {out : Resolved} (h : assemble target source = .ok r)
    (hb : buildSymbols r.file = .ok b) (hout : resolveFixups b.file = .ok out) :
    FoldingInvisible b.file out ↔
      ∀ fix ∈ b.file.fixups, ∀ s, Folds b.file fix s →
        s.bind ≠ STB_WEAK ∧ (fix.type = R_ARM_REL32 → 256 ^ fix.width ∣ fix.offset) := by
  have hl := laid_built h hb
  -- what the field holds
  have hfield : ∀ fix ∈ b.file.fixups, ∀ s, Folds b.file fix s →
      out.field fix =
          some (fieldBytes fix.width (toI64 s.value + fix.addend - fix.place)) ∧
        0 < fix.width ∧ fix.width ≤ 8 := by
    intro fix hfix s hf
    obtain ⟨d, hd⟩ := resolve_decides hl hout hfix
    obtain rfl := decideFixup_folds hf hd
    exact resolve_field hl hout hfix hd
  constructor
  · intro hinv fix hfix s hf
    obtain ⟨hheld, hpos, hw⟩ := hfield fix hfix s hf
    have hall : ∀ l : Link, fieldBytes fix.width (l.value s fix) =
        fieldBytes fix.width (toI64 s.value + fix.addend - fix.place) := by
      intro l
      have hl := hinv fix hfix s hf l
      rw [hheld] at hl
      exact (Option.some.inj hl).symm
    constructor
    · -- two strong definitions next to each other
      intro hweak
      have h₀ := hall ⟨fun _ => 0, fun _ => some 0⟩
      have h₁ := hall ⟨fun _ => 0, fun _ => some 1⟩
      rw [← h₀] at h₁
      refine fieldBytes_succ_ne hpos hw _ (Eq.trans (congrArg _ ?_) h₁)
      unfold Link.value Link.symbol
      simp only [hweak, if_true, Option.getD_some]
      push_cast
      ring
    · have hown := hall ⟨fun _ => 0, fun _ => none⟩
      rw [Link.value_own hf (by simp [Link.symbol])] at hown
      exact (own_iff hf hw).mp hown.symm
  · intro hcond fix hfix s hf l
    obtain ⟨hheld, -, hw⟩ := hfield fix hfix s hf
    obtain ⟨hweak, hrel⟩ := hcond fix hfix s hf
    rw [hheld, (own_iff hf hw).mpr hrel,
      Link.value_own hf (by unfold Link.symbol; rw [if_neg hweak])]

/-- `call f`. -/
def callF : EncodedInsn where
  bytes := [0xe8, 0, 0, 0, 0]
  fixups := [{ offset := 1, width := 4, type := R_X86_64_PLT32, addend := -4, symbol := ['f'] }]
  within := by decide
  apart := List.pairwise_singleton _ _

/-- A function that calls itself. -/
def recursive : List Statement := [.label ['f'], .insn callF]

/-- The same, and weak. -/
def recursiveWeak : List Statement := .list .weak [['f']] :: recursive

/-- The fixup and the symbol of both, with the symbol's binding. -/
def callFixup : Fixup where
  sec := 0
  offset := 1
  type := R_X86_64_PLT32
  width := 4
  addend := -4
  symbol := ['f']
  symbol2 := none

def functionF (bind : Nat) : Symbol where
  name := ['f']
  sec := 0
  value := 0
  size := 0
  bind := bind
  type := STT_NOTYPE
  other := 0
  defined := true
  output_index := 2

/-- What the two sources come to. -/
theorem recursive_object (source : List Statement) (bind : Nat)
    (h : source = recursive ∧ bind = STB_LOCAL ∨ source = recursiveWeak ∧ bind = STB_WEAK) :
    ∃ r b out, assemble (some EM_X86_64) source = .ok r ∧ buildSymbols r.file = .ok b ∧
      resolveFixups b.file = .ok out ∧ b.file.fixups = [callFixup] ∧
      Folds b.file callFixup (functionF bind) := by
  have hrun : (objectOf (some EM_X86_64) source).map
      (fun p => (p.1.file.fixups, p.1.file.symbols, p.1.file.target)) =
        some ([callFixup], [functionF bind], some EM_X86_64) := by
    rcases h with ⟨rfl, rfl⟩ | ⟨rfl, rfl⟩ <;> decide
  obtain ⟨⟨b, out⟩, hp, hfacts⟩ := Option.map_eq_some_iff.mp hrun
  obtain ⟨r, hr, hb, hout⟩ := objectOf_eq_some hp
  obtain ⟨hfixups, hrest⟩ := Prod.mk.inj hfacts
  obtain ⟨hsymbols, htarget⟩ := Prod.mk.inj hrest
  refine ⟨r, b, out, hr, hb, hout, hfixups, rfl, ?_, ?_, ?_⟩
  · unfold internalSymbol
    rw [hsymbols]
    rfl
  · rfl
  · rw [htarget]
    decide

/-- A call to a function that is not weak looks the same in every link. -/
theorem folding_invisible_recursive :
    ∃ r b out, assemble (some EM_X86_64) recursive = .ok r ∧ buildSymbols r.file = .ok b ∧
      resolveFixups b.file = .ok out ∧ Folds b.file callFixup (functionF STB_LOCAL) ∧
      (FoldingInvisible b.file out ↔
        ∀ fix ∈ b.file.fixups, ∀ s, Folds b.file fix s →
          s.bind ≠ STB_WEAK ∧ (fix.type = R_ARM_REL32 → 256 ^ fix.width ∣ fix.offset)) := by
  obtain ⟨r, b, out, hr, hb, hout, -, hfolds⟩ :=
    recursive_object recursive STB_LOCAL (Or.inl ⟨rfl, rfl⟩)
  exact ⟨r, b, out, hr, hb, hout, hfolds, folding_invisible_iff hr hb hout⟩

/-- A call to a weak function goes to the file's own definition, whatever the link decides. -/
theorem folding_visible_weak :
    ∃ r b out, assemble (some EM_X86_64) recursiveWeak = .ok r ∧ buildSymbols r.file = .ok b ∧
      resolveFixups b.file = .ok out ∧ ¬ FoldingInvisible b.file out := by
  obtain ⟨r, b, out, hr, hb, hout, hfixups, hfolds⟩ :=
    recursive_object recursiveWeak STB_WEAK (Or.inr ⟨rfl, rfl⟩)
  refine ⟨r, b, out, hr, hb, hout, fun hinv => ?_⟩
  have hmem : callFixup ∈ b.file.fixups := by
    rw [hfixups]
    exact List.mem_singleton_self _
  have hvalue := hinv callFixup hmem _ hfolds
  have h₀ := hvalue ⟨fun _ => 0, fun _ => some 0⟩
  have h₁ := hvalue ⟨fun _ => 0, fun _ => some 1⟩
  rw [h₀] at h₁
  cases h₁

end MeuOS.As
