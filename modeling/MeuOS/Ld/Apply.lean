import MeuOS.Ld.GcSweep
import MeuOS.Ld.Reloc

namespace MeuOS.Ld

open MeuOS.Lib

/-!
# The run of all relocations (`reloc.c`)

* `readRela` — an entry of a relocation section, read off the bytes of its object;
* `applyRelocations` — the loops over objects, sections and entries;
* `relocPositions` — the entries that these loops come to;
* `applyRelocations_run` — a run that succeeds is one after the other of the writes at these
  entries.
-/

/-! ### The loops -/

/-- The entry `n` of relocation section `k`. -/
def readRela (o : RelocObject) (k : Nat) (sec : ElfSection) (n : Nat) : Checked String LdRela :=
  let p := o.offset k + n * sec.entry_size
  if o.elf_class = 1 then do
    let offset ← leAt o.data p 4
    let info ← leAt o.data (p + 4) 4
    let addend ← if sec.type = SHT_RELA then leAt o.data (p + 8) 4 else .ok 0
    return {
      offset := offset
      type := info % 2 ^ 8
      symbol_index := info / 2 ^ 8
      addend := if addend < 2 ^ 31 then addend else addend + (2 ^ 64 - 2 ^ 32) }
  else do
    let offset ← leAt o.data p 8
    let info ← leAt o.data (p + 8) 8
    let addend ← leAt o.data (p + 16) 8
    return {
      offset := offset
      type := info % 2 ^ 32
      symbol_index := info / 2 ^ 32
      addend := addend }

/-- An entry of a relocation section: the object, the section and its index, the group that the
    section is for, and the index of the entry. -/
structure RelocPos where
  object : RelocObject
  k : Nat
  sec : ElfSection
  target : Nat
  n : Nat

/-- The size of a group. -/
def RelocState.sizeOf (s : RelocState) (k : Nat) : Nat := (s.got.groups[k]?).elim 0 LdGroup.size

section loops

variable (write : RelocState → RelocPos → Checked String RelocState)

/-- The body of the loop over the sections of an object. -/
def applySection (o : RelocObject) (s : RelocState) (k : Nat) : Checked String RelocState :=
  match o.object.elf.getSection k with
  | none => .fail ("invalid relocation section: " ++ o.object.name)
  | some sec =>
    if sec.type ≠ SHT_RELA ∧ sec.type ≠ SHT_REL then .ok s
    else
      match o.object.map (o.info k) with
      | none => .fail "relocation target was discarded"
      | some (target, _) => do
          let g ← s.group target
          if g.size = 0 then return s
          else if sec.size ≠ 0 ∧ (sec.entry_size = 0 ∨ sec.size % sec.entry_size ≠ 0) then
            .fail ("invalid relocation table: " ++ o.object.name)
          -- A section without bytes and with an entry size of zero is not kept from the division.
          else if sec.entry_size = 0 then .fault
          else
            ((List.range (sec.size / sec.entry_size)).map (RelocPos.mk o k sec target)).foldlM
              write s

/-- The body of the loop over the objects; shared libraries are left alone. -/
def applyObject (s : RelocState) (o : RelocObject) : Checked String RelocState :=
  if o.object.is_shared then .ok s else (List.range o.count).foldlM (applySection write o) s

/-- `apply_relocations`, for the `write_relocation` of the target. -/
def applyRelocations (s : RelocState) (objects : List RelocObject) : Checked String RelocState :=
  objects.foldlM (applyObject write) s

end loops

/-- `write_relocation` for x86_64, at an entry. -/
def writeX86 (c : RelocContext) (s : RelocState) (p : RelocPos) : Checked String RelocState := do
  let r ← readRela p.object p.k p.sec p.n
  writeRelocationX86 c s p.object.object (p.object.info p.k) p.target r

/-! ### The entries -/

/-- The entries of section `k`, for the sizes of the groups. -/
def sectionPositions (size : Nat → Nat) (o : RelocObject) (k : Nat) : List RelocPos :=
  match o.object.elf.getSection k with
  | none => []
  | some sec =>
    if sec.type ≠ SHT_RELA ∧ sec.type ≠ SHT_REL then []
    else
      match o.object.map (o.info k) with
      | none => []
      | some (target, _) =>
        if size target = 0 then []
        else (List.range (sec.size / sec.entry_size)).map (RelocPos.mk o k sec target)

/-- The entries that the loops come to. -/
def relocPositions (size : Nat → Nat) (objects : List RelocObject) : List RelocPos :=
  objects.flatMap fun o =>
    if o.object.is_shared then [] else (List.range o.count).flatMap (sectionPositions size o)

/-- A run that succeeds writes at one entry after the other, where the writes keep the sizes of the
    groups. -/
theorem applyRelocations_run {write : RelocState → RelocPos → Checked String RelocState}
    {size : Nat → Nat} {I : RelocState → Prop} (hsizes : ∀ s, I s → s.sizeOf = size)
    (hkeep : ∀ s p s', I s → write s p = .ok s' → I s')
    {objects : List RelocObject} {s s' : RelocState} (hs : I s)
    (h : applyRelocations write s objects = .ok s') :
    (relocPositions size objects).foldlM write s = .ok s' := by
  refine foldlM_flatMap_ok hkeep ?_ objects hs h
  intro s o s' hs h
  unfold applyObject at h
  split at h
  next hshared =>
    rw [if_pos hshared]
    exact h
  next hshared =>
    rw [if_neg hshared]
    refine foldlM_flatMap_ok hkeep ?_ _ hs h
    intro s k s' hs h
    unfold applySection at h
    unfold sectionPositions
    cases hsec : o.object.elf.getSection k with
    | none =>
      rw [hsec] at h
      cases h
    | some sec =>
      rw [hsec] at h
      dsimp only at h ⊢
      split at h
      next htype =>
        rw [if_pos htype]
        exact h
      next htype =>
        rw [if_neg htype]
        cases hmap : o.object.map (o.info k) with
        | none =>
          rw [hmap] at h
          cases h
        | some place =>
          rw [hmap] at h
          dsimp only at h ⊢
          obtain ⟨g, hg, h⟩ := Checked.bind_eq_ok h
          have hsize : size place.1 = g.size := by
            rw [← hsizes s hs]
            unfold RelocState.sizeOf
            rw [group_eq_ok hg]
            rfl
          rw [hsize]
          split at h
          next hz =>
            rw [if_pos hz]
            exact h
          next hz =>
            rw [if_neg hz]
            split at h
            next => cases h
            next =>
              split at h
              next => cases h
              next => exact h

end MeuOS.Ld
