import MeuOS.Mir.Ir

namespace MeuOS.Mir

open List

/-!
# Use chains — `build_uses` of `src/mir/passes.c`

`build_uses` records, for every `MV_TEMP`, the operand positions that read it:
`src[0]`/`src[1]` of the instructions of a block, then the block's terminator, then
the arguments of its phis, block after block along `fn->link`.  A `struct MUse` is a
position (`MUse`); `buildUses fn v` is the list `v->use` right after `build_uses(fn)`.
The passes keep such lists while they rewrite the code, so they are values of their
own and not read off the current function.
-/

/-- A recorded use (`struct MUse`): operand `argn` of instruction `i` of block `b`, the
    terminator's operand, or argument `j` of the block's `k`-th phi. -/
inductive MUse
  | ins (b : BlkId) (i : Nat) (argn : Nat)
  | term (b : BlkId)
  | phi (b : BlkId) (k j : Nat)
  deriving DecidableEq, Repr, Inhabited

/-- The operand of an instruction by its number. -/
def MIns.src (i : MIns) : Nat → MRef
  | 0 => i.src0
  | 1 => i.src1
  | _ => .none

@[simp] theorem MIns.src_zero (i : MIns) : i.src 0 = i.src0 := rfl
@[simp] theorem MIns.src_one (i : MIns) : i.src 1 = i.src1 := rfl

/-- The use chains of a function: `v->use[0 .. nuse)` for every value. -/
abbrev Uses := ValId → List MUse

/-- The uses an instruction contributes. -/
def MIns.usesOf (v : ValId) (b : BlkId) (p : Nat × MIns) : List MUse :=
  (if p.2.src0 = .val v then [.ins b p.1 0] else []) ++
    (if p.2.src1 = .val v then [.ins b p.1 1] else [])

/-- The uses a phi contributes. -/
def MPhi.usesOf (v : ValId) (b : BlkId) (p : Nat × MPhi) : List MUse :=
  p.2.args.zipIdx.filterMap fun a => if a.1.1 = v then some (.phi b p.1 a.2) else Option.none

/-- `build_uses_block`, restricted to the chain of `v`. -/
def buildUsesBlock (v : ValId) (b : BlkId) (blk : MBlk) : List MUse :=
  blk.ins.zipIdx.flatMap (fun p => MIns.usesOf v b (p.2, p.1)) ++
    (if blk.term.src0 = .val v then [.term b] else []) ++
    blk.phi.zipIdx.flatMap (fun p => MPhi.usesOf v b (p.2, p.1))

/-- `build_uses`: only temps get a chain. -/
def buildUses (fn : MFn) : Uses := fun v =>
  if fn.isTemp v then
    fn.linkOrder.flatMap fun b => (fn.blk[b]?.map (buildUsesBlock v b)).getD []
  else []

/-- `used_outside` (`mfold.c`, `copy.c`): some use of `v` is a phi argument or sits in
    another block. -/
def usedOutside (fn : MFn) (us : Uses) (v : ValId) (b : BlkId) : Bool :=
  fn.isTemp v && (us v).any fun
    | .phi .. => true
    | .ins b' .. | .term b' => b' ≠ b

/-- `defined_outside` (`mfold.c`, `copy.c`), on the operand's `val` pointer. -/
def definedOutside (fn : MFn) (r : MRef) (b : BlkId) : Bool :=
  match r.val? with
  | Option.none => false
  | some v =>
    fn.isTemp v && match (fn.getVal v).defblk with
      | some d => d ≠ b
      | Option.none => (fn.getVal v).hasDef

/-! ### What the chains contain -/

theorem mem_buildUsesBlock (v : ValId) (b : BlkId) (blk : MBlk) (u : MUse) :
    u ∈ buildUsesBlock v b blk ↔
      (∃ i, ∃ inst, blk.ins[i]? = some inst ∧
        ((u = .ins b i 0 ∧ inst.src0 = .val v) ∨ (u = .ins b i 1 ∧ inst.src1 = .val v))) ∨
      (u = .term b ∧ blk.term.src0 = .val v) ∨
      (∃ k p j, blk.phi[k]? = some p ∧ u = .phi b k j ∧ ∃ q, p.args[j]? = some (v, q)) := by
  simp only [buildUsesBlock, mem_append, mem_flatMap, or_assoc]
  refine or_congr ?_ (or_congr ?_ ?_)
  · constructor
    · rintro ⟨⟨inst, i⟩, hmem, hu⟩
      rw [mem_zipIdx_iff_getElem?] at hmem
      refine ⟨i, inst, hmem, ?_⟩
      simp only [MIns.usesOf, mem_append] at hu
      rcases hu with hu | hu <;> split at hu <;> simp_all
    · rintro ⟨i, inst, hget, hu⟩
      refine ⟨(inst, i), mem_zipIdx_iff_getElem?.mpr hget, ?_⟩
      rcases hu with ⟨rfl, h⟩ | ⟨rfl, h⟩ <;> simp [MIns.usesOf, h]
  · split <;> simp_all
  · constructor
    · rintro ⟨⟨p, k⟩, hmem, hu⟩
      rw [mem_zipIdx_iff_getElem?] at hmem
      simp only [MPhi.usesOf, mem_filterMap] at hu
      obtain ⟨⟨⟨w, q⟩, j⟩, hj, hu⟩ := hu
      rw [mem_zipIdx_iff_getElem?] at hj
      split at hu
      · rename_i hw
        cases hu
        exact ⟨k, p, j, hmem, rfl, q, by rw [hj]; exact congrArg (fun x => some (x, q)) hw⟩
      · cases hu
    · rintro ⟨k, p, j, hget, rfl, q, hj⟩
      refine ⟨(p, k), mem_zipIdx_iff_getElem?.mpr hget, ?_⟩
      simp only [MPhi.usesOf, mem_filterMap]
      exact ⟨((v, q), j), mem_zipIdx_iff_getElem?.mpr hj, by simp⟩

/-- The chain of a temp holds exactly the positions that read it. -/
theorem mem_buildUses (fn : MFn) (v : ValId) (u : MUse) :
    u ∈ buildUses fn v ↔
      fn.isTemp v = true ∧ ∃ b blk, fn.blk[b]? = some blk ∧ u ∈ buildUsesBlock v b blk := by
  unfold buildUses
  split
  · rename_i h
    simp only [h, true_and, mem_flatMap]
    constructor
    · rintro ⟨b, _, hu⟩
      cases hb : fn.blk[b]? with
      | none => simp [hb] at hu
      | some blk => exact ⟨b, blk, hb, by simpa [hb] using hu⟩
    · rintro ⟨b, blk, hb, hu⟩
      have hlt : b < fn.blk.length := (List.getElem?_eq_some_iff.mp hb).1
      exact ⟨b, by simpa [MFn.linkOrder] using hlt, by simpa [hb] using hu⟩
  · rename_i h
    simp [h]

variable {fn : MFn} {b : Nat} {blk : MBlk} {v : ValId}

theorem use_of_src0 {i : Nat} {inst : MIns}
    (ht : fn.isTemp v = true) (hb : fn.blk[b]? = some blk) (hi : blk.ins[i]? = some inst)
    (hs : inst.src0 = .val v) : MUse.ins b i 0 ∈ buildUses fn v :=
  (mem_buildUses fn v _).mpr ⟨ht, b, blk, hb,
    (mem_buildUsesBlock v b blk _).mpr (.inl ⟨i, inst, hi, .inl ⟨rfl, hs⟩⟩)⟩

theorem use_of_src1 {i : Nat} {inst : MIns}
    (ht : fn.isTemp v = true) (hb : fn.blk[b]? = some blk) (hi : blk.ins[i]? = some inst)
    (hs : inst.src1 = .val v) : MUse.ins b i 1 ∈ buildUses fn v :=
  (mem_buildUses fn v _).mpr ⟨ht, b, blk, hb,
    (mem_buildUsesBlock v b blk _).mpr (.inl ⟨i, inst, hi, .inr ⟨rfl, hs⟩⟩)⟩

theorem use_of_term
    (ht : fn.isTemp v = true) (hb : fn.blk[b]? = some blk) (hs : blk.term.src0 = .val v) :
    MUse.term b ∈ buildUses fn v :=
  (mem_buildUses fn v _).mpr ⟨ht, b, blk, hb,
    (mem_buildUsesBlock v b blk _).mpr (.inr (.inl ⟨rfl, hs⟩))⟩

theorem use_of_phi {k j : Nat} {p : MPhi} {q : BlkId}
    (ht : fn.isTemp v = true) (hb : fn.blk[b]? = some blk) (hk : blk.phi[k]? = some p)
    (hj : p.args[j]? = some (v, q)) : MUse.phi b k j ∈ buildUses fn v :=
  (mem_buildUses fn v _).mpr ⟨ht, b, blk, hb,
    (mem_buildUsesBlock v b blk _).mpr (.inr (.inr ⟨k, p, j, hk, rfl, q, hj⟩))⟩

end MeuOS.Mir
