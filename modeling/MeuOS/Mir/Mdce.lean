import MeuOS.Mir.Agree

namespace MeuOS.Mir

open MeuOS.Lib List Bool

/-!
# Dead code elimination — `src/mir/mdce.c`

`mdce` drops every instruction that defines a temp without uses and whose opcode is not
on the pass's list of side-effecting opcodes, rebuilding the use chains and repeating
until a round drops nothing.

The list has `MOP_VASTART` but not `MOP_VAARG`, and no entry for `MOP_EXTRA` (nor for
`MOP_ARG`, which defines nothing in code the front end builds).  So the pass keeps the
meaning of a run exactly as long as the run goes through no block that loses such an
instruction (`mdce_meaning_iff`).  Which instructions go is said on the input function:
those whose result is `Useless` (`mdce_drops_iff`).
-/

/-! ### The pass -/

/-- The pass's closed list of side-effecting opcodes. -/
def mdceSideEffect : MOP → Bool
  | .store | .call | .alloca | .vastart | .salloc | .par => true
  | _ => false

/-- The condition under which `mdce_block` drops an instruction. -/
def mdceDead (fn : MFn) (us : Uses) (i : MIns) : Bool :=
  match i.dst with
  | some d => (us d).isEmpty && !mdceSideEffect i.op && fn.isTemp d
  | Option.none => false

/-- `mdce_block`: the instructions that stay. -/
def mdceBlock (fn : MFn) (us : Uses) (b : MBlk) : MBlk :=
  { b with ins := b.ins.filter fun i => !mdceDead fn us i }

/-- One round of `mdce`: rebuild the chains, then filter every block. -/
def mdceRound (fn : MFn) : MFn := fn.mapBlk (mdceBlock fn (buildUses fn))

/-- The number of instructions of a function. -/
def MFn.nins (fn : MFn) : Nat := (fn.blk.map fun b => b.ins.length).sum

/-- The loop of `mdce`, cut off after `fuel` rounds; it stops when a round removes
    nothing (`round == 0`).  Returns the function and the number of removed instructions. -/
def mdceLoop : Nat → MFn → MFn × Nat
  | 0, fn => (fn, 0)
  | fuel + 1, fn =>
    let fn' := mdceRound fn
    let round := fn.nins - fn'.nins
    if round = 0 then (fn', 0)
    else
      let r := mdceLoop fuel fn'
      (r.1, round + r.2)

/-- `mdce`.  Each round but the last removes an instruction, so `nins + 1` rounds are enough
    (`mdceLoop_stable`). -/
def mdce (fn : MFn) : MFn × Nat := mdceLoop (fn.nins + 1) fn

/-! ### Termination -/

/-- No instruction is left that a further round would drop. -/
def MdceDone (fn : MFn) : Prop :=
  ∀ b ∈ fn.blk, ∀ i ∈ b.ins, mdceDead fn (buildUses fn) i = false

theorem mdceBlock_length (fn : MFn) (us : Uses) (b : MBlk) :
    (mdceBlock fn us b).ins.length ≤ b.ins.length := length_filter_le ..

variable {fn fn' : MFn} {b : BlkId} {blk : MBlk} {i : MIns} {d : ValId} {dead : MIns → Bool}
  {H : Host}

/-- Mapping the blocks to shorter ones: the count drops with the first shorter block. -/
theorem sum_length_map {f : MBlk → MBlk} (hf : ∀ b, (f b).ins.length ≤ b.ins.length) :
    ∀ l : List MBlk,
      ((l.map f).map fun b => b.ins.length).sum ≤ (l.map fun b => b.ins.length).sum ∧
      ((l.map fun b => b.ins.length).sum ≤ ((l.map f).map fun b => b.ins.length).sum →
        ∀ b ∈ l, b.ins.length ≤ (f b).ins.length) := by
  intro l
  induction l with
  | nil => exact ⟨Nat.le_refl _, fun _ b hb => absurd hb not_mem_nil⟩
  | cons b l ih =>
    have hb := hf b
    simp only [map_cons, sum_cons, mem_cons, forall_eq_or_imp]
    exact ⟨by omega, fun h => ⟨by omega, ih.2 (by omega)⟩⟩

theorem mdceRound_nins (fn : MFn) : (mdceRound fn).nins ≤ fn.nins :=
  (sum_length_map (mdceBlock_length fn _) fn.blk).1

theorem mdceDone_of_nins (h : fn.nins ≤ (mdceRound fn).nins) : MdceDone fn := by
  intro b hb i hi
  have hlen := (sum_length_map (mdceBlock_length fn _) fn.blk).2 h b hb
  have hkeep : b.ins.filter (fun i => !mdceDead fn (buildUses fn) i) = b.ins :=
    List.Sublist.eq_of_length_le filter_sublist hlen
  simpa using (filter_eq_self.mp hkeep) i hi

theorem mdceRound_of_done (h : MdceDone fn) : mdceRound fn = fn := by
  have hb : ∀ b ∈ fn.blk, mdceBlock fn (buildUses fn) b = b := by
    intro b hb
    have hkeep : b.ins.filter (fun i => !mdceDead fn (buildUses fn) i) = b.ins :=
      filter_eq_self.mpr fun i hi => by simp [h b hb i hi]
    simp only [mdceBlock, hkeep]
  simp only [mdceRound, MFn.mapBlk, map_congr_left hb, map_id']

/-- With more rounds than instructions the loop ends by itself, on a function with nothing
    left to remove. -/
theorem mdceLoop_done (fuel : Nat) :
    ∀ fn : MFn, fn.nins < fuel → MdceDone (mdceLoop fuel fn).1 := by
  induction fuel with
  | zero => intro fn h; exact absurd h (Nat.not_lt_zero _)
  | succ fuel ih =>
    intro fn h
    simp only [mdceLoop]
    split
    · rename_i hround
      have hdone : MdceDone fn := mdceDone_of_nins (by omega)
      rw [mdceRound_of_done hdone]
      exact hdone
    · rename_i hround
      have := mdceRound_nins fn
      exact ih (mdceRound fn) (by omega)

/-- The rounds left over do not matter: the loop's result is that of the loop in C. -/
theorem mdceLoop_stable (fuel : Nat) : ∀ (k : Nat) (fn : MFn), fn.nins < fuel →
    mdceLoop (fuel + k) fn = mdceLoop fuel fn := by
  induction fuel with
  | zero => intro k fn h; exact absurd h (Nat.not_lt_zero _)
  | succ fuel ih =>
    intro k fn h
    rw [show fuel + 1 + k = (fuel + k) + 1 by omega]
    simp only [mdceLoop]
    split
    · rfl
    · rename_i hround
      have := mdceRound_nins fn
      rw [ih k (mdceRound fn) (by omega)]

/-! ### What the pass leaves of a function -/

/-- No operand of the function reads the temp `d`. -/
def MFn.Unread (fn : MFn) (d : ValId) : Prop := fn.isTemp d = true ∧ buildUses fn d = []

theorem MFn.Unread.ins (hb : fn.blk[b]? = some blk) (hi : i ∈ blk.ins) : i.Avoids fn.Unread := by
  obtain ⟨k, hk⟩ := getElem?_of_mem hi
  constructor
  · intro v hs hv
    have := use_of_src0 hv.1 hb hk hs
    simp [hv.2] at this
  · intro v hs hv
    have := use_of_src1 hv.1 hb hk hs
    simp [hv.2] at this

theorem MFn.Unread.term (hb : fn.blk[b]? = some blk) :
    blk.term.src0.Avoids fn.Unread := by
  intro v hs hv
  have := use_of_term hv.1 hb hs
  simp [hv.2] at this

theorem MFn.Unread.phi (hb : fn.blk[b]? = some blk) :
    ∀ q ∈ blk.phi, ∀ a ∈ q.args, ¬ fn.Unread a.1 := by
  intro q hq a ha hv
  obtain ⟨k, hk⟩ := getElem?_of_mem hq
  obtain ⟨j, hj⟩ := getElem?_of_mem ha
  have := use_of_phi (q := a.2) hv.1 hb hk hj
  simp [hv.2] at this

/-- A temp whose value only feeds instructions that can go as well. -/
inductive Useless (fn : MFn) : ValId → Prop
  | mk {d : ValId} (temp : fn.isTemp d = true)
      (ins : ∀ blk ∈ fn.blk, ∀ i ∈ blk.ins, i.src0 = .val d ∨ i.src1 = .val d →
        i.dst.isSome ∧ mdceSideEffect i.op = false)
      (dst : ∀ blk ∈ fn.blk, ∀ i ∈ blk.ins, i.src0 = .val d ∨ i.src1 = .val d →
        ∀ e, i.dst = some e → Useless fn e)
      (term : ∀ blk ∈ fn.blk, blk.term.src0 ≠ .val d)
      (phi : ∀ blk ∈ fn.blk, ∀ q ∈ blk.phi, ∀ a ∈ q.args, a.1 ≠ d) : Useless fn d

/-- An instruction that computes a useless temp and is not on the pass's list. -/
def MdceDrops (fn : MFn) (i : MIns) : Prop :=
  ∃ d, i.dst = some d ∧ mdceSideEffect i.op = false ∧ Useless fn d

/-- `fn'` is `fn` without its `dead` instructions: each defines a temp that `fn'` does
    not read, and none is on the pass's list. -/
structure Stripped (fn fn' : MFn) (dead : MIns → Bool) : Prop where
  eq : fn' = fn.mapBlk fun b => { b with ins := b.ins.filter fun i => !dead i }
  unread : ∀ i, dead i = true → ∃ d, i.dst = some d ∧ fn'.Unread d ∧ mdceSideEffect i.op = false
  drops : ∀ i, dead i = true → MdceDrops fn i

/-- Removing instructions leaves no new reads. -/
theorem unread_of_filter {keep : MIns → Bool} (h : fn.Unread d) :
    (fn.mapBlk fun b => { b with ins := b.ins.filter keep }).Unread d := by
  refine ⟨h.1, eq_nil_iff_forall_not_mem.mpr fun u hu => ?_⟩
  obtain ⟨_, b, blk', hb', hu⟩ := (mem_buildUses _ _ _).mp hu
  rw [MFn.mapBlk_getElem?] at hb'
  obtain ⟨blk, hb, rfl⟩ := Option.map_eq_some_iff.mp hb'
  rcases (mem_buildUsesBlock _ _ _ _).mp hu with ⟨k, i, hk, hi⟩ | ⟨_, ht⟩ | ⟨k, q, j, hk, _, p, hj⟩
  · have hmem : i ∈ blk.ins := mem_of_mem_filter (mem_of_getElem? hk)
    rcases hi with ⟨_, hi⟩ | ⟨_, hi⟩
    · exact (MFn.Unread.ins hb hmem).1 d hi h
    · exact (MFn.Unread.ins hb hmem).2 d hi h
  · exact MFn.Unread.term hb d ht h
  · exact MFn.Unread.phi hb q (mem_of_getElem? hk) _ (mem_of_getElem? hj) h

theorem mdceDead_eq_true {us : Uses} (h : mdceDead fn us i = true) :
    ∃ d, i.dst = some d ∧ us d = [] ∧ mdceSideEffect i.op = false ∧ fn.isTemp d = true := by
  unfold mdceDead at h
  split at h
  · rename_i d hd
    simp only [and_eq_true, List.isEmpty_iff, not_eq_true'] at h
    exact ⟨d, hd, h.1.1, h.1.2, h.2⟩
  · cases h

/-- A temp nobody reads is useless. -/
theorem MFn.Unread.useless (h : fn.Unread d) : Useless fn d := by
  have hins : ∀ blk ∈ fn.blk, ∀ i ∈ blk.ins, ¬ (i.src0 = .val d ∨ i.src1 = .val d) := by
    intro blk hb i hi hr
    obtain ⟨b, hb⟩ := getElem?_of_mem hb
    rcases hr with hr | hr
    · exact (MFn.Unread.ins hb hi).1 d hr h
    · exact (MFn.Unread.ins hb hi).2 d hr h
  refine .mk h.1 (fun blk hb i hi hr => absurd hr (hins blk hb i hi))
    (fun blk hb i hi hr => absurd hr (hins blk hb i hi)) (fun blk hb ht => ?_)
    (fun blk hb q hq a ha he => ?_) <;> obtain ⟨b, hb⟩ := getElem?_of_mem hb
  · exact MFn.Unread.term hb d ht h
  · exact MFn.Unread.phi hb q hq a ha (he ▸ h)

/-- What is useless without the dead instructions was useless with them. -/
theorem Useless.of_filter (hdead : ∀ i, dead i = true → MdceDrops fn i)
    (h : Useless (fn.mapBlk fun b => { b with ins := b.ins.filter fun i => !dead i }) d) :
    Useless fn d := by
  induction h with
  | @mk d temp ins _ term phi ih =>
    have hmem : ∀ blk ∈ fn.blk, { blk with ins := blk.ins.filter fun i => !dead i } ∈
        (fn.mapBlk fun b => { b with ins := b.ins.filter fun i => !dead i }).blk :=
      fun blk hb => mem_map.mpr ⟨blk, hb, rfl⟩
    have hread : ∀ blk ∈ fn.blk, ∀ i ∈ blk.ins, i.src0 = .val d ∨ i.src1 = .val d →
        MdceDrops fn i := by
      intro blk hb i hi hr
      cases hd : dead i with
      | true => exact hdead i hd
      | false =>
        have hi' : i ∈ blk.ins.filter fun i => !dead i := mem_filter.mpr ⟨hi, by simp [hd]⟩
        obtain ⟨he, hs⟩ := ins _ (hmem blk hb) i hi' hr
        obtain ⟨e, he⟩ := Option.isSome_iff_exists.mp he
        exact ⟨e, he, hs, ih _ (hmem blk hb) i hi' hr e he⟩
    have hterm := fun blk hb => term _ (hmem blk hb)
    have hphi := fun blk hb => phi _ (hmem blk hb)
    refine .mk temp (fun blk hb i hi hr => ?_) (fun blk hb i hi hr e he => ?_) hterm hphi
    · obtain ⟨e, he, hs, -⟩ := hread blk hb i hi hr
      exact ⟨by rw [he]; rfl, hs⟩
    · obtain ⟨e', he', -, hu⟩ := hread blk hb i hi hr
      rw [he] at he'
      exact Option.some.inj he' ▸ hu

/-- One round strips a function. -/
theorem mdceRound_stripped (fn : MFn) :
    Stripped fn (mdceRound fn) (mdceDead fn (buildUses fn)) := by
  refine ⟨rfl, fun i hi => ?_, fun i hi => ?_⟩
  · obtain ⟨d, hd, hu, hs, ht⟩ := mdceDead_eq_true hi
    exact ⟨d, hd, unread_of_filter ⟨ht, hu⟩, hs⟩
  · obtain ⟨d, hd, hu, hs, ht⟩ := mdceDead_eq_true hi
    exact ⟨d, hd, hs, MFn.Unread.useless ⟨ht, hu⟩⟩

theorem Stripped.trans {fn1 fn2 : MFn} {dead1 dead2 : MIns → Bool}
    (h1 : Stripped fn fn1 dead1) (h2 : Stripped fn1 fn2 dead2) :
    Stripped fn fn2 fun i => dead1 i || dead2 i := by
  refine ⟨?_, fun i hi => ?_, fun i hi => ?_⟩
  · rw [h2.eq, h1.eq]
    simp only [MFn.mapBlk, map_map, Function.comp_def, filter_filter, Bool.not_or]
    simp only [Bool.and_comm]
  · rcases or_eq_true _ _ ▸ hi with hi | hi
    · obtain ⟨d, hd, hu, hs⟩ := h1.unread i hi
      refine ⟨d, hd, ?_, hs⟩
      rw [h2.eq]
      exact unread_of_filter hu
    · exact h2.unread i hi
  · rcases or_eq_true _ _ ▸ hi with hi | hi
    · exact h1.drops i hi
    · obtain ⟨d, hd, hs, hu⟩ := h2.drops i hi
      rw [h1.eq] at hu
      exact ⟨d, hd, hs, hu.of_filter h1.drops⟩

/-- The whole loop strips a function. -/
theorem mdceLoop_stripped (fuel : Nat) :
    ∀ fn : MFn, ∃ dead, Stripped fn (mdceLoop fuel fn).1 dead := by
  induction fuel with
  | zero =>
    intro fn
    exact ⟨fun _ => false, by simp [mdceLoop, MFn.mapBlk], fun i hi => (false_ne_true hi).elim,
      fun i hi => (false_ne_true hi).elim⟩
  | succ fuel ih =>
    intro fn
    simp only [mdceLoop]
    split
    · exact ⟨_, mdceRound_stripped fn⟩
    · obtain ⟨dead, hd⟩ := ih (mdceRound fn)
      exact ⟨_, (mdceRound_stripped fn).trans hd⟩

/-- In the final function every instruction that defines a useless temp is on the pass's
    list. -/
theorem Useless.gone (h : Stripped fn fn' dead) (hdone : MdceDone fn') (hu : Useless fn d) :
    ∀ blk ∈ fn'.blk, ∀ i ∈ blk.ins, i.dst = some d → mdceSideEffect i.op = true := by
  induction hu with
  | @mk d temp ins _ term phi ih =>
    have hback : ∀ blk' ∈ fn'.blk, ∃ blk ∈ fn.blk,
        blk' = { blk with ins := blk.ins.filter fun i => !dead i } := by
      intro blk' hb'
      rw [h.eq] at hb'
      obtain ⟨blk, hb, he⟩ := mem_map.mp hb'
      exact ⟨blk, hb, he.symm⟩
    -- the reads of `d` are gone by induction, so a last round would drop its definition
    have hno : ∀ blk' ∈ fn'.blk, ∀ i ∈ blk'.ins, ¬ (i.src0 = .val d ∨ i.src1 = .val d) := by
      intro blk' hb' i hi hr
      obtain ⟨blk, hb, rfl⟩ := hback blk' hb'
      have hi0 := mem_of_mem_filter hi
      obtain ⟨he, hs⟩ := ins blk hb i hi0 hr
      obtain ⟨e, he⟩ := Option.isSome_iff_exists.mp he
      rw [ih blk hb i hi0 hr e he _ hb' i hi he] at hs
      cases hs
    have hunread : buildUses fn' d = [] := by
      refine eq_nil_iff_forall_not_mem.mpr fun u hu => ?_
      obtain ⟨_, b, blk', hb', hu⟩ := (mem_buildUses _ _ _).mp hu
      have hmem := mem_of_getElem? hb'
      obtain ⟨blk, hb, hblk⟩ := hback blk' hmem
      rcases (mem_buildUsesBlock _ _ _ _).mp hu with
        ⟨k, i, hk, hi⟩ | ⟨_, ht⟩ | ⟨k, q, j, hk, _, p, hj⟩
      · exact hno blk' hmem i (mem_of_getElem? hk) (hi.imp And.right And.right)
      · rw [hblk] at ht
        exact term blk hb ht
      · rw [hblk] at hk
        exact phi blk hb q (mem_of_getElem? hk) _ (mem_of_getElem? hj) rfl
    intro blk' hb' i hi hd
    have htemp : fn'.isTemp d = true := by rw [h.eq]; exact temp
    have hkept := hdone blk' hb' i hi
    simp only [mdceDead, hd, hunread, htemp, isEmpty_nil, Bool.true_and, Bool.and_true,
      Bool.not_eq_false'] at hkept
    exact hkept

/-- **What `mdce` removes.** An instruction stays unless it computes a useless temp and is
    not on the pass's list. -/
theorem mdce_drops_iff (h : Stripped fn fn' dead)
    (hdone : MdceDone fn') (hb : blk ∈ fn.blk) (hi : i ∈ blk.ins) :
    dead i = true ↔ MdceDrops fn i := by
  refine ⟨h.drops i, fun hdrop => ?_⟩
  obtain ⟨d, hd, hs, hu⟩ := hdrop
  by_contra hne
  have hb' : { blk with ins := blk.ins.filter fun i => !dead i } ∈ fn'.blk := by
    rw [h.eq]
    exact mem_map.mpr ⟨blk, hb, rfl⟩
  have hi' : i ∈ blk.ins.filter fun i => !dead i := mem_filter.mpr ⟨hi, by simp [hne]⟩
  rw [hu.gone h hdone _ hb' i hi' hd] at hs
  cases hs

/-! ### Running stripped code -/

/-- The ops `mdce` takes for pure that act on the outside world. -/
def mdceMissed : MOP → Bool
  | .vaarg | .extra | .arg => true
  | _ => false

/-- No `MOP_VAARG`, `MOP_EXTRA` or `MOP_ARG` of block `b` computes a useless temp. -/
def MdceKeeps (fn : MFn) (b : BlkId) : Prop :=
  ∀ blk, fn.blk[b]? = some blk → ∀ i ∈ blk.ins, mdceMissed i.op = true → ¬ MdceDrops fn i

theorem cls_of_dead {op : MOP} (hs : mdceSideEffect op = false) (hm : mdceMissed op = false) :
    op.cls = .pure ∨ op.cls = .load ∨ op.cls = .inert := by
  cases op <;> first | cases hs; done | cases hm; done | decide

theorem runIns_filter {M : Mode} {D : ValId → Prop}
    (hdead : ∀ i, dead i = true → ∃ d, i.dst = some d ∧ D d ∧ mdceSideEffect i.op = false)
    (is : List MIns) : ∀ {st st' st1 : State}, StateAgree D st st' →
      (∀ i ∈ is, dead i = false → i.Avoids D) → (∀ i ∈ is, dead i = true → mdceMissed i.op = false) →
      runIns H M fn is st = some st1 →
      ∃ st1', runIns H M fn (is.filter fun i => !dead i) st' = some st1' ∧ StateAgree D st1 st1' := by
  induction is with
  | nil =>
    intro st st' st1 h _ _ hs
    cases hs
    exact ⟨st', rfl, h⟩
  | cons i is ih =>
    intro st st' st1 h hread hmiss hs
    have hread' := fun j hj => hread j (mem_cons_of_mem i hj)
    have hmiss' := fun j hj => hmiss j (mem_cons_of_mem i hj)
    obtain ⟨st2, h2, hs⟩ := runIns_cons.mp hs
    cases hd : dead i with
    | true =>
      -- the removed instruction writes a temp of `D` and leaves the world alone
      obtain ⟨d, hdst, hD, hside⟩ := hdead i hd
      obtain ⟨⟨v, w'⟩, hr, rfl⟩ := Option.map_eq_some_iff.mp h2
      have hw := effect_world (cls_of_dead hside (hmiss i (mem_cons_self ..) hd)) hr
      have h' : StateAgree D ⟨setReg fn st.regs i.dst v, w'⟩ st' := by
        refine ⟨?_, h.w.trans hw.symm⟩
        rw [hdst]
        exact h.regs.setReg_left fn hD v
      simpa only [filter_cons, hd, Bool.not_true, Bool.false_eq_true, if_false] using
        ih h' hread' hmiss' hs
    | false =>
      obtain ⟨st2', h2', h'⟩ := stepIns_agree H M fn h (hread i (mem_cons_self ..) hd) h2
      obtain ⟨st1', h1', hag⟩ := ih h' hread' hmiss' hs
      refine ⟨st1', ?_, hag⟩
      simp only [filter_cons, hd, Bool.not_false, if_true]
      exact runIns_cons.mpr ⟨st2', h2', h1'⟩

/-- A block that loses no missed op runs as before, up to temps nobody reads. -/
theorem Stripped.sim (h : Stripped fn fn' dead) (H : Host)
    (M : Mode) : SimOn (fun c => MdceKeeps fn c.b) (runBlk H M fn) (runBlk H M fn')
      (CfgAgree fn'.Unread) Eq := by
  intro c c' s hk hc hs
  have hval : fn'.val = fn.val := by rw [h.eq]; rfl
  have hret : fn'.rettype = fn.rettype := by rw [h.eq]; rfl
  obtain ⟨blk, st1, st2, hb, hst1, hst2, hs⟩ := runBlk_eq_some.mp hs
  have hb' : fn'.blk[c.b]? = some { blk with ins := blk.ins.filter fun i => !dead i } := by
    rw [h.eq, MFn.mapBlk_getElem?, hb]
    rfl
  obtain ⟨st1', hst1', hag1⟩ := enterBlk_agree H fn hc.st (MFn.Unread.phi hb') hst1
  have hread : ∀ i ∈ blk.ins, dead i = false → i.Avoids fn'.Unread := fun i hi hd =>
    MFn.Unread.ins hb' (mem_filter.mpr ⟨hi, by simp [hd]⟩)
  have hmiss : ∀ i ∈ blk.ins, dead i = true → mdceMissed i.op = false := by
    intro i hi hd
    by_contra hm
    exact hk blk hb i hi (by simpa using hm) (h.drops i hd)
  obtain ⟨st2', hst2', hag2⟩ := runIns_filter h.unread blk.ins hag1 hread hmiss hst2
  obtain ⟨s', hs', hrel⟩ := runTerm_agree H fn hag2 (MFn.Unread.term hb') hs
  refine ⟨s', runBlk_eq_some.mpr ⟨_, st1', st2', by rw [hc.b]; exact hb', ?_, ?_, ?_⟩, hrel⟩
  · rw [hc.prev, enterBlk_congr hval]
    exact hst1'
  · rw [runIns_congr hval]
    exact hst2'
  · rw [hc.b, runTerm_congr hval hret]
    exact hs'

/-! ### Exactly when the meaning is kept -/

/-- How much an op adds to the trace and the pending arguments. -/
def MOP.weight (op : MOP) : Nat :=
  match op.cls with
  | .store => 1
  | .arg => 2
  | .ext => 3
  | _ => 0

/-- The size of what a run has shown so far. -/
def World.weight (w : World) : Nat :=
  w.args.length + (w.trace.map fun
    | .store .. => 1
    | .ext _ _ _ xs => 1 + xs.length).sum

/-- Every store, argument and opaque op is seen, whatever its operands. -/
theorem effect_weight {x y : Opnd} {w w' : World}
    {v : Option (BitVec 64)} (h : effect H .plain fn i x y w = some (v, w')) :
    w'.weight = w.weight + i.op.weight := by
  unfold effect at h
  unfold MOP.weight
  cases hc : i.op.cls <;> simp only [hc, extOk, accessOk, Mode.plain, if_true] at h ⊢
  case pure =>
    obtain ⟨_, _, hr⟩ := Option.map_eq_some_iff.mp h
    rw [← (Prod.mk.inj hr).2, Nat.add_zero]
  case ext =>
    cases h
    by_cases hcall : i.op = .call <;>
      simp [World.weight, extInputs, hcall] <;> omega
  case store =>
    cases h
    cases y.via <;> simp [World.weight] <;> omega
  case alloca =>
    split at h <;> obtain ⟨-, rfl⟩ := Prod.mk.inj (Option.some.inj h) <;> rfl
  case arg =>
    cases h
    simp [World.weight]
    omega
  all_goals
    cases h
    rfl

/-- A block's instructions add their weights. -/
theorem runIns_weight (is : List MIns) : ∀ {st st1 : State},
    runIns H .plain fn is st = some st1 →
      st1.w.weight = st.w.weight + (is.map fun i => i.op.weight).sum := by
  induction is with
  | nil =>
    intro st st1 h
    cases h
    rfl
  | cons i is ih =>
    intro st st1 h
    obtain ⟨st2, h2, h⟩ := runIns_cons.mp h
    obtain ⟨⟨v, w'⟩, hr, rfl⟩ := Option.map_eq_some_iff.mp h2
    rw [ih h, map_cons, sum_cons, effect_weight hr, Nat.add_assoc]

theorem runBlk_weight {c : Cfg} {s : Cfg ⊕ Done}
    (hb : fn.blk[c.b]? = some blk) (h : runBlk H .plain fn c = some s) :
    (outWorld s).weight = c.st.w.weight + (blk.ins.map fun i => i.op.weight).sum := by
  obtain ⟨blk', st1, st2, hb', h1, h2, h⟩ := runBlk_eq_some.mp h
  obtain rfl : blk = blk' := Option.some.inj (hb.symm.trans hb')
  rw [runTerm_world h, runIns_weight _ h2, enterBlk_world h1]

/-- The instructions that stay weigh less when one with a weight goes. -/
theorem weight_filter_lt (keep : MIns → Bool) {is : List MIns} (hi : i ∈ is)
    (hk : keep i = false) (hw : 0 < i.op.weight) :
    ((is.filter keep).map fun i => i.op.weight).sum < (is.map fun i => i.op.weight).sum := by
  have hle : ∀ l : List MIns,
      ((l.filter keep).map fun i => i.op.weight).sum ≤ (l.map fun i => i.op.weight).sum := by
    intro l
    induction l with
    | nil => exact Nat.le_refl _
    | cons j l ih =>
      cases hj : keep j <;> simp only [filter_cons, hj, false_eq_true, if_false, if_true,
        map_cons, sum_cons] <;> omega
  induction is with
  | nil => cases hi
  | cons j is ih =>
    rcases mem_cons.mp hi with rfl | hi
    · have := hle is
      simp only [filter_cons, hk, false_eq_true, if_false, map_cons, sum_cons]
      omega
    · have := ih hi
      cases hj : keep j <;> simp only [filter_cons, hj, false_eq_true, if_false, if_true,
        map_cons, sum_cons] <;> omega

/-- A block that loses a missed op ends in another world. -/
theorem Stripped.tells (h : Stripped fn fn' dead)
    (hdone : MdceDone fn') {c c' : Cfg} {s s' : Cfg ⊕ Done} (hk : ¬ MdceKeeps fn c.b)
    (hc : CfgAgree fn'.Unread c c') (hs : runBlk H .plain fn c = some s)
    (hs' : runBlk H .plain fn' c' = some s') : ¬ LiftRel SameWorld Eq s s' := by
  intro hrel
  unfold MdceKeeps at hk
  push Not at hk
  obtain ⟨blk, hb, i, hi, hm, hdrop⟩ := hk
  have hdead := (mdce_drops_iff h hdone (mem_of_getElem? hb) hi).mpr hdrop
  have hb' : fn'.blk[c'.b]? = some { blk with ins := blk.ins.filter fun i => !dead i } := by
    rw [hc.b, h.eq, MFn.mapBlk_getElem?, hb]
    rfl
  have hw : 0 < i.op.weight := by
    cases hop : i.op <;> rw [hop] at hm <;> first | cases hm; done | decide
  have hlt := weight_filter_lt (fun i => !dead i) hi (by simp [hdead]) hw
  have h1 := runBlk_weight hb hs
  have h2 := runBlk_weight hb' hs'
  rw [outWorld_eq hrel, hc.st.w] at h2
  dsimp only at h2
  omega

/-- **`mdce`.** A run keeps its blocks, stores, calls, opaque ops, memory and result exactly
    when no block it completes has a `MOP_VAARG`, `MOP_EXTRA` or `MOP_ARG` that computes a
    useless temp; the loop ends in every case, on a function without removable
    instructions. -/
theorem mdce_meaning_iff (H : Host) (fn : MFn) (n : Nat) (st : State) :
    (Matches (runBlk H .plain fn) (runBlk H .plain (mdce fn).1) SameWorld Eq n
        (fn.entry st) ((mdce fn).1.entry st) ∧
      MdceDone (mdce fn).1 ∧ ∀ k, mdceLoop (fn.nins + 1 + k) fn = mdce fn) ↔
    Along (runBlk H .plain fn) (fun c => MdceKeeps fn c.b) n (fn.entry st) := by
  obtain ⟨dead, hd⟩ := mdceLoop_stripped (fn.nins + 1) fn
  have hdone : MdceDone (mdce fn).1 := mdceLoop_done _ fn (Nat.lt_succ_self _)
  have hentry : CfgAgree (mdce fn).1.Unread (fn.entry st) ((mdce fn).1.entry st) := by
    refine ⟨?_, rfl, StateAgree.refl _ st⟩
    rw [mdce, hd.eq]
    rfl
  have hiff := (hd.sim H .plain).matches_iff (fun _ _ h => h.sameWorld) (fun _ _ h => h)
    (fun _ _ _ _ hk hc hs hs' => hd.tells hdone hk hc hs hs') (n := n) hentry
  exact ⟨fun h => hiff.mp h.1, fun h => ⟨hiff.mpr h, hdone,
    fun k => mdceLoop_stable _ k fn (Nat.lt_succ_self _)⟩⟩

/-- A `va_list` of one byte: `va_arg` returns the byte and steps it. -/
def Ext.vaArgByte : Ext where
  run xs m := ((m (xs.headD 0)).setWidth 64,
    fun a => if a = xs.headD 0 then m a + 1 else m a)
  touch xs _ a := a = xs.headD 0
  frame xs m a h := if_neg (of_decide_eq_false h)
  locality xs m m' h := by
    have hm : m (xs.headD 0) = m' (xs.headD 0) := h _ (decide_eq_true rfl)
    refine ⟨congrArg (fun b => b.setWidth 64) hm.symm, rfl, fun a ha => ?_⟩
    obtain rfl : a = xs.headD 0 := of_decide_eq_true ha
    simp only [hm]

/-- `int f(va_list ap) { va_arg(ap, int); return va_arg(ap, int); }` -/
def skipArgFn : MFn where
  blk := [{ ins := [⟨.par, .ptr, some 0, .none, .none, Option.none, 0⟩,
                    ⟨.vaarg, .i32, some 1, .val 0, .none, Option.none, 0⟩,
                    ⟨.vaarg, .i32, some 2, .val 0, .none, Option.none, 0⟩]
            term := ⟨.ret, .val 2⟩ }]
  val := [⟨.temp, .ptr, false, Option.none, "", some 0, true⟩,
          ⟨.temp, .i32, false, Option.none, "", some 0, true⟩,
          ⟨.temp, .i32, false, Option.none, "", some 0, true⟩]
  rettype := .i32

/-- The second argument is returned before the pass, the first one after it. -/
theorem mdce_drops_vaarg :
    ¬ Matches (runBlk { Host.still with ext := fun _ _ _ => .vaArgByte } .plain skipArgFn)
      (runBlk { Host.still with ext := fun _ _ _ => .vaArgByte } .plain (mdce skipArgFn).1)
      SameWorld Eq 1 (skipArgFn.entry .zero) ((mdce skipArgFn).1.entry .zero) := by
  intro h
  have h1 := retVal_of_matches h (fun _ _ h => h ▸ rfl) (v := 1) (by decide)
  exact absurd h1 (by decide)

end MeuOS.Mir
