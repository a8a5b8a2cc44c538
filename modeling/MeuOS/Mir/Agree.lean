import MeuOS.Mir.Semantics

namespace MeuOS.Mir

open MeuOS.Lib Function Option

/-!
# Running the same code on registers that agree

Most passes keep most of a block's instructions, and the two runs differ only in temps
nobody reads any more.  `AgreeOff D` says that two register files agree outside `D`; code
that reads nothing in `D` does the same on both (`stepIns_agree`, `runIns_agree`,
`enterBlk_agree`, `runTerm_agree`).  The meaning of an instruction depends on the function
only through its value table (`stepIns_congr`), so the same lemmas serve a pass that changes
other instructions or blocks.
-/

/-! ### The value table is all that matters -/

section Congr

variable {fn fn' : MFn} (h : fn'.val = fn.val)
include h

theorem getVal_congr (v : ValId) : fn'.getVal v = fn.getVal v := by
  simp only [MFn.getVal, h]

theorem kind_congr (v : ValId) : fn'.kind v = fn.kind v := by
  simp only [MFn.kind, getVal_congr h]

theorem vtype_congr (v : ValId) : fn'.vtype v = fn.vtype v := by
  simp only [MFn.vtype, getVal_congr h]

theorem isTemp_congr (v : ValId) : fn'.isTemp v = fn.isTemp v := by
  simp only [MFn.isTemp, kind_congr h]

theorem valBits_congr (H : Host) (regs : ValId → BitVec 64) (v : ValId) :
    valBits H fn' regs v = valBits H fn regs v := by
  simp only [valBits, kind_congr h, getVal_congr h]

theorem opnd_congr (H : Host) (regs : ValId → BitVec 64) (r : MRef) :
    opnd H fn' regs r = opnd H fn regs r := by
  cases r <;> simp only [opnd, valBits_congr h, vtype_congr h]

theorem accessOk_congr (chk : Option (ValId → Bool)) (w : World) (via : Option ValId)
    (a : BitVec 64) (n : Nat) : accessOk fn' chk w via a n = accessOk fn chk w via a n := by
  unfold accessOk
  rw [h]

theorem extOk_congr (chk : Option (ValId → Bool)) (w : World) (e : Ext) (xs : List (BitVec 64)) :
    extOk fn' chk w e xs = extOk fn chk w e xs := by
  unfold extOk
  rw [h]

theorem effect_congr (H : Host) (M : Mode) (i : MIns) (x y : Opnd) (w : World) :
    effect H M fn' i x y w = effect H M fn i x y w := by
  unfold effect
  simp only [accessOk_congr h, extOk_congr h]

theorem setReg_congr (regs : ValId → BitVec 64) (dst : Option ValId) (v : Option (BitVec 64)) :
    setReg fn' regs dst v = setReg fn regs dst v := by
  simp only [setReg, vtype_congr h]

theorem stepIns_congr (H : Host) (M : Mode) (st : State) (i : MIns) :
    stepIns H M fn' st i = stepIns H M fn st i := by
  simp only [stepIns, opnd_congr h, effect_congr h, setReg_congr h]

theorem runIns_congr (H : Host) (M : Mode) (is : List MIns) : ∀ st : State,
    runIns H M fn' is st = runIns H M fn is st := by
  induction is with
  | nil => intro st; rfl
  | cons i is ih =>
    intro st
    simp only [runIns, stepIns_congr h]
    exact congrArg _ (funext ih)

theorem setRegs_congr (regs : ValId → BitVec 64) (l : List (ValId × BitVec 64)) :
    setRegs fn' regs l = setRegs fn regs l := by
  simp only [setRegs, setReg_congr h]

theorem enterBlk_congr (H : Host) (prev : Option BlkId) (blk : MBlk) (st : State) :
    enterBlk H fn' prev blk st = enterBlk H fn prev blk st := by
  cases prev <;> simp only [enterBlk, phiVals, valBits_congr h, setRegs_congr h]

theorem runTerm_congr (hr : fn'.rettype = fn.rettype) (H : Host) (b : BlkId) (blk : MBlk)
    (st : State) : runTerm H fn' b blk st = runTerm H fn b blk st := by
  simp only [runTerm, opnd_congr h, hr]

end Congr

variable {fn : MFn} {v : ValId} {H : Host} {M : Mode} {c c' : Cfg} {s : Cfg ⊕ Done} {i : MIns}
  {st st1 st' : State} {blk : MBlk} {regs regs' : ValId → BitVec 64} {D E : ValId → Prop}

/-- Temps are in the value table. -/
theorem isTemp_lt (h : fn.isTemp v = true) : v < fn.val.length := by
  by_contra hge
  have hd : fn.getVal v = default := by
    rw [MFn.getVal, List.getD_eq_getElem?_getD, List.getElem?_eq_none (Nat.le_of_not_lt hge)]
    rfl
  simp only [MFn.isTemp, MFn.kind, hd, decide_eq_true_eq] at h
  cases h

/-! ### The parts of a move -/

/-- A defined move goes through the phis, the instructions and the terminator of a block. -/
theorem runBlk_eq_some :
    runBlk H M fn c = some s ↔ ∃ blk st1 st2, fn.blk[c.b]? = some blk ∧
      enterBlk H fn c.prev blk c.st = some st1 ∧ runIns H M fn blk.ins st1 = some st2 ∧
      runTerm H fn c.b blk st2 = some s := by
  simp only [runBlk, bind_eq_some_iff]
  constructor
  · rintro ⟨blk, hb, st1, h1, st2, h2, h⟩
    exact ⟨blk, st1, st2, hb, h1, h2, h⟩
  · rintro ⟨blk, st1, st2, hb, h1, h2, h⟩
    exact ⟨blk, hb, st1, h1, st2, h2, h⟩

theorem runIns_cons {is : List MIns} :
    runIns H M fn (i :: is) st = some st1 ↔
      ∃ st2, stepIns H M fn st i = some st2 ∧ runIns H M fn is st2 = some st1 :=
  bind_eq_some_iff

/-- The world at the end of a move. -/
def outWorld : Cfg ⊕ Done → World
  | .inl c => c.st.w
  | .inr d => d.w

theorem runTerm_world {b : BlkId} (h : runTerm H fn b blk st = some s) : outWorld s = st.w := by
  unfold runTerm at h
  split at h
  · obtain ⟨_, _, rfl⟩ := map_eq_some_iff.mp h
    rfl
  · obtain ⟨_, _, rfl⟩ := map_eq_some_iff.mp h
    rfl
  · cases h
    rfl
  · cases h

theorem enterBlk_world {prev : Option BlkId}
    (h : enterBlk H fn prev blk st = some st1) : st1.w = st.w := by
  cases prev with
  | none =>
    cases h
    rfl
  | some p =>
    obtain ⟨_, _, rfl⟩ := map_eq_some_iff.mp h
    rfl

/-! ### Dropping the checks -/

/-! ### Ops that only compute -/

/-- Pure ops, loads and markers leave the world alone. -/
theorem effect_world {x y : Opnd} {w w' : World}
    {v : Option (BitVec 64)} (hc : i.op.cls = .pure ∨ i.op.cls = .load ∨ i.op.cls = .inert)
    (h : effect H M fn i x y w = some (v, w')) : w' = w := by
  unfold effect at h
  rcases hc with hc | hc | hc <;> simp only [hc] at h
  · obtain ⟨_, _, hr⟩ := map_eq_some_iff.mp h
    exact (Prod.mk.inj hr).2.symm
  · split at h
    · exact (Prod.mk.inj (some.inj h)).2.symm
    · cases h
  · exact (Prod.mk.inj (some.inj h)).2.symm

theorem pureVal_copy (fp : FpOps) (dt : MType) (x y : Opnd) :
    pureVal fp .copy dt x y = some (low dt.bits x.bits) := rfl

theorem opnd_temp (H : Host)
    (h : fn.isTemp v = true) : opnd H fn regs (.val v) = ⟨regs v, fn.vtype v, some v⟩ := by
  have hk : fn.kind v = .temp := by simpa [MFn.isTemp] using h
  simp only [opnd, valBits, hk]

theorem opnd_con (H : Host) (fn : MFn) (regs : ValId → BitVec 64) (c : MConst) :
    opnd H fn regs (.con c) = ⟨constBits H c, c.type, none⟩ := rfl

theorem opnd_mconstInt (H : Host) (fn : MFn) (regs : ValId → BitVec 64) (t : MType)
    (n : BitVec 64) : opnd H fn regs (.con (mconstInt t n)) = ⟨n, t, none⟩ := rfl

theorem setReg_of_ne (fn : MFn) (regs : ValId → BitVec 64) {dst : Option ValId}
    (hv : dst ≠ some v) (x : Option (BitVec 64)) : setReg fn regs dst x v = regs v := by
  cases dst with
  | none => rfl
  | some d =>
    cases x with
    | none => rfl
    | some x => exact update_of_ne (fun e => hv (congrArg some e.symm)) _ _

theorem stepIns_regs (h : stepIns H M fn st i = some st1) (hv : i.dst ≠ some v) :
    st1.regs v = st.regs v := by
  obtain ⟨r, -, rfl⟩ := map_eq_some_iff.mp h
  exact setReg_of_ne fn st.regs hv r.1

/-- An operand that an instruction does not define keeps its value. -/
theorem stepIns_opnd (h : stepIns H M fn st i = some st1) {r : MRef}
    (hr : ∀ v, fn.isTemp v = true → r = .val v → i.dst ≠ some v) :
    opnd H fn st1.regs r = opnd H fn st.regs r := by
  cases r with
  | none => rfl
  | con c => rfl
  | val v =>
    simp only [opnd, valBits]
    split
    case h_3 hk => rw [stepIns_regs h (hr v (decide_eq_true hk) rfl)]
    all_goals rfl

theorem stepIns_pure (hc : i.op.cls = .pure) :
    stepIns H M fn st i = some st1 ↔ ∃ v,
      pureVal H.fp i.op i.dtype (opnd H fn st.regs i.src0) (opnd H fn st.regs i.src1) = some v ∧
      st1 = ⟨setReg fn st.regs i.dst (some v), st.w⟩ := by
  simp only [stepIns, effect, hc, map_map, map_eq_some_iff, comp_apply]
  exact exists_congr fun v => and_congr_right fun _ => eq_comm

theorem runIns_append (is js : List MIns) : ∀ {st st2 : State},
    runIns H M fn (is ++ js) st = some st2 ↔
      ∃ st1, runIns H M fn is st = some st1 ∧ runIns H M fn js st1 = some st2 := by
  induction is with
  | nil => intro st st2; simp [runIns]
  | cons i is ih =>
    intro st st2
    simp only [List.cons_append, runIns_cons, ih]
    constructor
    · rintro ⟨st1, h1, st3, h3, h⟩
      exact ⟨st3, ⟨st1, h1, h3⟩, h⟩
    · rintro ⟨st3, ⟨st1, h1, h3⟩, h⟩
      exact ⟨st1, h1, st3, h3, h⟩

/-- The temp an instruction writes. -/
def MIns.writes (i : MIns) : Option ValId :=
  match i.op.cls with
  | .store | .arg | .inert => none
  | _ => i.dst

/-- An instruction that writes a temp has a value for it. -/
theorem effect_writes {x y : Opnd} {w w' : World}
    {v : Option (BitVec 64)} {d : ValId} (hd : i.writes = some d)
    (h : effect H M fn i x y w = some (v, w')) : i.dst = some d ∧ ∃ n, v = some n := by
  unfold MIns.writes at hd
  unfold effect at h
  cases hc : i.op.cls <;> simp only [hc] at h hd <;> try cases hd
  case pure =>
    obtain ⟨n, _, hr⟩ := map_eq_some_iff.mp h
    exact ⟨hd, n, (Prod.mk.inj hr).1.symm⟩
  case ext | load =>
    split at h
    · exact ⟨hd, _, (Prod.mk.inj (some.inj h)).1.symm⟩
    · cases h
  case alloca =>
    rw [hd] at h
    exact ⟨hd, _, (Prod.mk.inj (some.inj h)).1.symm⟩
  case par =>
    rw [hd] at h
    exact ⟨hd, _, (Prod.mk.inj (some.inj h)).1.symm⟩

/-! ### Agreement of register files -/

/-- Two register files agree outside `D`. -/
def AgreeOff (D : ValId → Prop) (regs regs' : ValId → BitVec 64) : Prop :=
  ∀ v, ¬ D v → regs' v = regs v

theorem AgreeOff.refl (D : ValId → Prop) (regs : ValId → BitVec 64) : AgreeOff D regs regs :=
  fun _ _ => rfl

theorem AgreeOff.mono (h : AgreeOff D regs regs') (hDE : ∀ v, D v → E v) : AgreeOff E regs regs' :=
  fun v hv => h v fun hd => hv (hDE v hd)

/-- Writing equal values keeps the agreement. -/
theorem AgreeOff.setReg
    (h : AgreeOff D regs regs') (fn : MFn) (dst : Option ValId) (v : Option (BitVec 64)) :
    AgreeOff D (setReg fn regs dst v) (setReg fn regs' dst v) := by
  intro u hu
  unfold Mir.setReg
  split
  · rename_i d x
    by_cases hud : u = d
    · simp only [hud, update_self]
    · simp only [update_of_ne hud, h u hu]
  · exact h u hu

/-- Writing a temp of `D` on one side keeps the agreement. -/
theorem AgreeOff.setReg_left
    (h : AgreeOff D regs regs') (fn : MFn) {d : ValId} (hd : D d) (v : Option (BitVec 64)) :
    AgreeOff D (Mir.setReg fn regs (some d) v) regs' := by
  intro u hu
  have hud : u ≠ d := fun e => hu (e ▸ hd)
  cases v with
  | none => exact h u hu
  | some x => simp only [Mir.setReg, update_of_ne hud, h u hu]

/-- After writing equal values to `d`, the register files agree there. -/
theorem AgreeOff.setReg_self (h : AgreeOff D regs regs') (fn : MFn) (d : ValId) (n : BitVec 64) :
    AgreeOff (fun v => D v ∧ v ≠ d) (Mir.setReg fn regs (some d) (some n))
      (Mir.setReg fn regs' (some d) (some n)) := by
  intro v hv
  by_cases hvd : v = d
  · simp only [Mir.setReg, hvd, update_self]
  · simp only [Mir.setReg, update_of_ne hvd]
    exact h v fun hD => hv ⟨hD, hvd⟩

/-- A reference reads nothing in `D`. -/
def MRef.Avoids (D : ValId → Prop) (r : MRef) : Prop := ∀ v, r = .val v → ¬ D v

theorem valBits_agree (h : AgreeOff D regs regs') (H : Host) (fn : MFn) (hv : ¬ D v) :
    valBits H fn regs' v = valBits H fn regs v := by
  unfold valBits
  split <;> simp only [h v hv]

theorem opnd_agree (h : AgreeOff D regs regs') (H : Host) (fn : MFn) {r : MRef} (hr : r.Avoids D) :
    opnd H fn regs' r = opnd H fn regs r := by
  cases r with
  | none => rfl
  | con c => rfl
  | val v => simp only [opnd, valBits_agree h H fn (hr v rfl)]

/-- Two states with the same world whose registers agree outside `D`. -/
structure StateAgree (D : ValId → Prop) (st st' : State) : Prop where
  regs : AgreeOff D st.regs st'.regs
  w : st'.w = st.w

theorem StateAgree.refl (D : ValId → Prop) (st : State) : StateAgree D st st :=
  ⟨AgreeOff.refl D st.regs, rfl⟩

theorem StateAgree.mono (h : StateAgree D st st')
    (hDE : ∀ v, D v → E v) : StateAgree E st st' := ⟨h.regs.mono hDE, h.w⟩

/-- An instruction reads nothing in `D`. -/
def MIns.Avoids (D : ValId → Prop) (i : MIns) : Prop := i.src0.Avoids D ∧ i.src1.Avoids D

theorem stepIns_agree (H : Host) (M : Mode) (fn : MFn)
    (h : StateAgree D st st') (hi : i.Avoids D) (hs : stepIns H M fn st i = some st1) :
    ∃ st1', stepIns H M fn st' i = some st1' ∧ StateAgree D st1 st1' := by
  unfold stepIns at hs ⊢
  rw [opnd_agree h.regs H fn hi.1, opnd_agree h.regs H fn hi.2, h.w]
  obtain ⟨r, hr, rfl⟩ := map_eq_some_iff.mp hs
  exact ⟨_, congrArg (Option.map _) hr, h.regs.setReg fn i.dst r.1, rfl⟩

theorem runIns_agree (H : Host) (M : Mode) (fn : MFn) (is : List MIns) :
    ∀ {st st' st1 : State}, StateAgree D st st' → (∀ i ∈ is, i.Avoids D) →
      runIns H M fn is st = some st1 →
      ∃ st1', runIns H M fn is st' = some st1' ∧ StateAgree D st1 st1' := by
  induction is with
  | nil =>
    intro st st' st1 h _ hs
    cases hs
    exact ⟨st', rfl, h⟩
  | cons i is ih =>
    intro st st' st1 h hi hs
    obtain ⟨st2, h2, hs⟩ := runIns_cons.mp hs
    obtain ⟨st2', h2', hag⟩ := stepIns_agree H M fn h (hi i (List.mem_cons_self ..)) h2
    obtain ⟨st1', h1', hag'⟩ := ih hag (fun j hj => hi j (List.mem_cons_of_mem _ hj)) hs
    exact ⟨st1', runIns_cons.mpr ⟨st2', h2', h1'⟩, hag'⟩

/-! ### Phis and terminators -/

theorem setRegs_agree (fn : MFn) (l : List (ValId × BitVec 64)) :
    ∀ {regs regs' : ValId → BitVec 64}, AgreeOff D regs regs' →
      AgreeOff D (setRegs fn regs l) (setRegs fn regs' l) := by
  induction l with
  | nil => exact fun h => h
  | cons p l ih => exact fun h => ih (h.setReg fn (some p.1) (some p.2))

theorem MPhi.argFor_mem {q : MPhi} {p : BlkId} (h : q.argFor p = some v) :
    (v, p) ∈ q.args := by
  obtain ⟨a, ha, rfl⟩ := map_eq_some_iff.mp h
  have hp : a.2 = p := by simpa using List.find?_some ha
  rw [← hp]
  exact List.mem_of_find?_eq_some ha

/-- Phis that read nothing in `D` read the same values. -/
theorem phiVals_agree (H : Host) (fn : MFn)
    (h : AgreeOff D regs regs') (p : BlkId) {phis : List MPhi}
    (hp : ∀ q ∈ phis, ∀ a ∈ q.args, ¬ D a.1) :
    phiVals H fn regs' p phis = phiVals H fn regs p phis := by
  unfold phiVals
  induction phis with
  | nil => rfl
  | cons q phis ih =>
    have hq : (q.argFor p).map (fun v => (q.dst, low q.dtype.bits (valBits H fn regs' v))) =
        (q.argFor p).map (fun v => (q.dst, low q.dtype.bits (valBits H fn regs v))) := by
      cases ha : q.argFor p with
      | none => rfl
      | some v =>
        have hv := hp q (List.mem_cons_self ..) _ (MPhi.argFor_mem ha)
        simp only [map_some, valBits_agree h H fn hv]
    rw [List.mapM_cons, List.mapM_cons, hq, ih fun q hq => hp q (List.mem_cons_of_mem _ hq)]

theorem enterBlk_agree (H : Host) (fn : MFn) (h : StateAgree D st st') {prev : Option BlkId}
    (hp : ∀ q ∈ blk.phi, ∀ a ∈ q.args, ¬ D a.1) (hs : enterBlk H fn prev blk st = some st1) :
    ∃ st1', enterBlk H fn prev blk st' = some st1' ∧ StateAgree D st1 st1' := by
  cases prev with
  | none =>
    cases hs
    exact ⟨st', rfl, h⟩
  | some p =>
    obtain ⟨l, hl, rfl⟩ := map_eq_some_iff.mp hs
    refine ⟨⟨setRegs fn st'.regs l, st'.w⟩, ?_, setRegs_agree fn l h.regs, h.w⟩
    simp only [enterBlk, phiVals_agree H fn h.regs p hp, hl, map_some]

/-- Configurations at the same block with agreeing states. -/
structure CfgAgree (D : ValId → Prop) (c c' : Cfg) : Prop where
  b : c'.b = c.b
  prev : c'.prev = c.prev
  st : StateAgree D c.st c'.st

theorem CfgAgree.refl (D : ValId → Prop) (c : Cfg) : CfgAgree D c c :=
  ⟨rfl, rfl, StateAgree.refl D c.st⟩

theorem CfgAgree.trans {c'' : Cfg} (hDE : ∀ v, D v → E v)
    (h : CfgAgree D c c') (h' : CfgAgree E c' c'') : CfgAgree E c c'' :=
  ⟨h'.b.trans h.b, h'.prev.trans h.prev,
    fun v hv => (h'.st.regs v hv).trans (h.st.regs v fun hD => hv (hDE v hD)), h'.st.w.trans h.st.w⟩

theorem runTerm_agree (H : Host) (fn : MFn)
    (h : StateAgree D st st') {b : BlkId} (ht : blk.term.src0.Avoids D)
    (hs : runTerm H fn b blk st = some s) :
    ∃ s', runTerm H fn b blk st' = some s' ∧ LiftRel (CfgAgree D) Eq s s' := by
  unfold runTerm at hs ⊢
  rw [opnd_agree h.regs H fn ht, h.w]
  split at hs
  · obtain ⟨t, hs1, rfl⟩ := map_eq_some_iff.mp hs
    rw [hs1]
    exact ⟨_, rfl, rfl, rfl, h⟩
  · obtain ⟨t, hs1, rfl⟩ := map_eq_some_iff.mp hs
    simp only [hs1]
    exact ⟨_, rfl, rfl, rfl, h⟩
  · cases hs
    exact ⟨_, rfl, rfl⟩
  · cases hs

/-! ### What a reader can see of a configuration -/

/-- Same block and same world: memory, trace, slots and pending arguments. -/
def SameWorld (c c' : Cfg) : Prop := c'.b = c.b ∧ c'.prev = c.prev ∧ c'.st.w = c.st.w

theorem outWorld_eq {s' : Cfg ⊕ Done} (h : LiftRel SameWorld Eq s s') :
    outWorld s' = outWorld s := by
  cases s <;> cases s' <;> simp only [LiftRel] at h
  · exact h.2.2
  · rw [h]

theorem CfgAgree.sameWorld (h : CfgAgree D c c') :
    SameWorld c c' := ⟨h.b, h.prev, h.st.w⟩

/-- Matching runs return the same pattern. -/
theorem retVal_of_matches {step step' : Cfg → Option (Cfg ⊕ Done)} {O : Cfg → Cfg → Prop}
    {Q : Done → Done → Prop} {n : Nat} (h : Matches step step' O Q n c c')
    (hQ : ∀ d d', Q d d' → d'.val = d.val) {v : BitVec 64} (hv : retVal (run step n c) = some v) :
    retVal (run step' n c') = some v := by
  cases hs : run step n c with
  | none => rw [hs] at hv; cases hv
  | some s =>
    obtain ⟨s', hs', hrel⟩ := h n (Nat.le_refl n) s hs
    rw [hs] at hv
    rw [hs']
    cases s with
    | inl d => cases hv
    | inr d =>
      cases s' with
      | inl d' => exact hrel.elim
      | inr d' => exact (congrArg some (hQ d d' hrel)).trans hv

end MeuOS.Mir
