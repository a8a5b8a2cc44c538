import MeuOS.Mir.FoldOps

namespace MeuOS.Mir

open MeuOS.Lib List Function Option

/-!
# `mfold` keeps the meaning of runs whose rewritten instructions meet its condition

A run of the rewritten function goes through the same blocks with the same world; its temps
are the same except those whose definition was dropped, and these are used only behind the
definition in their own block, where the pass has put the replacement (`FoldInv`).

`StepOk` is the condition on one instruction, in front of which the pass knows `s` and the run is
in state `st`: what it sees of a replaced operand is what it saw of the original (`see0`, `see1`),
its constants meet `ConOk` if it is folded, the algebraic rules `AlgOk`, a constant loaded from a
slot has the slot's bits, and no constant stays in the table whose slot the instruction changes.
-/

/-! ### The condition -/

/-- The condition on an instruction. -/
structure StepOk (H : Host) (aggr : Bool) (fn : MFn) (b : BlkId) (s : SimpSt) (st : State)
    (i : MIns) : Prop where
  see0 : i.view0 (opnd H fn st.regs (s.resolve i.src0)) = i.view0 (opnd H fn st.regs i.src0)
  see1 : i.view1 (opnd H fn st.regs (s.resolve i.src1)) = i.view1 (opnd H fn st.regs i.src1)
  con : ∀ d c, i.dst = some d → foldTry H.fp fn b s i = .yes c →
    ∀ x y, (s.resolve i.src0).con? = some x → foldRight i x (s.resolve i.src1) = some y →
      ConOk H i (fn.vtype d) x y
  load : ∀ d mc c, i.dst = some d → i.op = .load → memcHit fn (dstUsed fn b i) s i = some mc →
    memcConst i.dtype mc.val = some c →
      low (fn.vtype d).bits (constBits H c) =
        low (fn.vtype d).bits (low i.dtype.bits (constBits H mc.val))
  alg : ∀ d, i.dst = some d → foldTry H.fp fn b s i = .no →
    simpAllowed fn b (dstUsed fn b i) i (s.resolve i.src0) (s.resolve i.src1) = true →
      AlgOk aggr i (fn.vtype d) (s.resolve i.src0) (s.resolve i.src1)
  mem : ∀ st1, stepIns H .plain fn st i = some st1 →
    ∀ a mc, memcFind (memcNext fn s i) a = some mc →
      ¬ (i.op = .store ∧ s.resolve i.src1 = .val a) →
      st1.w.mem.read (st.regs a) (mc.dtype.bits / 8) = st.w.mem.read (st.regs a) (mc.dtype.bits / 8)

/-- What a terminator sees of its operand. -/
def termView (fn : MFn) (t : MTerm) (x : Opnd) : Opnd :=
  match t.op with
  | .jnz => .bare x.unsigned
  | .ret => .bare (low fn.rettype.bits x.bits)
  | _ => .bare 0

/-- The condition along the rest `is` of a block, down to its terminator. -/
def StepsOk (H : Host) (aggr : Bool) (fn : MFn) (b : BlkId) (t : MTerm) :
    SimpSt → State → List MIns → Prop
  | s, st, [] =>
    termView fn t (opnd H fn st.regs (s.resolve t.src0)) = termView fn t (opnd H fn st.regs t.src0)
  | s, st, i :: is =>
    StepOk H aggr fn b s st i ∧
      ∀ r st1, msimpIns H.fp aggr fn b s i = some r → stepIns H .plain fn st i = some st1 →
        StepsOk H aggr fn b t r.1 st1 is

/-- The condition on the block about to run. -/
def FoldBlkOk (H : Host) (aggr : Bool) (fn : MFn) (c : Cfg) : Prop :=
  ∀ blk st, fn.blk[c.b]? = some blk → enterBlk H fn c.prev blk c.st = some st →
    StepsOk H aggr fn c.b blk.term .start st blk.ins

/-- Results are temps (`MV_TEMP`: a value defined by an instruction or a phi). -/
def MFn.TempDsts (fn : MFn) : Prop :=
  ∀ blk ∈ fn.blk, ∀ i ∈ blk.ins, ∀ d, i.dst = some d → fn.isTemp d = true

/-! ### Temps of one block -/

/-- A temp written by an instruction and used in the block of that instruction only. -/
def LocalTemp (fn : MFn) (v : ValId) : Prop :=
  ∃ b blk i, fn.blk[b]? = some blk ∧ i ∈ blk.ins ∧ i.writes = some v ∧
    usedOutside fn (buildUses fn) v b = false

variable {i : MIns} {v d : ValId} {fn : MFn} {b : BlkId} {blk : MBlk} {H : Host} {r : MRef}
  {pre rest : List MIns} {s : SimpSt} {st st' st1 : State} {aggr : Bool} {fp : FpOps}

theorem MIns.dst_of_writes (h : i.writes = some v) : i.dst = some v := by
  unfold MIns.writes at h
  split at h
  · cases h
  · cases h
  · cases h
  · exact h

/-- All uses of a temp that is not used outside a block are in the block. -/
theorem used_inside (hv : fn.isTemp v = true)
    (h : usedOutside fn (buildUses fn) v b = false) {u : MUse} (hu : u ∈ buildUses fn v) :
    (∃ i a, u = .ins b i a) ∨ u = .term b := by
  simp only [usedOutside, hv, Bool.true_and, List.any_eq_false] at h
  have hb := h u hu
  cases u with
  | ins b' i a =>
    simp only [ne_eq, decide_not, Bool.not_eq_true', decide_eq_true_eq, Bool.not_eq_false] at hb
    rw [hb]
    exact .inl ⟨i, a, rfl⟩
  | term b' =>
    simp only [ne_eq, decide_not, Bool.not_eq_true', decide_eq_true_eq, Bool.not_eq_false] at hb
    rw [hb]
    exact .inr rfl
  | phi b' k j => simp at hb

/-- A phi reads no temp of one block. -/
theorem LocalTemp.not_phi (hdst : fn.TempDsts) (h : LocalTemp fn v) (hb : fn.blk[b]? = some blk)
    {q : MPhi} (hq : q ∈ blk.phi) {p : BlkId} (ha : (v, p) ∈ q.args) : False := by
  obtain ⟨b', blk', i, hb', hi, hw, hu⟩ := h
  have hv := hdst blk' (mem_of_getElem? hb') i hi v (MIns.dst_of_writes hw)
  obtain ⟨k, hk⟩ := getElem?_of_mem hq
  obtain ⟨j, hj⟩ := getElem?_of_mem ha
  rcases used_inside hv hu (use_of_phi hv hb hk hj) with ⟨_, _, he⟩ | he <;> cases he

theorem LocalTemp.def_mem (hdst : fn.TempDsts) (h : LocalTemp fn v) (hb : fn.blk[b]? = some blk)
   
    (huse : fn.isTemp v = true → (∃ i a, MUse.ins b i a ∈ buildUses fn v) ∨ MUse.term b ∈ buildUses fn v) :
    ∃ i ∈ blk.ins, i.writes = some v := by
  obtain ⟨b', blk', i, hb', hi, hw, hu⟩ := h
  have hv := hdst blk' (mem_of_getElem? hb') i hi v (MIns.dst_of_writes hw)
  have heq : b = b' := by
    rcases huse hv with ⟨j, a, hj⟩ | ht
    · rcases used_inside hv hu hj with ⟨_, _, he⟩ | he <;> cases he
      rfl
    · rcases used_inside hv hu ht with ⟨_, _, he⟩ | he <;> cases he
      rfl
  subst heq
  cases hb.symm.trans hb'
  exact ⟨i, hi, hw⟩

/-! ### The invariant inside a block -/

/-- A reference whose value the instructions `is` leave alone. -/
def Settled (fn : MFn) (is : List MIns) (r : MRef) : Prop :=
  ∀ v, r = .val v → fn.isTemp v = true → ∀ i ∈ is, i.dst ≠ some v

theorem Settled.tail {fn : MFn} {i : MIns} {is : List MIns} {r : MRef}
    (h : Settled fn (i :: is) r) :
    Settled fn is r := fun v hv ht j hj => h v hv ht j (mem_cons_of_mem i hj)

theorem settled_con (fn : MFn) (is : List MIns) (c : MConst) : Settled fn is (.con c) :=
  fun _ h => by cases h

/-- A settled operand keeps its value. -/
theorem Settled.opnd {is : List MIns}
    (h : Settled fn (i :: is) r) (regs : ValId → BitVec 64) (x : Option (BitVec 64)) :
    Mir.opnd H fn (setReg fn regs i.dst x) r = Mir.opnd H fn regs r := by
  cases r with
  | none => rfl
  | con c => rfl
  | val v =>
    simp only [Mir.opnd, valBits]
    split
    case h_3 hk =>
      have hv := h v rfl (decide_eq_true hk) i (mem_cons_self ..)
      rw [setReg_of_ne fn regs hv]
    all_goals rfl

/-- What is known of the replacement `r` of `v` in front of `rest`. -/
structure TabOk (H : Host) (fn : MFn) (rest : List MIns) (st st' : State) (v : ValId) (r : MRef) :
    Prop where
  loc : LocalTemp fn v
  temp : fn.isTemp v = true
  ref : r ≠ .none
  key : Settled fn rest (.val v)
  settled : Settled fn rest r
  same : opnd H fn st'.regs r = opnd H fn st.regs r
  bits : low (fn.vtype v).bits (opnd H fn st.regs r).bits = st.regs v

/-- What is known of a constant in the slot `a` in front of `rest`. -/
structure MemcOk (H : Host) (fn : MFn) (rest : List MIns) (st : State) (a : ValId) (mc : MMemC) :
    Prop where
  temp : fn.isTemp a = true
  key : Settled fn rest (.val a)
  read : st.w.mem.read (st.regs a) (mc.dtype.bits / 8) = low mc.dtype.bits (constBits H mc.val)

/-- The run `st` and the rewritten one `st'` between `pre` and `rest`, with the pass in state `s`:
    a temp is the same in both unless it has been replaced or is one of a single block whose
    definition is still to come. -/
structure FoldInv (H : Host) (fn : MFn) (pre rest : List MIns) (s : SimpSt) (st st' : State) :
    Prop where
  w : st'.w = st.w
  regs : ∀ v, s.tab v = none → (LocalTemp fn v → ∃ i ∈ pre, i.writes = some v) →
    st'.regs v = st.regs v
  tab : ∀ v r, s.tab v = some r → TabOk H fn rest st st' v r
  memc : ∀ a mc, memcFind s.memc a = some mc → MemcOk H fn rest st a mc

/-- The block the invariant is about: it is reached, and `pre ++ rest` are its instructions. -/
structure AtBlk (fn : MFn) (b : BlkId) (blk : MBlk) (pre rest : List MIns) : Prop where
  ssa : fn.Ssa
  dsts : fn.TempDsts
  path : ∃ p, fn.Path p b
  get : fn.blk[b]? = some blk
  ins : blk.ins = pre ++ rest

theorem AtBlk.next {fn : MFn} {b : BlkId} {blk : MBlk} {pre rest : List MIns} {i : MIns}
    (h : AtBlk fn b blk pre (i :: rest)) : AtBlk fn b blk (pre ++ [i]) rest :=
  ⟨h.ssa, h.dsts, h.path, h.get, by rw [h.ins, append_assoc]; rfl⟩

theorem AtBlk.head (h : AtBlk fn b blk pre (i :: rest)) : blk.ins[pre.length]? = some i := by
  rw [h.ins, getElem?_append_right (Nat.le_refl _), Nat.sub_self]
  rfl

/-- What the next instruction reads is settled. -/
theorem AtBlk.settled (h : AtBlk fn b blk pre (i :: rest)) (hr : r = i.src0 ∨ r = i.src1) :
    Settled fn (i :: rest) r := by
  intro v hv ht j hj
  obtain ⟨k, hk⟩ := getElem?_of_mem hj
  have hk' : blk.ins[pre.length + k]? = some j := by
    rw [h.ins, getElem?_append_right (Nat.le_add_right _ _), Nat.add_sub_cancel_left]
    exact hk
  obtain ⟨p, hp⟩ := h.path
  refine h.ssa.in_order hp h.get h.head hk' (Nat.le_add_right _ _) ht ?_
  rw [← hv]
  exact hr.imp Eq.symm Eq.symm

/-- Its result is defined nowhere behind it. -/
theorem AtBlk.dst_settled (h : AtBlk fn b blk pre (i :: rest)) (hd : i.dst = some d) :
    Settled fn rest (.val d) := by
  intro v hv ht j hj hjd
  obtain rfl : d = v := MRef.val.inj hv
  obtain ⟨k, hk⟩ := getElem?_of_mem hj
  have hk' : blk.ins[pre.length + (k + 1)]? = some j := by
    rw [h.ins, getElem?_append_right (Nat.le_add_right _ _), Nat.add_sub_cancel_left]
    exact hk
  have hsite := h.ssa.once d ht (.ins b pre.length) (.ins b (pre.length + (k + 1)))
    ⟨blk, i, h.get, h.head, hd⟩ ⟨blk, j, h.get, hk', hjd⟩
  have hidx : pre.length = pre.length + (k + 1) := (DefSite.ins.inj hsite).2
  omega

/-- Resolving gives the replacement or leaves the reference. -/
theorem resolve_cases (s : SimpSt) (r : MRef) :
    (∃ v x, r = .val v ∧ s.tab v = some x ∧ x ≠ .none ∧ s.resolve r = x) ∨
      (s.resolve r = r ∧ ∀ v, r = .val v → s.tab v = none ∨ s.tab v = some .none) := by
  unfold SimpSt.resolve
  cases r with
  | none => exact .inr ⟨rfl, fun v h => by cases h⟩
  | con c => exact .inr ⟨rfl, fun v h => by cases h⟩
  | val v =>
    simp only [MRef.val?, bind_some]
    cases ht : s.tab v with
    | none => exact .inr ⟨rfl, fun u hu => .inl (MRef.val.inj hu ▸ ht)⟩
    | some x =>
      cases x with
      | none => exact .inr ⟨rfl, fun u hu => .inr (MRef.val.inj hu ▸ ht)⟩
      | val u => exact .inl ⟨v, _, rfl, ht, MRef.noConfusion, rfl⟩
      | con c => exact .inl ⟨v, _, rfl, ht, MRef.noConfusion, rfl⟩

/-- **Operands.** A resolved operand has the same value in both runs, and nothing behind changes
    it. -/
theorem FoldInv.resolve (h : FoldInv H fn pre rest s st st') (hset : Settled fn rest r)
    (huse : ∀ v, r = .val v → LocalTemp fn v → ∃ i ∈ pre, i.writes = some v) :
    Settled fn rest (s.resolve r) ∧
      opnd H fn st'.regs (s.resolve r) = opnd H fn st.regs (s.resolve r) := by
  rcases resolve_cases s r with ⟨v, x, -, ht, -, hx⟩ | ⟨hr, ht⟩
  · rw [hx]
    exact ⟨(h.tab v x ht).settled, (h.tab v x ht).same⟩
  · rw [hr]
    refine ⟨hset, ?_⟩
    cases r with
    | none => rfl
    | con c => rfl
    | val v =>
      have htab : s.tab v = none := by
        rcases ht v rfl with ht | ht
        · exact ht
        · exact absurd rfl (h.tab v _ ht).ref
      simp only [opnd, valBits, h.regs v htab (huse v rfl)]

/-- The definitions of the temps of one block an instruction reads come in front of it. -/
theorem AtBlk.local_read (h : AtBlk fn b blk pre (i :: rest)) (hr : r = i.src0 ∨ r = i.src1)
    (hv : r = .val v) (hloc : LocalTemp fn v) : ∃ j ∈ pre, j.writes = some v := by
  obtain ⟨j, hj, hw⟩ := hloc.def_mem h.dsts h.get fun ht => by
    rcases hr with hr | hr
    · exact .inl ⟨_, 0, use_of_src0 ht h.get h.head (hr.symm.trans hv)⟩
    · exact .inl ⟨_, 1, use_of_src1 ht h.get h.head (hr.symm.trans hv)⟩
  have ht := h.dsts blk (mem_of_getElem? h.get) j hj v (MIns.dst_of_writes hw)
  rw [h.ins] at hj
  rcases mem_append.mp hj with hj | hj
  · exact ⟨j, hj, hw⟩
  · exact absurd (MIns.dst_of_writes hw) (h.settled hr v hv ht j hj)

/-! ### The table of slot constants -/

theorem memcFind_put_ne {e : MMemC} {a : ValId} (h : a ≠ e.addr) (mc : List MMemC) : ∀ n,
    memcFind (memcPut e n mc) a = memcFind mc a := by
  induction mc with
  | nil =>
    intro n
    unfold memcPut
    split <;> simp [memcFind, h.symm]
  | cons x mc ih =>
    intro n
    unfold memcPut
    split
    · rename_i hx
      simp [memcFind, h.symm, hx]
    · have ih' := ih (n + 1)
      unfold memcFind at ih' ⊢
      simp only [find?_cons, ih']

theorem memcFind_put_self {e x : MMemC} (mc : List MMemC) : ∀ n,
    memcFind (memcPut e n mc) e.addr = some x → x = e := by
  induction mc with
  | nil =>
    intro n h
    unfold memcPut at h
    split at h
    · simpa [memcFind, eq_comm] using h
    · cases h
  | cons y mc ih =>
    intro n h
    unfold memcPut at h
    split at h
    · simpa [memcFind, eq_comm] using h
    · rename_i hy
      refine ih (n + 1) ?_
      unfold memcFind at h ⊢
      simpa only [find?_cons, hy, decide_false] using h

/-- An entry behind an instruction is an older one, or the constant just stored. -/
theorem memcNext_cases {a : ValId} {mc : MMemC} (h : memcFind (memcNext fn s i) a = some mc) :
    (memcFind s.memc a = some mc ∧ ¬ (i.op = .store ∧ s.resolve i.src1 = .val a)) ∨
      (i.op = .store ∧ s.resolve i.src1 = .val a ∧ fn.isTemp a = true ∧
        s.resolve i.src0 = .con mc.val ∧ mc.dtype = i.dtype) := by
  unfold memcNext at h
  split at h
  · rename_i hop
    split at h
    · rename_i c a' hc ha'
      split at h
      · rename_i hcond
        have hsrc1 : s.resolve i.src1 = .val a' := by
          cases hr : s.resolve i.src1 <;> simp_all [MRef.val?]
        have hsrc0 : s.resolve i.src0 = .con c := by
          cases hr : s.resolve i.src0 <;> simp_all [MRef.con?]
        by_cases haa : a = a'
        · subst haa
          obtain rfl := memcFind_put_self s.memc 0 h
          simp only [Bool.and_eq_true] at hcond
          exact .inr ⟨hop, hsrc1, hcond.1.1, hsrc0, rfl⟩
        · refine .inl ⟨?_, fun h => haa (MRef.val.inj (h.2.symm.trans hsrc1))⟩
          exact (memcFind_put_ne (e := ⟨a', c, i.dtype⟩) haa s.memc 0).symm.trans h
      · cases h
    · cases h
  · cases h
  · rename_i hop _
    exact .inl ⟨h, fun h => hop h.1⟩

/-! ### One instruction -/

/-- What a dropped instruction has done. -/
structure Dropped (H : Host) (fn : MFn) (st st1 : State) (i : MIns) (d : ValId) (r : MRef) :
    Prop where
  writes : i.writes = some d
  ref : r ≠ .none
  w : st1.w = st.w
  value : ∃ v, st1.regs = setReg fn st.regs (some d) (some v) ∧
    low (fn.vtype d).bits (opnd H fn st.regs r).bits = low (fn.vtype d).bits v

theorem writes_of_cls (h : i.op.cls = .pure ∨ i.op.cls = .load) : i.writes = i.dst := by
  unfold MIns.writes
  rcases h with h | h <;> rw [h]

/-- A pure instruction that has its value put in place of its result. -/
theorem dropped_pure (hd : i.dst = some d) (hcls : i.op.cls = .pure)
    (hok : StepOk H aggr fn b s st i) (hr : r ≠ .none) (hs : stepIns H .plain fn st i = some st1)
    (hval : ∀ v, pureVal H.fp i.op i.dtype (opnd H fn st.regs (s.resolve i.src0))
      (opnd H fn st.regs (s.resolve i.src1)) = some v →
      low (fn.vtype d).bits (opnd H fn st.regs r).bits = low (fn.vtype d).bits v) :
    Dropped H fn st st1 i d r := by
  obtain ⟨⟨o, w⟩, heff, rfl⟩ := map_eq_some_iff.mp hs
  have hw := effect_world (.inl hcls) heff
  -- the value is the one the resolved operands give
  rw [← effect_of_view hok.see0 hok.see1] at heff
  unfold effect at heff
  rw [hcls] at heff
  obtain ⟨v, hv, he⟩ := map_eq_some_iff.mp heff
  obtain rfl : some v = o := (Prod.mk.inj he).1
  exact ⟨(writes_of_cls (.inl hcls)).trans hd, hr, hw, v, by rw [hd], hval v hv⟩

/-- A dropped instruction's result is what replaces it, and the pass leaves the rest of its state
    alone. -/
theorem msimpWhat_drop (hinv : FoldInv H fn pre (i :: rest) s st st') (hd : i.dst = some d)
    (hok : StepOk H aggr fn b s st i) (hm : msimpWhat H.fp aggr fn b s i = some (.inl r))
    (hs : stepIns H .plain fn st i = some st1) :
    Dropped H fn st st1 i d r ∧ dstUsed fn b i = false ∧
      (r = s.resolve i.src0 ∨ ∃ c, r = .con c) := by
  unfold msimpWhat at hm
  split at hm
  · cases hm
  · -- folded
    rename_i c hf
    obtain rfl : MRef.con c = r := Sum.inl.inj (some.inj hm)
    have hok' := hok.con d c hd hf
    unfold foldTry at hf
    split at hf
    · rename_i hguard
      simp only [Bool.and_eq_true, Bool.not_eq_true'] at hguard
      refine ⟨dropped_pure hd (foldIns_cls hf) hok MRef.noConfusion hs fun v hv => ?_, hguard.2,
        .inr ⟨c, rfl⟩⟩
      exact foldIns_sound hf hok' hv
    · cases hf
  · rename_i hf
    split at hm
    · -- a load of a known constant
      rename_i c hl
      obtain rfl : MRef.con c = r := Sum.inl.inj (some.inj hm)
      unfold memcLoad at hl
      split at hl
      · rename_i hop
        obtain ⟨mc, hhit, hc⟩ := bind_eq_some_iff.mp hl
        have hlow := hok.load d mc c hd hop hhit hc
        obtain ⟨hfind, hcond⟩ := filter_eq_some_iff.mp hhit
        obtain ⟨a, ha, hfind⟩ := bind_eq_some_iff.mp hfind
        obtain ⟨ha, hta⟩ := filter_eq_some_iff.mp ha
        simp only [Bool.and_eq_true, decide_eq_true_eq, Bool.not_eq_true'] at hcond
        have hcls : i.op.cls = .load := by rw [hop]; rfl
        have hsrc : s.resolve i.src0 = .val a := by
          cases hr : s.resolve i.src0 <;> simp_all [MRef.val?]
        have hmem := (hinv.memc a mc hfind).read
        obtain ⟨⟨o, w⟩, heff, rfl⟩ := map_eq_some_iff.mp hs
        have hw := effect_world (.inr (.inl hcls)) heff
        rw [← effect_of_view hok.see0 hok.see1, hsrc, opnd_temp H hta] at heff
        unfold effect at heff
        simp only [hcls, accessOk, Mode.plain, if_true, some.injEq, Prod.mk.injEq] at heff
        refine ⟨⟨(writes_of_cls (.inr hcls)).trans hd, MRef.noConfusion, hw, _, by
          rw [hd, ← heff.1], ?_⟩, hcond.2, .inr ⟨c, rfl⟩⟩
        rw [← hcond.1.1, hmem, hcond.1.1]
        exact hlow
      · cases hl
    · -- the algebraic rules
      split at hm
      · rename_i r' ha
        obtain rfl : r' = r := Sum.inl.inj (some.inj hm)
        unfold simpTry at ha
        split at ha
        · rename_i hallow
          have halg := hok.alg d hd hf hallow
          obtain ⟨harith, hcase⟩ := msimp_drop ha
          have hcls : i.op.cls = .pure := by
            unfold MOP.cls
            rw [harith, Bool.true_or, Bool.true_or, if_pos rfl]
          have hne : r' ≠ .none := by
            have halg' := halg
            simp only [AlgOk, ha] at halg'
            exact halg'.2.1
          simp only [simpAllowed, Bool.and_eq_true, Bool.not_eq_true'] at hallow
          refine ⟨dropped_pure hd hcls hok hne hs fun v hv => msimp_drop_sound ha halg hv,
            hallow.1.1.2, ?_⟩
          exact hcase.imp And.left fun h => ⟨_, h.1⟩
        · cases ha
      · cases hm

/-- Entries of the tables stay right when the run goes on. -/
theorem TabOk.next {H : Host} {fn : MFn} {i : MIns} {rest : List MIns} {st st' : State} {v : ValId}
    {r : MRef} (h : TabOk H fn (i :: rest) st st' v r) (x : Option (BitVec 64)) (w w' : World)
    {regs' : ValId → BitVec 64}
    (hregs : opnd H fn regs' r = opnd H fn st'.regs r) :
    TabOk H fn rest ⟨setReg fn st.regs i.dst x, w⟩ ⟨regs', w'⟩ v r where
  loc := h.loc
  temp := h.temp
  ref := h.ref
  key := h.key.tail
  settled := h.settled.tail
  same := by
    show opnd H fn regs' r = opnd H fn (setReg fn st.regs i.dst x) r
    rw [hregs, h.same, h.settled.opnd]
  bits := by
    show low _ (opnd H fn (setReg fn st.regs i.dst x) r).bits = setReg fn st.regs i.dst x v
    rw [h.settled.opnd, h.bits, setReg_of_ne]
    exact h.key v rfl h.temp i (mem_cons_self ..)

theorem MemcOk.next {H : Host} {fn : MFn} {i : MIns} {rest : List MIns} {st : State} {a : ValId}
    {mc : MMemC} (h : MemcOk H fn (i :: rest) st a mc) (x : Option (BitVec 64)) {w : World}
   
    (hw : w.mem.read (st.regs a) (mc.dtype.bits / 8) = st.w.mem.read (st.regs a) (mc.dtype.bits / 8)) :
    MemcOk H fn rest ⟨setReg fn st.regs i.dst x, w⟩ a mc where
  temp := h.temp
  key := h.key.tail
  read := by
    show w.mem.read (setReg fn st.regs i.dst x a) _ = _
    rw [setReg_of_ne fn st.regs (h.key a rfl h.temp i (mem_cons_self ..)), hw, h.read]

/-- **Dropping** an instruction keeps the invariant. -/
theorem FoldInv.drop
    (hat : AtBlk fn b blk pre (i :: rest)) (hinv : FoldInv H fn pre (i :: rest) s st st')
    (hd : i.dst = some d) (hok : StepOk H aggr fn b s st i)
    (hm : msimpWhat H.fp aggr fn b s i = some (.inl r)) (hs : stepIns H .plain fn st i = some st1) :
    FoldInv H fn (pre ++ [i]) rest ⟨update s.tab d (some r), s.memc⟩ st1 st' := by
  obtain ⟨hdrop, hused, hr⟩ := msimpWhat_drop hinv hd hok hm hs
  obtain ⟨hwr, href, hw, v, hregs, hval⟩ := hdrop
  obtain ⟨regs1, w1⟩ := st1
  obtain rfl : w1 = st.w := hw
  obtain rfl : regs1 = setReg fn st.regs (some d) (some v) := hregs
  have hsrc := hinv.resolve (hat.settled (.inl rfl)) fun v hv hl => hat.local_read (.inl rfl) hv hl
  have hrset : Settled fn (i :: rest) r ∧ opnd H fn st'.regs r = opnd H fn st.regs r := by
    rcases hr with rfl | ⟨c, rfl⟩
    · exact hsrc
    · exact ⟨settled_con fn _ c, rfl⟩
  have hdt : fn.isTemp d = true := by
    refine hat.dsts blk (mem_of_getElem? hat.get) i ?_ d hd
    rw [hat.ins]
    exact mem_append_right _ (mem_cons_self ..)
  rw [← hd]
  refine ⟨hinv.w, fun u hu hloc => ?_, fun u x hu => ?_, fun a mc ha => ?_⟩
  · -- another temp
    replace hu : update s.tab d (some r) u = none := hu
    have hud : u ≠ d := fun e => by
      rw [e, update_self] at hu
      cases hu
    rw [update_of_ne hud] at hu
    show st'.regs u = setReg fn st.regs i.dst (some v) u
    rw [setReg_of_ne fn st.regs (by rw [hd]; exact fun e => hud (some.inj e).symm)]
    refine hinv.regs u hu fun hl => ?_
    obtain ⟨j, hj, hjw⟩ := hloc hl
    rcases mem_append.mp hj with hj | hj
    · exact ⟨j, hj, hjw⟩
    · obtain rfl : j = i := mem_singleton.mp hj
      exact absurd (some.inj (hjw.symm.trans hwr)) hud
  · replace hu : update s.tab d (some r) u = some x := hu
    by_cases hud : u = d
    · -- the new entry
      subst hud
      obtain rfl : r = x := by simpa using hu
      refine ⟨?_, hdt, href, hat.dst_settled hd, hrset.1.tail, ?_, ?_⟩
      · refine ⟨b, blk, i, hat.get, ?_, hwr, by simpa [dstUsed, hd] using hused⟩
        rw [hat.ins]
        exact mem_append_right _ (mem_cons_self ..)
      · rw [hrset.1.opnd, hrset.2]
      · rw [hrset.1.opnd, hval, hd]
        show _ = update st.regs u (low (fn.vtype u).bits v) u
        rw [update_self]
    · rw [update_of_ne hud] at hu
      exact (hinv.tab u x hu).next (some v) _ _ rfl
  · refine (hinv.memc a mc ha).next (some v) ?_
    rfl

/-- A kept instruction does what the original did. -/
theorem msimpWhat_keep {i' : MIns} (hok : StepOk H aggr fn b s st i)
    (hm : msimpWhat H.fp aggr fn b s i = some (.inr i')) :
    i'.dst = i.dst ∧ i'.src0 = s.resolve i.src0 ∧ (i'.src1 = s.resolve i.src1 ∨ ∃ c, i'.src1 = .con c) ∧
      ∀ w r, effect H .plain fn i (opnd H fn st.regs i.src0) (opnd H fn st.regs i.src1) w = some r →
        effect H .plain fn i' (opnd H fn st.regs i'.src0) (opnd H fn st.regs i'.src1) w = some r := by
  have hsame : ∀ w, effect H .plain fn i (opnd H fn st.regs (s.resolve i.src0))
      (opnd H fn st.regs (s.resolve i.src1)) w =
        effect H .plain fn i (opnd H fn st.regs i.src0) (opnd H fn st.regs i.src1) w :=
    effect_of_view hok.see0 hok.see1 H fn
  unfold msimpWhat at hm
  split at hm
  · cases hm
  · cases hm
  rename_i hf
  split at hm
  · cases hm
  split at hm
  · cases hm
  rename_i op a1 hsimp
  obtain rfl : { i with op := op, src0 := s.resolve i.src0, src1 := a1 } = i' :=
    Sum.inr.inj (some.inj hm)
  unfold simpTry at hsimp
  split at hsimp
  · rename_i hallow
    have hdst : ∃ d, i.dst = some d := by
      simp only [simpAllowed, Bool.and_eq_true] at hallow
      exact isSome_iff_exists.mp hallow.1.1.1.1
    obtain ⟨d, hd⟩ := hdst
    have halg := hok.alg d hd hf hallow
    have ha1 : a1 = s.resolve i.src1 ∨ ∃ c, a1 = .con c := by
      rcases msimp_keep hsimp with ⟨-, h⟩ | ⟨c, n, -, -, ⟨-, -, -, h⟩ | ⟨-, -, h⟩ | ⟨-, -, h⟩⟩
      · exact .inl h
      all_goals exact .inr ⟨_, h⟩
    refine ⟨rfl, rfl, ha1, fun w r hr => ?_⟩
    rw [← hsame] at hr
    rcases msimp_keep_cls hsimp with ⟨rfl, rfl⟩ | ⟨hcls, hcls'⟩
    · exact hr
    · unfold effect at hr ⊢
      simp only [hcls, hcls'] at hr ⊢
      obtain ⟨v, hv, he⟩ := map_eq_some_iff.mp hr
      rw [msimp_keep_sound hsimp halg hv]
      exact congrArg some he
  · cases hsimp
    exact ⟨rfl, rfl, .inl rfl, fun w r hr => (hsame w).trans hr⟩

/-- **Keeping** an instruction keeps the invariant. -/
theorem FoldInv.keep {H : Host} {aggr : Bool} {fn : MFn} {b : BlkId} {blk : MBlk}
    {pre rest : List MIns} {s : SimpSt} {st st' st1 : State} {i i' : MIns}
    (hat : AtBlk fn b blk pre (i :: rest)) (hinv : FoldInv H fn pre (i :: rest) s st st')
    (hok : StepOk H aggr fn b s st i) (hm : msimpWhat H.fp aggr fn b s i = some (.inr i'))
    (hs : stepIns H .plain fn st i = some st1) :
    ∃ st1', stepIns H .plain fn st' i' = some st1' ∧
      FoldInv H fn (pre ++ [i]) rest ⟨s.tab, memcNext fn s i⟩ st1 st1' := by
  obtain ⟨hdst, hsrc0, hsrc1, heff'⟩ := msimpWhat_keep hok hm
  have hres0 := hinv.resolve (hat.settled (.inl rfl)) fun v hv hl => hat.local_read (.inl rfl) hv hl
  have hres1 := hinv.resolve (hat.settled (.inr rfl)) fun v hv hl => hat.local_read (.inr rfl) hv hl
  have hop0 : opnd H fn st'.regs i'.src0 = opnd H fn st.regs i'.src0 := by
    rw [hsrc0]
    exact hres0.2
  have hop1 : opnd H fn st'.regs i'.src1 = opnd H fn st.regs i'.src1 := by
    rcases hsrc1 with h | ⟨c, h⟩
    · rw [h]
      exact hres1.2
    · rw [h]
      rfl
  have hmem := hok.mem st1 hs
  obtain ⟨⟨o, w1⟩, heff, rfl⟩ := map_eq_some_iff.mp hs
  refine ⟨⟨setReg fn st'.regs i.dst o, w1⟩, ?_, rfl, fun u hu hloc => ?_, fun u x hu => ?_,
    fun a mc ha => ?_⟩
  · rw [stepIns, hop0, hop1, hinv.w, heff' _ _ heff, hdst]
    rfl
  · -- the result is the same now, and any other temp is as before
    by_cases hw : i.writes = some u
    · obtain ⟨hdu, n, rfl⟩ := effect_writes hw heff
      show setReg fn st'.regs i.dst (some n) u = setReg fn st.regs i.dst (some n) u
      rw [hdu]
      simp only [setReg, update_self]
    · have hprev : st'.regs u = st.regs u := by
        refine hinv.regs u hu fun hl => ?_
        obtain ⟨j, hj, hjw⟩ := hloc hl
        rcases mem_append.mp hj with hj | hj
        · exact ⟨j, hj, hjw⟩
        · obtain rfl : j = i := mem_singleton.mp hj
          exact absurd hjw hw
      show setReg fn st'.regs i.dst o u = setReg fn st.regs i.dst o u
      cases hd : i.dst with
      | none => exact hprev
      | some d =>
        cases o with
        | none => exact hprev
        | some n =>
          by_cases hud : u = d
          · simp only [setReg, hud, update_self]
          · simp only [setReg, update_of_ne hud, hprev]
  · refine (hinv.tab u x hu).next o _ _ ?_
    show opnd H fn (setReg fn st'.regs i.dst o) x = _
    exact (hinv.tab u x hu).settled.opnd _ _
  · rcases memcNext_cases ha with ⟨hold, hne⟩ | ⟨hop, hsrc, hta, hval, hdt⟩
    · exact (hinv.memc a mc hold).next o (hmem a mc ha hne)
    · -- the constant just stored
      have hset : Settled fn (i :: rest) (.val a) := hsrc ▸ hres1.1
      have hcls : i.op.cls = .store := by rw [hop]; rfl
      refine ⟨hta, hset.tail, ?_⟩
      have hrega : setReg fn st.regs i.dst o a = st.regs a :=
        setReg_of_ne fn st.regs (hset a rfl hta i (mem_cons_self ..)) o
      rw [← effect_of_view hok.see0 hok.see1, hsrc, hval, opnd_temp H hta, opnd_con] at heff
      unfold effect at heff
      simp only [hcls, accessOk, Mode.plain, if_true, some.injEq, Prod.mk.injEq] at heff
      obtain ⟨-, rfl⟩ := heff
      show Mem.read _ (setReg fn st.regs i.dst o a) _ = _
      rw [hrega, hdt, Mem.read_write _ _ _ (Nat.le_refl _) (by
        have h8 := i.dtype.bits_le
        omega), MType.bits_bytes]
      rfl

/-! ### Blocks -/

/-- The rest of a block. -/
theorem FoldInv.run {t : MTerm}
    (rest : List MIns) : ∀ {pre : List MIns} {s s1 : SimpSt} {st st' st1 : State} {out : List MIns},
    AtBlk fn b blk pre rest → FoldInv H fn pre rest s st st' → StepsOk H aggr fn b t s st rest →
    msimpFrom H.fp aggr fn b s rest = some (s1, out) → runIns H .plain fn rest st = some st1 →
    ∃ st1', runIns H .plain fn out st' = some st1' ∧ FoldInv H fn (pre ++ rest) [] s1 st1 st1' ∧
      termView fn t (opnd H fn st1.regs (s1.resolve t.src0)) =
        termView fn t (opnd H fn st1.regs t.src0) := by
  induction rest with
  | nil =>
    intro pre s s1 st st' st1 out _ hinv hok hm hs
    cases hm
    cases hs
    exact ⟨st', rfl, by rwa [append_nil], hok⟩
  | cons i is ih =>
    intro pre s s1 st st' st1 out hat hinv hok hm hs
    obtain ⟨⟨s2, o⟩, hi, hm⟩ := bind_eq_some_iff.mp hm
    obtain ⟨⟨s3, os⟩, hrest, he⟩ := map_eq_some_iff.mp hm
    cases he
    obtain ⟨st2, h2, hs⟩ := runIns_cons.mp hs
    have hok2 := hok.2 _ st2 hi h2
    have happ : pre ++ i :: is = (pre ++ [i]) ++ is := by rw [append_assoc]; rfl
    rw [happ]
    obtain ⟨what, hw, hi⟩ := bind_eq_some_iff.mp hi
    cases what with
    | inl r =>
      obtain ⟨d, hd, he⟩ := map_eq_some_iff.mp hi
      cases he
      exact ih hat.next (hinv.drop hat hd hok.1 hw h2) hok2 hrest hs
    | inr i' =>
      cases hi
      obtain ⟨st2', h2', hinv2⟩ := hinv.keep hat hok.1 hw h2
      obtain ⟨st1', h1', hend⟩ := ih hat.next hinv2 hok2 hrest hs
      exact ⟨st1', runIns_cons.mpr ⟨st2', h2', h1'⟩, hend⟩

/-- Terminators that see the same go on in the same way. -/
theorem runTerm_of_view (blk blk' : MBlk)
    {D : ValId → Prop} {s : Cfg ⊕ Done} (hop : blk'.term.op = blk.term.op) (hs1 : blk'.s1 = blk.s1)
    (hs2 : blk'.s2 = blk.s2) (hag : StateAgree D st st')
    (hview : termView fn blk.term (opnd H fn st'.regs blk'.term.src0) =
      termView fn blk.term (opnd H fn st.regs blk.term.src0))
    (hs : runTerm H fn b blk st = some s) :
    ∃ s', runTerm H fn b blk' st' = some s' ∧ LiftRel (CfgAgree D) Eq s s' := by
  unfold runTerm at hs ⊢
  unfold termView at hview
  rw [hop, hs1, hs2]
  split at hs
  · obtain ⟨t, ht, rfl⟩ := map_eq_some_iff.mp hs
    rw [ht]
    exact ⟨_, rfl, rfl, rfl, hag⟩
  · rename_i hjnz
    obtain ⟨t, ht, rfl⟩ := map_eq_some_iff.mp hs
    simp only [hjnz, Opnd.bare, Opnd.mk.injEq, and_true] at hview
    simp only [hview, ht]
    exact ⟨_, rfl, rfl, rfl, hag⟩
  · rename_i hret
    cases hs
    simp only [hret, Opnd.bare, Opnd.mk.injEq, and_true] at hview
    refine ⟨_, rfl, ?_⟩
    rw [liftRel_inr, hview, hag.w]
  · cases hs

/-- `fn'` is `fn` with every block rewritten. -/
structure MfoldFn (fp : FpOps) (aggr : Bool) (fn fn' : MFn) : Prop where
  val : fn'.val = fn.val
  start : fn'.start = fn.start
  rettype : fn'.rettype = fn.rettype
  blk : ∀ (b : BlkId) (blk : MBlk), fn.blk[b]? = some blk →
    ∃ blk', fn'.blk[b]? = some blk' ∧ msimpBlock fp aggr fn b blk = some blk'

/-- A rewritten block runs as before. -/
theorem mfold_block {fn' : MFn} {c c' : Cfg} {s : Cfg ⊕ Done}
    (hfn : MfoldFn H.fp aggr fn fn') (hssa : fn.Ssa) (hdst : fn.TempDsts)
    (hpath : ∃ p, fn.Path p c.b) (hc : CfgAgree (LocalTemp fn) c c') (hok : FoldBlkOk H aggr fn c)
    (hs : runBlk H .plain fn c = some s) :
    ∃ s', runBlk H .plain fn' c' = some s' ∧ LiftRel (CfgAgree (LocalTemp fn)) Eq s s' := by
  obtain ⟨blk, st1, st2, hb, h1, h2, hs⟩ := runBlk_eq_some.mp hs
  obtain ⟨blk', hb', hblk⟩ := hfn.blk c.b blk hb
  obtain ⟨⟨s1, out⟩, hm, he⟩ := map_eq_some_iff.mp hblk
  obtain ⟨st1', h1', hag⟩ := enterBlk_agree H fn hc.st
    (fun q hq a ha hl => hl.not_phi hdst hb hq ha) h1
  have hat : AtBlk fn c.b blk [] blk.ins := ⟨hssa, hdst, hpath, hb, rfl⟩
  have hinv : FoldInv H fn [] blk.ins .start st1 st1' := by
    refine ⟨hag.w, fun v _ hl => hag.regs v fun hv => ?_, fun v r hv => ?_, fun a mc ha => ?_⟩
    · obtain ⟨i, hi, -⟩ := hl hv
      cases hi
    · cases hv
    · cases ha
  obtain ⟨st2', h2', hend, hview⟩ := hinv.run blk.ins hat (hok blk st1 hb h1) hm h2
  have hag2 : StateAgree (LocalTemp fn) st2 st2' := by
    refine ⟨fun v hv => ?_, hend.w⟩
    cases ht : s1.tab v with
    | none => exact hend.regs v ht fun hl => absurd hl hv
    | some r => exact absurd (hend.tab v r ht).loc hv
  have hterm := (hend.resolve (r := blk.term.src0) (fun _ _ _ i hi => by cases hi)
    fun v hv hl => hl.def_mem hdst hb fun ht => .inr (use_of_term ht hb hv)).2
  subst he
  obtain ⟨s', hs', hrel⟩ := runTerm_of_view blk
    { blk with ins := out, term := { blk.term with src0 := s1.resolve blk.term.src0 } }
    rfl rfl rfl hag2 (by
    show termView fn blk.term (opnd H fn st2'.regs (s1.resolve blk.term.src0)) = _
    rw [hterm]
    exact hview) hs
  refine ⟨s', runBlk_eq_some.mpr ⟨_, st1', st2', by rw [hc.b]; exact hb', ?_, ?_, ?_⟩, hrel⟩
  · rw [enterBlk_congr hfn.val, hc.prev]
    exact h1'
  · rw [runIns_congr hfn.val]
    exact h2'
  · rw [hc.b, runTerm_congr hfn.val hfn.rettype]
    exact hs'

/-! ### The pass comes to its end -/

/-- No instruction from here on makes the host trap, and loads have a result. -/
def safeFrom (fp : FpOps) (aggr : Bool) (fn : MFn) (b : BlkId) : SimpSt → List MIns → Bool
  | _, [] => true
  | s, i :: is =>
    foldTry fp fn b s i ≠ .trap && (i.op ≠ .load || i.dst.isSome) &&
      (msimpIns fp aggr fn b s i).all fun r => safeFrom fp aggr fn b r.1 is

/-- The pass comes to its end in every block, also in those no run reaches. -/
def FoldSafe (fp : FpOps) (aggr : Bool) (fn : MFn) : Prop :=
  ∀ p ∈ fn.blk.zipIdx, safeFrom fp aggr fn p.2 .start p.1.ins = true

/-- Only instructions with a result are dropped, loads apart. -/
theorem msimpWhat_dst (h : msimpWhat fp aggr fn b s i = some (.inl r))
    (hl : i.op ≠ .load ∨ i.dst.isSome = true) :
    i.dst.isSome = true := by
  unfold msimpWhat at h
  split at h
  · cases h
  · rename_i c hf
    unfold foldTry at hf
    split at hf
    · rename_i hguard
      simp only [Bool.and_eq_true] at hguard
      exact hguard.1.1
    · cases hf
  · split at h
    · rename_i c hmem
      unfold memcLoad at hmem
      split at hmem
      · rename_i hop
        exact hl.resolve_left fun h => h hop
      · cases hmem
    · split at h
      · rename_i r' ha
        unfold simpTry at ha
        split at ha
        · rename_i hallow
          simp only [simpAllowed, Bool.and_eq_true] at hallow
          exact hallow.1.1.1.1
        · cases ha
      · cases h

theorem msimpFrom_isSome (is : List MIns) :
    ∀ {s : SimpSt}, safeFrom fp aggr fn b s is = true → (msimpFrom fp aggr fn b s is).isSome = true := by
  induction is with
  | nil => exact fun _ => rfl
  | cons i is ih =>
    intro s h
    simp only [safeFrom, Bool.and_eq_true, Bool.or_eq_true, decide_eq_true_eq] at h
    obtain ⟨⟨hf, hl⟩, hrest⟩ := h
    have hi : ∃ r, msimpIns fp aggr fn b s i = some r := by
      have hwhat : ∃ what, msimpWhat fp aggr fn b s i = some what := by
        unfold msimpWhat
        split
        · exact absurd ‹_› hf
        · exact ⟨_, rfl⟩
        · split
          · exact ⟨_, rfl⟩
          · split <;> exact ⟨_, rfl⟩
      obtain ⟨what, hw⟩ := hwhat
      unfold msimpIns
      rw [hw]
      cases what with
      | inl r =>
        obtain ⟨d, hd⟩ := isSome_iff_exists.mp (msimpWhat_dst hw hl)
        rw [hd]
        exact ⟨_, rfl⟩
      | inr i' => exact ⟨_, rfl⟩
    obtain ⟨r, hr⟩ := hi
    rw [hr, all_some] at hrest
    obtain ⟨q, hq⟩ := isSome_iff_exists.mp (ih hrest)
    simp only [msimpFrom, hr, bind_some, hq, map_some, isSome_some]

/-- Rewriting the entries of a list one by one. -/
theorem mapM_zipIdx {α β : Type} (f : α × Nat → Option β) (l : List α) : ∀ k,
    (∀ (j : Nat) (a : α), l[j]? = some a → (f (a, k + j)).isSome = true) →
    ∃ l', (l.zipIdx k).mapM f = some l' ∧
      ∀ (j : Nat) (a : α), l[j]? = some a → ∃ a', l'[j]? = some a' ∧ f (a, k + j) = some a' := by
  induction l with
  | nil => exact fun k _ => ⟨[], rfl, fun j a h => by cases h⟩
  | cons x l ih =>
    intro k h
    obtain ⟨y, hy⟩ := isSome_iff_exists.mp (h 0 x rfl)
    have hidx : ∀ j, k + 1 + j = k + (j + 1) := fun j => by omega
    obtain ⟨l', hl', hget⟩ := ih (k + 1) fun j a hj => by
      rw [hidx]
      exact h (j + 1) a hj
    refine ⟨y :: l', ?_, fun j a hj => ?_⟩
    · rw [zipIdx_cons, mapM_cons, hl', show f (x, k) = some y from hy]
      rfl
    · cases j with
      | zero =>
        obtain rfl : x = a := some.inj hj
        exact ⟨y, rfl, hy⟩
      | succ j =>
        rw [← hidx]
        exact hget j a hj

theorem mfold_isSome (h : FoldSafe fp aggr fn) :
    ∃ fn', mfold fp aggr fn = some fn' ∧ MfoldFn fp aggr fn fn' := by
  obtain ⟨l', hl', hget⟩ := mapM_zipIdx (fun p => msimpBlock fp aggr fn p.2 p.1) fn.blk 0
    fun j a hj => by
      rw [Nat.zero_add, msimpBlock, isSome_map]
      exact msimpFrom_isSome a.ins (h (a, j) (mem_zipIdx_iff_getElem?.mpr hj))
  refine ⟨{ fn with blk := l' }, ?_, rfl, rfl, rfl, fun b blk hb => ?_⟩
  · rw [mfold, hl']
    rfl
  · obtain ⟨blk', hb', hblk⟩ := hget b blk hb
    exact ⟨blk', hb', by rwa [Nat.zero_add] at hblk⟩

/-- `int x = -1; return x < 0;` -/
def negLessFn : MFn where
  blk := [{ ins := [⟨.alloca, .ptr, some 0, .con (mconstInt .i64 4), .none, none, 0⟩,
                    ⟨.store, .i32, none, .con (mconstInt .i32 (-1)), .val 0, none, 0⟩,
                    ⟨.load, .i32, some 1, .val 0, .none, none, 0⟩,
                    ⟨.cslt, .i32, some 2, .val 1, .con (mconstInt .i32 0), none, 0⟩]
            term := ⟨.ret, .val 2⟩ }]
  val := [⟨.temp, .ptr, false, none, "", some 0, true⟩,
          ⟨.temp, .i32, false, none, "", some 0, true⟩,
          ⟨.temp, .i32, false, none, "", some 0, true⟩]
  rettype := .i32

/-- `return x + (2 + 3);` -/
def addFiveFn : MFn where
  blk := [{ ins := [⟨.par, .i32, some 0, .none, .none, none, 0⟩,
                    ⟨.add, .i32, some 1, .con (mconstInt .i32 2), .con (mconstInt .i32 3),
                      none, 0⟩,
                    ⟨.add, .i32, some 2, .val 0, .val 1, none, 0⟩]
            term := ⟨.ret, .val 2⟩ }]
  val := [⟨.temp, .i32, false, none, "", some 0, true⟩,
          ⟨.temp, .i32, false, none, "", some 0, true⟩,
          ⟨.temp, .i32, false, none, "", some 0, true⟩]
  rettype := .i32

end MeuOS.Mir
