import MeuOS.Mir.BlockSsa
import MeuOS.Mir.MfoldSound

namespace MeuOS.Mir

open MeuOS.Lib List

/-!
# Forwarding copies keeps a block's meaning

A copy and a collapsed phi hand a value on at a type of their own: the result holds what is left
of the source at the operation's width and then at its own.  Putting the source in the place of
the result is right where every reader sees the one as it saw the other (`Seen`).

* `Seen` — that condition;
* `CopyInv` — the two runs inside a block, one with the copies and one without;
* `Forwarded.run` — the invariant down to the terminator;
* `mcopyBlock_matches` — one round of the first half of `mcopy`.
-/

/-! ### What a reader sees in the place of the result -/

/-- Some state gives `r` the pattern `x`. -/
def MRef.Holds (H : Host) (fn : MFn) (r : MRef) (x : BitVec 64) : Prop :=
  ∃ regs, (opnd H fn regs r).bits = x

/-- The type a reference is read at. -/
def MFn.refType (fn : MFn) : MRef → MType
  | .none => .none
  | .val v => fn.vtype v
  | .con c => c.type

/-- What a copy or phi of type `t` leaves of a pattern in its result `d`. -/
def MFn.kept (fn : MFn) (d : ValId) (t : MType) (x : BitVec 64) : BitVec 64 :=
  low (fn.vtype d).bits (low t.bits x)

/-- A pattern read at a type. -/
def Opnd.ofType (x : BitVec 64) (t : MType) : Opnd := ⟨x, t, Option.none⟩

/-- A copy or phi of type `t` hands `r` on to `d`: every reader of `d` sees `r` as it sees `d`. -/
structure Seen (H : Host) (fn : MFn) (d : ValId) (t : MType) (r : MRef) : Prop where
  src0 : ∀ x, r.Holds H fn x → ∀ blk ∈ fn.blk, ∀ i ∈ blk.ins, i.src0 = .val d →
    i.view0 (.ofType x (fn.refType r)) = i.view0 (.ofType (fn.kept d t x) (fn.vtype d))
  src1 : ∀ x, r.Holds H fn x → ∀ blk ∈ fn.blk, ∀ i ∈ blk.ins, i.src1 = .val d →
    i.view1 (.ofType x (fn.refType r)) = i.view1 (.ofType (fn.kept d t x) (fn.vtype d))
  term : ∀ x, r.Holds H fn x → ∀ blk ∈ fn.blk, blk.term.src0 = .val d →
    termView fn blk.term (.ofType x (fn.refType r)) =
      termView fn blk.term (.ofType (fn.kept d t x) (fn.vtype d))
  phi : ∀ x, r.Holds H fn x → ∀ blk ∈ fn.blk, ∀ q ∈ blk.phi, ∀ a ∈ q.args,
    a.1 = d → low q.dtype.bits x = low q.dtype.bits (fn.kept d t x)

/-- The condition on a forwarded copy, as it stood when it was killed. -/
def CopySeen (H : Host) (fn : MFn) (i : MIns) : Prop :=
  ∀ d, i.dst = some d → Seen H fn d i.dtype i.src0

/-- The condition on a collapsed phi. -/
def Collapse.Seen (H : Host) (c : Collapse) : Prop :=
  Mir.Seen H c.fn c.phi.dst c.phi.dtype (.val c.arg)

theorem view0_ofType (i : MIns) (x : Opnd) : i.view0 (.ofType x.bits x.ty) = i.view0 x := rfl

theorem view1_ofType (i : MIns) (x : Opnd) : i.view1 (.ofType x.bits x.ty) = i.view1 x := rfl

theorem termView_ofType (fn : MFn) (t : MTerm) (x : Opnd) :
    termView fn t (.ofType x.bits x.ty) = termView fn t x := rfl

theorem opnd_ty (H : Host) (fn : MFn) (regs : ValId → BitVec 64) (r : MRef) :
    (opnd H fn regs r).ty = fn.refType r := by
  rcases r with _ | v | c <;> rfl

variable {i : MIns} {H : Host} {d v : ValId} {is out killed : List MIns} {ok : ValId → MRef → Prop}
  {σ τ : Subst} {blk blk' : MBlk} {x b : BlkId} {fn' : MFn}

theorem view0_copy (hop : i.op = .copy) (x : Opnd) :
    i.view0 x = .bare (low i.dtype.bits x.bits) := by
  unfold MIns.view0 MIns.convView
  rw [hop]
  rfl

/-- At one type of 64 bits nothing is cut off. -/
theorem seen_of_full {fn : MFn} {t : MType} {r : MRef}
    (hd : (fn.vtype d).bits = 64) (ht : t.bits = 64) (hr : fn.refType r = fn.vtype d) :
    Seen H fn d t r := by
  have hkept : ∀ x, fn.kept d t x = x := by
    intro x
    rw [MFn.kept, hd, ht, low_full, low_full]
  refine ⟨?_, ?_, ?_, ?_⟩
  all_goals
    intros
    simp only [hkept, hr]

/-! ### Two runs of a block -/

section Block

variable {H : Host} {fn : MFn} {D : ValId → Prop}

/-- `v` is killed, and its readers in `rest` get `r`. -/
structure HeldAs (H : Host) (fn : MFn) (D : ValId → Prop) (rest : List MIns) (st : State)
    (v : ValId) (r : MRef) : Prop where
  temp : fn.isTemp v = true
  seen : ∃ t, Seen H fn v t r ∧ st.regs v = fn.kept v t (opnd H fn st.regs r).bits
  settled : Settled fn rest r
  once : ∀ i ∈ rest, i.dst ≠ some v
  avoids : r.Avoids D

/-- The run with the copies and the run without, in front of `rest`. -/
structure CopyInv (H : Host) (fn : MFn) (D : ValId → Prop) (rest : List MIns) (σ : Subst)
    (st st' : State) : Prop where
  agree : StateAgree D st st'
  held : ∀ v r, σ v = some r → HeldAs H fn D rest st v r

/-- An instruction leaves a killed temp and what stands for it alone. -/
theorem HeldAs.next {i : MIns} {rest : List MIns} {st : State} {v : ValId} {r : MRef}
    (h : HeldAs H fn D (i :: rest) st v r) (x : Option (BitVec 64)) (w : World) :
    HeldAs H fn D rest ⟨setReg fn st.regs i.dst x, w⟩ v r := by
  obtain ⟨t, hok, hregs⟩ := h.seen
  refine ⟨h.temp, ⟨t, hok, ?_⟩, h.settled.tail, fun j hj => h.once j (mem_cons_of_mem _ hj),
    h.avoids⟩
  dsimp only
  rw [h.settled.opnd, setReg_of_ne fn st.regs (h.once i mem_cons_self)]
  exact hregs

/-- A reference after a substitution. -/
theorem Subst.ref_cases (σ : Subst) (r : MRef) :
    (σ.ref r = r ∧ ∀ v, r = .val v → σ v = Option.none) ∨
      ∃ v s, r = .val v ∧ σ v = some s ∧ σ.ref r = s := by
  rcases r with _ | v | c
  · exact .inl ⟨rfl, fun v h => by cases h⟩
  · rcases h : σ v with _ | s
    · refine .inl ⟨by simp [Subst.ref, h], fun u hu => ?_⟩
      cases hu
      exact h
    · exact .inr ⟨v, s, rfl, h, by simp [Subst.ref, h]⟩
  · exact .inl ⟨rfl, fun v h => by cases h⟩

section Read

variable {rest : List MIns} {σ : Subst} {st st' : State} {r : MRef}

/-- A reader whose view of `d` is that of what stands for it reads the same after the
    substitution. -/
theorem CopyInv.read (hinv : CopyInv H fn D rest σ st st')
    (hread : ∀ v, r = .val v → σ v = Option.none → ¬ D v) (view : Opnd → Opnd)
    (hview : ∀ x : Opnd, view (.ofType x.bits x.ty) = view x)
    (hseen : ∀ v t s, r = .val v → Seen H fn v t s → ∀ x, s.Holds H fn x →
      view (.ofType x (fn.refType s)) = view (.ofType (fn.kept v t x) (fn.vtype v))) :
    view (opnd H fn st'.regs (σ.ref r)) = view (opnd H fn st.regs r) := by
  rcases σ.ref_cases r with ⟨hr, hnone⟩ | ⟨v, s, rfl, hs, hr⟩
  · rw [hr, opnd_agree hinv.agree.regs H fn fun v hv => hread v hv (hnone v hv)]
  · have hheld := hinv.held v s hs
    obtain ⟨t, hok, hregs⟩ := hheld.seen
    have hnew := hview (opnd H fn st.regs s)
    have hold := hview ⟨st.regs v, fn.vtype v, some v⟩
    rw [opnd_ty] at hnew
    rw [hr, opnd_agree hinv.agree.regs H fn hheld.avoids, opnd_temp H hheld.temp, ← hnew, ← hold,
      hregs]
    exact hseen v t s rfl hok _ ⟨st.regs, rfl⟩

/-- A kept instruction does the same on both sides. -/
theorem CopyInv.keep {blk : MBlk} (hblk : blk ∈ fn.blk) {i : MIns} (hi : i ∈ blk.ins) {st2 : State}
    (hinv : CopyInv H fn D (i :: rest) σ st st')
    (hread : ∀ r, i.src0 = r ∨ i.src1 = r → ∀ v, r = .val v → σ v = Option.none → ¬ D v)
    (hs : stepIns H .plain fn st i = some st2) :
    ∃ st2', stepIns H .plain fn st' (i.subst σ) = some st2' ∧ CopyInv H fn D rest σ st2 st2' := by
  have hv0 := hinv.read (hread i.src0 (.inl rfl)) i.view0 (view0_ofType i)
    fun v t s hv hok x hx => hok.src0 x hx blk hblk i hi hv
  have hv1 := hinv.read (hread i.src1 (.inr rfl)) i.view1 (view1_ofType i)
    fun v t s hv hok x hx => hok.src1 x hx blk hblk i hi hv
  obtain ⟨e, he, rfl⟩ := Option.map_eq_some_iff.mp hs
  have heff : effect H .plain fn (i.subst σ) (opnd H fn st'.regs (σ.ref i.src0))
      (opnd H fn st'.regs (σ.ref i.src1)) st'.w = some e := by
    rw [hinv.agree.w]
    exact (effect_of_view hv0 hv1 H fn st.w).trans he
  refine ⟨⟨setReg fn st'.regs i.dst e.1, e.2⟩, Option.map_eq_some_iff.mpr ⟨e, heff, rfl⟩, ?_⟩
  exact ⟨⟨hinv.agree.regs.setReg fn i.dst e.1, rfl⟩, fun v r hv => (hinv.held v r hv).next _ _⟩

end Read

/-- Results of an ordered block are temps. -/
theorem Ordered.temp (h : Ordered fn is) (hi : i ∈ is)
    (hd : i.dst = some d) : fn.isTemp d = true := by
  induction is with
  | nil => cases hi
  | cons a is ih =>
    rcases mem_cons.mp hi with rfl | hi
    · exact (h.2.1 d hd).1
    · exact ih h.2.2 hi

theorem Ordered.congr {g : MFn} (hval : g.val = fn.val) (h : Ordered fn is) :
    Ordered g is := by
  induction is with
  | nil => trivial
  | cons i is ih =>
    refine ⟨fun v hv => h.1 v (isTemp_congr hval v ▸ hv), fun d hd => ?_, ih h.2.2⟩
    rw [isTemp_congr hval]
    exact h.2.1 d hd

/-- A value read in front of `is`, and not killed yet, is not killed there. -/
theorem Forwarded.not_killed (h : Forwarded ok σ is τ out killed)
    (htemp : ∀ i ∈ is, ∀ d, i.dst = some d → fn.isTemp d = true) (hv : σ v = Option.none)
    (hread : fn.isTemp v = true → ∀ i ∈ is, i.dst ≠ some v) : ¬ (τ v).isSome := by
  intro hτ
  rcases h.killed_dst hτ with hσ | ⟨_, -, i, hi, hd⟩
  · rw [hv] at hσ
    cases hσ
  · exact hread (htemp i hi v hd) i hi hd

/-- **The rest of a block**, run with the copies and without. -/
theorem Forwarded.run (hblk : blk ∈ fn.blk) (h : Forwarded ok σ is τ out killed)
    (hmem : ∀ i ∈ is, i ∈ blk.ins) (hord : Ordered fn is) (hseen : ∀ i ∈ killed, CopySeen H fn i)
    {st st' st1 : State} (hinv : CopyInv H fn (fun v => (τ v).isSome) is σ st st')
    (hs : runIns H .plain fn is st = some st1) :
    ∃ st1', runIns H .plain fn out st' = some st1' ∧
      CopyInv H fn (fun v => (τ v).isSome) [] τ st1 st1' := by
  induction h generalizing st st' with
  | nil =>
    cases hs
    exact ⟨st', rfl, hinv⟩
  | @keep σ τ i is out killed tail ih =>
    obtain ⟨st2, h2, hs⟩ := runIns_cons.mp hs
    obtain ⟨st2', h2', hnext⟩ := hinv.keep hblk (hmem i mem_cons_self) (fun r hr v hv hσ => by
      subst hv
      exact tail.not_killed (fun j hj d => hord.2.2.temp hj) hσ fun ht j hj =>
        hord.1 v ht hr j (mem_cons_of_mem _ hj)) h2
    obtain ⟨st1', h1', hend⟩ := ih (fun j hj => hmem j (mem_cons_of_mem _ hj)) hord.2.2 hseen
      hnext hs
    exact ⟨st1', runIns_cons.mpr ⟨_, h2', h1'⟩, hend⟩
  | @kill σ τ i is out killed d hop hdst hsrc tail ih =>
    obtain ⟨st2, h2, hs⟩ := runIns_cons.mp hs
    have hcls : i.op.cls = .pure := by rw [hop]; rfl
    obtain ⟨x, hx, rfl⟩ := (stepIns_pure hcls).mp h2
    have hσd : σ d = Option.none := by
      rcases h : σ d with _ | r
      · rfl
      · exact absurd hdst ((hinv.held d r h).once i mem_cons_self)
    have hτd : (τ d).isSome := tail.mono (by simp [Subst.kill])
    have hread : ∀ v, i.src0 = .val v → σ v = Option.none → ¬ (τ v).isSome := by
      intro v hr hv
      have hne : v ≠ d := by
        rintro rfl
        exact hord.1 v (hord.temp mem_cons_self hdst) (.inl hr) i mem_cons_self hdst
      refine tail.not_killed (fun j hj d => hord.2.2.temp hj) (by simp [Subst.kill, hne, hv])
        fun ht j hj => hord.1 v ht (.inl hr) j (mem_cons_of_mem _ hj)
    -- what the copy reads, and what stands for it
    have hview := hinv.read hread i.view0 (view0_ofType i) fun v t s hv hok x hx =>
      hok.src0 x hx blk hblk i (hmem i mem_cons_self) hv
    rw [view0_copy hop, view0_copy hop] at hview
    have hbits : low i.dtype.bits (opnd H fn st'.regs (σ.ref i.src0)).bits = x := by
      have h := hx
      rw [hop, pureVal_copy] at h
      exact (Opnd.mk.inj hview).1.trans (Option.some.inj h)
    obtain ⟨hsettled, havoids⟩ : Settled fn (i :: is) (σ.ref i.src0) ∧
        (σ.ref i.src0).Avoids fun v => (τ v).isSome := by
      rcases σ.ref_cases i.src0 with ⟨hr, hnone⟩ | ⟨v, s, -, hs, hr⟩
      · rw [hr]
        exact ⟨fun v hv ht j hj => hord.1 v ht (.inl hv) j hj, fun v hv => hread v hv (hnone v hv)⟩
      · rw [hr]
        exact ⟨(hinv.held v s hs).settled, (hinv.held v s hs).avoids⟩
    have hnext : CopyInv H fn (fun v => (τ v).isSome) is (σ.kill d i)
        ⟨setReg fn st.regs i.dst (some x), st.w⟩ st' := by
      have hτd : (τ d).isSome := tail.mono (by simp [Subst.kill])
      refine ⟨⟨hdst ▸ hinv.agree.regs.setReg_left fn hτd (some x), hinv.agree.w⟩, fun v r hv => ?_⟩
      by_cases hvd : v = d
      · subst hvd
        obtain rfl : σ.ref i.src0 = r := by simpa [Subst.kill] using hv
        refine ⟨hord.temp mem_cons_self hdst, ⟨i.dtype, ?_, ?_⟩, hsettled.tail,
          (hord.2.1 v hdst).2, havoids⟩
        · exact hseen (i.subst σ) mem_cons_self v hdst
        · dsimp only
          rw [hsettled.opnd, ← opnd_agree hinv.agree.regs H fn havoids, MFn.kept, hbits, hdst]
          simp [setReg]
      · have hv' : σ v = some r := by simpa [Subst.kill, hvd] using hv
        exact (hinv.held v r hv').next _ _
    exact ih (fun j hj => hmem j (mem_cons_of_mem _ hj)) hord.2.2
      (fun j hj => hseen j (mem_cons_of_mem _ hj)) hnext hs

end Block

/-! ### One round of the first half -/

section Round

variable {H : Host} {fn : MFn} {b : BlkId} {blk : MBlk}

/-- Killed temps are temps that nothing outside the block reads. -/
theorem killed_local (hord : Ordered fn blk.ins)
    (h : Forwarded (CopyTest fn b) (fun _ => Option.none) blk.ins τ out killed)
    (hv : (τ v).isSome) : fn.isTemp v = true ∧ LocalTo b (buildUses fn v) := by
  rcases h.killed_dst hv with h | ⟨r, hok, i, hi, hd⟩
  · cases h
  · have ht := hord.temp hi hd
    exact ⟨ht, localTo_of_usedOutside ht (usedOutside_of_copySrcOk hok)⟩

/-- The same of the copies as they were killed. -/
theorem Forwarded.killed_record (hord : Ordered fn is)
    (h : Forwarded (CopyTest fn b) σ is τ out killed) (hi : i ∈ killed)
    (hd : i.dst = some d) : fn.isTemp d = true ∧ LocalTo b (buildUses fn d) := by
  induction h with
  | nil => cases hi
  | keep _ ih => exact ih hord.2.2 hi
  | @kill σ τ x is out killed e hop hdst hsrc tail ih =>
    rcases mem_cons.mp hi with rfl | hi
    · cases hdst.symm.trans hd
      have ht := hord.temp mem_cons_self hdst
      exact ⟨ht, localTo_of_usedOutside ht (usedOutside_of_copySrcOk hsrc)⟩
    · exact ih hord.2.2 hi

/-- Another block does not read a local temp. -/
theorem LocalTo.unread (ht : fn.isTemp v = true) (h : LocalTo b (buildUses fn v))
    (hx : fn.blk[x]? = some blk') (hne : x ≠ b) : ¬ blk'.Uses v := by
  have hout : ∀ u ∈ buildUses fn v, (∀ i a, u ≠ .ins x i a) ∧ u ≠ .term x := by
    intro u hu
    rcases h u hu with ⟨i, a, rfl⟩ | rfl
    · exact ⟨fun _ _ he => hne (MUse.ins.inj he).1.symm, fun he => by cases he⟩
    · exact ⟨fun _ _ he => (by cases he), fun he => hne (MUse.term.inj he).symm⟩
  rintro (⟨i, hi, hr⟩ | hr)
  · obtain ⟨j, hj⟩ := getElem?_of_mem hi
    rcases hr with hr | hr
    · exact (hout _ (use_of_src0 ht hx hj hr)).1 j 0 rfl
    · exact (hout _ (use_of_src1 ht hx hj hr)).1 j 1 rfl
  · exact (hout _ (use_of_term ht hx hr)).2 rfl

theorem LocalTo.unread_phi (ht : fn.isTemp v = true) (h : LocalTo b (buildUses fn v))
    (hx : fn.blk[x]? = some blk') {q : MPhi} (hq : q ∈ blk'.phi) {c : BlkId} : (v, c) ∉ q.args := by
  intro ha
  obtain ⟨k, hk⟩ := getElem?_of_mem hq
  obtain ⟨j, hj⟩ := getElem?_of_mem ha
  exact h.no_phi _ _ _ (use_of_phi ht hx hk hj)

/-- **One block without its forwarded copies** runs as before. -/
theorem forwarded_block
    (hsame : SameBut b fn fn') (hb : fn.blk[b]? = some blk) (hord : Ordered fn blk.ins)
    (hb' : fn'.blk[b]? = some { blk with
      ins := out, term := { blk.term with src0 := τ.ref blk.term.src0 } })
    (h : Forwarded (CopyTest fn b) (fun _ => Option.none) blk.ins τ out killed)
    (hseen : ∀ i ∈ killed, CopySeen H fn i) {c c' : Cfg} {s : Cfg ⊕ Done}
    (hc : CfgAgree (fun v => (τ v).isSome) c c') (hs : runBlk H .plain fn c = some s) :
    ∃ s', runBlk H .plain fn' c' = some s' ∧ LiftRel (CfgAgree fun v => (τ v).isSome) Eq s s' := by
  obtain ⟨blk', st1, st2, hx, h1, h2, hs⟩ := runBlk_eq_some.mp hs
  obtain ⟨st1', h1', hag⟩ := enterBlk_agree H fn hc.st (fun q hq a ha hv =>
    (killed_local hord h hv).2.unread_phi (killed_local hord h hv).1 hx hq ha) h1
  by_cases hcb : c.b = b
  · rw [hcb] at hx hs
    cases hb.symm.trans hx
    obtain ⟨st2', h2', hinv⟩ := h.run (mem_of_getElem? hb) (fun _ hi => hi) hord hseen
      ⟨hag, fun v r hv => by cases hv⟩ h2
    have hview := hinv.read (r := blk.term.src0) (fun v _ hv => by simp [hv])
      (termView fn blk.term) (termView_ofType fn blk.term) fun v t s hv hok x hx =>
        hok.term x hx blk (mem_of_getElem? hb) hv
    obtain ⟨s', hs', hrel⟩ := runTerm_of_view blk { blk with
      ins := out, term := { blk.term with src0 := τ.ref blk.term.src0 } } rfl rfl rfl hinv.agree
      hview hs
    refine ⟨s', runBlk_eq_some.mpr ⟨_, st1', st2', by rw [hc.b, hcb]; exact hb', ?_, ?_, ?_⟩, hrel⟩
    · rw [enterBlk_congr hsame.val, hc.prev]
      exact h1'
    · rw [runIns_congr hsame.val]
      exact h2'
    · rw [hc.b, hcb, runTerm_congr hsame.val hsame.rettype]
      exact hs'
  · -- the other blocks read nothing that was killed
    have hunread : ∀ v, (τ v).isSome → ¬ blk'.Uses v := fun v hv =>
      (killed_local hord h hv).2.unread (killed_local hord h hv).1 hx hcb
    obtain ⟨st2', h2', hag2⟩ := runIns_agree H .plain fn blk'.ins hag (fun i hi =>
      ⟨fun v hr hv => hunread v hv (.inl ⟨i, hi, .inl hr⟩),
        fun v hr hv => hunread v hv (.inl ⟨i, hi, .inr hr⟩)⟩) h2
    obtain ⟨s', hs', hrel⟩ := runTerm_agree H fn hag2 (fun v hr hv => hunread v hv (.inr hr)) hs
    refine ⟨s', runBlk_eq_some.mpr ⟨blk', st1', st2', ?_, ?_, ?_, ?_⟩, hrel⟩
    · rw [hc.b, hsame.other c.b hcb]
      exact hx
    · rw [enterBlk_congr hsame.val, hc.prev]
      exact h1'
    · rw [runIns_congr hsame.val]
      exact h2'
    · rw [hc.b, runTerm_congr hsame.val hsame.rettype]
      exact hs'

/-- A changed block keeps its edges. -/
theorem SameBut.flow (hsame : SameBut b fn fn') (hb : fn.blk[b]? = some blk) :
    SameFlow fn fn' := by
  refine ⟨hsame.start, fun x => ?_⟩
  by_cases hx : x = b
  · obtain ⟨ins, src, hnew⟩ := hsame.block blk hb
    rw [hx, hnew, hb]
    rfl
  · rw [hsame.other x hx]

/-- What the kept instructions read was read before, and is not killed. -/
theorem Forwarded.reads
    (h : Forwarded ok σ is τ out killed) (hmem : ∀ i ∈ is, i ∈ blk.ins) (hord : Ordered fn is)
    (hσ : ∀ u v, σ u = some (.val v) → blk.Uses v ∧ ¬ (τ v).isSome) :
    (∀ i ∈ out, ∀ v, i.Reads v → blk.Uses v ∧ ¬ (τ v).isSome) ∧
      ∀ u v, τ u = some (.val v) → blk.Uses v ∧ ¬ (τ v).isSome := by
  induction h with
  | nil => exact ⟨fun i hi => absurd hi not_mem_nil, hσ⟩
  | @keep σ τ i is out killed tail ih =>
    have hi := hmem i mem_cons_self
    obtain ⟨hout, hτ⟩ := ih (fun j hj => hmem j (mem_cons_of_mem _ hj)) hord.2.2 hσ
    refine ⟨fun j hj v hr => ?_, hτ⟩
    rcases mem_cons.mp hj with rfl | hj
    · have hsrc : ∀ r, i.src0 = r ∨ i.src1 = r → σ.ref r = .val v →
          blk.Uses v ∧ ¬ (τ v).isSome := by
        intro r hr hrv
        rcases σ.ref_cases r with ⟨he, hnone⟩ | ⟨u, s, -, hs, he⟩
        · rw [he] at hrv
          subst hrv
          exact ⟨.inl ⟨i, hi, hr⟩, tail.not_killed (fun j hj d => hord.2.2.temp hj) (hnone v rfl)
            fun ht j hj => hord.1 v ht hr j (mem_cons_of_mem _ hj)⟩
        · exact hσ u v (hs.trans (congrArg some (he.symm.trans hrv)))
      rcases hr with hr | hr
      · exact hsrc i.src0 (.inl rfl) hr
      · exact hsrc i.src1 (.inr rfl) hr
    · exact hout j hj v hr
  | @kill σ τ i is out killed d hop hdst hsrc tail ih =>
    refine ih (fun j hj => hmem j (mem_cons_of_mem _ hj)) hord.2.2 fun u v hu => ?_
    by_cases hud : u = d
    · subst hud
      have hrv : σ.ref i.src0 = .val v := by simpa [Subst.kill] using hu
      rcases σ.ref_cases i.src0 with ⟨he, hnone⟩ | ⟨w, s, -, hs, he⟩
      · rw [he] at hrv
        have hne : v ≠ u := by
          rintro rfl
          exact hord.1 v (hord.temp mem_cons_self hdst) (.inl hrv) i mem_cons_self hdst
        refine ⟨.inl ⟨i, hmem i mem_cons_self, .inl hrv⟩, ?_⟩
        exact tail.not_killed (fun j hj d => hord.2.2.temp hj)
          (by simp [Subst.kill, hne, hnone v hrv])
          fun ht j hj => hord.1 v ht (.inl hrv) j (mem_cons_of_mem _ hj)
      · exact hσ w v (hs.trans (congrArg some (he.symm.trans hrv)))
    · exact hσ u v (by simpa [Subst.kill, hud] using hu)

/-- What is not killed is still defined. -/
theorem Forwarded.kept_dst (h : Forwarded ok σ is τ out killed) (hv : ¬ (τ v).isSome) (hi : i ∈ is)
    (hd : i.dst = some v) : ∃ j ∈ out, j.dst = some v := by
  induction h with
  | nil => cases hi
  | @keep σ τ i' is out killed tail ih =>
    rcases mem_cons.mp hi with rfl | hi
    · exact ⟨i.subst σ, mem_cons_self, hd⟩
    · obtain ⟨j, hj, hjd⟩ := ih hv hi
      exact ⟨j, mem_cons_of_mem _ hj, hjd⟩
  | @kill σ τ i' is out killed d hop hdst hsrc tail ih =>
    rcases mem_cons.mp hi with rfl | hi
    · cases hdst.symm.trans hd
      exact absurd (tail.mono (by simp [Subst.kill])) hv
    · exact ih hv hi

/-- No result is new. -/
theorem Forwarded.out_dst
    (h : Forwarded ok σ is τ out killed) {j : MIns} (hj : j ∈ out) : ∃ i ∈ is, i.dst = j.dst := by
  induction h with
  | nil => cases hj
  | @keep σ τ i is out killed tail ih =>
    rcases mem_cons.mp hj with rfl | hj
    · exact ⟨i, mem_cons_self, rfl⟩
    · obtain ⟨x, hx, hd⟩ := ih hj
      exact ⟨x, mem_cons_of_mem _ hx, hd⟩
  | @kill σ τ i is out killed d hop hdst hsrc tail ih =>
    obtain ⟨x, hx, hd⟩ := ih hj
    exact ⟨x, mem_cons_of_mem _ hx, hd⟩

/-- A changed block keeps its phis. -/
theorem SameBut.phis (hsame : SameBut b fn fn') (hb : fn.blk[b]? = some blk)
    (hx : fn'.blk[x]? = some blk') :
    ∃ blk₀, fn.blk[x]? = some blk₀ ∧ blk'.phi = blk₀.phi ∧ (x ≠ b → blk' = blk₀) := by
  by_cases hxb : x = b
  · subst hxb
    obtain ⟨ins, src, hnew⟩ := hsame.block blk hb
    cases hnew.symm.trans hx
    exact ⟨blk, hb, rfl, fun h => absurd rfl h⟩
  · rw [hsame.other x hxb] at hx
    exact ⟨blk', hx, rfl, fun _ => rfl⟩

/-- SSA form stays when the copies go. -/
theorem forwarded_blockSsa (hssa : fn.BlockSsa)
    (hsame : SameBut b fn fn') (hb : fn.blk[b]? = some blk) (hord : Ordered fn blk.ins)
    (hb' : fn'.blk[b]? = some { blk with
      ins := out, term := { blk.term with src0 := τ.ref blk.term.src0 } })
    (h : Forwarded (CopyTest fn b) (fun _ => Option.none) blk.ins τ out killed) :
    fn'.BlockSsa := by
  have hflow := hsame.flow hb
  have hkilled : ∀ v, (τ v).isSome → fn.isTemp v = true ∧ LocalTo b (buildUses fn v) := fun v hv =>
    killed_local hord h hv
  obtain ⟨hreads, hτ⟩ := h.reads (fun _ hi => hi) hord (fun u v hu => by cases hu)
  -- the definitions: none is new, and those that were not killed are there
  have hsub : ∀ a v, v ∈ fn'.defsIn a → v ∈ fn.defsIn a := by
    intro a v hv
    by_cases ha : a = b
    · rw [ha, defsIn_of_getElem? hb', mem_defs] at hv
      rw [ha, defsIn_of_getElem? hb, mem_defs]
      rcases hv with hv | ⟨j, hj, hd⟩
      · exact .inl hv
      · obtain ⟨i, hi, hd'⟩ := h.out_dst hj
        exact .inr ⟨i, hi, hd'.trans hd⟩
    · obtain ⟨blk', ha', hv⟩ := mem_defsIn.mp hv
      exact mem_defsIn.mpr ⟨blk', (hsame.other a ha).symm.trans ha', hv⟩
  have hkeep : ∀ a v, v ∈ fn.defsIn a → ¬ (τ v).isSome → v ∈ fn'.defsIn a := by
    intro a v hv hnot
    by_cases ha : a = b
    · rw [ha, defsIn_of_getElem? hb, mem_defs] at hv
      rw [ha, defsIn_of_getElem? hb', mem_defs]
      rcases hv with hv | ⟨i, hi, hd⟩
      · exact .inl hv
      · exact .inr (h.kept_dst hnot hi hd)
    · obtain ⟨blk', ha', hv⟩ := mem_defsIn.mp hv
      exact mem_defsIn.mpr ⟨blk', (hsame.other a ha).trans ha', hv⟩
  refine ⟨fun blk' hx => ?_, fun a x blk' he hx q hq => ?_, fun x v hv => ?_,
    fun p x blk' hp hx => ?_, fun p x blk' hp hx q hq i hi => ?_,
    fun p x x' v hp hv hv' => ?_, fun p x blk' v hp hx ht hu => ?_,
    fun p x blk' q v c hp hx hq ha ht p' hp' => ?_⟩
  · obtain ⟨blk₀, hx₀, hphi, -⟩ := hsame.phis hb hx
    rw [hphi]
    exact hssa.entry blk₀ (hsame.start ▸ hx₀)
  · obtain ⟨blk₀, hx₀, hphi, -⟩ := hsame.phis hb hx
    exact hssa.args a x blk₀ (hflow.symm.edge he) hx₀ q (hphi ▸ hq)
  · rw [isTemp_congr hsame.val]
    exact hssa.temps x v (hsub x v hv)
  · obtain ⟨blk₀, hx₀, hphi, -⟩ := hsame.phis hb hx
    rw [hphi]
    exact hssa.phiOnce p x blk₀ (hflow.symm.path hp) hx₀
  · obtain ⟨blk₀, hx₀, hphi, hother⟩ := hsame.phis hb hx
    by_cases hxb : x = b
    · subst hxb
      cases hb'.symm.trans hx
      obtain ⟨j, hj, hd⟩ := h.out_dst hi
      rw [← hd]
      exact hssa.phiIns p x blk (hflow.symm.path hp) hb q hq j hj
    · exact hssa.phiIns p x blk₀ (hflow.symm.path hp) hx₀ q (hphi ▸ hq) i (hother hxb ▸ hi)
  · exact hssa.once p x x' v (hflow.symm.path hp) (hsub x v hv) (hsub x' v hv')
  · -- a read that is left was one before
    rw [isTemp_congr hsame.val] at ht
    obtain ⟨blk₀, hx₀, hu₀, hnot⟩ : ∃ blk₀, fn.blk[x]? = some blk₀ ∧ blk₀.Uses v ∧
        ¬ (τ v).isSome := by
      by_cases hxb : x = b
      · subst hxb
        cases hb'.symm.trans hx
        refine ⟨blk, hb, ?_⟩
        rcases hu with ⟨i, hi, hr⟩ | hr
        · exact hreads i hi v hr
        · rcases τ.ref_cases blk.term.src0 with ⟨he, hnone⟩ | ⟨u, s, -, hs, he⟩
          · rw [he] at hr
            exact ⟨.inr hr, by simp [hnone v hr]⟩
          · exact hτ u v (hs.trans (congrArg some (he.symm.trans hr)))
      · rw [hsame.other x hxb] at hx
        exact ⟨blk', hx, hu, fun hv => (hkilled v hv).2.unread (hkilled v hv).1 hx hxb hu⟩
    obtain ⟨a, ha, hd⟩ := hssa.dom p x blk₀ v (hflow.symm.path hp) hx₀ ht hu₀
    exact ⟨a, ha, hkeep a v hd hnot⟩
  · rw [isTemp_congr hsame.val] at ht
    obtain ⟨blk₀, hx₀, hphi, -⟩ := hsame.phis hb hx
    rw [hphi] at hq
    obtain ⟨a, hmem, hd⟩ := hssa.domPhi p x blk₀ q v c (hflow.symm.path hp) hx₀ hq ha ht p'
      (hflow.symm.path hp')
    exact ⟨a, hmem, hkeep a v hd fun hv => (hkilled v hv).2.unread_phi (hkilled v hv).1 hx₀ hq ha⟩

/-- A change to a block that cannot be reached leaves SSA form and every run alone. -/
theorem SameBut.unreached {fn' : MFn} (hsame : SameBut b fn fn') (hb : fn.blk[b]? = some blk)
    (hdst : ∀ v, v ∈ fn'.defsIn b → v ∈ fn.defsIn b) (hno : ∀ p, ¬ fn.Path p b) :
    (fn.BlockSsa → fn'.BlockSsa) ∧ ∀ c c' s, (∃ p, fn.Path p c.b) → c' = c →
      runBlk H .plain fn c = some s → runBlk H .plain fn' c' = some s := by
  have hflow := hsame.flow hb
  have hother : ∀ p x, fn'.Path p x → fn'.blk[x]? = fn.blk[x]? := fun p x hp =>
    hsame.other x fun hx => hno p (hx ▸ hflow.symm.path hp)
  have hdefs : ∀ p x, fn'.Path p x → fn'.defsIn x = fn.defsIn x := fun p x hp => by
    simp only [MFn.defsIn, hother p x hp]
  have hsub : ∀ x v, v ∈ fn'.defsIn x → v ∈ fn.defsIn x := by
    intro x v hv
    by_cases hxb : x = b
    · rw [hxb] at hv ⊢
      exact hdst v hv
    · simpa only [MFn.defsIn, hsame.other x hxb] using hv
  constructor
  · intro hssa
    refine ⟨fun blk' hx => ?_, fun a x blk' he hx q hq => ?_, fun x v hv => ?_,
      fun p x blk' hp hx => ?_, fun p x blk' hp hx q hq i hi => ?_,
      fun p x x' v hp hv hv' => ?_, fun p x blk' v hp hx ht hu => ?_,
      fun p x blk' q v c hp hx hq ha ht p' hp' => ?_⟩
    · obtain ⟨blk₀, hx₀, hphi, -⟩ := hsame.phis hb hx
      rw [hphi]
      exact hssa.entry blk₀ (hsame.start ▸ hx₀)
    · obtain ⟨blk₀, hx₀, hphi, -⟩ := hsame.phis hb hx
      exact hssa.args a x blk₀ (hflow.symm.edge he) hx₀ q (hphi ▸ hq)
    · rw [isTemp_congr hsame.val]
      exact hssa.temps x v (hsub x v hv)
    · exact hssa.phiOnce p x blk' (hflow.symm.path hp) (hother p x hp ▸ hx)
    · exact hssa.phiIns p x blk' (hflow.symm.path hp) (hother p x hp ▸ hx) q hq i hi
    · exact hssa.once p x x' v (hflow.symm.path hp) (hsub x v hv) (hsub x' v hv')
    · rw [isTemp_congr hsame.val] at ht
      obtain ⟨a, ha, hd⟩ := hssa.dom p x blk' v (hflow.symm.path hp) (hother p x hp ▸ hx) ht hu
      obtain ⟨r, hr⟩ := hp.reach ha
      exact ⟨a, ha, (hdefs r a hr).symm ▸ hd⟩
    · rw [isTemp_congr hsame.val] at ht
      obtain ⟨a, hmem, hd⟩ := hssa.domPhi p x blk' q v c (hflow.symm.path hp) (hother p x hp ▸ hx) hq
        ha ht p' (hflow.symm.path hp')
      obtain ⟨r, hr⟩ := hp'.reach hmem
      exact ⟨a, hmem, (hdefs r a hr).symm ▸ hd⟩
  · rintro c c' s ⟨p, hp⟩ rfl hs
    obtain ⟨blk', st1, st2, hx, h1, h2, hs⟩ := runBlk_eq_some.mp hs
    refine runBlk_eq_some.mpr ⟨blk', st1, st2, (hother p _ (hflow.path hp)).trans hx, ?_, ?_, ?_⟩
    · rw [enterBlk_congr hsame.val]
      exact h1
    · rw [runIns_congr hsame.val]
      exact h2
    · rw [runTerm_congr hsame.val hsame.rettype]
      exact hs

end Round

/-! ### All rounds -/

/-- Every run of `fn` is matched by one of `fn'`: the same blocks with the same memory, stores and
    calls, and the same value returned. -/
def Matched (H : Host) (fn fn' : MFn) : Prop := ∀ n st,
  Matches (runBlk H .plain fn) (runBlk H .plain fn') SameWorld Eq n (fn.entry st) (fn'.entry st)

theorem Matched.refl (H : Host) (fn : MFn) : Matched H fn fn :=
  fun _ _ => Matches.refl fun _ => ⟨rfl, rfl, rfl⟩

theorem Matched.trans {f g h : MFn} (hfg : Matched H f g) (hgh : Matched H g h) :
    Matched H f h := by
  intro n st
  refine (hfg n st).trans (hgh n st) ?_ fun _ _ _ h1 h2 => h1.trans h2
  rintro a b c ⟨h1, h2, h3⟩ ⟨k1, k2, k3⟩
  exact ⟨k1.trans h1, k2.trans h2, k3.trans h3⟩

/-- A pass is matched when its blocks are, on every path. -/
theorem matched_of_sim {fn : MFn} (D : ValId → Prop) (hstart : fn'.start = fn.start)
    (hsim : ∀ c c' s, (∃ p, fn.Path p c.b) → CfgAgree D c c' → runBlk H .plain fn c = some s →
      ∃ s', runBlk H .plain fn' c' = some s' ∧ LiftRel (CfgAgree D) Eq s s') :
    Matched H fn fn' := by
  intro n st
  have hon : SimOn (fun _ => True) (runBlk H .plain fn) (runBlk H .plain fn')
      (fun c c' => (∃ p, fn.Path p c.b) ∧ CfgAgree D c c') Eq := by
    rintro c c' s - ⟨⟨p, hp⟩, hc⟩ hs
    obtain ⟨s', hs', hrel⟩ := hsim c c' s ⟨p, hp⟩ hc hs
    refine ⟨s', hs', ?_⟩
    rcases s with d | d <;> rcases s' with d' | d'
    · exact ⟨⟨_, hp.step (edge_of_runBlk hs)⟩, hrel⟩
    · exact hrel.elim
    · exact hrel.elim
    · exact hrel
  exact hon.matches (fun _ _ h => h.2.sameWorld) (fun _ _ h => h)
    ⟨⟨[], .start⟩, hstart, rfl, StateAgree.refl _ _⟩ (along_of_forall (fun _ => trivial) _ _)

section Rounds

variable {H : Host} {fn g : MFn}

/-- The state of the first half in front of the rounds for `bs`. -/
structure CopyStage (fn g : MFn) (bs : List BlkId) : Prop where
  val : g.val = fn.val
  rettype : g.rettype = fn.rettype
  flow : SameFlow fn g
  ssa : g.BlockSsa
  todo : ∀ x ∈ bs, ∃ blk, fn.blk[x]? = some blk ∧ g.blk[x]? = some blk

/-- A local temp is seen as in the function the pass began with. -/
theorem Seen.of_local {t : MType} {r : MRef}
    (h : Seen H fn d t r) (hval : g.val = fn.val) (hret : g.rettype = fn.rettype)
    (hb : g.blk[b]? = some blk) (hmem : blk ∈ fn.blk) (htemp : g.isTemp d = true)
    (hlocal : LocalTo b (buildUses g d)) : Seen H g d t r := by
  have hread : ∀ blk' ∈ g.blk, blk'.Uses d → blk' = blk := by
    intro blk' hblk hu
    obtain ⟨x, hx⟩ := getElem?_of_mem hblk
    by_cases hxb : x = b
    · subst hxb
      exact Option.some.inj (hx.symm.trans hb)
    · exact absurd hu (hlocal.unread htemp hx hxb)
  have hholds : ∀ x, r.Holds H g x → r.Holds H fn x := by
    rintro x ⟨regs, hx⟩
    exact ⟨regs, by rw [← opnd_congr hval]; exact hx⟩
  have htype : g.refType r = fn.refType r := by
    rcases r with _ | v | c
    · rfl
    · exact vtype_congr hval v
    · rfl
  have hkept : ∀ x, g.kept d t x = fn.kept d t x := fun x => by
    simp only [MFn.kept, vtype_congr hval]
  refine ⟨fun x hx blk' hblk i hi hr => ?_, fun x hx blk' hblk i hi hr => ?_,
    fun x hx blk' hblk hr => ?_, fun x hx blk' hblk q hq a ha hr => ?_⟩
  · obtain rfl := hread blk' hblk (.inl ⟨i, hi, .inl hr⟩)
    rw [htype, hkept, vtype_congr hval]
    exact h.src0 x (hholds x hx) blk' hmem i hi hr
  · obtain rfl := hread blk' hblk (.inl ⟨i, hi, .inr hr⟩)
    rw [htype, hkept, vtype_congr hval]
    exact h.src1 x (hholds x hx) blk' hmem i hi hr
  · obtain rfl := hread blk' hblk (.inr hr)
    rw [htype, hkept, vtype_congr hval]
    have := h.term x (hholds x hx) blk' hmem hr
    unfold termView at this ⊢
    rw [hret]
    exact this
  · obtain ⟨y, hy⟩ := getElem?_of_mem hblk
    obtain ⟨v, c⟩ := a
    obtain rfl : v = d := hr
    exact absurd ha (hlocal.unread_phi htemp hy hq)

/-- The results in `is` are results in `js`. -/
def DstsIn (is js : List MIns) : Prop := ∀ i ∈ is, ∀ v, i.dst = some v → ∃ j ∈ js, j.dst = some v

theorem DstsIn.trans {js ks : List MIns} (h : DstsIn is js) (h' : DstsIn js ks) :
    DstsIn is ks := by
  intro i hi v hv
  obtain ⟨j, hj, hd⟩ := h i hi v hv
  exact h' j hj v hd

theorem code_modIns (f : MFn) (b : BlkId) (i : Nat) (u : MIns → MIns) :
    (f.modIns b i u).code b = (f.code b).modify i u := by
  unfold MFn.code MFn.modIns
  rw [modBlk_getElem?, if_pos rfl]
  rcases f.blk[b]? with _ | blk
  · simp
  · rfl

theorem dstsIn_modify (i : Nat) {u : MIns → MIns}
    (hu : ∀ x ∈ is, ∀ v, (u x).dst = some v → ∃ y ∈ is, y.dst = some v) :
    DstsIn (is.modify i u) is := by
  intro x hx v hv
  obtain ⟨j, hj⟩ := getElem?_of_mem hx
  rw [getElem?_modify] at hj
  obtain ⟨y, hy, he⟩ := Option.map_eq_some_iff.mp hj
  have hmem := mem_of_getElem? hy
  split at he
  · exact hu y hmem v (he ▸ hv)
  · exact ⟨y, hmem, he ▸ hv⟩

/-- The loop of a round makes up no results, not in a block that nothing reaches either. -/
theorem mcopyIns_dsts (b : BlkId) (s : CopyState) (i : Nat) :
    DstsIn ((mcopyIns b s i).fn.code b) (s.fn.code b) := by
  have hrefl : DstsIn (s.fn.code b) (s.fn.code b) := fun i hi v hv => ⟨i, hi, hv⟩
  unfold mcopyIns
  split
  next => exact hrefl
  next inst hinst =>
    split
    next d hd =>
      dsimp only
      rw [code_modIns]
      refine (dstsIn_modify i fun x _ v hv => ?_).trans ?_
      · cases hv
      · by_cases ht : s.fn.isTemp d = true
        · have hrep := (mrefReplace_local ht (localTo_of_usedOutside ht
            (usedOutside_of_copySrcOk (copyDst_some hd).2.2)) inst.src0)
          rcases hb : s.fn.blk[b]? with _ | blk
          · simp [MFn.code, hb] at hinst
          · rw [code_of_getElem? (hrep.2 blk hb), code_of_getElem? hb]
            intro x hx v hv
            obtain ⟨j, hj, rfl⟩ := mem_mapIdx.mp hx
            exact ⟨_, getElem_mem hj, hv⟩
        · rw [mrefReplace, if_neg ht]
          exact hrefl
    next =>
      dsimp only
      rw [code_modIns]
      exact dstsIn_modify _ fun _ _ v hv => ⟨inst, mem_of_getElem? hinst, hv⟩

theorem mcopyBlock_defs (s : MFn × List MIns)
    (hb : s.1.blk[b]? = some blk) (v : ValId) (hv : v ∈ (mcopyBlock s b).1.defsIn b) :
    v ∈ s.1.defsIn b := by
  have hloop : ∀ (is : List Nat) (t : CopyState),
      DstsIn ((is.foldl (mcopyIns b) t).fn.code b) (t.fn.code b) := by
    intro is
    induction is with
    | nil => exact fun t i hi v hv => ⟨i, hi, hv⟩
    | cons i is ih => exact fun t => (ih (mcopyIns b t i)).trans (mcopyIns_dsts b t i)
  obtain ⟨blk', hb', hv⟩ := mem_defsIn.mp hv
  obtain ⟨blk₀, hb₀, hphi, -⟩ := (mcopyBlock_sameBut s b).phis hb hb'
  refine mem_defsIn.mpr ⟨blk₀, hb₀, mem_defs.mpr ?_⟩
  rcases mem_defs.mp hv with hq | ⟨i, hi, hd⟩
  · exact .inl (hphi ▸ hq)
  · refine .inr ?_
    rw [← code_of_getElem? hb₀]
    refine hloop (range (s.1.code b).length) ⟨s.1, buildUses s.1, 0, s.2⟩ i ?_ v hd
    -- what is left is the front of the array
    unfold mcopyBlock at hb'
    dsimp only at hb'
    rw [setIns_getElem?, if_pos rfl] at hb'
    obtain ⟨blk₁, -, rfl⟩ := Option.map_eq_some_iff.mp hb'
    exact mem_of_mem_take hi

/-- The list of killed copies grows. -/
theorem mcopyBlock_killed (s : MFn × List MIns) (b : BlkId) : s.2 <+: (mcopyBlock s b).2 := by
  have hloop : ∀ (is : List Nat) (t : CopyState), t.killed <+: (is.foldl (mcopyIns b) t).killed := by
    intro is
    induction is with
    | nil => exact fun t => prefix_rfl
    | cons i is ih =>
      intro t
      refine List.IsPrefix.trans ?_ (ih (mcopyIns b t i))
      unfold mcopyIns
      split
      · exact prefix_rfl
      · split
        · exact prefix_append _ _
        · exact prefix_rfl
  exact hloop (range (s.1.code b).length) ⟨s.1, buildUses s.1, 0, s.2⟩

theorem mcopyCopies_killed (bs : List BlkId) (s : MFn × List MIns) :
    s.2 <+: (bs.foldl mcopyBlock s).2 := by
  induction bs generalizing s with
  | nil => exact prefix_rfl
  | cons b bs ih => exact (mcopyBlock_killed s b).trans (ih (mcopyBlock s b))

/-- **One round.** -/
theorem mcopyBlock_round (hfn : fn.SsaForm) {bs : List BlkId} {ks : List MIns}
    (hb : b ∉ bs) (hstage : CopyStage fn g (b :: bs))
    (hseen : ∀ i ∈ (mcopyBlock (g, ks) b).2, CopySeen H fn i) :
    CopyStage fn (mcopyBlock (g, ks) b).1 bs ∧ Matched H g (mcopyBlock (g, ks) b).1 := by
  have hsame := mcopyBlock_sameBut (g, ks) b
  obtain ⟨blk, hblk₀, hblk⟩ := hstage.todo b mem_cons_self
  have hflow : SameFlow fn (mcopyBlock (g, ks) b).1 := by
    have h := hsame.flow hblk
    exact ⟨h.start.trans hstage.flow.start, fun x => (h.succs x).trans (hstage.flow.succs x)⟩
  have hrest : ∀ x ∈ bs, ∃ blk, fn.blk[x]? = some blk ∧
      (mcopyBlock (g, ks) b).1.blk[x]? = some blk := by
    intro x hx
    obtain ⟨blk', h1, h2⟩ := hstage.todo x (mem_cons_of_mem _ hx)
    exact ⟨blk', h1, (hsame.other x fun he => hb (he ▸ hx)).trans h2⟩
  have hnext : ∀ h : (mcopyBlock (g, ks) b).1.BlockSsa, CopyStage fn (mcopyBlock (g, ks) b).1 bs :=
    fun h => ⟨hsame.val.trans hstage.val, hsame.rettype.trans hstage.rettype, hflow, h, hrest⟩
  by_cases hreach : ∃ p, g.Path p b
  · obtain ⟨p, hp⟩ := hreach
    have hord : Ordered g blk.ins := (hfn.ordered (hstage.flow.symm.path hp) hblk₀).congr hstage.val
    obtain ⟨τ, out, killed, hfwd, hblk', hks⟩ := mcopyBlock_forwarded hblk hord ks
    have hseen' : ∀ i ∈ killed, CopySeen H g i := by
      intro i hi d hd
      obtain ⟨ht, hlocal⟩ := hfwd.killed_record hord hi hd
      exact (hseen i (hks ▸ mem_append_right _ hi) d hd).of_local hstage.val hstage.rettype
        hblk (mem_of_getElem? hblk₀) ht hlocal
    refine ⟨hnext (forwarded_blockSsa hstage.ssa hsame hblk hord hblk' hfwd), ?_⟩
    exact matched_of_sim _ hsame.start fun c c' s _ hc hs =>
      forwarded_block hsame hblk hord hblk' hfwd hseen' hc hs
  · obtain ⟨hssa, hrun⟩ := @SameBut.unreached H g b blk _ hsame hblk
      (mcopyBlock_defs (g, ks) hblk) fun p hp => hreach ⟨p, hp⟩
    refine ⟨hnext (hssa hstage.ssa), ?_⟩
    refine matched_of_sim (fun _ => False) hsame.start fun c c' s hp hc hs => ?_
    obtain rfl : c' = c := by
      obtain ⟨h1, h2, h3, h4⟩ := hc
      rcases c with ⟨b, prev, regs, w⟩
      rcases c' with ⟨b', prev', regs', w'⟩
      obtain rfl : regs' = regs := funext fun v => h3 v not_false
      simp_all
    refine ⟨s, hrun c' c' s hp rfl hs, ?_⟩
    rcases s with d | d
    · exact CfgAgree.refl _ d
    · rfl

/-- **The first half of `mcopy`.** -/
theorem mcopyCopies_matched (hfn : fn.SsaForm) (hseen : ∀ i ∈ (mcopyCopies fn).2, CopySeen H fn i) :
    (mcopyCopies fn).1.BlockSsa ∧ Matched H fn (mcopyCopies fn).1 := by
  suffices hloop : ∀ (bs : List BlkId) (g : MFn) (ks : List MIns), bs.Nodup → CopyStage fn g bs →
      (∀ i ∈ (bs.foldl mcopyBlock (g, ks)).2, CopySeen H fn i) →
      (bs.foldl mcopyBlock (g, ks)).1.BlockSsa ∧ Matched H g (bs.foldl mcopyBlock (g, ks)).1 by
    refine hloop fn.linkOrder fn [] ?_ ⟨rfl, rfl, ⟨rfl, fun _ => rfl⟩, hfn.blockSsa, ?_⟩ hseen
    · exact nodup_reverse.mpr nodup_range
    · intro x hx
      have hlt : x < fn.blk.length := mem_range.mp (mem_reverse.mp hx)
      exact ⟨_, getElem?_eq_getElem hlt, getElem?_eq_getElem hlt⟩
  intro bs
  induction bs with
  | nil => exact fun g ks _ hstage _ => ⟨hstage.ssa, Matched.refl H g⟩
  | cons b bs ih =>
    intro g ks hnd hstage hseen
    rw [nodup_cons] at hnd
    obtain ⟨hnext, hmatch⟩ := mcopyBlock_round hfn hnd.1 hstage fun i hi =>
      hseen i ((mcopyCopies_killed bs (mcopyBlock (g, ks) b)).subset hi)
    obtain ⟨hssa, hrest⟩ := ih (mcopyBlock (g, ks) b).1 (mcopyBlock (g, ks) b).2 hnd.2 hnext hseen
    exact ⟨hssa, hmatch.trans hrest⟩

end Rounds

end MeuOS.Mir
