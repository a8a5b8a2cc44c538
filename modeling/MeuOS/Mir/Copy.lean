import MeuOS.Mir.Loadfwd
import MeuOS.Mir.View

namespace MeuOS.Mir

open MeuOS.Lib List Option Function

/-!
# Copy propagation — `src/mir/copy.c`

`mcopy` first forwards, block after block, the source of a copy to the uses of its result where
these all lie in the block, and compacts the block while it goes through it; then it collapses
phis whose arguments are all one value.

* `mrefReplace` — `mref_replace`, on recorded uses (`mrefReplace_fold`);
* `mcopyBlock`, `phiCommon`, `mcopyPhis`, `mcopy` — the pass, with what it removed (`Collapse`);
* `Ordered` — a block in which a temp is read behind its definition only;
* `Forwarded` — what the block loop makes of such a block (`mcopyBlock_forwarded`).
-/

/-! ### The pass -/

/-- `in->src[argn] = nr`. -/
def MIns.setSrc (i : MIns) (nr : MRef) : Nat → MIns
  | 0 => { i with src0 := nr }
  | 1 => { i with src1 := nr }
  | _ => i

/-- Replace a value among the arguments of a phi. -/
def MPhi.replace (old new : ValId) (q : MPhi) : MPhi :=
  { q with args := q.args.map fun a => if a.1 = old then (new, a.2) else a }

/-- Change one block. -/
def MFn.modBlk (fn : MFn) (b : BlkId) (f : MBlk → MBlk) : MFn := { fn with blk := fn.blk.modify b f }

/-- Change one place of the instruction array of a block. -/
def MFn.modIns (fn : MFn) (b : BlkId) (i : Nat) (f : MIns → MIns) : MFn :=
  fn.modBlk b fun blk => { blk with ins := blk.ins.modify i f }

/-- `mval_const`. -/
def MFn.newConst (fn : MFn) (c : MConst) : MFn :=
  { fn with val := fn.val ++ [{ kind := .const, type := c.type, con := some c }] }

/-- The value that stands for `nr` among the arguments of a phi; a constant gets one once. -/
def phiArg (nr : MRef) (s : MFn × Option ValId) : MFn × Option ValId :=
  match nr with
  | .val v => (s.1, some v)
  | .con c => if s.2.isNone then (s.1.newConst c, some s.1.val.length) else s
  | .none => s

/-- The body of the loop of `mref_replace`. -/
def mrefReplaceUse (old : ValId) (nr : MRef) (s : MFn × Option ValId) : MUse → MFn × Option ValId
  | .ins b i argn => (s.1.modIns b i (·.setSrc nr argn), s.2)
  | .term b => (s.1.modBlk b fun blk => { blk with term := { blk.term with src0 := nr } }, s.2)
  | .phi b k _ =>
    let s := phiArg nr s
    match s.2 with
    | some new => (s.1.modBlk b fun blk => { blk with phi := blk.phi.modify k (·.replace old new) }, s.2)
    | none => s

/-- `mref_replace`; the chain of `old` is emptied by the caller. -/
def mrefReplace (fn : MFn) (us : Uses) (old : ValId) (nr : MRef) : MFn :=
  if fn.isTemp old then ((us old).foldl (mrefReplaceUse old nr) (fn, none)).1 else fn

/-- One type, or one of them unknown. -/
def sameType (s t : MType) : Bool := s = .none || t = .none || s = t

/-- `src_ok` of `mcopy_block`. -/
def copySrcOk (fn : MFn) (us : Uses) (b : BlkId) (d : ValId) (s : MRef) : Bool :=
  match s with
  | .val v => fn.isTemp v && sameType (fn.vtype d) (fn.vtype v) && !usedOutside fn us d b &&
      !definedOutside fn s b
  | .con c => sameType (fn.vtype d) c.type && !usedOutside fn us d b
  | .none => false

/-- The copy that the loop of `mcopy_block` forwards: its result. -/
def copyDst (fn : MFn) (us : Uses) (b : BlkId) (i : MIns) : Option ValId :=
  i.dst.filter fun d => i.op = .copy && copySrcOk fn us b d i.src0

/-- The state of the loop: the function, the chains, `nout`, and the copies killed so far as they
    stood. -/
structure CopyState where
  fn : MFn
  us : Uses
  nout : Nat
  killed : List MIns

/-- The body of the loop of `mcopy_block`. -/
def mcopyIns (b : BlkId) (s : CopyState) (i : Nat) : CopyState :=
  match (s.fn.code b)[i]? with
  | none => s
  | some inst =>
    match copyDst s.fn s.us b inst with
    | some d =>
      -- `kill_copy`
      { fn := (mrefReplace s.fn s.us d inst.src0).modIns b i fun x =>
          { x with op := .none, dst := none }
        us := update s.us d []
        nout := s.nout
        killed := s.killed ++ [inst] }
    | none => { s with fn := s.fn.modIns b s.nout fun _ => inst, nout := s.nout + 1 }

/-- `mcopy_block`, with the chains built in front of it. -/
def mcopyBlock (s : MFn × List MIns) (b : BlkId) : MFn × List MIns :=
  let t := (range (s.1.code b).length).foldl (mcopyIns b) ⟨s.1, buildUses s.1, 0, s.2⟩
  (t.fn.setIns b ((t.fn.code b).take t.nout), t.killed)

/-- The loop over the arguments of a phi in `mcopy_phis`: the value they have in common. -/
def phiCommonFrom (dst : ValId) : List (ValId × BlkId) → Option ValId → Bool → Option ValId
  | [], common, self => if self then none else common
  | (a, _) :: args, common, self =>
    if a = dst then phiCommonFrom dst args common true
    else match common with
      | none => phiCommonFrom dst args (some a) self
      | some c => if a = c then phiCommonFrom dst args common self else none

/-- The value onto which a phi is collapsed. -/
def phiCommon (q : MPhi) : Option ValId := phiCommonFrom q.dst q.args none false

/-- A phi that is collapsed: the function it stands in, and the value in its place. -/
structure Collapse where
  fn : MFn
  phi : MPhi
  arg : ValId
  deriving DecidableEq

/-- Collapse the `k`-th phi of a block, and rebuild the chains. -/
def collapsePhi (fn : MFn) (b : BlkId) (k : Nat) (q : MPhi) (a : ValId) : MFn :=
  (mrefReplace fn (buildUses fn) q.dst (.val a)).modBlk b fun blk =>
    { blk with phi := blk.phi.eraseIdx k }

/-- The loop of `mcopy_phis` from the `k`-th phi on, with `n` phis to go; the list holds the phis
    collapsed so far. -/
def mcopyPhisFrom (b : BlkId) : Nat → Nat → MFn × List Collapse → MFn × List Collapse
  | 0, _, s => s
  | n + 1, k, s =>
    match (s.1.blk[b]?).bind fun blk => blk.phi[k]? with
    | none => s
    | some q =>
      match phiCommon q with
      | some a => mcopyPhisFrom b n k (collapsePhi s.1 b k q a, s.2 ++ [⟨s.1, q, a⟩])
      | none => mcopyPhisFrom b n (k + 1) s

/-- `mcopy_phis`. -/
def mcopyPhis (s : MFn × List Collapse) (b : BlkId) : MFn × List Collapse :=
  mcopyPhisFrom b ((s.1.blk[b]?.map fun blk => blk.phi.length).getD 0) 0 s

/-- The first half of `mcopy`. -/
def mcopyCopies (fn : MFn) : MFn × List MIns := fn.linkOrder.foldl mcopyBlock (fn, [])

/-- The second half. -/
def mcopyCollapse (fn : MFn) : MFn × List Collapse := fn.linkOrder.foldl mcopyPhis (fn, [])

/-- `mcopy`: the function and the number of copies and phis removed. -/
def mcopy (fn : MFn) : MFn × Nat :=
  let copies := mcopyCopies fn
  let phis := mcopyCollapse copies.1
  (phis.1, copies.2.length + phis.2.length)

/-! ### Replacing recorded uses -/

theorem modBlk_getElem? (fn : MFn) (b : BlkId) (f : MBlk → MBlk) (x : BlkId) :
    (fn.modBlk b f).blk[x]? = if b = x then fn.blk[x]?.map f else fn.blk[x]? := by
  simp only [MFn.modBlk, getElem?_modify]
  rcases fn.blk[x]? with _ | blk
  · simp
  · split <;> simp

/-- An instruction with the operands at the recorded places replaced. -/
def MIns.atUses (L : List MUse) (nr : MRef) (b : BlkId) (j : Nat) (i : MIns) : MIns :=
  { i with
    src0 := if .ins b j 0 ∈ L then nr else i.src0
    src1 := if .ins b j 1 ∈ L then nr else i.src1 }

/-- Whether some record is about the `k`-th phi of a block. -/
def hasPhiUse (L : List MUse) (b : BlkId) (k : Nat) : Bool :=
  L.any fun
    | .phi b' k' _ => b' = b && k' = k
    | _ => false

/-- A block with the recorded uses replaced; `new` is `nr` as an argument of a phi. -/
def MBlk.atUses (L : List MUse) (old new : ValId) (nr : MRef) (b : BlkId) (blk : MBlk) : MBlk :=
  { blk with
    phi := blk.phi.mapIdx fun k q => if hasPhiUse L b k then q.replace old new else q
    ins := blk.ins.mapIdx fun j i => i.atUses L nr b j
    term := { blk.term with src0 := if .term b ∈ L then nr else blk.term.src0 } }

theorem MPhi.replace_replace (old new : ValId) (q : MPhi) :
    (q.replace old new).replace old new = q.replace old new := by
  unfold MPhi.replace
  simp only [List.map_map]
  congr 1
  apply List.map_congr_left
  intro a _
  dsimp only [comp]
  by_cases h : a.1 = old
  · simp [h]
  · simp [h]

theorem MBlk.atUses_nil (old new : ValId) (nr : MRef) (b : BlkId) (blk : MBlk) :
    blk.atUses [] old new nr b = blk := by
  have hphi : (blk.phi.mapIdx fun k q => if hasPhiUse [] b k then q.replace old new else q) =
      blk.phi := by
    apply ext_getElem?
    intro k
    simp [hasPhiUse]
  have hins : (blk.ins.mapIdx fun j i => i.atUses [] nr b j) = blk.ins := by
    apply ext_getElem?
    intro j
    simp [MIns.atUses]
  simp [MBlk.atUses, hphi, hins]

/-- What one record does to a block. -/
def MBlk.atUse (old new : ValId) (nr : MRef) (b : BlkId) (blk : MBlk) : MUse → MBlk
  | .ins b' i argn => if b' = b then { blk with ins := blk.ins.modify i (·.setSrc nr argn) } else blk
  | .term b' => if b' = b then { blk with term := { blk.term with src0 := nr } } else blk
  | .phi b' k _ => if b' = b then { blk with phi := blk.phi.modify k (·.replace old new) } else blk

theorem MBlk.atUses_cons (L : List MUse) (old new : ValId) (nr : MRef) (b : BlkId) (blk : MBlk)
    (u : MUse) :
    blk.atUses (u :: L) old new nr b = (blk.atUse old new nr b u).atUses L old new nr b := by
  rcases u with ⟨b', i, argn⟩ | b' | ⟨b', k, j⟩
  · by_cases hb : b' = b
    · subst hb
      have hins : (blk.ins.mapIdx fun j x => x.atUses (.ins b' i argn :: L) nr b' j) =
          (blk.ins.modify i (·.setSrc nr argn)).mapIdx fun j x => x.atUses L nr b' j := by
        apply ext_getElem?
        intro j
        rw [List.getElem?_mapIdx, List.getElem?_mapIdx, List.getElem?_modify, Option.map_eq_map,
          Option.map_map]
        rcases blk.ins[j]? with _ | x
        · rfl
        · refine congrArg some ?_
          by_cases hij : i = j
          · subst hij
            rcases argn with _ | _ | argn <;> simp [MIns.atUses, MIns.setSrc]
          · have hji : ¬ j = i := fun h => hij h.symm
            simp [MIns.atUses, hij, hji]
      simp [MBlk.atUses, MBlk.atUse, hasPhiUse, hins]
    · have hb' : ¬ b = b' := fun h => hb h.symm
      simp [MBlk.atUses, MBlk.atUse, MIns.atUses, hasPhiUse, hb, hb']
  · by_cases hb : b' = b
    · subst hb
      simp [MBlk.atUses, MBlk.atUse, MIns.atUses, hasPhiUse]
    · have hb' : ¬ b = b' := fun h => hb h.symm
      simp [MBlk.atUses, MBlk.atUse, MIns.atUses, hasPhiUse, hb, hb']
  · by_cases hb : b' = b
    · subst hb
      have hphi : (blk.phi.mapIdx fun m q =>
            if hasPhiUse (.phi b' k j :: L) b' m then q.replace old new else q) =
          (blk.phi.modify k (·.replace old new)).mapIdx fun m q =>
            if hasPhiUse L b' m then q.replace old new else q := by
        apply ext_getElem?
        intro m
        rw [List.getElem?_mapIdx, List.getElem?_mapIdx, List.getElem?_modify, Option.map_eq_map,
          Option.map_map]
        rcases blk.phi[m]? with _ | q
        · rfl
        · refine congrArg some ?_
          by_cases hkm : k = m
          · subst hkm
            have hhead : hasPhiUse (.phi b' k j :: L) b' k = true := by simp [hasPhiUse]
            by_cases hL : hasPhiUse L b' k = true
            · simp [hhead, hL, MPhi.replace_replace]
            · simp [hhead, hL]
          · have hmk : hasPhiUse (.phi b' k j :: L) b' m = hasPhiUse L b' m := by
              simp [hasPhiUse, hkm]
            simp [hmk, hkm]
      simp [MBlk.atUses, MBlk.atUse, MIns.atUses, hphi]
    · simp [MBlk.atUses, MBlk.atUse, MIns.atUses, hasPhiUse, hb]

theorem mrefReplaceUse_blk {old new : ValId} {nr : MRef} {u : MUse}
    (h : nr = .val new ∨ ∀ b k j, u ≠ .phi b k j) (s : MFn × Option ValId) :
    (mrefReplaceUse old nr s u).1.val = s.1.val ∧
      (mrefReplaceUse old nr s u).1.start = s.1.start ∧
      (mrefReplaceUse old nr s u).1.rettype = s.1.rettype ∧
      ∀ x : BlkId, (mrefReplaceUse old nr s u).1.blk[x]? =
        (s.1.blk[x]?).map fun blk : MBlk => blk.atUse old new nr x u := by
  have hif : ∀ (b' x : BlkId) (f : MBlk → MBlk) (o : Option MBlk),
      (if b' = x then o.map f else o) = o.map fun blk => if b' = x then f blk else blk := by
    intro b' x f o
    split
    · rfl
    · simp
  rcases u with ⟨b', i, argn⟩ | b' | ⟨b', k, j⟩
  · refine ⟨rfl, rfl, rfl, fun x => ?_⟩
    exact (modBlk_getElem? s.1 b' _ x).trans (hif b' x _ _)
  · refine ⟨rfl, rfl, rfl, fun x => ?_⟩
    exact (modBlk_getElem? s.1 b' _ x).trans (hif b' x _ _)
  · rcases h with rfl | h
    · refine ⟨rfl, rfl, rfl, fun x => ?_⟩
      exact (modBlk_getElem? s.1 b' _ x).trans (hif b' x _ _)
    · exact absurd rfl (h b' k j)

/-- **The records of a chain** are all replaced, where constants need not become arguments of a
    phi. -/
theorem mrefReplace_fold {old new : ValId} {nr : MRef} {L : List MUse}
    (h : nr = .val new ∨ ∀ b k j, MUse.phi b k j ∉ L) (s : MFn × Option ValId) :
    (L.foldl (mrefReplaceUse old nr) s).1.val = s.1.val ∧
      (L.foldl (mrefReplaceUse old nr) s).1.start = s.1.start ∧
      (L.foldl (mrefReplaceUse old nr) s).1.rettype = s.1.rettype ∧
      ∀ x : BlkId, (L.foldl (mrefReplaceUse old nr) s).1.blk[x]? =
        (s.1.blk[x]?).map fun blk : MBlk => blk.atUses L old new nr x := by
  induction L generalizing s with
  | nil =>
    refine ⟨rfl, rfl, rfl, fun x => ?_⟩
    simp only [MBlk.atUses_nil, Option.map_id', List.foldl_nil]
  | cons u L ih =>
    have hu : nr = .val new ∨ ∀ b k j, u ≠ .phi b k j :=
      h.imp_right fun hno b k j he => hno b k j (he ▸ List.mem_cons_self)
    obtain ⟨h1, h2, h3, h4⟩ := @mrefReplaceUse_blk old new nr u hu s
    obtain ⟨k1, k2, k3, k4⟩ := ih (h.imp_right fun hno b k j he => hno b k j
      (List.mem_cons_of_mem _ he)) (mrefReplaceUse old nr s u)
    refine ⟨k1.trans h1, k2.trans h2, k3.trans h3, fun x => ?_⟩
    rw [List.foldl_cons, k4 x, h4 x, Option.map_map]
    simp only [comp_def, MBlk.atUses_cons L]

/-! ### The loop changes its block only -/

/-- `g` is `f` but for the instructions and the terminator's operand of block `b`. -/
structure SameBut (b : BlkId) (f g : MFn) : Prop where
  val : g.val = f.val
  start : g.start = f.start
  rettype : g.rettype = f.rettype
  other : ∀ x, x ≠ b → g.blk[x]? = f.blk[x]?
  block : ∀ blk, f.blk[b]? = some blk → ∃ ins src, g.blk[b]? =
    some { blk with ins := ins, term := { blk.term with src0 := src } }

theorem SameBut.refl (b : BlkId) (f : MFn) : SameBut b f f :=
  ⟨rfl, rfl, rfl, fun _ _ => rfl, fun blk hb => ⟨blk.ins, blk.term.src0, hb⟩⟩

variable {b : BlkId} {fn : MFn} {blk : MBlk} {us : Uses} {d : ValId} {L : List MUse} {i : MIns}
  {out : List MIns} {j : Nat}

theorem SameBut.trans {f g h : MFn} (hfg : SameBut b f g) (hgh : SameBut b g h) :
    SameBut b f h := by
  refine ⟨hgh.val.trans hfg.val, hgh.start.trans hfg.start, hgh.rettype.trans hfg.rettype,
    fun x hx => (hgh.other x hx).trans (hfg.other x hx), fun blk hb => ?_⟩
  obtain ⟨ins, src, hg⟩ := hfg.block blk hb
  obtain ⟨ins', src', hh⟩ := hgh.block _ hg
  exact ⟨ins', src', hh⟩

theorem modIns_getElem? (hb : fn.blk[b]? = some blk) (i : Nat) (f : MIns → MIns) :
    (fn.modIns b i f).blk[b]? = some { blk with ins := blk.ins.modify i f } := by
  rw [MFn.modIns, modBlk_getElem?, if_pos rfl, hb]
  rfl

theorem modify_length_append {α : Type} (A R : List α) (x : α) (g : α → α) :
    (A ++ x :: R).modify A.length g = A ++ g x :: R := by
  induction A with
  | nil => rfl
  | cons a A ih => exact congrArg (a :: ·) ih

theorem modIns_sameBut (fn : MFn) (b : BlkId) (i : Nat) (f : MIns → MIns) :
    SameBut b fn (fn.modIns b i f) := by
  refine ⟨rfl, rfl, rfl, fun x hx => ?_, fun blk hb => ?_⟩
  · rw [MFn.modIns, modBlk_getElem?, if_neg fun h => hx h.symm]
  · rw [MFn.modIns, modBlk_getElem?, if_pos rfl, hb]
    exact ⟨blk.ins.modify i f, blk.term.src0, rfl⟩

theorem setIns_getElem? (fn : MFn) (b : BlkId) (ins : List MIns) (x : BlkId) :
    (fn.setIns b ins).blk[x]? =
      if b = x then fn.blk[x]?.map fun blk => { blk with ins := ins } else fn.blk[x]? :=
  modBlk_getElem? fn b _ x

theorem setIns_sameBut (fn : MFn) (b : BlkId) (ins : List MIns) :
    SameBut b fn (fn.setIns b ins) := by
  refine ⟨rfl, rfl, rfl, fun x hx => ?_, fun blk hb => ⟨ins, blk.term.src0, ?_⟩⟩
  · rw [setIns_getElem?, if_neg fun h => hx h.symm]
  · rw [setIns_getElem?, if_pos rfl, hb]
    rfl

/-- The records of a chain that stays in a block. -/
def LocalTo (b : BlkId) (L : List MUse) : Prop := ∀ u ∈ L, (∃ i a, u = .ins b i a) ∨ u = .term b

theorem localTo_of_usedOutside
    (hd : fn.isTemp d = true) (h : usedOutside fn us d b = false) : LocalTo b (us d) := by
  simp only [usedOutside, hd, Bool.true_and, List.any_eq_false] at h
  intro u hu
  have hb := h u hu
  rcases u with ⟨b', i, a⟩ | b' | ⟨b', k, j⟩
  · simp only [ne_eq, decide_not, Bool.not_eq_true', decide_eq_true_eq, Bool.not_eq_false] at hb
    exact .inl ⟨i, a, by rw [hb]⟩
  · simp only [ne_eq, decide_not, Bool.not_eq_true', decide_eq_true_eq, Bool.not_eq_false] at hb
    exact .inr (by rw [hb])
  · simp at hb

theorem LocalTo.no_phi (h : LocalTo b L) :
    ∀ x k j, MUse.phi x k j ∉ L := by
  intro x k j hu
  rcases h _ hu with ⟨_, _, he⟩ | he <;> cases he

theorem LocalTo.hasPhiUse (h : LocalTo b L) (x : BlkId) (k : Nat) :
    hasPhiUse L x k = false := by
  unfold Mir.hasPhiUse
  rw [List.any_eq_false]
  intro u hu
  rcases h u hu with ⟨_, _, rfl⟩ | rfl <;> simp

/-- Replacing in a block what its chains record. -/
theorem LocalTo.atUses (h : LocalTo b L) (old new : ValId) (nr : MRef) (blk : MBlk) :
    blk.atUses L old new nr b =
      { blk with
        ins := blk.ins.mapIdx fun j i => i.atUses L nr b j
        term := { blk.term with src0 := if .term b ∈ L then nr else blk.term.src0 } } := by
  have hphi : (blk.phi.mapIdx fun k q => if Mir.hasPhiUse L b k then q.replace old new else q) =
      blk.phi := by
    apply ext_getElem?
    intro k
    simp [h.hasPhiUse]
  simp only [MBlk.atUses, hphi]

theorem LocalTo.atUses_ne {x : BlkId} (h : LocalTo b L) (hx : x ≠ b)
    (old new : ValId) (nr : MRef) (blk : MBlk) : blk.atUses L old new nr x = blk := by
  have hphi : (blk.phi.mapIdx fun k q => if Mir.hasPhiUse L x k then q.replace old new else q) =
      blk.phi := by
    apply ext_getElem?
    intro k
    simp [h.hasPhiUse]
  have hnot : ∀ j a, MUse.ins x j a ∉ L := by
    intro j a hu
    rcases h _ hu with ⟨_, _, he⟩ | he
    · exact hx (MUse.ins.inj he).1
    · cases he
  have hterm : MUse.term x ∉ L := by
    intro hu
    rcases h _ hu with ⟨_, _, he⟩ | he
    · cases he
    · exact hx (MUse.term.inj he)
  have hins : (blk.ins.mapIdx fun j i => i.atUses L nr x j) = blk.ins := by
    apply ext_getElem?
    intro j
    simp [MIns.atUses, hnot]
  simp [MBlk.atUses, hphi, hins, hterm]

/-- Replacing the uses of a temp that has them in block `b` only. -/
theorem mrefReplace_local (hd : fn.isTemp d = true) (h : LocalTo b (us d)) (nr : MRef) :
    SameBut b fn (mrefReplace fn us d nr) ∧ ∀ blk, fn.blk[b]? = some blk →
      (mrefReplace fn us d nr).blk[b]? = some { blk with
        ins := blk.ins.mapIdx fun j i => i.atUses (us d) nr b j
        term := { blk.term with src0 := if .term b ∈ us d then nr else blk.term.src0 } } := by
  obtain ⟨h1, h2, h3, h4⟩ := @mrefReplace_fold d d nr (us d) (.inr h.no_phi) (fn, Option.none)
  unfold mrefReplace
  rw [if_pos hd]
  have hblk : ∀ blk, fn.blk[b]? = some blk → _ := fun blk hb => by
    have := h4 b
    rw [hb, Option.map_some, h.atUses] at this
    exact this
  refine ⟨⟨h1, h2, h3, fun x hx => ?_, fun blk hb => ⟨_, _, hblk blk hb⟩⟩, hblk⟩
  rw [h4 x]
  simp only [h.atUses_ne hx, Option.map_id']

theorem copyDst_some (h : copyDst fn us b i = some d) :
    i.dst = some d ∧ i.op = .copy ∧ copySrcOk fn us b d i.src0 = true := by
  obtain ⟨hd, hok⟩ := filter_eq_some_iff.mp h
  rw [Bool.and_eq_true, decide_eq_true_iff] at hok
  exact ⟨hd, hok.1, hok.2⟩

theorem usedOutside_of_copySrcOk {r : MRef}
    (h : copySrcOk fn us b d r = true) : usedOutside fn us d b = false := by
  unfold copySrcOk at h
  rcases r with _ | v | c <;> simp_all

theorem mcopyIns_sameBut (b : BlkId) (s : CopyState) (i : Nat) :
    SameBut b s.fn (mcopyIns b s i).fn := by
  unfold mcopyIns
  split
  next => exact SameBut.refl b s.fn
  next inst _ =>
    split
    next d hd =>
      refine SameBut.trans ?_ (modIns_sameBut _ b i _)
      by_cases ht : s.fn.isTemp d = true
      · exact (mrefReplace_local ht (localTo_of_usedOutside ht
          (usedOutside_of_copySrcOk (copyDst_some hd).2.2)) inst.src0).1
      · rw [mrefReplace, if_neg ht]
        exact SameBut.refl b s.fn
    next => exact modIns_sameBut s.fn b _ _

theorem mcopyBlock_sameBut (s : MFn × List MIns) (b : BlkId) :
    SameBut b s.1 (mcopyBlock s b).1 := by
  have hloop : ∀ (is : List Nat) (t : CopyState),
      SameBut b t.fn (is.foldl (mcopyIns b) t).fn := by
    intro is
    induction is with
    | nil => exact fun t => SameBut.refl b t.fn
    | cons i is ih => exact fun t => (mcopyIns_sameBut b t i).trans (ih _)
  exact (hloop (range (s.1.code b).length) ⟨s.1, buildUses s.1, 0, s.2⟩).trans
    (setIns_sameBut _ b _)

/-! ### What the loop makes of an ordered block -/

/-- An instruction reads a value. -/
def MIns.Reads (i : MIns) (v : ValId) : Prop := i.src0 = .val v ∨ i.src1 = .val v

/-- A block in which no temp is read that the instruction or a later one defines, and none is
    defined twice. -/
def Ordered (fn : MFn) : List MIns → Prop
  | [] => True
  | i :: is =>
    (∀ v, fn.isTemp v = true → i.Reads v → ∀ x ∈ i :: is, x.dst ≠ some v) ∧
      (∀ d, i.dst = some d → fn.isTemp d = true ∧ ∀ x ∈ is, x.dst ≠ some d) ∧ Ordered fn is

/-- The references that stand for killed temps. -/
abbrev Subst := ValId → Option MRef

def Subst.ref (σ : Subst) : MRef → MRef
  | .val v => (σ v).getD (.val v)
  | r => r

def MIns.subst (σ : Subst) (i : MIns) : MIns :=
  { i with src0 := σ.ref i.src0, src1 := σ.ref i.src1 }

/-- The substitution once a copy is killed. -/
def Subst.kill (σ : Subst) (d : ValId) (i : MIns) : Subst :=
  update σ d (some (σ.ref i.src0))

/-- `Forwarded ok σ is τ out killed`: from `is` behind `σ` the copies `killed` are taken, which
    leaves `out` and the substitution `τ`. -/
inductive Forwarded (ok : ValId → MRef → Prop) :
    Subst → List MIns → Subst → List MIns → List MIns → Prop
  | nil {σ : Subst} : Forwarded ok σ [] σ [] []
  | keep {σ τ : Subst} {i : MIns} {is out killed : List MIns} (tail : Forwarded ok σ is τ out killed) :
      Forwarded ok σ (i :: is) τ (i.subst σ :: out) killed
  | kill {σ τ : Subst} {i : MIns} {is out killed : List MIns} {d : ValId} (op : i.op = .copy)
      (dst : i.dst = some d) (src : ok d (σ.ref i.src0))
      (tail : Forwarded ok (σ.kill d i) is τ out killed) :
      Forwarded ok σ (i :: is) τ out (i.subst σ :: killed)

/-- What is killed stays killed. -/
theorem Forwarded.mono {ok : ValId → MRef → Prop} {σ τ : Subst} {is killed : List MIns}
    (h : Forwarded ok σ is τ out killed) {v : ValId} (hv : (σ v).isSome) : (τ v).isSome := by
  induction h with
  | nil => exact hv
  | keep _ ih => exact ih hv
  | @kill σ τ i is out killed d _ _ _ _ ih =>
    apply ih
    unfold Subst.kill
    by_cases hvd : v = d
    · rw [hvd, update_self]
      rfl
    · rw [update_of_ne hvd]
      exact hv

/-- What is killed is the result of one of the copies. -/
theorem Forwarded.killed_dst {ok : ValId → MRef → Prop} {σ τ : Subst} {is killed : List MIns}
    (h : Forwarded ok σ is τ out killed) {v : ValId} (hv : (τ v).isSome) :
    (σ v).isSome ∨ ∃ r, ok v r ∧ ∃ i ∈ is, i.dst = some v := by
  induction h with
  | nil => exact .inl hv
  | keep _ ih =>
    rcases ih hv with h | ⟨r, hr, i, hi, hd⟩
    · exact .inl h
    · exact .inr ⟨r, hr, i, mem_cons_of_mem _ hi, hd⟩
  | @kill σ τ i is out killed d _ hdst hok _ ih =>
    rcases ih hv with h | ⟨r, hr, i, hi, hd⟩
    · unfold Subst.kill at h
      by_cases hvd : v = d
      · exact .inr ⟨_, hvd ▸ hok, i, mem_cons_self, hvd ▸ hdst⟩
      · rw [update_of_ne hvd] at h
        exact .inl h
    · exact .inr ⟨r, hr, i, mem_cons_of_mem _ hi, hd⟩

/-- The substitution after one more kill, on a reference. -/
theorem Subst.ref_kill {σ : Subst} (hd : σ d = none) (r : MRef) :
    (σ.kill d i).ref r = if r = .val d then σ.ref i.src0 else σ.ref r := by
  rcases r with _ | v | c
  · rfl
  · by_cases hvd : v = d
    · subst hvd
      simp [Subst.ref, Subst.kill]
    · simp [Subst.ref, Subst.kill, hvd]
  · rfl

/-- The state of the loop in front of `rest`. -/
structure LoopInv (fn : MFn) (b : BlkId) (blk : MBlk) (pre rest : List MIns) (σ : Subst)
    (out : List MIns) (s : CopyState) : Prop where
  table : s.fn.val = fn.val
  block : ∃ junk, out.length + junk.length = pre.length ∧ s.fn.blk[b]? =
    some { blk with
      ins := out ++ (junk ++ rest.map (·.subst σ))
      term := { blk.term with src0 := σ.ref blk.term.src0 } }
  nout : s.nout = out.length
  us : ∀ v, σ v = none → s.us v = buildUses fn v
  dom : ∀ v, (σ v).isSome → ∃ x ∈ pre, x.dst = some v

theorem code_of_getElem? (h : fn.blk[b]? = some blk) :
    fn.code b = blk.ins := by simp [MFn.code, h]

theorem getElem?_loop {junk rest : List MIns} {n : Nat} (hn : out.length + junk.length = n)
    (k : Nat) : (out ++ (junk ++ rest))[n + k]? = rest[k]? := by
  rw [← append_assoc, getElem?_append_right (by rw [length_append]; omega),
    length_append]
  congr 1
  omega

/-- The copy test does not see what the loop has changed. -/
theorem copyDst_congr {fn' : MFn} {us' : Uses}
    (hval : fn'.val = fn.val) (hus : ∀ d, i.dst = some d → us' d = us d) :
    copyDst fn' us' b i = copyDst fn us b i := by
  unfold copyDst
  rcases hd : i.dst with _ | d
  · rfl
  · have hok : copySrcOk fn' us' b d i.src0 = copySrcOk fn us b d i.src0 := by
      unfold copySrcOk usedOutside definedOutside
      simp only [vtype_congr hval, isTemp_congr hval, getVal_congr hval, hus d hd]
    simp only [filter_some, hok]

/-- Earlier instructions neither define what later ones define nor read it. -/
theorem Ordered.split {pre rest : List MIns} (h : Ordered fn (pre ++ rest)) :
    Ordered fn rest ∧ (∀ x ∈ pre, ∀ d, x.dst = some d → ∀ y ∈ rest, y.dst ≠ some d) ∧
      ∀ x ∈ pre, ∀ v, fn.isTemp v = true → x.Reads v → ∀ y ∈ rest, y.dst ≠ some v := by
  induction pre with
  | nil => exact ⟨h, fun x hx => absurd hx not_mem_nil, fun x hx => absurd hx not_mem_nil⟩
  | cons a pre ih =>
    obtain ⟨hreads, hdst, htail⟩ := h
    obtain ⟨h1, h2, h3⟩ := ih htail
    refine ⟨h1, fun x hx d hd y hy => ?_, fun x hx v hv hr y hy => ?_⟩
    · rcases mem_cons.mp hx with rfl | hx
      · exact (hdst d hd).2 y (mem_append_right _ hy)
      · exact h2 x hx d hd y hy
    · rcases mem_cons.mp hx with rfl | hx
      · exact hreads v hv hr y (mem_cons_of_mem _ (mem_append_right _ hy))
      · exact h3 x hx v hv hr y hy

/-- A record shows an instruction that reads the value. -/
theorem reads_of_mem_buildUses (hb : fn.blk[b]? = some blk) {a : Nat}
    (hu : MUse.ins b j a ∈ buildUses fn d) :
    ∃ x, blk.ins[j]? = some x ∧ ((a = 0 ∧ x.src0 = .val d) ∨ (a = 1 ∧ x.src1 = .val d)) := by
  obtain ⟨-, b', blk', hb', hu⟩ := (mem_buildUses fn d _).mp hu
  rcases (mem_buildUsesBlock d b' blk' _).mp hu with ⟨i, x, hx, hr⟩ | ⟨he, -⟩ | ⟨_, _, _, _, he, -⟩
  · rcases hr with ⟨he, hr⟩ | ⟨he, hr⟩
    · cases he
      cases hb.symm.trans hb'
      exact ⟨x, hx, .inl ⟨rfl, hr⟩⟩
    · cases he
      cases hb.symm.trans hb'
      exact ⟨x, hx, .inr ⟨rfl, hr⟩⟩
  · cases he
  · cases he

/-- The records of an instruction. -/
theorem mem_buildUses_ins (hb : fn.blk[b]? = some blk) (hd : fn.isTemp d = true) {x : MIns}
    (hx : blk.ins[j]? = some x) :
    (MUse.ins b j 0 ∈ buildUses fn d ↔ x.src0 = .val d) ∧
      (MUse.ins b j 1 ∈ buildUses fn d ↔ x.src1 = .val d) := by
  constructor
  · refine ⟨fun hu => ?_, use_of_src0 hd hb hx⟩
    obtain ⟨y, hy, ⟨-, hr⟩ | ⟨h0, -⟩⟩ := reads_of_mem_buildUses hb hu
    · exact some.inj (hx.symm.trans hy) ▸ hr
    · cases h0
  · refine ⟨fun hu => ?_, use_of_src1 hd hb hx⟩
    obtain ⟨y, hy, ⟨h0, -⟩ | ⟨-, hr⟩⟩ := reads_of_mem_buildUses hb hu
    · cases h0
    · exact some.inj (hx.symm.trans hy) ▸ hr

theorem mem_buildUses_term (hb : fn.blk[b]? = some blk) (hd : fn.isTemp d = true) :
    MUse.term b ∈ buildUses fn d ↔ blk.term.src0 = .val d := by
  constructor
  · intro hu
    obtain ⟨-, b', blk', hb', hu⟩ := (mem_buildUses fn d _).mp hu
    rcases (mem_buildUsesBlock d b' blk' _).mp hu with ⟨i, x, hx, hr⟩ | ⟨he, hr⟩ | ⟨_, _, _, _, he, -⟩
    · rcases hr with ⟨he, -⟩ | ⟨he, -⟩ <;> cases he
    · cases he
      cases hb.symm.trans hb'
      exact hr
    · cases he
  · exact use_of_term hd hb

section Step

variable {fn : MFn} {b : BlkId} {blk : MBlk} {pre rest : List MIns} {i : MIns} {σ : Subst}
  {out : List MIns} {s : CopyState}

theorem LoopInv.next (hinv : LoopInv fn b blk pre (i :: rest) σ out s) :
    (s.fn.code b)[pre.length]? = some (i.subst σ) := by
  obtain ⟨junk, hlen, hblk⟩ := hinv.block
  rw [code_of_getElem? hblk]
  exact getElem?_loop hlen 0

/-- A kept instruction moves to the end of what was kept. -/
theorem LoopInv.keep (hinv : LoopInv fn b blk pre (i :: rest) σ out s) (us : Uses)
    (killed : List MIns) (hus : us = s.us) :
    LoopInv fn b blk (pre ++ [i]) rest σ (out ++ [i.subst σ])
      ⟨s.fn.modIns b s.nout fun _ => i.subst σ, us, s.nout + 1, killed⟩ := by
  obtain ⟨junk, hlen, hblk⟩ := hinv.block
  refine ⟨hinv.table, ?_, ?_, ?_, ?_⟩
  · have hget := modIns_getElem? hblk s.nout fun _ => i.subst σ
    rw [hinv.nout] at hget ⊢
    rcases junk with _ | ⟨x, junk⟩
    · refine ⟨[], by simpa using hlen, hget.trans ?_⟩
      dsimp only
      rw [nil_append, map_cons, modify_length_append]
      simp
    · refine ⟨junk ++ [i.subst σ], ?_, hget.trans ?_⟩
      · simp only [length_append, length_cons, length_nil] at hlen ⊢
        omega
      · dsimp only
        rw [cons_append, modify_length_append]
        simp
  · rw [length_append, hinv.nout]
    rfl
  · rw [hus]
    exact hinv.us
  · intro v hv
    obtain ⟨x, hx, hd⟩ := hinv.dom v hv
    exact ⟨x, mem_append_left _ hx, hd⟩

/-- Replacing what a later kill records, in an instruction. -/
theorem atUses_subst {nr : MRef} {x : MIns}
    (h0 : MUse.ins b j 0 ∈ L ↔ x.src0 = .val d) (h1 : MUse.ins b j 1 ∈ L ↔ x.src1 = .val d)
    (hd : σ d = none) (hnr : nr = σ.ref i.src0) :
    (x.subst σ).atUses L nr b j = x.subst (σ.kill d i) := by
  unfold MIns.atUses MIns.subst
  rw [Subst.ref_kill hd, Subst.ref_kill hd, ← hnr]
  simp only [h0, h1]

/-- A killed copy: its uses are replaced where they are still to come. -/
theorem LoopInv.kill (hb : fn.blk[b]? = some blk) (hins : blk.ins = pre ++ i :: rest)
    (hord : Ordered fn blk.ins) (hinv : LoopInv fn b blk pre (i :: rest) σ out s) {d : ValId}
    (hdst : i.dst = some d) (hout : usedOutside fn (buildUses fn) d b = false)
    (killed : List MIns) :
    LoopInv fn b blk (pre ++ [i]) rest (σ.kill d i) out
      ⟨(mrefReplace s.fn s.us d (σ.ref i.src0)).modIns b pre.length fun x =>
        { x with op := .none, dst := none }, update s.us d [], s.nout, killed⟩ := by
  obtain ⟨junk, hlen, hblk⟩ := hinv.block
  rw [hins] at hord
  obtain ⟨⟨hreads, hdsts, -⟩, hpre, hpreReads⟩ := hord.split
  have hd := (hdsts d hdst).1
  have hσ : σ d = none := by
    rcases h : σ d with _ | r
    · rfl
    · obtain ⟨x, hx, hxd⟩ := hinv.dom d (by rw [h]; rfl)
      exact absurd hdst (hpre x hx d hxd i mem_cons_self)
  have hL : s.us d = buildUses fn d := hinv.us d hσ
  have hlocal : LocalTo b (s.us d) := hL ▸ localTo_of_usedOutside hd hout
  have hds : s.fn.isTemp d = true := by rw [isTemp_congr hinv.table]; exact hd
  obtain ⟨hsame, hnew⟩ := mrefReplace_local hds hlocal (σ.ref i.src0)
  have hnew := hnew _ hblk
  -- nothing is recorded of the instructions that the loop has passed
  have hearly : ∀ j, j ≤ pre.length → ∀ a, MUse.ins b j a ∉ s.us d := by
    intro j hj a hu
    rw [hL] at hu
    obtain ⟨x, hx, hr⟩ := reads_of_mem_buildUses hb hu
    have hxd : x.Reads d := hr.imp And.right And.right
    rw [hins] at hx
    rcases Nat.lt_or_eq_of_le hj with hlt | rfl
    · rw [getElem?_append_left hlt] at hx
      exact hpreReads x (mem_of_getElem? hx) d hd hxd i mem_cons_self hdst
    · rw [getElem?_append_right (Nat.le_refl _), Nat.sub_self] at hx
      cases hx
      exact hreads d hd hxd _ mem_cons_self hdst
  -- the array
  have harr : ∀ A : List MIns, A.length = pre.length →
      (A ++ (i :: rest).map (·.subst σ)).mapIdx (fun j x => x.atUses (s.us d) (σ.ref i.src0) b j) =
        A ++ i.subst σ :: rest.map (·.subst (σ.kill d i)) := by
    intro A hA
    apply ext_getElem?
    intro j
    rw [getElem?_mapIdx]
    rcases Nat.lt_trichotomy j pre.length with hj | rfl | hj
    · rw [List.getElem?_append_left (by rw [hA]; exact hj),
        getElem?_append_left (by rw [hA]; exact hj)]
      have hkeep : ∀ x : MIns, x.atUses (s.us d) (σ.ref i.src0) b j = x := by
        intro x
        simp [MIns.atUses, hearly j (Nat.le_of_lt hj)]
      simp only [hkeep, Option.map_id']
    · rw [getElem?_append_right (by rw [hA]), getElem?_append_right (by rw [hA]), hA,
        Nat.sub_self]
      simp [MIns.atUses, hearly pre.length (Nat.le_refl _)]
    · obtain ⟨k, rfl⟩ := Nat.exists_eq_add_of_lt hj
      have hk : pre.length + k + 1 - pre.length = k + 1 := by omega
      rw [getElem?_append_right (by rw [hA]; omega),
        getElem?_append_right (by rw [hA]; omega), hA, hk]
      simp only [map_cons, getElem?_cons_succ, getElem?_map]
      rcases hx : rest[k]? with _ | x
      · rfl
      · have hget : blk.ins[pre.length + k + 1]? = some x := by
          rw [hins, getElem?_append_right (by omega), hk, getElem?_cons_succ]
          exact hx
        obtain ⟨h0, h1⟩ := mem_buildUses_ins hb hd hget
        rw [← hL] at h0 h1
        exact congrArg some (atUses_subst h0 h1 hσ rfl)
  refine ⟨hsame.val.trans hinv.table, ?_, hinv.nout, ?_, ?_⟩
  · refine ⟨junk ++ [{ i.subst σ with op := .none, dst := none }], ?_, ?_⟩
    · rw [length_append, length_append, length_singleton, length_singleton,
        ← Nat.add_assoc, hlen]
    · have hget := modIns_getElem? hnew pre.length fun x =>
        { x with op := .none, dst := none }
      have hA : (out ++ junk).length = pre.length := by rw [length_append, hlen]
      refine hget.trans ?_
      dsimp only
      rw [← append_assoc out junk, harr _ hA, ← hA, modify_length_append,
        Subst.ref_kill hσ, hL]
      simp [mem_buildUses_term hb hd]
  · intro v hv
    by_cases hvd : v = d
    · subst hvd
      simp [Subst.kill] at hv
    · simp only [Subst.kill, update_of_ne hvd] at hv ⊢
      exact hinv.us v hv
  · intro v hv
    by_cases hvd : v = d
    · exact ⟨i, by simp, hvd ▸ hdst⟩
    · simp only [Subst.kill, update_of_ne hvd] at hv
      obtain ⟨x, hx, hxd⟩ := hinv.dom v hv
      exact ⟨x, mem_append_left _ hx, hxd⟩

end Step

/-- The test of the block loop, on the function in front of it. -/
def CopyTest (fn : MFn) (b : BlkId) (d : ValId) (r : MRef) : Prop :=
  copySrcOk fn (buildUses fn) b d r = true

/-- The loop from `pre` on. -/
theorem mcopyLoop_forwarded (hb : fn.blk[b]? = some blk)
    (hord : Ordered fn blk.ins) (rest : List MIns) :
    ∀ {pre : List MIns} {σ : Subst} {out : List MIns} {s : CopyState}, blk.ins = pre ++ rest →
      LoopInv fn b blk pre rest σ out s →
      ∃ τ out' killed, Forwarded (CopyTest fn b) σ rest τ out' killed ∧
        LoopInv fn b blk (pre ++ rest) [] τ (out ++ out')
          ((range' pre.length rest.length).foldl (mcopyIns b) s) ∧
        ((range' pre.length rest.length).foldl (mcopyIns b) s).killed = s.killed ++ killed := by
  induction rest with
  | nil =>
    intro pre σ out s _ hinv
    refine ⟨σ, [], [], .nil, ?_, ?_⟩
    · simpa using hinv
    · simp
  | cons i rest ih =>
    intro pre σ out s hins hinv
    have hins' : blk.ins = (pre ++ [i]) ++ rest := by rw [hins, append_assoc]; rfl
    -- one round of the loop
    have hstep : mcopyIns b s pre.length = match copyDst fn (buildUses fn) b (i.subst σ) with
        | some d =>
          ⟨(mrefReplace s.fn s.us d (σ.ref i.src0)).modIns b pre.length fun x =>
            { x with op := .none, dst := none }, update s.us d [], s.nout,
            s.killed ++ [i.subst σ]⟩
        | none =>
          ⟨s.fn.modIns b s.nout fun _ => i.subst σ, s.us, s.nout + 1, s.killed⟩ := by
      have hcongr : copyDst s.fn s.us b (i.subst σ) = copyDst fn (buildUses fn) b (i.subst σ) := by
        apply copyDst_congr hinv.table
        intro d hd
        apply hinv.us
        rcases h : σ d with _ | r
        · rfl
        · obtain ⟨x, hx, hxd⟩ := hinv.dom d (by rw [h]; rfl)
          rw [hins] at hord
          exact absurd hd (hord.split.2.1 x hx d hxd i mem_cons_self)
      unfold mcopyIns
      rw [hinv.next, ← hcongr]
      rfl
    rw [length_cons, range'_succ, foldl_cons, hstep]
    rcases hd : copyDst fn (buildUses fn) b (i.subst σ) with _ | d
    · obtain ⟨τ, out', killed, hfwd, hinv', hk⟩ := ih hins' (hinv.keep s.us s.killed rfl)
      refine ⟨τ, i.subst σ :: out', killed, .keep hfwd, ?_, ?_⟩
      · simpa using hinv'
      · simpa using hk
    · obtain ⟨hdst, hop, hok⟩ := copyDst_some hd
      obtain ⟨τ, out', killed, hfwd, hinv', hk⟩ := ih hins'
        (hinv.kill hb hins hord hdst (usedOutside_of_copySrcOk hok) (s.killed ++ [i.subst σ]))
      refine ⟨τ, out', i.subst σ :: killed, .kill hop hdst hok hfwd, ?_, ?_⟩
      · simpa using hinv'
      · simpa using hk

/-- **The block loop** on an ordered block: the copies are taken out, and what they copied stands
    for them in the rest of the block and its terminator. -/
theorem mcopyBlock_forwarded (hb : fn.blk[b]? = some blk)
    (hord : Ordered fn blk.ins) (ks : List MIns) :
    ∃ τ out killed, Forwarded (CopyTest fn b) (fun _ => none) blk.ins τ out killed ∧
      (mcopyBlock (fn, ks) b).1.blk[b]? = some { blk with
        ins := out, term := { blk.term with src0 := τ.ref blk.term.src0 } } ∧
      (mcopyBlock (fn, ks) b).2 = ks ++ killed := by
  have hid : ∀ r, Subst.ref (fun _ => none) r = r := by
    intro r
    rcases r with _ | v | c <;> rfl
  have hstart : LoopInv fn b blk [] blk.ins (fun _ => none) [] ⟨fn, buildUses fn, 0, ks⟩ := by
    refine ⟨rfl, ⟨[], rfl, ?_⟩, rfl, fun _ _ => rfl, fun v hv => absurd hv (by simp)⟩
    have hmap : blk.ins.map (·.subst fun _ => none) = blk.ins := by
      simp [MIns.subst, hid]
    rw [hb, hmap, hid]
    rfl
  obtain ⟨τ, out, killed, hfwd, hinv, hk⟩ := mcopyLoop_forwarded hb hord blk.ins rfl hstart
  obtain ⟨junk, -, hblk⟩ := hinv.block
  have hrange : range' ([] : List MIns).length blk.ins.length =
      range (fn.code b).length := by
    rw [code_of_getElem? hb, range_eq_range']
    rfl
  rw [hrange] at hblk hk hinv
  refine ⟨τ, out, killed, hfwd, ?_, hk⟩
  unfold mcopyBlock
  dsimp only
  rw [setIns_getElem?, if_pos rfl, hblk, code_of_getElem? hblk, hinv.nout]
  simp

end MeuOS.Mir
