import MeuOS.Mir.Agree

namespace MeuOS.Mir

open MeuOS.Lib List Option

/-!
# Instruction combining — `src/mir/combine.c`

`mcombine` looks for an instruction whose result is used once, by the instruction right
behind it, and merges two equal commutative or shift operations with constants into one,
turning the second into a copy.  The chains are rebuilt once per round, and rounds repeat
until one changes nothing.
-/

/-- `combine_pure`. -/
def combinePure : MOP → Bool
  | .add | .sub | .mul | .div | .udiv | .rem | .urem
  | .neg | .and | .or | .xor | .shl | .shr | .sar
  | .ceq | .cne | .cslt | .csle | .csgt | .csge | .cult | .cule | .cugt | .cuge
  | .cfeq | .cfne | .cflt | .cfle | .cfgt | .cfge
  | .sext | .zext | .trunc | .cast | .f2i | .i2f | .ui2f | .fext | .ftrunc
  | .copy => true
  | _ => false

/-- `combine_commutative`. -/
def combineCommutative : MOP → Bool
  | .add | .mul | .and | .or | .xor | .ceq | .cne => true
  | _ => false

/-- `combine_shift`. -/
def combineShift : MOP → Bool
  | .shl | .shr | .sar => true
  | _ => false

/-- `combine_single_use` for the instructions `i` and `i + 1` of block `b`: the only recorded
    use of the first one's result is an operand of the second one. -/
def combineSingleUse (fn : MFn) (us : Uses) (b : BlkId) (i : Nat) (d : ValId) : Bool :=
  fn.isTemp d &&
    match us d with
    | [.ins b' j _] => b' = b && j = i + 1
    | _ => false

/-- The constant two equal commutative operations are merged into. -/
def combineConst (op : MOP) (c1 c2 : BitVec 64) : Option (BitVec 64) :=
  match op with
  | .add => some (c1 + c2)
  | .mul => some (c1 * c2)
  | .and => some (c1 &&& c2)
  | .or => some (c1 ||| c2)
  | .xor => some (c1 ^^^ c2)
  | _ => none

/-- `max_shift` of the shift pattern. -/
def combineMaxShift (t : MType) : BitVec 64 := if t = .i64 then 63 else 31

/-- The rewritten pair: `def` gets the merged constant in the operand that does not hold the
    pair's temp, `use` becomes a copy of `def`'s result. -/
def combineRewrite (d : ValId) (di ui : MIns) (other1 : MRef) (c : BitVec 64) : MIns × MIns :=
  let new := MRef.con (mconstInt ((other1.con?.map MConst.type).getD .i32) c)
  (if di.src0.val? = some d then { di with src0 := new } else { di with src1 := new },
    { ui with op := .copy, src0 := .val d, src1 := .none })

/-- `combine_pair`: the rewritten instructions, if the pair matches a pattern. -/
def combinePair (d : ValId) (di ui : MIns) : Option (MIns × MIns) :=
  if !combinePure di.op || !combinePure ui.op then none
  else if ui.src0.val? ≠ some d ∧ ui.src1.val? ≠ some d then none
  else
    let other1 := if di.src0.val? = some d then di.src1 else di.src0
    let other2 := if ui.src0.val? = some d then ui.src1 else ui.src0
    match other1.int?, other2.int? with
    | some c1, some c2 =>
      if di.op = ui.op ∧ combineCommutative di.op then
        (combineConst di.op c1 c2).map (combineRewrite d di ui other1)
      else if di.op = ui.op ∧ combineShift di.op then
        if (combineMaxShift di.dtype).slt (c1 + c2) then none
        else some (combineRewrite d di ui other1 (c1 + c2))
      else none
    | _, _ => none

/-- The body of `mcombine`'s inner loop, for the instructions `i` and `i + 1`. -/
def combineTry (fn : MFn) (us : Uses) (b : BlkId) (i : Nat) (di ui : MIns) :
    Option (MIns × MIns) :=
  match di.dst, ui.dst with
  | some d, some u =>
    if fn.isTemp d && fn.isTemp u && combineSingleUse fn us b i d then combinePair d di ui
    else none
  | _, _ => none

/-- The inner loop from instruction `i` (`di`) on, with the positions of the pairs it
    combines. -/
def combineFrom (fn : MFn) (us : Uses) (b : BlkId) : Nat → MIns → List MIns → List MIns × List Nat
  | _, di, [] => ([di], [])
  | i, di, ui :: rest =>
    match combineTry fn us b i di ui with
    | some (di', ui') =>
      let r := combineFrom fn us b (i + 1) ui' rest
      (di' :: r.1, i :: r.2)
    | none =>
      let r := combineFrom fn us b (i + 1) ui rest
      (di :: r.1, r.2)

/-- The inner loop over one block. -/
def combineBlock (fn : MFn) (us : Uses) (b : BlkId) : List MIns → List MIns × List Nat
  | [] => ([], [])
  | di :: rest => combineFrom fn us b 0 di rest

/-- One round of `mcombine`, with the number of pairs combined. -/
def combineRound (fn : MFn) : MFn × Nat :=
  let us := buildUses fn
  ({ fn with blk := fn.blk.mapIdx fun b blk =>
      { blk with ins := (combineBlock fn us b blk.ins).1 } },
    (fn.blk.mapIdx fun b blk => (combineBlock fn us b blk.ins).2.length).sum)

/-- The fixpoint loop of `mcombine`, cut off after `fuel` rounds. -/
def mcombineLoop : Nat → MFn → MFn × Nat
  | 0, fn => (fn, 0)
  | fuel + 1, fn =>
    let r := combineRound fn
    if r.2 = 0 then (r.1, 0)
    else
      let s := mcombineLoop fuel r.1
      (s.1, r.2 + s.2)

/-- Not a copy. -/
def MIns.notCopy (i : MIns) : Bool := i.op ≠ .copy

/-- The number of instructions that are not copies. -/
def MFn.ncopyless (fn : MFn) : Nat := (fn.blk.map fun b => b.ins.countP MIns.notCopy).sum

/-- `mcombine`.  Every combined pair turns an instruction into a copy, so `ncopyless + 1`
    rounds are enough (`mcombineLoop_stable`). -/
def mcombine (fn : MFn) : MFn × Nat := mcombineLoop (fn.ncopyless + 1) fn

/-! ### What a combined pair looks like -/

/-- The constant a pair is merged into. -/
def combineValue (op : MOP) (c1 c2 : BitVec 64) : BitVec 64 :=
  if combineShift op then c1 + c2 else (combineConst op c1 c2).getD 0

/-- The ops whose pairs are merged. -/
def combines : MOP → Bool
  | .add | .mul | .and | .or | .xor | .shl | .shr | .sar => true
  | _ => false

/-- What `combine_pair` did: `def` had its constant in the first operand and now has nothing
    but constants, `use` read `def` on one side, had a constant on the other and is a copy now. -/
structure Combined (d : ValId) (di ui di' ui' : MIns) (c1 c2 : MConst) : Prop where
  op : combines di.op = true
  opeq : ui.op = di.op
  src0 : di.src0 = .con c1
  use : ui.src0 = .val d ∧ ui.src1 = .con c2 ∨ ui.src0 = .con c2 ∧ ui.src1 = .val d
  int1 : ∃ n1, c1.u = .int n1 ∧ ∃ n2, c2.u = .int n2 ∧
    di' = { di with src1 := .con (mconstInt c1.type (combineValue di.op n1 n2)) }
  out : ui' = { ui with op := .copy, src0 := .val d, src1 := .none }

variable {op : MOP} {d v : ValId} {di ui di' ui' : MIns} {c1 c2 : MConst} {fn : MFn} {b : BlkId}
  {blk : MBlk} {i : Nat} {is is' : List MIns} {ps : List Nat} {H : Host} {M : Mode}
  {D : ValId → Prop} {st : State}

theorem cls_of_combines (h : combines op = true) : op.cls = .pure := by
  cases op <;> first | cases h; done | rfl

theorem Combined.cls
    (h : Combined d di ui di' ui' c1 c2) : di.op.cls = .pure := cls_of_combines h.op

theorem MRef.val?_eq_some {r : MRef} : r.val? = some d ↔ r = .val d := by
  cases r <;> simp [MRef.val?]

theorem MRef.int?_eq_some {r : MRef} {n : BitVec 64} (h : r.int? = some n) :
    ∃ c, r = .con c ∧ c.u = .int n := by
  cases r with
  | none => cases h
  | val v => cases h
  | con c =>
    refine ⟨c, rfl, ?_⟩
    simp only [MRef.int?, MRef.con?, bind_some, MConst.int?] at h
    split at h
    · rename_i i hu
      rw [hu, some.inj h]
    · cases h

theorem combineConst_eq_some {c1 c2 c : BitVec 64} (h : combineConst op c1 c2 = some c) :
    combines op = true ∧ combineValue op c1 c2 = c := by
  have hc := h
  unfold combineConst at h
  split at h <;> first | cases h; done | exact ⟨rfl, some.inj hc⟩

theorem combineValue_shift (h : combineShift op = true) (c1 c2 : BitVec 64) :
    combines op = true ∧ combineValue op c1 c2 = c1 + c2 := by
  refine ⟨?_, if_pos h⟩
  unfold combineShift at h
  split at h <;> first | rfl | cases h

theorem combineRewrite_con (h : di.src0 = .con c1) (c : BitVec 64) :
    combineRewrite d di ui di.src0 c = ({ di with src1 := .con (mconstInt c1.type c) },
      { ui with op := .copy, src0 := .val d, src1 := .none }) := by
  simp [combineRewrite, h, MRef.val?, MRef.con?]

theorem combinePair_eq_some (hd : di.src0 ≠ .val d)
    (h : combinePair d di ui = some (di', ui')) : ∃ c1 c2, Combined d di ui di' ui' c1 c2 := by
  have hd' : di.src0.val? ≠ some d := fun e => hd (MRef.val?_eq_some.mp e)
  unfold combinePair at h
  split at h
  · cases h
  split at h
  · cases h
  rename_i huse
  dsimp only at h
  split at h
  · rename_i n1 n2 h1 h2
    obtain ⟨c1, hs0, hc1⟩ := MRef.int?_eq_some h1
    obtain ⟨c2, hs2, hc2⟩ := MRef.int?_eq_some h2
    have hside : ui.src0 = .val d ∧ ui.src1 = .con c2 ∨ ui.src0 = .con c2 ∧ ui.src1 = .val d := by
      by_cases hu0 : ui.src0.val? = some d
      · rw [if_pos hu0] at hs2
        exact .inl ⟨MRef.val?_eq_some.mp hu0, hs2⟩
      · rw [if_neg hu0] at hs2
        refine .inr ⟨hs2, MRef.val?_eq_some.mp ?_⟩
        by_contra hne
        exact huse ⟨hu0, hne⟩
    have hmade : ∀ c, combines di.op = true → combineValue di.op n1 n2 = c → ui.op = di.op →
        combineRewrite d di ui di.src0 c = (di', ui') → Combined d di ui di' ui' c1 c2 := by
      intro c hop hval heq hr
      rw [combineRewrite_con hs0, Prod.mk.injEq] at hr
      exact ⟨hop, heq, hs0, hside, ⟨n1, hc1, n2, hc2, hval ▸ hr.1.symm⟩, hr.2.symm⟩
    refine ⟨c1, c2, ?_⟩
    split at h
    · rename_i hop
      obtain ⟨c, hc, hr⟩ := map_eq_some_iff.mp h
      have hval := combineConst_eq_some hc
      exact hmade c hval.1 hval.2 hop.1.symm hr
    · split at h
      · rename_i hop
        split at h
        · cases h
        · have hval := combineValue_shift hop.2 n1 n2
          exact hmade _ hval.1 hval.2 hop.1.symm (some.inj h)
      · cases h
  · cases h

/-! ### Temps that do not leave their block -/

/-- In the list, `v` is only read by the instruction right behind a definition of it;
    `prev` is what the instruction in front of the list defines. -/
def LocalReads (v : ValId) : Option ValId → List MIns → Prop
  | _, [] => True
  | prev, i :: is => (i.src0 = .val v ∨ i.src1 = .val v → prev = some v) ∧ LocalReads v i.writes is

/-- A temp that is never live between two blocks: every read of it sits right behind a
    definition. -/
structure MFn.BlockLocal (fn : MFn) (v : ValId) : Prop where
  temp : fn.isTemp v = true
  ins : ∀ blk ∈ fn.blk, LocalReads v none blk.ins
  term : ∀ blk ∈ fn.blk, blk.term.src0 ≠ .val v
  phi : ∀ blk ∈ fn.blk, ∀ q ∈ blk.phi, ∀ a ∈ q.args, a.1 ≠ v

theorem localReads_of_index (is : List MIns) : ∀ (prev : Option ValId),
    (∀ k i, is[k]? = some i → i.src0 = .val v ∨ i.src1 = .val v →
      (k = 0 ∧ prev = some v) ∨ ∃ j p, k = j + 1 ∧ is[j]? = some p ∧ p.writes = some v) →
    LocalReads v prev is := by
  induction is with
  | nil => exact fun _ _ => trivial
  | cons i is ih =>
    intro prev h
    refine ⟨fun hr => ?_, ih i.writes fun k j hk hr => ?_⟩
    · rcases h 0 i rfl hr with ⟨_, hp⟩ | ⟨j, p, hj, _⟩
      · exact hp
      · cases hj
    · rcases h (k + 1) j hk hr with ⟨hk0, _⟩ | ⟨j', p, hj', hp, hd⟩
      · cases hk0
      · obtain rfl : k = j' := Nat.succ.inj hj'
        cases k with
        | zero =>
          obtain rfl : i = p := some.inj hp
          exact .inl ⟨rfl, hd⟩
        | succ k => exact .inr ⟨k, p, rfl, hp, hd⟩

/-- A temp whose only use is right behind a definition is local. -/
theorem blockLocal_of_single {a : Nat}
    (hb : fn.blk[b]? = some blk) (hi : blk.ins[i]? = some di) (hd : di.writes = some d)
    (ht : fn.isTemp d = true) (hu : buildUses fn d = [.ins b (i + 1) a]) : fn.BlockLocal d := by
  have hpos : ∀ b' blk' k j, fn.blk[b']? = some blk' → blk'.ins[k]? = some j →
      j.src0 = .val d ∨ j.src1 = .val d → b' = b ∧ k = i + 1 := by
    rintro b' blk' k j hb' hk (hr | hr)
    · have := use_of_src0 ht hb' hk hr
      rw [hu, mem_singleton] at this
      exact ⟨(MUse.ins.inj this).1, (MUse.ins.inj this).2.1⟩
    · have := use_of_src1 ht hb' hk hr
      rw [hu, mem_singleton] at this
      exact ⟨(MUse.ins.inj this).1, (MUse.ins.inj this).2.1⟩
  refine ⟨ht, fun blk' hmem => ?_, fun blk' hmem hs => ?_, fun blk' hmem q hq p hp he => ?_⟩ <;>
    obtain ⟨b', hb'⟩ := getElem?_of_mem hmem
  · refine localReads_of_index _ _ fun k j hk hr => .inr ?_
    obtain ⟨rfl, rfl⟩ := hpos b' blk' k j hb' hk hr
    obtain rfl : blk = blk' := some.inj (hb.symm.trans hb')
    exact ⟨i, di, rfl, hi, hd⟩
  · have := use_of_term ht hb' hs
    rw [hu, mem_singleton] at this
    cases this
  · obtain ⟨k, hk⟩ := getElem?_of_mem hq
    obtain ⟨j, hj⟩ := getElem?_of_mem hp
    subst he
    have := use_of_phi (q := p.2) ht hb' hk hj
    rw [hu, mem_singleton] at this
    cases this

/-! ### What a round does to a block -/

/-- The list `is'` is `is` from position `i` on with the pairs at the positions `ps` merged. -/
inductive Pairs (fn : MFn) : Nat → List MIns → List MIns → List Nat → Prop
  | nil {i : Nat} : Pairs fn i [] [] []
  | keep {i : Nat} {a : MIns} {is is' : List MIns} {ps : List Nat} (tail : Pairs fn (i + 1) is is' ps) :
      Pairs fn i (a :: is) (a :: is') ps
  | merge {i : Nat} {d u : ValId} {di ui di' ui' : MIns} {c1 c2 : MConst} {is is' : List MIns}
      {ps : List Nat} (dst : di.dst = some d) (dst' : ui.dst = some u)
      (loc : fn.BlockLocal d) (comb : Combined d di ui di' ui' c1 c2) (tail : Pairs fn (i + 2) is is' ps) :
      Pairs fn i (di :: ui :: is) (di' :: ui' :: is') (i :: ps)

/-- A copy is not merged with what follows. -/
theorem combineTry_copy {us : Uses}
    (h : di.op = .copy) : combineTry fn us b i di ui = none := by
  unfold combineTry
  split
  · split
    · unfold combinePair
      have hc : combineCommutative di.op = false := by rw [h]; rfl
      have hs : combineShift di.op = false := by rw [h]; rfl
      split
      · rfl
      · split
        · rfl
        · dsimp only
          split <;> simp [hc, hs]
    · rfl
  · rfl

/-- A pair that is merged reads the first result once, behind its definition. -/
theorem combineTry_eq_some (hb : fn.blk[b]? = some blk) (hi : blk.ins[i]? = some di)
    (h : combineTry fn (buildUses fn) b i di ui = some (di', ui')) :
    ∃ d u c1 c2, di.dst = some d ∧ ui.dst = some u ∧ fn.BlockLocal d ∧
      Combined d di ui di' ui' c1 c2 := by
  unfold combineTry at h
  split at h
  · rename_i d u hd hu
    split at h
    · rename_i hc
      simp only [combineSingleUse, Bool.and_eq_true] at hc
      obtain ⟨⟨htemp, -⟩, -, hsingle⟩ := hc
      obtain ⟨a, ha⟩ : ∃ a, buildUses fn d = [.ins b (i + 1) a] := by
        split at hsingle
        · rename_i b' j a hus
          simp only [Bool.and_eq_true, decide_eq_true_eq] at hsingle
          exact ⟨a, by rw [hus, hsingle.1, hsingle.2]⟩
        · cases hsingle
      have hsrc : di.src0 ≠ .val d := by
        intro hs
        have := use_of_src0 htemp hb hi hs
        rw [ha] at this
        simp at this
      obtain ⟨c1, c2, hcomb⟩ := combinePair_eq_some hsrc h
      have hw : di.writes = some d := by simp only [MIns.writes, hcomb.cls, hd]
      exact ⟨d, u, c1, c2, hd, hu, blockLocal_of_single hb hi hw htemp ha, hcomb⟩
    · cases h
  · cases h

/-- The inner loop merges disjoint pairs of the block it started with. -/
theorem combineFrom_pairs (hb : fn.blk[b]? = some blk) :
    ∀ (rest : List MIns) (i : Nat) (di : MIns),
      (∀ j a, (di :: rest)[j]? = some a → blk.ins[i + j]? = some a) →
      Pairs fn i (di :: rest) (combineFrom fn (buildUses fn) b i di rest).1
        (combineFrom fn (buildUses fn) b i di rest).2
  | [], i, di, _ => .keep .nil
  | ui :: rest, i, di, hpos => by
    have htail : ∀ j a, (ui :: rest)[j]? = some a → blk.ins[i + 1 + j]? = some a := by
      intro j a ha
      rw [Nat.add_assoc, Nat.add_comm 1 j]
      exact hpos (j + 1) a ha
    simp only [combineFrom]
    split
    · rename_i di' ui' htry
      obtain ⟨d, u, c1, c2, hd, hu, hloc, hcomb⟩ := combineTry_eq_some hb (hpos 0 di rfl) htry
      match rest, htail with
      | [], _ => exact .merge hd hu hloc hcomb .nil
      | v :: rest, htail =>
        have hcopy : ui'.op = .copy := by rw [hcomb.out]
        have hnext : ∀ j a, (v :: rest)[j]? = some a → blk.ins[i + 2 + j]? = some a := by
          intro j a ha
          rw [show i + 2 + j = i + 1 + (j + 1) by omega]
          exact htail (j + 1) a ha
        simp only [combineFrom, combineTry_copy hcopy]
        exact .merge hd hu hloc hcomb (combineFrom_pairs hb rest (i + 2) v hnext)
    · exact .keep (combineFrom_pairs hb rest (i + 1) ui htail)

theorem combineBlock_pairs (hb : fn.blk[b]? = some blk) :
    Pairs fn 0 blk.ins (combineBlock fn (buildUses fn) b blk.ins).1
      (combineBlock fn (buildUses fn) b blk.ins).2 := by
  cases hins : blk.ins with
  | nil => exact .nil
  | cons di rest =>
    exact combineFrom_pairs hb rest 0 di fun j a ha => by rw [Nat.zero_add, hins]; exact ha

/-! ### Termination -/

theorem Combined.not_copy (h : Combined d di ui di' ui' c1 c2) : di.op ≠ .copy := by
  intro hop
  have := h.op
  rw [hop] at this
  cases this

/-- Every merged pair turns one instruction into a copy. -/
theorem Pairs.ncopyless (h : Pairs fn i is is' ps) :
    ps.length + is'.countP MIns.notCopy = is.countP MIns.notCopy := by
  induction h with
  | nil => rfl
  | keep _ ih =>
    simp only [countP_cons]
    omega
  | @merge i d u di ui di' ui' c1 c2 is is' ps _ _ _ hcomb _ ih =>
    obtain ⟨n1, -, n2, -, hdi⟩ := hcomb.int1
    have hd : di'.notCopy = true := by simp [hdi, MIns.notCopy, hcomb.not_copy]
    have hd0 : di.notCopy = true := by simp [MIns.notCopy, hcomb.not_copy]
    have hu : ui'.notCopy = false := by simp [hcomb.out, MIns.notCopy]
    have hu0 : ui.notCopy = true := by simp [MIns.notCopy, hcomb.opeq, hcomb.not_copy]
    simp only [countP_cons, hd, hd0, hu, hu0, length_cons, if_true, Bool.false_eq_true,
      if_false]
    omega

/-- Counting block by block. -/
theorem sum_mapIdx_add {α : Type} (m : α → Nat) : ∀ (l : List α) (f : Nat → α → α)
    (c : Nat → α → Nat), (∀ j a, l[j]? = some a → c j a + m (f j a) = m a) →
    (l.mapIdx c).sum + ((l.mapIdx f).map m).sum = (l.map m).sum := by
  intro l
  induction l with
  | nil => intro f c _; rfl
  | cons a l ih =>
    intro f c h
    have h0 := h 0 a rfl
    have hs := ih (fun j => f (j + 1)) (fun j => c (j + 1)) fun j b hb => h (j + 1) b hb
    simp only [mapIdx_cons, map_cons, sum_cons]
    omega

theorem combineRound_ncopyless (fn : MFn) :
    (combineRound fn).2 + (combineRound fn).1.ncopyless = fn.ncopyless :=
  sum_mapIdx_add (fun b : MBlk => b.ins.countP MIns.notCopy) fn.blk
    (fun b blk => { blk with ins := (combineBlock fn (buildUses fn) b blk.ins).1 })
    (fun b blk => (combineBlock fn (buildUses fn) b blk.ins).2.length)
    fun _ _ hb => (combineBlock_pairs hb).ncopyless

theorem Pairs.eq_of_nil (h : Pairs fn i is is' ps) (hps : ps = []) : is' = is := by
  induction h with
  | nil => rfl
  | keep _ ih => rw [ih hps]
  | merge => cases hps

/-- A round that combines nothing changes nothing. -/
theorem combineRound_eq_of_zero (h : (combineRound fn).2 = 0) :
    (combineRound fn).1 = fn := by
  have hblk : fn.blk.mapIdx (fun b blk =>
      { blk with ins := (combineBlock fn (buildUses fn) b blk.ins).1 }) = fn.blk := by
    refine ext_getElem? fun b => ?_
    rw [getElem?_mapIdx]
    cases hb : fn.blk[b]? with
    | none => rfl
    | some blk =>
      have hnil : (combineBlock fn (buildUses fn) b blk.ins).2.length = 0 := by
        refine List.sum_eq_zero_iff_forall_eq_nat.mp h _ (List.mem_of_getElem? (i := b) ?_)
        rw [List.getElem?_mapIdx, hb]
        rfl
      rw [map_some, (combineBlock_pairs hb).eq_of_nil (eq_nil_of_length_eq_zero hnil)]
  simp only [combineRound, hblk]

/-- With more rounds than instructions the loop ends by itself, with a round that combines
    nothing. -/
theorem mcombineLoop_done (fuel : Nat) : ∀ fn : MFn, fn.ncopyless < fuel →
    (combineRound (mcombineLoop fuel fn).1).2 = 0 ∧
      ∀ k, mcombineLoop (fuel + k) fn = mcombineLoop fuel fn := by
  induction fuel with
  | zero => intro fn h; exact absurd h (Nat.not_lt_zero _)
  | succ fuel ih =>
    intro fn h
    have hcount := combineRound_ncopyless fn
    by_cases hr : (combineRound fn).2 = 0
    · refine ⟨?_, fun k => ?_⟩
      · simp only [mcombineLoop, hr, if_true]
        rw [combineRound_eq_of_zero hr, hr]
      · rw [show fuel + 1 + k = (fuel + k) + 1 by omega]
        simp only [mcombineLoop, hr, if_true]
    · obtain ⟨hdone, hstable⟩ := ih (combineRound fn).1 (by omega)
      refine ⟨?_, fun k => ?_⟩
      · simpa only [mcombineLoop, hr, if_false] using hdone
      · rw [show fuel + 1 + k = (fuel + k) + 1 by omega]
        simp only [mcombineLoop, hr, if_false, hstable k]

/-! ### Local temps and rounds -/

/-- Merging pairs adds no reads. -/
theorem Pairs.localReads (h : Pairs fn i is is' ps) : ∀ {prev : Option ValId},
      LocalReads v prev is → LocalReads v prev is' := by
  induction h with
  | nil => exact fun _ => trivial
  | keep _ ih => exact fun hr => ⟨hr.1, ih hr.2⟩
  | @merge i d u di ui di' ui' c1 c2 is is' ps hd hu _ hcomb _ ih =>
    intro prev hr
    obtain ⟨n1, -, n2, -, hdi⟩ := hcomb.int1
    have hdst : di'.writes = some d := by
      rw [hdi]
      simp only [MIns.writes, hcomb.cls, hd]
    have hdst' : ui'.writes = ui.writes := by
      rw [hcomb.out]
      simp only [MIns.writes, hcomb.opeq, hcomb.cls]
      rfl
    refine ⟨fun hread => ?_, fun hread => ?_, ?_⟩
    · simp [hdi, hcomb.src0] at hread
    · rw [hdst]
      simpa [hcomb.out] using hread
    · rw [hdst']
      exact ih hr.2.2

theorem combineRound_getElem? (fn : MFn) (b : BlkId) :
    (combineRound fn).1.blk[b]? = (fn.blk[b]?).map fun blk =>
      { blk with ins := (combineBlock fn (buildUses fn) b blk.ins).1 } := by
  simp [combineRound]

/-- A round keeps local temps local. -/
theorem MFn.BlockLocal.combineRound (h : fn.BlockLocal v) :
    (combineRound fn).1.BlockLocal v := by
  have hback : ∀ blk' ∈ (Mir.combineRound fn).1.blk, ∃ (b : BlkId) (blk : MBlk), fn.blk[b]? = some blk ∧
      blk' = { blk with ins := (combineBlock fn (buildUses fn) b blk.ins).1 } := by
    intro blk' hmem
    obtain ⟨b, hb'⟩ := getElem?_of_mem hmem
    rw [combineRound_getElem?] at hb'
    obtain ⟨blk, hb, he⟩ := map_eq_some_iff.mp hb'
    exact ⟨b, blk, hb, he.symm⟩
  refine ⟨h.temp, fun blk' hmem => ?_, fun blk' hmem => ?_, fun blk' hmem => ?_⟩ <;>
    obtain ⟨b, blk, hb, rfl⟩ := hback blk' hmem
  · exact (combineBlock_pairs hb).localReads (h.ins blk (mem_of_getElem? hb))
  · exact h.term blk (mem_of_getElem? hb)
  · exact h.phi blk (mem_of_getElem? hb)

/-! ### Running a merged pair -/

/-- The value a pair leaves in its second temp `u`, by way of its first temp `d`. -/
def pairVal (H : Host) (fn : MFn) (di ui : MIns) (d u : ValId) (regs : ValId → BitVec 64) :
    Option (BitVec 64) :=
  (pureVal H.fp di.op di.dtype (opnd H fn regs di.src0) (opnd H fn regs di.src1)).bind fun x =>
    let regs1 := setReg fn regs (some d) (some x)
    (pureVal H.fp ui.op ui.dtype (opnd H fn regs1 ui.src0) (opnd H fn regs1 ui.src1)).map
      (low (fn.vtype u).bits)

/-- The value of the constant expression `c1 op n`, as `d` and then `u` keep it. -/
def constVal (H : Host) (fn : MFn) (di ui : MIns) (d u : ValId) (c1 : MConst) (n : BitVec 64) :
    Option (BitVec 64) :=
  (pureVal H.fp di.op di.dtype ⟨constBits H c1, c1.type, none⟩ ⟨n, c1.type, none⟩).map
    fun x => low (fn.vtype u).bits (low ui.dtype.bits (low (fn.vtype d).bits x))

/-- The pair `(c1 op x) op c2` has the value of `c1 op (c1 op c2)`, in which `x` does not occur. -/
def PairOk (H : Host) (fn : MFn) (di ui : MIns) (regs : ValId → BitVec 64) : Prop :=
  ∀ d u c1 n1 n2, di.dst = some d → ui.dst = some u → di.src0 = .con c1 → c1.u = .int n1 →
    (ui.src0.int? = some n2 ∨ ui.src1.int? = some n2) →
    pairVal H fn di ui d u regs = constVal H fn di ui d u c1 (combineValue di.op n1 n2)

/-- A merged pair whose value does not depend on `x` leaves the same second temp. -/
theorem Combined.run {prev : Option ValId} {u : ValId} {st' st1 st2 : State}
    (h : Combined d di ui di' ui' c1 c2) (hd : di.dst = some d) (hu : ui.dst = some u)
    (ht : fn.isTemp d = true) (hD : D d) (hok : PairOk H fn di ui st.regs)
    (hag : StateAgree (fun v => D v ∧ prev ≠ some v) st st')
    (h1 : stepIns H M fn st di = some st1) (h2 : stepIns H M fn st1 ui = some st2) :
    ∃ st1' st2', stepIns H M fn st' di' = some st1' ∧ stepIns H M fn st1' ui' = some st2' ∧
      StateAgree (fun v => D v ∧ some u ≠ some v) st2 st2' := by
  obtain ⟨n1, hn1, n2, hn2, hdi'⟩ := h.int1
  have hclsu : ui.op.cls = .pure := by rw [h.opeq]; exact h.cls
  obtain ⟨x, hx, rfl⟩ := (stepIns_pure h.cls).mp h1
  obtain ⟨y, hy, rfl⟩ := (stepIns_pure hclsu).mp h2
  rw [hd] at hy
  have hint : ui.src0.int? = some n2 ∨ ui.src1.int? = some n2 := by
    rcases h.use with ⟨_, hs⟩ | ⟨hs, _⟩ <;> simp [hs, MRef.int?, MRef.con?, MConst.int?, hn2]
  have hpair : pairVal H fn di ui d u st.regs = some (low (fn.vtype u).bits y) := by
    simp only [pairVal, hx, bind_some, hy, map_some]
  obtain ⟨z, hz, hzy⟩ := map_eq_some_iff.mp
    ((hok d u c1 n1 n2 hd hu h.src0 hn1 hint).symm.trans hpair)
  have h1' : stepIns H M fn st' di' = some ⟨setReg fn st'.regs (some d) (some z), st'.w⟩ := by
    have hcls : di'.op.cls = .pure := by rw [hdi']; exact h.cls
    rw [stepIns_pure hcls, hdi']
    refine ⟨z, ?_, by rw [hd]⟩
    rw [h.src0, opnd_con, opnd_mconstInt]
    exact hz
  have h2' : stepIns H M fn ⟨setReg fn st'.regs (some d) (some z), st'.w⟩ ui' =
      some ⟨setReg fn (setReg fn st'.regs (some d) (some z)) (some u)
        (some (low ui.dtype.bits (low (fn.vtype d).bits z))), st'.w⟩ := by
    have hcls : ui'.op.cls = .pure := by rw [h.out]; rfl
    rw [stepIns_pure hcls, h.out]
    refine ⟨low ui.dtype.bits (low (fn.vtype d).bits z), ?_, by rw [hu]⟩
    rw [pureVal_copy, opnd_temp H ht]
    simp only [setReg, Function.update_self]
  refine ⟨_, _, h1', h2', ⟨fun v hv => ?_, hag.w⟩⟩
  rw [hu]
  by_cases hvu : v = u
  · simp only [setReg, hvu, Function.update_self, hzy]
  · -- `v` is neither temp of the pair, so it has kept the value it agreed on
    have hnD : ¬ D v := fun hDv => hv ⟨hDv, fun e => hvu (some.inj e).symm⟩
    have hvd : v ≠ d := fun e => hnD (e ▸ hD)
    rw [hd]
    simp only [setReg, Function.update_of_ne hvu, Function.update_of_ne hvd]
    exact hag.regs v fun hDv => hnD hDv.1

/-- What the instruction just run defines agrees, whatever was known of it before. -/
theorem stepIns_agree_writes {st' st1 : State} {prev : Option ValId}
    (H : Host) (M : Mode) (fn : MFn) (h : StateAgree (fun v => D v ∧ prev ≠ some v) st st')
    {i : MIns} (hi : i.Avoids fun v => D v ∧ prev ≠ some v) (hs : stepIns H M fn st i = some st1) :
    ∃ st1', stepIns H M fn st' i = some st1' ∧
      StateAgree (fun v => D v ∧ i.writes ≠ some v) st1 st1' := by
  unfold stepIns at hs ⊢
  rw [opnd_agree h.regs H fn hi.1, opnd_agree h.regs H fn hi.2, h.w]
  obtain ⟨⟨v, w'⟩, hr, rfl⟩ := map_eq_some_iff.mp hs
  refine ⟨_, congrArg (Option.map _) hr, ?_, rfl⟩
  cases hw : i.writes with
  | none => exact (h.regs.setReg fn i.dst v).mono fun u hu => ⟨hu.1, by simp⟩
  | some d =>
    obtain ⟨hdst, n, rfl⟩ := effect_writes hw hr
    rw [hdst]
    exact (h.regs.setReg_self fn d n).mono fun u hu => ⟨hu.1.1, by simpa using Ne.symm hu.2⟩

/-- **Step lemma.** Merged pairs that meet their condition leave the code's meaning alone. -/
theorem Pairs.run (h : Pairs fn i is is' ps) (hD : ∀ v, fn.BlockLocal v → D v) :
    ∀ {prev : Option ValId} {st st' st1 : State}, (∀ v, D v → LocalReads v prev is') →
      (∀ j, i + j ∈ ps → ∀ di ui st2, is[j]? = some di → is[j + 1]? = some ui →
        runIns H M fn (is.take j) st = some st2 → PairOk H fn di ui st2.regs) →
      StateAgree (fun v => D v ∧ prev ≠ some v) st st' → runIns H M fn is st = some st1 →
      ∃ st1', runIns H M fn is' st' = some st1' ∧ StateAgree D st1 st1' := by
  induction h with
  | nil =>
    intro prev st st' st1 _ _ hag hs
    cases hs
    exact ⟨st', rfl, hag.mono fun v hv => hv.1⟩
  | @keep i a is is' ps _ ih =>
    intro prev st st' st1 hreads hok hag hs
    obtain ⟨st2, h2, hs⟩ := runIns_cons.mp hs
    have havoid : a.Avoids fun v => D v ∧ prev ≠ some v :=
      ⟨fun v hv hDv => hDv.2 ((hreads v hDv.1).1 (.inl hv)),
        fun v hv hDv => hDv.2 ((hreads v hDv.1).1 (.inr hv))⟩
    obtain ⟨st2', h2', hag'⟩ := stepIns_agree_writes H M fn hag havoid h2
    have hok' : ∀ j, i + 1 + j ∈ ps → ∀ di ui st3, is[j]? = some di → is[j + 1]? = some ui →
        runIns H M fn (is.take j) st2 = some st3 → PairOk H fn di ui st3.regs := by
      intro j hj di ui st3 hdi hui hrun
      refine hok (j + 1) ?_ di ui st3 hdi hui (runIns_cons.mpr ⟨st2, h2, hrun⟩)
      rwa [show i + (j + 1) = i + 1 + j by omega]
    obtain ⟨st1', h1', hag1⟩ := ih (fun v hv => (hreads v hv).2) hok' hag' hs
    exact ⟨st1', runIns_cons.mpr ⟨st2', h2', h1'⟩, hag1⟩
  | @merge i d u di ui di' ui' c1 c2 is is' ps hd hu hloc hcomb _ ih =>
    intro prev st st' st1 hreads hok hag hs
    obtain ⟨st2, h2, hs⟩ := runIns_cons.mp hs
    obtain ⟨st3, h3, hs⟩ := runIns_cons.mp hs
    have hpair : PairOk H fn di ui st.regs := hok 0 (mem_cons_self ..) di ui st rfl rfl rfl
    obtain ⟨st2', st3', h2', h3', hag'⟩ := hcomb.run hd hu hloc.temp (hD d hloc) hpair hag h2 h3
    have hw : ui'.writes = some u := by
      rw [hcomb.out]
      exact hu
    have hok' : ∀ j, i + 2 + j ∈ ps → ∀ di ui st4, is[j]? = some di → is[j + 1]? = some ui →
        runIns H M fn (is.take j) st3 = some st4 → PairOk H fn di ui st4.regs := by
      intro j hj di' ui' st4 hdi hui hrun
      refine hok (j + 2) ?_ di' ui' st4 hdi hui
        (runIns_cons.mpr ⟨st2, h2, runIns_cons.mpr ⟨st3, h3, hrun⟩⟩)
      rw [show i + (j + 2) = i + 2 + j by omega]
      exact mem_cons_of_mem i hj
    obtain ⟨st1', h1', hag1⟩ := ih (fun v hv => hw ▸ (hreads v hv).2.2) hok' hag' hs
    exact ⟨st1', runIns_cons.mpr ⟨st2', h2', runIns_cons.mpr ⟨st3', h3', h1'⟩⟩, hag1⟩

/-! ### Rounds -/

/-- Every pair a round combines in the block about to run meets its condition, in the state
    in front of the pair. -/
def CombineOk (H : Host) (M : Mode) (fn : MFn) (c : Cfg) : Prop :=
  ∀ blk st1, fn.blk[c.b]? = some blk → enterBlk H fn c.prev blk c.st = some st1 →
    ∀ i ∈ (combineBlock fn (buildUses fn) c.b blk.ins).2, ∀ di ui st,
      blk.ins[i]? = some di → blk.ins[i + 1]? = some ui →
      runIns H M fn (blk.ins.take i) st1 = some st → PairOk H fn di ui st.regs

/-- A round keeps the meaning of a run all of whose pairs meet their condition. -/
theorem combineRound_sim (H : Host) (M : Mode) (fn : MFn) :
    SimOn (CombineOk H M fn) (runBlk H M fn) (runBlk H M (combineRound fn).1)
      (CfgAgree (combineRound fn).1.BlockLocal) Eq := by
  intro c c' s hok hc hs
  have hval : (combineRound fn).1.val = fn.val := rfl
  obtain ⟨blk, st1, st2, hb, h1, h2, hs⟩ := runBlk_eq_some.mp hs
  have hb' : (combineRound fn).1.blk[c'.b]? =
      some { blk with ins := (combineBlock fn (buildUses fn) c.b blk.ins).1 } := by
    rw [hc.b, combineRound_getElem?, hb]
    rfl
  have hmem := mem_of_getElem? hb'
  have hphi : ∀ q ∈ blk.phi, ∀ a ∈ q.args, ¬ (combineRound fn).1.BlockLocal a.1 :=
    fun q hq a ha hl => hl.phi _ hmem q hq a ha rfl
  obtain ⟨st1', h1', hag1⟩ := enterBlk_agree H fn hc.st hphi h1
  obtain ⟨st2', h2', hag2⟩ := (combineBlock_pairs hb).run (fun v hv => hv.combineRound)
    (fun v hv => hv.ins _ hmem) (fun i hi di ui st => hok blk st1 hb h1 i (by simpa using hi) di ui st)
    (hag1.mono fun v hv => ⟨hv, (some_ne_none v).symm⟩) h2
  have hterm : blk.term.src0.Avoids (combineRound fn).1.BlockLocal :=
    fun v hv hl => hl.term _ hmem hv
  obtain ⟨s', hs', hrel⟩ := runTerm_agree H fn hag2 hterm hs
  refine ⟨s', runBlk_eq_some.mpr ⟨_, st1', st2', hb', ?_, ?_, ?_⟩, hrel⟩
  · rw [hc.prev, enterBlk_congr hval]
    exact h1'
  · rw [runIns_congr hval]
    exact h2'
  · rw [hc.b, runTerm_congr hval rfl]
    exact hs'

/-- The rounds of the loop, each on the function it starts from: every pair combined on the
    first `n` blocks of its run meets its condition. -/
def CombineRunOk (H : Host) (M : Mode) (n : Nat) (st : State) : Nat → MFn → Prop
  | 0, _ => True
  | fuel + 1, fn =>
    Along (runBlk H M fn) (CombineOk H M fn) n (fn.entry st) ∧
      ((combineRound fn).2 ≠ 0 → CombineRunOk H M n st fuel (combineRound fn).1)

theorem mcombineLoop_blockLocal (fuel : Nat) : ∀ {fn : MFn} {v : ValId}, fn.BlockLocal v →
    (mcombineLoop fuel fn).1.BlockLocal v := by
  induction fuel with
  | zero => exact fun h => h
  | succ fuel ih =>
    intro fn v h
    simp only [mcombineLoop]
    split
    · exact h.combineRound
    · exact ih h.combineRound

theorem mcombineLoop_matches {n : Nat} (fuel : Nat) :
    ∀ fn : MFn, CombineRunOk H M n st fuel fn →
      Matches (runBlk H M fn) (runBlk H M (mcombineLoop fuel fn).1)
        (CfgAgree (mcombineLoop fuel fn).1.BlockLocal) Eq n (fn.entry st)
        ((mcombineLoop fuel fn).1.entry st) := by
  induction fuel with
  | zero => exact fun fn _ => Matches.refl (CfgAgree.refl _)
  | succ fuel ih =>
    intro fn hok
    have hround := (combineRound_sim H M fn).matches (fun _ _ h => h) (fun _ _ h => h)
      (CfgAgree.refl _ (fn.entry st)) hok.1
    by_cases hr : (combineRound fn).2 = 0
    · simp only [mcombineLoop, hr, if_true]
      exact hround
    · simp only [mcombineLoop, hr, if_false]
      exact hround.trans (ih _ (hok.2 hr))
        (fun _ _ _ => CfgAgree.trans fun v hv => mcombineLoop_blockLocal fuel hv)
        (fun _ _ _ => Eq.trans)

/-- `int f(int x) { return (x + 5) + 7; }`, with the first constant on the given side. -/
def addTwiceFn (left : Bool) : MFn where
  blk := [{ ins := [⟨.par, .i32, some 0, .none, .none, none, 0⟩,
                    ⟨.add, .i32, some 1, if left then .con (mconstInt .i32 5) else .val 0,
                      if left then .val 0 else .con (mconstInt .i32 5), none, 0⟩,
                    ⟨.add, .i32, some 2, .val 1, .con (mconstInt .i32 7), none, 0⟩]
            term := ⟨.ret, .val 2⟩ }]
  val := [⟨.temp, .i32, false, none, "", some 0, true⟩,
          ⟨.temp, .i32, false, none, "", some 0, true⟩,
          ⟨.temp, .i32, false, none, "", some 0, true⟩]
  rettype := .i32

end MeuOS.Mir
