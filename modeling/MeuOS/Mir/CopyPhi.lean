import MeuOS.Mir.CopySound

namespace MeuOS.Mir

open MeuOS.Lib List Option

/-!
# Collapsing phis keeps a function's meaning

A phi all of whose arguments are `a` holds what `a` held when its block was last entered.  That
is what `a` holds now as long as the block of `a` has not run since (`Fresh`), and SSA form sees
to it wherever the phi is read: were the block of `a` the last of the two, there would be a path
to the reader around the phi (`fresh_of_dominated`).

* `collapsePhi_blk` — what a collapse does to each block;
* `PhiRel` — the two runs of a function before and after one collapse;
* `collapsePhi_matched` — one collapse; `mcopyCollapse_matched` — all of them;
* `mcopy_meaning` — the pass.
-/

/-! ### What a collapse changes -/

/-- The substitution of one value for another. -/
def Subst.one (d a : ValId) : Subst := Function.update (fun _ => none) d (some (.val a))

/-- A block with `a` in the place of `d`. -/
def MBlk.rename (d a : ValId) (blk : MBlk) : MBlk :=
  { blk with
    phi := blk.phi.map (·.replace d a)
    ins := blk.ins.map (·.subst (.one d a))
    term := { blk.term with src0 := (Subst.one d a).ref blk.term.src0 } }

theorem Subst.one_ref (d a : ValId) (r : MRef) :
    (Subst.one d a).ref r = if r = .val d then .val a else r := by
  rcases r with _ | v | c
  · rfl
  · by_cases hv : v = d
    · simp [Subst.ref, Subst.one, hv]
    · simp [Subst.ref, Subst.one, hv]
  · rfl

variable {d a v : ValId} {q q' : MPhi} {fn : MFn} {x b : BlkId} {blk blk' : MBlk} {p : List BlkId}
  {phis : List MPhi} {c : Cfg}

theorem MPhi.replace_of_not_mem (h : ∀ x ∈ q.args, x.1 ≠ d) :
    q.replace d a = q := by
  have hargs : (q.args.map fun x => if x.1 = d then (a, x.2) else x) = q.args := by
    refine (map_congr_left fun x hx => ?_).trans (map_id _)
    exact if_neg (h x hx)
  unfold MPhi.replace
  rw [hargs]

/-- What the chains of a temp record is where it stands. -/
theorem atUses_buildUses (hd : fn.isTemp d = true) (a : ValId) (hx : fn.blk[x]? = some blk) :
    blk.atUses (buildUses fn d) d a (.val a) x = blk.rename d a := by
  have hphi : (blk.phi.mapIdx fun k q =>
      if hasPhiUse (buildUses fn d) x k then q.replace d a else q) = blk.phi.map (·.replace d a) := by
    apply ext_getElem?
    intro k
    rw [getElem?_mapIdx, getElem?_map]
    rcases hk : blk.phi[k]? with _ | q
    · rfl
    · refine congrArg some ?_
      split
      next => rfl
      next hno =>
        refine (MPhi.replace_of_not_mem fun y hy hyd => hno ?_).symm
        obtain ⟨j, hj⟩ := getElem?_of_mem hy
        obtain ⟨v, c⟩ := y
        obtain rfl : v = d := hyd
        exact any_eq_true.mpr ⟨_, use_of_phi hd hx hk hj, by simp⟩
  have hins : (blk.ins.mapIdx fun j i => i.atUses (buildUses fn d) (.val a) x j) =
      blk.ins.map (·.subst (.one d a)) := by
    apply ext_getElem?
    intro j
    rw [getElem?_mapIdx, getElem?_map]
    rcases hj : blk.ins[j]? with _ | i
    · rfl
    · refine congrArg some ?_
      obtain ⟨h0, h1⟩ := mem_buildUses_ins hx hd hj
      simp only [MIns.atUses, MIns.subst, Subst.one_ref, h0, h1]
  unfold MBlk.atUses MBlk.rename
  rw [hphi, hins]
  simp only [mem_buildUses_term hx hd, Subst.one_ref]

/-- The argument all entries have in common. -/
theorem phiCommonFrom_some (args : List (ValId × BlkId)) :
    ∀ {common : Option ValId} {self : Bool}, phiCommonFrom d args common self = some a →
      self = false ∧ (common = some a ∨ common = none ∧ a ≠ d) ∧
        ∀ x ∈ args, x.1 = a := by
  induction args with
  | nil =>
    intro common self h
    unfold phiCommonFrom at h
    split at h
    · cases h
    · next hself => exact ⟨by simpa using hself, .inl h, fun x hx => absurd hx not_mem_nil⟩
  | cons y args ih =>
    intro common self h
    obtain ⟨v, c⟩ := y
    unfold phiCommonFrom at h
    split at h
    · -- an argument that is the phi itself
      cases (ih h).1
    · next hvd =>
      rcases common with _ | c'
      · obtain ⟨hself, hcommon, hall⟩ := ih h
        have hva : v = a := by
          rcases hcommon with he | ⟨he, -⟩
          · exact some.inj he
          · cases he
        subst hva
        exact ⟨hself, .inr ⟨rfl, hvd⟩, forall_mem_cons.mpr ⟨rfl, hall⟩⟩
      · dsimp only at h
        split at h
        next hvc =>
          obtain ⟨hself, hcommon, hall⟩ := ih h
          rcases hcommon with he | ⟨he, -⟩
          · refine ⟨hself, .inl he, forall_mem_cons.mpr ⟨?_, hall⟩⟩
            exact hvc.trans (some.inj he)
          · cases he
        next => cases h

theorem phiCommon_some (h : phiCommon q = some a) :
    a ≠ q.dst ∧ ∀ x ∈ q.args, x.1 = a := by
  obtain ⟨-, hcommon, hall⟩ := phiCommonFrom_some q.args h
  rcases hcommon with he | ⟨-, hne⟩
  · cases he
  · exact ⟨hne, hall⟩

/-- The `k`-th phi of block `b`, which is collapsed onto `a`. -/
structure CollapseAt (fn : MFn) (b : BlkId) (blk : MBlk) (k : Nat) (q : MPhi) (a : ValId) :
    Prop where
  block : fn.blk[b]? = some blk
  phi : blk.phi[k]? = some q
  common : phiCommon q = some a
  temp : fn.isTemp q.dst = true

/-- The phis of a block that are left. -/
def keptPhis (b : BlkId) (k : Nat) (x : BlkId) (phis : List MPhi) : List MPhi :=
  if b = x then phis.eraseIdx k else phis

/-- **A collapse** puts the argument in the place of the result everywhere. -/
theorem collapsePhi_blk {k : Nat} (h : CollapseAt fn b blk k q a) :
    (collapsePhi fn b k q a).val = fn.val ∧ (collapsePhi fn b k q a).start = fn.start ∧
      (collapsePhi fn b k q a).rettype = fn.rettype ∧
      ∀ x : BlkId, (collapsePhi fn b k q a).blk[x]? = (fn.blk[x]?).map fun blk : MBlk =>
        { blk.rename q.dst a with phi := keptPhis b k x (blk.rename q.dst a).phi } := by
  obtain ⟨h1, h2, h3, h4⟩ := @mrefReplace_fold q.dst a (.val a) (buildUses fn q.dst) (.inl rfl)
    (fn, none)
  unfold collapsePhi mrefReplace
  rw [if_pos h.temp]
  refine ⟨h1, h2, h3, fun x => ?_⟩
  rw [modBlk_getElem?, h4 x]
  rcases hx : fn.blk[x]? with _ | blk'
  · simp
  · simp only [map_some, atUses_buildUses h.temp a hx, keptPhis]
    split
    · rfl
    · rfl

/-! ### The argument comes in front of the phi -/

/-- Block `b` is on the path, and no block behind its last place defines the temp `a`. -/
def Fresh (fn : MFn) (b : BlkId) (a : ValId) : List BlkId → Prop
  | [] => False
  | x :: p => x = b ∨ (¬ (fn.isTemp a = true ∧ a ∈ fn.defsIn x) ∧ Fresh fn b a p)

theorem not_fresh {l : List BlkId} (h : ¬ Fresh fn b a l) :
    b ∉ l ∨ ∃ l1 c l2, l = l1 ++ c :: l2 ∧ b ∉ l1 ∧ c ≠ b ∧ fn.isTemp a = true ∧
      a ∈ fn.defsIn c := by
  induction l with
  | nil => exact .inl not_mem_nil
  | cons x l ih =>
    obtain ⟨hx, hrest⟩ := not_or.mp h
    by_cases hdef : fn.isTemp a = true ∧ a ∈ fn.defsIn x
    · exact .inr ⟨[], x, l, rfl, not_mem_nil, hx, hdef⟩
    · have hcons : ∀ {l : List BlkId}, b ∉ l → b ∉ x :: l := fun hl hm =>
        (mem_cons.mp hm).elim (fun he => hx he.symm) hl
      rcases ih fun hl => hrest ⟨hdef, hl⟩ with hb | ⟨l1, c, l2, rfl, hb, hc⟩
      · exact .inl (hcons hb)
      · exact .inr ⟨x :: l1, c, l2, rfl, hcons hb, hc⟩

section Dominance

variable {fn : MFn} {b : BlkId} {blk : MBlk} {k : Nat} {q : MPhi} {a : ValId}

/-- Paths to the block of the phi come by the argument. -/
theorem CollapseAt.arg_on_path (h : CollapseAt fn b blk k q a) (hssa : fn.BlockSsa)
    (ha : fn.isTemp a = true) (hp : fn.Path p b) : ∃ c ∈ p, a ∈ fn.defsIn c := by
  have hq := mem_of_getElem? h.phi
  rcases hp with _ | ⟨hpath, hedge⟩
  · -- function entry has no phis
    have hnil := hssa.entry blk h.block
    rw [hnil] at hq
    cases hq
  · next p c =>
    obtain ⟨v, hv⟩ := isSome_iff_exists.mp (hssa.args c b blk hedge h.block q hq)
    have hmem := MPhi.argFor_mem hv
    obtain rfl : v = a := (phiCommon_some h.common).2 _ hmem
    exact hssa.domPhi (c :: p) b blk q v c (hpath.step hedge) h.block hq hmem ha p hpath

/-- The argument is not defined beside the phi. -/
theorem CollapseAt.arg_elsewhere (h : CollapseAt fn b blk k q a) (hssa : fn.BlockSsa)
    (ha : fn.isTemp a = true) (hp : fn.Path p b) : a ∉ fn.defsIn b := by
  intro hdef
  obtain ⟨p', hp', hfirst⟩ := hp.first _ (Nat.le_refl _)
  obtain ⟨c, hc, hdef'⟩ := h.arg_on_path hssa ha hp'
  obtain ⟨r, hr⟩ := hp'.reach (mem_cons_of_mem _ hc)
  exact hfirst (hssa.once r c b a hr hdef' hdef ▸ hc)

theorem CollapseAt.dst_mem (h : CollapseAt fn b blk k q a) : q.dst ∈ fn.defsIn b :=
  mem_defsIn.mpr ⟨blk, h.block, mem_defs.mpr (.inl ⟨q, mem_of_getElem? h.phi, rfl⟩)⟩

/-- **A reader behind the phi finds the argument as the phi found it.** -/
theorem CollapseAt.fresh_of_dominated (h : CollapseAt fn b blk k q a) (hssa : fn.BlockSsa)
    (hp : fn.Path p x) (hdom : ∀ p', fn.Path p' x → b ∈ x :: p') :
    Fresh fn b a (x :: p) := by
  by_contra hnot
  rcases not_fresh hnot with hb | ⟨l1, c, l2, hl, hb, hcb, ha, hdef⟩
  · exact hb (hdom p hp)
  · -- a path to `c` that does not come by `b`: the one to the first visit of `b`
    obtain ⟨pb, hpb⟩ := hp.reach (hdom p hp)
    obtain ⟨p', hp', hfirst⟩ := hpb.first _ (Nat.le_refl _)
    obtain ⟨c', hc', hdef'⟩ := h.arg_on_path hssa ha hp'
    obtain ⟨r, hr⟩ := hp'.reach (mem_cons_of_mem _ hc')
    obtain rfl := hssa.once r c' c a hr hdef' hdef
    obtain ⟨p3, hp3, -, hsub⟩ := hp'.cut hc'
    have hb3 : b ∉ p3 := fun hm => hfirst (hsub b hm)
    -- from there on to `x` as the run went
    have hround : ∃ p', fn.Path p' x ∧ x :: p' = l1 ++ c' :: p3 := by
      rcases l1 with _ | ⟨y, l1⟩
      · cases hl
        exact ⟨p3, hp3, rfl⟩
      · cases hl
        exact ⟨l1 ++ c' :: p3, hp3.splice hp, rfl⟩
    obtain ⟨p4, hp4, he⟩ := hround
    have hmem := hdom p4 hp4
    rw [he] at hmem
    rcases mem_append.mp hmem with hm | hm
    · exact hb hm
    · rcases mem_cons.mp hm with rfl | hm
      · exact hcb rfl
      · exact hb3 hm

theorem CollapseAt.use_on_path (h : CollapseAt fn b blk k q a) (hssa : fn.BlockSsa)
    (hp : fn.Path p x) (hx : fn.blk[x]? = some blk') (hu : blk'.Uses q.dst) : b ∈ x :: p := by
  obtain ⟨c, hc, hdef⟩ := hssa.dom p x blk' q.dst hp hx h.temp hu
  obtain ⟨r, hr⟩ := hp.reach hc
  exact hssa.once r c b q.dst hr hdef h.dst_mem ▸ hc

/-- The same of a read by another phi. -/
theorem CollapseAt.phi_on_path (h : CollapseAt fn b blk k q a) (hssa : fn.BlockSsa)
    {p' : List BlkId} {c : BlkId} (hp : fn.Path p x)
    (hx : fn.blk[x]? = some blk') (hq : q' ∈ blk'.phi) (ha : (q.dst, c) ∈ q'.args)
    (hp' : fn.Path p' c) : b ∈ c :: p' := by
  obtain ⟨e, he, hdef⟩ := hssa.domPhi p x blk' q' q.dst c hp hx hq ha h.temp p' hp'
  obtain ⟨r, hr⟩ := hp'.reach he
  exact hssa.once r e b q.dst hr hdef h.dst_mem ▸ he

/-- A path that comes by the phi comes by its argument. -/
theorem CollapseAt.arg_of_on_path (h : CollapseAt fn b blk k q a) (hssa : fn.BlockSsa)
    (ha : fn.isTemp a = true) (hp : fn.Path p x) (hb : b ∈ x :: p) :
    ∃ c ∈ x :: p, a ∈ fn.defsIn c := by
  rcases mem_cons.mp hb with rfl | hb
  · obtain ⟨c, hc, hdef⟩ := h.arg_on_path hssa ha hp
    exact ⟨c, mem_cons_of_mem _ hc, hdef⟩
  · obtain ⟨p', hp', -, hsub⟩ := hp.cut hb
    obtain ⟨c, hc, hdef⟩ := h.arg_on_path hssa ha hp'
    exact ⟨c, mem_cons_of_mem _ (hsub c hc), hdef⟩

theorem CollapseAt.fresh_use (h : CollapseAt fn b blk k q a) (hssa : fn.BlockSsa) (hp : fn.Path p x)
    (hx : fn.blk[x]? = some blk') (hu : blk'.Uses q.dst) : Fresh fn b a (x :: p) :=
  h.fresh_of_dominated hssa hp fun _ hp' => h.use_on_path hssa hp' hx hu

theorem CollapseAt.fresh_phi (h : CollapseAt fn b blk k q a) (hssa : fn.BlockSsa)
    {p₀ : List BlkId} {c : BlkId} (hp : fn.Path p x)
    (hx : fn.blk[x]? = some blk') (hq : q' ∈ blk'.phi) (ha : (q.dst, c) ∈ q'.args)
    (hc : fn.Path p₀ c) : Fresh fn b a (c :: p₀) :=
  h.fresh_of_dominated hssa hc fun _ hp' => h.phi_on_path hssa hp hx hq ha hp'

end Dominance

/-! ### SSA form stays -/

section Preserve

variable {fn : MFn} {b : BlkId} {blk : MBlk} {k : Nat} {q : MPhi} {a : ValId}

theorem CollapseAt.block_after (h : CollapseAt fn b blk k q a)
    (hx : (collapsePhi fn b k q a).blk[x]? = some blk') : ∃ blk₀, fn.blk[x]? = some blk₀ ∧
      blk' = { blk₀.rename q.dst a with phi := keptPhis b k x (blk₀.rename q.dst a).phi } := by
  rw [(collapsePhi_blk h).2.2.2 x] at hx
  obtain ⟨blk₀, hx₀, he⟩ := map_eq_some_iff.mp hx
  exact ⟨blk₀, hx₀, he.symm⟩

theorem CollapseAt.flow (h : CollapseAt fn b blk k q a) : SameFlow fn (collapsePhi fn b k q a) := by
  obtain ⟨-, hstart, -, hblk⟩ := collapsePhi_blk h
  refine ⟨hstart, fun x => ?_⟩
  rw [hblk x, Option.map_map]
  rfl

theorem mem_keptPhis {b : BlkId} {k : Nat} {q : MPhi} (h : q ∈ keptPhis b k x phis) : q ∈ phis := by
  unfold keptPhis at h
  split at h
  · exact mem_of_mem_eraseIdx h
  · exact h

theorem CollapseAt.phi_after {a : ValId} {b : BlkId} {k : Nat}
    (h : q' ∈ keptPhis b k x (phis.map (·.replace d a))) : ∃ q₀ ∈ phis, q' = q₀.replace d a := by
  obtain ⟨q₀, hq₀, he⟩ := mem_map.mp (mem_keptPhis h)
  exact ⟨q₀, hq₀, he.symm⟩

/-- What a renamed instruction reads. -/
theorem reads_subst_one {a : ValId} {i : MIns} (h : (i.subst (.one d a)).Reads v) :
    (i.Reads v ∧ v ≠ d) ∨ (i.Reads d ∧ v = a) := by
  have hsrc : ∀ r, (Subst.one d a).ref r = .val v → (r = .val v ∧ v ≠ d) ∨ (r = .val d ∧ v = a) := by
    intro r hr
    rw [Subst.one_ref] at hr
    split at hr
    next hrd => exact .inr ⟨hrd, (MRef.val.inj hr).symm⟩
    next hrd => exact .inl ⟨hr, fun he => hrd (he ▸ hr)⟩
  rcases h with h | h
  · exact (hsrc i.src0 h).imp (And.imp_left .inl) (And.imp_left .inl)
  · exact (hsrc i.src1 h).imp (And.imp_left .inr) (And.imp_left .inr)

/-- What a renamed block reads. -/
theorem uses_rename {a : ValId} {blk : MBlk} (h : MBlk.Uses { blk.rename d a with phi := phis } v) :
    (blk.Uses v ∧ v ≠ d) ∨ (blk.Uses d ∧ v = a) := by
  rcases h with ⟨i', hi', hr⟩ | hr
  · obtain ⟨i, hi, rfl⟩ := mem_map.mp hi'
    exact (reads_subst_one hr).imp (And.imp_left fun h => .inl ⟨i, hi, h⟩)
      (And.imp_left fun h => .inl ⟨i, hi, h⟩)
  · dsimp only [MBlk.rename] at hr
    rw [Subst.one_ref] at hr
    split at hr
    next hrd => exact .inr ⟨.inr hrd, (MRef.val.inj hr).symm⟩
    next hrd => exact .inl ⟨.inr hr, fun he => hrd (he ▸ hr)⟩

/-- A collapse takes one definition away. -/
theorem CollapseAt.defs_after (h : CollapseAt fn b blk k q a) (x : BlkId) (v : ValId) :
    (v ∈ (collapsePhi fn b k q a).defsIn x → v ∈ fn.defsIn x) ∧
      (v ≠ q.dst → v ∈ fn.defsIn x → v ∈ (collapsePhi fn b k q a).defsIn x) := by
  constructor
  · intro hv
    obtain ⟨blk', hx, hv⟩ := mem_defsIn.mp hv
    obtain ⟨blk₀, hx₀, rfl⟩ := h.block_after hx
    refine mem_defsIn.mpr ⟨blk₀, hx₀, mem_defs.mpr ?_⟩
    rcases mem_defs.mp hv with ⟨q', hq, hd⟩ | ⟨i', hi, hd⟩
    · obtain ⟨q₀, hq₀, rfl⟩ := CollapseAt.phi_after hq
      exact .inl ⟨q₀, hq₀, hd⟩
    · obtain ⟨i, hi₀, rfl⟩ := mem_map.mp hi
      exact .inr ⟨i, hi₀, hd⟩
  · intro hne hv
    obtain ⟨blk₀, hx₀, hv⟩ := mem_defsIn.mp hv
    refine mem_defsIn.mpr ⟨_, by rw [(collapsePhi_blk h).2.2.2 x, hx₀]; rfl, mem_defs.mpr ?_⟩
    rcases mem_defs.mp hv with ⟨q₀, hq₀, hd⟩ | ⟨i, hi, hd⟩
    · refine .inl ⟨q₀.replace q.dst a, ?_, hd⟩
      have hmem : q₀.replace q.dst a ∈ blk₀.phi.map (·.replace q.dst a) := mem_map_of_mem hq₀
      unfold keptPhis
      split
      next hbx =>
        -- it is not the phi that goes
        subst hbx
        cases h.block.symm.trans hx₀
        obtain ⟨j, hj⟩ := getElem?_of_mem hq₀
        refine mem_eraseIdx_iff_getElem?.mpr ⟨j, ?_, ?_⟩
        · rintro rfl
          cases hj.symm.trans h.phi
          exact hne hd.symm
        · exact (getElem?_map ..).trans (congrArg _ hj)
      next => exact hmem
    · exact .inr ⟨i.subst (.one q.dst a), mem_map.mpr ⟨i, hi, rfl⟩, hd⟩

theorem argFor_replace (d a : ValId) (q : MPhi) (p : BlkId) :
    (q.replace d a).argFor p = (q.argFor p).map fun v => if v = d then a else v := by
  unfold MPhi.argFor MPhi.replace
  dsimp only
  rw [List.find?_map, Option.map_map, Option.map_map]
  have hpred : ((fun x : ValId × BlkId => decide (x.2 = p)) ∘ fun x : ValId × BlkId =>
      if x.1 = d then (a, x.2) else x) = fun x => decide (x.2 = p) := by
    funext x
    dsimp only [Function.comp]
    split <;> rfl
  rw [hpred]
  congr 1
  funext x
  dsimp only [Function.comp]
  split <;> rfl

/-- **SSA form stays** when a phi is collapsed. -/
theorem CollapseAt.blockSsa (h : CollapseAt fn b blk k q a) (hssa : fn.BlockSsa) :
    (collapsePhi fn b k q a).BlockSsa := by
  obtain ⟨hval, hstart, -, -⟩ := collapsePhi_blk h
  have hflow := h.flow
  have hne := (phiCommon_some h.common).1
  -- a definition on a path to a read is there after the collapse
  have hdom : ∀ {l : List BlkId} {v : ValId}, v ≠ q.dst → (∃ c ∈ l, v ∈ fn.defsIn c) →
      ∃ c ∈ l, v ∈ (collapsePhi fn b k q a).defsIn c := by
    rintro l v hv ⟨c, hc, hdef⟩
    exact ⟨c, hc, (h.defs_after c v).2 hv hdef⟩
  refine ⟨fun blk' hx => ?_, fun c x blk' he hx q' hq => ?_, fun x v hv => ?_,
    fun p x blk' hp hx => ?_, fun p x blk' hp hx q' hq i hi => ?_,
    fun p x x' v hp hv hv' => ?_, fun p x blk' v hp hx ht hu => ?_,
    fun p x blk' q' v c hp hx hq ha ht p' hp' => ?_⟩
  · obtain ⟨blk₀, hx₀, rfl⟩ := h.block_after hx
    have hnil := hssa.entry blk₀ (hstart ▸ hx₀)
    simp [keptPhis, MBlk.rename, hnil]
  · obtain ⟨blk₀, hx₀, rfl⟩ := h.block_after hx
    obtain ⟨q₀, hq₀, rfl⟩ := CollapseAt.phi_after hq
    rw [argFor_replace, isSome_map]
    exact hssa.args c x blk₀ (hflow.symm.edge he) hx₀ q₀ hq₀
  · rw [isTemp_congr hval]
    exact hssa.temps x v ((h.defs_after x v).1 hv)
  · obtain ⟨blk₀, hx₀, rfl⟩ := h.block_after hx
    have hnd := hssa.phiOnce p x blk₀ (hflow.symm.path hp) hx₀
    have hmap : (blk₀.phi.map (·.replace q.dst a)).map (·.dst) = blk₀.phi.map (·.dst) := by
      rw [List.map_map]
      rfl
    dsimp only [keptPhis, MBlk.rename]
    split
    · exact (List.Sublist.map _ (eraseIdx_sublist _ _)).nodup (hmap ▸ hnd)
    · exact hmap ▸ hnd
  · obtain ⟨blk₀, hx₀, rfl⟩ := h.block_after hx
    obtain ⟨q₀, hq₀, rfl⟩ := CollapseAt.phi_after hq
    obtain ⟨i₀, hi₀, rfl⟩ := mem_map.mp hi
    exact hssa.phiIns p x blk₀ (hflow.symm.path hp) hx₀ q₀ hq₀ i₀ hi₀
  · exact hssa.once p x x' v (hflow.symm.path hp) ((h.defs_after x v).1 hv)
      ((h.defs_after x' v).1 hv')
  · rw [isTemp_congr hval] at ht
    obtain ⟨blk₀, hx₀, rfl⟩ := h.block_after hx
    have hp₀ := hflow.symm.path hp
    rcases uses_rename hu with ⟨hu₀, hv⟩ | ⟨hu₀, rfl⟩
    · exact hdom hv (hssa.dom p x blk₀ v hp₀ hx₀ ht hu₀)
    · exact hdom hne (h.arg_of_on_path hssa ht hp₀ (h.use_on_path hssa hp₀ hx₀ hu₀))
  · rw [isTemp_congr hval] at ht
    obtain ⟨blk₀, hx₀, rfl⟩ := h.block_after hx
    have hp₀ := hflow.symm.path hp
    obtain ⟨q₀, hq₀, rfl⟩ := CollapseAt.phi_after hq
    obtain ⟨⟨u, c'⟩, hu, he⟩ := mem_map.mp ha
    dsimp only at he
    split at he
    next hud =>
      cases he
      subst hud
      exact hdom hne (h.arg_of_on_path hssa ht (hflow.symm.path hp')
        (h.phi_on_path hssa hp₀ hx₀ hq₀ hu (hflow.symm.path hp')))
    next hud =>
      obtain ⟨rfl, rfl⟩ := Prod.mk.inj he
      exact hdom hud (hssa.domPhi p x blk₀ q₀ u c' hp₀ hx₀ hq₀ hu ht p' (hflow.symm.path hp'))

end Preserve

/-! ### Writing the phis of a block -/

section Phis

variable {H : Host} {fn : MFn} {regs regs' : ValId → BitVec 64} {p : BlkId}

theorem phiVals_cons {l : List (ValId × BitVec 64)} :
    phiVals H fn regs p (q :: phis) = some l ↔ ∃ v l', q.argFor p = some v ∧
      phiVals H fn regs p phis = some l' ∧
      l = (q.dst, low q.dtype.bits (valBits H fn regs v)) :: l' := by
  unfold phiVals
  rw [mapM_cons]
  generalize mapM (fun q : MPhi => (q.argFor p).map fun v =>
    (q.dst, low q.dtype.bits (valBits H fn regs v))) phis = o
  rcases q.argFor p with _ | v
  · simp
  · rcases o with _ | l'
    · simp
    · simp [eq_comm]

theorem phiVals_keys (phis : List MPhi) : ∀ {l : List (ValId × BitVec 64)},
    phiVals H fn regs p phis = some l → l.map Prod.fst = phis.map (·.dst) := by
  induction phis with
  | nil =>
    intro l h
    cases h
    rfl
  | cons q phis ih =>
    intro l h
    obtain ⟨v, l', -, hl', rfl⟩ := phiVals_cons.mp h
    exact congrArg (q.dst :: ·) (ih hl')

/-- The value of one of the phis. -/
theorem phiVals_mem (phis : List MPhi) : ∀ {l : List (ValId × BitVec 64)},
    phiVals H fn regs p phis = some l → ∀ q ∈ phis, ∃ v, q.argFor p = some v ∧
      (q.dst, low q.dtype.bits (valBits H fn regs v)) ∈ l := by
  induction phis with
  | nil => exact fun _ q hq => absurd hq not_mem_nil
  | cons q phis ih =>
    intro l h q' hq'
    obtain ⟨v, l', hv, hl', rfl⟩ := phiVals_cons.mp h
    rcases mem_cons.mp hq' with rfl | hq'
    · exact ⟨v, hv, mem_cons_self⟩
    · obtain ⟨u, hu, hm⟩ := ih hl' q' hq'
      exact ⟨u, hu, mem_cons_of_mem _ hm⟩

/-- One phi less. -/
theorem phiVals_eraseIdx (phis : List MPhi) : ∀ {k : Nat} {l : List (ValId × BitVec 64)},
    phiVals H fn regs p phis = some l →
      phiVals H fn regs p (phis.eraseIdx k) = some (l.eraseIdx k) := by
  induction phis with
  | nil =>
    intro k l h
    cases h
    rfl
  | cons q phis ih =>
    intro k l h
    obtain ⟨v, l', hv, hl', rfl⟩ := phiVals_cons.mp h
    rcases k with _ | k
    · exact hl'
    · exact phiVals_cons.mpr ⟨v, l'.eraseIdx k, hv, ih hl', rfl⟩

/-- Phis with `a` in the place of `d`, where the one looks like the other. -/
theorem phiVals_replace (phis : List MPhi) : ∀ {l : List (ValId × BitVec 64)},
    (∀ q ∈ phis, ∀ v, q.argFor p = some v →
      low q.dtype.bits (valBits H fn regs' (if v = d then a else v)) =
        low q.dtype.bits (valBits H fn regs v)) →
    phiVals H fn regs p phis = some l →
    phiVals H fn regs' p (phis.map (·.replace d a)) = some l := by
  induction phis with
  | nil =>
    intro l _ h
    cases h
    rfl
  | cons q phis ih =>
    intro l hval h
    obtain ⟨v, l', hv, hl', rfl⟩ := phiVals_cons.mp h
    refine phiVals_cons.mpr ⟨if v = d then a else v, l', ?_,
      ih (fun q' hq' => hval q' (mem_cons_of_mem _ hq')) hl', ?_⟩
    · rw [argFor_replace, hv]
      rfl
    · rw [← hval q mem_cons_self v hv]
      rfl

theorem setRegs_cons (y : ValId × BitVec 64) (l : List (ValId × BitVec 64)) :
    setRegs fn regs (y :: l) = setRegs fn (setReg fn regs (some y.1) (some y.2)) l := rfl

theorem setRegs_of_not_mem (l : List (ValId × BitVec 64)) :
    ∀ {regs : ValId → BitVec 64} {v : ValId},
    v ∉ l.map Prod.fst → setRegs fn regs l v = regs v := by
  induction l with
  | nil => exact fun _ => rfl
  | cons y l ih =>
    intro regs v hv
    rw [map_cons, mem_cons, not_or] at hv
    rw [setRegs_cons, ih hv.2, setReg_of_ne fn regs fun he => hv.1 (some.inj he).symm]

theorem setRegs_of_mem (l : List (ValId × BitVec 64)) : ∀ {regs : ValId → BitVec 64} {d : ValId}
    {x : BitVec 64}, (l.map Prod.fst).Nodup → (d, x) ∈ l →
      setRegs fn regs l d = low (fn.vtype d).bits x := by
  induction l with
  | nil => exact fun _ h => absurd h not_mem_nil
  | cons y l ih =>
    intro regs d x hnd h
    rw [map_cons, nodup_cons] at hnd
    rw [setRegs_cons]
    rcases mem_cons.mp h with rfl | h
    · rw [setRegs_of_not_mem l hnd.1]
      exact Function.update_self ..
    · exact ih hnd.2 h

/-- Writing one result less. -/
theorem setRegs_eraseIdx (l : List (ValId × BitVec 64)) :
    ∀ {regs regs' : ValId → BitVec 64} {k : Nat}, AgreeOff (· = d) regs regs' →
      (∀ y, l[k]? = some y → y.1 = d) →
      AgreeOff (· = d) (setRegs fn regs l) (setRegs fn regs' (l.eraseIdx k)) := by
  induction l with
  | nil => exact fun h _ => h
  | cons y l ih =>
    intro regs regs' k h hk
    rcases k with _ | k
    · have hy : y.1 = d := hk y rfl
      rw [setRegs_cons]
      exact setRegs_agree fn l (h.setReg_left fn hy (some y.2))
    · rw [setRegs_cons, eraseIdx_cons_succ, setRegs_cons]
      exact ih (h.setReg fn (some y.1) (some y.2)) hk

end Phis

/-! ### The two runs -/

section Run

variable {H : Host} {fn : MFn} {b : BlkId} {blk : MBlk} {k : Nat} {q : MPhi} {a : ValId}

/-- The phi holds what its argument holds. -/
def PhiHeld (H : Host) (fn : MFn) (q : MPhi) (a : ValId) (st : State) : Prop :=
  st.regs q.dst = fn.kept q.dst q.dtype (valBits H fn st.regs a)

/-- The run of a function and the run without the phi, after the blocks `p`. -/
structure PhiRel (H : Host) (fn : MFn) (b : BlkId) (q : MPhi) (a : ValId) (p : List BlkId)
    (c c' : Cfg) : Prop where
  path : fn.Path p c.b
  prev : c.prev = p.head?
  agree : CfgAgree (· = q.dst) c c'
  held : Fresh fn b a p → PhiHeld H fn q a c.st

theorem valBits_of_regs {regs regs' : ValId → BitVec 64}
    (h : fn.isTemp v = true → regs' v = regs v) : valBits H fn regs' v = valBits H fn regs v := by
  unfold valBits
  split
  case h_3 hk => exact h (decide_eq_true hk)
  all_goals rfl

theorem valBits_temp {regs : ValId → BitVec 64} (h : fn.isTemp v = true) :
    valBits H fn regs v = regs v := congrArg Opnd.bits (opnd_temp H h)

/-- What a phi and its argument have to do with a block that runs while the argument is fresh. -/
theorem CollapseAt.quiet (h : CollapseAt fn b blk k q a) (hssa : fn.BlockSsa) (hp : fn.Path p x)
    (hfresh : Fresh fn b a (x :: p)) :
    (fn.isTemp a = true → a ∉ fn.defsIn x) ∧ (x ≠ b → q.dst ∉ fn.defsIn x ∧ Fresh fn b a p) := by
  constructor
  · intro ha hdef
    rcases hfresh with rfl | ⟨hno, -⟩
    · exact h.arg_elsewhere hssa ha hp hdef
    · exact hno ⟨ha, hdef⟩
  · intro hxb
    rcases hfresh with rfl | ⟨-, hfresh⟩
    · exact absurd rfl hxb
    · exact ⟨fun hdef => hxb (hssa.once p x b q.dst hp hdef h.dst_mem), hfresh⟩

/-- **Entering a block** with the phis renamed and one of them gone. -/
theorem CollapseAt.enter (h : CollapseAt fn b blk k q a) (hssa : fn.BlockSsa)
    (hseen : Seen H fn q.dst q.dtype (.val a)) {c' : Cfg}
    (hrel : PhiRel H fn b q a p c c') {blk₀ : MBlk} {st1 : State} (hx : fn.blk[c.b]? = some blk₀)
    (h1 : enterBlk H fn c.prev blk₀ c.st = some st1) :
    ∃ st1', enterBlk H fn c.prev
        { blk₀.rename q.dst a with phi := keptPhis b k c.b (blk₀.rename q.dst a).phi } c'.st =
          some st1' ∧
      StateAgree (· = q.dst) st1 st1' ∧ (Fresh fn b a (c.b :: p) → PhiHeld H fn q a st1) := by
  obtain ⟨hne, hargs⟩ := phiCommon_some h.common
  have hqmem := mem_of_getElem? h.phi
  rw [hrel.prev] at h1 ⊢
  rcases p with _ | ⟨pr, p⟩
  · -- function entry has no phis
    cases h1
    refine ⟨c'.st, rfl, hrel.agree.st, fun hfresh => ?_⟩
    rcases hfresh with hb | ⟨-, hno⟩
    · have hstart := hrel.path.of_nil
      have hnil := hssa.entry blk (by rw [← hstart, hb]; exact h.block)
      rw [hnil] at hqmem
      cases hqmem
    · exact hno.elim
  · obtain ⟨l, hl, rfl⟩ := map_eq_some_iff.mp h1
    obtain ⟨hpr, -⟩ := hrel.path.of_cons
    -- the phis read the same
    have hread : ∀ q' ∈ blk₀.phi, ∀ v, q'.argFor pr = some v →
        low q'.dtype.bits (valBits H fn c'.st.regs (if v = q.dst then a else v)) =
          low q'.dtype.bits (valBits H fn c.st.regs v) := by
      intro q' hq' v hv
      split
      next hvd =>
        subst hvd
        have hfresh := h.fresh_phi hssa hrel.path hx hq' (MPhi.argFor_mem hv) hpr
        rw [valBits_agree hrel.agree.st.regs H fn hne, valBits_temp h.temp,
          show c.st.regs q.dst = _ from hrel.held hfresh]
        exact hseen.phi _ ⟨c.st.regs, rfl⟩ blk₀ (mem_of_getElem? hx) q' hq' _
          (MPhi.argFor_mem hv) rfl
      next hvd => rw [valBits_agree hrel.agree.st.regs H fn hvd]
    have hl' := phiVals_replace blk₀.phi hread hl
    have hkeys := phiVals_keys blk₀.phi hl
    -- what is fresh behind the phis
    have hheld : Fresh fn b a (c.b :: pr :: p) →
        PhiHeld H fn q a ⟨setRegs fn c.st.regs l, c.st.w⟩ := by
      intro hfresh
      obtain ⟨hquiet, hother⟩ := h.quiet hssa hrel.path hfresh
      have hmem : ∀ v, v ∉ fn.defsIn c.b → setRegs fn c.st.regs l v = c.st.regs v := by
        intro v hv
        refine setRegs_of_not_mem l fun hm => hv ?_
        rw [hkeys, List.mem_map] at hm
        obtain ⟨q', hq', hd⟩ := hm
        exact mem_defsIn.mpr ⟨blk₀, hx, mem_defs.mpr (.inl ⟨q', hq', hd⟩)⟩
      have ha : valBits H fn (setRegs fn c.st.regs l) a = valBits H fn c.st.regs a :=
        valBits_of_regs fun ht => hmem a (hquiet ht)
      show setRegs fn c.st.regs l q.dst = _
      rw [ha]
      by_cases hcb : c.b = b
      · -- the phi itself
        rw [hcb] at hx
        cases h.block.symm.trans hx
        obtain ⟨v, hv, hm⟩ := phiVals_mem blk.phi hl q hqmem
        obtain rfl : v = a := hargs _ (MPhi.argFor_mem hv)
        refine setRegs_of_mem l ?_ hm
        rw [hkeys]
        exact hssa.phiOnce (pr :: p) b blk (hcb ▸ hrel.path) h.block
      · obtain ⟨hdst, hfresh⟩ := hother hcb
        rw [hmem q.dst hdst]
        exact hrel.held hfresh
    have hw : c'.st.w = c.st.w := hrel.agree.st.w
    by_cases hcb : b = c.b
    · subst hcb
      cases h.block.symm.trans hx
      have hl'' := @phiVals_eraseIdx H fn c'.st.regs pr _ k _ hl'
      have hkth : ∀ y, l[k]? = some y → y.1 = q.dst := by
        intro y hy
        have hk : (l.map Prod.fst)[k]? = (blk.phi.map (·.dst))[k]? := by rw [hkeys]
        rw [getElem?_map, getElem?_map, hy, h.phi] at hk
        exact some.inj hk
      refine ⟨⟨setRegs fn c'.st.regs (l.eraseIdx k), c'.st.w⟩, ?_,
        ⟨setRegs_eraseIdx l hrel.agree.st.regs hkth, hw⟩, hheld⟩
      refine map_eq_some_iff.mpr ⟨l.eraseIdx k, ?_, rfl⟩
      dsimp only [keptPhis]
      rw [if_pos rfl]
      exact hl''
    · refine ⟨⟨setRegs fn c'.st.regs l, c'.st.w⟩, ?_,
        ⟨setRegs_agree fn l hrel.agree.st.regs, hw⟩, hheld⟩
      refine map_eq_some_iff.mpr ⟨l, ?_, rfl⟩
      dsimp only [keptPhis]
      rw [if_neg hcb]
      exact hl'

/-- Instructions under a substitution that kills nothing more. -/
theorem CopyInv.keep_all {D : ValId → Prop} {σ : Subst} {blk : MBlk} (hblk : blk ∈ fn.blk)
    (is : List MIns) : ∀ {st st' st1 : State}, (∀ i ∈ is, i ∈ blk.ins) →
      (∀ v, σ v = none → ¬ D v) → CopyInv H fn D is σ st st' →
      runIns H .plain fn is st = some st1 →
      ∃ st1', runIns H .plain fn (is.map (·.subst σ)) st' = some st1' ∧
        CopyInv H fn D [] σ st1 st1' := by
  induction is with
  | nil =>
    intro st st' st1 _ _ hinv hs
    cases hs
    exact ⟨st', rfl, hinv⟩
  | cons i is ih =>
    intro st st' st1 hmem hD hinv hs
    obtain ⟨st2, h2, hs⟩ := runIns_cons.mp hs
    obtain ⟨st2', h2', hnext⟩ := hinv.keep hblk (hmem i mem_cons_self)
      (fun _ _ v _ hσ => hD v hσ) h2
    obtain ⟨st1', h1', hend⟩ := ih (fun j hj => hmem j (mem_cons_of_mem _ hj)) hD hnext hs
    exact ⟨st1', runIns_cons.mpr ⟨st2', h2', h1'⟩, hend⟩

/-- Instructions change their results only. -/
theorem runIns_regs (is : List MIns) : ∀ {st st1 : State},
    runIns H .plain fn is st = some st1 → (∀ i ∈ is, i.dst ≠ some v) → st1.regs v = st.regs v := by
  induction is with
  | nil =>
    intro st st1 hs _
    cases hs
    rfl
  | cons i is ih =>
    intro st st1 hs hv
    obtain ⟨st2, h2, hs⟩ := runIns_cons.mp hs
    rw [ih hs fun j hj => hv j (mem_cons_of_mem _ hj)]
    exact stepIns_regs h2 (hv i mem_cons_self)

/-- A block that does not read `d` is not changed by putting `a` in its place. -/
theorem rename_of_unread {d a : ValId} {blk : MBlk} (h : ¬ blk.Uses d) :
    blk.ins.map (·.subst (.one d a)) = blk.ins ∧
      (Subst.one d a).ref blk.term.src0 = blk.term.src0 := by
  constructor
  · refine (map_congr_left fun i hi => ?_).trans (map_id _)
    have h0 : i.src0 ≠ .val d := fun he => h (.inl ⟨i, hi, .inl he⟩)
    have h1 : i.src1 ≠ .val d := fun he => h (.inl ⟨i, hi, .inr he⟩)
    simp only [MIns.subst, Subst.one_ref, if_neg h0, if_neg h1, id_eq]
  · rw [Subst.one_ref, if_neg fun he => h (.inr he)]

theorem runTerm_inl {blk : MBlk} {st : State}
    (h : runTerm H fn x blk st = some (.inl c)) : c.prev = some x ∧ c.st = st := by
  unfold runTerm at h
  split at h
  · obtain ⟨_, _, he⟩ := map_eq_some_iff.mp h
    cases he
    exact ⟨rfl, rfl⟩
  · obtain ⟨_, _, he⟩ := map_eq_some_iff.mp h
    cases he
    exact ⟨rfl, rfl⟩
  · cases h
  · cases h

/-- **One block** before and after a collapse. -/
theorem CollapseAt.run_block (h : CollapseAt fn b blk k q a) (hssa : fn.BlockSsa)
    (hseen : Seen H fn q.dst q.dtype (.val a)) {c' : Cfg}
    (hrel : PhiRel H fn b q a p c c') {s : Cfg ⊕ Done} (hs : runBlk H .plain fn c = some s) :
    ∃ s', runBlk H .plain (collapsePhi fn b k q a) c' = some s' ∧
      LiftRel (PhiRel H fn b q a (c.b :: p)) Eq s s' := by
  have hrun := hs
  obtain ⟨blk₀, st1, st2, hx, h1, h2, hs⟩ := runBlk_eq_some.mp hs
  obtain ⟨st1', h1', hag, hheld⟩ := h.enter hssa hseen hrel hx h1
  obtain ⟨hne, -⟩ := phiCommon_some h.common
  have hblk := mem_of_getElem? hx
  -- the instructions and what the terminator sees
  have hins : ∃ st2', runIns H .plain fn (blk₀.ins.map (·.subst (.one q.dst a))) st1' = some st2' ∧
      StateAgree (· = q.dst) st2 st2' ∧
      termView fn blk₀.term (opnd H fn st2'.regs ((Subst.one q.dst a).ref blk₀.term.src0)) =
        termView fn blk₀.term (opnd H fn st2.regs blk₀.term.src0) ∧
      (Fresh fn b a (c.b :: p) → PhiHeld H fn q a st2) := by
    by_cases hfresh : Fresh fn b a (c.b :: p)
    · obtain ⟨hquiet, hother⟩ := h.quiet hssa hrel.path hfresh
      have honce : ∀ i ∈ blk₀.ins, i.dst ≠ some q.dst := by
        intro i hi
        by_cases hcb : c.b = b
        · have hb := h.block
          rw [← hcb, hx] at hb
          obtain rfl := some.inj hb
          exact hssa.phiIns p c.b blk₀ hrel.path hx q (mem_of_getElem? h.phi) i hi
        · exact fun hd => (hother hcb).1 (mem_defsIn.mpr ⟨blk₀, hx, mem_defs.mpr (.inr ⟨i, hi, hd⟩)⟩)
      have hsettled : Settled fn blk₀.ins (.val a) := by
        intro v hv ht i hi hd
        cases hv
        exact hquiet ht (mem_defsIn.mpr ⟨blk₀, hx, mem_defs.mpr (.inr ⟨i, hi, hd⟩)⟩)
      have hone : ∀ v r, Subst.one q.dst a v = some r → v = q.dst ∧ r = .val a := by
        intro v r hv
        by_cases hvd : v = q.dst
        · simp only [Subst.one, hvd, Function.update_self, some.injEq] at hv
          exact ⟨hvd, hv.symm⟩
        · simp only [Subst.one, Function.update_of_ne hvd, reduceCtorEq] at hv
      have hinv : CopyInv H fn (· = q.dst) blk₀.ins (.one q.dst a) st1 st1' := by
        refine ⟨hag, fun v r hv => ?_⟩
        obtain ⟨rfl, rfl⟩ := hone v r hv
        refine ⟨h.temp, ⟨q.dtype, hseen, hheld hfresh⟩, hsettled, honce, fun v hv => ?_⟩
        cases hv
        exact hne
      have hnot : ∀ v, Subst.one q.dst a v = none → ¬ v = q.dst := by
        rintro v hv rfl
        simp [Subst.one] at hv
      obtain ⟨st2', h2', hend⟩ := hinv.keep_all hblk blk₀.ins (fun _ hi => hi) hnot h2
      refine ⟨st2', h2', hend.agree, ?_, fun _ => ?_⟩
      · exact hend.read (fun v _ hσ => hnot v hσ) (termView fn blk₀.term)
          (termView_ofType fn blk₀.term) fun v t r hv hok x hr => hok.term x hr blk₀ hblk hv
      · -- neither the phi nor its argument has changed
        have ha : valBits H fn st2.regs a = valBits H fn st1.regs a :=
          valBits_of_regs fun ht => runIns_regs blk₀.ins h2 fun i hi => hsettled a rfl ht i hi
        show st2.regs q.dst = _
        rw [ha, runIns_regs blk₀.ins h2 honce]
        exact hheld hfresh
    · have hunread : ¬ blk₀.Uses q.dst := fun hu => hfresh (h.fresh_use hssa hrel.path hx hu)
      obtain ⟨hsubst, hterm⟩ := @rename_of_unread q.dst a blk₀ hunread
      rw [hsubst, hterm]
      obtain ⟨st2', h2', hag2⟩ := runIns_agree H .plain fn blk₀.ins hag (fun i hi =>
        ⟨fun v hr hv => hunread (.inl ⟨i, hi, .inl (hv ▸ hr)⟩),
          fun v hr hv => hunread (.inl ⟨i, hi, .inr (hv ▸ hr)⟩)⟩) h2
      refine ⟨st2', h2', hag2, ?_, fun hf => absurd hf hfresh⟩
      rw [opnd_agree hag2.regs H fn fun v hr hv => hunread (.inr (hv ▸ hr))]
  obtain ⟨st2', h2', hag2, hview, hheld2⟩ := hins
  obtain ⟨s', hs', hrel'⟩ := runTerm_of_view (b := c.b) blk₀
    { blk₀.rename q.dst a with phi := keptPhis b k c.b (blk₀.rename q.dst a).phi } rfl rfl rfl hag2
    hview hs
  obtain ⟨hval, -, hret, hblks⟩ := collapsePhi_blk h
  refine ⟨s', runBlk_eq_some.mpr
    ⟨{ blk₀.rename q.dst a with phi := keptPhis b k c.b (blk₀.rename q.dst a).phi }, st1', st2',
      ?_, ?_, ?_, ?_⟩, ?_⟩
  · rw [hrel.agree.b, hblks c.b, hx]
    rfl
  · rw [enterBlk_congr hval, hrel.agree.prev]
    exact h1'
  · rw [runIns_congr hval]
    exact h2'
  · rw [hrel.agree.b, runTerm_congr hval hret]
    exact hs'
  · rcases s with d | d <;> rcases s' with d' | d'
    · obtain ⟨hprev, hst⟩ := runTerm_inl hs
      refine ⟨hrel.path.step (edge_of_runBlk hrun), hprev, hrel', fun hf => ?_⟩
      rw [hst]
      exact hheld2 hf
    · exact hrel'.elim
    · exact hrel'.elim
    · exact hrel'

end Run

/-! ### The pass -/

section Pass

variable {H : Host} {fn : MFn}

/-- **One collapse** is matched. -/
theorem collapsePhi_matched {k : Nat} (h : CollapseAt fn b blk k q a) (hssa : fn.BlockSsa)
    (hseen : Seen H fn q.dst q.dtype (.val a)) : Matched H fn (collapsePhi fn b k q a) := by
  intro n st
  have hon : SimOn (fun _ => True) (runBlk H .plain fn) (runBlk H .plain (collapsePhi fn b k q a))
      (fun c c' => ∃ p, PhiRel H fn b q a p c c') Eq := by
    rintro c c' s - ⟨p, hrel⟩ hs
    obtain ⟨s', hs', hnext⟩ := h.run_block hssa hseen hrel hs
    exact ⟨s', hs', hnext.mono (fun _ _ h => ⟨c.b :: p, h⟩) fun _ _ h => h⟩
  refine hon.matches (fun _ _ h => ?_) (fun _ _ h => h) ⟨[], .start, rfl, ?_, fun h => h.elim⟩
    (along_of_forall (fun _ => trivial) _ _)
  · obtain ⟨p, hrel⟩ := h
    exact hrel.agree.sameWorld
  · exact ⟨(collapsePhi_blk h).2.1, rfl, StateAgree.refl _ _⟩

theorem mcopyPhisFrom_grows (b : BlkId) (n : Nat) : ∀ (k : Nat) (s : MFn × List Collapse),
    s.2 <+: (mcopyPhisFrom b n k s).2 := by
  induction n with
  | zero => exact fun _ s => prefix_rfl
  | succ n ih =>
    intro k s
    unfold mcopyPhisFrom
    split
    · exact prefix_rfl
    · split
      · refine List.IsPrefix.trans ?_ (ih k _)
        exact prefix_append _ _
      · exact ih (k + 1) s

theorem mcopyCollapse_grows (bs : List BlkId) (s : MFn × List Collapse) :
    s.2 <+: (bs.foldl mcopyPhis s).2 := by
  induction bs generalizing s with
  | nil => exact prefix_rfl
  | cons b bs ih => exact (mcopyPhisFrom_grows b _ 0 s).trans (ih (mcopyPhis s b))

/-- The loop over the phis of a block. -/
theorem mcopyPhisFrom_matched (b : BlkId) (n : Nat) : ∀ (k : Nat) (s : MFn × List Collapse),
    s.1.BlockSsa → (∀ c ∈ (mcopyPhisFrom b n k s).2, c.Seen H) →
      (mcopyPhisFrom b n k s).1.BlockSsa ∧ Matched H s.1 (mcopyPhisFrom b n k s).1 := by
  induction n with
  | zero => exact fun _ s hssa _ => ⟨hssa, Matched.refl H s.1⟩
  | succ n ih =>
    intro k s hssa hseen
    unfold mcopyPhisFrom at hseen ⊢
    split
    next => exact ⟨hssa, Matched.refl H s.1⟩
    next q hq =>
      simp only [hq] at hseen
      split
      next a ha =>
        simp only [ha] at hseen
        obtain ⟨blk, hb, hk⟩ := bind_eq_some_iff.mp hq
        have hdef : q.dst ∈ s.1.defsIn b :=
          mem_defsIn.mpr ⟨blk, hb, mem_defs.mpr (.inl ⟨q, mem_of_getElem? hk, rfl⟩)⟩
        have hat : CollapseAt s.1 b blk k q a := ⟨hb, hk, ha, hssa.temps b _ hdef⟩
        have hthis : Seen H s.1 q.dst q.dtype (.val a) :=
          hseen ⟨s.1, q, a⟩ ((mcopyPhisFrom_grows b n k _).subset
            (mem_append_right _ mem_cons_self))
        obtain ⟨hend, hrest⟩ := ih k (collapsePhi s.1 b k q a, s.2 ++ [⟨s.1, q, a⟩])
          (hat.blockSsa hssa) hseen
        exact ⟨hend, (collapsePhi_matched hat hssa hthis).trans hrest⟩
      next ha =>
        simp only [ha] at hseen
        exact ih (k + 1) s hssa hseen

/-- **The second half of `mcopy`.** -/
theorem mcopyCollapse_matched (hssa : fn.BlockSsa) (hseen : ∀ c ∈ (mcopyCollapse fn).2, c.Seen H) :
    Matched H fn (mcopyCollapse fn).1 := by
  suffices hloop : ∀ (bs : List BlkId) (s : MFn × List Collapse), s.1.BlockSsa →
      (∀ c ∈ (bs.foldl mcopyPhis s).2, c.Seen H) → Matched H s.1 (bs.foldl mcopyPhis s).1 from
    hloop fn.linkOrder (fn, []) hssa hseen
  intro bs
  induction bs with
  | nil => exact fun s _ _ => Matched.refl H s.1
  | cons b bs ih =>
    intro s hssa hseen
    obtain ⟨hnext, hthis⟩ := mcopyPhisFrom_matched b _ 0 s hssa fun c hc =>
      hseen c ((mcopyCollapse_grows bs (mcopyPhis s b)).subset hc)
    exact hthis.trans (ih (mcopyPhis s b) hnext hseen)

end Pass

/-- **`mcopy`.** On a function in SSA form the pass changes nothing of any run, where every reader
    of a forwarded copy or a collapsed phi sees the source as it saw the result. -/
theorem mcopy_meaning (H : Host) (fn : MFn) (n : Nat) (st : State) (hssa : fn.SsaForm)
    (hcopies : ∀ i ∈ (mcopyCopies fn).2, CopySeen H fn i)
    (hphis : ∀ c ∈ (mcopyCollapse (mcopyCopies fn).1).2, c.Seen H) :
    Matches (runBlk H .plain fn) (runBlk H .plain (mcopy fn).1) SameWorld Eq n (fn.entry st)
      ((mcopy fn).1.entry st) := by
  obtain ⟨hblock, hfirst⟩ := mcopyCopies_matched hssa hcopies
  exact hfirst.trans (mcopyCollapse_matched hblock hphis) n st

/-! ### One phi at two types -/

/-- `T c; if (a) c = y; else c = y; return c;` with `int` parameters and an unsigned type `T`,
    returning `unsigned long`. -/
def joinFn (t : MType) : MFn where
  blk := [{ ins := [⟨.par, .i32, some 0, .none, .none, none, 0⟩,
                    ⟨.par, .i32, some 1, .none, .none, none, 0⟩]
            term := ⟨.jnz, .val 1⟩, s1 := some 1, s2 := some 2 },
          { term := ⟨.jmp, .none⟩, s1 := some 3 },
          { term := ⟨.jmp, .none⟩, s1 := some 3 },
          { phi := [⟨2, t, [(0, 1), (0, 2)]⟩]
            ins := [⟨.zext, .i64, some 3, .val 2, .none, none, 0⟩,
                    ⟨.copy, .i64, some 4, .val 3, .none, none, 0⟩]
            term := ⟨.ret, .val 4⟩ }]
  val := [⟨.temp, .i32, false, none, "", some 0, true⟩,
          ⟨.temp, .i32, false, none, "", some 0, true⟩,
          ⟨.temp, t, false, none, "", some 3, true⟩,
          ⟨.temp, .i64, false, none, "", some 3, true⟩,
          ⟨.temp, .i64, false, none, "", some 3, true⟩]
  rettype := .i64

/-- The place of each definition. -/
def joinSite : ValId → DefSite
  | 0 => .ins 0 0
  | 1 => .ins 0 1
  | 2 => .phi 3 0
  | 3 => .ins 3 0
  | _ => .ins 3 1

theorem joinFn_defAt {t : MType} {d : DefSite} (h : (joinFn t).DefAt v d) :
    v < 5 ∧ d = joinSite v := by
  rcases d with ⟨b, k⟩ | ⟨b, i⟩
  · obtain ⟨blk, q, hb, hk, rfl⟩ := h
    rcases b with _ | _ | _ | _ | b <;> cases hb
    all_goals rcases k with _ | k <;> cases hk
    exact ⟨show (2 : Nat) < 5 by decide, rfl⟩
  · obtain ⟨blk, i', hb, hi, hd⟩ := h
    rcases b with _ | _ | _ | _ | b <;> cases hb
    all_goals rcases i with _ | _ | i <;> cases hi
    all_goals
      cases hd
      exact ⟨by decide, rfl⟩

theorem joinFn_def (t : MType) {v : ValId} (h : v < 5) : (joinFn t).DefAt v (joinSite v) := by
  rcases v with _ | _ | _ | _ | _ | v
  · exact ⟨_, _, rfl, rfl, rfl⟩
  · exact ⟨_, _, rfl, rfl, rfl⟩
  · exact ⟨_, _, rfl, rfl, rfl⟩
  · exact ⟨_, _, rfl, rfl, rfl⟩
  · exact ⟨_, _, rfl, rfl, rfl⟩
  · exact absurd h (Nat.not_lt.mpr (Nat.le_add_left 5 v))

theorem joinFn_path {t : MType} (h : (joinFn t).Path p b) :
    (b = 0 ∧ p = []) ∨ ((b = 1 ∨ b = 2) ∧ p = [0]) ∨ (b = 3 ∧ (p = [1, 0] ∨ p = [2, 0])) := by
  induction h with
  | start => exact .inl ⟨rfl, rfl⟩
  | @step p a b _ hedge ih =>
    obtain ⟨blk, ha, hb⟩ := hedge
    rcases ih with ⟨rfl, rfl⟩ | ⟨rfl | rfl, rfl⟩ | ⟨rfl, rfl | rfl⟩ <;> cases ha
    all_goals simp only [MBlk.succs, toList, cons_append, nil_append,
      mem_cons, not_mem_nil, or_false] at hb
    · exact .inr (.inl ⟨hb, rfl⟩)
    · exact .inr (.inr ⟨hb, .inl rfl⟩)
    · exact .inr (.inr ⟨hb, .inr rfl⟩)

/-- The uses of each temp. -/
def joinUses : ValId → List MUse
  | 0 => [.phi 3 0 0, .phi 3 0 1]
  | 1 => [.term 0]
  | 2 => [.ins 3 0 0]
  | 3 => [.ins 3 1 0]
  | 4 => [.term 3]
  | _ => []

theorem joinFn_uses (t : MType) (v : ValId) : buildUses (joinFn t) v = joinUses v := by
  rcases v with _ | _ | _ | _ | _ | v
  all_goals rfl

/-- The function is in SSA form, whatever the type of the phi. -/
theorem joinFn_ssaForm (t : MType) : (joinFn t).SsaForm := by
  have hdef := fun v h => @joinFn_def t v h
  refine ⟨⟨fun v _ d d' h h' => ?_, fun v u hu => ?_⟩, fun blk hb => ?_, fun a b blk he hb q hq => ?_,
    fun blk hblk v hv => ?_⟩
  · rw [(joinFn_defAt h).2, (joinFn_defAt h').2]
  · rw [joinFn_uses] at hu
    rcases v with _ | _ | _ | _ | _ | v
    · -- the arguments of the phi
      have hphi : ∀ j, (joinFn t).Dominated 0 (.phi 3 0 j) := by
        intro j blk q a hb hk hj p hp
        cases hb
        cases hk
        refine ⟨.ins 0 0, hdef 0 (by decide), ?_⟩
        rcases j with _ | _ | j <;> cases hj
        all_goals
          rcases joinFn_path hp with ⟨h, -⟩ | ⟨-, rfl⟩ | ⟨h, -⟩
          · cases h
          · decide
          · cases h
      rcases mem_pair.mp hu with rfl | rfl
      · exact hphi 0
      · exact hphi 1
    · obtain rfl := mem_singleton.mp hu
      exact fun p _ => ⟨.ins 0 1, hdef 1 (by decide), mem_cons_self⟩
    · obtain rfl := mem_singleton.mp hu
      exact fun p _ => .inr (.inl ⟨0, hdef 2 (by decide)⟩)
    · obtain rfl := mem_singleton.mp hu
      exact fun p _ => .inr (.inr ⟨0, by decide, hdef 3 (by decide)⟩)
    · obtain rfl := mem_singleton.mp hu
      exact fun p _ => ⟨.ins 3 1, hdef 4 (by decide), mem_cons_self⟩
    · cases hu
  · cases hb
    rfl
  · obtain ⟨blk', ha, hmem⟩ := he
    rcases b with _ | _ | _ | _ | b <;> cases hb
    · cases hq
    · cases hq
    · cases hq
    · -- the phi has an argument for each of the two edges
      obtain rfl := mem_singleton.mp hq
      rcases a with _ | _ | _ | _ | a <;> cases ha
      · simp [MBlk.succs] at hmem
      · rfl
      · rfl
      · simp [MBlk.succs] at hmem
  · obtain ⟨b, hb⟩ := getElem?_of_mem hblk
    obtain ⟨d, hd, -⟩ := defAt_of_mem (mem_defsIn.mpr ⟨blk, hb, hv⟩)
    have hlt := (joinFn_defAt hd).1
    rcases v with _ | _ | _ | _ | _ | v
    · rfl
    · rfl
    · rfl
    · rfl
    · rfl
    · exact absurd hlt (Nat.not_lt.mpr (Nat.le_add_left 5 v))

/-- A parameter of 257 that is not 0. -/
def Host.p257 : Host := { Host.still with par := fun _ => 257 }

/-- With `unsigned char` the phi cuts the parameter to a byte, and what is put in its place is read
    whole: the function returns 257 instead of 1. -/
theorem mcopy_phi_wider : (joinFn .i8).SsaForm ∧
    ¬ Matches (runBlk .p257 .plain (joinFn .i8)) (runBlk .p257 .plain (mcopy (joinFn .i8)).1)
      SameWorld Eq 3 ((joinFn .i8).entry .zero) ((mcopy (joinFn .i8)).1.entry .zero) := by
  refine ⟨joinFn_ssaForm .i8, fun h => ?_⟩
  have hafter : retVal (run (runBlk .p257 .plain (mcopy (joinFn .i8)).1) 3
      ((mcopy (joinFn .i8)).1.entry .zero)) = some 257 := by decide
  have hbefore := retVal_of_matches h (fun _ _ h => by rw [h]) (v := 1) (by decide)
  rw [hbefore] at hafter
  cases hafter

/-- With `unsigned int` nothing is lost: the copy and the phi go, and every run is as before. -/
theorem mcopy_meaning_join : (mcopy (joinFn .i32)).2 = 2 ∧
    Matches (runBlk .p257 .plain (joinFn .i32)) (runBlk .p257 .plain (mcopy (joinFn .i32)).1)
      SameWorld Eq 3 ((joinFn .i32).entry .zero) ((mcopy (joinFn .i32)).1.entry .zero) := by
  refine ⟨by decide, mcopy_meaning .p257 (joinFn .i32) 3 .zero (joinFn_ssaForm .i32) ?_ ?_⟩
  · have hk : (mcopyCopies (joinFn .i32)).2 =
        [⟨.copy, .i64, some 4, .val 3, .none, none, 0⟩] := by decide
    intro i hi d hd
    rw [hk] at hi
    obtain rfl := mem_singleton.mp hi
    cases hd
    exact seen_of_full rfl rfl rfl
  · have hk : (mcopyCollapse (mcopyCopies (joinFn .i32)).1).2 =
        [⟨(mcopyCopies (joinFn .i32)).1, ⟨2, .i32, [(0, 1), (0, 2)]⟩, 0⟩] := by decide
    intro c hc
    rw [hk] at hc
    obtain rfl := mem_singleton.mp hc
    have hval : (mcopyCopies (joinFn .i32)).1.val = (joinFn .i32).val := by decide
    have hkept : ∀ x, (mcopyCopies (joinFn .i32)).1.kept 2 .i32 x = low 32 (low 32 x) := by
      intro x
      rw [MFn.kept, vtype_congr hval]
      rfl
    -- one instruction reads the phi, at the type it has
    have hsrc0 : ∀ blk ∈ (mcopyCopies (joinFn .i32)).1.blk, ∀ i ∈ blk.ins, i.src0 = .val 2 →
        i.op = .zext := by decide
    have hsrc1 : ∀ blk ∈ (mcopyCopies (joinFn .i32)).1.blk, ∀ i ∈ blk.ins, i.src1 ≠ .val 2 := by
      decide
    have hterm : ∀ blk ∈ (mcopyCopies (joinFn .i32)).1.blk, blk.term.src0 ≠ .val 2 := by
      decide
    have hphi : ∀ blk ∈ (mcopyCopies (joinFn .i32)).1.blk, ∀ q ∈ blk.phi, ∀ a ∈ q.args,
        a.1 ≠ 2 := by decide
    refine ⟨fun x _ blk hb i hi h => ?_, fun x _ blk hb i hi h => absurd h (hsrc1 blk hb i hi),
      fun x _ blk hb h => absurd h (hterm blk hb),
      fun x _ blk hb q hq a ha h => absurd h (hphi blk hb q hq a ha)⟩
    have hview : ∀ y : Opnd, i.view0 y = .bare y.unsigned := by
      intro y
      unfold MIns.view0 MIns.convView
      rw [hsrc0 blk hb i hi h]
      rfl
    dsimp only at *
    rw [hview, hview, hkept]
    show Opnd.bare (low ((mcopyCopies (joinFn .i32)).1.vtype 0).bits x) =
      Opnd.bare (low ((mcopyCopies (joinFn .i32)).1.vtype 2).bits (low 32 (low 32 x)))
    rw [vtype_congr hval, vtype_congr hval]
    show Opnd.bare (low 32 x) = Opnd.bare (low 32 (low 32 (low 32 x)))
    rw [low_low (Nat.le_refl 32), low_low (Nat.le_refl 32)]

end MeuOS.Mir
