import MeuOS.Mir.Copy
import MeuOS.Mir.Ssa

namespace MeuOS.Mir

open MeuOS.Lib List

/-!
# SSA form, block by block

A pass that moves or removes instructions inside a block keeps the block-wise half of SSA form:
on the blocks that can be reached a temp has one defining block, which lies on every path to a
use.  `SsaForm` is SSA form with the side conditions on phis, `BlockSsa` its block-wise half.

* `Path.splice`, `SameFlow.path` — paths may change their beginning, and depend on the edges only;
* `SsaForm.ordered` — inside a block definitions come in front of the reads;
* `SsaForm.blockSsa` — SSA form gives the block-wise half.
-/

/-! ### Paths -/

variable {fn f g : MFn} {b a : BlkId} {p : List BlkId} {blk : MBlk} {v : ValId}

theorem MFn.Path.of_nil (h : fn.Path [] b) : b = fn.start := by
  rcases h with _ | _
  rfl

theorem MFn.Path.of_cons (h : fn.Path (a :: p) b) :
    fn.Path p a ∧ fn.Edge a b := by
  rcases h with _ | ⟨hp, hedge⟩
  exact ⟨hp, hedge⟩

theorem MFn.Path.reach (h : fn.Path p b) (ha : a ∈ b :: p) : ∃ p', fn.Path p' a := by
  rcases mem_cons.mp ha with rfl | ha
  · exact ⟨p, h⟩
  · obtain ⟨p', hp', -⟩ := h.cut ha
    exact ⟨p', hp'⟩

/-- A path may come to one of its blocks another way. -/
theorem MFn.Path.splice {p2 p3 : List BlkId} (h3 : fn.Path p3 a) :
    ∀ {p1 : List BlkId} {c : BlkId}, fn.Path (p1 ++ a :: p2) c → fn.Path (p1 ++ a :: p3) c := by
  intro p1
  induction p1 with
  | nil =>
    intro c h
    exact h3.step h.of_cons.2
  | cons x p1 ih =>
    intro c h
    exact (ih h.of_cons.1).step h.of_cons.2

/-- Two functions with the same edges. -/
structure SameFlow (f g : MFn) : Prop where
  start : g.start = f.start
  succs : ∀ x : BlkId, (g.blk[x]?).map MBlk.succs = (f.blk[x]?).map MBlk.succs

theorem SameFlow.symm (h : SameFlow f g) : SameFlow g f :=
  ⟨h.start.symm, fun x => (h.succs x).symm⟩

theorem SameFlow.edge (h : SameFlow f g) (he : f.Edge a b) :
    g.Edge a b := by
  obtain ⟨blk, ha, hb⟩ := he
  have hs := h.succs a
  rw [ha, Option.map_some] at hs
  obtain ⟨blk', ha', hs'⟩ := Option.map_eq_some_iff.mp hs
  exact ⟨blk', ha', hs' ▸ hb⟩

theorem SameFlow.path (h : SameFlow f g) (hp : f.Path p b) : g.Path p b := by
  induction hp with
  | start => exact h.start ▸ .start
  | step _ hedge ih => exact ih.step (h.edge hedge)

/-! ### The two forms -/

/-- The temps a block defines. -/
def MBlk.defs (blk : MBlk) : List ValId := blk.phi.map (·.dst) ++ blk.ins.filterMap (·.dst)

/-- The temps defined in block `b`. -/
def MFn.defsIn (fn : MFn) (b : BlkId) : List ValId := (fn.blk[b]?.map MBlk.defs).getD []

theorem defsIn_of_getElem? (h : fn.blk[b]? = some blk) :
    fn.defsIn b = blk.defs := by simp [MFn.defsIn, h]

theorem mem_defsIn :
    v ∈ fn.defsIn b ↔ ∃ blk, fn.blk[b]? = some blk ∧ v ∈ blk.defs := by
  unfold MFn.defsIn
  rcases fn.blk[b]? with _ | blk <;> simp

theorem mem_defs :
    v ∈ blk.defs ↔ (∃ q ∈ blk.phi, q.dst = v) ∨ ∃ i ∈ blk.ins, i.dst = some v := by
  simp [MBlk.defs]

/-- An instruction or the terminator of a block reads `v`. -/
def MBlk.Uses (blk : MBlk) (v : ValId) : Prop :=
  (∃ i ∈ blk.ins, i.Reads v) ∨ blk.term.src0 = .val v

/-- SSA form, with what it asks of phis: none at function entry, one argument for each edge; and
    results are temps. -/
structure MFn.SsaForm (fn : MFn) : Prop where
  ssa : fn.Ssa
  entry : ∀ blk, fn.blk[fn.start]? = some blk → blk.phi = []
  args : ∀ a b blk, fn.Edge a b → fn.blk[b]? = some blk → ∀ q ∈ blk.phi, (q.argFor a).isSome
  temps : ∀ blk ∈ fn.blk, ∀ v ∈ blk.defs, fn.isTemp v = true

/-- SSA form by blocks: what it says of the blocks that can be reached. -/
structure MFn.BlockSsa (fn : MFn) : Prop where
  entry : ∀ blk, fn.blk[fn.start]? = some blk → blk.phi = []
  args : ∀ a b blk, fn.Edge a b → fn.blk[b]? = some blk → ∀ q ∈ blk.phi, (q.argFor a).isSome
  temps : ∀ b, ∀ v ∈ fn.defsIn b, fn.isTemp v = true
  phiOnce : ∀ p b blk, fn.Path p b → fn.blk[b]? = some blk → (blk.phi.map (·.dst)).Nodup
  phiIns : ∀ p b blk, fn.Path p b → fn.blk[b]? = some blk → ∀ q ∈ blk.phi, ∀ i ∈ blk.ins,
    i.dst ≠ some q.dst
  once : ∀ p b b' v, fn.Path p b → v ∈ fn.defsIn b → v ∈ fn.defsIn b' → b = b'
  dom : ∀ p b blk v, fn.Path p b → fn.blk[b]? = some blk → fn.isTemp v = true → blk.Uses v →
    ∃ a ∈ b :: p, v ∈ fn.defsIn a
  domPhi : ∀ p b blk q v c, fn.Path p b → fn.blk[b]? = some blk → q ∈ blk.phi → (v, c) ∈ q.args →
    fn.isTemp v = true → ∀ p', fn.Path p' c → ∃ a ∈ c :: p', v ∈ fn.defsIn a

/-- A definition has a site. -/
theorem defAt_of_mem (h : v ∈ fn.defsIn b) :
    ∃ d, fn.DefAt v d ∧ d.blk = b := by
  obtain ⟨blk, hb, hv⟩ := mem_defsIn.mp h
  rcases mem_defs.mp hv with ⟨q, hq, hd⟩ | ⟨i, hi, hd⟩
  · obtain ⟨k, hk⟩ := getElem?_of_mem hq
    exact ⟨.phi b k, ⟨blk, q, hb, hk, hd⟩, rfl⟩
  · obtain ⟨j, hj⟩ := getElem?_of_mem hi
    exact ⟨.ins b j, ⟨blk, i, hb, hj, hd⟩, rfl⟩

/-- A site is a definition in its block. -/
theorem mem_of_defAt {d : DefSite} (h : fn.DefAt v d) :
    v ∈ fn.defsIn d.blk := by
  rcases d with ⟨b, k⟩ | ⟨b, i⟩
  · obtain ⟨blk, q, hb, hk, hd⟩ := h
    exact mem_defsIn.mpr ⟨blk, hb, mem_defs.mpr (.inl ⟨q, mem_of_getElem? hk, hd⟩)⟩
  · obtain ⟨blk, i, hb, hi, hd⟩ := h
    exact mem_defsIn.mpr ⟨blk, hb, mem_defs.mpr (.inr ⟨i, mem_of_getElem? hi, hd⟩)⟩

theorem mem_of_defIn (h : fn.DefIn v p) :
    ∃ a ∈ p, v ∈ fn.defsIn a := by
  obtain ⟨d, hd, hp⟩ := h
  exact ⟨d.blk, hp, mem_of_defAt hd⟩

section Form

variable {fn : MFn} (h : fn.SsaForm)
include h

theorem MFn.SsaForm.temp (hv : v ∈ fn.defsIn b) : fn.isTemp v = true := by
  obtain ⟨blk, hb, hv⟩ := mem_defsIn.mp hv
  exact h.temps blk (mem_of_getElem? hb) v hv

/-- Inside a block that can be reached, definitions come in front of the reads. -/
theorem MFn.SsaForm.ordered (hp : fn.Path p b)
    (hb : fn.blk[b]? = some blk) : Ordered fn blk.ins := by
  suffices hrest : ∀ rest pre, blk.ins = pre ++ rest → Ordered fn rest from hrest _ [] rfl
  intro rest
  induction rest with
  | nil => exact fun _ _ => trivial
  | cons i rest ih =>
    intro pre hins
    have hi : blk.ins[pre.length]? = some i := by
      rw [hins, getElem?_append_right (Nat.le_refl _), Nat.sub_self]
      rfl
    -- a later instruction has a later place
    have hat : ∀ x ∈ rest, ∃ k, pre.length < k ∧ blk.ins[k]? = some x := by
      intro x hx
      obtain ⟨j, hj⟩ := getElem?_of_mem hx
      refine ⟨pre.length + (j + 1), by omega, ?_⟩
      rw [hins, getElem?_append_right (Nat.le_add_right ..), Nat.add_sub_cancel_left]
      exact hj
    refine ⟨fun v hv hr x hx hd => ?_, fun d hd => ⟨?_, fun x hx hd' => ?_⟩, ?_⟩
    · rcases mem_cons.mp hx with rfl | hx
      · exact h.ssa.in_order hp hb hi hi (Nat.le_refl _) hv hr hd
      · obtain ⟨k, hk, hx⟩ := hat x hx
        exact h.ssa.in_order hp hb hi hx (Nat.le_of_lt hk) hv hr hd
    · exact h.temp (mem_of_defAt (d := .ins b pre.length) ⟨blk, i, hb, hi, hd⟩)
    · obtain ⟨k, hk, hx⟩ := hat x hx
      have ht := h.temp (mem_of_defAt (d := .ins b pre.length) ⟨blk, i, hb, hi, hd⟩)
      have he := h.ssa.once d ht (.ins b pre.length) (.ins b k) ⟨blk, i, hb, hi, hd⟩
        ⟨blk, x, hb, hx, hd'⟩
      have := (DefSite.ins.inj he).2
      omega
    · exact ih (pre ++ [i]) (by rw [hins, append_assoc]; rfl)

/-- SSA form gives its block-wise half. -/
theorem MFn.SsaForm.blockSsa : fn.BlockSsa := by
  refine ⟨h.entry, h.args, fun b v hv => h.temp hv, fun p b blk _ hb => ?_,
    fun p b blk _ hb q hq i hi hd => ?_, fun p b b' v _ hv hv' => ?_,
    fun p b blk v hp hb hv hu => ?_, fun p b blk q v c _ hb hq ha hv p' hp' => ?_⟩
  · -- two phis with one result would be two definitions
    rw [nodup_iff_getElem?_ne_getElem?]
    intro j k hjk hk he
    rw [length_map] at hk
    rw [getElem?_map, getElem?_map, getElem?_eq_getElem hk,
      getElem?_eq_getElem (Nat.lt_trans hjk hk), Option.map_some, Option.map_some,
      Option.some.injEq] at he
    have hdk : fn.DefAt (blk.phi[k]).dst (.phi b k) := ⟨blk, _, hb, getElem?_eq_getElem hk, rfl⟩
    have hdj : fn.DefAt (blk.phi[k]).dst (.phi b j) :=
      ⟨blk, _, hb, getElem?_eq_getElem (Nat.lt_trans hjk hk), he⟩
    have := (DefSite.phi.inj (h.ssa.once _ (h.temp (mem_of_defAt hdk)) _ _ hdj hdk)).2
    omega
  · obtain ⟨k, hk⟩ := getElem?_of_mem hq
    obtain ⟨j, hj⟩ := getElem?_of_mem hi
    have hdk : fn.DefAt q.dst (.phi b k) := ⟨blk, q, hb, hk, rfl⟩
    have he := h.ssa.once _ (h.temp (mem_of_defAt hdk)) _ (.ins b j) hdk ⟨blk, i, hb, hj, hd⟩
    cases he
  · obtain ⟨d, hd, rfl⟩ := defAt_of_mem hv
    obtain ⟨d', hd', rfl⟩ := defAt_of_mem hv'
    rw [h.ssa.once v (h.temp hv) d d' hd hd']
  · rcases hu with ⟨i, hi, hr⟩ | ht
    · obtain ⟨j, hj⟩ := getElem?_of_mem hi
      obtain ⟨a, hu⟩ : ∃ a, MUse.ins b j a ∈ buildUses fn v := by
        rcases hr with hr | hr
        · exact ⟨0, use_of_src0 hv hb hj hr⟩
        · exact ⟨1, use_of_src1 hv hb hj hr⟩
      rcases h.ssa.dom v _ hu p hp with hd | ⟨k, hd⟩ | ⟨j', -, hd⟩
      · obtain ⟨a, ha, hm⟩ := mem_of_defIn hd
        exact ⟨a, mem_cons_of_mem _ ha, hm⟩
      · exact ⟨b, mem_cons_self, mem_of_defAt hd⟩
      · exact ⟨b, mem_cons_self, mem_of_defAt hd⟩
    · exact mem_of_defIn (h.ssa.dom v _ (use_of_term hv hb ht) p hp)
  · obtain ⟨k, hk⟩ := getElem?_of_mem hq
    obtain ⟨j, hj⟩ := getElem?_of_mem ha
    exact mem_of_defIn (h.ssa.dom v _ (use_of_phi hv hb hk hj) blk q (v, c) hb hk hj p' hp')

end Form

end MeuOS.Mir
