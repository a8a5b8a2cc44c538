import MeuOS.Mir.Semantics

namespace MeuOS.Mir

open MeuOS.Lib List

/-!
# SSA form

MIR is in explicit SSA form: a temp has one definition, the definition lies on every path
from function entry to a use, and a phi has one argument for each edge into its block.
Dominance is stated on paths, without an algorithm: `Path p b` is a path from the start block to
`b` with `p` the blocks in front of `b`, last one first.
-/

/-! ### Paths -/

/-- An edge of the control-flow graph. -/
def MFn.Edge (fn : MFn) (a b : BlkId) : Prop := ∃ blk, fn.blk[a]? = some blk ∧ b ∈ blk.succs

/-- A path from the start block. -/
inductive MFn.Path (fn : MFn) : List BlkId → BlkId → Prop
  | start : fn.Path [] fn.start
  | step {p : List BlkId} {a b : BlkId} (path : fn.Path p a) (edge : fn.Edge a b) :
      fn.Path (a :: p) b

/-- A path can be cut at each of its blocks. -/
theorem MFn.Path.cut {fn : MFn} {p : List BlkId} {b q : BlkId} (h : fn.Path p b) (hq : q ∈ p) :
    ∃ p', fn.Path p' q ∧ p'.length < p.length ∧ ∀ x ∈ p', x ∈ p := by
  induction h with
  | start => cases hq
  | @step p a b hp _ ih =>
    rcases mem_cons.mp hq with rfl | hq
    · exact ⟨p, hp, Nat.lt_succ_self _, fun x hx => mem_cons_of_mem _ hx⟩
    · obtain ⟨p', hp', hlen, hsub⟩ := ih hq
      exact ⟨p', hp', Nat.lt_succ_of_lt hlen, fun x hx => mem_cons_of_mem _ (hsub x hx)⟩

/-- A block that is reached is reached for a first time. -/
theorem MFn.Path.first {fn : MFn} : ∀ (n : Nat) {p : List BlkId} {b : BlkId}, p.length ≤ n →
    fn.Path p b → ∃ p', fn.Path p' b ∧ b ∉ p' := by
  intro n
  induction n with
  | zero =>
    intro p b hn h
    have : p = [] := eq_nil_of_length_eq_zero (Nat.le_zero.mp hn)
    exact ⟨p, h, by rw [this]; exact not_mem_nil⟩
  | succ n ih =>
    intro p b hn h
    by_cases hb : b ∈ p
    · obtain ⟨p', hp', hlen, -⟩ := h.cut hb
      exact ih (by omega) hp'
    · exact ⟨p, h, hb⟩

/-- A run follows a path. -/
theorem edge_of_runBlk {H : Host} {M : Mode} {fn : MFn} {c c' : Cfg}
    (h : runBlk H M fn c = some (.inl c')) : fn.Edge c.b c'.b := by
  simp only [runBlk, Option.bind_eq_some_iff] at h
  obtain ⟨blk, hb, st1, -, st2, -, h⟩ := h
  refine ⟨blk, hb, ?_⟩
  unfold runTerm at h
  split at h
  · obtain ⟨s, hs, he⟩ := Option.map_eq_some_iff.mp h
    cases he
    simp [MBlk.succs, hs]
  · obtain ⟨s, hs, he⟩ := Option.map_eq_some_iff.mp h
    cases he
    dsimp only at hs ⊢
    split at hs <;> simp [MBlk.succs, hs]
  · cases h
  · cases h

/-! ### Definitions and uses -/

/-- Where a temp is defined: phi `k` or instruction `i` of block `b`. -/
inductive DefSite
  | phi (b : BlkId) (k : Nat)
  | ins (b : BlkId) (i : Nat)
  deriving DecidableEq

/-- The block of a definition. -/
def DefSite.blk : DefSite → BlkId
  | .phi b _ | .ins b _ => b

/-- `v` is defined at the site. -/
def MFn.DefAt (fn : MFn) (v : ValId) : DefSite → Prop
  | .phi b k => ∃ blk q, fn.blk[b]? = some blk ∧ blk.phi[k]? = some q ∧ q.dst = v
  | .ins b i => ∃ blk inst, fn.blk[b]? = some blk ∧ blk.ins[i]? = some inst ∧ inst.dst = some v

/-- Some definition of `v` lies in one of the blocks. -/
def MFn.DefIn (fn : MFn) (v : ValId) (p : List BlkId) : Prop := ∃ d, fn.DefAt v d ∧ d.blk ∈ p

/-- Every path to the use of `v` comes by a definition first. -/
def MFn.Dominated (fn : MFn) (v : ValId) : MUse → Prop
  | .ins b i _ => ∀ p, fn.Path p b →
      fn.DefIn v p ∨ (∃ k, fn.DefAt v (.phi b k)) ∨ ∃ j < i, fn.DefAt v (.ins b j)
  | .term b => ∀ p, fn.Path p b → fn.DefIn v (b :: p)
  | .phi b k j => ∀ blk q a, fn.blk[b]? = some blk → blk.phi[k]? = some q → q.args[j]? = some a →
      ∀ p, fn.Path p a.2 → fn.DefIn v (a.2 :: p)

/-- SSA form: one definition for each temp, in front of all its uses. -/
structure MFn.Ssa (fn : MFn) : Prop where
  once : ∀ v, fn.isTemp v = true → ∀ d d', fn.DefAt v d → fn.DefAt v d' → d = d'
  dom : ∀ v u, u ∈ buildUses fn v → fn.Dominated v u

/-- In a block that can be reached, an instruction reads no temp that it or a later instruction
    defines. -/
theorem MFn.Ssa.in_order {fn : MFn} (h : fn.Ssa) {p : List BlkId} {b : BlkId} (hp : fn.Path p b)
    {blk : MBlk} (hb : fn.blk[b]? = some blk) {j k : Nat} {i i' : MIns} (hj : blk.ins[j]? = some i)
    (hk : blk.ins[k]? = some i') (hjk : j ≤ k) {v : ValId} (hv : fn.isTemp v = true)
    (hr : i.src0 = .val v ∨ i.src1 = .val v) : i'.dst ≠ some v := by
  intro hd
  have hdef : fn.DefAt v (.ins b k) := ⟨blk, i', hb, hk, hd⟩
  obtain ⟨a, hu⟩ : ∃ a, MUse.ins b j a ∈ buildUses fn v := by
    rcases hr with hr | hr
    · exact ⟨0, use_of_src0 hv hb hj hr⟩
    · exact ⟨1, use_of_src1 hv hb hj hr⟩
  obtain ⟨p', hp', hfirst⟩ := hp.first _ (Nat.le_refl _)
  rcases h.dom v _ hu p' hp' with ⟨d, hd', hmem⟩ | ⟨k', hd'⟩ | ⟨j', hj', hd'⟩
  · obtain rfl := h.once v hv _ _ hd' hdef
    exact hfirst hmem
  · cases h.once v hv _ _ hd' hdef
  · cases h.once v hv _ _ hd' hdef
    omega

/-! ### Straight-line functions -/

/-- A reference reads only temps of `seen`. -/
def MRef.knownIn (fn : MFn) (seen : List ValId) : MRef → Bool
  | .val v => !fn.isTemp v || seen.contains v
  | _ => true

/-- Every temp is defined once and in front of its uses. -/
def straightOk (fn : MFn) : List ValId → List MIns → Bool
  | _, [] => true
  | seen, i :: is => i.src0.knownIn fn seen && i.src1.knownIn fn seen &&
      i.dst.all (!seen.contains ·) && straightOk fn (i.dst.toList ++ seen) is

theorem mem_of_knownIn {fn : MFn} {seen : List ValId} {v : ValId} (hv : fn.isTemp v = true)
    (h : (MRef.val v).knownIn fn seen = true) : v ∈ seen := by
  simpa [MRef.knownIn, hv] using h

theorem straightOk_dom {fn : MFn} {v : ValId} (hv : fn.isTemp v = true) (is : List MIns) :
    ∀ seen, straightOk fn seen is = true → ∀ (i : Nat) (inst : MIns), is[i]? = some inst →
      (inst.src0 = .val v ∨ inst.src1 = .val v) →
      v ∈ seen ∨ ∃ j < i, ∃ inst', is[j]? = some inst' ∧ inst'.dst = some v := by
  induction is with
  | nil => intro seen _ i inst hi; cases hi
  | cons a is ih =>
    intro seen h i inst hi hr
    simp only [straightOk, Bool.and_eq_true] at h
    cases i with
    | zero =>
      obtain rfl : a = inst := Option.some.inj hi
      refine .inl ?_
      rcases hr with hr | hr
      · exact mem_of_knownIn hv (hr ▸ h.1.1.1)
      · exact mem_of_knownIn hv (hr ▸ h.1.1.2)
    | succ i =>
      rcases ih _ h.2 i inst hi hr with hmem | ⟨j, hj, inst', hget, hd⟩
      · rcases mem_append.mp hmem with hd | hs
        · exact .inr ⟨0, Nat.succ_pos i, a, rfl, Option.mem_toList.mp hd⟩
        · exact .inl hs
      · exact .inr ⟨j + 1, Nat.succ_lt_succ hj, inst', hget, hd⟩

theorem straightOk_once {fn : MFn} {v : ValId} (is : List MIns) :
    ∀ seen, straightOk fn seen is = true → ∀ (i : Nat) (inst : MIns), is[i]? = some inst →
      inst.dst = some v →
      v ∉ seen ∧ ∀ j inst', is[j]? = some inst' → inst'.dst = some v → j = i := by
  induction is with
  | nil => intro seen _ i inst hi; cases hi
  | cons a is ih =>
    intro seen h i inst hi hd
    simp only [straightOk, Bool.and_eq_true] at h
    have hhead : a.dst = some v → v ∉ seen := by
      intro ha
      have := h.1.2
      simpa [ha] using this
    -- a definition further on is told apart from one by `a`
    have htail : ∀ (j : Nat) (inst : MIns), is[j]? = some inst → inst.dst = some v →
        a.dst ≠ some v ∧ v ∉ seen ∧
          ∀ (k : Nat) (inst' : MIns), is[k]? = some inst' → inst'.dst = some v → k = j := by
      intro j inst' hj hd'
      obtain ⟨hns, huniq⟩ := ih _ h.2 j inst' hj hd'
      refine ⟨fun ha => hns ?_, fun hs => hns (mem_append_right _ hs), huniq⟩
      exact mem_append_left _ (Option.mem_toList.mpr ha)
    cases i with
    | zero =>
      obtain rfl : a = inst := Option.some.inj hi
      refine ⟨hhead hd, fun j inst' hj hd' => ?_⟩
      cases j with
      | zero => rfl
      | succ j => exact absurd hd (htail j inst' hj hd').1
    | succ i =>
      obtain ⟨hne, hns, huniq⟩ := htail i inst hi hd
      refine ⟨hns, fun j inst' hj hd' => ?_⟩
      cases j with
      | zero => exact absurd (Option.some.inj hj ▸ hd') hne
      | succ j => exact congrArg (· + 1) (huniq j inst' hj hd')

/-- A function of one block that returns is in SSA form when its block is. -/
theorem ssa_of_straight {fn : MFn} {blk : MBlk} (hblk : fn.blk = [blk]) (hstart : fn.start = 0)
    (hphi : blk.phi = []) (hs1 : blk.s1 = Option.none) (hs2 : blk.s2 = Option.none)
    (hok : straightOk fn [] blk.ins = true)
    (hterm : blk.term.src0.knownIn fn (blk.ins.filterMap (·.dst)) = true) : fn.Ssa := by
  have hget : ∀ b blk', fn.blk[b]? = some blk' → b = 0 ∧ blk' = blk := by
    intro b blk' hb
    rw [hblk] at hb
    cases b with
    | zero => exact ⟨rfl, (Option.some.inj hb).symm⟩
    | succ b => cases hb
  have hpath : ∀ p b, fn.Path p b → p = [] ∧ b = 0 := by
    intro p b hp
    cases hp with
    | start => exact ⟨rfl, hstart⟩
    | step _ hedge =>
      obtain ⟨blk', hb', hmem⟩ := hedge
      rw [(hget _ _ hb').2] at hmem
      simp [MBlk.succs, hs1, hs2] at hmem
  have hdef : ∀ v d, fn.DefAt v d → ∃ i inst, d = .ins 0 i ∧ blk.ins[i]? = some inst ∧
      inst.dst = some v := by
    rintro v (⟨b, k⟩ | ⟨b, i⟩) hd
    · obtain ⟨blk', q, hb', hk, -⟩ := hd
      rw [(hget _ _ hb').2, hphi] at hk
      cases hk
    · obtain ⟨blk', inst, hb', hi, hd⟩ := hd
      obtain ⟨rfl, rfl⟩ := hget _ _ hb'
      exact ⟨i, inst, rfl, hi, hd⟩
  refine ⟨fun v _ d d' h h' => ?_, fun v u hu => ?_⟩
  · obtain ⟨i, inst, rfl, hi, hd⟩ := hdef v d h
    obtain ⟨j, inst', rfl, hj, hd'⟩ := hdef v d' h'
    rw [(straightOk_once _ _ hok j inst' hj hd').2 i inst hi hd]
  · obtain ⟨hv, b, blk', hb', hu⟩ := (mem_buildUses _ _ _).mp hu
    obtain ⟨rfl, rfl⟩ := hget _ _ hb'
    have hdom : ∀ i inst, blk'.ins[i]? = some inst → inst.src0 = .val v ∨ inst.src1 = .val v →
        ∃ j < i, fn.DefAt v (.ins 0 j) := by
      intro i inst hi hr
      rcases straightOk_dom hv _ _ hok i inst hi hr with hmem | ⟨j, hj, inst', hget', hd⟩
      · cases hmem
      · exact ⟨j, hj, blk', inst', hb', hget', hd⟩
    rcases (mem_buildUsesBlock _ _ _ _).mp hu with ⟨i, inst, hi, hr⟩ | ⟨rfl, ht⟩ | ⟨k, q, j, hk, _⟩
    · rcases hr with ⟨rfl, hr⟩ | ⟨rfl, hr⟩
      · exact fun p _ => .inr (.inr (hdom i inst hi (.inl hr)))
      · exact fun p _ => .inr (.inr (hdom i inst hi (.inr hr)))
    · intro p hp
      have hmem := mem_of_knownIn hv (ht ▸ hterm)
      obtain ⟨inst, hi, hd⟩ := mem_filterMap.mp hmem
      obtain ⟨i, hi⟩ := List.getElem?_of_mem hi
      exact ⟨.ins 0 i, ⟨blk', inst, hb', hi, hd⟩, mem_cons_self ..⟩
    · rw [hphi] at hk
      cases hk

end MeuOS.Mir
