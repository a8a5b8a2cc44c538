import MeuOS.Mir.Private
import MeuOS.Mir.Ssa
import Mathlib.Data.List.Range

namespace MeuOS.Mir

open MeuOS.Lib List Option Function Bool

/-!
# Store-to-load forwarding — `src/mir/mloadfwd.c`

Within a block, `mloadfwd` turns a load of a slot whose address does not escape into a copy of
the value last stored there; afterwards it drops the stores to slots that are never read.

Use records point at places of the instruction arrays (`MUse`), so the opcode a record shows
is the one that is there now: a load that has just become a copy counts as a use that is no
access any more, and once the second half has compacted a block, records of
that block show what has moved to their place (`MFn.Code`).
-/

/-! ### The pass -/

/-- The instruction arrays of a function, as use records see them. -/
abbrev Code := BlkId → List MIns

/-- The arrays of a function. -/
def MFn.code (fn : MFn) : Code := fun b => (fn.blk[b]?.map MBlk.ins).getD []

/-- Replace the instructions of one block. -/
def MFn.setIns (fn : MFn) (b : BlkId) (ins : List MIns) : MFn :=
  { fn with blk := fn.blk.modify b fun blk => { blk with ins := ins } }

/-- The opcode a use record shows, and the operand it records. -/
def useOp (code : Code) : MUse → Option (MOP × Nat)
  | .ins b i argn => (code b)[i]?.map fun inst => (inst.op, argn)
  | _ => none

/-- `base` of `mloadfwd_slot`: the use is the address of a load or store. -/
def baseUse (code : Code) (u : MUse) : Bool :=
  useOp code u = some (.load, 0) || useOp code u = some (.store, 1)

/-- `mloadfwd_slot`. -/
def mloadfwdSlot (fn : MFn) (code : Code) (alloca : ValId → Bool) (us : Uses) (v : ValId) : Bool :=
  fn.isTemp v && alloca v && (us v).all (baseUse code)

/-- The entries of the `MLoadMap`: the value last stored to an address.  No entry and
    an entry with a null `val` (a constant was stored) look the same to the pass. -/
abbrev LoadMap := ValId → Option ValId

/-- The body of the forwarding loop for one instruction. -/
def loadfwdIns (slot : ValId → Bool) (map : LoadMap) (i : MIns) : MIns × LoadMap :=
  match i.op with
  | .store =>
    match i.src1.val? with
    | some addr => (i, if slot addr then update map addr i.src0.val? else map)
    | none => (i, map)
  | .load =>
    match i.src0.val?.filter slot with
    | some addr =>
      match map addr with
      | some v => ({ i with op := .copy, src0 := .val v, src1 := .none }, map)
      | none => (i, map)
    | none => (i, map)
  | _ => (i, map)

/-- The forwarding loop from behind `done` on; `slot` is the slot test on the block's current
    array. -/
def loadfwdFrom (slot : List MIns → ValId → Bool) : List MIns → LoadMap → List MIns → List MIns
  | done, _, [] => done
  | done, map, i :: rest =>
    let r := loadfwdIns (slot (done ++ i :: rest)) map i
    loadfwdFrom slot (done ++ [r.1]) r.2 rest

/-- The slot test while block `b` is being rewritten to `ins`. -/
def loadfwdSlotIn (fn : MFn) (alloca : ValId → Bool) (b : BlkId) (ins : List MIns) (v : ValId) :
    Bool :=
  mloadfwdSlot fn (update fn.code b ins) alloca (buildUses fn) v

/-- The forwarded array of block `b`. -/
def loadfwdCode (fn : MFn) (alloca : ValId → Bool) (b : BlkId) : List MIns :=
  loadfwdFrom (loadfwdSlotIn fn alloca b) [] (fun _ => none) (fn.code b)

/-- Forwarding, block after block, with the chains rebuilt in front of each. -/
def loadfwdForward (fn : MFn) : MFn :=
  fn.linkOrder.foldl (fun f b => f.setIns b (loadfwdCode f (isAlloca fn) b)) fn

/-- The condition under which the second half drops an instruction. -/
def loadfwdDrop (fn : MFn) (code : Code) (alloca : ValId → Bool) (us : Uses) (i : MIns) : Bool :=
  i.op = .store &&
    match i.src1.val? with
    | some addr => mloadfwdSlot fn code alloca us addr &&
        (us addr).all fun u => useOp code u = some (.store, 1)
    | none => false

/-- The second half on one block: what stays moves to the front of the array. -/
def loadfwdDropBlock (alloca : ValId → Bool) (us : Uses) (s : MFn × Code) (b : BlkId) :
    MFn × Code :=
  let out := (s.1.code b).filter fun i => !loadfwdDrop s.1 s.2 alloca us i
  (s.1.setIns b out, update s.2 b (out ++ (s.2 b).drop out.length))

/-- Dropping stores, with the chains built once. -/
def loadfwdDropStores (alloca : ValId → Bool) (fn : MFn) : MFn :=
  (fn.linkOrder.foldl (loadfwdDropBlock alloca (buildUses fn)) (fn, fn.code)).1

/-- `mloadfwd`. -/
def mloadfwd (fn : MFn) : MFn := loadfwdDropStores (isAlloca fn) (loadfwdForward fn)

/-! ### What forwarding does to a block -/

/-- The last store to `addr` in a list of instructions. -/
def lastStore (addr : ValId) (is : List MIns) : Option MIns :=
  (is.filter fun i => i.op = .store && i.src1 = .val addr).getLast?

theorem lastStore_concat (addr : ValId) (is : List MIns) (i : MIns) :
    lastStore addr (is ++ [i]) =
      if i.op = .store ∧ i.src1 = .val addr then some i else lastStore addr is := by
  by_cases h : i.op = .store ∧ i.src1 = .val addr
  · rw [if_pos h]
    simp [lastStore, filter_append, h.1, h.2]
  · rw [if_neg h]
    have hi : (decide (i.op = .store) && decide (i.src1 = .val addr)) = false := by
      rw [and_eq_false_iff, decide_eq_false_iff_not, decide_eq_false_iff_not]
      exact not_and_or.mp h
    simp [lastStore, filter_append, hi]

variable {is pre : List MIns} {priv : ValId → Bool} {fn : MFn} {b : BlkId} {blk : MBlk} {H : Host}

theorem lastStore_spec {addr : ValId} {s : MIns} (h : lastStore addr is = some s) :
    s ∈ is ∧ s.op = .store ∧ s.src1 = .val addr := by
  have hmem := mem_filter.mp (mem_of_getLast? h)
  simpa using hmem

/-- Behind `pre`, `i` loads from an address that a store of the value `w`, `s`, wrote last. -/
structure LoadAfter (pre : List MIns) (i : MIns) (addr : ValId) (s : MIns) (w : ValId) : Prop where
  op : i.op = .load
  src : i.src0 = .val addr
  store : lastStore addr pre = some s
  val : s.src0 = .val w

/-- No load of `addr` in the list comes behind a store of a value to it. -/
def NoLoadAfter (addr : ValId) (is : List MIns) : Prop :=
  ∀ k j, is[k]? = some j → ∀ s w, ¬ LoadAfter (is.take k) j addr s w

theorem noLoadAfter_concat {addr : ValId} {i : MIns} (h : NoLoadAfter addr is)
    (hi : ∀ s w, ¬ LoadAfter is i addr s w) : NoLoadAfter addr (is ++ [i]) := by
  intro k j hk s w hla
  by_cases hlt : k < is.length
  · rw [getElem?_append_left hlt] at hk
    rw [take_append_of_le_length (Nat.le_of_lt hlt)] at hla
    exact h k j hk s w hla
  · have hlen : k < is.length + 1 := by
      simpa using (List.getElem?_eq_some_iff.mp hk).1
    obtain rfl : k = is.length := by omega
    rw [take_left'] at hla
    obtain rfl : i = j := by simpa using hk
    exact hi s w hla
    rfl

/-- The load `i` behind `pre` is forwarded: it is the first such load of a slot in the block. -/
structure Forwards (priv : ValId → Bool) (pre : List MIns) (i : MIns) (addr : ValId) (s : MIns)
    (w : ValId) : Prop extends LoadAfter pre i addr s w where
  slot : priv addr = true
  first : NoLoadAfter addr pre

/-- The copy a load becomes. -/
def loadfwdCopy (i : MIns) (w : ValId) : MIns := { i with op := .copy, src0 := .val w, src1 := .none }

/-- `is'` is `is` behind `pre` with some loads forwarded. -/
inductive FwdList (priv : ValId → Bool) : List MIns → List MIns → List MIns → Prop
  | nil {pre : List MIns} : FwdList priv pre [] []
  | keep {pre : List MIns} {i : MIns} {is is' : List MIns} (tail : FwdList priv (pre ++ [i]) is is') :
      FwdList priv pre (i :: is) (i :: is')
  | fwd {pre : List MIns} {i : MIns} {is is' : List MIns} {addr w : ValId} {s : MIns}
      (head : Forwards priv pre i addr s w) (tail : FwdList priv (pre ++ [i]) is is') :
      FwdList priv pre (i :: is) (loadfwdCopy i w :: is')

theorem FwdList.refl (is : List MIns) : ∀ pre, FwdList priv pre is is := by
  induction is with
  | nil => exact fun _ => .nil
  | cons i is ih => exact fun pre => .keep (ih _)

/-- Position by position: an instruction stays, or a load becomes a copy. -/
theorem FwdList.getElem? {is' : List MIns}
    (h : FwdList priv pre is is') : ∀ {k : Nat} {i : MIns}, is[k]? = some i →
      is'[k]? = some i ∨ (i.op = .load ∧ ∃ w, is'[k]? = some (loadfwdCopy i w)) := by
  induction h with
  | nil => exact fun hk => by cases hk
  | keep _ ih =>
    intro k i hk
    cases k with
    | zero => exact .inl hk
    | succ k => exact ih hk
  | @fwd pre j is is' addr w s head _ ih =>
    intro k i hk
    cases k with
    | zero =>
      obtain rfl : j = i := some.inj hk
      exact .inr ⟨head.op, w, rfl⟩
    | succ k => exact ih hk

/-- The facts about the slot test the loop relies on: a copy in the array makes the test fail
    for the slot that was loaded, and never lets it hold for another. -/
structure SlotTest (slot : List MIns → ValId → Bool) (orig : List MIns) : Prop where
  mono : ∀ done i rest w addr, slot (done ++ loadfwdCopy i w :: rest) addr = true →
    slot (done ++ i :: rest) addr = true
  stale : ∀ done i rest w addr, done.length < orig.length → orig[done.length]? = some i →
    i.op = .load → i.src0 = .val addr → slot (done ++ loadfwdCopy i w :: rest) addr = false

/-- What the loop knows behind `pre`: the map holds the values last stored, and no load of a
    slot that still passes the test was forwarded. -/
structure MapOk (pre : List MIns) (map : LoadMap) (addr : ValId) : Prop where
  map : map addr = (lastStore addr pre).bind fun s => s.src0.val?
  first : NoLoadAfter addr pre

/-- One round of the loop: the instruction stays, or it is the first load of its slot behind a
    store of a value. -/
theorem loadfwdIns_spec {slot : ValId → Bool} {map : LoadMap} (i : MIns)
    (hmap : ∀ addr, slot addr = true → priv addr = true ∧ MapOk pre map addr) :
    ((loadfwdIns slot map i).1 = i ∧ ∀ addr, slot addr = true →
        MapOk (pre ++ [i]) (loadfwdIns slot map i).2 addr) ∨
      ∃ addr s w, slot addr = true ∧ Forwards priv pre i addr s w ∧
        loadfwdIns slot map i = (loadfwdCopy i w, map) := by
  have hother : ∀ map', (∀ addr, slot addr = true →
      map' addr = (lastStore addr (pre ++ [i])).bind fun s => s.src0.val?) →
      (∀ addr s w, slot addr = true → ¬ LoadAfter pre i addr s w) →
      ∀ addr, slot addr = true → MapOk (pre ++ [i]) map' addr := fun map' hm hno addr hs =>
    ⟨hm addr hs, noLoadAfter_concat (hmap addr hs).2.first fun s w => hno addr s w hs⟩
  have hnoload : i.op ≠ .load → ∀ addr s w, slot addr = true → ¬ LoadAfter pre i addr s w :=
    fun hop _ _ _ _ hla => hop hla.op
  unfold loadfwdIns
  split
  · -- a store updates the entry of its slot
    rename_i hop
    have hno := hnoload (by rw [hop]; exact fun h => MOP.noConfusion h)
    refine .inl ?_
    cases hv : i.src1.val? with
    | none =>
      refine ⟨rfl, hother map (fun addr hs => ?_) hno⟩
      have hne : ¬ (i.op = .store ∧ i.src1 = .val addr) := by
        rintro ⟨-, h⟩
        simp [h, MRef.val?] at hv
      rw [lastStore_concat, if_neg hne]
      exact (hmap addr hs).2.map
    | some addr0 =>
      have hsrc : i.src1 = .val addr0 := by
        cases hr : i.src1 <;> simp_all [MRef.val?]
      refine ⟨rfl, hother _ (fun addr hs => ?_) hno⟩
      rw [lastStore_concat]
      dsimp only
      by_cases ha : addr = addr0
      · subst ha
        rw [if_pos hs, if_pos ⟨hop, hsrc⟩, update_self]
        rfl
      · have hne : ¬ (i.op = .store ∧ i.src1 = .val addr) := by
          rintro ⟨-, h⟩
          rw [hsrc] at h
          exact ha (MRef.val.inj h).symm
        rw [if_neg hne, ← (hmap addr hs).2.map]
        split
        · exact update_of_ne ha _ _
        · rfl
  · -- a load of a slot is forwarded when the map has a value
    rename_i hop
    have hst : ∀ addr, ¬ (i.op = .store ∧ i.src1 = .val addr) := by
      rintro addr ⟨h, -⟩
      rw [hop] at h
      cases h
    have hkeep : ∀ addr, slot addr = true →
        map addr = (lastStore addr (pre ++ [i])).bind fun s => s.src0.val? := by
      intro addr hs
      rw [lastStore_concat, if_neg (hst addr)]
      exact (hmap addr hs).2.map
    split
    · rename_i addr0 hv
      obtain ⟨hv, hs0⟩ := filter_eq_some_iff.mp hv
      have hsrc : i.src0 = .val addr0 := by
        cases hr : i.src0 <;> simp_all [MRef.val?]
      split
      · rename_i w hw
        obtain ⟨hp, hok⟩ := hmap addr0 hs0
        rw [hok.map] at hw
        obtain ⟨s, hs, hval⟩ := bind_eq_some_iff.mp hw
        have hval' : s.src0 = .val w := by
          cases hr : s.src0 <;> simp_all [MRef.val?]
        exact .inr ⟨addr0, s, w, hs0, ⟨⟨hop, hsrc, hs, hval'⟩, hp, hok.first⟩, rfl⟩
      · rename_i hnone
        refine .inl ⟨rfl, hother map hkeep fun addr s w hs hla => ?_⟩
        obtain rfl : addr0 = addr := MRef.val.inj (hsrc.symm.trans hla.src)
        rw [(hmap addr0 hs).2.map, hla.store] at hnone
        simp [hla.val, MRef.val?] at hnone
    · rename_i hnone
      refine .inl ⟨rfl, hother map hkeep fun addr s w hs hla => ?_⟩
      simp [hla.src, MRef.val?, hs] at hnone
  · rename_i hns hnl
    refine .inl ⟨rfl, hother map (fun addr hs => ?_) (hnoload fun h => hnl h)⟩
    rw [lastStore_concat, if_neg fun h => hns h.1]
    exact (hmap addr hs).2.map

/-- The forwarding loop. -/
theorem loadfwdFrom_fwdList {slot : List MIns → ValId → Bool} {orig : List MIns}
    (ht : SlotTest slot orig) : ∀ (rest pre done : List MIns) (map : LoadMap),
      orig = pre ++ rest → done.length = pre.length →
      (∀ addr, slot (done ++ rest) addr = true → priv addr = true ∧ MapOk pre map addr) →
      ∃ rest', loadfwdFrom slot done map rest = done ++ rest' ∧ FwdList priv pre rest rest' := by
  intro rest
  induction rest with
  | nil => exact fun pre done map _ _ _ => ⟨[], by simp [loadfwdFrom], .nil⟩
  | cons i rest ih =>
    intro pre done map horig hlen hmap
    have horig' : orig = (pre ++ [i]) ++ rest := by rw [horig, append_assoc]; rfl
    have hlt : done.length < orig.length := by rw [hlen, horig]; simp
    have hi : orig[done.length]? = some i := by rw [hlen, horig]; simp
    have hdone : ∀ (i' : MIns) (l : List MIns), (done ++ [i']) ++ l = done ++ i' :: l := by
      intro i' l
      rw [append_assoc]
      rfl
    simp only [loadfwdFrom]
    rcases loadfwdIns_spec i hmap with ⟨hsame, hok⟩ | ⟨addr, s, w, hs, hfwd, heq⟩
    · rw [hsame]
      obtain ⟨rest', hr, hf⟩ := ih (pre ++ [i]) (done ++ [i]) _ horig' (by simp [hlen]) (by
        intro addr hs
        rw [hdone] at hs
        exact ⟨(hmap addr hs).1, hok addr hs⟩)
      exact ⟨i :: rest', by rw [hr, hdone], .keep hf⟩
    · rw [heq]
      obtain ⟨rest', hr, hf⟩ := ih (pre ++ [i]) (done ++ [loadfwdCopy i w]) map horig'
        (by simp [hlen]) (by
          intro addr' hs'
          rw [hdone] at hs'
          have hs0 := ht.mono _ _ _ _ _ hs'
          obtain ⟨hp, hok⟩ := hmap addr' hs0
          refine ⟨hp, ?_, noLoadAfter_concat hok.first fun s' w' hla => ?_⟩
          · have hne : ¬ (i.op = .store ∧ i.src1 = .val addr') := by
              rintro ⟨h, -⟩
              rw [hfwd.op] at h
              cases h
            rw [lastStore_concat, if_neg hne]
            exact hok.map
          · -- the slot just loaded does not pass the test any more
            obtain rfl : addr = addr' := MRef.val.inj (hfwd.src.symm.trans hla.src)
            rw [ht.stale done i rest w addr hlt hi hfwd.op hfwd.src] at hs'
            cases hs')
      exact ⟨loadfwdCopy i w :: rest', by rw [hr, hdone], .fwd hfwd hf⟩

/-! ### The slot test during forwarding -/

theorem baseUse_ins {code : Code} {b i a : Nat} :
    baseUse code (.ins b i a) = true ↔ ∃ inst, (code b)[i]? = some inst ∧
      ((inst.op = .load ∧ a = 0) ∨ (inst.op = .store ∧ a = 1)) := by
  unfold baseUse useOp
  cases h : (code b)[i]? with
  | none => simp [h]
  | some inst => simp [h]

theorem baseUse_congr {code code' : Code} {u : MUse} (h : useOp code' u = useOp code u) :
    baseUse code' u = baseUse code u := by
  simp only [baseUse, h]

/-- The test on block `b`'s array fails once a use of the slot has become a copy. -/
theorem loadfwd_slotTest {alloca : ValId → Bool}
    (hb : fn.blk[b]? = some blk) : SlotTest (loadfwdSlotIn fn alloca b) blk.ins := by
  -- at the place of the copy no record shows an access
  have hcopy : ∀ (done rest : List MIns) (i : MIns) (w : ValId) (a : Nat),
      baseUse (Function.update fn.code b (done ++ loadfwdCopy i w :: rest))
        (.ins b done.length a) = false := by
    intro done rest i w a
    refine eq_false_iff.mpr fun h => ?_
    obtain ⟨inst, hi, hop⟩ := baseUse_ins.mp h
    simp only [update_self, List.getElem?_append_right (Nat.le_refl _), Nat.sub_self,
      List.getElem?_cons_zero, Option.some.injEq] at hi
    subst hi
    rcases hop with ⟨h, _⟩ | ⟨h, _⟩ <;> exact MOP.noConfusion h
  constructor
  · intro done i rest w addr h
    simp only [loadfwdSlotIn, mloadfwdSlot, and_eq_true, List.all_eq_true] at h ⊢
    refine ⟨h.1, fun u hu => ?_⟩
    have hbase := h.2 u hu
    rw [← hbase]
    refine baseUse_congr ?_
    cases u with
    | term b' => rfl
    | phi b' k j => rfl
    | ins b' k a =>
      simp only [useOp]
      by_cases hb' : b' = b
      · subst hb'
        simp only [update_self]
        by_cases hk : k = done.length
        · subst hk
          rw [hcopy] at hbase
          cases hbase
        · rcases Nat.lt_or_gt_of_ne hk with hlt | hgt
          · rw [List.getElem?_append_left hlt, List.getElem?_append_left hlt]
          · rw [List.getElem?_append_right (Nat.le_of_lt hgt),
              List.getElem?_append_right (Nat.le_of_lt hgt)]
            obtain ⟨m, hm⟩ : ∃ m, k - done.length = m + 1 := ⟨k - done.length - 1, by omega⟩
            rw [hm]
            rfl
      · simp only [update_of_ne hb']
  · intro done i rest w addr hlt hi _ hsrc
    refine eq_false_iff.mpr fun h => ?_
    simp only [loadfwdSlotIn, mloadfwdSlot, and_eq_true, List.all_eq_true] at h
    have hu := h.2 _ (use_of_src0 h.1.1 hb hi hsrc)
    rw [hcopy] at hu
    cases hu

theorem MFn.code_eq (h : fn.blk[b]? = some blk) :
    fn.code b = blk.ins := by simp [MFn.code, h]

/-- `f` is `fn` with loads of some blocks forwarded. -/
structure FwdFn (priv : ValId → Bool) (fn f : MFn) : Prop where
  val : f.val = fn.val
  start : f.start = fn.start
  rettype : f.rettype = fn.rettype
  length : f.blk.length = fn.blk.length
  blk : ∀ (b : BlkId) (blk : MBlk), fn.blk[b]? = some blk → ∃ ins, f.blk[b]? = some { blk with ins := ins } ∧
    FwdList priv [] blk.ins ins

theorem FwdFn.refl (priv : ValId → Bool) (fn : MFn) : FwdFn priv fn fn :=
  ⟨rfl, rfl, rfl, rfl, fun _ blk hb => ⟨blk.ins, hb, FwdList.refl _ _⟩⟩

/-- The slots of a function: temps of stack slots used as addresses of loads and stores only. -/
def loadfwdPriv (fn : MFn) (v : ValId) : Bool :=
  mloadfwdSlot fn fn.code (isAlloca fn) (buildUses fn) v

/-- Loads have one operand. -/
def MFn.UnaryLoads (fn : MFn) : Prop := ∀ blk ∈ fn.blk, ∀ i ∈ blk.ins, i.op = .load → i.src1 = .none

/-- Forwarding makes no new slots. -/
theorem FwdFn.slot {f : MFn} (h : FwdFn (loadfwdPriv fn) fn f) (hload : fn.UnaryLoads) {v : ValId}
    (hv : mloadfwdSlot f f.code (isAlloca fn) (buildUses f) v = true) :
    loadfwdPriv fn v = true := by
  simp only [loadfwdPriv, mloadfwdSlot, and_eq_true, List.all_eq_true] at hv ⊢
  obtain ⟨⟨htemp, halloca⟩, hall⟩ := hv
  rw [isTemp_congr h.val] at htemp
  have htemp' : f.isTemp v = true := by rw [isTemp_congr h.val]; exact htemp
  refine ⟨⟨htemp, halloca⟩, fun u hu => ?_⟩
  obtain ⟨-, b, blk, hb, hub⟩ := (mem_buildUses _ _ _).mp hu
  obtain ⟨ins, hb', hfwd⟩ := h.blk b blk hb
  rcases (mem_buildUsesBlock _ _ _ _).mp hub with ⟨k, i, hk, hi⟩ | ⟨rfl, ht⟩ | ⟨k, q, j, hk, rfl, p, hj⟩
  · have hread : ∀ a, u = .ins b k a → i.src a = .val v → baseUse fn.code u = true := by
      rintro a rfl hsrc
      rw [baseUse_ins, MFn.code_eq hb]
      refine ⟨i, hk, ?_⟩
      rcases hfwd.getElem? hk with hsame | ⟨hop, -⟩
      · -- the place is unchanged, so the record is one of `f` as well
        have huse : MUse.ins b k a ∈ buildUses f v := by
          refine (mem_buildUses f v _).mpr ⟨htemp', b, _, hb',
            (mem_buildUsesBlock _ _ _ _).mpr (.inl ⟨k, i, hsame, ?_⟩)⟩
          rcases hi with ⟨he, hs⟩ | ⟨he, hs⟩
          · exact .inl ⟨he, hs⟩
          · exact .inr ⟨he, hs⟩
        obtain ⟨inst, hinst, hop⟩ := baseUse_ins.mp (hall _ huse)
        rw [MFn.code_eq hb'] at hinst
        obtain rfl : i = inst := Option.some.inj (hsame.symm.trans hinst)
        exact hop
      · refine .inl ⟨hop, ?_⟩
        rcases hi with ⟨he, _⟩ | ⟨_, hs⟩
        · exact (MUse.ins.inj he).2.2
        · rw [hload blk (List.mem_of_getElem? hb) i (List.mem_of_getElem? hk) hop] at hs
          cases hs
    rcases hi with ⟨he, hs⟩ | ⟨he, hs⟩
    · exact hread 0 he hs
    · exact hread 1 he hs
  · have := hall (.term b) ((mem_buildUses f v _).mpr ⟨htemp', b, _, hb',
      (mem_buildUsesBlock _ _ _ _).mpr (.inr (.inl ⟨rfl, ht⟩))⟩)
    cases this
  · have := hall (.phi b k j) ((mem_buildUses f v _).mpr ⟨htemp', b, _, hb',
      (mem_buildUsesBlock _ _ _ _).mpr (.inr (.inr ⟨k, q, j, hk, rfl, p, hj⟩))⟩)
    cases this

theorem MFn.setIns_getElem? (fn : MFn) (b b' : BlkId) (ins : List MIns) :
    (fn.setIns b ins).blk[b']? =
      (fn.blk[b']?).map fun blk => if b = b' then { blk with ins := ins } else blk := by
  simp only [MFn.setIns, getElem?_modify]
  cases fn.blk[b']? <;> by_cases h : b = b' <;> simp [h]

/-- Forwarding one more block. -/
theorem FwdFn.step {fn f : MFn} (h : FwdFn (loadfwdPriv fn) fn f) (hload : fn.UnaryLoads)
    {b : BlkId} (hsame : f.blk[b]? = fn.blk[b]?) :
    FwdFn (loadfwdPriv fn) fn (f.setIns b (loadfwdCode f (isAlloca fn) b)) := by
  refine ⟨h.val, h.start, h.rettype, by simp [MFn.setIns, h.length], fun b' blk hb' => ?_⟩
  rw [MFn.setIns_getElem?]
  by_cases hbb : b = b'
  · subst hbb
    have hf : f.blk[b]? = some blk := hsame.trans hb'
    have hfirst : ∀ addr, loadfwdSlotIn f (isAlloca fn) b ([] ++ blk.ins) addr = true →
        loadfwdPriv fn addr = true ∧ MapOk [] (fun _ => none) addr := by
      intro addr hs
      have hupd : update f.code b ([] ++ blk.ins) = f.code := by
        rw [nil_append, ← MFn.code_eq hf, update_eq_self]
      rw [loadfwdSlotIn, hupd] at hs
      exact ⟨h.slot hload hs, rfl, fun k j hk => by cases hk⟩
    obtain ⟨rest', hr, hfl⟩ := loadfwdFrom_fwdList (loadfwd_slotTest hf) blk.ins [] [] _ rfl rfl hfirst
    refine ⟨rest', ?_, hfl⟩
    simp only [hf, map_some, if_true, loadfwdCode, MFn.code_eq hf, hr, nil_append]
  · obtain ⟨ins, hf, hfl⟩ := h.blk b' blk hb'
    exact ⟨ins, by simp only [hf, map_some, if_neg hbb], hfl⟩

/-- Forwarding all blocks. -/
theorem loadfwdForward_fwdFn (hload : fn.UnaryLoads) :
    FwdFn (loadfwdPriv fn) fn (loadfwdForward fn) := by
  have hfold : ∀ (l : List BlkId) (f : MFn), l.Nodup → FwdFn (loadfwdPriv fn) fn f →
      (∀ b ∈ l, f.blk[b]? = fn.blk[b]?) →
      FwdFn (loadfwdPriv fn) fn
        (l.foldl (fun f b => f.setIns b (loadfwdCode f (isAlloca fn) b)) f) := by
    intro l
    induction l with
    | nil => exact fun f _ h _ => h
    | cons b l ih =>
      intro f hnd h hsame
      rw [nodup_cons] at hnd
      refine ih _ hnd.2 (h.step hload (hsame b (mem_cons_self ..))) fun b' hb' => ?_
      have hne : b ≠ b' := fun e => hnd.1 (e ▸ hb')
      rw [MFn.setIns_getElem?, hsame b' (mem_cons_of_mem _ hb')]
      cases fn.blk[b']? <;> simp [hne]
  refine hfold _ fn ?_ (FwdFn.refl _ fn) fun _ _ => rfl
  exact nodup_reverse.mpr nodup_range

/-! ### What the slots hold -/

theorem read_written (m : Mem) (a v : BitVec 64) (t : MType) :
    (m.write a (t.bits / 8) v).read a (t.bits / 8) = low t.bits v := by
  have hle := t.bits_le
  rw [Mem.read_write _ _ _ (Nat.le_refl _) (by omega), t.bits_bytes]
  rfl

/-- A load of type `tl` from where the bytes of `x` were stored as a `ts` gives `x`, as long as
    it is no wider, or the further bytes are those of `x` as well. -/
theorem read_stored {m : Mem} {a x : BitVec 64} {ts tl : MType}
    (hread : m.read a (ts.bits / 8) = low ts.bits x)
    (hw : tl.bits ≤ ts.bits ∨ m.read a (tl.bits / 8) >>> ts.bits = low tl.bits x >>> ts.bits) :
    m.read a (tl.bits / 8) = low tl.bits x := by
  have hs := ts.bits_le
  have hl := tl.bits_le
  by_cases hle : tl.bits ≤ ts.bits
  · rw [Mem.read_le m a (Nat.div_le_div_right hle) (by omega), hread, tl.bits_bytes]
    exact low_low hle x
  · have hup := hw.resolve_left hle
    have hlow : low ts.bits (m.read a (tl.bits / 8)) = low ts.bits x := by
      rw [← hread, Mem.read_le m a (Nat.div_le_div_right (Nat.le_of_not_le hle)) (by omega),
        ts.bits_bytes]
      rfl
    apply BitVec.eq_of_getLsbD_eq
    intro i hi
    by_cases hts : i < ts.bits
    · have h := congrArg (BitVec.getLsbD · i) hlow
      simp only [getLsbD_low, hts, decide_true, Bool.true_and] at h
      rw [h, getLsbD_low]
      simp [show i < tl.bits by omega]
    · have h := congrArg (BitVec.getLsbD · (i - ts.bits)) hup
      simp only [BitVec.getLsbD_ushiftRight] at h
      rwa [show ts.bits + (i - ts.bits) = i by omega] at h

/-- Behind `pre`, every slot holds what was last stored to it. -/
def SlotHolds (H : Host) (fn : MFn) (priv : ValId → Bool) (pre : List MIns) (st : State) : Prop :=
  ∀ addr s, priv addr = true → lastStore addr pre = some s → ∃ r ∈ st.w.slot addr,
    (∀ k < s.dtype.bits / 8,
      InWin r.1 r.2 ((opnd H fn st.regs (.val addr)).bits + BitVec.ofNat 64 k)) ∧
    st.w.mem.read (opnd H fn st.regs (.val addr)).bits (s.dtype.bits / 8) =
      low s.dtype.bits (opnd H fn st.regs s.src0).bits

/-- **Step lemma.** An instruction that defines nothing the instructions up to it read keeps
    the slots' contents known. -/
theorem SlotHolds.step {H : Host} {fn : MFn} {priv quiet : ValId → Bool} {pre : List MIns}
    {i : MIns} {st st1 : State} (h : SlotHolds H fn priv pre st)
    (hpriv : ∀ v, priv v = true → v < fn.val.length)
    (hord : ∀ s ∈ pre ++ [i], ∀ v, fn.isTemp v = true → s.src0 = .val v ∨ s.src1 = .val v →
      i.dst ≠ some v)
    (hs : stepIns H ⟨some priv, quiet⟩ fn st i = some st1) :
    SlotHolds H fn priv (pre ++ [i]) st1 := by
  intro addr s hp hlast
  obtain ⟨hmem, hsop, hsrc⟩ := lastStore_spec hlast
  -- neither the address nor the stored value is defined by `i`
  have haddr : opnd H fn st1.regs (.val addr) = opnd H fn st.regs (.val addr) :=
    stepIns_opnd hs fun v hv he => hord s hmem v hv (.inr (hsrc.trans he))
  have hval : opnd H fn st1.regs s.src0 = opnd H fn st.regs s.src0 :=
    stepIns_opnd hs fun v hv he => hord s hmem v hv (.inl he)
  rw [haddr, hval]
  obtain ⟨⟨v, w1⟩, heff, rfl⟩ := map_eq_some_iff.mp hs
  rw [lastStore_concat] at hlast
  by_cases hi : i.op = .store ∧ i.src1 = .val addr
  · rw [if_pos hi] at hlast
    obtain rfl : i = s := some.inj hlast
    have hc : i.op.cls = .store := by rw [hi.1]; rfl
    simp only [effect, hc, hi.2] at heff
    split at heff
    · rename_i hok
      obtain ⟨r, hr⟩ := slot_of_accessOk hp hok
      rw [← (Prod.mk.inj (some.inj heff)).2]
      exact ⟨r, mem_of_mem_head? hr, fun k hk => inside_of_accessOk hr hok hk,
        read_written _ _ _ _⟩
    · cases heff
  · rw [if_neg hi] at hlast
    obtain ⟨r, hr, hin, hread⟩ := h addr s hp hlast
    refine ⟨r, effect_slot_mono heff addr r hr, hin, ?_⟩
    rw [← hread]
    refine Mem.read_congr _ _ _ _ fun k hk => ?_
    refine effect_private_frame hp (hpriv addr hp) (fun hop hvia => ?_) heff hr (hin k hk)
    exact hi ⟨hop, opnd_via hvia⟩

/-- The condition for one forwarded load: it is no wider than the store, or the slot's further
    bytes are those of the stored value. -/
def WidthOk (H : Host) (fn : MFn) (i s : MIns) (addr w : ValId) (st : State) : Prop :=
  i.dtype.bits ≤ s.dtype.bits ∨
    st.w.mem.read (opnd H fn st.regs (.val addr)).bits (i.dtype.bits / 8) >>> s.dtype.bits =
      low i.dtype.bits (opnd H fn st.regs (.val w)).bits >>> s.dtype.bits

/-- The forwarded code runs as the code before. -/
theorem FwdList.run {quiet : ValId → Bool} {is' : List MIns}
    (h : FwdList priv pre is is') (hpriv : ∀ v, priv v = true → v < fn.val.length) :
    ∀ {st st1 : State}, SlotHolds H fn priv pre st →
      (∀ pre2 i post, is = pre2 ++ i :: post → ∀ s ∈ pre ++ pre2 ++ [i], ∀ v, fn.isTemp v = true →
        s.src0 = .val v ∨ s.src1 = .val v → i.dst ≠ some v) →
      (∀ pre2 i post addr s w st2, is = pre2 ++ i :: post → Forwards priv (pre ++ pre2) i addr s w →
        runIns H ⟨some priv, quiet⟩ fn pre2 st = some st2 → WidthOk H fn i s addr w st2) →
      runIns H ⟨some priv, quiet⟩ fn is st = some st1 →
      runIns H ⟨some priv, quiet⟩ fn is' st = some st1 := by
  induction h with
  | nil => exact fun _ _ _ h => h
  | @keep pre i is is' _ ih =>
    intro st st1 hslot hord hok hs
    obtain ⟨st2, h2, hs⟩ := runIns_cons.mp hs
    have hslot' := hslot.step hpriv (by simpa using hord [] i is rfl) h2
    refine runIns_cons.mpr ⟨st2, h2, ih hslot' (fun pre2 j post he => ?_)
      (fun pre2 j post addr s w st3 he hf hrun => ?_) hs⟩
    · simpa using hord (i :: pre2) j post (congrArg (i :: ·) he)
    · exact hok (i :: pre2) j post addr s w st3 (congrArg (i :: ·) he) (by simpa using hf)
        (runIns_cons.mpr ⟨st2, h2, hrun⟩)
  | @fwd pre i is is' addr w s head _ ih =>
    intro st st1 hslot hord hok hs
    obtain ⟨st2, h2, hs⟩ := runIns_cons.mp hs
    have hslot' := hslot.step hpriv (by simpa using hord [] i is rfl) h2
    obtain ⟨r, -, -, hread⟩ := hslot addr s head.slot head.store
    rw [head.val] at hread
    have hwidth := hok [] i is addr s w st rfl (by simpa using head) rfl
    -- the load reads what the copy copies
    have hval := read_stored hread hwidth
    have hcopy : stepIns H ⟨some priv, quiet⟩ fn st (loadfwdCopy i w) = some st2 := by
      have hc : i.op.cls = .load := by rw [head.op]; rfl
      obtain ⟨⟨v, w1⟩, heff, rfl⟩ := map_eq_some_iff.mp h2
      simp only [effect, hc, head.src] at heff
      split at heff
      · cases heff
        refine (stepIns_pure rfl).mpr ⟨_, pureVal_copy _ _ _ _, ?_⟩
        rw [hval]
        rfl
      · cases heff
    refine runIns_cons.mpr ⟨st2, hcopy, ih hslot' (fun pre2 j post he => ?_)
      (fun pre2 j post addr' s' w' st3 he hf hrun => ?_) hs⟩
    · simpa using hord (i :: pre2) j post (congrArg (i :: ·) he)
    · exact hok (i :: pre2) j post addr' s' w' st3 (congrArg (i :: ·) he) (by simpa using hf)
        (runIns_cons.mpr ⟨st2, h2, hrun⟩)

/-! ### Running a forwarded block -/

/-- The slots that are only stored to once loads have been forwarded. -/
def loadfwdDead (fn : MFn) (v : ValId) : Bool :=
  loadfwdPriv fn v && (buildUses (loadfwdForward fn) v).all fun u =>
    useOp (loadfwdForward fn).code u = some (.store, 1)

/-- How a run is observed: only a slot's own temp reaches the slot, and stores to slots that are
    never read are not shown. -/
def loadfwdMode (fn : MFn) : Mode := ⟨some (loadfwdPriv fn), loadfwdDead fn⟩

theorem loadfwdPriv_lt {v : ValId} (h : loadfwdPriv fn v = true) : v < fn.val.length := by
  simp only [loadfwdPriv, mloadfwdSlot, and_eq_true] at h
  exact isTemp_lt h.1.1

/-- Every load that is forwarded in the block about to run meets its condition, in the state in
    front of the load. -/
def ForwardOk (H : Host) (fn : MFn) (c : Cfg) : Prop :=
  ∀ blk st1, fn.blk[c.b]? = some blk → enterBlk H fn c.prev blk c.st = some st1 →
    ∀ pre i post addr s w st, blk.ins = pre ++ i :: post →
      Forwards (loadfwdPriv fn) pre i addr s w → runIns H (loadfwdMode fn) fn pre st1 = some st →
      WidthOk H fn i s addr w st

/-- A block whose forwarded loads meet their condition runs as before. -/
theorem loadfwdForward_block {p : List BlkId} {c : Cfg} {s : Cfg ⊕ Done}
    (hssa : fn.Ssa) (hload : fn.UnaryLoads) (hp : fn.Path p c.b) (hok : ForwardOk H fn c)
    (hs : runBlk H (loadfwdMode fn) fn c = some s) :
    runBlk H (loadfwdMode fn) (loadfwdForward fn) c = some s := by
  have hfwd := loadfwdForward_fwdFn hload
  obtain ⟨blk, st1, st2, hb, h1, h2, hs⟩ := runBlk_eq_some.mp hs
  obtain ⟨ins, hb', hlist⟩ := hfwd.blk c.b blk hb
  have hslot : SlotHolds H fn (loadfwdPriv fn) [] st1 := fun addr s _ hl => by cases hl
  have hins := hlist.run (fun _ => loadfwdPriv_lt) hslot (fun pre i post he s hmem v hv hr => by
    obtain ⟨j, hj⟩ := getElem?_of_mem hmem
    have hlen : j < pre.length + 1 := by simpa using (List.getElem?_eq_some_iff.mp hj).1
    have hall : blk.ins = (pre ++ [i]) ++ post := by rw [he, append_assoc]; rfl
    have hj' : blk.ins[j]? = some s := by
      rw [hall, getElem?_append_left (by simpa using hlen)]
      simpa using hj
    have hi : blk.ins[pre.length]? = some i := by rw [he]; simp
    exact hssa.in_order hp hb hj' hi (by omega) hv hr)
    (fun pre i post addr s w st he hf hrun => hok blk st1 hb h1 pre i post addr s w st he
      (by simpa using hf) hrun) h2
  refine runBlk_eq_some.mpr ⟨_, st1, st2, hb', ?_, ?_, ?_⟩
  · rw [enterBlk_congr hfwd.val]
    exact h1
  · rw [runIns_congr hfwd.val]
    exact hins
  · rw [runTerm_congr hfwd.val hfwd.rettype]
    exact hs

/-! ### What dropping stores does to a block -/

/-- The instruction arrays when the second half comes to block `b`. -/
def loadfwdArrays (fn : MFn) (alloca : ValId → Bool) (b : BlkId) : Code :=
  ((fn.linkOrder.takeWhile (· ≠ b)).foldl (loadfwdDropBlock alloca (buildUses fn)) (fn, fn.code)).2

theorem loadfwdDrop_congr {f f' : MFn} (h : f'.val = f.val) (code : Code) (alloca : ValId → Bool)
    (us : Uses) (i : MIns) : loadfwdDrop f' code alloca us i = loadfwdDrop f code alloca us i := by
  simp only [loadfwdDrop, mloadfwdSlot, isTemp_congr h]

/-- A block without its dropped stores. -/
def loadfwdKept (fn : MFn) (code : Code) (alloca : ValId → Bool) (us : Uses) (blk : MBlk) : MBlk :=
  { blk with ins := blk.ins.filter fun i => !loadfwdDrop fn code alloca us i }

theorem loadfwdDropBlock_getElem? (alloca : ValId → Bool) (us : Uses) (s : MFn × Code)
    (a b : BlkId) :
    (loadfwdDropBlock alloca us s a).1.blk[b]? = (s.1.blk[b]?).map fun blk =>
      if a = b then loadfwdKept s.1 s.2 alloca us blk else blk := by
  simp only [loadfwdDropBlock, MFn.setIns_getElem?, loadfwdKept]
  cases hb : s.1.blk[b]? with
  | none => rfl
  | some blk =>
    by_cases hab : a = b
    · subst hab
      simp only [map_some, if_true, MFn.code_eq hb]
    · simp only [map_some, if_neg hab]

/-- The blocks are filtered one after another, each with the arrays of its turn. -/
theorem loadfwdDrop_fold (alloca : ValId → Bool) (us : Uses) (l : List BlkId) :
    ∀ s : MFn × Code, l.Nodup →
      (l.foldl (loadfwdDropBlock alloca us) s).1.val = s.1.val ∧
      (l.foldl (loadfwdDropBlock alloca us) s).1.start = s.1.start ∧
      (l.foldl (loadfwdDropBlock alloca us) s).1.rettype = s.1.rettype ∧
      ∀ b, (l.foldl (loadfwdDropBlock alloca us) s).1.blk[b]? = (s.1.blk[b]?).map fun blk =>
        if b ∈ l then
          loadfwdKept s.1 ((l.takeWhile (· ≠ b)).foldl (loadfwdDropBlock alloca us) s).2 alloca us blk
        else blk := by
  induction l with
  | nil => exact fun s _ => ⟨rfl, rfl, rfl, fun b => by simp⟩
  | cons a l ih =>
    intro s hnd
    rw [nodup_cons] at hnd
    obtain ⟨hval, hstart, hret, hblk⟩ := ih (loadfwdDropBlock alloca us s a) hnd.2
    have hval' : (loadfwdDropBlock alloca us s a).1.val = s.1.val := rfl
    refine ⟨hval, hstart, hret, fun b => ?_⟩
    rw [List.foldl_cons, hblk b, loadfwdDropBlock_getElem?, Option.map_map]
    refine congrArg (fun g => Option.map g s.1.blk[b]?) (funext fun blk => ?_)
    by_cases hab : a = b
    · subst hab
      simp [hnd.1]
    · have hba : b ≠ a := fun e => hab e.symm
      simp [hab, hba, loadfwdKept, loadfwdDrop_congr hval']

/-- The whole second half. -/
theorem loadfwdDropStores_spec (alloca : ValId → Bool) (fn : MFn) :
    (loadfwdDropStores alloca fn).val = fn.val ∧ (loadfwdDropStores alloca fn).start = fn.start ∧
    (loadfwdDropStores alloca fn).rettype = fn.rettype ∧
    ∀ (b : BlkId) (blk : MBlk), fn.blk[b]? = some blk →
      (loadfwdDropStores alloca fn).blk[b]? =
        some (loadfwdKept fn (loadfwdArrays fn alloca b) alloca (buildUses fn) blk) := by
  obtain ⟨hval, hstart, hret, hblk⟩ := loadfwdDrop_fold alloca (buildUses fn) fn.linkOrder
    (fn, fn.code) (nodup_reverse.mpr nodup_range)
  refine ⟨hval, hstart, hret, fun b blk hb => ?_⟩
  have hmem : b ∈ fn.linkOrder := by
    simpa [MFn.linkOrder] using (List.getElem?_eq_some_iff.mp hb).1
  rw [loadfwdDropStores, hblk b, hb, map_some, if_pos hmem]
  rfl

/-! ### Running a block without its dropped stores -/

/-- Every store the second half drops from the block about to run goes to a slot that is never
    read. -/
def DropOk (fn : MFn) (c : Cfg) : Prop :=
  ∀ i ∈ (loadfwdForward fn).code c.b,
    loadfwdDrop (loadfwdForward fn) (loadfwdArrays (loadfwdForward fn) (isAlloca fn) c.b)
      (isAlloca fn) (buildUses (loadfwdForward fn)) i = true →
    ∀ addr, i.src1 = .val addr → loadfwdDead fn addr = true

/-- What a run of the result shows of a configuration: everything but the bytes of slots that
    are never read. -/
structure FwdAgree (fn : MFn) (c c' : Cfg) : Prop where
  b : c'.b = c.b
  prev : c'.prev = c.prev
  regs : c'.st.regs = c.st.regs
  w : WorldOff (loadfwdDead fn) c.st.w c'.st.w

/-- The same for a finished run. -/
structure FwdDone (fn : MFn) (d d' : Done) : Prop where
  val : d'.val = d.val
  w : WorldOff (loadfwdDead fn) d.w d'.w

theorem loadfwdDead_lt (v : ValId) (h : loadfwdDead fn v = true) :
    loadfwdPriv fn v = true ∧ v < fn.val.length := by
  simp only [loadfwdDead, and_eq_true] at h
  exact ⟨h.1, loadfwdPriv_lt h.1⟩

/-- No load goes to a slot that is never read. -/
theorem loadfwdDead_load (hval : (loadfwdForward fn).val = fn.val)
    (hb : (loadfwdForward fn).blk[b]? = some blk) {i : MIns} (hi : i ∈ blk.ins) :
    i.OffSlots (loadfwdDead fn) := by
  intro hop v hsrc
  refine eq_false_iff.mpr fun hdead => ?_
  simp only [loadfwdDead, and_eq_true, List.all_eq_true, decide_eq_true_eq] at hdead
  obtain ⟨k, hk⟩ := List.getElem?_of_mem hi
  have htemp : (loadfwdForward fn).isTemp v = true := by
    rw [isTemp_congr hval]
    have hp := hdead.1
    simp only [loadfwdPriv, mloadfwdSlot, and_eq_true] at hp
    exact hp.1.1
  have hu := hdead.2 _ (use_of_src0 htemp hb hk hsrc)
  simp [useOp, MFn.code_eq hb, hk, hop] at hu

theorem runIns_dropStores {quiet : ValId → Bool} {drop : MIns → Bool}
    (hS : ∀ v, quiet v = true → priv v = true ∧ v < fn.val.length) (is : List MIns) :
    ∀ {st st' st1 : State}, st'.regs = st.regs → WorldOff quiet st.w st'.w →
      (∀ i ∈ is, i.OffSlots quiet) →
      (∀ i ∈ is, drop i = true → i.op = .store ∧ ∃ addr, i.src1 = .val addr ∧ quiet addr = true) →
      runIns H ⟨some priv, quiet⟩ fn is st = some st1 →
      ∃ st1', runIns H ⟨none, quiet⟩ fn (is.filter fun i => !drop i) st' = some st1' ∧
        st1'.regs = st1.regs ∧ WorldOff quiet st1.w st1'.w := by
  induction is with
  | nil =>
    intro st st' st1 hregs hw _ _ hs
    cases hs
    exact ⟨st', rfl, hregs, hw⟩
  | cons i is ih =>
    intro st st' st1 hregs hw hoff hdrop hs
    obtain ⟨st2, h2, hs⟩ := runIns_cons.mp hs
    obtain ⟨⟨v, w1⟩, heff, rfl⟩ := map_eq_some_iff.mp h2
    have hoff' := fun j hj => hoff j (mem_cons_of_mem i hj)
    have hdrop' := fun j hj => hdrop j (mem_cons_of_mem i hj)
    cases hd : drop i with
    | true =>
      -- a dropped store changes only bytes nobody reads
      obtain ⟨hop, addr, hsrc, hq⟩ := hdrop i (mem_cons_self ..) hd
      obtain ⟨hv, hw'⟩ := effect_store_private hop (by rw [hsrc]; rfl) hq hq (hS addr hq).1 hw heff
      subst hv
      obtain ⟨st1', h1', hr⟩ := @ih _ st' _ (by cases i.dst <;> exact hregs) hw' hoff'
        hdrop' hs
      exact ⟨st1', by simpa [hd] using h1', hr⟩
    | false =>
      obtain ⟨w1', heff', hw'⟩ := effect_off hS (hoff i (mem_cons_self ..)) hw heff
      have hstep : stepIns H ⟨none, quiet⟩ fn st' i = some ⟨setReg fn st'.regs i.dst v, w1'⟩ := by
        simp only [stepIns, hregs, heff', map_some]
      obtain ⟨st1', h1', hr⟩ := @ih _ ⟨setReg fn st'.regs i.dst v, w1'⟩ _ (by rw [hregs])
        hw' hoff' hdrop' hs
      refine ⟨st1', ?_, hr⟩
      simp only [filter_cons, hd, Bool.not_false, if_true]
      exact runIns_cons.mpr ⟨_, hstep, h1'⟩

/-- A block that loses only stores nobody reads runs as before. -/
theorem loadfwdDrop_block {c c' : Cfg} {s : Cfg ⊕ Done}
    (hload : fn.UnaryLoads) (hok : DropOk fn c) (hc : FwdAgree fn c c')
    (hs : runBlk H (loadfwdMode fn) (loadfwdForward fn) c = some s) :
    ∃ s', runBlk H (loadfwdMode fn).unchecked (mloadfwd fn) c' = some s' ∧
      LiftRel (FwdAgree fn) (FwdDone fn) s s' := by
  have hfval := (loadfwdForward_fwdFn hload).val
  obtain ⟨hval, -, hret, hblk⟩ := loadfwdDropStores_spec (isAlloca fn) (loadfwdForward fn)
  change (mloadfwd fn).val = _ at hval
  change (mloadfwd fn).rettype = _ at hret
  obtain ⟨blk, st1, st2, hb, h1, h2, hs⟩ := runBlk_eq_some.mp hs
  have h1' : enterBlk H (loadfwdForward fn) c'.prev blk c'.st = some ⟨st1.regs, c'.st.w⟩ ∧
      WorldOff (loadfwdDead fn) st1.w c'.st.w := by
    rw [hc.prev]
    cases hp : c.prev with
    | none =>
      rw [hp] at h1
      cases h1
      exact ⟨congrArg some (congrArg (State.mk · c'.st.w) hc.regs), hc.w⟩
    | some p =>
      rw [hp] at h1
      obtain ⟨l, hl, rfl⟩ := map_eq_some_iff.mp h1
      exact ⟨by simp only [enterBlk, hc.regs, hl, map_some], hc.w⟩
  have hdrop : ∀ i ∈ blk.ins, loadfwdDrop (loadfwdForward fn)
      (loadfwdArrays (loadfwdForward fn) (isAlloca fn) c.b) (isAlloca fn)
      (buildUses (loadfwdForward fn)) i = true →
      i.op = .store ∧ ∃ addr, i.src1 = .val addr ∧ loadfwdDead fn addr = true := by
    intro i hi hd
    have hquiet := hok i (by rw [MFn.code_eq hb]; exact hi) hd
    simp only [loadfwdDrop, and_eq_true, decide_eq_true_eq] at hd
    refine ⟨hd.1, ?_⟩
    cases hsrc : i.src1 with
    | none => simp [hsrc, MRef.val?] at hd
    | con c => simp [hsrc, MRef.val?] at hd
    | val addr => exact ⟨addr, rfl, hquiet addr hsrc⟩
  have hregs1 : (⟨st1.regs, c'.st.w⟩ : State).regs = st1.regs := rfl
  have hS : ∀ v, loadfwdDead fn v = true →
      loadfwdPriv fn v = true ∧ v < (loadfwdForward fn).val.length := by
    rw [hfval]
    exact loadfwdDead_lt
  obtain ⟨st2', h2', hregs, hw⟩ := runIns_dropStores hS blk.ins hregs1 h1'.2
    (fun i hi => loadfwdDead_load hfval hb hi) hdrop h2
  have hterm : ∃ s', runTerm H (loadfwdForward fn) c.b blk st2' = some s' ∧
      LiftRel (FwdAgree fn) (FwdDone fn) s s' := by
    unfold runTerm at hs ⊢
    rw [hregs]
    split at hs
    · obtain ⟨t, ht, rfl⟩ := map_eq_some_iff.mp hs
      exact ⟨_, congrArg (Option.map _) ht, rfl, rfl, hregs, hw⟩
    · obtain ⟨t, ht, rfl⟩ := map_eq_some_iff.mp hs
      exact ⟨_, congrArg (Option.map _) ht, rfl, rfl, hregs, hw⟩
    · cases hs
      exact ⟨_, rfl, rfl, hw⟩
    · cases hs
  obtain ⟨s', hs', hrel⟩ := hterm
  refine ⟨s', runBlk_eq_some.mpr ⟨_, ⟨st1.regs, c'.st.w⟩, st2', by rw [hc.b]; exact hblk c.b blk hb,
    ?_, ?_, ?_⟩, hrel⟩
  · rw [enterBlk_congr hval]
    exact h1'.1
  · rw [runIns_congr hval]
    exact h2'
  · rw [hc.b, runTerm_congr hval hret]
    exact hs'

/-- **`mloadfwd`.** A run of a function in SSA form whose forwarded loads and dropped stores
    all meet their condition keeps its blocks, every loaded value, its other stores, calls and
    result, and all memory but the bytes of slots that are never read. -/
theorem mloadfwd_meaning (H : Host) (fn : MFn) (n : Nat) (st : State) (hssa : fn.Ssa)
    (hload : fn.UnaryLoads)
    (hok : Along (runBlk H (loadfwdMode fn) fn) (fun c => ForwardOk H fn c ∧ DropOk fn c) n
      (fn.entry st)) :
    Matches (runBlk H (loadfwdMode fn) fn) (runBlk H (loadfwdMode fn).unchecked (mloadfwd fn))
      (FwdAgree fn) (FwdDone fn) n (fn.entry st) ((mloadfwd fn).entry st) := by
  have hsim : SimOn (fun c => ForwardOk H fn c ∧ DropOk fn c) (runBlk H (loadfwdMode fn) fn)
      (runBlk H (loadfwdMode fn).unchecked (mloadfwd fn))
      (fun c c' => (∃ p, fn.Path p c.b) ∧ FwdAgree fn c c') (FwdDone fn) := by
    rintro c c' s ⟨hf, hd⟩ ⟨⟨p, hp⟩, hc⟩ hs
    obtain ⟨s', hs', hrel⟩ :=
      loadfwdDrop_block hload hd hc (loadfwdForward_block hssa hload hp hf hs)
    refine ⟨s', hs', ?_⟩
    cases s with
    | inl d =>
      cases s' with
      | inl d' => exact ⟨⟨_, hp.step (edge_of_runBlk hs)⟩, hrel⟩
      | inr d' => exact hrel.elim
    | inr d =>
      cases s' with
      | inl d' => exact hrel.elim
      | inr d' => exact hrel
  have hstart : (mloadfwd fn).start = fn.start :=
    (loadfwdDropStores_spec _ _).2.1.trans (loadfwdForward_fwdFn hload).start
  refine hsim.matches (fun _ _ h => h.2) (fun _ _ h => h) ⟨⟨[], .start⟩, hstart, rfl, rfl, ?_⟩ hok
  exact WorldOff.refl _ _

/-- `union { int i; T c; } u; u.i = 0x1200; u.c = x; return u.i;` for a type `T`. -/
def punFn (t : MType) : MFn where
  blk := [{ ins := [⟨.par, t, some 1, .none, .none, none, 0⟩,
                    ⟨.alloca, .ptr, some 0, .con (mconstInt .i64 4), .none, none, 0⟩,
                    ⟨.store, .i32, none, .con (mconstInt .i32 0x1200), .val 0, none, 0⟩,
                    ⟨.store, t, none, .val 1, .val 0, none, 0⟩,
                    ⟨.load, .i32, some 2, .val 0, .none, none, 0⟩]
            term := ⟨.ret, .val 2⟩ }]
  val := [⟨.temp, .ptr, false, none, "", some 0, true⟩,
          ⟨.temp, t, false, none, "", some 0, true⟩,
          ⟨.temp, .i32, false, none, "", some 0, true⟩]
  rettype := .i32

/-- Writing a byte and reading the word: `0x1200` before the pass, `0` after it. -/
theorem mloadfwd_loses_bytes :
    ¬ Matches (runBlk .still (loadfwdMode (punFn .i8)) (punFn .i8))
      (runBlk .still (loadfwdMode (punFn .i8)).unchecked (mloadfwd (punFn .i8)))
      (FwdAgree (punFn .i8)) (FwdDone (punFn .i8)) 1 ((punFn .i8).entry .zero)
      ((mloadfwd (punFn .i8)).entry .zero) := by
  intro h
  have h1 := retVal_of_matches h (fun _ _ h => h.val) (v := 0x1200) (by decide)
  exact absurd h1 (by decide)

/-- With a store as wide as the load the forwarded value is the stored one. -/
theorem mloadfwd_meaning_word :
    Matches (runBlk .still (loadfwdMode (punFn .i32)) (punFn .i32))
      (runBlk .still (loadfwdMode (punFn .i32)).unchecked (mloadfwd (punFn .i32)))
      (FwdAgree (punFn .i32)) (FwdDone (punFn .i32)) 1 ((punFn .i32).entry .zero)
      ((mloadfwd (punFn .i32)).entry .zero) := by
  refine mloadfwd_meaning .still (punFn .i32) 1 .zero
    (ssa_of_straight rfl rfl rfl rfl rfl (by decide) (by decide)) ?_ ?_
  · simp [MFn.UnaryLoads, punFn]
  · intro k hk c hc _
    obtain rfl : k = 0 := by omega
    cases hc
    refine ⟨fun blk st1 hb _ pre i post addr s w st he hf _ => .inl ?_, ?_⟩
    · cases hb
      have hload : ∀ j ∈ (punFn .i32).blk.flatMap MBlk.ins, j.op = .load → j.dtype = .i32 := by decide
      have hstore : ∀ j ∈ (punFn .i32).blk.flatMap MBlk.ins, j.op = .store → j.dtype = .i32 := by decide
      have hins : (punFn .i32).blk.flatMap MBlk.ins = pre ++ i :: post := he
      have hsub : ∀ j ∈ pre ++ i :: post, j ∈ (punFn .i32).blk.flatMap MBlk.ins :=
        fun j hj => hins ▸ hj
      obtain ⟨hmem, hop, -⟩ := lastStore_spec hf.store
      rw [hload i (hsub i (by simp)) hf.op, hstore s (hsub s (by simp [hmem])) hop]
    · have hdrop : ∀ i ∈ (loadfwdForward (punFn .i32)).code 0,
          loadfwdDrop (loadfwdForward (punFn .i32))
            (loadfwdArrays (loadfwdForward (punFn .i32)) (isAlloca (punFn .i32)) 0)
            (isAlloca (punFn .i32)) (buildUses (loadfwdForward (punFn .i32))) i = true →
          i.src1.val?.all (loadfwdDead (punFn .i32)) = true := by decide
      intro i hi hd addr hsrc
      simpa [hsrc, MRef.val?] using hdrop i hi hd

end MeuOS.Mir
