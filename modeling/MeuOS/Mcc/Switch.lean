import MeuOS.Lib.KeyTable
import MeuOS.Mcc.Tree

namespace MeuOS.Mcc

open MeuOS.Lib List

/-!
# Lowering of `switch` (`irgen/switch.c`, `parse/stmt.c`)

The labels of a `switch` enter their constants into a tree, and `funcswitch` walks it and emits
blocks that compare and branch.

* `label`, `casesearch`, `funcswitch` — the source's functions;
* `follow` — the run of the blocks emitted;
* `dispatch` — the label that the tree leads to, and `casesearch_spec`: the blocks lead there;
* `switch_dispatch_iff` — every value reaches the body of its case exactly where the constants have
  the same order in the width of the type as in 64 bits.
-/

/-! ### Blocks -/

/-- The comparisons that `casesearch` emits. -/
inductive CmpKind where
  | ceqw
  | ceql
  | cultw
  | cultl
  deriving DecidableEq, Repr

/-- A comparison of the controlling value with a constant. -/
structure Inst where
  kind : CmpKind
  res : Nat
  key : Nat
  deriving DecidableEq, Repr

/-- The jump at the end of a block. -/
inductive Jump where
  | none
  | jmp (blk : Nat)
  | jnz (arg blk0 blk1 : Nat)
  deriving DecidableEq, Repr

/-- `struct block`. -/
structure Block where
  id : Nat
  insts : List Inst
  jump : Jump
  deriving DecidableEq, Repr

/-- `struct func`: the blocks before the last one, the last one, and the counters of blocks and of
    values. -/
structure Func where
  blocks : List Block
  last : Block
  blockId : Nat
  valueId : Nat
  deriving DecidableEq, Repr

/-- All blocks in order. -/
def Func.all (f : Func) : List Block := f.blocks ++ [f.last]

/-- `mkblock`: the number of the new block. -/
def mkblock (f : Func) : Nat × Func := (f.blockId + 1, { f with blockId := f.blockId + 1 })

/-- `funclabel`. -/
def funclabel (f : Func) (b : Nat) : Func :=
  { f with
    blocks := f.blocks ++ [f.last]
    last := { id := b, insts := [], jump := .none } }

/-- `funcinst`: the result, and the function. -/
def funcinst (f : Func) (kind : CmpKind) (key : Nat) : Nat × Func :=
  let f :=
    if f.last.jump ≠ .none then
      let (b, f) := mkblock f
      funclabel f b
    else f
  (f.valueId + 1,
    { f with
      last := { f.last with insts := f.last.insts ++ [⟨kind, f.valueId + 1, key⟩] }
      valueId := f.valueId + 1 })

/-- `funcjmp`. -/
def funcjmp (f : Func) (l : Nat) : Func :=
  if f.last.jump = .none then { f with last := { f.last with jump := .jmp l } } else f

/-- `funcjnz` of an `int`. -/
def funcjnz (f : Func) (v l0 l1 : Nat) : Func :=
  if f.last.jump = .none then { f with last := { f.last with jump := .jnz v l0 l1 } } else f

/-! ### Emitting -/

/-- The class of the controlling value. -/
inductive Cls where
  | w
  | l
  deriving DecidableEq, Repr

/-- The bits of a class. -/
def Cls.bits : Cls → Nat
  | .w => 32
  | .l => 64

/-- `casesearch`; the bounds are `unsigned long long`. -/
def casesearch (cls : Cls) (defaultlabel : Nat) : TreeNode Nat → Nat → Nat → Func → Func
  | .nil, _, _, f => funcjmp f defaultlabel
  | .node key body _ c0 c1, min, max, f =>
    if min = max then funcjmp f body
    else
      let (ne, f) := mkblock f
      let (lt, f) := mkblock f
      let (gt, f) := mkblock f
      let (res, f) := funcinst f (if cls = .w then .ceqw else .ceql) key
      let f := funclabel (funcjnz f res body ne) ne
      let (res, f) := funcinst f (if cls = .w then .cultw else .cultl) key
      let f := funclabel (funcjnz f res lt gt) lt
      let f := casesearch cls defaultlabel c0 min ((key + 2 ^ 64 - 1) % 2 ^ 64) f
      casesearch cls defaultlabel c1 ((key + 1) % 2 ^ 64) max (funclabel f gt)

/-- `funcswitch`. -/
def funcswitch (cls : Cls) (root : TreeNode Nat) (defaultlabel : Nat) (f : Func) : Func :=
  casesearch cls defaultlabel root 0 (2 ^ 64 - 1) f

/-! ### Labels -/

/-- What stands in the body of a `switch`: a label of a case with the value of its constant, the
    default label, or other statements, which make some blocks. -/
inductive Item where
  | case (c : Int)
  | default
  | stmt (blocks : Nat)
  deriving DecidableEq, Repr

/-- `struct switchcases`, and the counter of blocks. -/
structure SwitchCases where
  root : TreeNode Nat
  defaultlabel : Option Nat
  blockId : Nat

/-- The cases before the first label. -/
def SwitchCases.init (blockId : Nat) : SwitchCases :=
  { root := .nil, defaultlabel := none, blockId := blockId }

/-- The errors of the labels. -/
inductive LabelErr where
  | duplicateCase
  | multipleDefault
  | tree (e : TreeErr)
  deriving DecidableEq, Repr

/-- `u.constant.u` of a constant. -/
def constU (c : Int) : Nat := (c % 2 ^ 64).toNat

/-- `label` with `switchcase`. -/
def label (ptr : Nat) (s : SwitchCases) : Item → Except LabelErr SwitchCases
  | .case c =>
    let b := s.blockId + 1
    match treeinsert ptr s.root (constU c) b with
    | .error e => .error (.tree e)
    | .ok (_, false) => .error .duplicateCase
    | .ok (root, true) => .ok { s with root := root, blockId := b }
  | .default =>
    if s.defaultlabel.isSome then .error .multipleDefault
    else .ok { s with defaultlabel := some (s.blockId + 1), blockId := s.blockId + 1 }
  | .stmt blocks => .ok { s with blockId := s.blockId + blocks }

/-- The labels in the body of a `switch`. -/
def labels (ptr : Nat) : SwitchCases → List Item → Except LabelErr SwitchCases
  | s, [] => .ok s
  | s, i :: is =>
    match label ptr s i with
    | .error e => .error e
    | .ok s => labels ptr s is

/-- What the `switch` statement leaves: the cases, the block where the comparisons begin, the label
    behind the statement, and the blocks emitted. -/
structure Switched where
  cases : SwitchCases
  cond : Nat
  join : Nat
  code : List Block

/-- The `switch` statement, with some blocks made before it. -/
def switchStmt (ptr : Nat) (cls : Cls) (blockId : Nat) (items : List Item) :
    Except LabelErr Switched :=
  let cond := blockId + 1
  let join := blockId + 2
  match labels ptr (.init (blockId + 2)) items with
  | .error e => .error e
  | .ok s =>
    let f : Func :=
      { blocks := []
        last := { id := cond, insts := [], jump := .none }
        blockId := s.blockId
        valueId := 0 }
    .ok
      { cases := s
        cond := cond
        join := join
        code := (funcswitch cls s.root (s.defaultlabel.getD join) f).all }

/-! ### The run of the blocks -/

/-- The value of a comparison. -/
def CmpKind.eval (kind : CmpKind) (v key : Nat) : Bool :=
  match kind with
  | .ceqw => v % 2 ^ 32 = key % 2 ^ 32
  | .ceql => v % 2 ^ 64 = key % 2 ^ 64
  | .cultw => v % 2 ^ 32 < key % 2 ^ 32
  | .cultl => v % 2 ^ 64 < key % 2 ^ 64

/-- The values after the instructions of a block. -/
def Block.run (b : Block) (v : Nat) (env : Nat → Nat) : Nat → Nat :=
  b.insts.foldl (fun env i => Function.update env i.res (i.kind.eval v i.key).toNat) env

/-- Run blocks from a label on until a label comes that is not theirs; the first argument bounds
    the turns. -/
def follow (code : List Block) (v : Nat) : Nat → (Nat → Nat) → Nat → Option Nat
  | 0, _, _ => none
  | turns + 1, env, id =>
    match code.find? fun b => b.id = id with
    | none => some id
    | some b =>
      match b.jump with
      | .none => none
      | .jmp l => follow code v turns (b.run v env) l
      | .jnz arg l0 l1 =>
        follow code v turns (b.run v env) (if b.run v env arg ≠ 0 then l0 else l1)

/-- The label at which a run from some label ends. -/
def Reaches (code : List Block) (v id target : Nat) : Prop :=
  ∃ turns, follow code v turns (fun _ => 0) id = some target

/-! ### What the tree leads to -/

/-- The label that the comparisons of `casesearch` lead to. -/
def dispatch (bits v defaultlabel : Nat) : TreeNode Nat → Nat → Nat → Nat
  | .nil, _, _ => defaultlabel
  | .node key body _ c0 c1, min, max =>
    if min = max then body
    else if v % 2 ^ bits = key % 2 ^ bits then body
    else if v % 2 ^ bits < key % 2 ^ bits then
      dispatch bits v defaultlabel c0 min ((key + 2 ^ 64 - 1) % 2 ^ 64)
    else dispatch bits v defaultlabel c1 ((key + 1) % 2 ^ 64) max

/-! ### The blocks lead where the tree leads -/

variable {code : List Block} {v turns id bits ptr n : Nat} {env : Nat → Nat} {f : Func}
  {s : SwitchCases} {made : List (Int × Nat)}

theorem follow_jmp {l : Nat} {b : Block}
    (hfind : (code.find? fun b => b.id = id) = some b) (hjump : b.jump = .jmp l) :
    follow code v (turns + 1) env id = follow code v turns (b.run v env) l := by
  rw [follow, hfind]
  dsimp only
  rw [hjump]

theorem follow_jnz {arg l0 l1 : Nat} {b : Block}
    (hfind : (code.find? fun b => b.id = id) = some b) (hjump : b.jump = .jnz arg l0 l1) :
    follow code v (turns + 1) env id
      = follow code v turns (b.run v env) (if b.run v env arg ≠ 0 then l0 else l1) := by
  rw [follow, hfind]
  dsimp only
  rw [hjump]

/-- A block that compares and branches. -/
def testBlock (id : Nat) (kind : CmpKind) (res key l0 l1 : Nat) : Block :=
  { id := id, insts := [⟨kind, res, key⟩], jump := .jnz res l0 l1 }

theorem testBlock_id (id : Nat) (kind : CmpKind) (res key l0 l1 : Nat) :
    (testBlock id kind res key l0 l1).id = id := rfl

/-- It branches to the first label where the comparison holds. -/
theorem follow_test {res key l0 l1 : Nat} {kind : CmpKind}
    (hfind : (code.find? fun b => b.id = id) = some (testBlock id kind res key l0 l1))
    (env : Nat → Nat) :
    ∃ env', ∀ turns, follow code v (turns + 1) env id
      = follow code v turns env' (if kind.eval v key then l0 else l1) := by
  refine ⟨(testBlock id kind res key l0 l1).run v env, fun turns => ?_⟩
  rw [follow_jnz hfind rfl]
  have hres : (testBlock id kind res key l0 l1).run v env res = (kind.eval v key).toNat := by
    show Function.update env res (kind.eval v key).toNat res = _
    exact Function.update_self _ _ _
  rw [hres]
  cases kind.eval v key <;> rfl

/-- The end of a function where nothing stands in the last block yet. -/
structure Func.Open (f : Func) : Prop where
  insts : f.last.insts = []
  jump : f.last.jump = .none
  made : f.last.id ≤ f.blockId

theorem Func.Open.last_eq (h : f.Open) : f.last = ⟨f.last.id, [], .none⟩ := by
  obtain ⟨blocks, ⟨id, insts, jump⟩, blockId, valueId⟩ := f
  obtain ⟨rfl, rfl, -⟩ := h
  rfl

/-- New blocks behind `f`, of which the first one takes the place of its last block; they lead to
    a label. -/
structure Emits (f f' : Func) (v target : Nat) (new : List Block) : Prop where
  all : f'.all = f.blocks ++ new
  mono : f.blockId ≤ f'.blockId
  ids : ∀ b ∈ new, b.id = f.last.id ∨ f.blockId < b.id ∧ b.id ≤ f'.blockId
  first : ∃ b ∈ new, b.id = f.last.id
  nodup : (new.map Block.id).Nodup
  run : ∀ code : List Block, (∀ b ∈ new, (code.find? fun c => c.id = b.id) = some b) →
    ∀ env, ∃ turns env', ∀ more,
      follow code v (turns + more) env f.last.id = follow code v more env' target

/-- A jump to a label. -/
theorem Emits.jmp (h : f.Open) (v l : Nat) :
    Emits f (funcjmp f l) v l [⟨f.last.id, [], .jmp l⟩] := by
  have heq : funcjmp f l = { f with last := ⟨f.last.id, [], .jmp l⟩ } := by
    unfold funcjmp
    rw [if_pos h.jump, h.last_eq]
  rw [heq]
  refine ⟨rfl, le_rfl, ?_, ⟨_, mem_singleton.mpr rfl, rfl⟩, nodup_singleton _, ?_⟩
  · intro b hb
    rw [mem_singleton.mp hb]
    exact .inl rfl
  · intro code hcode env
    refine ⟨1, env, fun more => ?_⟩
    rw [Nat.add_comm]
    exact follow_jmp (hcode _ (mem_singleton.mpr rfl)) rfl

/-- The function where the comparisons with the keys of the left side begin. -/
def Func.tested (f : Func) (cls : Cls) (key body : Nat) : Func :=
  { blocks := f.blocks ++
      [testBlock f.last.id (if cls = .w then .ceqw else .ceql) (f.valueId + 1) key body
          (f.blockId + 1),
        testBlock (f.blockId + 1) (if cls = .w then .cultw else .cultl) (f.valueId + 2) key
          (f.blockId + 2) (f.blockId + 3)]
    last := ⟨f.blockId + 2, [], .none⟩
    blockId := f.blockId + 3
    valueId := f.valueId + 2 }

/-- The two comparisons with a key, and the two sides. -/
theorem casesearch_node (h : f.Open) (cls : Cls) {defaultlabel key body ht min max : Nat}
    {c0 c1 : TreeNode Nat} (hne : min ≠ max) :
    casesearch cls defaultlabel (.node key body ht c0 c1) min max f
      = casesearch cls defaultlabel c1 ((key + 1) % 2 ^ 64) max
          (funclabel (casesearch cls defaultlabel c0 min ((key + 2 ^ 64 - 1) % 2 ^ 64)
            (f.tested cls key body)) (f.blockId + 3)) := by
  obtain ⟨blocks, ⟨id, insts, jump⟩, blockId, valueId⟩ := f
  obtain ⟨hinsts, hjump, -⟩ := h
  dsimp only at hinsts hjump
  subst hinsts hjump
  rw [casesearch, if_neg hne]
  simp only [mkblock, funcinst, funcjnz, funclabel, Func.tested, testBlock, ne_eq,
    not_true_eq_false, if_false, if_true, nil_append, append_assoc, cons_append]

theorem eval_eq (cls : Cls) (v key : Nat) :
    ((if cls = .w then CmpKind.ceqw else .ceql).eval v key = true)
      ↔ v % 2 ^ cls.bits = key % 2 ^ cls.bits := by
  rcases cls with _ | _ <;> simp [CmpKind.eval, Cls.bits]

theorem eval_lt (cls : Cls) (v key : Nat) :
    ((if cls = .w then CmpKind.cultw else .cultl).eval v key = true)
      ↔ v % 2 ^ cls.bits < key % 2 ^ cls.bits := by
  rcases cls with _ | _ <;> simp [CmpKind.eval, Cls.bits]

/-- The blocks of `casesearch` lead where the tree leads. -/
theorem casesearch_spec (cls : Cls) (v defaultlabel : Nat) (t : TreeNode Nat) (min max : Nat)
    (h : f.Open) :
    ∃ new, Emits f (casesearch cls defaultlabel t min max f) v
      (dispatch cls.bits v defaultlabel t min max) new := by
  induction t generalizing min max f with
  | nil => exact ⟨_, Emits.jmp h v defaultlabel⟩
  | node key body ht c0 c1 ih0 ih1 =>
    by_cases hne : min = max
    · rw [casesearch, if_pos hne, dispatch, if_pos hne]
      exact ⟨_, Emits.jmp h v body⟩
    rw [casesearch_node h cls hne, dispatch, if_neg hne]
    -- the left side, then the right side behind it
    have hopen0 : (f.tested cls key body).Open := ⟨rfl, rfl, Nat.le_succ _⟩
    obtain ⟨new0, h0⟩ := ih0 min ((key + 2 ^ 64 - 1) % 2 ^ 64) hopen0
    generalize casesearch cls defaultlabel c0 min ((key + 2 ^ 64 - 1) % 2 ^ 64)
      (f.tested cls key body) = g at h0 ⊢
    have hmono0 : f.blockId + 3 ≤ g.blockId := h0.mono
    have hopen1 : (funclabel g (f.blockId + 3)).Open := ⟨rfl, rfl, hmono0⟩
    obtain ⟨new1, h1⟩ := ih1 ((key + 1) % 2 ^ 64) max hopen1
    generalize casesearch cls defaultlabel c1 ((key + 1) % 2 ^ 64) max
      (funclabel g (f.blockId + 3)) = f' at h1 ⊢
    have hmono1 : g.blockId ≤ f'.blockId := h1.mono
    have hids0 : ∀ b ∈ new0, b.id = f.blockId + 2 ∨ f.blockId + 3 < b.id ∧ b.id ≤ g.blockId :=
      h0.ids
    have hids1 : ∀ b ∈ new1, b.id = f.blockId + 3 ∨ g.blockId < b.id ∧ b.id ≤ f'.blockId :=
      h1.ids
    have hmade := h.made
    refine ⟨[testBlock f.last.id (if cls = .w then .ceqw else .ceql) (f.valueId + 1) key body
        (f.blockId + 1), testBlock (f.blockId + 1) (if cls = .w then .cultw else .cultl)
        (f.valueId + 2) key (f.blockId + 2) (f.blockId + 3)] ++ (new0 ++ new1),
      ?_, by omega, ?_, ?_, ?_, ?_⟩
    · have hall : f'.all = g.all ++ new1 := h1.all
      rw [hall, h0.all, Func.tested, append_assoc, append_assoc]
    · intro b hb
      rcases mem_append.mp hb with hb | hb
      · rcases mem_pair.mp hb with rfl | rfl
        · exact .inl rfl
        · exact .inr ⟨Nat.lt_succ_self _, by show f.blockId + 1 ≤ _; omega⟩
      · rcases mem_append.mp hb with hb | hb
        · have := hids0 b hb
          omega
        · have := hids1 b hb
          omega
    · exact ⟨_, mem_append_left _ mem_cons_self, rfl⟩
    · rw [map_append, map_append, nodup_append, nodup_append]
      refine ⟨?_, ⟨h0.nodup, h1.nodup, ?_⟩, ?_⟩
      · show [f.last.id, f.blockId + 1].Nodup
        rw [nodup_cons, mem_singleton]
        exact ⟨by omega, nodup_singleton _⟩
      · intro i hi j hj
        obtain ⟨b, hb, rfl⟩ := mem_map.mp hi
        obtain ⟨c, hc, rfl⟩ := mem_map.mp hj
        have := hids0 b hb
        have := hids1 c hc
        omega
      · intro i hi j hj
        have hi' : i = f.last.id ∨ i = f.blockId + 1 := mem_pair.mp hi
        rcases mem_append.mp hj with hj | hj
        · obtain ⟨b, hb, rfl⟩ := mem_map.mp hj
          have := hids0 b hb
          omega
        · obtain ⟨b, hb, rfl⟩ := mem_map.mp hj
          have := hids1 b hb
          omega
    · intro code hcode env
      have hfirst := hcode _ (mem_append_left _ mem_cons_self)
      have hsecond := hcode _ (mem_append_left _ (mem_cons_of_mem _ mem_cons_self))
      have hrun0 := h0.run code fun b hb =>
        hcode b (mem_append_right _ (mem_append_left _ hb))
      have hrun1 := h1.run code fun b hb =>
        hcode b (mem_append_right _ (mem_append_right _ hb))
      rw [testBlock_id] at hfirst hsecond
      obtain ⟨env1, hstep1⟩ := follow_test hfirst env
      obtain ⟨env2, hstep2⟩ := follow_test hsecond env1
      by_cases heq : v % 2 ^ cls.bits = key % 2 ^ cls.bits
      · rw [if_pos heq]
        refine ⟨1, env1, fun more => ?_⟩
        rw [Nat.add_comm 1 more]
        rw [hstep1, if_pos ((eval_eq cls v key).mpr heq)]
      have hne1 := fun he => heq ((eval_eq cls v key).mp he)
      rw [if_neg heq]
      by_cases hlt : v % 2 ^ cls.bits < key % 2 ^ cls.bits
      · obtain ⟨turns, env', hrun⟩ := hrun0 env2
        rw [if_pos hlt]
        refine ⟨turns + 2, env', fun more => ?_⟩
        rw [show turns + 2 + more = turns + more + 1 + 1 by omega]
        rw [hstep1, if_neg hne1, hstep2, if_pos ((eval_lt cls v key).mpr hlt)]
        exact hrun more
      · obtain ⟨turns, env', hrun⟩ := hrun1 env2
        rw [if_neg hlt]
        refine ⟨turns + 2, env', fun more => ?_⟩
        rw [show turns + 2 + more = turns + more + 1 + 1 by omega]
        rw [hstep1, if_neg hne1, hstep2, if_neg fun hl => hlt ((eval_lt cls v key).mp hl)]
        exact hrun more

/-! ### Where the tree leads -/

/-- The tree leads to the default label or to the body of one of its nodes. -/
theorem dispatch_mem (bits v defaultlabel : Nat) (t : TreeNode Nat) (min max : Nat) :
    dispatch bits v defaultlabel t min max = defaultlabel ∨
      dispatch bits v defaultlabel t min max ∈ t.inorder.map Prod.snd := by
  induction t generalizing min max with
  | nil => exact .inl rfl
  | node key body ht c0 c1 ih0 ih1 =>
    rw [HTree.inorder_node, map_append, map_cons, mem_append, mem_cons,
      dispatch]
    split
    · exact .inr (.inr (.inl rfl))
    split
    · exact .inr (.inr (.inl rfl))
    split
    · exact (ih0 _ _).imp_right .inl
    · exact (ih1 _ _).imp_right fun h => .inr (.inr h)

/-- Where every key is led to its own body, the keys have the same order in the bits compared. -/
theorem ascend_of_dispatch {bits defaultlabel : Nat} {t : TreeNode Nat} {min max : Nat}
    (hbodies : (t.inorder.map Prod.snd).Nodup) (hdefault : defaultlabel ∉ t.inorder.map Prod.snd)
    (h : ∀ x ∈ t.inorder, dispatch bits x.1 defaultlabel t min max = x.2) :
    (t.inorder.map fun x => x.1 % 2 ^ bits).Pairwise (· < ·) := by
  induction t generalizing min max with
  | nil => exact List.Pairwise.nil
  | node key body ht c0 c1 ih0 ih1 =>
    rw [HTree.inorder_node, map_append, map_cons] at hbodies hdefault
    rw [mem_append, mem_cons, not_or, not_or] at hdefault
    obtain ⟨hn0, hn1, hcross⟩ := nodup_append.mp hbodies
    obtain ⟨hbody1, hn1⟩ := nodup_cons.mp hn1
    obtain ⟨hd0, -, hd1⟩ := hdefault
    rw [HTree.inorder_node, forall_mem_append, forall_mem_cons] at h
    obtain ⟨h0, -, h1⟩ := h
    -- a key of the left side is led to the left, and one of the right side to the right
    have hleft : ∀ x ∈ c0.inorder, x.1 % 2 ^ bits < key % 2 ^ bits ∧
        dispatch bits x.1 defaultlabel c0 min ((key + 2 ^ 64 - 1) % 2 ^ 64) = x.2 := by
      intro x hx
      have hx0 := h0 x hx
      have hmem : x.2 ∈ c0.inorder.map Prod.snd := mem_map.mpr ⟨x, hx, rfl⟩
      have hbody : body ≠ x.2 := fun he => hcross x.2 hmem body mem_cons_self he.symm
      rw [dispatch] at hx0
      split at hx0
      · exact absurd hx0 hbody
      split at hx0
      · exact absurd hx0 hbody
      split at hx0
      · next hlt => exact ⟨hlt, hx0⟩
      · rcases dispatch_mem bits x.1 defaultlabel c1 ((key + 1) % 2 ^ 64) max with hd | hd
        · rw [hx0] at hd
          exact absurd (hd ▸ hmem) hd0
        · rw [hx0] at hd
          exact absurd rfl (hcross x.2 hmem x.2 (mem_cons_of_mem _ hd))
    have hright : ∀ x ∈ c1.inorder, key % 2 ^ bits < x.1 % 2 ^ bits ∧
        dispatch bits x.1 defaultlabel c1 ((key + 1) % 2 ^ 64) max = x.2 := by
      intro x hx
      have hx1 := h1 x hx
      have hmem : x.2 ∈ c1.inorder.map Prod.snd := mem_map.mpr ⟨x, hx, rfl⟩
      have hbody : body ≠ x.2 := fun he => hbody1 (he ▸ hmem)
      rw [dispatch] at hx1
      split at hx1
      · exact absurd hx1 hbody
      split at hx1
      · exact absurd hx1 hbody
      split at hx1
      · rcases dispatch_mem bits x.1 defaultlabel c0 min ((key + 2 ^ 64 - 1) % 2 ^ 64) with
          hd | hd
        · rw [hx1] at hd
          exact absurd (hd ▸ hmem) hd1
        · rw [hx1] at hd
          exact absurd rfl (hcross x.2 hd x.2 (mem_cons_of_mem _ hmem))
      · exact ⟨by omega, hx1⟩
    rw [HTree.inorder_node, map_append, map_cons, pairwise_append,
      pairwise_cons]
    refine ⟨ih0 hn0 hd0 fun x hx => (hleft x hx).2, ⟨?_, ih1 hn1 hd1 fun x hx => (hright x hx).2⟩,
      ?_⟩
    · intro k hk
      obtain ⟨x, hx, rfl⟩ := mem_map.mp hk
      exact (hright x hx).1
    · intro k hk k' hk'
      obtain ⟨x, hx, rfl⟩ := mem_map.mp hk
      rcases mem_cons.mp hk' with rfl | hk'
      · exact (hleft x hx).1
      · obtain ⟨y, hy, rfl⟩ := mem_map.mp hk'
        exact (hleft x hx).1.trans (hright y hy).1

/-- The keys have the same order in the bits compared as in 64 bits. -/
def SameOrder (bits : Nat) (keys : List Nat) : Prop :=
  ∀ k ∈ keys, ∀ k' ∈ keys, k < k' → k % 2 ^ bits < k' % 2 ^ bits

/-- Between two keys that follow each other, or at an end of the range, only one value is left. -/
theorem eq_of_min_eq_max (hbits : bits = 32 ∨ bits = 64) {keys : List Nat}
    (hsame : SameOrder bits keys) {k : Nat} (hk : k ∈ keys) (hk64 : k < 2 ^ 64)
    (hlow : k = 0 ∨ 0 < k ∧ k - 1 ∈ keys ∧ (k - 1) % 2 ^ bits < v % 2 ^ bits)
    (hhigh : k = 2 ^ 64 - 1 ∨ k + 1 ∈ keys ∧ v % 2 ^ bits < (k + 1) % 2 ^ bits) :
    v % 2 ^ bits = k % 2 ^ bits := by
  have hup : k % 2 ^ bits ≤ v % 2 ^ bits := by
    rcases hlow with rfl | ⟨hpos, hmem, hlt⟩
    · rw [Nat.zero_mod]
      exact Nat.zero_le _
    · have hstep := hsame _ hmem _ hk (by omega)
      rcases hbits with rfl | rfl <;> omega
  have hdown : v % 2 ^ bits ≤ k % 2 ^ bits := by
    rcases hhigh with rfl | ⟨hmem, hlt⟩
    · have hv := Nat.mod_lt v (Nat.two_pow_pos bits)
      rcases hbits with rfl | rfl <;> omega
    · have hstep := hsame _ hk _ hmem (by omega)
      rcases hbits with rfl | rfl <;> omega
  omega

/-- Where the keys have the same order in the bits compared, a value is led to the key that agrees
    with it in these bits, and to the default label where none does. -/
theorem dispatch_spec {bits : Nat} (hbits : bits = 32 ∨ bits = 64) {keys : List Nat}
    (hsame : SameOrder bits keys) (hkeys : ∀ k ∈ keys, k < 2 ^ 64) (v defaultlabel : Nat)
    {t : TreeNode Nat} (hord : Ordered t) (hsub : ∀ x ∈ t.inorder, x.1 ∈ keys) {min max : Nat}
    (hin : ∀ x ∈ t.inorder, min ≤ x.1 ∧ x.1 ≤ max)
    (hlow : min = 0 ∨ 0 < min ∧ min - 1 ∈ keys ∧ (min - 1) % 2 ^ bits < v % 2 ^ bits)
    (hhigh : max = 2 ^ 64 - 1 ∨ max + 1 ∈ keys ∧ v % 2 ^ bits < (max + 1) % 2 ^ bits) :
    (∃ x ∈ t.inorder, v % 2 ^ bits = x.1 % 2 ^ bits ∧
      dispatch bits v defaultlabel t min max = x.2) ∨
    ((∀ x ∈ t.inorder, v % 2 ^ bits ≠ x.1 % 2 ^ bits) ∧
      dispatch bits v defaultlabel t min max = defaultlabel) := by
  induction t generalizing min max with
  | nil => exact .inr ⟨fun x hx => absurd hx not_mem_nil, rfl⟩
  | node key body ht c0 c1 ih0 ih1 =>
    unfold Ordered at hord
    rw [HTree.inorder_node, map_append, map_cons, pairwise_append,
      pairwise_cons] at hord
    obtain ⟨hord0, ⟨hroot, hord1⟩, hcross⟩ := hord
    rw [HTree.inorder_node, forall_mem_append, forall_mem_cons] at hsub hin
    obtain ⟨hsub0, hkey, hsub1⟩ := hsub
    obtain ⟨hin0, hinkey, hin1⟩ := hin
    dsimp only at hkey hinkey
    have hkey64 := hkeys key hkey
    have hless0 : ∀ x ∈ c0.inorder, x.1 < key := fun x hx =>
      hcross x.1 (mem_map.mpr ⟨x, hx, rfl⟩) key mem_cons_self
    have hless1 : ∀ x ∈ c1.inorder, key < x.1 := fun x hx =>
      hroot x.1 (mem_map.mpr ⟨x, hx, rfl⟩)
    rw [HTree.inorder_node, dispatch]
    by_cases hminmax : min = max
    · -- no comparison is needed
      obtain rfl : key = min := by omega
      rw [if_pos hminmax]
      subst hminmax
      exact .inl ⟨(key, body), mem_append_right _ mem_cons_self,
        eq_of_min_eq_max hbits hsame hkey hkey64 hlow hhigh, rfl⟩
    rw [if_neg hminmax]
    by_cases heq : v % 2 ^ bits = key % 2 ^ bits
    · rw [if_pos heq]
      exact .inl ⟨(key, body), mem_append_right _ mem_cons_self, heq, rfl⟩
    rw [if_neg heq]
    by_cases hlt : v % 2 ^ bits < key % 2 ^ bits
    · rw [if_pos hlt]
      have hpos : 0 < key := by
        rcases Nat.eq_zero_or_pos key with rfl | hpos
        · rw [Nat.zero_mod] at hlt
          exact absurd hlt (Nat.not_lt_zero _)
        · exact hpos
      have hmax : (key + 2 ^ 64 - 1) % 2 ^ 64 = key - 1 := by omega
      rw [hmax]
      have hside := ih0 hord0 hsub0 (fun x hx => ⟨(hin0 x hx).1, Nat.le_sub_one_of_lt (hless0 x hx)⟩)
        hlow (.inr (by rw [Nat.sub_add_cancel hpos]; exact ⟨hkey, hlt⟩))
      rcases hside with ⟨x, hx, hxv, hdisp⟩ | ⟨hnone, hdisp⟩
      · exact .inl ⟨x, mem_append_left _ hx, hxv, hdisp⟩
      · refine .inr ⟨?_, hdisp⟩
        rw [forall_mem_append, forall_mem_cons]
        refine ⟨hnone, heq, fun x hx => ?_⟩
        have := hsame key hkey x.1 (hsub1 x hx) (hless1 x hx)
        omega
    · rw [if_neg hlt]
      have hright : ∀ min', (key + 1 < 2 ^ 64 → min' = key + 1) → (key + 1 = 2 ^ 64 → min' = 0) →
          (∃ x ∈ c1.inorder, v % 2 ^ bits = x.1 % 2 ^ bits ∧
            dispatch bits v defaultlabel c1 min' max = x.2) ∨
          ((∀ x ∈ c1.inorder, v % 2 ^ bits ≠ x.1 % 2 ^ bits) ∧
            dispatch bits v defaultlabel c1 min' max = defaultlabel) := by
        intro min' hmin hwrap
        apply ih1 hord1 hsub1 _ _ hhigh
        · intro x hx
          have hx1 := hless1 x hx
          have hx64 := hkeys x.1 (hsub1 x hx)
          have hxmax := (hin1 x hx).2
          have := hmin (by omega)
          omega
        · by_cases hlast : key + 1 = 2 ^ 64
          · exact .inl (hwrap hlast)
          · obtain rfl := hmin (by omega)
            refine .inr ⟨Nat.succ_pos _, ?_⟩
            rw [Nat.add_sub_cancel]
            exact ⟨hkey, by omega⟩
      have hside := hright ((key + 1) % 2 ^ 64) (fun h => Nat.mod_eq_of_lt h)
        (fun h => by rw [h, Nat.mod_self])
      rcases hside with ⟨x, hx, hxv, hdisp⟩ | ⟨hnone, hdisp⟩
      · exact .inl ⟨x, mem_append_right _ (mem_cons_of_mem _ hx), hxv, hdisp⟩
      · refine .inr ⟨?_, hdisp⟩
        rw [forall_mem_append, forall_mem_cons]
        refine ⟨fun x hx => ?_, heq, hnone⟩
        have := hsame x.1 (hsub0 x hx) key hkey (hless0 x hx)
        omega

/-! ### The labels of a statement -/

/-- The constants of the cases. -/
def constants : List Item → List Int
  | [] => []
  | .case c :: is => c :: constants is
  | _ :: is => constants is

/-- The bodies of the cases: the blocks made at their labels, with `id` blocks made before. -/
def caseBlocks (id : Nat) : List Item → List (Int × Nat)
  | [] => []
  | .case c :: is => (c, id + 1) :: caseBlocks (id + 1) is
  | .default :: is => caseBlocks (id + 1) is
  | .stmt blocks :: is => caseBlocks (id + blocks) is

/-- The blocks made at the default labels. -/
def defaultBlocks (id : Nat) : List Item → List Nat
  | [] => []
  | .case _ :: is => defaultBlocks (id + 1) is
  | .default :: is => (id + 1) :: defaultBlocks (id + 1) is
  | .stmt blocks :: is => defaultBlocks (id + blocks) is

/-- The number of blocks made in the end. -/
def endBlock (id : Nat) : List Item → Nat
  | [] => id
  | .case _ :: is => endBlock (id + 1) is
  | .default :: is => endBlock (id + 1) is
  | .stmt blocks :: is => endBlock (id + blocks) is

theorem map_fst_caseBlocks (id : Nat) (items : List Item) :
    (caseBlocks id items).map Prod.fst = constants items := by
  induction items generalizing id with
  | nil => rfl
  | cons i is ih =>
    rcases i with c | _ | n
    · rw [caseBlocks, map_cons, ih, constants]
    · exact ih (id + 1)
    · exact ih (id + n)

theorem constants_append (xs ys : List Item) :
    constants (xs ++ ys) = constants xs ++ constants ys := by
  induction xs with
  | nil => rfl
  | cons i is ih =>
    rcases i with c | _ | n
    · rw [cons_append, constants, ih]
      rfl
    · exact ih
    · exact ih

/-- Blocks are numbered upwards: those of the labels are new and differ from each other. -/
theorem blocks_fresh (id : Nat) (items : List Item) :
    (∀ b ∈ (caseBlocks id items).map Prod.snd ++ defaultBlocks id items,
      id < b ∧ b ≤ endBlock id items) ∧
    ((caseBlocks id items).map Prod.snd ++ defaultBlocks id items).Nodup ∧
      id ≤ endBlock id items := by
  induction items generalizing id with
  | nil => exact ⟨fun b hb => absurd hb not_mem_nil, nodup_nil, le_rfl⟩
  | cons i is ih =>
    rcases i with c | _ | n
    · obtain ⟨hnew, hnodup, hle⟩ := ih (id + 1)
      refine ⟨?_, ?_, by rw [endBlock]; omega⟩
      · rw [caseBlocks, defaultBlocks, map_cons, cons_append, forall_mem_cons,
          endBlock]
        exact ⟨⟨Nat.lt_succ_self id, hle⟩, fun b hb => ⟨by have := hnew b hb; omega,
          (hnew b hb).2⟩⟩
      · rw [caseBlocks, defaultBlocks, map_cons, cons_append, nodup_cons]
        exact ⟨fun hb => lt_irrefl _ (hnew _ hb).1, hnodup⟩
    · obtain ⟨hnew, hnodup, hle⟩ := ih (id + 1)
      have hperm : ((caseBlocks id (.default :: is)).map Prod.snd
          ++ defaultBlocks id (.default :: is)).Perm
            ((id + 1) :: ((caseBlocks (id + 1) is).map Prod.snd
              ++ defaultBlocks (id + 1) is)) := by
        rw [caseBlocks, defaultBlocks]
        exact perm_middle
      refine ⟨fun b hb => ?_, ?_, by rw [endBlock]; omega⟩
      · rw [endBlock]
        rcases mem_cons.mp (hperm.mem_iff.mp hb) with rfl | hb
        · exact ⟨Nat.lt_succ_self id, hle⟩
        · exact ⟨by have := hnew b hb; omega, (hnew b hb).2⟩
      · rw [hperm.nodup_iff, nodup_cons]
        exact ⟨fun hb => lt_irrefl _ (hnew _ hb).1, hnodup⟩
    · obtain ⟨hnew, hnodup, hle⟩ := ih (id + n)
      rw [caseBlocks, defaultBlocks, endBlock]
      exact ⟨fun b hb => ⟨by have := hnew b hb; omega, (hnew b hb).2⟩, hnodup, by omega⟩

/-- The cases entered so far: a balanced and ordered tree of their constants and bodies. -/
structure Entered (s : SwitchCases) (made : List (Int × Nat)) : Prop where
  avl : s.root.Avl
  ordered : Ordered s.root
  entries : s.root.inorder.Perm (made.map fun x => (constU x.1, x.2))

/-- The tree has room for another node. -/
def Room (ptr n : Nat) : Prop := ptr = 8 ∨ ptr = 4 ∧ n ≤ 2 ^ 32

theorem constU_lt (c : Int) : constU c < 2 ^ 64 := by
  unfold constU
  omega

/-- A tree of case constants has at most `2 ^ 64` nodes. -/
theorem Entered.size_le (h : Entered s made) (hroom : Room ptr n) (hn : made.length ≤ n) :
    ptr = 8 ∧ s.root.size ≤ 2 ^ 64 ∨ ptr = 4 ∧ s.root.size ≤ 2 ^ 32 := by
  rcases hroom with hptr | ⟨hptr, hle⟩
  · refine .inl ⟨hptr, ?_⟩
    -- the keys are different numbers of 64 bits
    have hnodup : (s.root.inorder.map Prod.fst).Nodup :=
      h.ordered.imp fun hlt => Nat.ne_of_lt hlt
    have hsub : s.root.inorder.map Prod.fst ⊆ List.range (2 ^ 64) := by
      intro k hk
      obtain ⟨x, hx, rfl⟩ := mem_map.mp hk
      obtain ⟨y, -, rfl⟩ := mem_map.mp (h.entries.mem_iff.mp hx)
      exact mem_range.mpr (constU_lt y.1)
    have hcard := (hnodup.subperm hsub).length_le
    rwa [length_map, HTree.length_inorder, length_range] at hcard
  · refine .inr ⟨hptr, ?_⟩
    rw [← HTree.length_inorder, h.entries.length_eq, length_map]
    omega

/-- The label of a new constant enters it. -/
theorem Entered.case (h : Entered s made) (hroom : Room ptr n) (hn : made.length ≤ n) {c : Int}
    (hnew : constU c ∉ made.map fun x => constU x.1) :
    ∃ root, label ptr s (.case c) = .ok { s with root := root, blockId := s.blockId + 1 } ∧
      Entered { s with root := root, blockId := s.blockId + 1 } (made ++ [(c, s.blockId + 1)]) := by
  have hkeys : constU c ∉ treeKeys s.root := by
    unfold treeKeys
    rw [(h.entries.map Prod.fst).mem_iff, map_map]
    exact hnew
  rcases treeinsert_spec h.avl h.ordered (h.size_le hroom hn) (constU c) (s.blockId + 1) with
    ⟨hold, -⟩ | ⟨-, root, before, after, hins, havl, hord, hbefore, hafter⟩
  · exact absurd hold hkeys
  · refine ⟨root, ?_, havl, hord, ?_⟩
    · unfold label
      dsimp only
      rw [hins]
    · dsimp only
      rw [hafter, map_append]
      refine perm_middle.trans ?_
      rw [← hbefore]
      exact (h.entries.cons _).trans (perm_append_singleton _ _).symm

/-- The labels of a statement with different constants and one default label at most enter all of
    them. -/
theorem labels_spec (hroom : Room ptr n) {items : List Item} (h : Entered s made)
    (hn : made.length + (constants items).length ≤ n)
    (hnew : (made.map (fun x => constU x.1) ++ (constants items).map constU).Nodup)
    (hdefault : s.defaultlabel.toList.length + (defaultBlocks s.blockId items).length ≤ 1) :
    ∃ s', labels ptr s items = .ok s' ∧ Entered s' (made ++ caseBlocks s.blockId items) ∧
      s'.defaultlabel.toList = s.defaultlabel.toList ++ defaultBlocks s.blockId items ∧
      s'.blockId = endBlock s.blockId items := by
  induction items generalizing s made with
  | nil =>
    refine ⟨s, rfl, ?_, (append_nil _).symm, rfl⟩
    rw [caseBlocks, append_nil]
    exact h
  | cons i is ih =>
    rcases i with c | _ | n
    · rw [constants, map_cons] at hnew
      rw [constants, length_cons] at hn
      have hc : constU c ∉ made.map fun x => constU x.1 := fun hmem =>
        (nodup_append.mp hnew).2.2 _ hmem _ mem_cons_self rfl
      obtain ⟨root, hlabel, hentered⟩ := h.case hroom (by omega) hc
      have hnew' : ((made ++ [(c, s.blockId + 1)]).map (fun x => constU x.1)
          ++ (constants is).map constU).Nodup := by
        rw [map_append, append_assoc]
        exact hnew
      obtain ⟨s', hrun, hent, hdef, hid⟩ := ih hentered
        (by rw [length_append, length_singleton]; omega) hnew' hdefault
      refine ⟨s', ?_, ?_, hdef, hid⟩
      · rw [labels, hlabel]
        exact hrun
      · rw [append_assoc] at hent
        exact hent
    · have hnone : s.defaultlabel = none := by
        rw [defaultBlocks, length_cons] at hdefault
        rcases hd : s.defaultlabel with _ | d
        · rfl
        · rw [hd, Option.toList_some, length_singleton] at hdefault
          omega
      rw [hnone, defaultBlocks, length_cons] at hdefault
      obtain ⟨s', hrun, hent, hdef, hid⟩ := ih
        (s := { s with defaultlabel := some (s.blockId + 1), blockId := s.blockId + 1 })
        ⟨h.avl, h.ordered, h.entries⟩ hn hnew (by
          rw [Option.toList_none, length_nil] at hdefault
          show 1 + (defaultBlocks (s.blockId + 1) is).length ≤ 1
          omega)
      refine ⟨s', ?_, hent, ?_, hid⟩
      · rw [labels, label, hnone]
        exact hrun
      · rw [hdef, hnone]
        rfl
    · obtain ⟨s', hrun, hent, hdef, hid⟩ := ih (s := { s with blockId := s.blockId + n })
        ⟨h.avl, h.ordered, h.entries⟩ hn hnew hdefault
      exact ⟨s', hrun, hent, hdef, hid⟩

/-! ### The statement -/

/-- Every value of the type reaches the body of the case whose constant converts to it, or the
    default label where there is none. -/
def Dispatches (sw : Switched) (bits : Nat) (cases : List (Int × Nat)) (defaultlabel : Nat) : Prop :=
  ∀ v : Nat, (∀ x ∈ cases, x.1 % 2 ^ bits = (v : Int) % 2 ^ bits → Reaches sw.code v sw.cond x.2) ∧
    ((∀ x ∈ cases, x.1 % 2 ^ bits ≠ (v : Int) % 2 ^ bits) →
      Reaches sw.code v sw.cond defaultlabel)

theorem follow_mono {target : Nat} (h : follow code v turns env id = some target) (more : Nat) :
    follow code v (turns + more) env id = some target := by
  induction turns generalizing env id with
  | zero => cases h
  | succ turns ih =>
    rw [Nat.succ_add]
    unfold follow at h ⊢
    split at h
    · exact h
    · split at h
      · cases h
      · exact ih h
      · exact ih h

/-- A run ends at one label only. -/
theorem Reaches.unique {target target' : Nat}
    (h : Reaches code v id target) (h' : Reaches code v id target') : target = target' := by
  obtain ⟨turns, h⟩ := h
  obtain ⟨turns', h'⟩ := h'
  have hlong := follow_mono h turns'
  rw [Nat.add_comm, follow_mono h' turns] at hlong
  exact (Option.some.inj hlong).symm

/-- The blocks of the statement lead where its tree leads. -/
theorem reaches_dispatch (cls : Cls) (v : Nat) {root : TreeNode Nat} {d cond made : Nat}
    (hcond : cond ≤ made) (hd : d ≤ made ∧ d ≠ cond)
    (hbodies : ∀ x ∈ root.inorder, x.2 ≤ made ∧ x.2 ≠ cond) :
    Reaches (funcswitch cls root d
      { blocks := [], last := ⟨cond, [], .none⟩, blockId := made, valueId := 0 }).all v cond
      (dispatch cls.bits v d root 0 (2 ^ 64 - 1)) := by
  have hopen : Func.Open { blocks := [], last := ⟨cond, [], .none⟩, blockId := made, valueId := 0 } :=
    ⟨rfl, rfl, hcond⟩
  obtain ⟨new, hnew⟩ := casesearch_spec cls v d root 0 (2 ^ 64 - 1) hopen
  unfold funcswitch
  rw [hnew.all, nil_append]
  have hfind : ∀ b ∈ new, (new.find? fun c => c.id = b.id) = some b := fun b hb =>
    lookupKey_of_mem hnew.nodup hb
  obtain ⟨turns, env', hrun⟩ := hnew.run new hfind fun _ => 0
  refine ⟨turns + 1, (hrun 1).trans ?_⟩
  -- the label is not one of the new blocks
  have hout : dispatch cls.bits v d root 0 (2 ^ 64 - 1) ≤ made ∧
      dispatch cls.bits v d root 0 (2 ^ 64 - 1) ≠ cond := by
    rcases dispatch_mem cls.bits v d root 0 (2 ^ 64 - 1) with heq | hmem
    · rw [heq]
      exact hd
    · obtain ⟨x, hx, hxd⟩ := mem_map.mp hmem
      rw [← hxd]
      exact hbodies x hx
  have hnone : (new.find? fun b => b.id = dispatch cls.bits v d root 0 (2 ^ 64 - 1)) = none := by
    rw [List.find?_eq_none]
    intro b hb heq
    have hid : b.id = dispatch cls.bits v d root 0 (2 ^ 64 - 1) := of_decide_eq_true heq
    have hids : b.id = cond ∨ made < b.id ∧ _ := hnew.ids b hb
    omega
  rw [follow, hnone]

theorem constU_mod (c : Int) (hbits : bits = 32 ∨ bits = 64) (v : Nat) :
    c % 2 ^ bits = (v : Int) % 2 ^ bits ↔ v % 2 ^ bits = constU c % 2 ^ bits := by
  unfold constU
  rcases hbits with rfl | rfl <;> omega

theorem length_defaultBlocks (id : Nat) (items : List Item) :
    (defaultBlocks id items).length = items.count .default := by
  induction items generalizing id with
  | nil => rfl
  | cons i is ih =>
    rcases i with c | _ | n
    · rw [defaultBlocks, ih, count_cons_of_ne (by simp)]
    · rw [defaultBlocks, length_cons, ih, count_cons_self]
    · rw [defaultBlocks, ih, count_cons_of_ne (by simp)]

theorem nodup_constU (hbits : bits = 32 ∨ bits = 64) {cs : List Int}
    (h : (cs.map fun c => c % 2 ^ bits).Nodup) : (cs.map constU).Nodup := by
  rw [List.Nodup, pairwise_map] at h ⊢
  refine h.imp fun {a b} hne heq => hne ?_
  unfold constU at heq
  rcases hbits with rfl | rfl <;> omega

theorem bits_cases (cls : Cls) : cls.bits = 32 ∨ cls.bits = 64 := by
  rcases cls with _ | _
  · exact .inl rfl
  · exact .inr rfl

/-- The labels of a statement, from its beginning on. -/
theorem labels_init {ptr n : Nat} (hroom : Room ptr n) {id : Nat} {items : List Item}
    (hn : (constants items).length ≤ n) (hnew : ((constants items).map constU).Nodup)
    (hdefault : items.count .default ≤ 1) :
    ∃ s, labels ptr (.init id) items = .ok s ∧ Entered s (caseBlocks id items) ∧
      s.defaultlabel.toList = defaultBlocks id items ∧ s.blockId = endBlock id items := by
  have hstart : Entered (.init id) [] := ⟨trivial, List.Pairwise.nil, List.Perm.nil⟩
  exact labels_spec hroom hstart (by rwa [length_nil, Nat.zero_add])
    (by rwa [map_nil, nil_append])
    (by
      show 0 + (defaultBlocks id items).length ≤ 1
      rwa [Nat.zero_add, length_defaultBlocks])

/-- What a statement leaves: the cases entered, and blocks that lead where their tree leads. -/
theorem switchStmt_spec {ptr : Nat} {cls : Cls} {id : Nat} {items : List Item}
    (hroom : Room ptr (constants items).length)
    (hdistinct : ((constants items).map fun c => c % 2 ^ cls.bits).Nodup)
    (hdefault : items.count .default ≤ 1) :
    ∃ sw, switchStmt ptr cls id items = .ok sw ∧ Entered sw.cases (caseBlocks (id + 2) items) ∧
      ∀ v target, Reaches sw.code v sw.cond target ↔
        target = dispatch cls.bits v ((defaultBlocks (id + 2) items).headD (id + 2)) sw.cases.root 0
          (2 ^ 64 - 1) := by
  obtain ⟨s, hrun, hent, hdef, hid⟩ := @labels_init ptr _ hroom (id + 2) items le_rfl
    (nodup_constU (bits_cases cls) hdistinct) hdefault
  obtain ⟨hfresh, -, hend⟩ := blocks_fresh (id + 2) items
  have hlabel : s.defaultlabel.getD (id + 2) = (defaultBlocks (id + 2) items).headD (id + 2) := by
    rw [← hdef]
    rcases s.defaultlabel with _ | d <;> rfl
  obtain ⟨sw, hsw⟩ : ∃ sw, switchStmt ptr cls id items = .ok sw := by
    unfold switchStmt
    rw [hrun]
    exact ⟨_, rfl⟩
  have hfields : sw.cases = s ∧ sw.cond = id + 1 ∧
      sw.code = (funcswitch cls s.root ((defaultBlocks (id + 2) items).headD (id + 2))
        { blocks := [], last := ⟨id + 1, [], .none⟩, blockId := s.blockId, valueId := 0 }).all := by
    unfold switchStmt at hsw
    rw [hrun] at hsw
    dsimp only at hsw
    rw [hlabel] at hsw
    cases hsw
    exact ⟨rfl, rfl, rfl⟩
  obtain ⟨rfl, hcond, hcode⟩ := hfields
  have hreach : ∀ v, Reaches sw.code v sw.cond (dispatch cls.bits v
      ((defaultBlocks (id + 2) items).headD (id + 2)) sw.cases.root 0 (2 ^ 64 - 1)) := by
    intro v
    rw [hcode, hcond]
    apply reaches_dispatch cls v (by omega)
    · rcases hblocks : defaultBlocks (id + 2) items with _ | ⟨d, ds⟩
      · exact ⟨by show id + 2 ≤ _; omega, by show id + 2 ≠ _; omega⟩
      · have hd := hfresh d (mem_append_right _ (by rw [hblocks]; exact mem_cons_self))
        exact ⟨by show d ≤ _; omega, by show d ≠ _; omega⟩
    · intro x hx
      obtain ⟨y, hy, rfl⟩ := mem_map.mp (hent.entries.mem_iff.mp hx)
      have hb := hfresh y.2 (mem_append_left _ (mem_map.mpr ⟨y, hy, rfl⟩))
      exact ⟨by dsimp only; omega, by dsimp only; omega⟩
  refine ⟨sw, hsw, hent, fun v target => ⟨fun h => h.unique (hreach v), ?_⟩⟩
  rintro rfl
  exact hreach v

/-- Ordered keys whose low bits ascend too have the same order in these bits. -/
theorem sameOrder_of_ascend {t : TreeNode Nat} (hord : Ordered t)
    (h : (t.inorder.map fun x => x.1 % 2 ^ bits).Pairwise (· < ·)) :
    SameOrder bits (t.inorder.map Prod.fst) := by
  unfold Ordered at hord
  rw [pairwise_map] at hord h
  have hboth : t.inorder.Pairwise fun x y =>
      (x.1 < y.1 → x.1 % 2 ^ bits < y.1 % 2 ^ bits) ∧
        (y.1 < x.1 → y.1 % 2 ^ bits < x.1 % 2 ^ bits) :=
    (hord.and h).imp fun hxy => ⟨fun _ => hxy.2, fun hlt => absurd hlt (Nat.lt_asymm hxy.1)⟩
  have hsymm : Std.Symm fun x y : Nat × Nat =>
      (x.1 < y.1 → x.1 % 2 ^ bits < y.1 % 2 ^ bits) ∧
        (y.1 < x.1 → y.1 % 2 ^ bits < x.1 % 2 ^ bits) := ⟨fun _ _ hxy => ⟨hxy.2, hxy.1⟩⟩
  intro k hk k' hk' hlt
  obtain ⟨x, hx, rfl⟩ := mem_map.mp hk
  obtain ⟨y, hy, rfl⟩ := mem_map.mp hk'
  have hall := hboth.forall_of_forall
    (fun z _ => ⟨fun hz => absurd hz (lt_irrefl _), fun hz => absurd hz (lt_irrefl _)⟩) hx hy
  exact hall.1 hlt

/-- A `switch` over different constants enters them into trees that stay ordered and balanced within
    the array of `treeinsert`; and every value reaches the body of its case, or the default label,
    exactly where the constants have the same order in the width of the type as in 64 bits. -/
theorem switch_dispatch_iff {ptr : Nat} {cls : Cls} {id : Nat} {items : List Item}
    (hroom : Room ptr (constants items).length)
    (hdistinct : ((constants items).map fun c => c % 2 ^ cls.bits).Nodup)
    (hdefault : items.count .default ≤ 1) :
    ((∀ pre post, items = pre ++ post → ∃ s, labels ptr (.init (id + 2)) pre = .ok s ∧
        s.root.Avl ∧ Ordered s.root) ∧
      ∃ sw, switchStmt ptr cls id items = .ok sw ∧
        Dispatches sw cls.bits (caseBlocks (id + 2) items)
          ((defaultBlocks (id + 2) items).headD (id + 2))) ↔
    SameOrder cls.bits ((constants items).map constU) := by
  have hbits := bits_cases cls
  obtain ⟨sw, hsw, hent, hreach⟩ := @switchStmt_spec ptr cls id items hroom hdistinct hdefault
  obtain ⟨hfresh, hnodup, -⟩ := blocks_fresh (id + 2) items
  have hkeys : (sw.cases.root.inorder.map Prod.fst).Perm ((constants items).map constU) := by
    rw [← map_fst_caseBlocks (id + 2) items, map_map]
    have hperm := hent.entries.map Prod.fst
    rwa [map_map] at hperm
  have hbodies : (sw.cases.root.inorder.map Prod.snd).Perm
      ((caseBlocks (id + 2) items).map Prod.snd) := by
    have hperm := hent.entries.map Prod.snd
    rwa [map_map] at hperm
  -- the case of a node, and the node of a case
  have hnode : ∀ x ∈ sw.cases.root.inorder, ∃ c, (c, x.2) ∈ caseBlocks (id + 2) items ∧
      x.1 = constU c := by
    intro x hx
    obtain ⟨y, hy, rfl⟩ := mem_map.mp (hent.entries.mem_iff.mp hx)
    exact ⟨y.1, hy, rfl⟩
  constructor
  · rintro ⟨-, sw', hsw', hdisp⟩
    cases hsw.symm.trans hsw'
    have hnew : (defaultBlocks (id + 2) items).headD (id + 2)
        ∉ sw.cases.root.inorder.map Prod.snd := by
      rw [hbodies.mem_iff]
      intro hmem
      rcases hblocks : defaultBlocks (id + 2) items with _ | ⟨d, ds⟩
      · rw [hblocks] at hmem
        exact lt_irrefl _ (hfresh _ (mem_append_left _ hmem)).1
      · rw [hblocks] at hmem
        exact (nodup_append.mp hnodup).2.2 d hmem d
          (by rw [hblocks]; exact mem_cons_self) rfl
    have hascend := @ascend_of_dispatch cls.bits _ sw.cases.root 0 (2 ^ 64 - 1)
      (hbodies.nodup_iff.mpr (nodup_append.mp hnodup).1) hnew fun x hx => by
        obtain ⟨c, hc, hkey⟩ := hnode x hx
        have hown := (hdisp x.1).1 (c, x.2) hc ((constU_mod c hbits x.1).mpr (by rw [hkey]))
        exact ((hreach _ _).mp hown).symm
    have hsame := sameOrder_of_ascend hent.ordered hascend
    exact fun k hk k' hk' => hsame k (hkeys.mem_iff.mpr hk) k' (hkeys.mem_iff.mpr hk')
  · intro hsame
    refine ⟨?_, sw, hsw, fun v => ?_⟩
    · intro pre post hsplit
      have hconst : constants items = constants pre ++ constants post := by
        rw [hsplit, constants_append]
      have hnodup64 := nodup_constU hbits hdistinct
      rw [hconst, map_append] at hnodup64
      rw [hsplit, count_append] at hdefault
      obtain ⟨s, hrun, hent', -, -⟩ := @labels_init ptr _ hroom (id + 2) pre
        (by rw [hconst, length_append]; exact Nat.le_add_right _ _)
        (nodup_append.mp hnodup64).1 (by omega)
      exact ⟨s, hrun, hent'.avl, hent'.ordered⟩
    have hlead := @dispatch_spec cls.bits hbits ((constants items).map constU) hsame
      (by
        intro k hk
        obtain ⟨c, -, rfl⟩ := mem_map.mp hk
        exact constU_lt c)
      v ((defaultBlocks (id + 2) items).headD (id + 2)) sw.cases.root hent.ordered
      (fun x hx => hkeys.mem_iff.mp (mem_map.mpr ⟨x, hx, rfl⟩)) 0 (2 ^ 64 - 1)
      (by
        intro x hx
        obtain ⟨c, -, hkey⟩ := hnode x hx
        have := constU_lt c
        omega)
      (.inl rfl) (.inl rfl)
    constructor
    · intro x hx hxv
      have hxin : (constU x.1, x.2) ∈ sw.cases.root.inorder :=
        hent.entries.mem_iff.mpr (mem_map.mpr ⟨x, hx, rfl⟩)
      rw [hreach]
      rw [constU_mod x.1 hbits] at hxv
      rcases hlead with ⟨y, hy, hyv, hdisp⟩ | ⟨hnone, -⟩
      · obtain ⟨c, hc, hkey⟩ := hnode y hy
        -- one case only has a constant that converts to the value
        have hinj := inj_on_of_nodup_map (f := fun z : Int × Nat => z.1 % 2 ^ cls.bits)
          (l := caseBlocks (id + 2) items) (by
            have hmap := map_fst_caseBlocks (id + 2) items
            rw [← hmap, map_map] at hdistinct
            exact hdistinct) hx hc (by
            rw [hkey] at hyv
            have h1 := (constU_mod x.1 hbits v).mpr hxv
            have h2 := (constU_mod c hbits v).mpr hyv
            exact h1.trans h2.symm)
        rw [hdisp, hinj]
      · exact absurd hxv (hnone _ hxin)
    · intro hnone
      rw [hreach]
      rcases hlead with ⟨y, hy, hyv, -⟩ | ⟨-, hdisp⟩
      · obtain ⟨c, hc, hkey⟩ := hnode y hy
        rw [hkey] at hyv
        exact absurd ((constU_mod c hbits v).mpr hyv) (hnone _ hc)
      · exact hdisp.symm

/-- Constants that are all values of `int`, or all values of `unsigned int`, are compared in the
    order of their tree. -/
theorem sameOrder_word {cs : List Int}
    (h : (∀ c ∈ cs, -2 ^ 31 ≤ c ∧ c < 2 ^ 31) ∨ ∀ c ∈ cs, 0 ≤ c ∧ c < 2 ^ 32) :
    SameOrder (Cls.bits .w) (cs.map constU) := by
  intro k hk k' hk' hlt
  obtain ⟨c, hc, rfl⟩ := mem_map.mp hk
  obtain ⟨c', hc', rfl⟩ := mem_map.mp hk'
  show constU c % 2 ^ 32 < constU c' % 2 ^ 32
  unfold constU at hlt ⊢
  rcases h with h | h
  · have := h c hc
    have := h c' hc'
    omega
  · have := h c hc
    have := h c' hc'
    omega

/-- `case 1`, the default label, two other blocks, `case -1`. -/
theorem switch_dispatch_two :
    ∃ sw, switchStmt 8 .w 0 [.case 1, .default, .stmt 2, .case (-1)] = .ok sw ∧
      Dispatches sw 32 [(1, 3), (-1, 7)] 4 :=
  ((switch_dispatch_iff (.inl rfl) (by decide) (by decide)).mpr
    (sameOrder_word (.inl (by decide)))).2

/-- In a `switch` over an `unsigned int`, `case -2` stands behind `case 4294967295` in the tree, and
    before it in 32 bits: the second case is never reached. -/
theorem switch_loses_case :
    ([-2, 4294967295].map fun c : Int => c % 2 ^ 32).Nodup ∧
    ∃ sw, switchStmt 8 .w 0 [.case (-2), .case 4294967295] = .ok sw ∧
      Reaches sw.code 4294967295 sw.cond sw.join ∧
        ¬ Dispatches sw 32 [(-2, 3), (4294967295, 4)] sw.join := by
  have hrun : ((switchStmt 8 .w 0 [.case (-2), .case 4294967295]).toOption.bind fun sw =>
      (follow sw.code 4294967295 5 (fun _ => 0) sw.cond).map fun l => (l, sw.join))
        = some (2, 2) := by decide
  refine ⟨by decide, ?_⟩
  rcases hsw : switchStmt 8 .w 0 [.case (-2), .case 4294967295] with e | sw
  · rw [hsw] at hrun
    cases hrun
  rw [hsw] at hrun
  obtain ⟨l, hl, heq⟩ := Option.map_eq_some_iff.mp (show Option.map _ _ = _ from hrun)
  obtain ⟨rfl, hjoin⟩ := Prod.mk.inj heq
  have hreach : Reaches sw.code 4294967295 sw.cond 2 := ⟨5, hl⟩
  refine ⟨sw, rfl, hjoin ▸ hreach, fun hdisp => ?_⟩
  have hcase := (hdisp 4294967295).1 (4294967295, 4) (by simp) rfl
  exact absurd (hreach.unique hcase) (by decide)

end MeuOS.Mcc
