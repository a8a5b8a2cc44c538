import MeuOS.Compress.Huffman

namespace MeuOS.Compress

open MeuOS.Lib List

/-!
# The tree of the Huffman coder

Whatever the frequencies, `build_tree` joins one leaf for each symbol into one tree, and the
lengths that `calc_lengths` reads off it are those of a complete code.

* `heapPush_perm`, `heapPop_perm` — the heap keeps its entries;
* `buildTree_full` — the tree of two symbols or more: every symbol once, every node two children;
* `fullTree_kraft` — the depths of the leaves of such a tree have Kraft sum one;
* `sortedSyms_perm` — the sorted list of symbols and lengths is a list of its leaves.
-/

/-! ### The heap keeps its entries -/

theorem heapSwap_perm (heap : List HufHeap) (i j : Nat) : (heapSwap heap i j).Perm heap := by
  unfold heapSwap
  rcases hi : heap[i]? with _ | a
  · rfl
  rcases hj : heap[j]? with _ | b
  · rfl
  obtain ⟨hi', rfl⟩ := List.getElem?_eq_some_iff.mp hi
  obtain ⟨hj', rfl⟩ := List.getElem?_eq_some_iff.mp hj
  exact set_set_perm hi' hj'

theorem heapSiftUp_perm (turns : Nat) (heap : List HufHeap) (i : Nat) :
    (heapSiftUp turns heap i).Perm heap := by
  induction turns generalizing heap i with
  | zero => rfl
  | succ turns ih =>
    unfold heapSiftUp
    split
    · dsimp only
      split
      · rfl
      · exact (ih _ _).trans (heapSwap_perm heap _ _)
    · rfl

theorem heapSiftDown_perm (turns : Nat) (heap : List HufHeap) (i : Nat) :
    (heapSiftDown turns heap i).Perm heap := by
  induction turns generalizing heap i with
  | zero => rfl
  | succ turns ih =>
    unfold heapSiftDown
    split
    · rfl
    · exact (ih _ _).trans (heapSwap_perm heap _ _)

theorem heapPush_perm (heap : List HufHeap) (e : HufHeap) : (heapPush heap e).Perm (e :: heap) :=
  (heapSiftUp_perm _ _ _).trans (perm_append_singleton e heap)

variable {heap : List HufHeap} {t : Trie UInt8} {depth : Nat} {lengths : UInt8 → Nat}

/-- Popping takes an entry. -/
theorem heapPop_perm {heap' : List HufHeap} {e : HufHeap}
    (h : heapPop heap = some (e, heap')) : heap.Perm (e :: heap') := by
  rcases heap with _ | ⟨e', rest⟩
  · cases h
  unfold heapPop at h
  dsimp only at h
  rcases hlast : rest.getLast? with _ | last
  · rw [hlast] at h
    cases h
    rw [getLast?_eq_none_iff.mp hlast]
  · rw [hlast] at h
    cases h
    obtain ⟨front, rfl⟩ := getLast?_eq_some_iff.mp hlast
    refine List.Perm.cons _ ?_
    rw [dropLast_concat]
    exact (perm_append_singleton last front).trans (heapSiftDown_perm _ _ _).symm

theorem heapPop_of_ne_nil (h : heap ≠ []) :
    ∃ e heap', heapPop heap = some (e, heap') := by
  rcases heap with _ | ⟨e, rest⟩
  · exact absurd rfl h
  · unfold heapPop
    dsimp only
    rcases rest.getLast? with _ | last
    · exact ⟨e, [], rfl⟩
    · exact ⟨e, _, rfl⟩

/-! ### The joined tree -/

/-- The leaves from left to right with their depths, in the order in which `calc_lengths` visits
    them. -/
def leafList : Trie UInt8 → Nat → List (UInt8 × Nat)
  | .nil, _ => []
  | .node (some s) _ _, depth => [(s, depth)]
  | .node none l r, depth => leafList l (depth + 1) ++ leafList r (depth + 1)

/-- The symbols of the leaves. -/
def treeSyms : Trie UInt8 → List UInt8
  | .nil => []
  | .node (some s) _ _ => [s]
  | .node none l r => treeSyms l ++ treeSyms r

/-- Every node is a leaf with a symbol or has two children. -/
def FullTree : Trie UInt8 → Prop
  | .nil => False
  | .node (some _) l r => l = .nil ∧ r = .nil
  | .node none l r => FullTree l ∧ FullTree r

theorem map_fst_leafList (t : Trie UInt8) (depth : Nat) :
    (leafList t depth).map Prod.fst = treeSyms t := by
  induction t generalizing depth with
  | nil => rfl
  | node o l r ihl ihr =>
    rcases o with _ | s
    · rw [leafList, map_append, ihl, ihr]
      rfl
    · rfl

/-- The symbols of all trees of a heap. -/
def heapSyms (heap : List HufHeap) : List UInt8 := heap.flatMap fun e => treeSyms e.node

theorem heapSyms_perm {heap' : List HufHeap} (h : heap.Perm heap') :
    (heapSyms heap).Perm (heapSyms heap') := h.flatMap_right _

/-- One join keeps the symbols and the shape, and shortens the heap by one. -/
theorem join_step {h₁ h₂ : List HufHeap} {a b : HufHeap} (freq : UInt32)
    (ha : heapPop heap = some (a, h₁)) (hb : heapPop h₁ = some (b, h₂))
    (hfull : ∀ e ∈ heap, FullTree e.node) :
    (heapSyms (heapPush h₂ ⟨freq, .node none a.node b.node⟩)).Perm (heapSyms heap) ∧
      (∀ e ∈ heapPush h₂ ⟨freq, .node none a.node b.node⟩, FullTree e.node) ∧
      (heapPush h₂ ⟨freq, .node none a.node b.node⟩).length + 1 = heap.length := by
  have hperm : heap.Perm (a :: b :: h₂) :=
    (heapPop_perm ha).trans ((heapPop_perm hb).cons a)
  have hpush := heapPush_perm h₂ ⟨freq, .node none a.node b.node⟩
  refine ⟨?_, ?_, ?_⟩
  · refine (heapSyms_perm hpush).trans ((heapSyms_perm hperm).trans ?_).symm
    unfold heapSyms
    rw [flatMap_cons, flatMap_cons, flatMap_cons, ← append_assoc]
    rfl
  · intro e he
    rcases mem_cons.mp (hpush.mem_iff.mp he) with rfl | he
    · refine ⟨hfull a (hperm.mem_iff.mpr mem_cons_self), hfull b (hperm.mem_iff.mpr ?_)⟩
      exact mem_cons_of_mem _ mem_cons_self
    · apply hfull e (hperm.mem_iff.mpr _)
      exact mem_cons_of_mem _ (mem_cons_of_mem _ he)
  · rw [hpush.length_eq, hperm.length_eq, length_cons, length_cons, length_cons]

/-- Joining ends with one tree that has all symbols. -/
theorem joinHeap_spec (turns : Nat) (hne : heap ≠ [])
    (hturns : heap.length ≤ turns + 1) (hfull : ∀ e ∈ heap, FullTree e.node) :
    ∃ e, joinHeap turns heap = [e] ∧ FullTree e.node ∧ (treeSyms e.node).Perm (heapSyms heap) := by
  induction turns generalizing heap with
  | zero =>
    rcases heap with _ | ⟨e, rest⟩
    · exact absurd rfl hne
    · have hnil : rest = [] := length_eq_zero_iff.mp (by
        rw [length_cons] at hturns
        omega)
      subst hnil
      refine ⟨e, rfl, hfull e mem_cons_self, ?_⟩
      simp [heapSyms]
  | succ turns ih =>
    unfold joinHeap
    by_cases hlong : heap.length > 1
    · rw [if_pos hlong]
      obtain ⟨a, h₁, ha⟩ := heapPop_of_ne_nil hne
      have hlen := (heapPop_perm ha).length_eq
      rw [length_cons] at hlen
      have hne₁ : h₁ ≠ [] := by
        rintro rfl
        rw [hlen] at hlong
        exact absurd hlong (by decide)
      obtain ⟨b, h₂, hb⟩ := heapPop_of_ne_nil hne₁
      obtain ⟨hsyms, hfull', hlen'⟩ := join_step (a.freq + b.freq) ha hb hfull
      rw [ha]
      dsimp only
      rw [hb]
      have hne' : heapPush h₂ ⟨a.freq + b.freq, .node none a.node b.node⟩ ≠ [] := by
        intro hnil
        rw [hnil] at hlen'
        rw [← hlen'] at hlong
        exact absurd hlong (by decide)
      obtain ⟨e, he, hefull, hesyms⟩ := ih hne' (by omega) hfull'
      exact ⟨e, he, hefull, hesyms.trans hsyms⟩
    · rw [if_neg hlong]
      rcases heap with _ | ⟨e, rest⟩
      · exact absurd rfl hne
      · have hnil : rest = [] := length_eq_zero_iff.mp (by
          rw [length_cons] at hlong
          omega)
        subst hnil
        refine ⟨e, rfl, hfull e mem_cons_self, ?_⟩
        simp [heapSyms]

/-- The heap of leaves: one for each symbol that occurs. -/
theorem leafHeap_spec (input : Bytes) :
    (heapSyms (leafHeap input)).Perm (allBytes.filter fun s => hufFreq input s > 0) ∧
      (∀ e ∈ leafHeap input, FullTree e.node) ∧
      (leafHeap input).length = (allBytes.filter fun s => hufFreq input s > 0).length := by
  have hfold : ∀ (syms : Bytes) (heap : List HufHeap), (∀ e ∈ heap, FullTree e.node) →
      let heap' := syms.foldl
        (fun heap sym =>
          if hufFreq input sym > 0 then
            heapPush heap { freq := hufFreq input sym, node := .node (some sym) .nil .nil }
          else heap) heap
      (heapSyms heap').Perm (heapSyms heap ++ syms.filter fun s => hufFreq input s > 0) ∧
        (∀ e ∈ heap', FullTree e.node) ∧
        heap'.length = heap.length + (syms.filter fun s => hufFreq input s > 0).length := by
    intro syms
    induction syms with
    | nil =>
      intro heap hfull
      refine ⟨?_, hfull, rfl⟩
      rw [foldl_nil, filter_nil, append_nil]
    | cons sym syms ih =>
      intro heap hfull
      rw [foldl_cons]
      by_cases hsym : hufFreq input sym > 0
      · have hpush := heapPush_perm heap
          { freq := hufFreq input sym, node := .node (some sym) .nil .nil }
        rw [if_pos hsym, filter_cons_of_pos (by simpa using hsym)]
        obtain ⟨hp, hf, hl⟩ := ih _ (fun e he => by
          rcases mem_cons.mp (hpush.mem_iff.mp he) with rfl | he
          · exact ⟨rfl, rfl⟩
          · exact hfull e he)
        refine ⟨hp.trans ?_, hf, ?_⟩
        · refine ((heapSyms_perm hpush).append_right _).trans ?_
          exact perm_middle.symm
        · rw [hl, hpush.length_eq, length_cons, length_cons]
          omega
      · rw [if_neg hsym, filter_cons_of_neg (by simpa using hsym)]
        exact ih heap hfull
  have h := hfold allBytes [] (fun e he => by cases he)
  obtain ⟨hp, hf, hl⟩ := h
  exact ⟨hp, hf, hl.trans (Nat.zero_add _)⟩

/-- The tree of two symbols or more has every symbol once and is full. -/
theorem buildTree_full {input : Bytes}
    (h : 2 ≤ (allBytes.filter fun s => hufFreq input s > 0).length) :
    ∃ t, buildTree input = some t ∧ FullTree t ∧
      (treeSyms t).Perm (allBytes.filter fun s => hufFreq input s > 0) ∧
      2 ≤ (treeSyms t).length := by
  obtain ⟨hsyms, hfull, hlen⟩ := leafHeap_spec input
  unfold buildTree
  rcases hheap : leafHeap input with _ | ⟨e, _ | ⟨e', rest⟩⟩
  · rw [hheap] at hlen
    rw [← hlen] at h
    cases h
  · rw [hheap] at hlen
    rw [← hlen] at h
    exact absurd h (show ¬ 2 ≤ 1 by decide)
  · rw [hheap] at hsyms hfull hlen
    obtain ⟨r, hjoin, hrfull, hrsyms⟩ := joinHeap_spec (e :: e' :: rest).length
      (cons_ne_nil _ _) (Nat.le_succ _) hfull
    dsimp only
    rw [hjoin]
    have hperm := hrsyms.trans hsyms
    exact ⟨r.node, rfl, hrfull, hperm, hperm.length_eq.symm ▸ h⟩

/-! ### Depths -/

theorem leafList_depth (t : Trie UInt8) (depth : Nat) : ∀ x ∈ leafList t depth, depth ≤ x.2 := by
  induction t generalizing depth with
  | nil =>
    intro x hx
    cases hx
  | node o l r ihl ihr =>
    intro x hx
    rcases o with _ | s
    · rcases mem_append.mp hx with hx | hx
      · exact Nat.le_of_succ_le (ihl _ x hx)
      · exact Nat.le_of_succ_le (ihr _ x hx)
    · obtain rfl := mem_singleton.mp hx
      exact le_rfl

theorem leafList_ne_nil (h : FullTree t) (depth : Nat) : leafList t depth ≠ [] := by
  induction t generalizing depth with
  | nil => exact h.elim
  | node o l r ihl ihr =>
    rcases o with _ | s
    · exact append_ne_nil_of_left_ne_nil (ihl h.1 _) _
    · exact cons_ne_nil _ _

/-- The leaves of a full tree have Kraft sum one. -/
theorem fullTree_kraft {M : Nat} (h : FullTree t) (hM : ∀ x ∈ leafList t depth, x.2 ≤ M) :
    kraftSum M ((leafList t depth).map Prod.snd) = 2 ^ (M - depth) := by
  induction t generalizing depth with
  | nil => exact h.elim
  | node o l r ihl ihr =>
    rcases o with _ | s
    · have hl := ihl h.1 fun x hx => hM x (mem_append_left _ hx)
      have hr := ihr h.2 fun x hx => hM x (mem_append_right _ hx)
      -- a leaf below this node bounds its depth
      obtain ⟨x, hx⟩ := exists_mem_of_ne_nil _ (leafList_ne_nil h.1 (depth + 1))
      have hdepth := leafList_depth l (depth + 1) x hx
      have hxM := hM x (mem_append_left _ hx)
      unfold kraftSum at hl hr ⊢
      rw [leafList, map_append, map_append, sum_append, hl, hr,
        show M - depth = M - (depth + 1) + 1 by omega, Nat.pow_succ]
      omega
    · simp [leafList, kraftSum]

/-- `calc_lengths` leaves the lengths of other symbols alone. -/
theorem calcLengths_of_notMem {s : UInt8}
    (h : s ∉ treeSyms t) : calcLengths t depth lengths s = lengths s := by
  induction t generalizing depth lengths with
  | nil => rfl
  | node o l r ihl ihr =>
    rcases o with _ | s'
    · rw [treeSyms, mem_append, not_or] at h
      rw [calcLengths, ihr h.2, ihl h.1]
    · rw [treeSyms, mem_singleton] at h
      exact Function.update_of_ne h _ _

/-- `calc_lengths` sets the length of a symbol to the depth of its leaf. -/
theorem calcLengths_of_mem
    (hn : (treeSyms t).Nodup) {x : UInt8 × Nat} (hx : x ∈ leafList t depth) (hpos : 0 < x.2) :
    calcLengths t depth lengths x.1 = x.2 := by
  induction t generalizing depth lengths with
  | nil => cases hx
  | node o l r ihl ihr =>
    rcases o with _ | s
    · rw [treeSyms, nodup_append] at hn
      rcases mem_append.mp hx with hx | hx
      · -- the right side does not have the symbol
        have hmem : x.1 ∈ treeSyms l := by
          rw [← map_fst_leafList l (depth + 1)]
          exact mem_map.mpr ⟨x, hx, rfl⟩
        have hnot : x.1 ∉ treeSyms r := fun hr => hn.2.2 _ hmem _ hr rfl
        rw [calcLengths, calcLengths_of_notMem hnot]
        exact ihl hn.1 hx
      · exact ihr hn.2.1 hx
    · obtain rfl := mem_singleton.mp hx
      rw [calcLengths, Function.update_self]
      exact if_pos hpos

/-! ### The sorted list -/

theorem mem_allBytes (s : UInt8) : s ∈ allBytes := by
  unfold allBytes
  rw [mem_map]
  exact ⟨s.toNat, mem_range.mpr s.toNat_lt, UInt8.ofNat_toNat⟩

theorem length_allBytes : allBytes.length = 256 := by
  unfold allBytes
  rw [length_map, length_range]

theorem nodup_allBytes : allBytes.Nodup := by
  refine Nodup.map_on (fun i hi j hj h => ?_) nodup_range
  rw [mem_range] at hi hj
  have h := congrArg UInt8.toNat h
  rw [UInt8.toNat_ofNat', UInt8.toNat_ofNat'] at h
  omega

/-- The sorted list of symbols and lengths has the symbols with a length. -/
theorem mem_sortedSyms {x : UInt8 × Nat} :
    x ∈ sortedSyms lengths ↔ 0 < x.2 ∧ lengths x.1 = x.2 := by
  unfold sortedSyms
  rw [mem_insertionSort, mem_map]
  constructor
  · rintro ⟨s, hs, rfl⟩
    rw [mem_filter] at hs
    exact ⟨by simpa using hs.2, rfl⟩
  · rintro ⟨hpos, hx⟩
    refine ⟨x.1, mem_filter.mpr ⟨mem_allBytes _, ?_⟩, ?_⟩
    · simpa [hx] using hpos
    · rw [hx]

theorem nodup_sortedSyms (lengths : UInt8 → Nat) :
    ((sortedSyms lengths).map Prod.fst).Nodup := by
  unfold sortedSyms
  refine ((perm_insertionSort slLe _).map Prod.fst).nodup_iff.mpr ?_
  rw [map_map]
  show ((allBytes.filter fun s => lengths s > 0).map id).Nodup
  rw [map_id]
  exact nodup_allBytes.filter _

instance : Std.Total slLe := ⟨fun a b => by
  unfold slLe
  rcases Nat.lt_trichotomy a.2 b.2 with h | h | h
  · exact .inl (.inl h)
  · rcases UInt8.le_total a.1 b.1 with h' | h'
    · exact .inl (.inr ⟨h, h'⟩)
    · exact .inr (.inr ⟨h.symm, h'⟩)
  · exact .inr (.inl h)⟩

instance : IsTrans (UInt8 × Nat) slLe := ⟨fun a b c hab hbc => by
  unfold slLe at *
  rcases hab with hab | ⟨hab, hab'⟩
  · rcases hbc with hbc | ⟨hbc, -⟩
    · exact .inl (hab.trans hbc)
    · exact .inl (hbc ▸ hab)
  · rcases hbc with hbc | ⟨hbc, hbc'⟩
    · exact .inl (hab ▸ hbc)
    · exact .inr ⟨hab.trans hbc, UInt8.le_trans hab' hbc'⟩⟩

/-- Lengths ascend in the sorted list. -/
theorem sortedSyms_ascends {M : Nat} (hM : ∀ s, lengths s ≤ M) :
    Ascends 0 M ((sortedSyms lengths).map Prod.snd) := by
  refine ⟨?_, ?_⟩
  · rw [pairwise_map]
    refine (pairwise_insertionSort slLe _).imp ?_
    rintro a b (h | h)
    · exact h.le
    · exact h.1.le
  · intro l hl
    obtain ⟨x, hx, rfl⟩ := mem_map.mp hl
    obtain ⟨-, hlen⟩ := mem_sortedSyms.mp hx
    exact ⟨Nat.zero_le _, hlen ▸ hM x.1⟩

/-- The sorted list is a list of the leaves of a tree with two symbols or more. -/
theorem sortedSyms_perm (h : FullTree t) (hn : (treeSyms t).Nodup)
    (htwo : 2 ≤ (treeSyms t).length) :
    (sortedSyms (calcLengths t 0 fun _ => 0)).Perm (leafList t 0) := by
  have hpos : ∀ x ∈ leafList t 0, 0 < x.2 := by
    rcases t with _ | ⟨_ | s, l, r⟩
    · exact h.elim
    · intro x hx
      rcases mem_append.mp hx with hx | hx
      · exact leafList_depth l 1 x hx
      · exact leafList_depth r 1 x hx
    · exact absurd htwo (show ¬ 2 ≤ 1 by decide)
  have hleaves : (leafList t 0).Nodup := by
    have hmap := hn
    rw [← map_fst_leafList t 0] at hmap
    exact hmap.of_map _
  refine (perm_ext_iff_of_nodup ((nodup_sortedSyms _).of_map _) hleaves).mpr ?_
  intro x
  rw [mem_sortedSyms]
  constructor
  · rintro ⟨hx, hlen⟩
    have hmem : x.1 ∈ treeSyms t := by
      by_contra hnot
      rw [calcLengths_of_notMem hnot] at hlen
      omega
    rw [← map_fst_leafList t 0] at hmem
    obtain ⟨y, hy, hyx⟩ := mem_map.mp hmem
    have hleny : calcLengths t 0 (fun _ => 0) y.1 = y.2 := calcLengths_of_mem hn hy (hpos y hy)
    rw [hyx, hlen] at hleny
    have hxy : y = x := Prod.ext hyx hleny.symm
    exact hxy ▸ hy
  · intro hx
    exact ⟨hpos x hx, calcLengths_of_mem hn hx (hpos x hx)⟩

end MeuOS.Compress
