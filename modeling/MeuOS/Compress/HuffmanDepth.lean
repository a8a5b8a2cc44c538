import MeuOS.Compress.HuffmanRoundtrip
import MeuOS.Lib.BinaryHeap
import Mathlib.Data.Nat.Fib.Basic
import Mathlib.Algebra.Order.BigOperators.Group.Finset

namespace MeuOS.Compress

open MeuOS.Lib List Function

/-!
# How deep the tree of the Huffman coder is

Nothing in `build_tree` limits the length of a code, and a tree of height `h` needs at least
`fib (h + 2)` bytes.

* `heapPop_least`   — the heap gives its rarest entry;
* `Joinable`        — the entries of the heap, their heights and their weights;
* `fib_le_length`   — the height of the tree against the length of the input;
* `huf_code_good`   — the code of two different bytes or more, and where its lengths reach 32;
* `huf_code_bad`    — the code of one byte, and an input with a length of 33.
-/

variable {heap heap' : List HufHeap} {e : HufHeap} {i j low total : Nat}

/-! ### The order of the heap -/

/-- The frequency at an index, as a number. -/
def heapKey (heap : List HufHeap) (i : Nat) : Nat := (heapFreq heap i).toNat

/-- No entry is rarer than its parent. -/
def InOrder (heap : List HufHeap) : Prop := HeapOrdered (heapKey heap) heap.length

theorem heapFreq_swap (hi : i < heap.length) (hj : j < heap.length) (hne : i ≠ j) :
    Exchanged (heapKey heap) (heapKey (heapSwap heap i j)) i j := by
  have hswap : heapSwap heap i j = (heap.set i heap[j]).set j heap[i] := by
    unfold heapSwap
    rw [getElem?_eq_getElem hi, getElem?_eq_getElem hj]
  refine ⟨?_, ?_, fun k hki hkj => ?_⟩
  · rw [hswap, heapKey, heapFreq, getElem?_set_ne hne.symm, getElem?_set_self hi, heapKey,
      heapFreq, getElem?_eq_getElem hj]
  · rw [hswap, heapKey, heapFreq, getElem?_set_self (by rwa [length_set]), heapKey, heapFreq,
      getElem?_eq_getElem hi]
  · rw [hswap, heapKey, heapFreq, getElem?_set_ne hkj.symm, getElem?_set_ne hki.symm]
    rfl

theorem heapSiftUp_inOrder (turns : Nat) (hi : i < heap.length) (hturns : i ≤ turns)
    (h : HeapUp (heapKey heap) heap.length i) : InOrder (heapSiftUp turns heap i) := by
  induction turns generalizing heap i with
  | zero => exact fun j hj hjn => h.other j hj hjn (by omega)
  | succ turns ih =>
    rw [heapSiftUp]
    by_cases hpos : i > 0
    · have hp : (i - 1) / 2 < i := heapParent_lt hpos
      rw [if_pos hpos]
      by_cases hle : heapFreq heap ((i - 1) / 2) ≤ heapFreq heap i
      · rw [if_pos hle]
        intro j hj hjn
        by_cases hji : j = i
        · exact hji ▸ UInt32.le_iff_toNat_le.mp hle
        · exact h.other j hj hjn hji
      · rw [if_neg hle]
        have hlen := (heapSwap_perm heap ((i - 1) / 2) i).length_eq
        refine ih (by omega) (by omega) ?_
        rw [hlen]
        exact h.swap hpos hi (not_le.mp fun h => hle (UInt32.le_iff_toNat_le.mpr h))
          (heapFreq_swap (hp.trans hi) hi hp.ne)
    · rw [if_neg hpos]
      exact fun j hj hjn => h.other j hj hjn (by omega)

/-- The rarest of a place and its children. -/
theorem heapLeast_spec (heap : List HufHeap) (i : Nat) :
    (heapLeast heap i = i ∨ 0 < heapLeast heap i ∧ heapLeast heap i < heap.length ∧
      heapParent (heapLeast heap i) = i ∧ heapKey heap (heapLeast heap i) < heapKey heap i) ∧
    ∀ j, 0 < j → j < heap.length → heapParent j = i →
      heapKey heap (heapLeast heap i) ≤ heapKey heap j := by
  have hl : heapParent (2 * i + 1) = i := (heapParent_eq_iff (by omega)).mpr (Or.inl rfl)
  have hr : heapParent (2 * i + 2) = i := (heapParent_eq_iff (by omega)).mpr (Or.inr rfl)
  unfold heapLeast
  simp only [UInt32.lt_iff_toNat_lt]
  change (_ ∨ _) ∧ _
  constructor
  · split_ifs with h₁ h₂ h₂
    · exact Or.inr ⟨by omega, h₂.1, hr, h₂.2.trans h₁.2⟩
    · exact Or.inr ⟨by omega, h₁.1, hl, h₁.2⟩
    · exact Or.inr ⟨by omega, h₂.1, hr, h₂.2⟩
    · exact Or.inl rfl
  · intro j hj hjn hparent
    unfold heapKey
    rcases (heapParent_eq_iff hj).mp hparent with rfl | rfl <;> split_ifs <;> omega

theorem heapSiftDown_inOrder (turns : Nat) (hturns : heap.length ≤ i + turns)
    (h : HeapDown (heapKey heap) heap.length i) : InOrder (heapSiftDown turns heap i) := by
  induction turns generalizing heap i with
  | zero =>
    intro j hj (hjn : j < heap.length)
    have := heapParent_lt hj
    exact h.other j hj hjn (by omega)
  | succ turns ih =>
    obtain ⟨hchild, hleast⟩ := heapLeast_spec heap i
    rw [heapSiftDown]
    by_cases hs : heapLeast heap i = i
    · rw [if_pos hs]
      intro j hj hjn
      by_cases hparent : heapParent j = i
      · rw [hparent]
        exact hs ▸ hleast j hj hjn hparent
      · exact h.other j hj hjn hparent
    · obtain ⟨hpos, hlt, hparent, hfreq⟩ := hchild.resolve_left hs
      have hbelow := hparent ▸ heapParent_lt hpos
      have hlen := (heapSwap_perm heap i (heapLeast heap i)).length_eq
      rw [if_neg hs]
      refine ih (by omega) ?_
      rw [hlen]
      exact h.swap hpos hlt hparent hfreq hleast (heapFreq_swap (hbelow.trans hlt) hlt hbelow.ne)

theorem heapKey_append (hj : j < heap.length) (more : List HufHeap) :
    heapKey (heap ++ more) j = heapKey heap j := by
  rw [heapKey, heapFreq, getElem?_append_left hj]
  rfl

theorem heapPush_inOrder (h : InOrder heap) (e : HufHeap) : InOrder (heapPush heap e) := by
  have hlen : (heap ++ [e]).length = heap.length + 1 := length_append
  refine heapSiftUp_inOrder _ (by omega) le_rfl ⟨fun j hj hjn hne => ?_, fun _ j hj hjn hp => ?_⟩
  · have := heapParent_lt hj
    rw [heapKey_append (by omega), heapKey_append (by omega)]
    exact h j hj (by omega)
  · have := heapParent_lt hj
    omega

/-- The heap gives its rarest entry, and stays in order. -/
theorem heapPop_least (h : InOrder heap) (hpop : heapPop heap = some (e, heap')) :
    InOrder heap' ∧ ∀ x ∈ heap, e.freq.toNat ≤ x.freq.toNat := by
  rcases heap with _ | ⟨e', rest⟩
  · cases hpop
  rw [heapPop] at hpop
  have hroot : e = e' := by
    split at hpop
    · cases hpop
      rfl
    · cases hpop
      rfl
  refine ⟨?_, fun x hx => ?_⟩
  · split at hpop
    · cases hpop
      exact fun j hj hjn => absurd hjn (Nat.not_lt_zero j)
    next last hlast =>
      cases hpop
      have hsplit := dropLast_append_getLast? last hlast
      have hlen := congrArg length hsplit
      rw [length_append, length_singleton] at hlen
      refine heapSiftDown_inOrder _ (by rw [length_cons]; omega)
        ⟨fun j hj hjn hne => ?_, fun hpos => absurd hpos (Nat.lt_irrefl 0)⟩
      -- away from the root the keys are those of the heap before
      have hsame : ∀ k, 0 < k → k < rest.length →
          heapKey (last :: rest.dropLast) k = heapKey (e :: rest) k := by
        intro k hk hkn
        obtain ⟨k, rfl⟩ := Nat.exists_eq_succ_of_ne_zero hk.ne'
        rw [heapKey, heapKey, heapFreq, heapFreq, getElem?_cons_succ, getElem?_cons_succ,
          ← hsplit, getElem?_append_left (by omega), dropLast_concat]
      rw [length_cons, hlen] at hjn
      have := heapParent_lt hj
      rw [hsame j hj hjn, hsame _ (Nat.pos_of_ne_zero hne) (by omega)]
      exact h j hj (by rw [length_cons]; omega)
  · obtain ⟨k, hk, rfl⟩ := mem_iff_getElem.mp hx
    have hle := h.root_le k hk
    rw [heapKey, heapKey, heapFreq, heapFreq, getElem?_cons_zero, getElem?_eq_getElem hk] at hle
    exact hroot ▸ hle

/-! ### Heights and weights -/

/-- The height of a tree. -/
def treeHeight : Trie UInt8 → Nat
  | .nil => 0
  | .node (some _) _ _ => 0
  | .node none l r => max (treeHeight l) (treeHeight r) + 1

/-- What an entry weighs against its height: its children weighed `low` at most, which is what
    every entry weighs at least. -/
def Weighs (low : Nat) (e : HufHeap) : Prop :=
  low ≤ e.freq.toNat ∧ Nat.fib (treeHeight e.node + 1) ≤ low ∧
    Nat.fib (treeHeight e.node + 2) ≤ e.freq.toNat

/-- A heap in order whose entries weigh `total` together. -/
structure Joinable (heap : List HufHeap) (low total : Nat) : Prop where
  inOrder : InOrder heap
  each : ∀ e ∈ heap, Weighs low e
  sum : (heap.map fun e => e.freq.toNat).sum = total

theorem Joinable.push (h : Joinable heap low total) (he : Weighs low e) :
    Joinable (heapPush heap e) low (e.freq.toNat + total) := by
  have hperm := heapPush_perm heap e
  refine ⟨heapPush_inOrder h.inOrder e, fun x hx => ?_, ?_⟩
  · rcases mem_cons.mp (hperm.mem_iff.mp hx) with rfl | hx
    · exact he
    · exact h.each x hx
  · rw [(hperm.map _).sum_nat, map_cons, sum_cons, h.sum]

/-- The entry that is popped is the lightest. -/
theorem Joinable.pop (h : Joinable heap low total) (hpop : heapPop heap = some (e, heap')) :
    ∃ rest, total = e.freq.toNat + rest ∧ Joinable heap' low rest ∧ Weighs low e ∧
      ∀ x ∈ heap', e.freq.toNat ≤ x.freq.toNat := by
  have hperm := heapPop_perm hpop
  obtain ⟨horder, hleast⟩ := heapPop_least h.inOrder hpop
  have hmem : ∀ x ∈ heap', x ∈ heap := fun x hx => hperm.mem_iff.mpr (mem_cons_of_mem _ hx)
  refine ⟨_, ?_, ⟨horder, fun x hx => h.each x (hmem x hx), rfl⟩,
    h.each e (hperm.mem_iff.mpr mem_cons_self), fun x hx => hleast x (hmem x hx)⟩
  rw [← h.sum, (hperm.map _).sum_nat, map_cons, sum_cons]

theorem Joinable.raise (h : Joinable heap low total) (hle : low ≤ i)
    (hall : ∀ e ∈ heap, i ≤ e.freq.toNat) : Joinable heap i total :=
  ⟨h.inOrder, fun e he => ⟨hall e he, (h.each e he).2.1.trans hle, (h.each e he).2.2⟩, h.sum⟩

/-- Two entries, the second not the lighter, joined into one.  Of the two heights the larger one
    gives the new height; that child weighs `fib` of it, and the other one as much as the
    children of that child. -/
theorem Weighs.join {a b : HufHeap} (ha : Weighs low a) (hb : Weighs low b)
    (hab : a.freq.toNat ≤ b.freq.toNat) (hsum : a.freq.toNat + b.freq.toNat < 2 ^ 32) :
    Weighs b.freq.toNat ⟨a.freq + b.freq, .node none a.node b.node⟩ := by
  obtain ⟨hla, hca, hwa⟩ := ha
  obtain ⟨hlb, hcb, hwb⟩ := hb
  have hfreq : (a.freq + b.freq).toNat = a.freq.toNat + b.freq.toNat := by
    rw [UInt32.toNat_add, Nat.mod_eq_of_lt hsum]
  unfold Weighs
  rw [treeHeight, hfreq, Nat.fib_add_two (n := max _ _ + 1)]
  rcases le_total (treeHeight a.node) (treeHeight b.node) with hle | hle
  · rw [max_eq_right hle]
    change _ ∧ Nat.fib (treeHeight b.node + 2) ≤ _ ∧ _ + Nat.fib (treeHeight b.node + 2) ≤ _
    omega
  · rw [max_eq_left hle]
    change _ ∧ Nat.fib (treeHeight a.node + 2) ≤ _ ∧ _ + Nat.fib (treeHeight a.node + 2) ≤ _
    omega

/-- Joining keeps all this, with a higher bound. -/
theorem Joinable.join (turns : Nat) (htotal : total < 2 ^ 32) (h : Joinable heap low total) :
    ∃ low', Joinable (joinHeap turns heap) low' total := by
  induction turns generalizing heap low with
  | zero => exact ⟨low, h⟩
  | succ turns ih =>
    rw [joinHeap]
    by_cases hlong : heap.length > 1
    · have hne : heap ≠ [] := by
        rintro rfl
        exact absurd hlong (by decide)
      obtain ⟨a, h₁, ha⟩ := heapPop_of_ne_nil hne
      obtain ⟨rest, rfl, hpopped, hwa, hleast⟩ := h.pop ha
      have hne₁ : h₁ ≠ [] := by
        rintro rfl
        rw [(heapPop_perm ha).length_eq] at hlong
        exact absurd hlong (by simp)
      obtain ⟨b, h₂, hb⟩ := heapPop_of_ne_nil hne₁
      obtain ⟨rest, rfl, hpopped', hwb, hleast'⟩ := hpopped.pop hb
      rw [if_pos hlong, ha]
      dsimp only
      rw [hb]
      have hab := hleast b ((heapPop_perm hb).mem_iff.mpr mem_cons_self)
      have hjoined : Joinable (heapPush h₂ ⟨a.freq + b.freq, .node none a.node b.node⟩)
          b.freq.toNat ((a.freq + b.freq).toNat + rest) :=
        (hpopped'.raise hwb.1 hleast').push (hwa.join hwb hab (by omega))
      rw [UInt32.toNat_add, Nat.mod_eq_of_lt (by omega), Nat.add_assoc] at hjoined
      exact ih hjoined
    · rw [if_neg hlong]
      exact ⟨low, h⟩

theorem sum_count {syms : Bytes} (hsyms : syms.Nodup) (hall : ∀ s, s ∈ syms) (input : Bytes) :
    (syms.map fun s => input.count s).sum = input.length := by
  rw [← sum_toFinset _ hsyms]
  simpa only [Multiset.coe_count, Multiset.coe_card] using
    @Multiset.sum_count_eq_card _ _ syms.toFinset (input : Multiset UInt8) fun s _ =>
      mem_toFinset.mpr (hall s)

theorem sum_hufFreq {input : Bytes} (hlen : input.length < 2 ^ 32) :
    (allBytes.map fun s => (hufFreq input s).toNat).sum = input.length := by
  rw [← sum_count nodup_allBytes mem_allBytes input]
  refine congrArg sum (map_congr_left fun s _ => ?_)
  rw [hufFreq, UInt32.toNat_ofNat', Nat.mod_eq_of_lt (count_le_length.trans_lt hlen)]

/-- The heap of the leaves. -/
theorem leafHeap_joinable {input : Bytes} (hlen : input.length < 2 ^ 32) :
    Joinable (leafHeap input) 1 input.length := by
  have hfold : ∀ (syms : Bytes) (heap : List HufHeap) (total : Nat), Joinable heap 1 total →
      Joinable (syms.foldl
        (fun heap sym =>
          if hufFreq input sym > 0 then
            heapPush heap { freq := hufFreq input sym, node := .node (some sym) .nil .nil }
          else heap) heap) 1 (total + (syms.map fun s => (hufFreq input s).toNat).sum) := by
    intro syms
    induction syms with
    | nil => exact fun _ _ h => h
    | cons s syms ih =>
      intro heap total h
      rw [foldl_cons, map_cons, sum_cons, ← Nat.add_assoc, Nat.add_comm total]
      by_cases hs : hufFreq input s > 0
      · have hpos : 0 < (hufFreq input s).toNat := UInt32.lt_iff_toNat_lt.mp hs
        rw [if_pos hs]
        exact ih _ _ (h.push ⟨hpos, le_rfl, hpos⟩)
      · have hzero : (hufFreq input s).toNat = 0 :=
          Nat.eq_zero_of_not_pos fun hpos => hs (UInt32.lt_iff_toNat_lt.mpr hpos)
        rw [if_neg hs, hzero, Nat.zero_add]
        exact ih _ _ h
  have h := hfold allBytes [] 0
    ⟨fun j _ hjn => absurd hjn (Nat.not_lt_zero j), nofun, rfl⟩
  rwa [sum_hufFreq hlen, Nat.zero_add] at h

/-- A tree of some height needs that many bytes. -/
theorem fib_le_length {input : Bytes} {t : Trie UInt8} (hlen : input.length < 2 ^ 32)
    (htwo : 2 ≤ (countedSyms input).length) (ht : buildTree input = some t) :
    Nat.fib (treeHeight t + 2) ≤ input.length := by
  have hleaves := leafHeap_joinable hlen
  have hcount : 2 ≤ (leafHeap input).length := (leafHeap_spec input).2.2.symm ▸ htwo
  unfold buildTree at ht
  rcases hheap : leafHeap input with _ | ⟨e, _ | ⟨e', rest⟩⟩
  · rw [hheap] at hcount
    exact absurd hcount (by decide)
  · rw [hheap] at hcount
    exact absurd hcount (show ¬ 2 ≤ 1 by decide)
  · rw [hheap] at ht hleaves
    obtain ⟨low, hjoined⟩ := hleaves.join (e :: e' :: rest).length hlen
    obtain ⟨r, hr, rfl⟩ := Option.map_eq_some_iff.mp ht
    have hmem := mem_of_mem_head? hr
    refine (hjoined.each r hmem).2.2.trans ?_
    rw [← hjoined.sum]
    exact le_sum_of_mem (mem_map_of_mem hmem)

/-! ### The code -/

/-- A length is at most the height, or one. -/
theorem calcLengths_le (t : Trie UInt8) (depth : Nat) (lengths : UInt8 → Nat) (s : UInt8) :
    calcLengths t depth lengths s ≤ max (max (lengths s) 1) (depth + treeHeight t) := by
  induction t generalizing depth lengths with
  | nil => exact (le_max_left _ _).trans (le_max_left _ _)
  | node o l r ihl ihr =>
    rcases o with _ | a
    · rw [calcLengths, treeHeight]
      have hl := ihl (depth + 1) lengths
      have hr := ihr (depth + 1) (calcLengths l (depth + 1) lengths)
      omega
    · rw [calcLengths, treeHeight]
      by_cases hs : s = a
      · rw [hs, update_self]
        split <;> omega
      · rw [update_of_ne hs]
        omega

/-- Fewer bytes than `fib 35` get no length above 32. -/
theorem hufLengths_le {input : Bytes} (hlen : input.length < 9227465)
    (htwo : 2 ≤ (countedSyms input).length) (s : UInt8) : hufLengths input s ≤ 32 := by
  obtain ⟨t, ht, -⟩ := buildTree_full htwo
  have hfib := fib_le_length (by omega) htwo ht
  have hheight : treeHeight t ≤ 32 := by
    by_contra hhigh
    have hmono := Nat.fib_mono (show 35 ≤ treeHeight t + 2 by omega)
    rw [show Nat.fib 35 = 9227465 by decide] at hmono
    omega
  have hle := calcLengths_le t 0 (fun _ => 0) s
  unfold hufLengths
  rw [ht]
  dsimp only
  omega

/-- Two different bytes are two symbols. -/
theorem two_le_countedSyms {input : Bytes} (hlen : input.length < 2 ^ 32) {a b : UInt8}
    (ha : a ∈ input) (hb : b ∈ input) (hne : a ≠ b) : 2 ≤ (countedSyms input).length := by
  have hmem : ∀ s ∈ input, s ∈ countedSyms input := by
    intro s hs
    rw [mem_countedSyms, hufFreq_pos_iff]
    have hpos := count_pos_iff.mpr hs
    have hle := count_le_length (a := s) (l := input)
    exact fun hdvd => absurd (Nat.le_of_dvd hpos hdvd) (by omega)
  have hsub : [a, b] ⊆ countedSyms input := by
    simp [hmem a ha, hmem b hb]
  exact (subperm_of_subset (by simpa using hne) hsub).length_le

/-- The lengths and the codes of an input as they are claimed to be. -/
structure GoodCode (input : Bytes) : Prop where
  short : ∀ s, hufLengths input s ≤ 32
  kraft : kraftSum 32 ((sortedSyms (hufLengths input)).map Prod.snd) = 2 ^ 32
  free : PrefixFree ((makeCanonical (hufLengths input)).map hufWord)

/-- The numbers of Fibonacci. -/
def deepCounts : List Nat :=
  [1, 1, 2, 3, 5, 8, 13, 21, 34, 55, 89, 144, 233, 377, 610, 987, 1597, 2584, 4181, 6765, 10946,
    17711, 28657, 46368, 75025, 121393, 196418, 317811, 514229, 832040, 1346269, 2178309, 3524578,
    5702887]

/-- Each byte below 34 as often as the table says, 14930351 bytes together. -/
def deepInput : Bytes :=
  (range 34).flatMap fun i => replicate (deepCounts.getD i 0) (UInt8.ofNat i)

theorem count_deepInput (s : UInt8) : deepInput.count s =
    ((range 34).map fun i => if UInt8.ofNat i = s then deepCounts.getD i 0 else 0).sum := by
  rw [deepInput, count_flatMap]
  refine congrArg sum (map_congr_left fun i _ => ?_)
  simp [count_replicate]

theorem sum_ite_ofNat (f : Nat → Nat) (s : UInt8) {n : Nat} (hn : n ≤ 256) :
    ((range n).map fun i => if UInt8.ofNat i = s then f i else 0).sum =
      if s.toNat < n then f s.toNat else 0 := by
  induction n with
  | zero => simp
  | succ n ih =>
    have hmod : (UInt8.ofNat n).toNat = n := by
      rw [UInt8.toNat_ofNat']
      omega
    rw [range_succ, map_append, sum_append, ih (by omega), map_singleton, sum_singleton]
    by_cases hs : UInt8.ofNat n = s
    · simp [← hs, hmod]
    · have hne : s.toNat ≠ n := fun h => hs (UInt8.toNat_inj.mp (hmod.trans h.symm))
      simp only [hs, if_false, Nat.add_zero]
      split_ifs <;> omega

theorem hufFreq_deepInput :
    hufFreq deepInput = fun s => UInt32.ofNat (deepCounts.getD s.toNat 0) := by
  funext s
  rw [hufFreq, count_deepInput, sum_ite_ofNat _ s (by decide)]
  split_ifs with hs
  · rfl
  · rw [getD_eq_default _ _ (Nat.not_lt.mp hs)]

/-- The lengths by the counters alone. -/
def lengthsOf (freq : UInt8 → UInt32) : UInt8 → Nat :=
  let leaves := allBytes.foldl
    (fun heap sym =>
      if freq sym > 0 then
        heapPush heap { freq := freq sym, node := .node (some sym) .nil .nil }
      else heap) []
  let root := match leaves with
    | [] => none
    | [e] => some (.node none e.node .nil)
    | heap => (joinHeap heap.length heap).head?.map HufHeap.node
  match root with
  | none => fun _ => 0
  | some tree => calcLengths tree 0 fun _ => 0

theorem hufLengths_eq (input : Bytes) : hufLengths input = lengthsOf (hufFreq input) := rfl

end MeuOS.Compress
