import MeuOS.Lib.Bits
import Mathlib.Data.List.Pairwise

namespace MeuOS.Lib

open List

/-!
# Prefix codes

A prefix code gives symbols words of which none begins another.

* `canonicalFrom` — the canonical code of a list of lengths, and `canonical_prefixFree`: the words
  of sorted lengths whose Kraft sum is at most one form a prefix code;
* `Trie` — the decoding tree: `Trie.insert`, `Trie.symAt`, `Trie.walk`;
* `walk_of_code` — in a prefix code the walk along a word ends at its symbol;
* `size_of_code` — the tree of a complete code with `n` words has `2 * n - 1` nodes.
-/

/-! ### Words -/

/-- Neither word begins the other. -/
def Apart (v w : List Bool) : Prop := ¬ v <+: w ∧ ¬ w <+: v

theorem Apart.symm {v w : List Bool} (h : Apart v w) : Apart w v := ⟨h.2, h.1⟩

/-- Words of which none begins another. -/
def PrefixFree (ws : List (List Bool)) : Prop := ws.Pairwise Apart

/-! ### Canonical codes -/

/-- The canonical code of lengths in ascending order, from a number of length `prev` on. -/
def canonicalFrom (code prev : Nat) : List Nat → List Nat
  | [] => []
  | l :: ls => code * 2 ^ (l - prev) :: canonicalFrom (code * 2 ^ (l - prev) + 1) l ls

/-- The Kraft sum of lengths, in units of `2 ^ -M`. -/
def kraftSum (M : Nat) (ls : List Nat) : Nat := (ls.map fun l => 2 ^ (M - l)).sum

/-- Ascending lengths from `prev` to `M`. -/
def Ascends (prev M : Nat) (ls : List Nat) : Prop :=
  ls.Pairwise (· ≤ ·) ∧ ∀ l ∈ ls, prev ≤ l ∧ l ≤ M

theorem Ascends.cons {prev M l : Nat} {ls : List Nat} (h : Ascends prev M (l :: ls)) :
    prev ≤ l ∧ l ≤ M ∧ Ascends l M ls := by
  obtain ⟨hsorted, hrange⟩ := h
  rw [pairwise_cons] at hsorted
  obtain ⟨hp, hM⟩ := hrange l mem_cons_self
  refine ⟨hp, hM, hsorted.2, fun k hk => ⟨hsorted.1 k hk, ?_⟩⟩
  exact (hrange k (mem_cons_of_mem _ hk)).2

/-- Scaling a number of length `prev` through a longer one. -/
theorem scale_eq (code : Nat) {prev l M : Nat} (h : prev ≤ l) (hM : l ≤ M) :
    code * 2 ^ (l - prev) * 2 ^ (M - l) = code * 2 ^ (M - prev) := by
  rw [Nat.mul_assoc, ← Nat.pow_add]
  congr 2
  omega

/-- The number behind it, scaled. -/
theorem scale_succ_eq (code : Nat) {prev l M : Nat} (h : prev ≤ l) (hM : l ≤ M) :
    (code * 2 ^ (l - prev) + 1) * 2 ^ (M - l) = code * 2 ^ (M - prev) + 2 ^ (M - l) := by
  rw [Nat.add_mul, Nat.one_mul, scale_eq code h hM]

/-- Word `i` takes the interval of numbers behind those of the words before it. -/
theorem canonicalFrom_interval {M : Nat} {ls : List Nat} {code prev : Nat}
    (h : Ascends prev M ls) :
    ∀ x ∈ ls.zip (canonicalFrom code prev ls),
      code * 2 ^ (M - prev) ≤ x.2 * 2 ^ (M - x.1) ∧
        (x.2 + 1) * 2 ^ (M - x.1) ≤ code * 2 ^ (M - prev) + kraftSum M ls := by
  induction ls generalizing code prev with
  | nil =>
    intro x hx
    cases hx
  | cons l ls ih =>
    obtain ⟨hp, hM, hrest⟩ := h.cons
    have hscale := scale_succ_eq code hp hM
    have hsum : kraftSum M (l :: ls) = 2 ^ (M - l) + kraftSum M ls := by
      unfold kraftSum
      rw [map_cons, sum_cons]
    intro x hx
    rw [canonicalFrom, zip_cons_cons] at hx
    rcases mem_cons.mp hx with rfl | hx
    · dsimp only
      rw [hscale, scale_eq code hp hM, hsum]
      omega
    · obtain ⟨hlo, hhi⟩ := ih hrest x hx
      rw [hscale] at hlo hhi
      rw [hsum]
      have hpos := Nat.two_pow_pos (M - l)
      omega

/-- The words of a list of lengths and numbers. -/
def codeWords (xs : List (Nat × Nat)) : List (List Bool) := xs.map fun x => bitsOf x.1 x.2

/-- Numbers of disjoint intervals have words that are apart. -/
theorem apart_of_interval {M l c l' c' : Nat} (hl : l ≤ l') (hl' : l' ≤ M) (hc : c < 2 ^ l)
    (hc' : c' < 2 ^ l') (h : (c + 1) * 2 ^ (M - l) ≤ c' * 2 ^ (M - l')) :
    Apart (bitsOf l c) (bitsOf l' c') := by
  have hshort : ¬ bitsOf l c <+: bitsOf l' c' := by
    intro hpre
    obtain ⟨-, hdiv⟩ := bitsOf_prefix hc hc' hpre
    -- the longer number would lie in the interval of the shorter one
    have hlt : c' < (c + 1) * 2 ^ (l' - l) := by
      rw [← hdiv]
      exact Nat.lt_mul_of_div_lt (Nat.lt_succ_self _) (Nat.two_pow_pos _)
    have hmul : c' * 2 ^ (M - l') < (c + 1) * 2 ^ (M - l) := by
      rw [← scale_eq (c + 1) hl hl']
      exact Nat.mul_lt_mul_of_pos_right hlt (Nat.two_pow_pos _)
    omega
  refine ⟨hshort, fun hpre => ?_⟩
  obtain ⟨hle, -⟩ := bitsOf_prefix hc' hc hpre
  obtain rfl : l = l' := by omega
  exact hshort (hpre.eq_of_length (by rw [length_bitsOf, length_bitsOf]) ▸ prefix_rfl)

/-- The canonical numbers of lengths with a Kraft sum of at most one fit their lengths. -/
theorem canonicalFrom_lt {M : Nat} {ls : List Nat} {code prev : Nat} (h : Ascends prev M ls)
    (hkraft : code * 2 ^ (M - prev) + kraftSum M ls ≤ 2 ^ M) :
    ∀ x ∈ ls.zip (canonicalFrom code prev ls), x.2 < 2 ^ x.1 := by
  intro x hx
  obtain ⟨-, hhi⟩ := canonicalFrom_interval h x hx
  have hM : x.1 ≤ M := (h.2 x.1 (of_mem_zip hx).1).2
  have hpow : 2 ^ M = 2 ^ x.1 * 2 ^ (M - x.1) := by
    rw [← Nat.pow_add, Nat.add_sub_cancel' hM]
  rw [hpow] at hkraft
  have := Nat.le_of_mul_le_mul_right (hhi.trans hkraft) (Nat.two_pow_pos _)
  omega

/-- The canonical code of lengths with a Kraft sum of at most one is a prefix code. -/
theorem canonical_prefixFree {M : Nat} {ls : List Nat} {code prev : Nat} (h : Ascends prev M ls)
    (hkraft : code * 2 ^ (M - prev) + kraftSum M ls ≤ 2 ^ M) :
    PrefixFree (codeWords (ls.zip (canonicalFrom code prev ls))) := by
  have hlt := canonicalFrom_lt h hkraft
  induction ls generalizing code prev with
  | nil => exact List.Pairwise.nil
  | cons l ls ih =>
    obtain ⟨hp, hM, hrest⟩ := h.cons
    have hscale := scale_succ_eq code hp hM
    rw [canonicalFrom, zip_cons_cons] at hlt ⊢
    refine pairwise_cons.mpr ⟨?_, ih hrest ?_ fun x hx => hlt x (mem_cons_of_mem _ hx)⟩
    · intro w hw
      obtain ⟨x, hx, rfl⟩ := mem_map.mp hw
      obtain ⟨hlo, -⟩ := canonicalFrom_interval hrest x hx
      obtain ⟨hl, hxM⟩ := hrest.2 x.1 (of_mem_zip hx).1
      exact apart_of_interval hl hxM (hlt _ mem_cons_self)
        (hlt x (mem_cons_of_mem _ hx)) hlo
    · unfold kraftSum at hkraft ⊢
      rw [map_cons, sum_cons] at hkraft
      rw [hscale]
      omega

/-! ### Decoding trees -/

/-- A binary tree with symbols at nodes. -/
inductive Trie (α : Type*) where
  | nil
  | node (sym : Option α) (left right : Trie α)
  deriving DecidableEq, Repr

namespace Trie

variable {α : Type*}

/-- Put a symbol at the end of a word, with the nodes on the way. -/
def insert (s : α) : List Bool → Trie α → Trie α
  | [], nil => node (some s) nil nil
  | [], node _ l r => node (some s) l r
  | false :: w, nil => node none (insert s w nil) nil
  | true :: w, nil => node none nil (insert s w nil)
  | false :: w, node o l r => node o (insert s w l) r
  | true :: w, node o l r => node o l (insert s w r)

/-- The symbol at the end of a word. -/
def symAt : Trie α → List Bool → Option α
  | nil, _ => none
  | node o _ _, [] => o
  | node _ l _, false :: w => symAt l w
  | node _ _ r, true :: w => symAt r w

/-- Follow bits to the first symbol: the symbol and the bits that are left. -/
def walk : Trie α → List Bool → Option (α × List Bool)
  | nil, _ => none
  | node (some s) _ _, bits => some (s, bits)
  | node none _ _, [] => none
  | node none l _, false :: bits => walk l bits
  | node none _ r, true :: bits => walk r bits

/-- The number of nodes. -/
def size : Trie α → Nat
  | nil => 0
  | node _ l r => 1 + size l + size r

/-- The tree of a code: the words are inserted in order. -/
def ofCode (t : Trie α) (xs : List (List Bool × α)) : Trie α :=
  xs.foldl (fun t x => insert x.2 x.1 t) t

/-- Inserting a word changes the symbol at its end only. -/
theorem symAt_insert (s : α) (w v : List Bool) (t : Trie α) :
    symAt (insert s w t) v = if v = w then some s else symAt t v := by
  induction w generalizing t v with
  | nil =>
    rcases t with _ | ⟨o, l, r⟩ <;> rcases v with _ | ⟨_ | _, v⟩ <;> simp [insert, symAt]
  | cons b w ih =>
    rcases b with _ | _ <;> rcases t with _ | ⟨o, l, r⟩ <;> rcases v with _ | ⟨_ | _, v⟩ <;>
      simp [insert, symAt, ih]

/-- The walk along a word with a symbol at its end and none on the way. -/
theorem walk_of_symAt {t : Trie α} {w : List Bool} {s : α} (h : symAt t w = some s)
    (hway : ∀ v, v <+: w → v ≠ w → symAt t v = none) (rest : List Bool) :
    walk t (w ++ rest) = some (s, rest) := by
  induction w generalizing t with
  | nil =>
    rcases t with _ | ⟨o, l, r⟩
    · cases h
    · obtain rfl : o = some s := h
      rfl
  | cons b w ih =>
    rcases t with _ | ⟨o, l, r⟩
    · cases h
    have hroot : o = none := hway [] List.nil_prefix (cons_ne_nil _ _).symm
    subst hroot
    have hdown : ∀ v, v <+: w → v ≠ w → symAt (node none l r) (b :: v) = none := by
      intro v hv hne
      exact hway (b :: v) (cons_prefix_cons.mpr ⟨rfl, hv⟩) fun h => hne (List.cons.inj h).2
    rcases b with _ | _
    · exact ih h hdown
    · exact ih h hdown

/-- A word that is not inserted keeps its symbol. -/
theorem symAt_ofCode_of_notMem {t : Trie α} {xs : List (List Bool × α)} {v : List Bool}
    (h : v ∉ xs.map Prod.fst) : symAt (ofCode t xs) v = symAt t v := by
  induction xs generalizing t with
  | nil => rfl
  | cons x xs ih =>
    rw [map_cons, mem_cons, not_or] at h
    show symAt (ofCode (insert x.2 x.1 t) xs) v = _
    rw [ih h.2, symAt_insert, if_neg h.1]

/-- With distinct words every word leads to its symbol. -/
theorem symAt_ofCode_of_mem {t : Trie α} {xs : List (List Bool × α)}
    (hn : (xs.map Prod.fst).Nodup) {x : List Bool × α} (hx : x ∈ xs) :
    symAt (ofCode t xs) x.1 = some x.2 := by
  induction xs generalizing t with
  | nil => cases hx
  | cons y xs ih =>
    rw [map_cons, nodup_cons] at hn
    rcases mem_cons.mp hx with rfl | hx
    · show symAt (ofCode (insert x.2 x.1 t) xs) x.1 = _
      rw [symAt_ofCode_of_notMem hn.1, symAt_insert, if_pos rfl]
    · exact ih hn.2 hx

theorem nodup_of_prefixFree {ws : List (List Bool)} (h : PrefixFree ws) : ws.Nodup := by
  refine List.Pairwise.imp ?_ h
  rintro v w hap rfl
  exact hap.1 prefix_rfl

/-- In a prefix code the walk along a word ends at its symbol. -/
theorem walk_of_code {xs : List (List Bool × α)} (h : PrefixFree (xs.map Prod.fst))
    {x : List Bool × α} (hx : x ∈ xs) (rest : List Bool) :
    walk (ofCode nil xs) (x.1 ++ rest) = some (x.2, rest) := by
  apply walk_of_symAt (symAt_ofCode_of_mem (nodup_of_prefixFree h) hx)
  intro v hv hne
  rw [symAt_ofCode_of_notMem]
  · rfl
  -- another word would begin this one
  intro hmem
  have hsymm : Std.Symm Apart := ⟨fun _ _ hvw => hvw.symm⟩
  have hap : Apart v x.1 := List.Pairwise.forall h hmem (mem_map.mpr ⟨x, hx, rfl⟩) hne
  exact hap.1 hv

/-- A walk ends at the end of a word. -/
theorem symAt_of_walk {t : Trie α} {bits rest : List Bool} {s : α}
    (h : walk t bits = some (s, rest)) : ∃ w, symAt t w = some s := by
  induction t generalizing bits with
  | nil => cases h
  | node o l r ihl ihr =>
    rcases o with _ | s'
    · rcases bits with _ | ⟨_ | _, bits⟩
      · cases h
      · obtain ⟨w, hw⟩ := ihl h
        exact ⟨false :: w, hw⟩
      · obtain ⟨w, hw⟩ := ihr h
        exact ⟨true :: w, hw⟩
    · cases h
      exact ⟨[], rfl⟩

/-- The symbols of the tree of a code are those of its words. -/
theorem mem_of_symAt_ofCode {xs : List (List Bool × α)} {w : List Bool} {s : α}
    (h : symAt (ofCode nil xs) w = some s) : ∃ x ∈ xs, x.2 = s := by
  have hgen : ∀ (xs : List (List Bool × α)) (t : Trie α), symAt (ofCode t xs) w = some s →
      symAt t w = some s ∨ ∃ x ∈ xs, x.2 = s := by
    intro xs
    induction xs with
    | nil => exact fun t ht => .inl ht
    | cons x xs ih =>
      intro t ht
      obtain hfirst | ⟨y, hy, hys⟩ := ih _ ht
      · rw [symAt_insert] at hfirst
        split at hfirst
        · exact .inr ⟨x, mem_cons_self, Option.some.inj hfirst⟩
        · exact .inl hfirst
      · exact .inr ⟨y, mem_cons_of_mem _ hy, hys⟩
  exact (hgen xs nil h).resolve_left (by simp [symAt])

/-! ### The size of the tree of a complete code -/

/-- A tree without idle nodes: symbols have no children, other nodes have one. -/
def Live : Trie α → Prop
  | nil => True
  | node (some _) l r => l = nil ∧ r = nil
  | node none l r => Live l ∧ Live r ∧ (l ≠ nil ∨ r ≠ nil)

/-- The part of all words of length `M` that run into a symbol. -/
def kraft : Nat → Trie α → Nat
  | _, nil => 0
  | M, node (some _) _ _ => 2 ^ M
  | 0, node none _ _ => 0
  | M + 1, node none l r => kraft M l + kraft M r

@[simp] theorem kraft_nil (M : Nat) : kraft M (nil : Trie α) = 0 := by
  rcases M with _ | M <;> rfl

@[simp] theorem kraft_sym (M : Nat) (s : α) (l r : Trie α) :
    kraft M (node (some s) l r) = 2 ^ M := by
  rcases M with _ | M <;> rfl

/-- The number of symbols. -/
def leaves : Trie α → Nat
  | nil => 0
  | node (some _) _ _ => 1
  | node none l r => leaves l + leaves r

/-- A new word is apart from all words with symbols. -/
def Fresh (w : List Bool) (t : Trie α) : Prop := ∀ v s, symAt t v = some s → Apart v w

theorem Live.exists_sym {t : Trie α} (h : Live t) (hne : t ≠ nil) :
    ∃ v s, symAt t v = some s := by
  induction t with
  | nil => exact absurd rfl hne
  | node o l r ihl ihr =>
    rcases o with _ | s
    · obtain ⟨hl, hr, hchild⟩ := h
      rcases hchild with hchild | hchild
      · obtain ⟨v, s, hv⟩ := ihl hl hchild
        exact ⟨false :: v, s, hv⟩
      · obtain ⟨v, s, hv⟩ := ihr hr hchild
        exact ⟨true :: v, s, hv⟩
    · exact ⟨[], s, rfl⟩

theorem insert_ne_nil (s : α) (w : List Bool) (t : Trie α) : insert s w t ≠ nil := by
  rcases w with _ | ⟨_ | _, w⟩ <;> rcases t with _ | ⟨o, l, r⟩ <;> simp [insert]

theorem Apart.of_cons {b : Bool} {v w : List Bool} (h : Apart (b :: v) (b :: w)) : Apart v w :=
  ⟨fun hp => h.1 (cons_prefix_cons.mpr ⟨rfl, hp⟩),
    fun hp => h.2 (cons_prefix_cons.mpr ⟨rfl, hp⟩)⟩

/-- A fresh word makes the tree larger by one symbol and by the word's share. -/
theorem insert_fresh {M : Nat} {s : α} {w : List Bool} {t : Trie α} (hlive : Live t)
    (hfresh : Fresh w t) (hM : w.length ≤ M) :
    Live (insert s w t) ∧ leaves (insert s w t) = leaves t + 1 ∧
      kraft M (insert s w t) = kraft M t + 2 ^ (M - w.length) := by
  induction w generalizing t M with
  | nil =>
    rcases t with _ | ⟨o, l, r⟩
    · refine ⟨⟨rfl, rfl⟩, rfl, ?_⟩
      simp [insert]
    · obtain ⟨v, s', hv⟩ := hlive.exists_sym nofun
      exact absurd List.nil_prefix (hfresh v s' hv).2
  | cons b w ih =>
    obtain ⟨M, rfl⟩ : ∃ m, M = m + 1 := ⟨M - 1, by rw [length_cons] at hM; omega⟩
    have hM' : w.length ≤ M := Nat.le_of_succ_le_succ hM
    have hpow : M + 1 - (b :: w).length = M - w.length := by
      rw [length_cons]
      omega
    rw [hpow]
    rcases t with _ | ⟨o, l, r⟩
    · have hnil : Fresh w (nil : Trie α) := fun v s' hv => by cases hv
      obtain ⟨hl, hc, hk⟩ := ih (t := nil) trivial hnil hM'
      rcases b with _ | _
      · refine ⟨⟨hl, trivial, .inl (insert_ne_nil _ _ _)⟩, ?_, ?_⟩
        · simp [insert, leaves, hc]
        · simp [insert, kraft, hk]
      · refine ⟨⟨trivial, hl, .inr (insert_ne_nil _ _ _)⟩, ?_, ?_⟩
        · simp [insert, leaves, hc]
        · simp [insert, kraft, hk]
    rcases o with _ | s'
    · obtain ⟨hl, hr, hchild⟩ := hlive
      rcases b with _ | _
      · have hf : Fresh w l := fun v s' hv => Apart.of_cons (hfresh (false :: v) s' hv)
        obtain ⟨hl', hc, hk⟩ := ih hl hf hM'
        refine ⟨⟨hl', hr, .inl (insert_ne_nil _ _ _)⟩, ?_, ?_⟩
        · simp only [insert, leaves, hc]
          omega
        · simp only [insert, kraft, hk]
          omega
      · have hf : Fresh w r := fun v s' hv => Apart.of_cons (hfresh (true :: v) s' hv)
        obtain ⟨hr', hc, hk⟩ := ih hr hf hM'
        refine ⟨⟨hl, hr', .inr (insert_ne_nil _ _ _)⟩, ?_, ?_⟩
        · simp only [insert, leaves, hc]
          omega
        · simp only [insert, kraft, hk]
          omega
    · exact absurd List.nil_prefix (hfresh [] s' rfl).1

theorem kraft_le (M : Nat) (t : Trie α) : kraft M t ≤ 2 ^ M := by
  induction t generalizing M with
  | nil =>
    rw [kraft_nil]
    exact Nat.zero_le _
  | node o l r ihl ihr =>
    rcases o with _ | s
    · rcases M with _ | M
      · exact Nat.zero_le _
      · have hl := ihl M
        have hr := ihr M
        rw [Nat.pow_succ]
        simp only [kraft]
        omega
    · exact (kraft_sym M s l r).le

/-- A tree through which every word runs into a symbol has one node less than twice its
    symbols. -/
theorem size_of_full {M : Nat} {t : Trie α} (hlive : Live t) (hfull : kraft M t = 2 ^ M) :
    size t + 1 = 2 * leaves t := by
  induction t generalizing M with
  | nil =>
    rw [kraft_nil] at hfull
    exact absurd hfull (Nat.two_pow_pos M).ne
  | node o l r ihl ihr =>
    rcases o with _ | s
    · rcases M with _ | M
      · exact absurd hfull Nat.zero_ne_one
      · obtain ⟨hl, hr, -⟩ := hlive
        have hkl := kraft_le M l
        have hkr := kraft_le M r
        simp only [kraft] at hfull
        rw [Nat.pow_succ] at hfull
        have hsl := ihl hl (M := M) (by omega)
        have hsr := ihr hr (M := M) (by omega)
        simp only [size, leaves]
        omega
    · obtain ⟨rfl, rfl⟩ := hlive
      rfl

theorem size_insert_le (s : α) (w : List Bool) (t : Trie α) : size t ≤ size (insert s w t) := by
  induction w generalizing t with
  | nil => rcases t with _ | ⟨o, l, r⟩ <;> simp [insert, size]
  | cons b w ih =>
    rcases t with _ | ⟨o, l, r⟩
    · exact Nat.zero_le _
    · have hl := ih l
      have hr := ih r
      rcases b with _ | _
      · simp only [insert, size]
        omega
      · simp only [insert, size]
        omega

theorem size_ofCode_le (t : Trie α) (xs : List (List Bool × α)) :
    size t ≤ size (ofCode t xs) := by
  induction xs generalizing t with
  | nil => exact le_rfl
  | cons x xs ih => exact (size_insert_le x.2 x.1 t).trans (ih _)

/-- The tree of a prefix code, word by word. -/
theorem ofCode_live {M : Nat} {t : Trie α} {xs : List (List Bool × α)} (hlive : Live t)
    (hfresh : ∀ x ∈ xs, Fresh x.1 t) (h : PrefixFree (xs.map Prod.fst))
    (hM : ∀ x ∈ xs, x.1.length ≤ M) :
    Live (ofCode t xs) ∧ leaves (ofCode t xs) = leaves t + xs.length ∧
      kraft M (ofCode t xs) = kraft M t + kraftSum M (xs.map fun x => x.1.length) := by
  induction xs generalizing t with
  | nil => exact ⟨hlive, rfl, rfl⟩
  | cons x xs ih =>
    rw [map_cons] at h
    obtain ⟨hhead, htail⟩ := pairwise_cons.mp h
    obtain ⟨hl, hc, hk⟩ := insert_fresh (M := M) (s := x.2) hlive
      (hfresh x mem_cons_self) (hM x mem_cons_self)
    have hnext : ∀ y ∈ xs, Fresh y.1 (insert x.2 x.1 t) := by
      intro y hy v s hv
      rw [symAt_insert] at hv
      by_cases hvx : v = x.1
      · rw [hvx]
        exact hhead _ (mem_map.mpr ⟨y, hy, rfl⟩)
      · rw [if_neg hvx] at hv
        exact hfresh y (mem_cons_of_mem _ hy) v s hv
    obtain ⟨hl', hc', hk'⟩ := ih hl hnext htail fun y hy => hM y (mem_cons_of_mem _ hy)
    refine ⟨hl', ?_, ?_⟩
    · show leaves (ofCode (insert x.2 x.1 t) xs) = _
      rw [hc', hc, length_cons]
      omega
    · show kraft M (ofCode (insert x.2 x.1 t) xs) = _
      rw [hk', hk]
      unfold kraftSum
      rw [map_cons, map_cons, sum_cons]
      omega

/-- The tree of a complete code with `n` words has `2 * n - 1` nodes. -/
theorem size_of_code {M : Nat} {xs : List (List Bool × α)} (h : PrefixFree (xs.map Prod.fst))
    (hM : ∀ x ∈ xs, x.1.length ≤ M)
    (hkraft : kraftSum M (xs.map fun x => x.1.length) = 2 ^ M) :
    size (ofCode nil xs) + 1 = 2 * xs.length := by
  obtain ⟨hlive, hleaves, hk⟩ := ofCode_live (M := M) (t := (nil : Trie α)) trivial
    (fun x _ v s hv => by cases hv) h hM
  have hfull : kraft M (ofCode nil xs) = 2 ^ M := by
    rw [hk, hkraft, kraft_nil, Nat.zero_add]
  rw [size_of_full hlive hfull, hleaves]
  exact congrArg (2 * ·) (Nat.zero_add _)

end Trie

end MeuOS.Lib
