import MeuOS.Ld.Layout
import Mathlib.Data.List.Nodup

namespace MeuOS.Ld

open MeuOS.Lib List

/-!
# What the passes of the layout do

A pass puts the groups it selects where a cursor walking over them would, and leaves the
others alone (`Lays`).

* `passSel_lays` — one loop over the groups;
* `passRanks_lays` — the loops of a pass, rank by rank;
* `tdata_lays`, `tbss_lays` — the two TLS groups.
-/

/-! ### Groups put at a place -/

/-- A group with its start, placed for a base address. -/
def place (base : Nat) (p : LdGroup × Nat) : LdGroup :=
  { p.1 with file_offset := p.2, address := base + p.2 }

/-- The walk of a pass over the groups it selects. -/
def groupWalk (adv : LdGroup → Bool) (o : Nat) (gs : List LdGroup) : List (LdGroup × Nat) :=
  walk LdGroup.align LdGroup.size adv o gs

/-- The offset behind the groups of a pass. -/
def groupEnd (adv : LdGroup → Bool) (o : Nat) (gs : List LdGroup) : Nat :=
  walkEnd LdGroup.align LdGroup.size adv o gs

theorem groupWalk_append (adv : LdGroup → Bool) (o : Nat) (gs hs : List LdGroup) :
    groupWalk adv o (gs ++ hs) = groupWalk adv o gs ++ groupWalk adv (groupEnd adv o gs) hs :=
  walk_append _ _ _ o gs hs

theorem groupEnd_append (adv : LdGroup → Bool) (o : Nat) (gs hs : List LdGroup) :
    groupEnd adv o (gs ++ hs) = groupEnd adv (groupEnd adv o gs) hs :=
  walkEnd_append _ _ _ o gs hs

/-- Sizes and alignments of groups, together. -/
def extent (gs : List LdGroup) : Nat := (gs.map fun g => g.size + g.align).sum

@[simp] theorem extent_nil : extent [] = 0 := rfl

@[simp] theorem extent_cons (g : LdGroup) (gs : List LdGroup) :
    extent (g :: gs) = g.size + g.align + extent gs := rfl

@[simp] theorem extent_append (gs hs : List LdGroup) :
    extent (gs ++ hs) = extent gs + extent hs := by
  simp [extent]

/-- Every group has a power of two as alignment. -/
def PowAligned (gs : List LdGroup) : Prop := ∀ g ∈ gs, ∃ k < 64, g.align = 2 ^ k

variable {gs hs : List LdGroup} {sel : LdGroup → Bool} {o k : Nat} {n : String}
  {f : LdGroup → LdGroup}

theorem PowAligned.pos (h : PowAligned gs) : ∀ g ∈ gs, 0 < g.align := by
  intro g hg
  obtain ⟨k, _, hk⟩ := h g hg
  rw [hk]
  exact Nat.two_pow_pos k

theorem le_groupEnd (h : PowAligned gs) (adv : LdGroup → Bool) (o : Nat) :
    o ≤ groupEnd adv o gs := le_walkEnd h.pos o

theorem groupEnd_le (h : PowAligned gs) (adv : LdGroup → Bool) (o : Nat) :
    groupEnd adv o gs ≤ o + extent gs := walkEnd_le h.pos o

/-- A selection that does not look at the place of a group. -/
def Static (sel : LdGroup → Bool) : Prop := ∀ base off g, sel (LdGroup.setPos base off g) = sel g

/-- From `cur` to `cur'` exactly the selected groups are put at the places of `laid`. -/
structure Lays (sel : LdGroup → Bool) (cur cur' laid : List LdGroup) : Prop where
  hit : (cur'.filter sel).Perm laid
  miss : ∀ other, Static other → (∀ g, other g → sel g = false) →
    cur'.filter other = cur.filter other
  names : cur'.map LdGroup.name = cur.map LdGroup.name

theorem Lays.refl_of_none {cur : List LdGroup}
    (h : ∀ g ∈ cur, sel g = false) : Lays sel cur cur [] where
  hit := by
    rw [filter_eq_nil_iff.mpr fun g hg => by simp [h g hg]]
  miss := fun _ _ _ => rfl
  names := rfl

/-- Selecting by two exclusive selections. -/
theorem filter_or_perm {sel₁ sel₂ : LdGroup → Bool} (hex : ∀ g, sel₂ g → sel₁ g = false)
    (gs : List LdGroup) :
    (gs.filter fun g => sel₁ g || sel₂ g).Perm (gs.filter sel₁ ++ gs.filter sel₂) := by
  induction gs with
  | nil => exact List.Perm.nil
  | cons g gs ih =>
    by_cases h2 : sel₂ g
    · have h1 := hex g h2
      simp only [filter_cons, h1, h2, Bool.or_true, ↓reduceIte, Bool.false_eq_true]
      exact (List.Perm.cons g ih).trans perm_middle.symm
    · by_cases h1 : sel₁ g
      · simp only [filter_cons, h1, h2, Bool.true_or, ↓reduceIte, Bool.false_eq_true,
          cons_append]
        exact List.Perm.cons g ih
      · simp only [filter_cons, h1, h2, Bool.or_self, ↓reduceIte, Bool.false_eq_true]
        exact ih

/-- One pass after the other. -/
theorem Lays.trans {sel₁ sel₂ : LdGroup → Bool} {a b c laid₁ laid₂ : List LdGroup}
    (h₁ : Lays sel₁ a b laid₁) (h₂ : Lays sel₂ b c laid₂) (hst : Static sel₁)
    (hex : ∀ g, sel₂ g → sel₁ g = false) :
    Lays (fun g => sel₁ g || sel₂ g) a c (laid₁ ++ laid₂) where
  hit := by
    have hkeep : c.filter sel₁ = b.filter sel₁ :=
      h₂.miss sel₁ hst fun g h1 => by
        by_contra h2
        rw [hex g (by simpa using h2)] at h1
        cases h1
    refine (filter_or_perm hex c).trans ?_
    rw [hkeep]
    exact h₁.hit.append h₂.hit
  miss := fun other ho hno => by
    have hno' : ∀ g, other g → sel₁ g = false ∧ sel₂ g = false := fun g hg => by
      simpa using hno g hg
    exact (h₂.miss other ho fun g hg => (hno' g hg).2).trans
      (h₁.miss other ho fun g hg => (hno' g hg).1)
  names := h₂.names.trans h₁.names

/-! ### One loop over the groups -/

/-- The loop of a pass with the test for TLS groups in its selection. -/
def passSel (sel adv : LdGroup → Bool) (base : Nat) : Nat → List LdGroup → LayoutSt
  | offset, [] => ([], offset)
  | offset, g :: gs =>
    if sel g then
      let off := alignUp64 offset g.alignOf
      let (rest, last) := passSel sel adv base (if adv g then add64 off g.size else off) gs
      (g.setPos base off :: rest, last)
    else
      let (rest, last) := passSel sel adv base offset gs
      (g :: rest, last)

/-- Is the group one of the two TLS groups? -/
def LdGroup.tls (g : LdGroup) : Bool := g.name == ".tdata" || g.name == ".tbss"

/-- `is_tls_group` by index says of every group what its name says. -/
def TlsByName (tls : Nat → Bool) (gs : List LdGroup) : Prop :=
  ∀ k g, gs[k]? = some g → tls k = g.tls

theorem passOver_eq {tls : Nat → Bool} (sel adv : LdGroup → Bool) (base : Nat)
    (gs : List LdGroup) (i o : Nat) (h : TlsByName (fun k => tls (i + k)) gs) :
    passOver tls sel adv base i o gs = passSel (fun g => sel g && !g.tls) adv base o gs := by
  induction gs generalizing i o with
  | nil => rfl
  | cons g gs ih =>
    have h0 : tls i = g.tls := h 0 g rfl
    have hrec : TlsByName (fun k => tls (i + 1 + k)) gs := fun k g' hk => by
      have hnext : tls (i + (k + 1)) = g'.tls := h (k + 1) g' (by simpa using hk)
      rwa [show i + (k + 1) = i + 1 + k by omega] at hnext
    unfold passOver passSel
    rw [h0]
    split
    · simp only [ih _ _ hrec]
    · simp only [ih _ _ hrec]

theorem passSel_names (sel adv : LdGroup → Bool) (base o : Nat) (gs : List LdGroup) :
    (passSel sel adv base o gs).1.map LdGroup.name = gs.map LdGroup.name := by
  induction gs generalizing o with
  | nil => rfl
  | cons g gs ih =>
    unfold passSel
    split
    · dsimp only
      rw [map_cons, map_cons, ih, LdGroup.setPos_name]
    · dsimp only
      rw [map_cons, map_cons, ih]

theorem passSel_miss {other : LdGroup → Bool} (adv : LdGroup → Bool) (base : Nat)
    (ho : Static other) (hno : ∀ g, other g → sel g = false) (gs : List LdGroup) (o : Nat) :
    (passSel sel adv base o gs).1.filter other = gs.filter other := by
  induction gs generalizing o with
  | nil => rfl
  | cons g gs ih =>
    unfold passSel
    split
    · next hsel =>
      have hg : other g = false := by
        by_contra hc
        rw [hno g (by simpa using hc)] at hsel
        cases hsel
      rw [filter_cons_of_neg (by rw [ho, hg]; decide),
        filter_cons_of_neg (by rw [hg]; decide), ih]
    · dsimp only
      rw [filter_cons, filter_cons, ih]

theorem setPos_eq_place {base off : Nat} {g : LdGroup} (h : base + off < 2 ^ 64) :
    g.setPos base off = place base (g, off) := by
  unfold LdGroup.setPos place
  rw [add64_eq h]

/-- The groups selected by a loop are placed by the walk over them. -/
theorem passSel_hit (adv : LdGroup → Bool) (base : Nat)
    (hst : Static sel) (gs : List LdGroup) (o : Nat) (hpow : PowAligned (gs.filter sel))
    (hfit : base + o + extent (gs.filter sel) ≤ 2 ^ 64) :
    (passSel sel adv base o gs).1.filter sel
        = (groupWalk adv o (gs.filter sel)).map (place base)
      ∧ (passSel sel adv base o gs).2 = groupEnd adv o (gs.filter sel) := by
  induction gs generalizing o with
  | nil => exact ⟨rfl, rfl⟩
  | cons g gs ih =>
    unfold passSel
    split
    · next hsel =>
      rw [filter_cons_of_pos hsel] at hpow hfit ⊢
      rw [extent_cons] at hfit
      obtain ⟨k, hk, hal⟩ := hpow g mem_cons_self
      have hpos : 0 < g.align := by
        rw [hal]
        exact Nat.two_pow_pos k
      have hof : g.alignOf = g.align := if_neg hpos.ne'
      have hup : alignUp64 o g.alignOf = alignUp o g.align := by
        rw [hof, hal]
        exact alignUp64_eq hk (by rw [← hal]; omega)
      have hlt := alignUp_lt o hpos
      have hcur : (if adv g then add64 (alignUp o g.align) g.size else alignUp o g.align)
          = cursorAfter LdGroup.align LdGroup.size adv o g := by
        have hadd : add64 (alignUp o g.align) g.size = alignUp o g.align + g.size :=
          add64_eq (by omega)
        unfold cursorAfter
        cases adv g
        · rfl
        · exact hadd
      have hle : cursorAfter LdGroup.align LdGroup.size adv o g ≤ o + (g.size + g.align) := by
        unfold cursorAfter
        split <;> omega
      obtain ⟨hrest, hend⟩ := ih (cursorAfter LdGroup.align LdGroup.size adv o g)
        (fun x hx => hpow x (mem_cons_of_mem g hx)) (by omega)
      dsimp only
      rw [hup, hcur, filter_cons_of_pos (by rw [hst]; exact hsel), hrest, hend]
      rw [setPos_eq_place (by omega)]
      exact ⟨rfl, rfl⟩
    · next hsel =>
      rw [filter_cons_of_neg hsel] at hpow hfit ⊢
      rw [filter_cons_of_neg hsel]
      exact ih o hpow hfit

theorem passSel_lays (adv : LdGroup → Bool) (base : Nat)
    (hst : Static sel) (hpow : PowAligned (gs.filter sel))
    (hfit : base + o + extent (gs.filter sel) ≤ 2 ^ 64) :
    Lays sel gs (passSel sel adv base o gs).1
        ((groupWalk adv o (gs.filter sel)).map (place base))
      ∧ (passSel sel adv base o gs).2 = groupEnd adv o (gs.filter sel) :=
  ⟨{ hit := (passSel_hit adv base hst gs o hpow hfit).1 ▸ List.Perm.refl _
     miss := fun _ ho hno => passSel_miss adv base ho hno gs o
     names := passSel_names sel adv base o gs }, (passSel_hit adv base hst gs o hpow hfit).2⟩

/-! ### The loops of a pass -/

/-- The groups of a pass in the order in which it places them. -/
def chron (sel : Int → LdGroup → Bool) (ranks : List Int) (gs : List LdGroup) : List LdGroup :=
  ranks.flatMap fun rank => gs.filter fun g => sel rank g && !g.tls

/-- The groups a pass places. -/
def selAny (sel : Int → LdGroup → Bool) (ranks : List Int) (g : LdGroup) : Bool :=
  ranks.any fun rank => sel rank g && !g.tls

theorem static_and_tls (h : Static sel) :
    Static fun g => sel g && !g.tls := by
  intro base off g
  show (sel (LdGroup.setPos base off g) && !(LdGroup.setPos base off g).tls) = _
  rw [h]
  unfold LdGroup.tls
  rw [LdGroup.setPos_name]

theorem static_selAny {sel : Int → LdGroup → Bool} (h : ∀ rank, Static (sel rank))
    (ranks : List Int) : Static (selAny sel ranks) := by
  intro base off g
  unfold selAny
  congr 1
  funext rank
  exact static_and_tls (h rank) base off g

/-- Different ranks select different groups. -/
def Exclusive (sel : Int → LdGroup → Bool) : Prop :=
  ∀ r r' g, r ≠ r' → sel r' g → sel r g = false

theorem passRanks_lays {tls : Nat → Bool} {sel : Int → LdGroup → Bool}
    (adv : LdGroup → Bool) (base : Nat) (hst : ∀ rank, Static (sel rank))
    (hex : Exclusive sel) (ranks : List Int) (hnd : ranks.Nodup) {cur : List LdGroup}
    (htls : ∀ gs, gs.map LdGroup.name = cur.map LdGroup.name → TlsByName tls gs)
    (hpow : PowAligned (chron sel ranks cur))
    (hfit : base + o + extent (chron sel ranks cur) ≤ 2 ^ 64) :
    Lays (selAny sel ranks) cur (passRanks tls sel adv base ranks (cur, o)).1
        ((groupWalk adv o (chron sel ranks cur)).map (place base))
      ∧ (passRanks tls sel adv base ranks (cur, o)).2
          = groupEnd adv o (chron sel ranks cur) := by
  induction ranks generalizing cur o with
  | nil => exact ⟨Lays.refl_of_none fun _ _ => rfl, rfl⟩
  | cons r rs ih =>
    have hnd' := (nodup_cons.mp hnd)
    -- the loop for the first rank
    have hfirst : passOver tls (sel r) adv base 0 o cur
        = passSel (fun g => sel r g && !g.tls) adv base o cur :=
      passOver_eq (sel r) adv base cur 0 o (by simpa using htls cur rfl)
    have hsplit : chron sel (r :: rs) cur
        = cur.filter (fun g => sel r g && !g.tls) ++ chron sel rs cur := rfl
    rw [hsplit] at hpow hfit ⊢
    rw [extent_append] at hfit
    have hpow₁ : PowAligned (cur.filter fun g => sel r g && !g.tls) :=
      fun g hg => hpow g (mem_append_left _ hg)
    obtain ⟨hlays, hend⟩ := passSel_lays adv base (static_and_tls (hst r)) hpow₁
      (show base + o + _ ≤ 2 ^ 64 by omega)
    generalize hres : passSel (fun g => sel r g && !g.tls) adv base o cur = res at hlays hend
    -- the later ranks see their groups as they were
    have hlater : chron sel rs res.1 = chron sel rs cur := by
      unfold chron
      refine flatMap_congr fun r' hr' => ?_
      refine hlays.miss _ (static_and_tls (hst r')) fun g hg => ?_
      have hne : r ≠ r' := fun h => hnd'.1 (h ▸ hr')
      simp only [Bool.and_eq_true] at hg
      rw [hex r r' g hne hg.1, Bool.false_and]
    have hle := groupEnd_le hpow₁ adv o
    obtain ⟨hlays', hend'⟩ := ih hnd'.2 (o := res.2)
      (fun gs (hgs : _ = res.1.map LdGroup.name) => htls gs (hgs.trans hlays.names))
      (by rw [hlater]; exact fun g hg => hpow g (mem_append_right _ hg))
      (by rw [hlater, hend]; omega)
    rw [hlater, hend] at hlays' hend'
    have hrun : passRanks tls sel adv base (r :: rs) (cur, o)
        = passRanks tls sel adv base rs res := by
      show passRanks tls sel adv base rs (passOver tls (sel r) adv base 0 o cur) = _
      rw [hfirst, hres]
    have hres' : res = (res.1, groupEnd adv o (cur.filter fun g => sel r g && !g.tls)) := by
      rw [← hend]
    rw [hrun, hres', groupWalk_append, groupEnd_append, map_append]
    refine ⟨hlays.trans hlays' (static_and_tls (hst r)) fun g hg => ?_, hend'⟩
    obtain ⟨r', hr', hg'⟩ := any_eq_true.mp hg
    have hne : r ≠ r' := fun h => hnd'.1 (h ▸ hr')
    simp only [Bool.and_eq_true] at hg'
    rw [hex r r' g hne hg'.1, Bool.false_and]

/-! ### Groups by name -/

/-- `find_group` finds the index of the group of a name. -/
theorem findGroup_eq_some (hnd : (gs.map LdGroup.name).Nodup) :
    findGroup gs n = some k ↔ ∃ g, gs[k]? = some g ∧ g.name = n := by
  unfold findGroup
  rw [findIdx?_eq_some_iff_getElem]
  constructor
  · rintro ⟨hk, hn, _⟩
    exact ⟨gs[k], getElem?_eq_getElem hk, by simpa using hn⟩
  · rintro ⟨g, hg, hn⟩
    obtain ⟨hk, rfl⟩ := List.getElem?_eq_some_iff.mp hg
    refine ⟨hk, by simpa using hn, fun j hj => ?_⟩
    have hne : gs[j].name ≠ gs[k].name := fun h => by
      have hlen : (gs.map LdGroup.name).length = gs.length := length_map _
      have hj' : j < (gs.map LdGroup.name).length := by omega
      have hk' : k < (gs.map LdGroup.name).length := by omega
      have hidx : j = k := hnd.getElem_inj_iff.mp
        (show (gs.map LdGroup.name)[j] = (gs.map LdGroup.name)[k] by simpa using h)
      omega
    rw [hn] at hne
    simpa using hne

theorem findGroup_eq_none :
    findGroup gs n = none ↔ ∀ g ∈ gs, g.name ≠ n := by
  unfold findGroup
  rw [findIdx?_eq_none_iff]
  simp

/-- Where a group is depends on the names only. -/
theorem findGroup_congr (h : gs.map LdGroup.name = hs.map LdGroup.name)
    (n : String) : findGroup gs n = findGroup hs n := by
  have hmap : ∀ l : List LdGroup, findGroup l n
      = (l.map LdGroup.name).findIdx? (· == n) := fun l => by
    rw [findIdx?_map]
    rfl
  rw [hmap, hmap, h]

/-- A change of one group that keeps something of it keeps that of all groups. -/
theorem map_modify_group {β : Type*} {part : LdGroup → β}
    (hf : ∀ g, part (f g) = part g) (groups : List LdGroup) (i : Nat) :
    (groups.modify i f).map part = groups.map part := by
  apply ext_getElem
  · simp
  · intro j h₁ h₂
    rw [getElem_map, getElem_map, getElem_modify]
    split
    · exact hf _
    · rfl

theorem names_modify_group (hf : ∀ g, (f g).name = g.name) (groups : List LdGroup) (i : Nat) :
    (groups.modify i f).map LdGroup.name = groups.map LdGroup.name := map_modify_group hf groups i

theorem findGroup_modify (hf : ∀ g, (f g).name = g.name)
    (groups : List LdGroup) (i : Nat) (name : String) :
    findGroup (groups.modify i f) name = findGroup groups name :=
  findGroup_congr (names_modify_group hf groups i) name

theorem tlsByName (hnd : (gs.map LdGroup.name).Nodup)
    (h : hs.map LdGroup.name = gs.map LdGroup.name) :
    TlsByName (isTlsGroup (findGroup gs ".tdata") (findGroup gs ".tbss")) hs := by
  intro k g hg
  have hbyname : ∀ n, (some k == findGroup gs n) = (g.name == n) := by
    intro n
    have hiff : findGroup gs n = some k ↔ g.name = n := by
      rw [← findGroup_congr h, findGroup_eq_some (by rw [h]; exact hnd)]
      constructor
      · rintro ⟨g', hg', hn⟩
        rw [hg] at hg'
        exact (Option.some.inj hg') ▸ hn
      · exact fun hn => ⟨g, hg, hn⟩
    by_cases hn : g.name = n
    · rw [hiff.mpr hn]
      simp [hn]
    · have hne : some k ≠ findGroup gs n := fun hc => hn (hiff.mp hc.symm)
      simp [hn, hne]
  unfold isTlsGroup LdGroup.tls
  rw [hbyname, hbyname]

/-! ### The TLS groups -/

/-- A loop that selects no group. -/
theorem passSel_none {adv : LdGroup → Bool} {base : Nat}
    (h : ∀ g ∈ gs, sel g = false) (o : Nat) : passSel sel adv base o gs = (gs, o) := by
  induction gs generalizing o with
  | nil => rfl
  | cons g gs ih =>
    unfold passSel
    rw [if_neg (by rw [h g mem_cons_self]; decide),
      ih fun x hx => h x (mem_cons_of_mem g hx)]

/-- Placing the one group of a name is a loop that selects it. -/
theorem passSel_name {g : LdGroup}
    (hnd : (gs.map LdGroup.name).Nodup) (hg : gs[k]? = some g) (hn : g.name = n)
    (adv : LdGroup → Bool) (base o : Nat) :
    passSel (fun g => g.name == n) adv base o gs
      = (gs.set k (g.setPos base (alignUp64 o g.alignOf)),
          if adv g then add64 (alignUp64 o g.alignOf) g.size else alignUp64 o g.alignOf) := by
  induction gs generalizing k with
  | nil => cases hg
  | cons x xs ih =>
    obtain ⟨hx, hnd'⟩ := nodup_cons.mp hnd
    unfold passSel
    cases k with
    | zero =>
      obtain rfl : x = g := Option.some.inj hg
      -- no later group has the name
      have hrest : ∀ y ∈ xs, (fun g : LdGroup => g.name == n) y = false := fun y hy => by
        have hne : y.name ≠ n := fun hc => hx (hn ▸ hc ▸ mem_map_of_mem hy)
        simpa using hne
      rw [if_pos (by simpa using hn)]
      dsimp only
      rw [passSel_none hrest, set_cons_zero]
    | succ k =>
      have hmem : g ∈ xs := mem_of_getElem? hg
      have hne : x.name ≠ n := fun hc => hx (hc ▸ hn ▸ mem_map_of_mem hmem)
      rw [if_neg (by simpa using hne)]
      rw [ih hnd' hg, set_cons_succ]

/-- Placing the group of a name, wherever it is in the list. -/
theorem single_lays (gs : List LdGroup) (n : String) (adv : LdGroup → Bool) (base : Nat)
    (hpow : PowAligned (gs.filter fun g => g.name == n))
    (hfit : base + o + extent (gs.filter fun g => g.name == n) ≤ 2 ^ 64) :
    Lays (fun g => g.name == n) gs (passSel (fun g => g.name == n) adv base o gs).1
        ((groupWalk adv o (gs.filter fun g => g.name == n)).map (place base))
      ∧ (passSel (fun g => g.name == n) adv base o gs).2
          = groupEnd adv o (gs.filter fun g => g.name == n) :=
  passSel_lays adv base (fun base off g => by rw [LdGroup.setPos_name]) hpow hfit

/-- The place of `.tdata`. -/
theorem layTdata_eq (hnd : (gs.map LdGroup.name).Nodup) (base o : Nat) :
    layTdata base (findGroup gs ".tdata") (gs, o)
      = passSel (fun g => g.name == ".tdata") (fun _ => true) base o gs := by
  unfold layTdata
  cases hf : findGroup gs ".tdata" with
  | none =>
    have hno := findGroup_eq_none.mp hf
    rw [passSel_none fun g hg => by simpa using hno g hg]
  | some k =>
    obtain ⟨g, hg, hn⟩ := (findGroup_eq_some hnd).mp hf
    rw [passSel_name hnd hg hn]
    unfold placeAt
    dsimp only
    rw [hg]
    rw [if_pos rfl]

/-- The place of `.tbss` where there is no `.tdata`. -/
theorem layTbss_alone (hnd : (gs.map LdGroup.name).Nodup) (base o : Nat) :
    layTbss base none (findGroup gs ".tbss") (gs, o)
      = passSel (fun g => g.name == ".tbss") (fun g => !g.nobits) base o gs := by
  unfold layTbss
  cases hf : findGroup gs ".tbss" with
  | none =>
    have hno := findGroup_eq_none.mp hf
    rw [passSel_none fun g hg => by simpa using hno g hg]
  | some k =>
    obtain ⟨g, hg, hn⟩ := (findGroup_eq_some hnd).mp hf
    rw [passSel_name hnd hg hn]
    dsimp only [Option.bind]
    rw [hg]
    dsimp only
    cases g.nobits
    · rw [if_neg (by decide), if_pos (by decide)]
    · rw [if_pos rfl, if_neg (by decide)]

/-- The place of `.tbss` behind `.tdata`, where the offset is and stays. -/
theorem layTbss_behind (hnd : (gs.map LdGroup.name).Nodup) (base : Nat) {td : LdGroup}
    (htd : gs[k]? = some td) (ho : add64 td.file_offset td.size = o) :
    layTbss base (some k) (findGroup gs ".tbss") (gs, o)
      = ((passSel (fun g => g.name == ".tbss") (fun _ => true) base o gs).1, o) := by
  unfold layTbss
  cases hf : findGroup gs ".tbss" with
  | none =>
    have hno := findGroup_eq_none.mp hf
    rw [passSel_none fun g hg => by simpa using hno g hg]
  | some j =>
    obtain ⟨g, hg, hn⟩ := (findGroup_eq_some hnd).mp hf
    rw [passSel_name hnd hg hn]
    dsimp only [Option.bind]
    rw [htd]
    dsimp only
    rw [ho]
    unfold placeAt
    rw [hg]

/-! ### Past all groups -/

/-- The largest end among groups, not below `o`. -/
def furthest (o : Nat) (gs : List LdGroup) : Nat :=
  gs.foldl (fun acc g => max acc (g.file_offset + g.size)) o

theorem le_furthest (o : Nat) (gs : List LdGroup) :
    o ≤ furthest o gs ∧ ∀ g ∈ gs, g.file_offset + g.size ≤ furthest o gs := by
  induction gs generalizing o with
  | nil => exact ⟨le_rfl, fun g hg => by cases hg⟩
  | cons x xs ih =>
    obtain ⟨hlo, hall⟩ := ih (max o (x.file_offset + x.size))
    refine ⟨(le_max_left _ _).trans hlo, fun g hg => ?_⟩
    rcases mem_cons.mp hg with rfl | hg
    · exact (le_max_right _ _).trans hlo
    · exact hall g hg

theorem furthest_le {b : Nat} (ho : o ≤ b)
    (h : ∀ g ∈ gs, g.file_offset + g.size ≤ b) : furthest o gs ≤ b := by
  induction gs generalizing o with
  | nil => exact ho
  | cons x xs ih =>
    exact ih (max_le ho (h x mem_cons_self)) fun g hg => h g (mem_cons_of_mem x hg)

theorem furthest_eq_foldl (o : Nat) (gs : List LdGroup) :
    furthest o gs = (gs.map fun g => g.file_offset + g.size).foldl max o := by
  rw [foldl_map]
  rfl

theorem furthest_perm (h : gs.Perm hs) (o : Nat) :
    furthest o gs = furthest o hs := by
  rw [furthest_eq_foldl, furthest_eq_foldl]
  exact (h.map _).foldl_eq o

theorem pastGroups_eq {tls : Nat → Bool} (i o : Nat) (htls : TlsByName (fun k => tls (i + k)) gs)
    (hlt : ∀ g ∈ gs, g.tls = false → g.file_offset + g.size < 2 ^ 64) :
    pastGroups tls i gs o = furthest o (gs.filter fun g => !g.tls) := by
  induction gs generalizing i o with
  | nil => rfl
  | cons g gs ih =>
    have h0 : tls i = g.tls := htls 0 g rfl
    have hrec : TlsByName (fun k => tls (i + 1 + k)) gs := fun k g' hk => by
      have hnext : tls (i + (k + 1)) = g'.tls := htls (k + 1) g' (by simpa using hk)
      rwa [show i + (k + 1) = i + 1 + k by omega] at hnext
    have hlt' : ∀ x ∈ gs, x.tls = false → x.file_offset + x.size < 2 ^ 64 :=
      fun x hx => hlt x (mem_cons_of_mem g hx)
    unfold pastGroups
    rw [h0]
    cases ht : g.tls with
    | true =>
      rw [if_pos rfl, filter_cons_of_neg (by rw [ht]; decide), ih _ _ hrec hlt']
    | false =>
      rw [if_neg (by decide), filter_cons_of_pos (by rw [ht]; decide),
        add64_eq (hlt g mem_cons_self ht), ih _ _ hrec hlt']
      -- the larger of the two is the maximum
      have hmax : (if g.file_offset + g.size > o then g.file_offset + g.size else o)
          = max o (g.file_offset + g.size) := by
        split <;> omega
      rw [hmax]
      rfl

end MeuOS.Ld
