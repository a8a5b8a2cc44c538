import MeuOS.Ld.Passes

namespace MeuOS.Ld

open MeuOS.Lib List

/-!
# The layout as a plan

`plan` says in exact arithmetic where a cursor puts the groups, pass by pass;
`layoutOutput_plan` says that `layout_output` computes it as long as 64 bits are enough.
-/

/-! ### Which pass places a group -/

/-- No pass places the group: its rank is unknown, or it takes no file space and has a rank
    that pass 2 leaves out. -/
def LdGroup.skipped (g : LdGroup) : Bool :=
  !g.tls && (decide (g.rank < 0) || decide (6 < g.rank) || (g.nobits && decide (g.rank < 2)))

/-- Pass 1 or pass 2 places the group. -/
def LdGroup.early (g : LdGroup) : Bool :=
  !g.tls && (decide (0 ≤ g.rank) && decide (g.rank ≤ 4)) && !(g.nobits && decide (g.rank < 2))

/-- The read-only groups that take file space. -/
def readOnly (gs : List LdGroup) : List LdGroup := chron selLoaded [0, 1] gs

/-- The writable groups that take file space. -/
def writable (gs : List LdGroup) : List LdGroup := chron selLoaded [2, 3, 4] gs

/-- The groups of pass 2. -/
def zeroed (gs : List LdGroup) : List LdGroup := chron selNobits [2, 3, 4] gs

/-- The groups of pass 3. -/
def trailing (gs : List LdGroup) : List LdGroup := chron selRest [5, 6] gs

/-- The groups of a name: one or none. -/
def named (n : String) (gs : List LdGroup) : List LdGroup := gs.filter fun g => g.name == n

variable {ranks : List Int} {g : LdGroup} {gs : List LdGroup}

theorem selAny_loaded :
    selAny selLoaded ranks g ↔ g.rank ∈ ranks ∧ g.nobits = false ∧ g.tls = false := by
  simp only [selAny, selLoaded, any_eq_true, Bool.and_eq_true, beq_iff_eq,
    Bool.not_eq_true']
  exact ⟨fun ⟨r, hr, ⟨he, hn⟩, ht⟩ => ⟨he ▸ hr, hn, ht⟩,
    fun ⟨hr, hn, ht⟩ => ⟨g.rank, hr, ⟨rfl, hn⟩, ht⟩⟩

theorem selAny_nobits :
    selAny selNobits ranks g ↔ g.rank ∈ ranks ∧ g.nobits = true ∧ g.tls = false := by
  simp only [selAny, selNobits, any_eq_true, Bool.and_eq_true, beq_iff_eq,
    Bool.not_eq_true']
  exact ⟨fun ⟨r, hr, ⟨he, hn⟩, ht⟩ => ⟨he ▸ hr, hn, ht⟩,
    fun ⟨hr, hn, ht⟩ => ⟨g.rank, hr, ⟨rfl, hn⟩, ht⟩⟩

theorem selAny_rest :
    selAny selRest ranks g ↔ g.rank ∈ ranks ∧ g.tls = false := by
  simp only [selAny, selRest, any_eq_true, Bool.and_eq_true, beq_iff_eq,
    Bool.not_eq_true']
  exact ⟨fun ⟨r, hr, he, ht⟩ => ⟨he ▸ hr, ht⟩, fun ⟨hr, ht⟩ => ⟨g.rank, hr, rfl, ht⟩⟩

theorem exclusive_loaded : Exclusive selLoaded := by
  intro r r' g hne h
  simp only [selLoaded, Bool.and_eq_true, beq_iff_eq] at h ⊢
  simp [h.1, Ne.symm hne]

theorem exclusive_nobits : Exclusive selNobits := by
  intro r r' g hne h
  simp only [selNobits, Bool.and_eq_true, beq_iff_eq] at h ⊢
  simp [h.1, Ne.symm hne]

theorem exclusive_rest : Exclusive selRest := by
  intro r r' g hne h
  simp only [selRest, beq_iff_eq] at h ⊢
  simp [h, Ne.symm hne]

/-- What the passes before the TLS groups place. -/
def selEarly (g : LdGroup) : Bool :=
  (selAny selLoaded [0, 1] g || selAny selLoaded [2, 3, 4] g) || selAny selNobits [2, 3, 4] g

/-- What any pass places. -/
def selPlaced (g : LdGroup) : Bool :=
  ((selEarly g || g.name == ".tdata") || g.name == ".tbss") || selAny selRest [5, 6] g

theorem selEarly_iff : selEarly g ↔ g.early := by
  unfold selEarly LdGroup.early
  rw [Bool.or_eq_true, Bool.or_eq_true, selAny_loaded, selAny_loaded, selAny_nobits]
  simp only [mem_cons, not_mem_nil, or_false, Bool.and_eq_true, Bool.not_eq_true',
    Bool.and_eq_false_iff, decide_eq_true_eq, decide_eq_false_iff_not]
  cases g.nobits <;> cases g.tls <;> simp <;> omega

theorem selPlaced_iff : selPlaced g ↔ g.skipped = false := by
  have htls : g.tls = (g.name == ".tdata" || g.name == ".tbss") := rfl
  unfold selPlaced LdGroup.skipped
  rw [Bool.or_eq_true, Bool.or_assoc (selEarly g), Bool.or_eq_true, selEarly_iff, selAny_rest,
    ← htls]
  simp only [LdGroup.early, mem_cons, not_mem_nil, or_false, Bool.and_eq_true,
    Bool.not_eq_true', Bool.and_eq_false_iff, Bool.or_eq_false_iff, decide_eq_true_eq,
    decide_eq_false_iff_not, Bool.not_eq_false']
  cases g.nobits <;> cases g.tls <;> simp <;> omega

/-! ### The plan -/

/-- Where everything goes: the groups with their starts, pass by pass. -/
structure Plan where
  /-- pass 1 -/
  loaded : List (LdGroup × Nat)
  /-- pass 2 -/
  zeroed : List (LdGroup × Nat)
  tdata : List (LdGroup × Nat)
  tbss : List (LdGroup × Nat)
  /-- pass 3 -/
  trailing : List (LdGroup × Nat)

/-- Pass 1 advances behind every group. -/
def always (_ : LdGroup) : Bool := true

/-- Pass 2 never advances. -/
def never (_ : LdGroup) : Bool := false

/-- Pass 3 advances behind the groups that take file space. -/
def byBits (g : LdGroup) : Bool := !g.nobits

/-- The offset after the read-only groups, on a page. -/
def writableStart (gs : List LdGroup) : Nat :=
  alignUp (groupEnd always LD_PAGE (readOnly gs)) LD_PAGE

/-- Pass 1. -/
def loadedWalk (gs : List LdGroup) : List (LdGroup × Nat) :=
  groupWalk always LD_PAGE (readOnly gs) ++ groupWalk always (writableStart gs) (writable gs)

/-- The offset after pass 1. -/
def loadedEnd (gs : List LdGroup) : Nat := groupEnd always (writableStart gs) (writable gs)

/-- Pass 2. -/
def zeroedWalk (gs : List LdGroup) : List (LdGroup × Nat) :=
  groupWalk never (loadedEnd gs) (zeroed gs)

/-- The groups that are not TLS as they stand before the TLS groups are placed. -/
def beforeTls (gs : List LdGroup) : List LdGroup :=
  (loadedWalk gs ++ zeroedWalk gs).map (place 0) ++ gs.filter fun g => !g.early && !g.tls

/-- The offset past all of them. -/
def pastEnd (gs : List LdGroup) : Nat :=
  furthest (groupEnd never (loadedEnd gs) (zeroed gs)) (beforeTls gs)

/-- The offset behind `.tdata`. -/
def tdataEnd (gs : List LdGroup) : Nat := groupEnd always (pastEnd gs) (named ".tdata" gs)

/-- Behind `.tdata` the offset of `.tbss` is not looked at again. -/
def tbssAdv (gs : List LdGroup) (g : LdGroup) : Bool := !(named ".tdata" gs).isEmpty || byBits g

/-- The offset before pass 3. -/
def trailingStart (gs : List LdGroup) : Nat :=
  if (named ".tdata" gs).isEmpty then groupEnd (tbssAdv gs) (tdataEnd gs) (named ".tbss" gs)
  else tdataEnd gs

/-- The plan for a list of groups. -/
def plan (gs : List LdGroup) : Plan :=
  { loaded := loadedWalk gs
    zeroed := zeroedWalk gs
    tdata := groupWalk always (pastEnd gs) (named ".tdata" gs)
    tbss := groupWalk (tbssAdv gs) (tdataEnd gs) (named ".tbss" gs)
    trailing := groupWalk byBits (trailingStart gs) (trailing gs) }

/-- All placed groups of a plan. -/
def Plan.all (p : Plan) : List (LdGroup × Nat) :=
  p.loaded ++ p.zeroed ++ p.tdata ++ p.tbss ++ p.trailing

/-- 64 bits are enough: the page before the groups, the page boundary between read-only and
    writable ones, and twice the sizes with their alignments, as `layout_output` passes over
    the sizes of groups it places later. -/
def GroupTable.Fits (t : GroupTable) (base : Nat) : Prop :=
  base + 2 * LD_PAGE + 2 * extent t.groups ≤ 2 ^ 64

/-! ### The groups of the plan are the groups that are not skipped -/

theorem chron_perm {sel : Int → LdGroup → Bool} (hex : Exclusive sel)
    (hnd : ranks.Nodup) (gs : List LdGroup) :
    (chron sel ranks gs).Perm (gs.filter (selAny sel ranks)) := by
  induction ranks with
  | nil =>
    rw [show gs.filter (selAny sel []) = [] from filter_eq_nil_iff.mpr fun g _ => by
      simp [selAny]]
    exact List.Perm.nil
  | cons r rs ih =>
    have hnd' := nodup_cons.mp hnd
    have hsplit : (gs.filter (selAny sel (r :: rs))).Perm
        (gs.filter (fun g => sel r g && !g.tls) ++ gs.filter (selAny sel rs)) := by
      refine filter_or_perm (fun g hg => ?_) gs
      obtain ⟨r', hr', hg'⟩ := any_eq_true.mp hg
      have hne : r ≠ r' := fun h => hnd'.1 (h ▸ hr')
      simp only [Bool.and_eq_true] at hg'
      show (sel r g && !g.tls) = false
      rw [hex r r' g hne hg'.1, Bool.false_and]
    exact ((ih hnd'.2).append_left _).trans hsplit.symm

theorem readOnly_perm (gs : List LdGroup) :
    (readOnly gs).Perm (gs.filter (selAny selLoaded [0, 1])) :=
  chron_perm exclusive_loaded (by decide) gs

theorem writable_perm (gs : List LdGroup) :
    (writable gs).Perm (gs.filter (selAny selLoaded [2, 3, 4])) :=
  chron_perm exclusive_loaded (by decide) gs

theorem zeroed_perm (gs : List LdGroup) :
    (zeroed gs).Perm (gs.filter (selAny selNobits [2, 3, 4])) :=
  chron_perm exclusive_nobits (by decide) gs

theorem trailing_perm (gs : List LdGroup) :
    (trailing gs).Perm (gs.filter (selAny selRest [5, 6])) :=
  chron_perm exclusive_rest (by decide) gs

theorem writable_not_readOnly (g : LdGroup) (h : selAny selLoaded [2, 3, 4] g) :
    selAny selLoaded [0, 1] g = false := by
  rw [Bool.eq_false_iff]
  intro h'
  rw [selAny_loaded] at h h'
  simp only [mem_cons, not_mem_nil, or_false] at h h'
  omega

theorem zeroed_not_loaded (g : LdGroup) (h : selAny selNobits [2, 3, 4] g) :
    (selAny selLoaded [0, 1] g || selAny selLoaded [2, 3, 4] g) = false := by
  rw [selAny_nobits] at h
  rw [Bool.or_eq_false_iff, Bool.eq_false_iff, Bool.eq_false_iff]
  constructor
  · intro h'
    exact absurd (h.2.1.symm.trans (selAny_loaded.mp h').2.1) (by decide)
  · intro h'
    exact absurd (h.2.1.symm.trans (selAny_loaded.mp h').2.1) (by decide)

theorem selEarly_not_tls (h : selEarly g) : g.tls = false := by
  have h' := selEarly_iff.mp h
  unfold LdGroup.early at h'
  simp only [Bool.and_eq_true, Bool.not_eq_true'] at h'
  exact h'.1.1

theorem named_not_early {n : String} (hn : n = ".tdata" ∨ n = ".tbss") (g : LdGroup)
    (h : (g.name == n) = true) : selEarly g = false := by
  rw [Bool.eq_false_iff]
  intro he
  have htls : g.tls = true := by
    unfold LdGroup.tls
    rcases hn with rfl | rfl
    · rw [h, Bool.true_or]
    · rw [h, Bool.or_true]
  rw [selEarly_not_tls he] at htls
  cases htls

theorem tbss_not_tdata (g : LdGroup) (h : (g.name == ".tbss") = true) :
    (g.name == ".tdata") = false := by
  rw [beq_iff_eq] at h
  rw [h]
  decide

theorem trailing_not_before (g : LdGroup) (h : selAny selRest [5, 6] g) :
    ((selEarly g || g.name == ".tdata") || g.name == ".tbss") = false := by
  obtain ⟨hr, ht⟩ := selAny_rest.mp h
  rw [Bool.or_assoc, Bool.or_eq_false_iff]
  refine ⟨?_, ht⟩
  rw [Bool.eq_false_iff]
  intro he
  have h' := selEarly_iff.mp he
  simp only [LdGroup.early, Bool.and_eq_true, decide_eq_true_eq] at h'
  simp only [mem_cons, not_mem_nil, or_false] at hr
  omega

theorem early_perm (gs : List LdGroup) :
    (readOnly gs ++ writable gs ++ zeroed gs).Perm (gs.filter selEarly) := by
  have hload := (filter_or_perm writable_not_readOnly gs).symm
  have hall := (filter_or_perm zeroed_not_loaded gs).symm
  exact (((readOnly_perm gs).append (writable_perm gs)).trans hload |>.append
    (zeroed_perm gs)).trans hall

/-- The groups any pass places, in their order. -/
theorem placed_perm (gs : List LdGroup) :
    (readOnly gs ++ writable gs ++ zeroed gs ++ named ".tdata" gs ++ named ".tbss" gs
      ++ trailing gs).Perm (gs.filter selPlaced) := by
  have h1 := (filter_or_perm (named_not_early (Or.inl rfl)) gs).symm
  have h2 : (gs.filter (fun g => selEarly g || g.name == ".tdata")
      ++ gs.filter fun g => g.name == ".tbss").Perm
      (gs.filter fun g => (selEarly g || g.name == ".tdata") || g.name == ".tbss") :=
    (filter_or_perm (fun g h => by
      rw [named_not_early (Or.inr rfl) g h, tbss_not_tdata g h]; rfl) gs).symm
  have h3 := (filter_or_perm trailing_not_before gs).symm
  have hstep := (((early_perm gs).append_right (named ".tdata" gs)).trans h1).append_right
    (named ".tbss" gs)
  exact ((hstep.trans h2).append (trailing_perm gs)).trans h3

theorem extent_perm {hs : List LdGroup} (h : gs.Perm hs) : extent gs = extent hs :=
  (h.map _).sum_nat

theorem extent_filter_le (sel : LdGroup → Bool) (gs : List LdGroup) :
    extent (gs.filter sel) ≤ extent gs := by
  induction gs with
  | nil => exact le_rfl
  | cons g gs ih =>
    by_cases h : sel g
    · rw [filter_cons_of_pos h, extent_cons, extent_cons]
      omega
    · rw [filter_cons_of_neg h, extent_cons]
      omega

/-- The passes together use each group once. -/
theorem extent_placed_le (gs : List LdGroup) :
    extent (readOnly gs) + extent (writable gs) + extent (zeroed gs)
      + extent (named ".tdata" gs) + extent (named ".tbss" gs) + extent (trailing gs)
        ≤ extent gs := by
  have h := extent_perm (placed_perm gs)
  have hle := extent_filter_le selPlaced gs
  rw [← h] at hle
  simpa only [extent_append] using hle

/-- The size of one group is part of the extent. -/
theorem size_le_extent (h : g ∈ gs) :
    g.size + g.align ≤ extent gs := by
  induction gs with
  | nil => cases h
  | cons x xs ih =>
    rw [extent_cons]
    rcases mem_cons.mp h with rfl | h
    · omega
    · have := ih h
      omega

theorem chron_sub {sel : Int → LdGroup → Bool} (h : g ∈ chron sel ranks gs) : g ∈ gs := by
  obtain ⟨r, _, hr⟩ := mem_flatMap.mp h
  exact mem_of_mem_filter hr

theorem GroupTable.powAligned (t : GroupTable) : PowAligned t.groups :=
  fun g hg => (t.fresh g hg).align_pow

theorem GroupTable.powAligned_chron (t : GroupTable) (sel : Int → LdGroup → Bool)
    (ranks : List Int) : PowAligned (chron sel ranks t.groups) :=
  fun g hg => t.powAligned g (chron_sub hg)

theorem GroupTable.powAligned_named (t : GroupTable) (n : String) :
    PowAligned (named n t.groups) :=
  fun g hg => t.powAligned g (mem_of_mem_filter hg)

end MeuOS.Ld
