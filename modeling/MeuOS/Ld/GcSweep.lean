import MeuOS.Lib.Bytes
import MeuOS.Lib.Marking
import MeuOS.Ld.SymbolValue

namespace MeuOS.Ld

open MeuOS.Lib List

/-!
# Section garbage collection (`link.c`)

`gc_sweep` marks the output groups that the roots reach along relocations and takes the data of the
others.

* `gcPass`, `gcRounds`, `gcSweep` — the code;
* `RelocEdge` — one group refers to another by a relocation;
* `gcEdges` — the references that the sweep follows;
* `gcPass_eq` — a pass over the objects is a pass over these references;
* `gcRounds_spec` — the passes end, in a division by zero or with what is reachable;
* `gcSweep_safe_iff` — when everything that is reachable survives.
-/

/-! ### Objects with relocations -/

/-- `MT_SHT_RELA`. -/
def SHT_RELA : Nat := 4

/-- `MT_SHT_REL`. -/
def SHT_REL : Nat := 9

/-- An object with what the relocation code reads of it: its ELF class, its bytes, and `sh_offset`
    and `sh_info` of its section headers. -/
structure RelocObject where
  object : LdObject
  elf_class : Nat
  data : Bytes
  offset : Nat → Nat
  info : Nat → Nat

/-- `object_section_count`. -/
def RelocObject.count (o : RelocObject) : Nat := o.object.elf.sections.length

/-- The symbol index of an entry of a relocation section, as the ELF class has it. -/
def RelocObject.relocSymbol (o : RelocObject) (k : Nat) (sec : ElfSection) (r : Nat) : Nat :=
  let p := o.offset k + r * sec.entry_size
  if o.elf_class = 1 then leNat (slice o.data (p + 4) 4) >>> 8
  else leNat (slice o.data (p + 8) 8) >>> 32

/-- The group of the section that a relocation section is for, among the `n` groups. -/
def RelocObject.targetGroup (n : Nat) (o : RelocObject) (k : Nat) : Option Nat :=
  ((o.object.map (o.info k)).map Prod.fst).filter (· < n)

/-- `object_get_symbol`. -/
def objectGetSymbol (o : LdObject) (index : Nat) : Option ElfSymbol :=
  match findSymtab o.elf.sections 0 with
  | .found i s => if index < s.count then o.elf.symbol i index else none
  | _ => none

/-! ### The sweep -/

/-- The group that the sweep sees behind an entry: that of the section where the symbol is, when
    the object has it. -/
def gcTarget (n : Nat) (o : RelocObject) (k : Nat) (sec : ElfSection) (r : Nat) : Option Nat :=
  (objectGetSymbol o.object (o.relocSymbol k sec r)).bind fun sym =>
    if 0 < sym.sec then ((o.object.map sym.sec).map Prod.fst).filter (· < n) else none

/-- One entry of a relocation section whose target is kept. -/
def gcReloc (n : Nat) (o : RelocObject) (k : Nat) (sec : ElfSection) (st : List Bool × Bool) (r : Nat) :
    List Bool × Bool :=
  match gcTarget n o k sec r with
  | none => st
  | some sg => if st.1[sg]? = some false then (st.1.set sg true, true) else st

/-- One section of an object; `none` is the division by an entry size of zero. -/
def gcSection (n : Nat) (o : RelocObject) (st : List Bool × Bool) (k : Nat) : Option (List Bool × Bool) :=
  match o.object.elf.getSection k with
  | none => some st
  | some sec =>
    if sec.type ≠ SHT_RELA then some st
    else
      match o.targetGroup n k with
      | none => some st
      | some tg =>
        if ¬ Marked st.1 tg then some st
        else if sec.entry_size = 0 then none
        else some ((range (sec.size / sec.entry_size)).foldl (gcReloc n o k sec) st)

/-- The sections of an object. -/
def gcObject (n : Nat) (st : List Bool × Bool) (o : RelocObject) : Option (List Bool × Bool) :=
  (range o.count).foldlM (gcSection n o) st

/-- The body of the `do` loop: all objects. -/
def gcPass (n : Nat) (objects : List RelocObject) (st : List Bool × Bool) : Option (List Bool × Bool) :=
  objects.foldlM (gcObject n) st

/-- How a sweep ends. -/
inductive GcResult (α : Type) where
  | divisionByZero
  | outOfFuel
  | done (result : α)
  deriving DecidableEq

/-- The `do` loop. -/
def gcRounds (n : Nat) (objects : List RelocObject) : Nat → List Bool → GcResult (List Bool)
  | 0, _ => .outOfFuel
  | fuel + 1, marks =>
    match gcPass n objects (marks, false) with
    | none => .divisionByZero
    | some (marks', changed) => if changed then gcRounds n objects fuel marks' else .done marks'

/-- The groups that are kept from the start by their names. -/
def gcRootName (name : String) : Bool :=
  name == ".init_array" || name == ".fini_array" || name == ".init" || name == ".fini"

/-- The marks before the first pass: the root sections and the group of the entry symbol. -/
def gcRoots (groups : List LdGroup) (globals : GlobalTable) (entry : Option String) : List Bool :=
  let marks := groups.map fun g => gcRootName g.name
  match entry.bind globals.find with
  | none => marks
  | some g =>
    if g.defined then
      match g.group with
      | none => marks
      | some k => marks.set k true
    else marks

/-- What becomes of a group and its data. -/
def sweepGroup (kept : Bool) (g : LdGroup × Bytes) : LdGroup × Bytes :=
  if kept then g
  else if !g.1.alloc then g
  else ({ g.1 with size := 0, type := SHT_NOBITS }, [])

/-- `gc_sweep`. -/
def gcSweep (groups : List (LdGroup × Bytes)) (objects : List RelocObject) (globals : GlobalTable)
    (entry : Option String) : GcResult (List (LdGroup × Bytes)) :=
  match gcRounds groups.length objects (groups.length + 1) (gcRoots (groups.map Prod.fst) globals entry) with
  | .divisionByZero => .divisionByZero
  | .outOfFuel => .outOfFuel
  | .done marks => .done (zipWith sweepGroup marks groups)

/-! ### References between groups -/

/-- The group that `symbol_value` takes the address of. -/
def symbolGroup (globals : GlobalTable) (o : LdObject) (index : Nat) : Option Nat :=
  match getSymbolByIndex o index with
  | .error _ => none
  | .ok (sym, name) =>
    if sym.sec = SHN_UNDEF then
      (globals.find name).bind fun g => if g.defined && !g.absolute then g.group else none
    else if sym.sec = SHN_COMMON then
      (globals.find name).bind fun g => if g.defined then g.group else none
    else (o.map sym.sec).map Prod.fst

/-- A relocation in a section of the first group takes the address of the second one. -/
def RelocEdge (n : Nat) (globals : GlobalTable) (objects : List RelocObject) (a b : Nat) : Prop :=
  ∃ o ∈ objects, ∃ k sec, o.object.elf.getSection k = some sec ∧
    (sec.type = SHT_RELA ∨ sec.type = SHT_REL) ∧ o.targetGroup n k = some a ∧
    b < n ∧ ∃ r < sec.size / sec.entry_size,
      symbolGroup globals o.object (o.relocSymbol k sec r) = some b

/-- The references of a section that the sweep follows: those of a RELA section against a symbol
    that the object has in one of its sections. -/
def sectionEdges (n : Nat) (o : RelocObject) (k : Nat) : List (Nat × Nat) :=
  match o.object.elf.getSection k with
  | none => []
  | some sec =>
    if sec.type ≠ SHT_RELA then []
    else
      match o.targetGroup n k with
      | none => []
      | some tg =>
        (range (sec.size / sec.entry_size)).filterMap fun r =>
          (gcTarget n o k sec r).map fun sg => (tg, sg)

/-- The references that the sweep follows, in its order. -/
def gcEdges (n : Nat) (objects : List RelocObject) : List (Nat × Nat) :=
  objects.flatMap fun o => (range o.count).flatMap (sectionEdges n o)

/-- The sweep follows a reference. -/
def Followed (n : Nat) (objects : List RelocObject) (a b : Nat) : Prop := (a, b) ∈ gcEdges n objects

/-- A RELA section without an entry size is for a section of the group. -/
def ZeroEntry (n : Nat) (objects : List RelocObject) (a : Nat) : Prop :=
  ∃ o ∈ objects, ∃ k < o.count, ∃ sec, o.object.elf.getSection k = some sec ∧
    sec.type = SHT_RELA ∧ o.targetGroup n k = some a ∧ sec.entry_size = 0

/-! ### A pass over the objects -/

/-- The entries of a section whose target is marked. -/
theorem foldl_gcReloc {n : Nat} {o : RelocObject} {k tg : Nat} {sec : ElfSection} (rs : List Nat)
    {st : List Bool × Bool} (h : Marked st.1 tg) :
    rs.foldl (gcReloc n o k sec) st
      = markPass (rs.filterMap fun r => (gcTarget n o k sec r).map fun sg => (tg, sg)) st := by
  induction rs generalizing st with
  | nil => rfl
  | cons r rs ih =>
    rw [foldl_cons]
    rcases hsg : gcTarget n o k sec r with _ | sg
    · rw [filterMap_cons_none (by rw [hsg]; rfl)]
      have hskip : gcReloc n o k sec st r = st := by
        unfold gcReloc
        rw [hsg]
      rw [hskip]
      exact ih h
    · rw [filterMap_cons_some (by rw [hsg]; rfl)]
      -- the source is marked, so only the target decides
      have hstep : gcReloc n o k sec st r = markEdge st (tg, sg) := by
        unfold gcReloc markEdge
        rw [hsg]
        dsimp only
        by_cases hc : st.1[sg]? = some false
        · rw [if_pos hc, if_pos ⟨h, hc⟩]
        · rw [if_neg hc, if_neg fun hb => hc hb.2]
      rw [hstep]
      exact ih (markEdge_mono h _)

/-- References from a group that is not marked mark nothing. -/
theorem markPass_unmarked {edges : List (Nat × Nat)} {a : Nat} (hsource : ∀ e ∈ edges, e.1 = a)
    {st : List Bool × Bool} (h : ¬ Marked st.1 a) : markPass edges st = st := by
  induction edges with
  | nil => rfl
  | cons e es ih =>
    have hstep : markEdge st e = st := by
      apply if_neg
      rintro ⟨hmark, -⟩
      rw [hsource e mem_cons_self] at hmark
      exact h hmark
    show markPass es (markEdge st e) = st
    rw [hstep]
    exact ih fun e' he' => hsource e' (mem_cons_of_mem _ he')

/-- A section ends in a division by zero, or follows its references. -/
theorem gcSection_cases (n : Nat) (o : RelocObject) (st : List Bool × Bool) (k : Nat) :
    (∃ sec tg, o.object.elf.getSection k = some sec ∧ sec.type = SHT_RELA ∧
        o.targetGroup n k = some tg ∧ Marked st.1 tg ∧ sec.entry_size = 0 ∧
        gcSection n o st k = none) ∨
      gcSection n o st k = some (markPass (sectionEdges n o k) st) ∧
        ∀ sec tg, o.object.elf.getSection k = some sec → sec.type = SHT_RELA →
          o.targetGroup n k = some tg → Marked st.1 tg → sec.entry_size ≠ 0 := by
  unfold gcSection sectionEdges
  rcases hsec : o.object.elf.getSection k with _ | sec
  · exact Or.inr ⟨rfl, fun sec _ h => by cases h⟩
  dsimp only
  by_cases htype : sec.type = SHT_RELA
  swap
  · rw [if_pos htype, if_pos htype]
    refine Or.inr ⟨rfl, fun sec' _ h hrela => ?_⟩
    rw [← Option.some.inj h] at hrela
    exact absurd hrela htype
  rw [if_neg (not_not_intro htype), if_neg (not_not_intro htype)]
  rcases htg : o.targetGroup n k with _ | tg
  · exact Or.inr ⟨rfl, fun _ _ _ _ h => by cases h⟩
  dsimp only
  by_cases hmark : Marked st.1 tg
  swap
  · -- the group is not kept: the section is skipped
    rw [if_pos hmark]
    refine Or.inr ⟨?_, fun _ tg' _ _ h hm => ?_⟩
    · rw [markPass_unmarked _ hmark]
      intro e he
      obtain ⟨r, -, hr⟩ := mem_filterMap.mp he
      obtain ⟨sg, -, rfl⟩ := Option.map_eq_some_iff.mp hr
      rfl
    · rw [← Option.some.inj h] at hm
      exact absurd hm hmark
  rw [if_neg (not_not_intro hmark)]
  by_cases hzero : sec.entry_size = 0
  · rw [if_pos hzero]
    exact Or.inl ⟨sec, tg, rfl, htype, rfl, hmark, hzero, rfl⟩
  · rw [if_neg hzero, foldl_gcReloc _ hmark]
    refine Or.inr ⟨rfl, fun sec' _ h _ _ _ => ?_⟩
    rw [← Option.some.inj h]
    exact hzero

/-- The sections in the order in which the sweep visits them. -/
def visits (objects : List RelocObject) : List (RelocObject × Nat) :=
  objects.flatMap fun o => (range o.count).map fun k => (o, k)

/-- The two loops over objects and sections are one over the visits. -/
theorem gcPass_visits (n : Nat) (objects : List RelocObject) (st : List Bool × Bool) :
    gcPass n objects st = (visits objects).foldlM (fun st v => gcSection n v.1 st v.2) st := by
  unfold gcPass visits
  induction objects generalizing st with
  | nil => rfl
  | cons o os ih =>
    rw [foldlM_cons, flatMap_cons, foldlM_append, foldlM_map]
    show (gcObject n st o).bind _ = ((range o.count).foldlM (gcSection n o) st).bind _
    congr 1
    funext st'
    exact ih st'

theorem gcEdges_visits (n : Nat) (objects : List RelocObject) :
    gcEdges n objects = (visits objects).flatMap fun v => sectionEdges n v.1 v.2 := by
  unfold gcEdges visits
  rw [flatMap_assoc]
  congr 1
  funext o
  rw [flatMap_map]

theorem mem_visits {objects : List RelocObject} {v : RelocObject × Nat} :
    v ∈ visits objects ↔ v.1 ∈ objects ∧ v.2 < v.1.count := by
  obtain ⟨o, k⟩ := v
  unfold visits
  simp only [mem_flatMap, mem_map, mem_range, Prod.mk.injEq]
  constructor
  · rintro ⟨o', ho', k', hk', rfl, rfl⟩
    exact ⟨ho', hk'⟩
  · rintro ⟨ho, hk⟩
    exact ⟨o, ho, k, hk, rfl, rfl⟩

/-- A visit is for a section without an entry size, and its group is the one given. -/
def ZeroVisit (n : Nat) (v : RelocObject × Nat) (tg : Nat) : Prop :=
  ∃ sec, v.1.object.elf.getSection v.2 = some sec ∧ sec.type = SHT_RELA ∧
    v.1.targetGroup n v.2 = some tg ∧ sec.entry_size = 0

theorem zeroEntry_iff {n : Nat} {objects : List RelocObject} {a : Nat} :
    ZeroEntry n objects a ↔ ∃ v ∈ visits objects, ZeroVisit n v a := by
  constructor
  · rintro ⟨o, ho, k, hk, sec, hsec⟩
    exact ⟨(o, k), mem_visits.mpr ⟨ho, hk⟩, sec, hsec⟩
  · rintro ⟨⟨o, k⟩, hv, sec, hsec⟩
    exact ⟨o, (mem_visits.mp hv).1, k, (mem_visits.mp hv).2, sec, hsec⟩

/-- A run of visits ends in a division by zero for a group that is reached, or it is a pass over
    the references, and no group marked at its start has a section without an entry size. -/
theorem visits_cases (n : Nat) (vs : List (RelocObject × Nat)) {p : Nat → Prop}
    (hclosed : ∀ e ∈ vs.flatMap (fun v => sectionEdges n v.1 v.2), p e.1 → p e.2)
    {st : List Bool × Bool} (h : ∀ i, Marked st.1 i → p i) :
    (vs.foldlM (fun st v => gcSection n v.1 st v.2) st = none ∧ ∃ v ∈ vs, ∃ tg, ZeroVisit n v tg ∧ p tg) ∨
      vs.foldlM (fun st v => gcSection n v.1 st v.2) st
          = some (markPass (vs.flatMap fun v => sectionEdges n v.1 v.2) st) ∧
        ∀ v ∈ vs, ∀ tg, ZeroVisit n v tg → ¬ Marked st.1 tg := by
  induction vs generalizing st with
  | nil => exact Or.inr ⟨rfl, fun v hv => by cases hv⟩
  | cons v vs ih =>
    rw [foldlM_cons]
    rcases gcSection_cases n v.1 st v.2 with
      ⟨sec, tg, hsec, htype, htg, hmark, hzero, hnone⟩ | ⟨hsome, hno⟩
    · rw [hnone]
      exact Or.inl ⟨rfl, v, mem_cons_self, tg, ⟨sec, hsec, htype, htg, hzero⟩, h tg hmark⟩
    · rw [hsome, Option.bind_eq_bind, Option.bind_some]
      rw [flatMap_cons] at hclosed ⊢
      have hhere : ∀ e ∈ sectionEdges n v.1 v.2, p e.1 → p e.2 :=
        fun e he => hclosed e (mem_append_left _ he)
      have hthere : ∀ e ∈ vs.flatMap (fun v => sectionEdges n v.1 v.2), p e.1 → p e.2 :=
        fun e he => hclosed e (mem_append_right _ he)
      rcases @ih hthere (markPass (sectionEdges n v.1 v.2) st)
        (fun i hi => markPass_sound hhere h hi) with ⟨hnone, v', hv', hbad⟩ | ⟨hall, hrest⟩
      · exact Or.inl ⟨hnone, v', mem_cons_of_mem _ hv', hbad⟩
      · refine Or.inr ⟨?_, fun v' hv' tg hz hmark => ?_⟩
        · rw [hall]
          unfold markPass
          rw [foldl_append]
        · rcases mem_cons.mp hv' with rfl | hv'
          · obtain ⟨sec, hsec, htype, htg, hzero⟩ := hz
            exact hno sec tg hsec htype htg hmark hzero
          · exact hrest v' hv' tg hz (markPass_mono _ hmark)

/-! ### The passes end -/

/-- A reference leads to a group. -/
theorem gcEdges_lt {n : Nat} {objects : List RelocObject} {e : Nat × Nat}
    (h : e ∈ gcEdges n objects) : e.2 < n := by
  rw [gcEdges_visits] at h
  obtain ⟨v, -, hv⟩ := mem_flatMap.mp h
  unfold sectionEdges at hv
  split at hv
  · cases hv
  split at hv
  · cases hv
  split at hv
  · cases hv
  obtain ⟨r, -, hr⟩ := mem_filterMap.mp hv
  obtain ⟨sg, hsg, rfl⟩ := Option.map_eq_some_iff.mp hr
  obtain ⟨sym, -, hsym⟩ := Option.bind_eq_some_iff.mp hsg
  split at hsym
  · simpa using (Option.filter_eq_some_iff.mp hsym).2
  · cases hsym

/-- The sweep's loop ends: in a division by zero when a section without an entry size is for a
    group that the roots reach, else with the groups that they reach. -/
theorem gcRounds_spec (objects : List RelocObject) (roots : List Bool) :
    ∀ (fuel : Nat) (marks : List Bool), unmarked marks < fuel → marks.length = roots.length →
      (∀ i, Marked roots i → Marked marks i) →
      (∀ i, Marked marks i → ReachFrom (Followed roots.length objects) roots i) →
      (gcRounds roots.length objects fuel marks = .divisionByZero ∧
          ∃ a, ZeroEntry roots.length objects a ∧
            ReachFrom (Followed roots.length objects) roots a) ∨
        ∃ marks', gcRounds roots.length objects fuel marks = .done marks' ∧
          marks'.length = roots.length ∧
          (∀ i, Marked marks' i ↔ ReachFrom (Followed roots.length objects) roots i) ∧
          ∀ a, ZeroEntry roots.length objects a →
            ¬ ReachFrom (Followed roots.length objects) roots a := by
  intro fuel
  induction fuel with
  | zero => exact fun _ h => absurd h (Nat.not_lt_zero _)
  | succ fuel ih =>
    intro marks hfuel hlen hroots hsound
    have hclosed : ∀ e ∈ gcEdges roots.length objects,
        ReachFrom (Followed roots.length objects) roots e.1 →
          ReachFrom (Followed roots.length objects) roots e.2 := fun e he h => h.step he
    have hvisits := hclosed
    rw [gcEdges_visits] at hvisits
    unfold gcRounds
    rw [gcPass_visits]
    rcases @visits_cases roots.length (visits objects) _ hvisits (marks, false) hsound with
      ⟨hnone, v, hv, tg, hz, hreach⟩ | ⟨hsome, hno⟩
    · rw [hnone]
      exact Or.inl ⟨rfl, tg, zeroEntry_iff.mpr ⟨v, hv, hz⟩, hreach⟩
    rw [hsome, ← gcEdges_visits]
    dsimp only
    rcases hchanged : (markPass (gcEdges roots.length objects) (marks, false)).2 with _ | _
    · -- a pass that marks nothing leaves a closed marking
      obtain ⟨hsame, hstable⟩ := markPass_stable hchanged
      rw [hsame]
      have hedge : ∀ a b, Followed roots.length objects a b → Marked marks a →
          Marked marks b := by
        intro a b hab ha
        have hlt : b < marks.length := hlen ▸ gcEdges_lt hab
        have hno := hstable (a, b) hab ha
        show marks[b]? = some true
        rw [getElem?_eq_getElem hlt] at hno ⊢
        rcases hb : marks[b] with _ | _
        · exact absurd (congrArg some hb) hno
        · rfl
      have hmarked : ∀ i, Marked marks i ↔
          ReachFrom (Followed roots.length objects) roots i :=
        fun i => ⟨hsound i, ReachFrom.marked hroots hedge⟩
      refine Or.inr ⟨marks, rfl, hlen, hmarked, fun a hz hreach => ?_⟩
      obtain ⟨v, hv, hzv⟩ := zeroEntry_iff.mp hz
      exact hno v hv a hzv ((hmarked a).mpr hreach)
    · have hprogress := markPass_progress hchanged
      exact ih _ (by omega) ((markPass_length _ _).trans hlen)
        (fun i hi => markPass_mono _ (hroots i hi))
        (fun i hi => markPass_sound hclosed hsound hi)

/-! ### What survives -/

theorem gcRoots_length (groups : List LdGroup) (globals : GlobalTable) (entry : Option String) :
    (gcRoots groups globals entry).length = groups.length := by
  unfold gcRoots
  split
  · exact length_map _
  · split
    · split
      · exact length_map _
      · rw [length_set, length_map]
    · exact length_map _

/-- The group still has its size and its contents. -/
def Survives (out : List (LdGroup × Bytes)) (i : Nat) (g : LdGroup × Bytes) : Prop :=
  ∃ g', out[i]? = some g' ∧ g'.1.size = g.1.size ∧ g'.2 = g.2

/-- A group survives when it is marked, when it is not loaded and when it is empty. -/
theorem survives_iff {groups : List (LdGroup × Bytes)} {marks : List Bool}
    (hlen : marks.length = groups.length) {i : Nat} {g : LdGroup × Bytes}
    (hg : groups[i]? = some g) :
    Survives (zipWith sweepGroup marks groups) i g ↔
      Marked marks i ∨ g.1.alloc = false ∨ g.1.size = 0 ∧ g.2 = [] := by
  have hlt : i < marks.length := hlen ▸ (List.getElem?_eq_some_iff.mp hg).1
  have hget : (zipWith sweepGroup marks groups)[i]? = some (sweepGroup marks[i] g) := by
    rw [getElem?_zipWith, hg, getElem?_eq_getElem hlt]
  have hmark : Marked marks i ↔ marks[i] = true := by
    unfold Marked
    rw [getElem?_eq_getElem hlt, Option.some.injEq]
  rw [hmark]
  unfold Survives
  rw [hget]
  generalize marks[i] = kept
  unfold sweepGroup
  rcases kept with _ | _
  · rcases halloc : g.1.alloc with _ | _
    · simp
    · simp only [Bool.false_eq_true, if_false, Bool.not_true, Option.some.injEq, exists_eq_left',
        reduceCtorEq, false_or]
      exact ⟨fun h => ⟨h.1.symm, h.2.symm⟩, fun h => ⟨h.1.symm, h.2.symm⟩⟩
  · simp

/-- The sweep ends, and it ends without a division by zero and keeps all that the roots reach
    exactly when no RELA section without an entry size is for a group that it reaches, and every
    loaded group with contents that relocations reach is reached by those that it follows. -/
theorem gcSweep_safe_iff (groups : List (LdGroup × Bytes)) (objects : List RelocObject)
    (globals : GlobalTable) (entry : Option String) :
    gcSweep groups objects globals entry ≠ .outOfFuel ∧
    ((∃ out, gcSweep groups objects globals entry = .done out ∧
        ∀ i g, groups[i]? = some g →
          ReachFrom (RelocEdge groups.length globals objects)
            (gcRoots (groups.map Prod.fst) globals entry) i → Survives out i g) ↔
      (∀ a, ZeroEntry groups.length objects a →
          ¬ ReachFrom (Followed groups.length objects)
            (gcRoots (groups.map Prod.fst) globals entry) a) ∧
        ∀ i g, groups[i]? = some g → g.1.alloc = true → ¬ (g.1.size = 0 ∧ g.2 = []) →
          ReachFrom (RelocEdge groups.length globals objects)
            (gcRoots (groups.map Prod.fst) globals entry) i →
          ReachFrom (Followed groups.length objects)
            (gcRoots (groups.map Prod.fst) globals entry) i) := by
  have hlen : (gcRoots (groups.map Prod.fst) globals entry).length = groups.length := by
    rw [gcRoots_length, length_map]
  unfold gcSweep
  generalize gcRoots (groups.map Prod.fst) globals entry = roots at hlen ⊢
  have hfuel : unmarked roots < groups.length + 1 := by
    have : unmarked roots ≤ roots.length := count_le_length
    omega
  have hspec := gcRounds_spec objects roots (groups.length + 1) roots hfuel rfl (fun _ h => h)
    fun _ h => ReachFrom.root h
  rw [hlen] at hspec
  rcases hspec with ⟨hzero, a, ha, hreach⟩ | ⟨marks, hdone, hmarks, hmarked, hno⟩
  · rw [hzero]
    refine ⟨nofun, ?_, fun h => absurd hreach (h.1 a ha)⟩
    rintro ⟨out, hout, -⟩
    cases hout
  · rw [hdone]
    refine ⟨nofun, ?_⟩
    constructor
    · rintro ⟨out, hout, hall⟩
      refine ⟨hno, fun i g hg halloc hfull hreach => ?_⟩
      have hsurvives := hall i g hg hreach
      rw [← GcResult.done.inj hout, survives_iff hmarks hg] at hsurvives
      rcases hsurvives with hmark | hloaded | hempty
      · exact (hmarked i).mp hmark
      · rw [halloc] at hloaded
        cases hloaded
      · exact absurd hempty hfull
    · rintro ⟨-, hcond⟩
      refine ⟨_, rfl, fun i g hg hreach => ?_⟩
      rw [survives_iff hmarks hg]
      by_cases hempty : g.1.size = 0 ∧ g.2 = []
      · exact Or.inr (Or.inr hempty)
      · rcases halloc : g.1.alloc with _ | _
        · exact Or.inr (Or.inl rfl)
        · exact Or.inl ((hmarked i).mpr (hcond i g hg halloc hempty hreach))

/-! ### A call to another object -/

/-- The globals `_start`, in the first group, and `x`, in the second. -/
def startAndX : GlobalTable where
  items :=
    [{ name := "_start", group := some 0, defined := true },
      { name := "x", group := some 1, defined := true }]
  nodup := by decide
  named := by decide

/-- The groups of a program and of a function of another object. -/
def callGroups : List (LdGroup × Bytes) :=
  [({ name := ".text", type := 1, flags := 6, align := 1, size := 5, rank := 0 },
      [0xe8, 0, 0, 0, 0]),
    ({ name := ".text.x", type := 1, flags := 6, align := 1, size := 1, rank := 0 }, [0xc3])]

/-- The program: 5 bytes in the first group, with one relocation against the undefined `x`. -/
def callsX : RelocObject where
  object :=
    { name := "main.o"
      origin := none
      is_shared := false
      elf := oneSymbol [some ⟨3, SHT_PROGBITS, 6, 5, 0, 1, 0⟩, some ⟨3, SHT_RELA, 0, 24, 2, 8, 24⟩]
        ⟨1, 0x10, SHN_UNDEF, 0, 0⟩
      maps := [none, none, none, some (0, 0), none] }
  elf_class := 2
  data := leBytes 8 1 ++ leBytes 8 0x100000002 ++ leBytes 8 0
  offset := fun _ => 0
  info := fun _ => 3

/-- The other object: `x` in the second group, no relocations. -/
def textX : RelocObject where
  object := { dataX 0x12 0 with maps := [none, none, none, some (1, 0)] }
  elf_class := 2
  data := []
  offset := fun _ => 0
  info := fun _ => 0

/-- The program calls `x`, whose group reachable code needs, and the sweep takes its contents. -/
theorem gcSweep_drops_call :
    gcRoots (callGroups.map Prod.fst) startAndX (some "_start") = [true, false] ∧
      RelocEdge 2 startAndX [callsX, textX] 0 1 ∧
      gcSweep callGroups [callsX, textX] startAndX (some "_start")
        = .done
            [({ name := ".text", type := 1, flags := 6, align := 1, size := 5, rank := 0 },
                [0xe8, 0, 0, 0, 0]),
              ({ name := ".text.x", type := 8, flags := 6, align := 1, size := 0, rank := 0 },
                [])] := by
  refine ⟨by decide, ⟨callsX, mem_cons_self, 4, _, rfl, Or.inl rfl,
    by decide, by decide, 0, by decide, by decide⟩, by decide⟩

end MeuOS.Ld
