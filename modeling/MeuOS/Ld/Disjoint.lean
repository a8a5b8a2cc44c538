import MeuOS.Ld.Refine

namespace MeuOS.Ld

open MeuOS.Lib List Bool

/-!
# Disjointness of the layout

* `LayoutOk` — the ranges of the loaded groups in memory and of the groups with file space
  in the file are disjoint, and addresses are aligned;
* `LayoutCond` — what the groups must be like for that;
* `layoutOutput_ok_iff` — one holds exactly when the other does.
-/

/-! ### Ranges -/

/-- No number is in both `[a, a + n)` and `[b, b + m)`. -/
def Apart (a n b m : Nat) : Prop := ∀ x, ¬ ((a ≤ x ∧ x < a + n) ∧ b ≤ x ∧ x < b + m)

variable {gs : List LdGroup} {adv : LdGroup → Bool} {p q : LdGroup × Nat} {g : LdGroup}

theorem apart_iff {a n b m : Nat} :
    Apart a n b m ↔ n = 0 ∨ m = 0 ∨ a + n ≤ b ∨ b + m ≤ a := by
  constructor
  · intro h
    by_contra hc
    -- the larger of the two starts would be in both
    have := h (max a b)
    omega
  · intro h x hx
    omega

theorem Apart.symm {a n b m : Nat} (h : Apart a n b m) : Apart b m a n :=
  fun x hx => h x ⟨hx.2, hx.1⟩

/-- A loaded group that is no TLS group. -/
def LdGroup.mapped (g : LdGroup) : Bool := g.alloc && !g.tls

/-- Two groups do not share an address. -/
def AddrApart (g h : LdGroup) : Prop :=
  g.mapped → h.mapped → Apart g.address g.size h.address h.size

/-- Two groups do not share a byte of the file. -/
def FileApart (g h : LdGroup) : Prop :=
  g.nobits = false → h.nobits = false → Apart g.file_offset g.size h.file_offset h.size

/-- What the layout is for. -/
structure LayoutOk (gs : List LdGroup) : Prop where
  addresses : gs.Pairwise AddrApart
  aligned : ∀ g ∈ gs, g.align ∣ g.address
  files : gs.Pairwise FileApart

theorem LayoutOk.perm {hs : List LdGroup} (h : gs.Perm hs) (ok : LayoutOk gs) :
    LayoutOk hs where
  addresses := (h.pairwise_iff fun hr hy hx => (hr hx hy).symm).mp ok.addresses
  aligned := fun g hg => ok.aligned g (h.mem_iff.mpr hg)
  files := (h.pairwise_iff fun hr hy hx => (hr hx hy).symm).mp ok.files

/-! ### The condition -/

/-- The first group ends before the second one starts, or one of them is empty. -/
def Clear (p q : LdGroup × Nat) : Prop :=
  p.1.size = 0 ∨ q.1.size = 0 ∨ p.2 + p.1.size ≤ q.2

/-- What the groups must be like for the layout to be right. -/
structure LayoutCond (shared : Bool) (t : GroupTable) : Prop where
  /-- no offset overflows -/
  fits : t.Fits (baseOf shared)
  /-- no alignment is coarser than that of the base address -/
  aligned : ∀ g ∈ t.groups, g.skipped = false → g.align ∣ baseOf shared
  /-- in pass 2, padding alone leaves room for every loaded group in front of another one -/
  zeroed : (plan t.groups).zeroed.Pairwise fun p q => p.1.alloc → q.1.alloc → Clear p q
  /-- so it does in pass 3 for a loaded group that takes no file space -/
  trailing : (plan t.groups).trailing.Pairwise fun p q =>
    p.1.nobits → p.1.alloc → q.1.alloc → Clear p q
  /-- at most one loaded group with a size is skipped -/
  skipped : (t.groups.filter LdGroup.skipped).Pairwise fun g h =>
    g.alloc → h.alloc → g.size = 0 ∨ h.size = 0
  /-- and it ends, from address 0 on, before the groups of passes 1 and 2 -/
  skippedPlaced : ∀ g ∈ t.groups.filter LdGroup.skipped, g.alloc →
    ∀ q ∈ (plan t.groups).loaded ++ (plan t.groups).zeroed, q.1.alloc →
      g.size = 0 ∨ q.1.size = 0 ∨ g.size ≤ baseOf shared + q.2
  /-- at most one group with bytes in the file is skipped -/
  skippedFile : (t.groups.filter LdGroup.skipped).Pairwise fun g h =>
    g.nobits = false → h.nobits = false → g.size = 0 ∨ h.size = 0
  /-- and it ends, from the start of the file on, before the groups of pass 1 -/
  skippedFilePlaced : ∀ g ∈ t.groups.filter LdGroup.skipped, g.nobits = false →
    ∀ q ∈ (plan t.groups).loaded, g.size = 0 ∨ q.1.size = 0 ∨ g.size ≤ q.2
  /-- a `.tbss` with bytes in the file behind a `.tdata` is apart from the groups of pass 3 -/
  tbss : (named ".tdata" t.groups).isEmpty = false →
    ∀ p ∈ (plan t.groups).tbss, p.1.nobits = false →
      ∀ q ∈ (plan t.groups).trailing, q.1.nobits = false → Apart p.2 p.1.size q.2 q.1.size

/-! ### What the passes give by themselves -/

theorem mem_of_groupWalk {o : Nat} (h : p ∈ groupWalk adv o gs) : p.1 ∈ gs := mem_of_walk h

theorem groupWalk_bounds {o : Nat} (hpow : PowAligned gs) (h : p ∈ groupWalk adv o gs) :
    o ≤ p.2 ∧ p.1.align ∣ p.2 ∧ (p.2 + if adv p.1 then p.1.size else 0) ≤ groupEnd adv o gs :=
  walk_bounds hpow.pos h

theorem groupWalk_pairwise (hpow : PowAligned gs) (o : Nat) : (groupWalk adv o gs).Pairwise
      fun p q => p.2 ≤ q.2 ∧ (adv p.1 → p.2 + p.1.size ≤ q.2) :=
  walk_pairwise hpow.pos o

variable (t : GroupTable)

/-- Pass 1 places one group behind the other. -/
theorem loaded_pairwise :
    (plan t.groups).loaded.Pairwise fun p q => p.2 + p.1.size ≤ q.2 := by
  have hro := t.powAligned_chron selLoaded [0, 1]
  have hwr := t.powAligned_chron selLoaded [2, 3, 4]
  show (groupWalk always LD_PAGE (readOnly t.groups)
    ++ groupWalk always (writableStart t.groups) (writable t.groups)).Pairwise _
  refine pairwise_append.mpr ⟨?_, ?_, fun p hp q hq => ?_⟩
  · exact (groupWalk_pairwise hro _).imp fun h => h.2 rfl
  · exact (groupWalk_pairwise hwr _).imp fun h => h.2 rfl
  · have hend : p.2 + p.1.size ≤ _ := (groupWalk_bounds hro hp).2.2
    have hstart := (groupWalk_bounds hwr hq).1
    have hpage := (writableStart_le t).1
    exact hend.trans (hpage.trans hstart)

/-- Pass 1 ends before pass 2 starts. -/
theorem loaded_end (hp : p ∈ (plan t.groups).loaded) :
    p.2 + p.1.size ≤ loadedEnd t.groups := by
  have hro := t.powAligned_chron selLoaded [0, 1]
  have hwr := t.powAligned_chron selLoaded [2, 3, 4]
  rcases mem_append.mp hp with hp | hp
  · have hend : p.2 + p.1.size ≤ _ := (groupWalk_bounds hro hp).2.2
    exact hend.trans ((writableStart_le t).1.trans (loadedEnd_le t).1)
  · exact (groupWalk_bounds hwr hp).2.2

theorem zeroed_start (hp : p ∈ (plan t.groups).zeroed) :
    loadedEnd t.groups ≤ p.2 :=
  (groupWalk_bounds (t.powAligned_chron selNobits [2, 3, 4]) hp).1

theorem zeroed_pairwise : (plan t.groups).zeroed.Pairwise fun p q => p.2 ≤ q.2 :=
  (groupWalk_pairwise (t.powAligned_chron selNobits [2, 3, 4]) _).imp fun h => h.1

theorem early_end (hp : p ∈ (plan t.groups).loaded ++ (plan t.groups).zeroed) :
    p.2 + p.1.size ≤ pastEnd t.groups :=
  (le_furthest _ (beforeTls t.groups)).2 (place 0 p)
    (mem_append_left _ (mem_map_of_mem hp))

/-- So do the skipped ones, from 0 on. -/
theorem skipped_end (hg : g ∈ t.groups.filter LdGroup.skipped) :
    g.size ≤ pastEnd t.groups := by
  obtain ⟨hmem, hsk⟩ := mem_filter.mp hg
  have hwait : (!g.early && !g.tls) = true := by
    unfold LdGroup.skipped at hsk
    unfold LdGroup.early
    simp only [and_eq_true, not_eq_true', or_eq_true, decide_eq_true_eq,
      and_eq_false_iff, decide_eq_false_iff_not, not_eq_false'] at hsk ⊢
    refine ⟨?_, hsk.1⟩
    rcases hsk.2 with (h | h) | h
    · exact Or.inl (Or.inr (Or.inl (by omega)))
    · exact Or.inl (Or.inr (Or.inr (by omega)))
    · exact Or.inr h
  have hend := (le_furthest (groupEnd never (loadedEnd t.groups) (zeroed t.groups))
    (beforeTls t.groups)).2 g (mem_append_right _ (mem_filter.mpr ⟨hmem, hwait⟩))
  have hle : g.size ≤ g.file_offset + g.size := Nat.le_add_left _ _
  exact hle.trans hend

theorem tdata_bounds (hp : p ∈ (plan t.groups).tdata) :
    pastEnd t.groups ≤ p.2 ∧ p.2 + p.1.size ≤ tdataEnd t.groups :=
  ⟨(groupWalk_bounds (t.powAligned_named _) hp).1,
    (groupWalk_bounds (t.powAligned_named _) hp).2.2⟩

theorem tbss_start (hp : p ∈ (plan t.groups).tbss) :
    tdataEnd t.groups ≤ p.2 := (groupWalk_bounds (t.powAligned_named _) hp).1

/-- Without a `.tdata` a `.tbss` with file space ends before pass 3. -/
theorem tbss_end (hno : (named ".tdata" t.groups).isEmpty = true)
    (hp : p ∈ (plan t.groups).tbss) (hbits : p.1.nobits = false) :
    p.2 + p.1.size ≤ trailingStart t.groups := by
  have hadv : tbssAdv t.groups p.1 = true := by
    unfold tbssAdv byBits
    rw [hbits, Bool.not_false, Bool.or_true]
  have hend := (groupWalk_bounds (t.powAligned_named _) hp).2.2
  rw [if_pos hadv] at hend
  unfold trailingStart
  rw [if_pos hno]
  exact hend

theorem trailing_start (hp : p ∈ (plan t.groups).trailing) :
    trailingStart t.groups ≤ p.2 :=
  (groupWalk_bounds (t.powAligned_chron selRest [5, 6]) hp).1

theorem trailing_pairwise :
    (plan t.groups).trailing.Pairwise
      fun p q => p.2 ≤ q.2 ∧ (p.1.nobits = false → p.2 + p.1.size ≤ q.2) :=
  (groupWalk_pairwise (t.powAligned_chron selRest [5, 6]) _).imp fun h =>
    ⟨h.1, fun hb => h.2 (by unfold byBits; rw [hb]; rfl)⟩

/-! ### Kinds of groups in the passes -/

theorem loaded_kind (hp : p ∈ (plan t.groups).loaded) :
    p.1 ∈ t.groups ∧ p.1.tls = false ∧ p.1.nobits = false := by
  rcases mem_append.mp hp with hp | hp
  · have h := (readOnly_perm t.groups).mem_iff.mp (mem_of_groupWalk hp)
    obtain ⟨hmem, hsel⟩ := mem_filter.mp h
    exact ⟨hmem, (selAny_loaded.mp hsel).2.2, (selAny_loaded.mp hsel).2.1⟩
  · have h := (writable_perm t.groups).mem_iff.mp (mem_of_groupWalk hp)
    obtain ⟨hmem, hsel⟩ := mem_filter.mp h
    exact ⟨hmem, (selAny_loaded.mp hsel).2.2, (selAny_loaded.mp hsel).2.1⟩

theorem zeroed_kind (hp : p ∈ (plan t.groups).zeroed) :
    p.1.tls = false ∧ p.1.nobits = true := by
  have h := (zeroed_perm t.groups).mem_iff.mp (mem_of_groupWalk hp)
  have hsel := selAny_nobits.mp (mem_filter.mp h).2
  exact ⟨hsel.2.2, hsel.2.1⟩

theorem trailing_kind (hp : p ∈ (plan t.groups).trailing) :
    p.1.tls = false := by
  have h := (trailing_perm t.groups).mem_iff.mp (mem_of_groupWalk hp)
  exact (selAny_rest.mp (mem_filter.mp h).2).2

theorem named_kind {n : String} (hn : n = ".tdata" ∨ n = ".tbss")
    (hg : g ∈ named n t.groups) : g.tls = true := by
  have hname := (mem_filter.mp hg).2
  unfold LdGroup.tls
  rcases hn with rfl | rfl
  · rw [hname, Bool.true_or]
  · rw [hname, Bool.or_true]

theorem skipped_kind (hg : g ∈ t.groups.filter LdGroup.skipped) :
    g.tls = false ∧ g.file_offset = 0 ∧ g.address = 0 := by
  obtain ⟨hmem, hsk⟩ := mem_filter.mp hg
  have htls : g.tls = false := by
    unfold LdGroup.skipped at hsk
    simp only [and_eq_true, not_eq_true'] at hsk
    exact hsk.1
  exact ⟨htls, (t.fresh g hmem).unplaced⟩

theorem mapped_of_tls (h : g.tls = true) : g.mapped = false := by
  unfold LdGroup.mapped
  rw [h, Bool.not_true, Bool.and_false]

theorem mapped_eq_alloc (h : g.tls = false) : g.mapped = g.alloc := by
  unfold LdGroup.mapped
  rw [h, Bool.not_false, Bool.and_true]

/-! ### Pairs of placed groups -/

theorem apart_iff_clear (h : p.2 ≤ q.2) :
    Apart p.2 p.1.size q.2 q.1.size ↔ Clear p q := by
  rw [apart_iff]
  unfold Clear
  omega

theorem apart_add (b a n a' m : Nat) : Apart (b + a) n (b + a') m ↔ Apart a n a' m := by
  rw [apart_iff, apart_iff]
  omega

theorem addrApart_place (b : Nat) (h : p.2 ≤ q.2) :
    AddrApart (place b p) (place b q) ↔ (p.1.mapped → q.1.mapped → Clear p q) := by
  unfold AddrApart
  show (p.1.mapped → q.1.mapped → Apart (b + p.2) p.1.size (b + q.2) q.1.size) ↔ _
  rw [apart_add, apart_iff_clear h]

/-- One group that ends before the other starts is apart from it, in memory and in the
    file. -/
theorem apart_of_le (b : Nat) (h : p.2 + p.1.size ≤ q.2) :
    AddrApart (place b p) (place b q) ∧ FileApart (place b p) (place b q) :=
  ⟨(addrApart_place b (by omega)).mpr fun _ _ => Or.inr (Or.inr h),
    fun _ _ => apart_iff.mpr (Or.inr (Or.inr (Or.inl h)))⟩

/-- A relation holds between all groups of a plan when it does inside the passes and from
    each pass to the later ones. -/
theorem pairwise_all {r : LdGroup × Nat → LdGroup × Nat → Prop} {pl : Plan}
    (hL : pl.loaded.Pairwise r) (hZ : pl.zeroed.Pairwise r) (hT : pl.tdata.Pairwise r)
    (hB : pl.tbss.Pairwise r) (hR : pl.trailing.Pairwise r)
    (hLZ : ∀ p ∈ pl.loaded, ∀ q ∈ pl.zeroed, r p q)
    (hE : ∀ p ∈ pl.loaded ++ pl.zeroed, ∀ q ∈ pl.tdata ++ (pl.tbss ++ pl.trailing), r p q)
    (hTB : ∀ p ∈ pl.tdata, ∀ q ∈ pl.tbss ++ pl.trailing, r p q)
    (hBR : ∀ p ∈ pl.tbss, ∀ q ∈ pl.trailing, r p q) : pl.all.Pairwise r := by
  have hshape : pl.all
      = (pl.loaded ++ pl.zeroed) ++ (pl.tdata ++ (pl.tbss ++ pl.trailing)) := by
    unfold Plan.all
    simp only [append_assoc]
  rw [hshape]
  refine pairwise_append.mpr ⟨pairwise_append.mpr ⟨hL, hZ, hLZ⟩, ?_, hE⟩
  exact pairwise_append.mpr ⟨hT, pairwise_append.mpr ⟨hB, hR, hBR⟩, hTB⟩

/-- Everything placed after passes 1 and 2 starts past the groups there. -/
theorem late_start
    (hq : q ∈ (plan t.groups).tdata ++ ((plan t.groups).tbss ++ (plan t.groups).trailing)) :
    pastEnd t.groups ≤ q.2 := by
  have h1 := (tdataEnd_le t).1
  have h2 := (trailingStart_le t).1
  rcases mem_append.mp hq with hq | hq
  · exact (tdata_bounds t hq).1
  · rcases mem_append.mp hq with hq | hq
    · exact h1.trans (tbss_start t hq)
    · exact (h1.trans h2).trans (trailing_start t hq)

theorem behind_tdata
    (hq : q ∈ (plan t.groups).tbss ++ (plan t.groups).trailing) : tdataEnd t.groups ≤ q.2 := by
  rcases mem_append.mp hq with hq | hq
  · exact tbss_start t hq
  · exact (trailingStart_le t).1.trans (trailing_start t hq)

/-- `.tdata` and `.tbss` are one group each. -/
theorem named_walk_pairwise {r : LdGroup × Nat → LdGroup × Nat → Prop} (adv : LdGroup → Bool)
    (o : Nat) (n : String) : (groupWalk adv o (named n t.groups)).Pairwise r := by
  have hsingle : (named n t.groups).length ≤ 1 := by
    by_contra hlong
    -- two groups of one name
    have hnd : ((named n t.groups).map LdGroup.name).Nodup :=
      t.nodup.sublist ((filter_sublist (l := t.groups)).map _)
    have hname : ∀ x ∈ (named n t.groups).map LdGroup.name, x = n := fun x hx => by
      obtain ⟨g, hg, rfl⟩ := mem_map.mp hx
      simpa using (mem_filter.mp hg).2
    match hl : (named n t.groups).map LdGroup.name, hnd, hname with
    | [], _, _ => rw [← length_map LdGroup.name, hl] at hlong; simp at hlong
    | [_], _, _ => rw [← length_map LdGroup.name, hl] at hlong; simp at hlong
    | x :: y :: rest, hnd, hname =>
      have hx := hname x mem_cons_self
      have hy := hname y (mem_cons_of_mem x mem_cons_self)
      have hne := (nodup_cons.mp hnd).1
      exact hne (by rw [hx, ← hy]; exact mem_cons_self)
  match named n t.groups, hsingle with
  | [], _ => exact .nil
  | [g], _ => exact pairwise_singleton _ _
  | _ :: _ :: _, h => simp at h

/-! ### Addresses -/

/-- The groups after `layout_output`, in the order of the plan. -/
def laidOut (b : Nat) (gs : List LdGroup) : List LdGroup :=
  gs.filter LdGroup.skipped ++ (plan gs).all.map (place b)

/-- The address ranges of the placed groups are disjoint when those of the two passes that
    do not always advance are. -/
theorem placed_addresses (b : Nat)
    (hZ : (plan t.groups).zeroed.Pairwise fun p q => p.1.alloc → q.1.alloc → Clear p q)
    (hR : (plan t.groups).trailing.Pairwise fun p q =>
      p.1.nobits → p.1.alloc → q.1.alloc → Clear p q) :
    (plan t.groups).all.Pairwise fun p q => AddrApart (place b p) (place b q) := by
  -- a TLS group takes no part
  have htls : ∀ p q : LdGroup × Nat, p.1.tls = true → AddrApart (place b p) (place b q) :=
    fun p q hp hm => by
      rw [show (place b p).mapped = p.1.mapped from rfl, mapped_of_tls hp] at hm
      cases hm
  refine pairwise_all ?_ ?_ (named_walk_pairwise t _ _ _) (named_walk_pairwise t _ _ _) ?_ ?_ ?_ ?_ ?_
  · exact (loaded_pairwise t).imp fun h => (apart_of_le b h).1
  · refine ((zeroed_pairwise t).and hZ).imp_of_mem (@fun p q hp hq h => ?_)
    rw [addrApart_place b h.1, mapped_eq_alloc (zeroed_kind t hp).1,
      mapped_eq_alloc (zeroed_kind t hq).1]
    exact h.2
  · refine ((trailing_pairwise t).and hR).imp_of_mem (@fun p q hp hq h => ?_)
    rw [addrApart_place b h.1.1, mapped_eq_alloc (trailing_kind t hp),
      mapped_eq_alloc (trailing_kind t hq)]
    intro ha ha'
    cases hbits : p.1.nobits with
    | true => exact h.2 hbits ha ha'
    | false => exact Or.inr (Or.inr (h.1.2 hbits))
  · exact fun p hp q hq => (apart_of_le b ((loaded_end t hp).trans (zeroed_start t hq))).1
  · exact fun p hp q hq => (apart_of_le b ((early_end t hp).trans (late_start t hq))).1
  · exact fun p hp q _ => htls p q (named_kind t (Or.inl rfl) (mem_of_groupWalk hp))
  · exact fun p hp q _ => htls p q (named_kind t (Or.inr rfl) (mem_of_groupWalk hp))

/-- A skipped group and a placed one. -/
theorem skipped_addr (b : Nat) (hg : g ∈ t.groups.filter LdGroup.skipped)
    (p : LdGroup × Nat) : AddrApart g (place b p)
      ↔ (g.alloc → p.1.mapped → g.size = 0 ∨ p.1.size = 0 ∨ g.size ≤ b + p.2) := by
  obtain ⟨htls, _, haddr⟩ := skipped_kind t hg
  unfold AddrApart
  rw [mapped_eq_alloc htls, haddr]
  show (g.alloc → p.1.mapped → Apart 0 g.size (b + p.2) p.1.size) ↔ _
  rw [apart_iff]
  constructor
  · intro h ha hp
    have := h ha hp
    omega
  · intro h ha hp
    have := h ha hp
    omega

/-! ### The file -/

/-- The file ranges of the placed groups are disjoint when a `.tbss` behind a `.tdata` is
    apart from the groups of pass 3. -/
theorem placed_files (b : Nat) (htb : (named ".tdata" t.groups).isEmpty = false →
      ∀ p ∈ (plan t.groups).tbss, p.1.nobits = false →
        ∀ q ∈ (plan t.groups).trailing, q.1.nobits = false →
          Apart p.2 p.1.size q.2 q.1.size) :
    (plan t.groups).all.Pairwise fun p q => FileApart (place b p) (place b q) := by
  -- a group of pass 2 takes no part
  have hno : ∀ p q : LdGroup × Nat, q.1.nobits = true → FileApart (place b p) (place b q) :=
    fun p q hq _ hb => by
      rw [show (place b q).nobits = q.1.nobits from rfl, hq] at hb
      cases hb
  refine pairwise_all ?_ ?_ (named_walk_pairwise t _ _ _) (named_walk_pairwise t _ _ _) ?_ ?_ ?_ ?_ ?_
  · exact (loaded_pairwise t).imp fun h => (apart_of_le b h).2
  · exact (pairwise_of_forall (R := fun _ _ => True) fun _ _ => trivial).imp_of_mem
      (@fun p q _ hq _ => hno p q (zeroed_kind t hq).2)
  · refine (trailing_pairwise t).imp (@fun p q h => ?_)
    exact fun hb _ => (apart_of_le b (h.2 hb)).2 hb ‹_›
  · exact fun p _ q hq => hno p q (zeroed_kind t hq).2
  · exact fun p hp q hq => (apart_of_le b ((early_end t hp).trans (late_start t hq))).2
  · exact fun p hp q hq =>
      (apart_of_le b ((tdata_bounds t hp).2.trans (behind_tdata t hq))).2
  · intro p hp q hq hb hb'
    cases hemp : (named ".tdata" t.groups).isEmpty with
    | true => exact (apart_of_le b ((tbss_end t hemp hp hb).trans (trailing_start t hq))).2 hb hb'
    | false => exact htb hemp p hp hb q hq hb'

theorem skipped_file (b : Nat) (hg : g ∈ t.groups.filter LdGroup.skipped)
    (p : LdGroup × Nat) : FileApart g (place b p)
      ↔ (g.nobits = false → p.1.nobits = false →
          g.size = 0 ∨ p.1.size = 0 ∨ g.size ≤ p.2) := by
  obtain ⟨_, hoff, _⟩ := skipped_kind t hg
  unfold FileApart
  rw [hoff]
  show (g.nobits = false → p.1.nobits = false → Apart 0 g.size p.2 p.1.size) ↔ _
  rw [apart_iff]
  constructor
  · intro h ha hp
    have := h ha hp
    omega
  · intro h ha hp
    have := h ha hp
    omega

/-! ### Alignment -/

theorem placed_dvd (hp : p ∈ (plan t.groups).all) : p.1.align ∣ p.2 := by
  have hpow := t.powAligned_chron
  unfold Plan.all at hp
  simp only [mem_append] at hp
  rcases hp with (((hp | hp) | hp) | hp) | hp
  · rcases mem_append.mp hp with hp | hp
    · exact (groupWalk_bounds (hpow _ _) hp).2.1
    · exact (groupWalk_bounds (hpow _ _) hp).2.1
  · exact (groupWalk_bounds (hpow _ _) hp).2.1
  · exact (groupWalk_bounds (t.powAligned_named _) hp).2.1
  · exact (groupWalk_bounds (t.powAligned_named _) hp).2.1
  · exact (groupWalk_bounds (hpow _ _) hp).2.1

/-- The groups of the plan. -/
theorem map_fst_all (gs : List LdGroup) : ((plan gs).all.map Prod.fst).Perm
    (gs.filter selPlaced) := by
  have hfst : ∀ adv o (l : List LdGroup), (groupWalk adv o l).map Prod.fst = l :=
    fun adv o l => map_fst_walk _ _ _ o l
  have hshape : (plan gs).all.map Prod.fst = readOnly gs ++ writable gs ++ zeroed gs
      ++ named ".tdata" gs ++ named ".tbss" gs ++ trailing gs := by
    unfold Plan.all plan loadedWalk zeroedWalk
    simp only [map_append, hfst]
  rw [hshape]
  exact placed_perm gs

theorem placed_of_not_skipped (hg : g ∈ t.groups) (hs : g.skipped = false) :
    ∃ p ∈ (plan t.groups).all, p.1 = g := by
  have hmem : g ∈ (plan t.groups).all.map Prod.fst :=
    (map_fst_all t.groups).mem_iff.mpr (mem_filter.mpr ⟨hg, selPlaced_iff.mpr hs⟩)
  obtain ⟨p, hp, rfl⟩ := mem_map.mp hmem
  exact ⟨p, hp, rfl⟩

theorem not_skipped_of_placed (hp : p ∈ (plan t.groups).all) :
    p.1 ∈ t.groups ∧ p.1.skipped = false := by
  have hmem := (map_fst_all t.groups).mem_iff.mp (mem_map_of_mem hp)
  obtain ⟨hg, hsel⟩ := mem_filter.mp hmem
  exact ⟨hg, selPlaced_iff.mp hsel⟩

/-! ### The equivalence -/

/-- The groups of the plan are laid out right when the condition holds. -/
theorem laidOut_ok {shared : Bool} {t : GroupTable} (h : LayoutCond shared t) :
    LayoutOk (laidOut (baseOf shared) t.groups) where
  addresses := by
    refine pairwise_append.mpr ⟨?_, ?_, fun g hg g' hg' => ?_⟩
    · refine h.skipped.imp_of_mem (@fun g g' hg hg' hr hm hm' => ?_)
      rw [mapped_eq_alloc (skipped_kind t hg).1] at hm
      rw [mapped_eq_alloc (skipped_kind t hg').1] at hm'
      rw [apart_iff]
      exact (hr hm hm').elim Or.inl fun h0 => Or.inr (Or.inl h0)
    · exact pairwise_map.mpr (placed_addresses t _ h.zeroed h.trailing)
    · obtain ⟨p, hp, rfl⟩ := mem_map.mp hg'
      refine (skipped_addr t _ hg p).mpr fun ha hm => ?_
      -- the TLS groups are not mapped, and pass 3 starts past the skipped groups
      unfold Plan.all at hp
      simp only [append_assoc] at hp
      rw [← append_assoc] at hp
      rcases mem_append.mp hp with hp | hp
      · have hal : p.1.alloc = true := by
          unfold LdGroup.mapped at hm
          simp only [and_eq_true] at hm
          exact hm.1
        exact h.skippedPlaced g hg ha p hp hal
      · have h1 := skipped_end t hg
        have h2 := late_start t hp
        exact Or.inr (Or.inr (by omega))
  aligned := by
    intro g hg
    rcases mem_append.mp hg with hg | hg
    · rw [(skipped_kind t hg).2.2]
      exact dvd_zero _
    · obtain ⟨p, hp, rfl⟩ := mem_map.mp hg
      obtain ⟨hmem, hsk⟩ := not_skipped_of_placed t hp
      exact Nat.dvd_add (h.aligned p.1 hmem hsk) (placed_dvd t hp)
  files := by
    refine pairwise_append.mpr ⟨?_, ?_, fun g hg g' hg' => ?_⟩
    · refine h.skippedFile.imp (@fun g g' hr hb hb' => ?_)
      rw [apart_iff]
      exact (hr hb hb').elim Or.inl fun h0 => Or.inr (Or.inl h0)
    · exact pairwise_map.mpr (placed_files t _ h.tbss)
    · obtain ⟨p, hp, rfl⟩ := mem_map.mp hg'
      refine (skipped_file t _ hg p).mpr fun hb hb' => ?_
      unfold Plan.all at hp
      simp only [append_assoc] at hp
      rcases mem_append.mp hp with hp | hp
      · exact h.skippedFilePlaced g hg hb p hp
      · rcases mem_append.mp hp with hp | hp
        · rw [(zeroed_kind t hp).2] at hb'
          cases hb'
        · have h1 := skipped_end t hg
          have h2 := late_start t hp
          exact Or.inr (Or.inr (by omega))

/-- When they are laid out right the condition holds. -/
theorem cond_of_laidOut {shared : Bool} {t : GroupTable} (hfit : t.Fits (baseOf shared))
    (h : LayoutOk (laidOut (baseOf shared) t.groups)) : LayoutCond shared t := by
  obtain ⟨hsk, hpl, hcross⟩ := pairwise_append.mp h.addresses
  obtain ⟨hskf, hplf, hcrossf⟩ := pairwise_append.mp h.files
  rw [pairwise_map] at hpl hplf
  have hall : (plan t.groups).all = ((plan t.groups).loaded ++ (plan t.groups).zeroed
      ++ (plan t.groups).tdata ++ (plan t.groups).tbss) ++ (plan t.groups).trailing := rfl
  have hin : ∀ p ∈ (plan t.groups).loaded ++ (plan t.groups).zeroed,
      place (baseOf shared) p ∈ (plan t.groups).all.map (place (baseOf shared)) := by
    intro p hp
    rw [hall]
    exact mem_map_of_mem (mem_append_left _ (mem_append_left _
      (mem_append_left _ hp)))
  refine
    { fits := hfit
      aligned := fun g hg hs => ?_
      zeroed := ?_
      trailing := ?_
      skipped := ?_
      skippedPlaced := fun g hg ha q hq hqa => ?_
      skippedFile := ?_
      skippedFilePlaced := fun g hg hb q hq => ?_
      tbss := fun hne p hp hb q hq hb' => ?_ }
  · obtain ⟨p, hp, rfl⟩ := placed_of_not_skipped t hg hs
    have hdvd : p.1.align ∣ baseOf shared + p.2 :=
      h.aligned _ (mem_append_right _ (mem_map_of_mem hp))
    exact (Nat.dvd_add_left (placed_dvd t hp)).mp hdvd
  · have hz : (plan t.groups).zeroed.Pairwise fun p q =>
        AddrApart (place (baseOf shared) p) (place (baseOf shared) q) := by
      rw [hall] at hpl
      exact (pairwise_append.mp (pairwise_append.mp (pairwise_append.mp
        (pairwise_append.mp hpl).1).1).1).2.1
    refine ((zeroed_pairwise t).and hz).imp_of_mem (@fun p q hp hq hr ha ha' => ?_)
    refine (addrApart_place _ hr.1).mp hr.2 ?_ ?_
    · rw [mapped_eq_alloc (zeroed_kind t hp).1]
      exact ha
    · rw [mapped_eq_alloc (zeroed_kind t hq).1]
      exact ha'
  · have hr : (plan t.groups).trailing.Pairwise fun p q =>
        AddrApart (place (baseOf shared) p) (place (baseOf shared) q) := by
      rw [hall] at hpl
      exact (pairwise_append.mp hpl).2.1
    refine ((trailing_pairwise t).and hr).imp_of_mem (@fun p q hp hq hr _ ha ha' => ?_)
    refine (addrApart_place _ hr.1.1).mp hr.2 ?_ ?_
    · rw [mapped_eq_alloc (trailing_kind t hp)]
      exact ha
    · rw [mapped_eq_alloc (trailing_kind t hq)]
      exact ha'
  · refine hsk.imp_of_mem (@fun g g' hg hg' hr ha ha' => ?_)
    obtain ⟨htls, _, haddr⟩ := skipped_kind t hg
    obtain ⟨htls', _, haddr'⟩ := skipped_kind t hg'
    have hap := hr (by rw [mapped_eq_alloc htls]; exact ha)
      (by rw [mapped_eq_alloc htls']; exact ha')
    rw [haddr, haddr', apart_iff] at hap
    omega
  · have htls : q.1.tls = false := by
      rcases mem_append.mp hq with hq | hq
      · exact (loaded_kind t hq).2.1
      · exact (zeroed_kind t hq).1
    exact (skipped_addr t _ hg q).mp (hcross g hg _ (hin q hq)) ha
      (by rw [mapped_eq_alloc htls]; exact hqa)
  · refine hskf.imp_of_mem (@fun g g' hg hg' hr hb hb' => ?_)
    have hap := hr hb hb'
    rw [(skipped_kind t hg).2.1, (skipped_kind t hg').2.1, apart_iff] at hap
    omega
  · exact (skipped_file t _ hg q).mp (hcrossf g hg _ (hin q (mem_append_left _ hq))) hb
      (loaded_kind t hq).2.2
  · rw [hall] at hplf
    exact (pairwise_append.mp hplf).2.2 p (mem_append_right _ hp) q hq hb hb'

/-- **Layout disjointness.**  64 bits are enough and the groups are laid out right, if and
    only if the condition on the groups holds. -/
theorem layoutOutput_ok_iff (shared : Bool) (t : GroupTable) :
    (t.Fits (baseOf shared) ∧ LayoutOk (layoutOutput shared t.groups).groups)
      ↔ LayoutCond shared t := by
  constructor
  · rintro ⟨hfit, hok⟩
    exact cond_of_laidOut hfit (hok.perm (layoutOutput_plan shared t hfit))
  · intro h
    exact ⟨h.fits, (laidOut_ok h).perm (layoutOutput_plan shared t h.fits).symm⟩

/-- A section of 64 zero bytes under a name of its own, as `-fdata-sections` makes them. -/
def zeroSection (name : String) : Section :=
  { name := name
    type := SHT_NOBITS
    flags := 3
    align := 8
    size := 64
    align_pow := ⟨3, by decide, rfl⟩
    size_lt := by decide }

/-- `.bss.a` and `.bss.b` get the same address. -/
theorem layoutOutput_bss_overlap :
    ∃ t, collectSections [zeroSection ".bss.a", zeroSection ".bss.b"] .empty = some t
      ∧ t.Fits (baseOf false) ∧ ¬ LayoutOk (layoutOutput false t.groups).groups := by
  have hsome : (collectSections [zeroSection ".bss.a", zeroSection ".bss.b"] .empty).isSome := by
    decide
  obtain ⟨t, ht⟩ := Option.isSome_iff_exists.mp hsome
  have hgroups : (collectSections [zeroSection ".bss.a", zeroSection ".bss.b"] .empty).map
      (fun t => (t.groups, (layoutOutput false t.groups).groups))
      = some ([{ name := ".bss.a", type := 8, flags := 3, align := 8, size := 64, rank := 6 },
          { name := ".bss.b", type := 8, flags := 3, align := 8, size := 64, rank := 6 }],
        [{ name := ".bss.a", type := 8, flags := 3, align := 8, size := 64, rank := 6,
            file_offset := 0x1000, address := 0x401000 },
          { name := ".bss.b", type := 8, flags := 3, align := 8, size := 64, rank := 6,
            file_offset := 0x1000, address := 0x401000 }]) := by
    decide
  rw [ht] at hgroups
  obtain ⟨hin, hout⟩ := Prod.mk.inj (Option.some.inj hgroups)
  refine ⟨t, ht, ?_, fun hok => ?_⟩
  · unfold GroupTable.Fits
    rw [hin]
    decide
  · have haddr := hok.addresses
    rw [hout] at haddr
    have hpair := (pairwise_cons.mp haddr).1 _ mem_cons_self (by decide) (by decide)
    exact hpair 0x401000 (by decide)

end MeuOS.Ld
