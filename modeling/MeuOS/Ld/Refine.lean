import MeuOS.Ld.Plan

namespace MeuOS.Ld

open MeuOS.Lib List

/-!
# `layout_output` computes the plan

* `pastEnd_le`, `tdataEnd_le`, … — the offsets of the plan stay within 64 bits;
* `layoutOutput_plan` — the groups after `layout_output` are, in some order, the skipped
  groups as they were and the placed ones at the places of the plan.
-/

/-! ### How far the offsets get -/

theorem LD_PAGE_pos : 0 < LD_PAGE := by decide

variable {cur laid : List LdGroup} {base : Nat}

theorem alignUp64_page {v : Nat} (h : v + LD_PAGE ≤ 2 ^ 64) :
    alignUp64 v LD_PAGE = alignUp v LD_PAGE := by
  have hpage : LD_PAGE = 2 ^ 12 := rfl
  rw [hpage] at h ⊢
  exact alignUp64_eq (by decide) h

theorem readOnlyEnd_le (t : GroupTable) :
    LD_PAGE ≤ groupEnd always LD_PAGE (readOnly t.groups)
      ∧ groupEnd always LD_PAGE (readOnly t.groups)
          ≤ LD_PAGE + extent (readOnly t.groups) :=
  ⟨le_groupEnd (t.powAligned_chron _ _) _ _, groupEnd_le (t.powAligned_chron _ _) _ _⟩

theorem writableStart_le (t : GroupTable) :
    groupEnd always LD_PAGE (readOnly t.groups) ≤ writableStart t.groups
      ∧ writableStart t.groups ≤ 2 * LD_PAGE + extent (readOnly t.groups) := by
  have h := (readOnlyEnd_le t).2
  have hlt := alignUp_lt (groupEnd always LD_PAGE (readOnly t.groups)) LD_PAGE_pos
  have hle := le_alignUp (groupEnd always LD_PAGE (readOnly t.groups)) LD_PAGE_pos
  unfold writableStart
  omega

theorem loadedEnd_le (t : GroupTable) :
    writableStart t.groups ≤ loadedEnd t.groups
      ∧ loadedEnd t.groups
          ≤ 2 * LD_PAGE + extent (readOnly t.groups) + extent (writable t.groups) := by
  have h := (writableStart_le t).2
  have hpow := t.powAligned_chron selLoaded [2, 3, 4]
  have hle : loadedEnd t.groups ≤ writableStart t.groups + extent (writable t.groups) :=
    groupEnd_le hpow _ _
  exact ⟨le_groupEnd hpow _ _, by omega⟩

theorem zeroedEnd_le (t : GroupTable) :
    loadedEnd t.groups ≤ groupEnd never (loadedEnd t.groups) (zeroed t.groups)
      ∧ groupEnd never (loadedEnd t.groups) (zeroed t.groups)
          ≤ 2 * LD_PAGE + extent (readOnly t.groups) + extent (writable t.groups)
              + extent (zeroed t.groups) := by
  have h := (loadedEnd_le t).2
  have hpow := t.powAligned_chron selNobits [2, 3, 4]
  have hle : groupEnd never (loadedEnd t.groups) (zeroed t.groups)
      ≤ loadedEnd t.groups + extent (zeroed t.groups) := groupEnd_le hpow _ _
  exact ⟨le_groupEnd hpow _ _, by omega⟩

theorem groupWalk_end_le {gs : List LdGroup} (h : PowAligned gs) {adv : LdGroup → Bool}
    {o : Nat} {p : LdGroup × Nat} (hp : p ∈ groupWalk adv o gs) :
    p.2 + p.1.size ≤ o + extent gs := walk_end_le h.pos hp

/-- The groups placed before the TLS groups end within the extent. -/
theorem early_end_le (t : GroupTable) {p : LdGroup × Nat}
    (hp : p ∈ loadedWalk t.groups ++ zeroedWalk t.groups) :
    p.2 + p.1.size ≤ 2 * LD_PAGE + extent t.groups := by
  have hx := extent_placed_le t.groups
  have hw := (writableStart_le t).2
  have hl := (loadedEnd_le t).2
  rcases mem_append.mp hp with hp | hp
  · rcases mem_append.mp hp with hp | hp
    · have := groupWalk_end_le (t.powAligned_chron _ _) hp
      unfold readOnly at hx
      omega
    · have := groupWalk_end_le (t.powAligned_chron _ _) hp
      unfold writable at hx
      omega
  · have := groupWalk_end_le (t.powAligned_chron _ _) hp
    unfold zeroed at hx
    omega

theorem pastEnd_le (t : GroupTable) :
    groupEnd never (loadedEnd t.groups) (zeroed t.groups) ≤ pastEnd t.groups
      ∧ pastEnd t.groups ≤ 2 * LD_PAGE + extent t.groups := by
  have hx := extent_placed_le t.groups
  have hz := (zeroedEnd_le t).2
  refine ⟨(le_furthest _ _).1, furthest_le (by omega) fun g hg => ?_⟩
  rcases mem_append.mp hg with hg | hg
  · obtain ⟨p, hp, rfl⟩ := mem_map.mp hg
    exact early_end_le t hp
  · -- a group that is not placed yet counts from the start of the file
    have hmem := mem_of_mem_filter hg
    have hun := (t.fresh g hmem).unplaced.1
    have hsz := size_le_extent hmem
    omega

theorem tdataEnd_le (t : GroupTable) :
    pastEnd t.groups ≤ tdataEnd t.groups
      ∧ tdataEnd t.groups ≤ pastEnd t.groups + extent (named ".tdata" t.groups) :=
  ⟨le_groupEnd (t.powAligned_named _) _ _, groupEnd_le (t.powAligned_named _) _ _⟩

theorem trailingStart_le (t : GroupTable) :
    tdataEnd t.groups ≤ trailingStart t.groups
      ∧ trailingStart t.groups ≤ tdataEnd t.groups + extent (named ".tbss" t.groups) := by
  unfold trailingStart
  split
  · exact ⟨le_groupEnd (t.powAligned_named _) _ _, groupEnd_le (t.powAligned_named _) _ _⟩
  · exact ⟨le_rfl, by omega⟩

/-! ### The passes after each other -/

/-- A pass finds its groups as they were before passes that place other groups. -/
theorem chron_of_lays {sel : LdGroup → Bool} {sel' : Int → LdGroup → Bool} {ranks : List Int}
    {cur' : List LdGroup} (h : Lays sel cur cur' laid)
    (hst : ∀ r, Static (sel' r)) (hex : ∀ g, selAny sel' ranks g → sel g = false) :
    chron sel' ranks cur' = chron sel' ranks cur := by
  unfold chron
  refine flatMap_congr fun r hr => h.miss _ (static_and_tls (hst r)) fun g hg => ?_
  exact hex g (any_eq_true.mpr ⟨r, hr, hg⟩)

theorem static_loaded (rank : Int) : Static (selLoaded rank) := fun _ _ _ => rfl

theorem static_nobits (rank : Int) : Static (selNobits rank) := fun _ _ _ => rfl

theorem static_rest (rank : Int) : Static (selRest rank) := fun _ _ _ => rfl

theorem static_name (n : String) : Static fun g => g.name == n :=
  fun base off g => by
    show ((g.setPos base off).name == n) = (g.name == n)
    rw [LdGroup.setPos_name]

theorem static_or {sel₁ sel₂ : LdGroup → Bool} (h₁ : Static sel₁) (h₂ : Static sel₂) :
    Static fun g => sel₁ g || sel₂ g := fun base off g => by
  show (sel₁ _ || sel₂ _) = _
  rw [h₁, h₂]

theorem static_selEarly : Static selEarly :=
  static_or (static_or (static_selAny static_loaded _) (static_selAny static_loaded _))
    (static_selAny static_nobits _)

/-- Pass 1 and pass 2. -/
theorem early_lays (t : GroupTable) (hfit : t.Fits base) {tls : Nat → Bool}
    (htls : ∀ gs, gs.map LdGroup.name = t.groups.map LdGroup.name → TlsByName tls gs) :
    let st1 := passRanks tls selLoaded always base [0, 1] (t.groups, LD_PAGE)
    let st2 := passRanks tls selLoaded always base [2, 3, 4] (st1.1, alignUp64 st1.2 LD_PAGE)
    let st3 := passRanks tls selNobits never base [2, 3, 4] st2
    Lays selEarly t.groups st3.1
        ((loadedWalk t.groups ++ zeroedWalk t.groups).map (place base))
      ∧ st3.2 = groupEnd never (loadedEnd t.groups) (zeroed t.groups) := by
  intro st1 st2 st3
  have hx := extent_placed_le t.groups
  have hro := (readOnlyEnd_le t).2
  have hw := (writableStart_le t).2
  have hl := (loadedEnd_le t).2
  unfold GroupTable.Fits at hfit
  obtain ⟨hlays1, hend1⟩ := passRanks_lays always base static_loaded exclusive_loaded [0, 1]
    (by decide) htls (t.powAligned_chron _ _)
    (show base + LD_PAGE + extent (readOnly t.groups) ≤ 2 ^ 64 by omega)
  -- the page boundary in front of the writable groups
  have hup : alignUp64 st1.2 LD_PAGE = writableStart t.groups := by
    have hst1 : st1.2 = groupEnd always LD_PAGE (readOnly t.groups) := hend1
    rw [hst1, alignUp64_page (by omega)]
    rfl
  have hch2 : chron selLoaded [2, 3, 4] st1.1 = writable t.groups :=
    chron_of_lays hlays1 static_loaded writable_not_readOnly
  have hst2 : st2 = passRanks tls selLoaded always base [2, 3, 4]
      (st1.1, writableStart t.groups) := by
    show passRanks tls selLoaded always base [2, 3, 4] (st1.1, alignUp64 st1.2 LD_PAGE) = _
    rw [hup]
  obtain ⟨hlays2, hend2⟩ := passRanks_lays always base static_loaded exclusive_loaded [2, 3, 4]
    (by decide) (fun gs (h : _ = st1.1.map LdGroup.name) => htls gs (h.trans hlays1.names))
    (by rw [hch2]; exact t.powAligned_chron _ _)
    (show base + writableStart t.groups + extent (chron selLoaded [2, 3, 4] st1.1) ≤ 2 ^ 64 by
      rw [hch2]; omega)
  rw [← hst2, hch2] at hlays2 hend2
  have hlays12 := hlays1.trans hlays2 (static_selAny static_loaded _) writable_not_readOnly
  have hch3 : chron selNobits [2, 3, 4] st2.1 = zeroed t.groups :=
    chron_of_lays hlays12 static_nobits zeroed_not_loaded
  have hst3 : st3 = passRanks tls selNobits never base [2, 3, 4]
      (st2.1, loadedEnd t.groups) := by
    show passRanks tls selNobits never base [2, 3, 4] (st2.1, st2.2) = _
    rw [hend2]
    rfl
  obtain ⟨hlays3, hend3⟩ := passRanks_lays never base static_nobits exclusive_nobits [2, 3, 4]
    (by decide) (fun gs (h : _ = st2.1.map LdGroup.name) => htls gs (h.trans hlays12.names))
    (by rw [hch3]; exact t.powAligned_chron _ _)
    (show base + loadedEnd t.groups + extent (chron selNobits [2, 3, 4] st2.1) ≤ 2 ^ 64 by
      rw [hch3]; omega)
  rw [← hst3, hch3] at hlays3 hend3
  have hall := hlays12.trans hlays3
    (static_or (static_selAny static_loaded _) (static_selAny static_loaded _))
    zeroed_not_loaded
  refine ⟨?_, hend3⟩
  rw [map_append]
  unfold loadedWalk
  rw [map_append]
  exact hall

/-! ### Past the groups before TLS -/

theorem selEarly_eq : selEarly = LdGroup.early :=
  funext fun _ => Bool.eq_iff_iff.mpr selEarly_iff

theorem static_waiting : Static fun g => !g.early && !g.tls := fun _ _ _ => rfl

/-- The groups that are not TLS, after pass 2. -/
theorem before_perm {cur' : List LdGroup} (h : Lays selEarly cur cur' laid) :
    (cur'.filter fun g => !g.tls).Perm
      (laid ++ cur.filter fun g => !g.early && !g.tls) := by
  have hor : (fun g : LdGroup => !g.tls) = fun g => selEarly g || (!g.early && !g.tls) := by
    funext g
    rw [selEarly_eq]
    cases he : g.early with
    | false => rfl
    | true =>
      have := selEarly_not_tls (selEarly_iff.mpr he)
      rw [this]
      rfl
  have hex : ∀ g, (!g.early && !g.tls) = true → selEarly g = false := fun g hg => by
    rw [selEarly_eq]
    simp only [Bool.and_eq_true, Bool.not_eq_true'] at hg
    exact hg.1
  rw [hor]
  refine (filter_or_perm hex cur').trans ?_
  rw [h.miss _ static_waiting hex]
  exact h.hit.append_right _

theorem furthest_place (base o : Nat) (ps : List (LdGroup × Nat)) (gs : List LdGroup) :
    furthest o (ps.map (place base) ++ gs) = furthest o (ps.map (place 0) ++ gs) := by
  rw [furthest_eq_foldl, furthest_eq_foldl, map_append, map_append, map_map,
    map_map]
  rfl

/-- The offset past all groups is the one of the plan. -/
theorem pastGroups_plan (t : GroupTable) (hfit : t.Fits base) {tls : Nat → Bool}
    (htls : TlsByName tls cur)
    (hlays : Lays selEarly t.groups cur
      ((loadedWalk t.groups ++ zeroedWalk t.groups).map (place base))) :
    pastGroups tls 0 cur (groupEnd never (loadedEnd t.groups) (zeroed t.groups))
      = pastEnd t.groups := by
  have hperm := before_perm hlays
  have hle := (pastEnd_le t).2
  have hpage : LD_PAGE = 4096 := rfl
  unfold GroupTable.Fits at hfit
  have hpast : furthest (groupEnd never (loadedEnd t.groups) (zeroed t.groups))
      (cur.filter fun g => !g.tls) = pastEnd t.groups := by
    rw [furthest_perm hperm, furthest_place]
    rfl
  rw [pastGroups_eq 0 _ (by simpa using htls) ?_, hpast]
  -- no end overflows, as the largest one does not
  intro g hg ht
  have hmem : g ∈ cur.filter fun g => !g.tls := mem_filter.mpr ⟨hg, by rw [ht]; rfl⟩
  have hend := (le_furthest (groupEnd never (loadedEnd t.groups) (zeroed t.groups)) _).2 g hmem
  rw [hpast] at hend
  omega

/-! ### The whole layout -/

/-- The base address. -/
def baseOf (shared : Bool) : Nat := if shared then 0 else LD_BASE

/-- `.tdata`, placed. -/
theorem tdata_lays (t : GroupTable) (hfit : t.Fits base) (hlays : Lays selEarly t.groups cur laid) :
    let st := layTdata base (findGroup t.groups ".tdata") (cur, pastEnd t.groups)
    Lays (fun g => selEarly g || g.name == ".tdata") t.groups st.1
        (laid ++ (plan t.groups).tdata.map (place base))
      ∧ st.2 = tdataEnd t.groups := by
  intro st
  have hle := (pastEnd_le t).2
  have hx := extent_placed_le t.groups
  unfold GroupTable.Fits at hfit
  have hnd : (cur.map LdGroup.name).Nodup := by rw [hlays.names]; exact t.nodup
  have hst : st = passSel (fun g => g.name == ".tdata") always base (pastEnd t.groups) cur := by
    show layTdata base (findGroup t.groups ".tdata") (cur, pastEnd t.groups) = _
    rw [← findGroup_congr hlays.names]
    exact layTdata_eq hnd base _
  have hnamed : cur.filter (fun g => g.name == ".tdata") = named ".tdata" t.groups :=
    hlays.miss _ (static_name _) (named_not_early (Or.inl rfl))
  obtain ⟨hone, hend⟩ := single_lays cur ".tdata" always base
    (o := pastEnd t.groups) (by rw [hnamed]; exact t.powAligned_named _)
    (by rw [hnamed]; omega)
  rw [← hst, hnamed] at hone hend
  exact ⟨hlays.trans hone static_selEarly (named_not_early (Or.inl rfl)), hend⟩

/-- After `.tdata` is placed the offset is behind it. -/
theorem layTdata_some {k o : Nat} {g : LdGroup} (base : Nat) (hg : cur[k]? = some g) :
    ∃ td, (layTdata base (some k) (cur, o)).1[k]? = some td
      ∧ add64 td.file_offset td.size = (layTdata base (some k) (cur, o)).2 := by
  refine ⟨g.setPos base (alignUp64 o g.alignOf), ?_, ?_⟩
  · unfold layTdata placeAt
    dsimp only
    rw [hg]
    exact List.getElem?_set_self (List.getElem?_eq_some_iff.mp hg).1
  · unfold layTdata placeAt
    dsimp only
    rw [hg, LdGroup.setPos_file_offset, LdGroup.setPos_size]

theorem named_eq_nil {gs : List LdGroup} {n : String} :
    named n gs = [] ↔ findGroup gs n = none := by
  unfold named
  rw [findGroup_eq_none, filter_eq_nil_iff]
  simp

/-- Both TLS groups, placed, and the offset after them. -/
theorem tls_lays (t : GroupTable) (hfit : t.Fits base) (hlays : Lays selEarly t.groups cur laid) :
    let st := layTdata base (findGroup t.groups ".tdata") (cur, pastEnd t.groups)
    let st' := layTbss base (findGroup t.groups ".tdata") (findGroup t.groups ".tbss") st
    Lays (fun g => (selEarly g || g.name == ".tdata") || g.name == ".tbss") t.groups st'.1
        ((laid ++ (plan t.groups).tdata.map (place base))
          ++ (plan t.groups).tbss.map (place base))
      ∧ st'.2 = trailingStart t.groups := by
  intro st st'
  obtain ⟨hl, hend⟩ := tdata_lays t hfit hlays
  replace hl : Lays (fun g => selEarly g || g.name == ".tdata") t.groups st.1 _ := hl
  replace hend : st.2 = tdataEnd t.groups := hend
  have hle := (pastEnd_le t).2
  have hle' := (tdataEnd_le t).2
  have hx := extent_placed_le t.groups
  have hfit' := hfit
  unfold GroupTable.Fits at hfit'
  have hnd : (st.1.map LdGroup.name).Nodup := by rw [hl.names]; exact t.nodup
  have hex : ∀ g : LdGroup, (g.name == ".tbss") = true
      → (selEarly g || g.name == ".tdata") = false := fun g h => by
    rw [named_not_early (Or.inr rfl) g h, tbss_not_tdata g h]
    rfl
  have hnamed : st.1.filter (fun g => g.name == ".tbss") = named ".tbss" t.groups :=
    hl.miss _ (static_name _) hex
  have hfind : findGroup t.groups ".tbss" = findGroup st.1 ".tbss" :=
    (findGroup_congr hl.names _).symm
  have hst : st = (st.1, tdataEnd t.groups) := by rw [← hend]
  -- the loop that places `.tbss`, for either way of advancing
  have hone : ∀ adv, Lays (fun g => g.name == ".tbss") st.1
      (passSel (fun g => g.name == ".tbss") adv base (tdataEnd t.groups) st.1).1
      ((groupWalk adv (tdataEnd t.groups) (named ".tbss" t.groups)).map (place base))
      ∧ (passSel (fun g => g.name == ".tbss") adv base (tdataEnd t.groups) st.1).2
          = groupEnd adv (tdataEnd t.groups) (named ".tbss" t.groups) := fun adv => by
    have h := single_lays st.1 ".tbss" adv base (o := tdataEnd t.groups)
      (by rw [hnamed]; exact t.powAligned_named _) (by rw [hnamed]; omega)
    rwa [hnamed] at h
  have hstatic := static_or static_selEarly (static_name ".tdata")
  cases hf : findGroup t.groups ".tdata" with
  | none =>
    have hnil := named_eq_nil.mpr hf
    have hadv : tbssAdv t.groups = fun g => !g.nobits := by
      funext g
      unfold tbssAdv
      rw [hnil]
      rfl
    have hst' : st' = passSel (fun g => g.name == ".tbss") (fun g => !g.nobits) base
        (tdataEnd t.groups) st.1 := by
      show layTbss base (findGroup t.groups ".tdata") (findGroup t.groups ".tbss") st = _
      rw [hf, hst, hfind]
      exact layTbss_alone hnd base _
    obtain ⟨h1, h2⟩ := hone (tbssAdv t.groups)
    have hstart : trailingStart t.groups
        = groupEnd (tbssAdv t.groups) (tdataEnd t.groups) (named ".tbss" t.groups) := by
      unfold trailingStart
      rw [hnil]
      rfl
    rw [hst', ← hadv, hstart]
    exact ⟨hl.trans h1 hstatic hex, h2⟩
  | some k =>
    have hne : named ".tdata" t.groups ≠ [] := fun h => by
      rw [named_eq_nil.mp h] at hf
      cases hf
    have hemp : (named ".tdata" t.groups).isEmpty = false := by simpa using hne
    have hadv : tbssAdv t.groups = always := by
      funext g
      unfold tbssAdv
      rw [hemp]
      rfl
    have hndc : (cur.map LdGroup.name).Nodup := by rw [hlays.names]; exact t.nodup
    obtain ⟨g, hg, _⟩ := (findGroup_eq_some hndc).mp
      ((findGroup_congr hlays.names ".tdata").trans hf)
    obtain ⟨td, htd, hsum⟩ := layTdata_some (o := pastEnd t.groups) base hg
    have hstk : layTdata base (some k) (cur, pastEnd t.groups) = st := by
      show _ = layTdata base (findGroup t.groups ".tdata") (cur, pastEnd t.groups)
      rw [hf]
    rw [hstk] at htd hsum
    have hst' : st' = ((passSel (fun g => g.name == ".tbss") always base
        (tdataEnd t.groups) st.1).1, tdataEnd t.groups) := by
      show layTbss base (findGroup t.groups ".tdata") (findGroup t.groups ".tbss") st = _
      rw [hf, hst, hfind]
      exact layTbss_behind hnd base htd (hsum.trans hend)
    have hstart : trailingStart t.groups = tdataEnd t.groups := by
      unfold trailingStart
      rw [hemp]
      rfl
    have hplan : (plan t.groups).tbss
        = groupWalk (tbssAdv t.groups) (tdataEnd t.groups) (named ".tbss" t.groups) := rfl
    rw [hst', hstart, hplan, hadv]
    exact ⟨hl.trans (hone always).1 hstatic hex, rfl⟩

/-- **`layout_output` computes the plan.**  As long as 64 bits are enough the groups come
    out, in some order, as the skipped groups unchanged and the others where the plan puts
    them. -/
theorem layoutOutput_plan (shared : Bool) (t : GroupTable) (hfit : t.Fits (baseOf shared)) :
    (layoutOutput shared t.groups).groups.Perm
      (t.groups.filter LdGroup.skipped
        ++ (plan t.groups).all.map (place (baseOf shared))) := by
  have htls : ∀ gs, gs.map LdGroup.name = t.groups.map LdGroup.name →
      TlsByName (isTlsGroup (findGroup t.groups ".tdata") (findGroup t.groups ".tbss")) gs :=
    fun gs h => tlsByName t.nodup h
  obtain ⟨hearly, hend⟩ := early_lays t hfit htls
  have hpast := pastGroups_plan t hfit (htls _ hearly.names) hearly
  obtain ⟨htl, hst⟩ := tls_lays t hfit hearly
  have hle := (pastEnd_le t).2
  have hle' := (tdataEnd_le t).2
  have hle'' := (trailingStart_le t).2
  have hx := extent_placed_le t.groups
  have hfit' := hfit
  unfold GroupTable.Fits at hfit'
  -- the state before pass 3
  generalize hst3 : passRanks (isTlsGroup (findGroup t.groups ".tdata")
      (findGroup t.groups ".tbss")) selNobits never (baseOf shared) [2, 3, 4]
    (passRanks (isTlsGroup (findGroup t.groups ".tdata") (findGroup t.groups ".tbss"))
      selLoaded always (baseOf shared) [2, 3, 4]
      ((passRanks (isTlsGroup (findGroup t.groups ".tdata") (findGroup t.groups ".tbss"))
        selLoaded always (baseOf shared) [0, 1] (t.groups, LD_PAGE)).1,
        alignUp64 (passRanks (isTlsGroup (findGroup t.groups ".tdata")
          (findGroup t.groups ".tbss")) selLoaded always (baseOf shared) [0, 1]
          (t.groups, LD_PAGE)).2 LD_PAGE)) = st3 at hearly hend hpast htl hst
  generalize hst5 : layTbss (baseOf shared) (findGroup t.groups ".tdata")
    (findGroup t.groups ".tbss") (layTdata (baseOf shared) (findGroup t.groups ".tdata")
      (st3.1, pastEnd t.groups)) = st5 at htl hst
  have hrun : (layoutOutput shared t.groups).groups
      = (passRanks (isTlsGroup (findGroup t.groups ".tdata") (findGroup t.groups ".tbss"))
          selRest byBits (baseOf shared) [5, 6] st5).1 := by
    rw [← hst5, ← hpast, ← hend, ← hst3]
    rfl
  have hch : chron selRest [5, 6] st5.1 = trailing t.groups :=
    chron_of_lays htl static_rest trailing_not_before
  have hst5' : st5 = (st5.1, trailingStart t.groups) := by rw [← hst]
  obtain ⟨hlays, _⟩ := passRanks_lays byBits (baseOf shared) static_rest exclusive_rest [5, 6]
    (by decide) (fun gs (h : _ = st5.1.map LdGroup.name) => htls gs (h.trans htl.names))
    (by rw [hch]; exact t.powAligned_chron _ _)
    (show baseOf shared + trailingStart t.groups + extent (chron selRest [5, 6] st5.1)
        ≤ 2 ^ 64 by rw [hch]; omega)
  rw [← hst5', hch] at hlays
  have hall : Lays selPlaced t.groups (layoutOutput shared t.groups).groups
      ((plan t.groups).all.map (place (baseOf shared))) := by
    have h := htl.trans hlays
      (static_or (static_or static_selEarly (static_name _)) (static_name _)) trailing_not_before
    rw [← hrun] at h
    unfold Plan.all
    simp only [map_append]
    rw [map_append] at h
    exact h
  have hskip : (layoutOutput shared t.groups).groups.filter (fun g => !selPlaced g)
      = t.groups.filter LdGroup.skipped := by
    have hsk : (fun g => !selPlaced g) = LdGroup.skipped := by
      funext g
      cases hs : g.skipped with
      | false => rw [selPlaced_iff.mpr hs]; rfl
      | true =>
        have hp : selPlaced g = false := by
          rw [Bool.eq_false_iff]
          intro h
          rw [selPlaced_iff.mp h] at hs
          cases hs
        rw [hp]
        rfl
    rw [hsk]
    refine hall.miss _ (fun _ _ _ => rfl) fun g hg => ?_
    rw [← hsk] at hg
    simpa using hg
  have hsplit := filter_append_perm (fun g => selPlaced g)
    (layoutOutput shared t.groups).groups
  rw [hskip] at hsplit
  exact hsplit.symm.trans ((hall.hit.append_right _).trans perm_append_comm)

end MeuOS.Ld
