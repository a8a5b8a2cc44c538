import MeuOS.Ld.Dynamic
import MeuOS.Lib.Overwrite

namespace MeuOS.Ld

open MeuOS.Lib List Lib.Checked

/-!
# What the dynamic tables hold (`dynamic.c`)

The groups `.dynstr`, `.dynsym` and `.hash` are made by `build_dynamic_tables` where the input has no
section of these names.

* `Holds` — a group of a name has some bytes;
* `Keeps` — a stage that leaves the bytes of a name alone;
* `stringOffsets` — where the strings of a table begin;
* `dynstrBytes`, `entriesOf` — `.dynstr` and the entries for `.dynsym`;
* `buildDynamicTables_contents` — the bytes behind the stage;
* `fillDynsym` — the entries of `.dynsym` behind layout.
-/

/-! ### Groups and their bytes -/

/-- The group of a name has the index `k`, takes file space and has the bytes given. -/
structure Holds (s : GroupData) (name : String) (k : Nat) (bytes : Bytes) : Prop where
  found : findGroup s.groups name = some k
  sized : ∃ g, s.groups[k]? = some g ∧ g.nobits = false ∧ g.size = bytes.length
  lt : bytes.length < 2 ^ 64
  data : s.data k = bytes

/-- The bytes of a name stay. -/
def Keeps (name : String) (s s' : GroupData) : Prop :=
  ∀ k bytes, Holds s name k bytes → Holds s' name k bytes

variable {name : String} {s s' : GroupData} {i align offset : Nat} {names : List String}
  {c : DynContext}

theorem Keeps.trans {s'' : GroupData} (h : Keeps name s s')
    (h' : Keeps name s' s'') : Keeps name s s'' := fun k bytes hs => h' k bytes (h k bytes hs)

section steps

variable {s s' : GroupData} {name : String} {k : Nat} {bytes : Bytes}

/-- A change of one group that leaves what it takes of the file alone, or is of another group. -/
theorem Holds.modify (h : Holds s name k bytes) {f : LdGroup → LdGroup}
    {data : Nat → Bytes} (hname : ∀ g, (f g).name = g.name)
    (hkeep : i = k → ∀ g, (f g).nobits = g.nobits ∧ (f g).size = g.size)
    (hdata : data k = bytes) : Holds ⟨s.groups.modify i f, data⟩ name k bytes := by
  obtain ⟨g, hg, hnobits, hsize⟩ := h.sized
  refine ⟨(findGroup_modify hname _ _ _).trans h.found, ?_, h.lt, hdata⟩
  rw [getElem?_modify, hg, Option.map_eq_map, Option.map_some]
  by_cases hik : i = k
  · obtain ⟨hn, hs⟩ := hkeep hik g
    rw [if_pos hik]
    exact ⟨f g, rfl, hn.trans hnobits, hs.trans hsize⟩
  · rw [if_neg hik]
    exact ⟨g, rfl, hnobits, hsize⟩

theorem Holds.setRank (h : Holds s name k bytes) (i : Nat) (rank : Int) :
    Holds (s.setRank i rank) name k bytes :=
  h.modify (f := fun g => { g with rank := rank }) (fun _ => rfl) (fun _ _ => ⟨rfl, rfl⟩) h.data

/-- `get_group` leaves the bytes of all groups, and finds another group for another name. -/
theorem Holds.get (h : Holds s name k bytes) {other : String} {type flags : Nat}
    (hget : s.get other type flags align = (s', i)) :
    Holds s' name k bytes ∧ (other ≠ name → i ≠ k) := by
  obtain ⟨hlt, hk⟩ := findGroup_some h.found
  unfold GroupData.get getGroup at hget
  cases hf : findGroup s.groups other with
  | some j =>
    rw [hf] at hget
    cases hget
    obtain ⟨hjlt, hj⟩ := findGroup_some hf
    constructor
    · refine h.modify (fun g => ?_) (fun _ g => ?_) ?_
      · split <;> rfl
      · split <;> exact ⟨rfl, rfl⟩
      · rw [if_neg hjlt.ne]
        exact h.data
    · rintro hne rfl
      exact hne (hj.symm.trans hk)
  | none =>
    rw [hf] at hget
    cases hget
    refine ⟨⟨?_, ?_, h.lt, ?_⟩, fun _ => hlt.ne'⟩
    · have hfound := h.found
      unfold findGroup at hfound ⊢
      rw [findIdx?_append, hfound]
      rfl
    · rw [getElem?_append_left hlt]
      exact h.sized
    · dsimp only
      rw [if_pos rfl, Function.update_of_ne hlt.ne]
      exact h.data

/-- A new group is empty. -/
theorem Holds.of_get {type flags : Nat} (hnew : name ∉ s.names) (htype : type ≠ SHT_NOBITS)
    (hget : s.get name type flags align = (s', k)) : Holds s' name k [] := by
  have hnone : findGroup s.groups name = none := by
    cases hf : findGroup s.groups name with
    | none => rfl
    | some j =>
      obtain ⟨hlt, rfl⟩ := findGroup_some hf
      exact absurd (mem_map_of_mem (getElem_mem hlt)) hnew
  unfold GroupData.get getGroup at hget
  rw [hnone] at hget
  cases hget
  refine ⟨?_, ?_, by decide, ?_⟩
  · unfold findGroup at hnone ⊢
    rw [findIdx?_append, hnone]
    simp
  · simp [LdGroup.nobits, htype]
  · simp

/-- Bytes are appended where the alignment asks for no gap. -/
theorem Holds.append (h : Holds s name k bytes) {more : Bytes}
    (hfit : alignUp64 bytes.length (if align = 0 then 1 else align) = bytes.length)
    (happend : s.append k more align = .ok (s', offset)) :
    Holds s' name k (bytes ++ more) ∧ offset = bytes.length := by
  obtain ⟨g, hg, hoffset, hfits, hgroups, hdata⟩ := GroupData.append_eq_ok happend
  obtain ⟨g', hg', hnobits, hsize⟩ := h.sized
  cases hg.symm.trans hg'
  rw [hsize, hfit] at hoffset
  subst hoffset
  refine ⟨⟨?_, ?_, ?_, ?_⟩, rfl⟩
  · rw [hgroups]
    exact (findGroup_modify (f := fun g => { g with size := add64 bytes.length more.length })
      (fun _ => rfl) _ _ _).trans h.found
  · rw [hgroups, getElem?_modify, hg, Option.map_eq_map, Option.map_some, if_pos rfl]
    refine ⟨_, rfl, hnobits, ?_⟩
    rw [length_append]
    exact add64_eq hfits
  · rw [length_append]
    exact hfits
  · rw [hdata, Function.update_self, hnobits, h.data]
    simp

/-- Bytes appended to another group. -/
theorem Holds.append_other (h : Holds s name k bytes) {more : Bytes}
    (hne : i ≠ k) (happend : s.append i more align = .ok (s', offset)) :
    Holds s' name k bytes := by
  obtain ⟨g, -, -, -, hgroups, hdata⟩ := GroupData.append_eq_ok happend
  have hs' : s' = ⟨s'.groups, s'.data⟩ := rfl
  rw [hs', hgroups]
  refine h.modify (f := fun g => { g with size := add64 offset more.length }) (fun _ => rfl)
    (fun hik => absurd hik hne) ?_
  rw [hdata, Function.update_of_ne hne.symm]
  exact h.data

end steps

/-! ### Tables of strings -/

/-- Where strings begin that stand one behind the other from `start` on. -/
def stringOffsets : Nat → List String → List Nat
  | _, [] => []
  | start, name :: names => start :: stringOffsets (start + (stringBytes name).length) names

@[simp] theorem length_stringOffsets (start : Nat) (names : List String) :
    (stringOffsets start names).length = names.length := by
  induction names generalizing start with
  | nil => rfl
  | cons name names ih => simp [stringOffsets, ih]

/-- At its offset a string stands in the table. -/
theorem stringOffsets_spec {front : Bytes}
    (h : (stringOffsets front.length names)[i]? = some offset) :
    ∃ name rest, names[i]? = some name ∧ front.length ≤ offset ∧
      (front ++ names.flatMap stringBytes).drop offset = stringBytes name ++ rest := by
  induction names generalizing front i with
  | nil => cases h
  | cons name names ih =>
    cases i with
    | zero =>
      cases h
      exact ⟨name, names.flatMap stringBytes, rfl, le_rfl, by simp⟩
    | succ i =>
      have hfront : front.length + (stringBytes name).length =
          (front ++ stringBytes name).length := by simp
      unfold stringOffsets at h
      rw [getElem?_cons_succ, hfront] at h
      obtain ⟨name', rest, hname, hle, hdrop⟩ := ih h
      refine ⟨name', rest, hname, ?_, ?_⟩
      · exact (Nat.le_add_right _ _).trans (hfront ▸ hle)
      · rw [flatMap_cons, ← append_assoc]
        exact hdrop

theorem alignUp64_one {v : Nat} (h : v < 2 ^ 64) : alignUp64 v 1 = v := by
  have hroom : v + 2 ^ 0 ≤ 2 ^ 64 := by omega
  have hup : alignUp64 v 1 = alignUp v 1 := alignUp64_eq (k := 0) (by decide) hroom
  rw [hup]
  unfold alignUp
  simp

/-- Strings appended stand one behind the other. -/
theorem Holds.addStrings {k : Nat} {bytes : Bytes} {offsets : List Nat} (h : Holds s name k bytes)
    (hadd : addStrings k s names = .ok (s', offsets)) :
    Holds s' name k (bytes ++ names.flatMap stringBytes) ∧
      offsets = stringOffsets bytes.length names := by
  induction names generalizing s bytes offsets with
  | nil =>
    cases hadd
    exact ⟨by simpa using h, rfl⟩
  | cons n names ih =>
    obtain ⟨⟨s₁, offset⟩, h₁, hadd⟩ := bind_eq_ok hadd
    obtain ⟨⟨s₂, rest⟩, h₂, hadd⟩ := bind_eq_ok hadd
    cases hadd
    have hfit : alignUp64 bytes.length (if 1 = 0 then 1 else 1) = bytes.length := by
      rw [if_neg Nat.one_ne_zero]
      exact alignUp64_one h.lt
    obtain ⟨hs₁, rfl⟩ := h.append hfit h₁
    obtain ⟨hs₂, rfl⟩ := ih hs₁ h₂
    refine ⟨?_, ?_⟩
    · rw [flatMap_cons, ← append_assoc]
      exact hs₂
    · rw [length_append]
      rfl

/-- Strings appended to another group. -/
theorem Holds.addStrings_other {k : Nat} {bytes : Bytes} {offsets : List Nat}
    (h : Holds s name k bytes) (hne : i ≠ k)
    (hadd : MeuOS.Ld.addStrings i s names = .ok (s', offsets)) : Holds s' name k bytes := by
  induction names generalizing s offsets with
  | nil =>
    cases hadd
    exact h
  | cons n names ih =>
    obtain ⟨⟨s₁, offset⟩, h₁, hadd⟩ := bind_eq_ok hadd
    obtain ⟨⟨s₂, rest⟩, h₂, hadd⟩ := bind_eq_ok hadd
    cases hadd
    exact ih (h.append_other hne h₁) h₂

/-! ### The three groups -/

/-- The names of the symbols of `.dynsym`, in order. -/
def dynsymNames (c : DynContext) : List String :=
  (exportedGlobals c).map LdGlobal.name ++
    (importedItems c).filterMap fun e => (c.globals.find e.name).map LdGlobal.name

theorem names_dynsymGlobals (c : DynContext) (groups : List LdGroup) :
    (dynsymGlobals c groups).map (·.1.name) = dynsymNames c := by
  unfold dynsymGlobals dynsymNames
  rw [map_append, map_map, map_filterMap]
  simp only [Option.map_map]
  rfl

/-- No name is there twice, where none is in the GOT. -/
theorem dynsymNames_nodup (hgot : (c.got.map LdGotEntry.name).Nodup) :
    (dynsymNames c).Nodup := by
  unfold dynsymNames
  have himports : ((importedItems c).filterMap fun e =>
      (c.globals.find e.name).map LdGlobal.name).Sublist ((importedItems c).map (·.name)) := by
    induction importedItems c with
    | nil => exact .slnil
    | cons e es ih =>
      cases hg : c.globals.find e.name with
      | none =>
        rw [filterMap_cons_none (by rw [hg]; rfl), map_cons]
        exact ih.cons _
      | some g =>
        rw [filterMap_cons_some (by rw [hg]; rfl), map_cons,
          GlobalTable.find_name hg]
        exact ih.cons_cons _
  refine List.Nodup.append ?_ ?_ ?_
  · exact c.globals.nodup.sublist (filter_sublist.map LdGlobal.name)
  · exact (hgot.sublist (filter_sublist.map LdGotEntry.name)).sublist himports
  · intro name hexported himported
    obtain ⟨g, hg, rfl⟩ := mem_map.mp hexported
    obtain ⟨e, he, hname⟩ := mem_map.mp (himports.subset himported)
    have hmem := mem_filter.mp hg
    have hnot := (mem_filter.mp he).2
    have hdef : alreadyDefined c e.name = true := by
      unfold alreadyDefined
      rw [any_eq_true]
      refine ⟨g, hmem.1, ?_⟩
      have hdefined : g.defined = true := by
        have h := hmem.2
        simp only [Bool.and_eq_true] at h
        exact h.1.1
      simp [hdefined, hname]
    simp [hdef] at hnot

/-- `.dynstr` up to the names of symbols. -/
def leadBytes (c : DynContext) : Bytes := [0] ++ (leadingStrings c).flatMap stringBytes

/-- `.dynstr`. -/
def dynstrBytes (c : DynContext) : Bytes := leadBytes c ++ (dynsymNames c).flatMap stringBytes

/-- The entries for `.dynsym`, for the groups that there are when they are made. -/
def entriesOf (c : DynContext) (groups : List LdGroup) : List DynsymEntry :=
  (dynsymGlobals c groups).zipWith (fun g offset => ⟨g.1, offset % 2 ^ 32, g.2⟩)
    (stringOffsets (leadBytes c).length (dynsymNames c))

theorem length_entriesOf (c : DynContext) (groups : List LdGroup) :
    (entriesOf c groups).length = (dynsymNames c).length := by
  unfold entriesOf
  rw [length_zipWith, length_stringOffsets, ← names_dynsymGlobals c groups, length_map,
    Nat.min_self]

section stages

variable {c : DynContext} {s s' : GroupData} {k : Nat}

theorem addDynstr_holds {r : Option Nat × List Nat} (hnew : ".dynstr" ∉ s.names)
    (h : addDynstr c s = .ok (s', k, r)) : Holds s' ".dynstr" k (leadBytes c) := by
  unfold addDynstr at h
  obtain ⟨⟨s₀, j⟩, hget⟩ : ∃ r, s.get ".dynstr" SHT_STRTAB SHF_ALLOC 1 = r := ⟨_, rfl⟩
  rw [hget] at h
  obtain ⟨⟨s₁, o₁⟩, h₁, h⟩ := bind_eq_ok h
  obtain ⟨⟨s₂, o₂⟩, h₂, h⟩ := bind_eq_ok h
  have hpair : s' = s₂ ∧ k = j := by
    cases hso : c.soname with
    | none =>
      rw [hso] at h
      obtain ⟨rfl, hr⟩ := Prod.mk.inj (ok.inj h)
      exact ⟨rfl, (Prod.mk.inj hr).1.symm⟩
    | some _ =>
      rw [hso] at h
      obtain ⟨rfl, hr⟩ := Prod.mk.inj (ok.inj h)
      exact ⟨rfl, (Prod.mk.inj hr).1.symm⟩
  obtain ⟨rfl, rfl⟩ := hpair
  have h₀ : Holds s₀ ".dynstr" k [] := .of_get hnew (by decide) hget
  obtain ⟨hnul, -⟩ := h₀.append (by decide) h₁
  exact (hnul.addStrings h₂).1

theorem addDynsym_holds {dynstr data_offset : Nat} {entries : List DynsymEntry}
    (hnew : ".dynsym" ∉ s.names) (hstr : Holds s ".dynstr" dynstr (leadBytes c))
    (h : addDynsym c s dynstr = .ok (s', data_offset, entries)) :
    (∃ i, Holds s' ".dynsym" i (replicate ((dynsymCount c + 1) * c.symSize) 0)) ∧
      Holds s' ".dynstr" dynstr (dynstrBytes c) ∧ data_offset = 0 ∧
      ∃ groups, entries = entriesOf c groups := by
  unfold addDynsym at h
  obtain ⟨⟨s₀, j⟩, hget⟩ : ∃ r, s.get ".dynsym" SHT_DYNSYM SHF_ALLOC 8 = r := ⟨_, rfl⟩
  rw [hget] at h
  obtain ⟨⟨s₁, o₁⟩, h₁, h⟩ := bind_eq_ok h
  obtain ⟨⟨s₂, o₂⟩, h₂, h⟩ := bind_eq_ok h
  obtain ⟨rfl, hr⟩ := Prod.mk.inj (ok.inj h)
  cases hr
  rw [names_dynsymGlobals] at h₂
  have h₀ : Holds s₀ ".dynsym" j [] := .of_get hnew (by decide) hget
  obtain ⟨hstr₀, hne⟩ := hstr.get hget
  obtain ⟨hsym₁, rfl⟩ := h₀.append (by decide) h₁
  have hstr₁ := hstr₀.append_other (hne (by decide)) h₁
  obtain ⟨hstr₂, rfl⟩ := hstr₁.addStrings h₂
  exact ⟨⟨j, hsym₁.addStrings_other (hne (by decide)).symm h₂⟩, hstr₂, rfl, s₁.groups, rfl⟩

theorem addHash_holds {entries : List DynsymEntry} (hnew : ".hash" ∉ s.names)
    (h : addHash c s entries = .ok s') :
    (∃ i, Holds s' ".hash" i (hashBytes (dynsymCount c)
      ((entries.take (dynsymCount c)).map fun e => nameBytes e.global.name))) ∧
      dynsymCount c ≤ entries.length ∧ ∀ name, name ≠ ".hash" → Keeps name s s' := by
  unfold addHash at h
  obtain ⟨⟨s₀, j⟩, hget⟩ : ∃ r, s.get ".hash" SHT_HASH SHF_ALLOC 4 = r := ⟨_, rfl⟩
  rw [hget] at h
  dsimp only at h
  by_cases hmissing : entries.length < dynsymCount c
  · rw [if_pos hmissing] at h
    cases h
  · rw [if_neg hmissing] at h
    obtain ⟨⟨s₁, o₁⟩, h₁, h⟩ := bind_eq_ok h
    cases h
    have h₀ : Holds s₀ ".hash" j [] := .of_get hnew (by decide) hget
    refine ⟨⟨j, (h₀.append (by decide) h₁).1⟩, not_lt.mp hmissing, ?_⟩
    intro name hname i bytes hs
    obtain ⟨hs₀, hne⟩ := hs.get hget
    exact hs₀.append_other (hne (Ne.symm hname)) h₁

theorem addRela_keeps {other : String} {n : Nat} (hne : other ≠ name)
    (h : addRela c s other n = .ok s') : Keeps name s s' := by
  intro i bytes hs
  unfold addRela at h
  by_cases hn : n = 0
  · rw [if_pos hn] at h
    exact ok.inj h ▸ hs
  · rw [if_neg hn] at h
    obtain ⟨⟨s₀, j⟩, hget⟩ : ∃ r, s.get other SHT_RELA SHF_ALLOC 8 = r := ⟨_, rfl⟩
    rw [hget] at h
    obtain ⟨⟨s₁, o₁⟩, h₁, h⟩ := bind_eq_ok h
    cases h
    obtain ⟨hs₀, hother⟩ := hs.get hget
    exact (hs₀.setRank j 1).append_other (hother hne) h₁

theorem addPlt_keeps (hne : ".plt" ≠ name) (h : addPlt c s = .ok s') :
    Keeps name s s' := by
  intro i bytes hs
  unfold addPlt at h
  by_cases hn : jumpslotCount c = 0
  · rw [if_pos hn] at h
    exact ok.inj h ▸ hs
  · rw [if_neg hn] at h
    obtain ⟨⟨s₀, j⟩, hget⟩ :
        ∃ r, s.get ".plt" SHT_PROGBITS (SHF_ALLOC ||| SHF_EXECINSTR) 16 = r := ⟨_, rfl⟩
    rw [hget] at h
    obtain ⟨hs₀, hother⟩ := hs.get hget
    refine foldlM_keeps (I := fun t => Holds t name i bytes) ?_ (hs₀.setRank j 0) h
    intro t _ t' ht hstep
    obtain ⟨⟨t₁, o₁⟩, h₁, hstep⟩ := bind_eq_ok hstep
    cases hstep
    exact ht.append_other (hother hne) h₁

theorem addDynamic_keeps {ntags : Nat} (hne : ".dynamic" ≠ name)
    (h : addDynamic c s ntags = .ok s') : Keeps name s s' := by
  intro i bytes hs
  unfold addDynamic at h
  cases hk : findGroup s.groups ".dynamic" with
  | none =>
    rw [hk] at h
    cases h
  | some j =>
    rw [hk] at h
    obtain ⟨⟨s₁, o₁⟩, h₁, h⟩ := bind_eq_ok h
    cases h
    refine hs.append_other (fun hji => hne ?_) h₁
    obtain ⟨_, hj⟩ := findGroup_some hk
    obtain ⟨_, hi⟩ := findGroup_some hs.found
    subst hji
    exact hj.symm.trans hi

end stages

/-- The input has no section under the name of a table. -/
def NoTables (s : GroupData) : Prop :=
  ∀ name ∈ [".dynstr", ".dynsym", ".hash"], name ∉ s.names

/-- Behind the stage the tables have the bytes for the symbols that were counted, and every symbol
    that was counted has an entry. -/
theorem buildDynamicTables_contents {t : DynTables}
    (hdyn : c.dyn = true) (hnew : NoTables s) (h : buildDynamicTables c s = .ok (s', t)) :
    (∃ i, Holds s' ".dynstr" i (dynstrBytes c)) ∧
      (∃ i, Holds s' ".dynsym" i (replicate ((dynsymCount c + 1) * c.symSize) 0)) ∧
      (∃ i, Holds s' ".hash" i
        (hashBytes (dynsymCount c) (t.entries.map fun e => nameBytes e.global.name))) ∧
      t.dynsym_data_offset = 0 ∧ t.entries.length = dynsymCount c ∧
      ∃ groups, t.entries = entriesOf c groups := by
  unfold buildDynamicTables at h
  rw [if_neg (by simp [hdyn])] at h
  obtain ⟨⟨s₁, dynstr, soname, needed⟩, h₁, h⟩ := bind_eq_ok h
  obtain ⟨⟨s₂, data_offset, entries⟩, h₂, h⟩ := bind_eq_ok h
  obtain ⟨s₃, h₃, h⟩ := bind_eq_ok h
  obtain ⟨n, hn, h⟩ := bind_eq_ok h
  obtain ⟨s₄, h₄, h⟩ := bind_eq_ok h
  obtain ⟨s₅, h₅, h⟩ := bind_eq_ok h
  obtain ⟨s₆, h₆, h⟩ := bind_eq_ok h
  obtain ⟨s₇, h₇, h⟩ := bind_eq_ok h
  obtain ⟨rfl, rfl⟩ := Prod.mk.inj (ok.inj h)
  have hnew₁ : ".dynsym" ∉ s₁.names := by
    rw [addDynstr_names h₁]
    simp [hnew ".dynsym" (by simp)]
  have hnew₂ : ".hash" ∉ s₂.names := by
    rw [addDynsym_names h₂, addDynstr_names h₁]
    simp [hnew ".hash" (by simp)]
  have hstr₁ := addDynstr_holds (hnew ".dynstr" (by simp)) h₁
  obtain ⟨⟨i, hsym₂⟩, hstr₂, rfl, groups, rfl⟩ := addDynsym_holds hnew₁ hstr₁ h₂
  obtain ⟨⟨j, hhash₃⟩, hcount, hkeep₃⟩ := addHash_holds hnew₂ h₃
  -- The stages behind `.hash` leave the three tables alone.
  have hlater : ∀ name ∈ [".dynstr", ".dynsym", ".hash"], Keeps name s₃ s₇ := by
    intro name hname
    have hne : ∀ other ∈ [".rela.dyn", ".rela.plt", ".plt", ".dynamic"], other ≠ name := by
      intro other hother heq
      subst heq
      revert hname
      revert other
      decide
    exact ((addRela_keeps (hne _ (by simp)) h₄).trans
      (addRela_keeps (hne _ (by simp)) h₅)).trans
        ((addPlt_keeps (hne _ (by simp)) h₆).trans (addDynamic_keeps (hne _ (by simp)) h₇))
  have hle : (entriesOf c groups).length ≤ dynsymCount c := by
    rw [length_entriesOf]
    unfold dynsymNames dynsymCount
    rw [length_append, length_map]
    exact Nat.add_le_add_left (length_filterMap_le _ _) _
  rw [take_of_length_le hle] at hhash₃
  exact ⟨⟨dynstr, hlater _ (by simp) _ _ (hkeep₃ _ (by decide) _ _ hstr₂)⟩,
    ⟨i, hlater _ (by simp) _ _ (hkeep₃ _ (by decide) _ _ hsym₂)⟩,
    ⟨j, hlater _ (by simp) _ _ hhash₃⟩, rfl, le_antisymm hle hcount, groups, rfl⟩

/-! ### The entries -/

/-- A symbol of `.dynsym` is exported, or not defined. -/
theorem mem_dynsymGlobals {groups : List LdGroup} {p : LdGlobal × Nat}
    (h : p ∈ dynsymGlobals c groups) :
    p.1 ∈ c.globals.items ∧ p.2 < 2 ^ 4 ∧ (p.1 ∈ exportedGlobals c ∨ p.1.defined = false) := by
  unfold dynsymGlobals at h
  rcases mem_append.mp h with h | h
  · obtain ⟨g, hg, rfl⟩ := mem_map.mp h
    refine ⟨(mem_filter.mp hg).1, ?_, .inl hg⟩
    show dynsymType groups g < 2 ^ 4
    unfold dynsymType
    split
    · decide
    · split
      · decide
      · split <;> decide
  · obtain ⟨e, he, hp⟩ := mem_filterMap.mp h
    obtain ⟨g, hg, rfl⟩ := Option.map_eq_some_iff.mp hp
    obtain ⟨hname, hmem⟩ := lookupKey_some hg
    have htype : STT_FUNC < 2 ^ 4 := by decide
    refine ⟨hmem, htype, .inr ?_⟩
    -- A name that a global defines is no import.
    have hnot : alreadyDefined c e.name = false := by
      have h := (mem_filter.mp he).2
      simp only [Bool.and_eq_true, Bool.not_eq_true'] at h
      exact h.2
    unfold alreadyDefined at hnot
    rw [any_eq_false] at hnot
    have hg' := hnot g hmem
    rw [hname] at hg'
    simpa using hg'

/-- An entry has the offset of its name in `.dynstr`. -/
theorem entriesOf_spec {groups : List LdGroup} {e : DynsymEntry}
    (hsize : (dynstrBytes c).length < 2 ^ 32) (h : (entriesOf c groups)[i]? = some e) :
    (e.global, e.stt) ∈ dynsymGlobals c groups ∧ (dynsymNames c)[i]? = some e.global.name ∧
      0 < e.dynstr_offset ∧ e.dynstr_offset < (dynstrBytes c).length ∧
      ∃ rest, (dynstrBytes c).drop e.dynstr_offset = stringBytes e.global.name ++ rest := by
  unfold entriesOf at h
  rw [getElem?_zipWith] at h
  cases hp : (dynsymGlobals c groups)[i]? with
  | none =>
    rw [hp] at h
    cases h
  | some p =>
    cases hoffset : (stringOffsets (leadBytes c).length (dynsymNames c))[i]? with
    | none =>
      rw [hp, hoffset] at h
      cases h
    | some offset =>
      rw [hp, hoffset] at h
      cases h
      obtain ⟨name, rest, hname, hle, hdrop⟩ := stringOffsets_spec hoffset
      have hname' : (dynsymNames c)[i]? = some p.1.name := by
        rw [← names_dynsymGlobals c groups, getElem?_map, hp]
        rfl
      cases hname.symm.trans hname'
      have hdrop' : (dynstrBytes c).drop offset = stringBytes p.1.name ++ rest := hdrop
      have hlt : offset < (dynstrBytes c).length := by
        have hlen := congrArg length hdrop'
        rw [length_drop, length_append] at hlen
        have hpos : 0 < (stringBytes p.1.name).length := by simp [stringBytes]
        omega
      have hlead : 0 < (leadBytes c).length := by simp [leadBytes]
      have hmod : offset % 2 ^ 32 = offset := Nat.mod_eq_of_lt (by omega)
      dsimp only
      rw [hmod]
      exact ⟨mem_of_getElem? hp, hname', by omega, hlt, rest, hdrop'⟩

/-! ### Filling `.dynsym` -/

/-- `LD_STB_GLOBAL`. -/
def STB_GLOBAL : Nat := 1

/-- `write_dynsym_entry`. -/
def writeDynsymEntry (elf64 : Bool) (name info other shndx value size : Nat) : Bytes :=
  if elf64 then
    leBytes 4 name ++ leBytes 1 info ++ leBytes 1 other ++ leBytes 2 shndx ++ leBytes 8 value ++
      leBytes 8 size
  else
    leBytes 4 name ++ leBytes 4 value ++ leBytes 4 size ++ leBytes 1 info ++ leBytes 1 other ++
      leBytes 2 shndx

/-- `st_shndx`: a `uint16_t`. -/
def dynsymShndx (g : LdGlobal) : Nat :=
  match g.group with
  | some k => if g.defined then (k + 1) % 2 ^ 16 else 0
  | none => 0

/-- `st_bind`. -/
def dynsymBind (g : LdGlobal) : Nat :=
  if g.defined && g.group.isSome then STB_GLOBAL else if g.weak then STB_WEAK else STB_GLOBAL

/-- The symbol that `fill_dynamic_addresses` writes for an entry. -/
def dynsymEntryBytes (c : DynContext) (groups : List LdGroup) (e : DynsymEntry) : Bytes :=
  writeDynsymEntry c.elf64 e.dynstr_offset ((dynsymBind e.global <<< 4 ||| e.stt) % 2 ^ 8) 0
    (dynsymShndx e.global) (dynsymValue groups e.stt e.global) e.global.size

/-- `.dynsym` behind the loop over the entries; the null symbol stays in front. -/
def fillDynsym (c : DynContext) (t : DynTables) (groups : List LdGroup) (data : Bytes) : Bytes :=
  overwriteFrom (t.dynsym_data_offset + c.symSize) c.symSize data
    (t.entries.map (dynsymEntryBytes c groups))

theorem length_dynsymEntryBytes (c : DynContext) (groups : List LdGroup) (e : DynsymEntry) :
    (dynsymEntryBytes c groups e).length = c.symSize := by
  unfold dynsymEntryBytes writeDynsymEntry DynContext.symSize
  split <;> simp

/-- The symbol of an entry. -/
theorem slice_fillDynsym {c : DynContext} {t : DynTables} {groups : List LdGroup} {i : Nat}
    {e : DynsymEntry} (hoffset : t.dynsym_data_offset = 0) (he : t.entries[i]? = some e) :
    slice (fillDynsym c t groups (replicate ((t.entries.length + 1) * c.symSize) 0))
        ((i + 1) * c.symSize) c.symSize = dynsymEntryBytes c groups e ∧
      (fillDynsym c t groups (replicate ((t.entries.length + 1) * c.symSize) 0)).length =
        (t.entries.length + 1) * c.symSize := by
  have hlength : ∀ r ∈ t.entries.map (dynsymEntryBytes c groups), r.length = c.symSize := by
    intro r hr
    obtain ⟨e, -, rfl⟩ := mem_map.mp hr
    exact length_dynsymEntryBytes c groups e
  have hroom : c.symSize + (t.entries.map (dynsymEntryBytes c groups)).length * c.symSize ≤
      (replicate ((t.entries.length + 1) * c.symSize) (0 : UInt8)).length := by
    simp [Nat.add_mul, Nat.add_comm]
  have hrecords := slice_overwriteFrom hlength hroom
  unfold fillDynsym
  rw [hoffset, Nat.zero_add, show (i + 1) * c.symSize = c.symSize + i * c.symSize by
    rw [Nat.add_mul, Nat.one_mul, Nat.add_comm]]
  refine ⟨hrecords.2 i _ ?_, hrecords.1.trans (length_replicate)⟩
  rw [getElem?_map, he]
  rfl

end MeuOS.Ld
