import MeuOS.Ld.Resolve
import MeuOS.Ld.Extract

namespace MeuOS.Ld

open MeuOS.Lib List

/-!
# One definition for every relocation (`symbol.c`)

The values of the relocations that name one global or weak symbol.  A reference to a symbol
that its object does not define goes through the table of globals; one to a symbol that its
object defines takes the object's own section, also when the definition is weak and another
one prevails.

* `allocateCommon_find`, `defineBuiltins_find` — what the stages behind `collect_symbols` do to
  a global;
* `linkSymbols_chosen` — the place the table ends with is the one that prevails;
* `Meets` — the condition on a relocation's symbol;
* `symbolValue_prevailing` — a relocation gets the prevailing place exactly when its symbol
  meets the condition;
* `symbolValue_own_weak` — a weak definition that its own object uses, against the strong one.
-/

/-! ### Allocation and built-in symbols -/

/-- The global has no definition and asks for an allocation. -/
def LdGlobal.wantsCommon (g : LdGlobal) : Bool := g.common && !g.defined

variable {bss : Nat} {groups groups' : List LdGroup} {t t' : GlobalTable} {n name : String}
  {g : LdGlobal} {objects : List LdObject} {o : LdObject}

/-- The allocation loop keeps the names that none of its globals wants allocated. -/
theorem allocateCommonLoop_other {gs : List LdGlobal}
    (h : allocateCommonLoop bss gs groups t = .ok (groups', t'))
    (hn : ∀ g ∈ gs, g.name = n → g.wantsCommon = false) : t'.find n = t.find n := by
  induction gs generalizing groups t with
  | nil => rw [(Prod.mk.inj (Except.ok.inj h)).2]
  | cons g gs ih =>
    have hrest : ∀ g' ∈ gs, g'.name = n → g'.wantsCommon = false :=
      fun g' hg' => hn g' (mem_cons_of_mem _ hg')
    unfold allocateCommonLoop at h
    split at h
    · exact ih h hrest
    · rename_i hwants
      split at h
      · cases h
      · rw [ih h hrest, GlobalTable.find_update, if_neg]
        rintro rfl
        have := hn g mem_cons_self rfl
        unfold LdGlobal.wantsCommon at this
        simp only [Bool.or_eq_true, Bool.not_eq_true', not_or, Bool.not_eq_false,
          Bool.not_eq_true] at hwants
        simp [hwants.1, hwants.2] at this

/-- The allocation loop appends a global that wants it with its size and alignment. -/
theorem allocateCommonLoop_wants {gs : List LdGlobal} (hnodup : (gs.map LdGlobal.name).Nodup)
    (h : allocateCommonLoop bss gs groups t = .ok (groups', t')) (hg : g ∈ gs)
    (hwants : g.wantsCommon = true) :
    ∃ before after offset,
      appendGroupData before bss g.size (if g.align = 0 then 1 else g.align)
        = some (after, offset) ∧
      t'.find g.name = (t.find g.name).map (LdGlobal.allocate bss offset) := by
  induction gs generalizing groups t with
  | nil => cases hg
  | cons g' gs ih =>
    rw [map_cons, nodup_cons] at hnodup
    unfold allocateCommonLoop at h
    rcases mem_cons.mp hg with rfl | hg
    · unfold LdGlobal.wantsCommon at hwants
      simp only [Bool.and_eq_true, Bool.not_eq_true'] at hwants
      rw [if_neg (by simp [hwants.1, hwants.2])] at h
      split at h
      · cases h
      · rename_i after offset happ
        refine ⟨groups, after, offset, happ, ?_⟩
        -- The globals behind have other names.
        have hothers : ∀ x ∈ gs, x.name = g.name → x.wantsCommon = false := by
          intro x hx hxn
          exact absurd (mem_map.mpr ⟨x, hx, hxn⟩) hnodup.1
        rw [allocateCommonLoop_other h hothers, GlobalTable.find_update, if_pos rfl]
    · split at h
      · exact ih hnodup.2 h hg
      · split at h
        · cases h
        · obtain ⟨before, after, offset, happ, hfind⟩ := ih hnodup.2 h hg
          refine ⟨before, after, offset, happ, ?_⟩
          rw [hfind, GlobalTable.find_update, if_neg]
          intro hname
          exact hnodup.1 (mem_map.mpr ⟨g, hg, hname⟩)

/-- `allocate_common` leaves a global that wants no allocation alone, and appends the others to
    `.bss` with their size and alignment. -/
theorem allocateCommon_find (h : allocateCommon groups t = .ok (groups', t'))
    (hg : t.find n = some g) :
    (g.wantsCommon = false ∧ t'.find n = some g) ∨
    (g.wantsCommon = true ∧ ∃ before after offset,
      appendGroupData before (bssGroup groups).2 g.size (if g.align = 0 then 1 else g.align)
        = some (after, offset) ∧
      t'.find n = some (g.allocate (bssGroup groups).2 offset)) := by
  obtain ⟨hname, hmem⟩ := lookupKey_some hg
  subst hname
  unfold allocateCommon at h
  rcases hwants : g.wantsCommon with _ | _
  · left
    refine ⟨rfl, ?_⟩
    rw [allocateCommonLoop_other h, hg]
    intro g' hg' hn
    rw [inj_on_of_nodup_map t.nodup hg' hmem hn, hwants]
  · right
    obtain ⟨before, after, offset, happ, hfind⟩ := allocateCommonLoop_wants t.nodup h hmem hwants
    refine ⟨rfl, before, after, offset, happ, ?_⟩
    rw [hfind, hg]
    rfl

/-- The built-in symbols leave a defined global alone. -/
theorem defineBuiltins_find {names : List String}
    (hg : t.find n = some g) (hdef : g.defined = true) :
    (defineBuiltins names t).find n = some g := by
  induction names generalizing t with
  | nil => exact hg
  | cons name names ih =>
    unfold defineBuiltins
    split
    · exact ih hg
    · apply ih
      rw [GlobalTable.find_update, GlobalTable.find_get, hg]
      have hkeep : g.builtin = g := by
        unfold LdGlobal.builtin
        rw [if_pos hdef]
      split
      · rw [Option.getD_some, Option.map_some, hkeep]
      · rfl

/-! ### The place that prevails -/

/-- The place of the definition that prevails for a name: that of the first strong definition,
    else that of the first weak one, else a COMMON allocation with the largest size and
    alignment. -/
def Chosen (bss : Nat) (occs : List Occurrence) (place : Nat × Nat) : Prop :=
  match prevailing occs with
  | some d => place = (d.place.1, d.offset)
  | none =>
    place.1 = bss ∧ ∃ before after,
      appendGroupData before bss (commonSize occs)
        (if commonAlign occs = 0 then 1 else commonAlign occs) = some (after, place.2)

/-- Some object defines the name or asks for its COMMON allocation. -/
def HasDefinition (occs : List Occurrence) : Prop := ∃ d ∈ occs, d.sym.sec ≠ SHN_UNDEF

/-- At the end of the symbol stages the global of a name with a definition is at the place that
    prevails. -/
theorem linkSymbols_chosen {target : Target} {targetName : String} {ctx : LdContext}
    (hsh : ∀ o ∈ objects, o.is_shared = false)
    (hlink : linkSymbols target targetName objects groups = .ok ctx)
    (hdef : HasDefinition (occurrences objects 0 name)) :
    ((occurrences objects 0 name).filter Occurrence.strong).length ≤ 1 ∧
    ∃ g group, ctx.globals.find name = some g ∧ g.defined = true ∧ g.absolute = false ∧
      g.group = some group ∧ Chosen (bssGroup groups).2 (occurrences objects 0 name)
        (group, g.offset) := by
  unfold linkSymbols at hlink
  split at hlink
  · cases hlink
  · rename_i t hcol
    split at hlink
    · cases hlink
    · rename_i groups' t' hcommon
      rw [← Except.ok.inj hlink]
      obtain ⟨hfind, hcount⟩ := collectSymbols_tracks hsh hcol name
      refine ⟨hcount, ?_⟩
      have hsettled := declareAll_settled name (occurrences objects 0 name)
      rcases hall : declareAll name (occurrences objects 0 name) with _ | g
      · obtain ⟨d, hd, -⟩ := hdef
        rw [declareAll_eq_none hall] at hd
        cases hd
      rw [hall] at hfind hsettled
      rw [Option.getD_some] at hsettled
      unfold Settled at hsettled
      unfold Chosen
      rcases hprev : prevailing (occurrences objects 0 name) with _ | d
      · -- No definition: one of the occurrences is COMMON, and the global is allocated.
        rw [hprev] at hsettled
        obtain ⟨hund, hcom, hsize, halign, habs⟩ := hsettled
        have hany : g.common = true := by
          rw [hcom, any_eq_true]
          obtain ⟨d, hd, hsec⟩ := hdef
          refine ⟨d, hd, ?_⟩
          unfold prevailing at hprev
          have hno := find?_eq_none.mp (Option.or_eq_none_iff.mp hprev).2 d hd
          unfold ElfSymbol.isDefined at hno
          unfold ElfSymbol.isCommon
          simp [hsec] at hno
          simp [hno]
        rcases allocateCommon_find hcommon hfind with
          ⟨hwants, -⟩ | ⟨-, before, after, offset, happ, hf⟩
        · unfold LdGlobal.wantsCommon at hwants
          simp [hany, hund] at hwants
        · refine ⟨g.allocate (bssGroup groups).2 offset, (bssGroup groups).2,
            defineBuiltins_find hf rfl, rfl, habs, rfl, rfl, before, after, ?_⟩
          rw [hsize, halign] at happ
          exact happ
      · rw [hprev] at hsettled
        obtain ⟨hg, -, -, -, hgroup, hoffset, habs⟩ := hsettled
        rcases allocateCommon_find hcommon hfind with ⟨-, hf⟩ | ⟨hwants, -⟩
        · refine ⟨g, d.place.1, defineBuiltins_find hf hg, hg, habs, hgroup, ?_⟩
          dsimp only
          rw [hoffset]
        · unfold LdGlobal.wantsCommon at hwants
          simp [hg] at hwants

/-! ### The symbol of a relocation -/

/-- The global or weak symbol of a relocation is an occurrence of its name. -/
theorem getSymbolByIndex_occurrence {index : Nat} {sym : ElfSymbol}
    (h : getSymbolByIndex o index = .ok (sym, name)) (hg : sym.Global name) (i : Nat) :
    ⟨i, index, sym, (o.map sym.sec).getD (0, 0)⟩ ∈ o.occurrences i name := by
  unfold getSymbolByIndex at h
  unfold LdObject.occurrences
  split at h
  · rename_i table s hfound
    split at h
    · cases h
    · rename_i sym' hsym
      split at hsym
      · rename_i hlt
        refine mem_filterMap.mpr ⟨index, mem_range.mpr hlt, ?_⟩
        unfold LdObject.occurrenceAt
        split at h
        · cases h
          exact absurd rfl hg.1
        · rename_i hname0
          split at h
          · cases h
          · rename_i name' hname
            cases h
            rw [hsym, Option.bind_some, if_pos]
            refine ⟨?_, hg⟩
            unfold ElfObject.symbolName
            rw [if_neg hname0]
            exact hname
      · cases hsym
  · cases h

/-- The occurrences in an object are among those of the link. -/
theorem mem_occurrences (ho : o ∈ objects) (name : String) (i : Nat) :
    ∃ k, ∀ d ∈ o.occurrences k name, d ∈ occurrences objects i name := by
  induction objects generalizing i with
  | nil => cases ho
  | cons o' os ih =>
    unfold occurrences
    rcases mem_cons.mp ho with rfl | ho
    · exact ⟨i, fun d hd => mem_append_left _ hd⟩
    · obtain ⟨k, hk⟩ := ih ho (i + 1)
      exact ⟨k, fun d hd => mem_append_right _ (hk d hd)⟩

/-- Where there is a definition, one prevails. -/
theorem prevailing_isSome {occs : List Occurrence} {d : Occurrence} (hd : d ∈ occs)
    (hdef : d.sym.isDefined = true) : ∃ d', prevailing occs = some d' := by
  unfold prevailing
  rcases hstrong : occs.find? Occurrence.strong with _ | d'
  · rcases hfirst : occs.find? (·.sym.isDefined) with _ | d'
    · exact absurd hdef (find?_eq_none.mp hfirst d hd)
    · exact ⟨d', hfirst ▸ rfl⟩
  · exact ⟨d', rfl⟩

/-- The condition on the symbol of a relocation, for the place that prevails: a reference has
    the value 0, and a definition of the object's own is at that place. -/
def Meets (o : LdObject) (sym : ElfSymbol) (place : Nat × Nat) : Prop :=
  (sym.sec = SHN_UNDEF → sym.value % 2 ^ 64 = 0) ∧
    (sym.isDefined = true → ∀ own, o.map sym.sec = some own →
      own.1 = place.1 ∧ add64 own.2 sym.value = place.2)

theorem add64_add64_eq_iff (a b c : Nat) : add64 (add64 a b) c = add64 a b ↔ c % 2 ^ 64 = 0 := by
  unfold add64
  omega

/-- Places that agree for all group addresses are equal. -/
theorem place_eq_of_add64 {group group' offset value offset' : Nat} (hlt : offset' < 2 ^ 64)
    (h : ∀ address : Nat → Nat,
      add64 (add64 (address group) offset) value = add64 (address group') offset') :
    group = group' ∧ add64 offset value = offset' := by
  have h0 := h fun _ => 0
  have heq : add64 offset value = offset' := by
    unfold add64 at h0 ⊢
    omega
  refine ⟨?_, heq⟩
  by_contra hne
  -- An address of its own for the first group tells the two places apart.
  have h1 := h fun g => if g = group then 1 else 0
  simp only [↓reduceIte, if_neg (Ne.symm hne)] at h1
  unfold add64 at h1 heq
  omega

/-- For every name with a definition, no two of which are strong, there is one place, that of
    the definition that prevails, and a relocation that names the symbol gets its address,
    wherever layout puts the groups, exactly when its symbol meets the condition. -/
theorem symbolValue_prevailing {target : Target} {targetName : String}
    {objects : List LdObject} {groups : List LdGroup} {ctx : LdContext}
    (hsh : ∀ o ∈ objects, o.is_shared = false)
    (hlink : linkSymbols target targetName objects groups = .ok ctx) {name : String}
    (hdef : HasDefinition (occurrences objects 0 name)) :
    ((occurrences objects 0 name).filter Occurrence.strong).length ≤ 1 ∧
    ∃ place, Chosen (bssGroup groups).2 (occurrences objects 0 name) place ∧
      ∀ o ∈ objects, ∀ index sym, getSymbolByIndex o index = .ok (sym, name) →
        sym.Global name → ∀ dyn,
          ((∀ address v, symbolValue ctx address dyn o index = .ok v →
              v = add64 (address place.1) place.2) ↔ Meets o sym place) := by
  obtain ⟨hcount, g, group, hfind, hg, habs, hgroup, hchosen⟩ := linkSymbols_chosen hsh hlink hdef
  refine ⟨hcount, (group, g.offset), hchosen, ?_⟩
  intro o ho index sym hsym hglobal dyn
  have hvalue (address : Nat → Nat) : symbolValue ctx address dyn o index =
      if sym.sec = SHN_UNDEF then .ok (add64 (add64 (address group) g.offset) sym.value)
      else if sym.sec = SHN_COMMON then .ok (add64 (address group) g.offset)
      else
        (o.map sym.sec).elim (.error ("symbol section was discarded: " ++ name)) fun place =>
          .ok (add64 (add64 (address place.1) place.2) sym.value) := by
    unfold symbolValue
    rw [hsym]
    dsimp only
    rw [if_neg hglobal.1, hfind]
    rcases o.map sym.sec with _ | place <;>
      simp only [hg, habs, hgroup, Bool.not_true, Bool.false_eq_true, if_false,
        Option.elim_some, Option.elim_none]
  simp only [hvalue]
  unfold Meets
  by_cases hundef : sym.sec = SHN_UNDEF
  · -- A reference: the global's place and the symbol's own value.
    have hnot : sym.isDefined = false := by
      unfold ElfSymbol.isDefined
      simp [hundef]
    simp only [hundef, hnot, if_true, Bool.false_eq_true, false_imp_iff, and_true, true_imp_iff,
      Except.ok.injEq]
    constructor
    · intro h
      exact (add64_add64_eq_iff _ _ _).mp (h (fun _ => 0) _ rfl)
    · rintro h address v rfl
      exact (add64_add64_eq_iff _ _ _).mpr h
  by_cases hcommon : sym.sec = SHN_COMMON
  · -- A COMMON symbol: the global's place.
    have hnot : sym.isDefined = false := by
      unfold ElfSymbol.isDefined
      simp [hcommon]
    simp only [if_pos hcommon, hundef, hnot, false_imp_iff, Bool.false_eq_true,
      and_true, iff_true]
    intro address v hv
    exact (Except.ok.inj hv).symm
  · -- A definition of the object's own: its own place.
    have hown : sym.isDefined = true := by
      unfold ElfSymbol.isDefined
      simp [hundef, hcommon]
    have hlt : g.offset < 2 ^ 64 := by
      obtain ⟨k, hk⟩ := mem_occurrences ho name 0
      obtain ⟨d, hd⟩ := prevailing_isSome
        (hk _ (getSymbolByIndex_occurrence hsym hglobal k)) hown
      unfold Chosen at hchosen
      rw [hd] at hchosen
      rw [(Prod.mk.inj hchosen).2]
      exact add64_lt _ _
    simp only [if_neg hcommon, hundef, hown, false_imp_iff, true_and, true_imp_iff]
    rcases o.map sym.sec with _ | own
    · simp
    · constructor
      · intro h own' hown'
        cases hown'
        exact place_eq_of_add64 hlt fun address => h address _ rfl
      · intro h address v hv
        obtain ⟨h1, h2⟩ := h own rfl
        rw [← Except.ok.inj hv, h1]
        unfold add64 at h2 ⊢
        omega

/-! ### A weak definition that its own object uses -/

section OwnWeak

/-- An object with its `x` in `.data`, 4 bytes at an offset of the group. -/
def dataX (info offset : Nat) : LdObject :=
  { name := "x.o"
    origin := none
    is_shared := false
    elf := oneSymbol [some ⟨3, SHT_PROGBITS, 3, 4, 0, 4, 0⟩] ⟨1, info, 3, 0, 4⟩
    maps := [none, none, none, some (0, offset)] }

/-- The `.data` of a link of two such objects. -/
def dataGroup : LdGroup :=
  { name := ".data", type := SHT_PROGBITS, flags := 3, align := 4, size := 8, rank := 3 }

/-- A strong `x` and an object that refers to it. -/
theorem symbolValue_prevailing_reference :
    ∃ ctx, linkSymbols x86 "x86_64" [usesX, dataX 0x11 4] [dataGroup] = .ok ctx ∧
      ((occurrences [usesX, dataX 0x11 4] 0 "x").filter Occurrence.strong).length ≤ 1 ∧
      ∃ place, Chosen (bssGroup [dataGroup]).2 (occurrences [usesX, dataX 0x11 4] 0 "x") place ∧
        ∀ o ∈ [usesX, dataX 0x11 4], ∀ index sym,
          getSymbolByIndex o index = .ok (sym, "x") → sym.Global "x" → ∀ dyn,
            ((∀ address v, symbolValue ctx address dyn o index = .ok v →
                v = add64 (address place.1) place.2) ↔ Meets o sym place) := by
  obtain ⟨ctx, hlink⟩ : ∃ ctx,
      linkSymbols x86 "x86_64" [usesX, dataX 0x11 4] [dataGroup] = .ok ctx := ⟨_, rfl⟩
  refine ⟨ctx, hlink, symbolValue_prevailing ?_ hlink ?_⟩
  · intro o ho
    simp only [mem_cons, not_mem_nil, or_false] at ho
    rcases ho with rfl | rfl <;> rfl
  · exact ⟨⟨1, 1, ⟨1, 0x11, 3, 0, 4⟩, (0, 4)⟩, .tail _ (.head _), by decide⟩

/-- The weak `x` of the first object and the strong `x` of the second: the link succeeds and the
    strong one prevails, but the relocations of the first object get the weak one. -/
theorem symbolValue_own_weak :
    (∃ ctx, linkSymbols x86 "x86_64" [dataX 0x21 0, dataX 0x11 4] [dataGroup] = .ok ctx ∧
      symbolValue ctx (fun _ => 0x1000) false (dataX 0x21 0) 1 = .ok 0x1000 ∧
      symbolValue ctx (fun _ => 0x1000) false (dataX 0x11 4) 1 = .ok 0x1004) ∧
    (prevailing (occurrences [dataX 0x21 0, dataX 0x11 4] 0 "x")).map (·.object) = some 1 ∧
    ¬Meets (dataX 0x21 0) ⟨1, 0x21, 3, 0, 4⟩ (0, 4) := by
  refine ⟨⟨_, rfl, by decide, by decide⟩, by decide, ?_⟩
  intro h
  exact absurd (h.2 rfl (0, 0) rfl).2 (by decide)

end OwnWeak

end MeuOS.Ld
