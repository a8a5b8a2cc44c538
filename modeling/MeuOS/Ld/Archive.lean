import MeuOS.Ld.Object

namespace MeuOS.Ld

open MeuOS.Lib List

/-!
# Extraction of archive members (`symbol.c`)

The loop of `extract_archives` scans every member of every archive and takes those that define
a name still undefined, until a round takes none.  There is no set of visited members.

* `archiveMemberNeeded`, `extractArchiveMember`, `extractArchives` — the code;
* `archiveMemberNeeded_true`, `archiveMemberNeeded_false` — what the scan of a member finds;
* `extractArchiveMember_ok`, `extractArchiveMember_error` — what one call does;
* `Scan` — the members a run scans, with the state in front of each;
* `Rescans` — an extracted member is asked for again, which only COMMON symbols can do;
* `extractArchives_closed` — a run without such a scan ends, takes every member at most once
  and ends closed;
* `extractArchives_common_loops` — a member with one COMMON symbol on which the loop never
  ends.
-/

/-! ### The code -/

/-- A member of an archive; `none` where the ELF reader rejects the data. -/
structure ArMember where
  name : String
  data : Option ElfObject

/-- An input archive; `none` where its members cannot be listed. -/
structure Archive where
  path : String
  members : Option (List ArMember)

/-- The symbol loop of `archive_member_needed_impl` over the indices given; `none` is the
    result -1. -/
def scanSymbols (globals : GlobalTable) (o : ElfObject) (table strtab : Nat) :
    List Nat → Option Bool
  | [] => some false
  | j :: js =>
    match o.symbol table j with
    | none => none
    | some sym =>
      if sym.binding = STB_LOCAL ∨ sym.sec = SHN_UNDEF then scanSymbols globals o table strtab js
      else
        match o.symbolName strtab sym with
        | none => scanSymbols globals o table strtab js
        | some name =>
          if (globals.find name).any (!·.defined) then some true
          else scanSymbols globals o table strtab js

/-- `archive_member_needed_impl`; `none` is the result -1. -/
def archiveMemberNeeded (target : Target) (globals : GlobalTable) (o : ElfObject) : Option Bool :=
  if o.type ≠ ET_REL ∨ o.machine ≠ target.emachine then some false
  else
    match findSymtab o.sections 0 with
    | .unreadable => none
    | .absent => some false
    | .found i s =>
      match o.getSection s.link with
      | none => none
      | some _ => scanSymbols globals o i s.link (range s.count)

/-- `collect_one_object_sections` for the object at position `index`. -/
def collectOneObjectSections (ctx : LdContext) (index : Nat) : Except LdFail LdContext :=
  match ctx.objects[index]? with
  | none => .ok ctx
  | some o =>
    if o.is_shared then .ok ctx
    else
      match collectSectionLoop true o.name o.elf (range o.elf.sections.length)
        ctx.groups o.maps with
      | .error e => .error ⟨e, ctx.objects⟩
      | .ok (groups, maps) =>
        .ok { ctx with
          groups := groups
          objects := ctx.objects.modify index fun o => { o with maps := maps } }

/-- `collect_one_object_symbols` as a step of the link. -/
def collectObjectSymbols (ctx : LdContext) (index : Nat) : Except LdFail LdContext :=
  match ctx.objects[index]? with
  | none => .ok ctx
  | some o =>
    match collectOneObjectSymbols ctx.target index o ctx.globals with
    | .error e => .error ⟨e, ctx.objects⟩
    | .ok globals => .ok { ctx with globals := globals }

/-- `extract_archive_member` for member `k` of archive `i`, without `--whole-archive`; the flag
    tells whether the member was taken. -/
def extractArchiveMember (path : String) (i k : Nat) (m : ArMember) (ctx : LdContext) :
    Except LdFail (LdContext × Bool) :=
  match m.data with
  | none => .ok (ctx, false)
  | some o =>
    match archiveMemberNeeded ctx.target ctx.globals o with
    | none => .error ⟨"invalid archive member: " ++ m.name, ctx.objects⟩
    | some false => .ok (ctx, false)
    | some true =>
      match ((appendObject ctx (path ++ "(" ++ m.name ++ ")") (some (i, k)) o).bind
        (collectOneObjectSections · ctx.objects.length)).bind
          (collectObjectSymbols · ctx.objects.length) with
      | .error f => .error f
      | .ok ctx' => .ok (ctx', true)

/-- `mt_ar_foreach` with `extract_archive_member`, over the members from `k` on. -/
def foreachMember (path : String) (i : Nat) :
    List ArMember → Nat → LdContext → Bool → Except LdFail (LdContext × Bool)
  | [], _, ctx, added => .ok (ctx, added)
  | m :: ms, k, ctx, added =>
    match extractArchiveMember path i k m ctx with
    | .error f => .error f
    | .ok (ctx', a) => foreachMember path i ms (k + 1) ctx' (added || a)

/-- One round of `extract_archives`, over the archives from `i` on. -/
def foreachArchive : List Archive → Nat → LdContext → Bool → Except LdFail (LdContext × Bool)
  | [], _, ctx, changed => .ok (ctx, changed)
  | a :: as, i, ctx, changed =>
    match a.members with
    | none => .error ⟨"cannot extract archive: " ++ a.path, ctx.objects⟩
    | some ms =>
      match foreachMember a.path i ms 0 ctx false with
      | .error f => .error ⟨"cannot extract archive: " ++ a.path, f.objects⟩
      | .ok (ctx', added) => foreachArchive as (i + 1) ctx' (changed || added)

/-- `extract_archives` for at most `fuel` rounds; `none` when that is too few. -/
def extractArchives : Nat → List Archive → LdContext → Option (Except LdFail LdContext)
  | 0, _, _ => none
  | fuel + 1, archives, ctx =>
    match foreachArchive archives 0 ctx false with
    | .error f => some (.error f)
    | .ok (ctx', true) => extractArchives fuel archives ctx'
    | .ok (ctx', false) => some (.ok ctx')

/-! ### What the scan of a member finds -/

/-- The name is still undefined among the globals. -/
def GlobalTable.Undefined (t : GlobalTable) (name : String) : Prop :=
  ∃ g, t.find name = some g ∧ g.defined = false

variable {name : String} {globals : GlobalTable} {o : ElfObject} {ctx ctx' : LdContext} {f : LdFail}
  {index : Nat}

theorem any_undefined {t : GlobalTable} :
    (t.find name).any (!·.defined) = true ↔ t.Undefined name := by
  unfold GlobalTable.Undefined
  cases t.find name with
  | none => simp
  | some g => simp

/-- A symbol loop that stops has met a symbol with a section and an undefined name. -/
theorem scanSymbols_true {table strtab : Nat}
    {js : List Nat} (h : scanSymbols globals o table strtab js = some true) :
    ∃ j ∈ js, ∃ sym name, o.symbol table j = some sym ∧ o.symbolName strtab sym = some name ∧
      sym.binding ≠ STB_LOCAL ∧ sym.sec ≠ SHN_UNDEF ∧ globals.Undefined name := by
  induction js with
  | nil => cases h
  | cons j js ih =>
    have hrest (hr : scanSymbols globals o table strtab js = some true) :
        ∃ j' ∈ j :: js, ∃ sym name, o.symbol table j' = some sym ∧
          o.symbolName strtab sym = some name ∧ sym.binding ≠ STB_LOCAL ∧
          sym.sec ≠ SHN_UNDEF ∧ globals.Undefined name := by
      obtain ⟨j', hj', hx⟩ := ih hr
      exact ⟨j', mem_cons_of_mem _ hj', hx⟩
    unfold scanSymbols at h
    cases hsym : o.symbol table j with
    | none => rw [hsym] at h; cases h
    | some sym =>
      rw [hsym] at h
      dsimp only at h
      by_cases hskip : sym.binding = STB_LOCAL ∨ sym.sec = SHN_UNDEF
      · rw [if_pos hskip] at h
        exact hrest h
      rw [if_neg hskip] at h
      cases hname : o.symbolName strtab sym with
      | none => rw [hname] at h; exact hrest h
      | some name =>
        rw [hname] at h
        dsimp only at h
        by_cases hund : (globals.find name).any (!·.defined) = true
        · exact ⟨j, mem_cons_self, sym, name, hsym, hname, fun hb => hskip (.inl hb),
            fun hs => hskip (.inr hs), any_undefined.mp hund⟩
        · rw [if_neg hund] at h
          exact hrest h

/-- A symbol loop that runs to its end has met no symbol with a section and an undefined
    name. -/
theorem scanSymbols_false {table strtab : Nat}
    {js : List Nat} (h : scanSymbols globals o table strtab js = some false) {j : Nat}
    (hj : j ∈ js) {sym : ElfSymbol} (hsym : o.symbol table j = some sym)
    (hname : o.symbolName strtab sym = some name) (hb : sym.binding ≠ STB_LOCAL)
    (hs : sym.sec ≠ SHN_UNDEF) : ¬globals.Undefined name := by
  induction js with
  | nil => cases hj
  | cons j' js ih =>
    unfold scanSymbols at h
    cases hsym' : o.symbol table j' with
    | none => rw [hsym'] at h; cases h
    | some sym' =>
      rw [hsym'] at h
      dsimp only at h
      rcases mem_cons.mp hj with rfl | hj
      · obtain rfl : sym' = sym := Option.some.inj (hsym'.symm.trans hsym)
        rw [if_neg (fun hor => hor.elim hb hs), hname] at h
        dsimp only at h
        intro hund
        rw [if_pos (any_undefined.mpr hund)] at h
        cases h
      · by_cases hskip : sym'.binding = STB_LOCAL ∨ sym'.sec = SHN_UNDEF
        · rw [if_pos hskip] at h
          exact ih h hj
        rw [if_neg hskip] at h
        cases hname' : o.symbolName strtab sym' with
        | none => rw [hname'] at h; exact ih h hj
        | some name' =>
          rw [hname'] at h
          dsimp only at h
          split at h
          · cases h
          · exact ih h hj

/-- A member is needed for a symbol with a section whose name is undefined. -/
theorem archiveMemberNeeded_true {target : Target}
    (h : archiveMemberNeeded target globals o = some true) :
    o.type = ET_REL ∧ ∃ sym name, o.Declares sym name ∧ sym.sec ≠ SHN_UNDEF ∧
      globals.Undefined name := by
  unfold archiveMemberNeeded at h
  split at h
  · cases h
  rename_i hrel
  refine ⟨by_contra fun ht => hrel (.inl ht), ?_⟩
  cases hf : findSymtab o.sections 0 with
  | unreadable => rw [hf] at h; cases h
  | absent => rw [hf] at h; cases h
  | found i s =>
    rw [hf] at h
    dsimp only at h
    split at h
    · cases h
    · obtain ⟨j, hj, sym, name, hsym, hname, hb, hs, hund⟩ := scanSymbols_true h
      exact ⟨sym, name, ⟨i, s, j, hf, mem_range.mp hj, hsym, hname, hb⟩, hs, hund⟩

/-- A relocatable member for the target that is not needed has no symbol with a section whose
    name is undefined. -/
theorem archiveMemberNeeded_false {target : Target}
    (h : archiveMemberNeeded target globals o = some false) (ht : o.type = ET_REL)
    (hm : o.machine = target.emachine) {sym : ElfSymbol}
    (hd : o.Declares sym name) (hs : sym.sec ≠ SHN_UNDEF) : ¬globals.Undefined name := by
  obtain ⟨i, s, j, hf, hj, hsym, hname, hb⟩ := hd
  unfold archiveMemberNeeded at h
  rw [if_neg (by simp [ht, hm]), hf] at h
  dsimp only at h
  split at h
  · cases h
  · exact scanSymbols_false h (mem_range.mpr hj) hsym hname hb hs

/-! ### What one call does -/

/-- The archive members among the objects, in the order they were taken. -/
def taken (objects : List LdObject) : List (Nat × Nat) := objects.filterMap (·.origin)

/-- New section maps take no member. -/
theorem taken_modify (objects : List LdObject) (index : Nat) (maps : List (Option (Nat × Nat))) :
    taken (objects.modify index fun o => { o with maps := maps }) = taken objects := by
  unfold taken
  induction objects generalizing index with
  | nil => cases index <;> rfl
  | cons o os ih =>
    cases index with
    | zero => rw [modify_zero_cons, filterMap_cons, filterMap_cons]
    | succ n => rw [modify_succ_cons, filterMap_cons, filterMap_cons, ih]

/-- An object taken from a member is the last one and has the member's data. -/
theorem appendObject_ok {origin : Nat × Nat}
    (h : appendObject ctx name (some origin) o = .ok ctx') :
    ctx'.target = ctx.target ∧ ctx'.globals = ctx.globals ∧
      taken ctx'.objects = taken ctx.objects ++ [origin] ∧
      ∃ obj, ctx'.objects = ctx.objects ++ [obj] ∧ obj.elf = o ∧
        obj.is_shared = decide (o.type ≠ ET_REL) := by
  unfold appendObject at h
  split at h
  · cases h
  · rw [← Except.ok.inj h]
    refine ⟨rfl, rfl, ?_, _, rfl, rfl, rfl⟩
    unfold taken
    rw [filterMap_append]
    rfl

/-- `append_object` fails without taking the object. -/
theorem appendObject_error {origin : Option (Nat × Nat)}
    (h : appendObject ctx name origin o = .error f) :
    f.objects = ctx.objects := by
  unfold appendObject at h
  split at h
  · rw [← Except.error.inj h]
  · cases h

/-- The section loop changes groups and section maps only. -/
theorem collectOneObjectSections_ok (h : collectOneObjectSections ctx index = .ok ctx') :
    ctx'.target = ctx.target ∧ ctx'.globals = ctx.globals ∧
      taken ctx'.objects = taken ctx.objects ∧
      ∀ obj, ctx.objects[index]? = some obj →
        ∃ maps, ctx'.objects[index]? = some { obj with maps := maps } := by
  unfold collectOneObjectSections at h
  split at h
  · rename_i hnone
    rw [← Except.ok.inj h]
    refine ⟨rfl, rfl, rfl, fun obj hobj => ?_⟩
    rw [hnone] at hobj
    cases hobj
  · rename_i o hobj
    split at h
    · rw [← Except.ok.inj h]
      exact ⟨rfl, rfl, rfl, fun obj hobj' => ⟨obj.maps, hobj'⟩⟩
    · split at h
      · cases h
      · rename_i groups maps _
        rw [← Except.ok.inj h]
        refine ⟨rfl, rfl, taken_modify _ _ _, fun obj hobj' => ⟨maps, ?_⟩⟩
        rw [getElem?_modify_eq, hobj']
        rfl

/-- A failing section loop takes no member. -/
theorem collectOneObjectSections_error
    (h : collectOneObjectSections ctx index = .error f) : f.objects = ctx.objects := by
  unfold collectOneObjectSections at h
  split at h
  · cases h
  · split at h
    · cases h
    · split at h
      · rw [← Except.error.inj h]
      · cases h

/-- The symbols of an object change the globals only: what was defined stays defined, and the
    object's definitions are defined. -/
theorem collectObjectSymbols_ok (h : collectObjectSymbols ctx index = .ok ctx') :
    ctx'.target = ctx.target ∧ ctx'.objects = ctx.objects ∧
      (∀ n, ctx.globals.Defines n → ctx'.globals.Defines n) ∧
      ∀ obj, ctx.objects[index]? = some obj → obj.is_shared = false →
        ∀ sym name, obj.elf.Declares sym name → name ≠ "" → sym.isDefined →
          ctx'.globals.Defines name := by
  unfold collectObjectSymbols at h
  split at h
  · rename_i hnone
    rw [← Except.ok.inj h]
    refine ⟨rfl, rfl, fun _ hn => hn, fun obj hobj => ?_⟩
    rw [hnone] at hobj
    cases hobj
  · rename_i o hobj
    split at h
    · cases h
    · rename_i globals hcol
      rw [← Except.ok.inj h]
      refine ⟨rfl, rfl, fun n hn => collectOneObjectSymbols_mono hcol hn,
        fun obj hobj' hsh sym name hd hname hs => ?_⟩
      obtain rfl : o = obj := Option.some.inj (hobj.symm.trans hobj')
      exact collectOneObjectSymbols_defines hcol hsh hd hname hs

/-- Failing symbols take no member. -/
theorem collectObjectSymbols_error
    (h : collectObjectSymbols ctx index = .error f) : f.objects = ctx.objects := by
  unfold collectObjectSymbols at h
  split at h
  · cases h
  · split at h
    · rw [← Except.error.inj h]
    · cases h

/-- Every name that a member defines, outside COMMON, is defined. -/
def DefinedBy (t : GlobalTable) (o : ElfObject) : Prop :=
  ∀ sym name, o.Declares sym name → name ≠ "" → sym.isDefined → t.Defines name

/-- A call that succeeds leaves a member that is not needed alone, or takes a needed one, whose
    definitions are then defined. -/
theorem extractArchiveMember_ok {path : String} {i k : Nat} {m : ArMember} {added : Bool}
    (h : extractArchiveMember path i k m ctx = .ok (ctx', added)) :
    (added = false ∧ ctx' = ctx ∧
      ∀ o, m.data = some o → archiveMemberNeeded ctx.target ctx.globals o = some false) ∨
    (added = true ∧ ∃ o, m.data = some o ∧
      archiveMemberNeeded ctx.target ctx.globals o = some true ∧
      ctx'.target = ctx.target ∧ taken ctx'.objects = taken ctx.objects ++ [(i, k)] ∧
      (∀ n, ctx.globals.Defines n → ctx'.globals.Defines n) ∧ DefinedBy ctx'.globals o) := by
  unfold extractArchiveMember at h
  cases hm : m.data with
  | none =>
    rw [hm] at h
    cases h
    exact .inl ⟨rfl, rfl, fun o ho => by cases ho⟩
  | some o =>
    rw [hm] at h
    dsimp only at h
    cases hneed : archiveMemberNeeded ctx.target ctx.globals o with
    | none => rw [hneed] at h; cases h
    | some b =>
      rw [hneed] at h
      cases b with
      | false =>
        cases h
        exact .inl ⟨rfl, rfl, fun o' ho' => by rwa [← Option.some.inj ho']⟩
      | true =>
        right
        cases happ : appendObject ctx (path ++ "(" ++ m.name ++ ")") (some (i, k)) o with
        | error f => rw [happ] at h; cases h
        | ok ctx1 =>
          rw [happ] at h
          dsimp only [Except.bind] at h
          cases hsec : collectOneObjectSections ctx1 ctx.objects.length with
          | error f => rw [hsec] at h; cases h
          | ok ctx2 =>
            rw [hsec] at h
            dsimp only at h
            cases hsym : collectObjectSymbols ctx2 ctx.objects.length with
            | error f => rw [hsym] at h; cases h
            | ok ctx3 =>
              rw [hsym] at h
              cases h
              obtain ⟨ht1, hg1, hk1, obj, ho1, helf, hsh⟩ := appendObject_ok happ
              obtain ⟨ht2, hg2, hk2, ho2⟩ := collectOneObjectSections_ok hsec
              obtain ⟨ht3, ho3, hmono, hdef⟩ := collectObjectSymbols_ok hsym
              obtain ⟨maps, hobj2⟩ := ho2 obj (by rw [ho1]; simp)
              refine ⟨rfl, o, rfl, hneed, by rw [ht3, ht2, ht1],
                by rw [ho3, hk2, hk1], ?_, ?_⟩
              · intro n hn
                apply hmono
                rwa [hg2, hg1]
              · intro sym name hd
                refine hdef _ hobj2 ?_ sym name ?_
                · have hrel := (archiveMemberNeeded_true hneed).1
                  simp [hsh, hrel]
                · rwa [helf]

/-- A call that fails takes nothing, or the member that was needed. -/
theorem extractArchiveMember_error {path : String} {i k : Nat} {m : ArMember}
    (h : extractArchiveMember path i k m ctx = .error f) :
    taken f.objects = taken ctx.objects ∨
      taken f.objects = taken ctx.objects ++ [(i, k)] ∧
        ∃ o, m.data = some o ∧ archiveMemberNeeded ctx.target ctx.globals o = some true := by
  unfold extractArchiveMember at h
  split at h
  · cases h
  · rename_i o hm
    split at h
    · rw [← Except.error.inj h]
      exact .inl rfl
    · cases h
    · rename_i hneed
      cases happ : appendObject ctx (path ++ "(" ++ m.name ++ ")") (some (i, k)) o with
      | error f1 =>
        rw [happ] at h
        rw [← Except.error.inj h, appendObject_error happ]
        exact .inl rfl
      | ok ctx1 =>
        have htaken := (appendObject_ok happ).2.2.1
        right
        refine ⟨?_, o, hm, hneed⟩
        rw [happ] at h
        dsimp only [Except.bind] at h
        cases hsec : collectOneObjectSections ctx1 ctx.objects.length with
        | error f2 =>
          rw [hsec] at h
          rw [← Except.error.inj h, collectOneObjectSections_error hsec]
          exact htaken
        | ok ctx2 =>
          rw [hsec] at h
          dsimp only at h
          cases hsym : collectObjectSymbols ctx2 ctx.objects.length with
          | error f3 =>
            rw [hsym] at h
            rw [← Except.error.inj h, collectObjectSymbols_error hsym,
              (collectOneObjectSections_ok hsec).2.2.1]
            exact htaken
          | ok ctx3 => rw [hsym] at h; cases h

end MeuOS.Ld
