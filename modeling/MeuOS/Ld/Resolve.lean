import MeuOS.Ld.Object
import Mathlib.Data.List.Induction

namespace MeuOS.Ld

open MeuOS.Lib List

/-!
# Symbol resolution (`symbol.c`)

The definition that prevails for a name, as `collect_symbols` finds it occurrence by
occurrence, the COMMON allocations, and the value a relocation gets:

* `Occurrence`, `occurrences` — the global and weak symbols of a name, in link order;
* `prevailing` — the first strong definition, else the first weak one;
* `collectSymbols_tracks` — the table holds, for every name, the fold of its occurrences, and
  at most one of them is strong;
* `declareAll_settled` — that fold is the prevailing definition, or the COMMON maxima;
* `allocateCommon_find` — what the allocation adds;
* `symbolValue` — the value for a relocation.
-/

/-! ### The code -/

/-- `collect_symbols` for inputs without shared libraries, over the objects from position `i`
    on. -/
def collectSymbols (target : Target) :
    List LdObject → Nat → GlobalTable → Except String GlobalTable
  | [], _, t => .ok t
  | o :: os, i, t =>
    match collectOneObjectSymbols target i o t with
    | .error e => .error e
    | .ok t' => collectSymbols target os (i + 1) t'

/-- The fields `allocate_common` sets. -/
def LdGlobal.allocate (group offset : Nat) (g : LdGlobal) : LdGlobal :=
  { g with group := some group, offset := offset, defined := true }

theorem LdGlobal.allocate_name (group offset : Nat) (g : LdGlobal) :
    (g.allocate group offset).name = g.name := rfl

/-- The loop of `allocate_common` over the globals given; `bss` is the index of `.bss`. -/
def allocateCommonLoop (bss : Nat) :
    List LdGlobal → List LdGroup → GlobalTable → Except String (List LdGroup × GlobalTable)
  | [], groups, t => .ok (groups, t)
  | g :: gs, groups, t =>
    if !g.common || g.defined then allocateCommonLoop bss gs groups t
    else
      match appendGroupData groups bss g.size (if g.align = 0 then 1 else g.align) with
      | none => .error "output section overflow"
      | some (groups', offset) =>
        allocateCommonLoop bss gs groups'
          (t.update g.name (LdGlobal.allocate bss offset) (LdGlobal.allocate_name bss offset))

/-- `LD_SHF_WRITE`. -/
def SHF_WRITE : Nat := 1

/-- The `.bss` group of `allocate_common`, made if there is none. -/
def bssGroup (groups : List LdGroup) : List LdGroup × Nat :=
  match findGroup groups ".bss" with
  | some b => (groups, b)
  | none => getGroup groups ".bss" SHT_NOBITS (SHF_ALLOC ||| SHF_WRITE) 8

/-- `allocate_common`. -/
def allocateCommon (groups : List LdGroup) (t : GlobalTable) :
    Except String (List LdGroup × GlobalTable) :=
  allocateCommonLoop (bssGroup groups).2 t.items (bssGroup groups).1 t

/-- The symbols that the linker defines itself when nothing else does. -/
def builtinNames (target : String) : List String :=
  (if target = "riscv64" then ["__global_pointer$"] else []) ++
    (if target = "aarch64" then ["__aarch64_swp1_acq", "__aarch64_swp4_acq_rel"] else []) ++
    ["_init", "_fini", "__preinit_array_start", "__preinit_array_end", "__init_array_start",
      "__init_array_end", "__fini_array_start", "__fini_array_end"]

/-- The fields of a symbol the linker defines itself: absolute, weak, with value 0. -/
def LdGlobal.builtin (g : LdGlobal) : LdGlobal :=
  if g.defined then g
  else
    { g with
      defined := true, offset := 0, absolute := true, weak := true, common := false
      group := none }

theorem LdGlobal.builtin_name (g : LdGlobal) : g.builtin.name = g.name := by
  unfold LdGlobal.builtin
  split <;> rfl

/-- The loops of `mt_ld_link_opts` that define such symbols. -/
def defineBuiltins : List String → GlobalTable → GlobalTable
  | [], t => t
  | name :: names, t =>
    if hname : name = "" then defineBuiltins names t
    else
      defineBuiltins names
        ((t.get name hname).update name LdGlobal.builtin LdGlobal.builtin_name)

/-- The symbol stages of a link of relocatable objects whose sections are collected, with the
    output groups: `collect_symbols`, `allocate_common` and the built-in symbols. -/
def linkSymbols (target : Target) (targetName : String) (objects : List LdObject)
    (groups : List LdGroup) : Except String LdContext :=
  match collectSymbols target objects 0 .empty with
  | .error e => .error e
  | .ok t =>
    match allocateCommon groups t with
    | .error e => .error e
    | .ok (groups', t') =>
      .ok
        { target := target
          objects := objects
          groups := groups'
          globals := defineBuiltins (builtinNames targetName) t' }

/-- `get_symbol_by_index`: the symbol and its name. -/
def getSymbolByIndex (o : LdObject) (index : Nat) : Except String (ElfSymbol × String) :=
  match findSymtab o.elf.sections 0 with
  | .found i s =>
    match if index < s.count then o.elf.symbol i index else none with
    | none => .error ("relocation symbol is invalid: " ++ o.name)
    | some sym =>
      if sym.name = 0 then .ok (sym, "")
      else
        match o.elf.string s.link sym.name with
        | none => .error ("relocation string is invalid: " ++ o.name)
        | some name => .ok (sym, name)
  | _ => .error ("relocation symbol is invalid: " ++ o.name)

/-- `symbol_value`, for the addresses that layout gave the groups; `dyn` is `--shared` or
    `--pie`. -/
def symbolValue (ctx : LdContext) (address : Nat → Nat) (dyn : Bool) (o : LdObject)
    (index : Nat) : Except String Nat :=
  match getSymbolByIndex o index with
  | .error e => .error e
  | .ok (sym, name) =>
    if sym.sec = SHN_UNDEF then
      if name = "" then .ok 0
      else
        match ctx.globals.find name with
        | none => .error ("undefined symbol: " ++ name)
        | some g =>
          if !g.defined then
            if dyn then .ok 0 else .error ("undefined symbol: " ++ name)
          else if g.absolute then .ok (add64 g.offset sym.value)
          else
            match g.group with
            | none => .ok 0
            | some group => .ok (add64 (add64 (address group) g.offset) sym.value)
    else if sym.sec = SHN_COMMON then
      match ctx.globals.find name with
      | none => .error ("undefined common symbol: " ++ name)
      | some g =>
        if !g.defined then .error ("undefined common symbol: " ++ name)
        else .ok (add64 (g.group.elim 0 address) g.offset)
    else
      match o.map sym.sec with
      | none => .error ("symbol section was discarded: " ++ name)
      | some place => .ok (add64 (add64 (address place.1) place.2) sym.value)

/-! ### Occurrences of a name -/

/-- A global or weak symbol: its object, its index there and, for a definition, the group and
    the offset of its section. -/
structure Occurrence where
  object : Nat
  index : Nat
  sym : ElfSymbol
  place : Nat × Nat

/-- The occurrence is a strong definition. -/
def Occurrence.strong (d : Occurrence) : Bool := d.sym.isDefined && !d.sym.isWeak

/-- The offset of a definition in its group. -/
def Occurrence.offset (d : Occurrence) : Nat := add64 d.place.2 d.sym.value

/-- The occurrence that symbol `j` of a table is for a name. -/
def LdObject.occurrenceAt (o : LdObject) (object table : Nat) (s : ElfSection) (name : String)
    (j : Nat) : Option Occurrence :=
  (o.elf.symbol table j).bind fun sym =>
    if o.elf.symbolName s.link sym = some name ∧ sym.Global name then
      some ⟨object, j, sym, (o.map sym.sec).getD (0, 0)⟩
    else none

/-- The occurrences of a name in an object. -/
def LdObject.occurrences (o : LdObject) (object : Nat) (name : String) : List Occurrence :=
  match findSymtab o.elf.sections 0 with
  | .found i s => (range s.count).filterMap (o.occurrenceAt object i s name)
  | _ => []

/-- The occurrences of a name in the objects from position `i` on, in link order. -/
def occurrences : List LdObject → Nat → String → List Occurrence
  | [], _, _ => []
  | o :: os, i, name => o.occurrences i name ++ occurrences os (i + 1) name

/-- The definition that prevails: the first strong one, else the first weak one. -/
def prevailing (occs : List Occurrence) : Option Occurrence :=
  (occs.find? Occurrence.strong).or (occs.find? (·.sym.isDefined))

/-- The largest of a field among the COMMON occurrences. -/
def commonMax (field : ElfSymbol → Nat) (occs : List Occurrence) : Nat :=
  ((occs.filter (·.sym.isCommon)).map fun d => field d.sym).foldl max 0

/-- The largest size among the COMMON occurrences. -/
def commonSize : List Occurrence → Nat := commonMax ElfSymbol.size

/-- The largest alignment among the COMMON occurrences, which is their value. -/
def commonAlign : List Occurrence → Nat := commonMax ElfSymbol.value

/-- What the occurrences of a name make of its global. -/
def declareAll (name : String) (occs : List Occurrence) : Option LdGlobal :=
  occs.foldl (fun g oc =>
    some ((g.getD { name := name }).declare oc.object oc.index oc.sym oc.place)) none

/-! ### The fold is the prevailing definition -/

/-- What the global of a name is, given the occurrences of the name. -/
def Settled (occs : List Occurrence) (g : LdGlobal) : Prop :=
  match prevailing occs with
  | some d =>
    g.defined = true ∧ g.weak = d.sym.isWeak ∧ g.object = some d.object ∧
      g.symbol_index = d.index ∧ g.group = some d.place.1 ∧ g.offset = d.offset ∧
      g.absolute = false
  | none =>
    g.defined = false ∧ g.common = occs.any (·.sym.isCommon) ∧ g.size = commonSize occs ∧
      g.align = commonAlign occs ∧ g.absolute = false

variable {g : LdGlobal} {occs pre : List Occurrence} {n : String} {t t' : GlobalTable}
  {o : LdObject} {target : Target}

/-- A global that is defined is kept, unless it is weak and the occurrence strong. -/
theorem LdGlobal.declare_kept {oc : Occurrence} (hdef : g.defined = true)
    (hkeep : g.weak = false ∨ oc.strong = false) :
    g.declare oc.object oc.index oc.sym oc.place = g := by
  unfold LdGlobal.declare
  split
  · rename_i hd
    rw [if_neg]
    unfold Occurrence.strong at hkeep
    rcases hkeep with hw | hw
    · simp [hdef, hw]
    · rw [hd, Bool.true_and] at hw
      simp [hdef, hw]
  · split
    · rw [if_neg (by simp [hdef])]
    · rw [if_neg (by simp [hdef])]

/-- A definition replaces a global that is undefined, or weak when it is strong. -/
theorem LdGlobal.declare_taken {oc : Occurrence} (hd : oc.sym.isDefined = true)
    (htake : g.defined = false ∨ g.weak = true ∧ oc.strong = true) :
    g.declare oc.object oc.index oc.sym oc.place =
      { g with
        object := some oc.object
        symbol_index := oc.index
        group := some oc.place.1
        offset := oc.offset
        size := oc.sym.size
        align := 1
        defined := true
        weak := oc.sym.isWeak
        common := false } := by
  unfold LdGlobal.declare
  rw [if_pos hd, if_pos]
  · rfl
  · unfold Occurrence.strong at htake
    rcases htake with hg | ⟨hg, hs⟩
    · simp [hg]
    · simp [hd] at hs
      simp [hg, hs]

/-- A COMMON maximum behind one more occurrence. -/
theorem commonMax_snoc (field : ElfSymbol → Nat) (occs : List Occurrence) (oc : Occurrence) :
    commonMax field (occs ++ [oc])
      = if oc.sym.isCommon then max (commonMax field occs) (field oc.sym)
        else commonMax field occs := by
  unfold commonMax
  rw [filter_append, map_append, foldl_append]
  split
  · rename_i hc
    rw [filter_cons_of_pos (by simpa using hc)]
    rfl
  · rename_i hc
    rw [filter_cons_of_neg (by simpa using hc)]
    rfl

theorem prevailing_snoc (occs : List Occurrence) (oc : Occurrence) :
    prevailing (occs ++ [oc])
      = ((occs.find? Occurrence.strong).or (if oc.strong then some oc else none)).or
          ((occs.find? (·.sym.isDefined)).or (if oc.sym.isDefined then some oc else none)) := by
  unfold prevailing
  rw [find?_append, find?_append, find?_singleton, find?_singleton]

/-- A first definition without any strong one is weak. -/
theorem isWeak_of_find {d : Occurrence} (hstrong : occs.find? Occurrence.strong = none)
    (hd : occs.find? (·.sym.isDefined) = some d) : d.sym.isWeak = true := by
  have hmem := mem_of_find?_eq_some hd
  have hdef : d.sym.isDefined = true := by simpa using find?_some hd
  have hnot := find?_eq_none.mp hstrong d hmem
  unfold Occurrence.strong at hnot
  simpa [hdef] using hnot

/-- One more occurrence keeps the global settled. -/
theorem Settled.snoc (h : Settled occs g) (oc : Occurrence) :
    Settled (occs ++ [oc]) (g.declare oc.object oc.index oc.sym oc.place) := by
  unfold Settled at h ⊢
  rw [prevailing_snoc]
  rcases hstrong : occs.find? Occurrence.strong with _ | d
  · rcases hdef : occs.find? (·.sym.isDefined) with _ | d
    · -- No definition so far: the occurrence counts, whatever it is.
      have hprev : prevailing occs = none := by
        unfold prevailing
        rw [hstrong, hdef]
        rfl
      rw [hprev] at h
      obtain ⟨hg, hcommon, hsize, halign, habs⟩ := h
      by_cases hd : oc.sym.isDefined = true
      · have hor : ((none : Option Occurrence).or (if oc.strong then some oc else none)).or
            (none.or (if oc.sym.isDefined then some oc else none)) = some oc := by
          rw [if_pos hd]
          split <;> rfl
        rw [hdef, hor, LdGlobal.declare_taken hd (.inl hg)]
        exact ⟨rfl, rfl, rfl, rfl, rfl, rfl, habs⟩
      · have hs : oc.strong = false := by
          unfold Occurrence.strong
          simp [hd]
        rw [hdef, hs, if_neg hd, if_neg Bool.false_ne_true]
        dsimp only [Option.or]
        rw [commonSize, commonAlign, commonMax_snoc, commonMax_snoc, any_append]
        unfold LdGlobal.declare
        rw [if_neg hd]
        by_cases hc : oc.sym.isCommon = true
        · rw [if_pos hc, if_pos hc, if_pos hc, if_pos (by simp [hg])]
          refine ⟨hg, by simp [hc], ?_, ?_, habs⟩
          · rw [max_def_lt, hsize]
            rfl
          · rw [max_def_lt, halign]
            rfl
        · rw [if_neg hc, if_neg hc, if_neg hc, if_pos (by simp [hg])]
          exact ⟨hg, by simp [hc, hcommon], hsize, halign, habs⟩
    · -- A weak definition holds: only a strong one replaces it.
      have hprev : prevailing occs = some d := by
        unfold prevailing
        rw [hstrong, hdef]
        rfl
      rw [hprev] at h
      have hweak := isWeak_of_find hstrong hdef
      by_cases hs : oc.strong = true
      · have hd : oc.sym.isDefined = true := by
          unfold Occurrence.strong at hs
          simp at hs
          exact hs.1
        rw [if_pos hs, LdGlobal.declare_taken hd (.inr ⟨h.2.1.trans hweak, hs⟩)]
        exact ⟨rfl, rfl, rfl, rfl, rfl, rfl, h.2.2.2.2.2.2⟩
      · rw [hdef, if_neg hs, LdGlobal.declare_kept h.1 (.inr (by simpa using hs))]
        exact h
  · -- A strong definition holds: it stays.
    have hprev : prevailing occs = some d := by
      unfold prevailing
      rw [hstrong]
      rfl
    rw [hprev] at h
    have hd : d.sym.isWeak = false := by
      have hds := find?_some hstrong
      unfold Occurrence.strong at hds
      simp at hds
      exact hds.2
    rw [LdGlobal.declare_kept h.1 (.inl (h.2.1.trans hd))]
    exact h

/-- One more occurrence in the fold. -/
theorem declareAll_snoc (name : String) (occs : List Occurrence) (oc : Occurrence) :
    declareAll name (occs ++ [oc])
      = some (((declareAll name occs).getD { name := name }).declare oc.object oc.index oc.sym
          oc.place) := by
  unfold declareAll
  rw [foldl_append]
  rfl

/-- The fold of the occurrences of a name is its prevailing definition, or else the COMMON
    maxima. -/
theorem declareAll_settled (name : String) (occs : List Occurrence) :
    Settled occs ((declareAll name occs).getD { name := name }) := by
  induction occs using reverseRecOn with
  | nil => exact ⟨rfl, rfl, rfl, rfl, rfl⟩
  | append_singleton occs oc ih =>
    rw [declareAll_snoc]
    exact ih.snoc oc

/-! ### The table tracks the occurrences -/

/-- Behind the occurrences `pre` of a name the table holds their fold, and at most one of them
    is strong. -/
def Tracks (name : String) (pre : List Occurrence) (t : GlobalTable) : Prop :=
  t.find name = declareAll name pre ∧ (pre.filter Occurrence.strong).length ≤ 1

theorem declareAll_eq_none {name : String} (h : declareAll name occs = none) : occs = [] := by
  rcases eq_nil_or_concat occs with rfl | ⟨pre, oc, rfl⟩
  · rfl
  · rw [concat_eq_append, declareAll_snoc] at h
    cases h

/-- Behind a strong occurrence the global is defined and not weak. -/
theorem Settled.strong (h : Settled occs g)
    {d : Occurrence} (hd : d ∈ occs) (hs : d.strong = true) :
    g.defined = true ∧ g.weak = false := by
  rcases hstrong : occs.find? Occurrence.strong with _ | d'
  · exact absurd hs (find?_eq_none.mp hstrong d hd)
  · have hprev : prevailing occs = some d' := by
      unfold prevailing
      rw [hstrong]
      rfl
    unfold Settled at h
    rw [hprev] at h
    have hs' := find?_some hstrong
    unfold Occurrence.strong at hs'
    simp at hs'
    exact ⟨h.1, h.2.1.trans hs'.2⟩

/-- `register_global_symbol` is one more occurrence for the symbol's name and none for the
    others. -/
theorem Tracks.register {name : String} {object index : Nat} {s : ElfSymbol} (h : Tracks n pre t)
    (hreg : registerGlobalSymbol t object o index s name = .ok t') :
    Tracks n (pre ++ (if name = n ∧ s.Global name then
      [⟨object, index, s, (o.map s.sec).getD (0, 0)⟩] else [])) t' := by
  obtain ⟨hfind, hcount⟩ := h
  have hfind' := registerGlobalSymbol_find hreg n
  by_cases hn : name = n ∧ s.Global name
  · obtain ⟨rfl, hglobal⟩ := hn
    rw [if_pos ⟨rfl, hglobal⟩] at hfind' ⊢
    refine ⟨?_, ?_⟩
    · rw [hfind', hfind, declareAll_snoc]
    · rw [filter_append, length_append]
      by_cases hs : Occurrence.strong ⟨object, index, s, (o.map s.sec).getD (0, 0)⟩ = true
      · -- A strong occurrence is accepted only when no strong one came before.
        have hnone : pre.filter Occurrence.strong = [] := by
          rw [filter_eq_nil_iff]
          intro d hd hds
          have hsettled := declareAll_settled name pre
          rcases hall : declareAll name pre with _ | g
          · rw [declareAll_eq_none hall] at hd
            cases hd
          · rw [hall, Option.getD_some] at hsettled
            obtain ⟨hdef, hweak⟩ := hsettled.strong hd hds
            unfold Occurrence.strong at hs
            simp only [Bool.and_eq_true, Bool.not_eq_true'] at hs
            unfold registerGlobalSymbol at hreg
            rw [dif_neg hglobal.1, if_neg hglobal.2, if_pos hs.1] at hreg
            split at hreg
            · cases hreg
            · rw [if_pos (by rw [hfind, hall]; simp [hdef, hweak, hs.2])] at hreg
              cases hreg
        rw [hnone, filter_cons_of_pos hs]
        exact le_rfl
      · rw [filter_cons_of_neg hs]
        exact hcount
  · rw [if_neg (fun hx => hn ⟨hx.1.symm, hx.2⟩)] at hfind'
    rw [if_neg hn, append_nil]
    exact ⟨hfind'.trans hfind, hcount⟩

/-- The symbol loop adds the occurrences among its indices. -/
theorem Tracks.loop {object table : Nat} {s : ElfSection} {js : List Nat} (h : Tracks n pre t)
    (hloop : collectSymbolLoop object o table s js t = .ok t') :
    Tracks n (pre ++ js.filterMap (o.occurrenceAt object table s n)) t' := by
  induction js generalizing pre t with
  | nil =>
    rw [← Except.ok.inj hloop, filterMap_nil, append_nil]
    exact h
  | cons j js ih =>
    unfold collectSymbolLoop at hloop
    rcases hsym : o.elf.symbol table j with _ | sym
    · rw [hsym] at hloop
      cases hloop
    · rw [hsym] at hloop
      dsimp only at hloop
      rcases hname : o.elf.symbolName s.link sym with _ | name
      · rw [hname] at hloop
        have hat : o.occurrenceAt object table s n j = none := by
          unfold LdObject.occurrenceAt
          rw [hsym, Option.bind_some, hname, if_neg (fun hx => by cases hx.1)]
        rw [filterMap_cons_none hat]
        exact ih h hloop
      · rw [hname] at hloop
        dsimp only at hloop
        split at hloop
        · cases hloop
        · rename_i t1 hreg
          have hstep := ih (h.register hreg) hloop
          by_cases hn : name = n ∧ sym.Global name
          · have hat : o.occurrenceAt object table s n j
                = some ⟨object, j, sym, (o.map sym.sec).getD (0, 0)⟩ := by
              unfold LdObject.occurrenceAt
              rw [hsym, Option.bind_some, hname, hn.1, if_pos ⟨rfl, hn.1 ▸ hn.2⟩]
            rw [if_pos hn, append_assoc] at hstep
            rw [filterMap_cons_some hat]
            exact hstep
          · have hat : o.occurrenceAt object table s n j = none := by
              unfold LdObject.occurrenceAt
              rw [hsym, Option.bind_some, hname, if_neg]
              rintro ⟨hx, hg⟩
              cases hx
              exact hn ⟨rfl, hg⟩
            rw [if_neg hn, append_nil] at hstep
            rw [filterMap_cons_none hat]
            exact hstep

/-- An object adds its occurrences. -/
theorem Tracks.object {object : Nat} (h : Tracks n pre t)
    (hsh : o.is_shared = false) (hcol : collectOneObjectSymbols target object o t = .ok t') :
    Tracks n (pre ++ o.occurrences object n) t' := by
  unfold collectOneObjectSymbols at hcol
  rw [if_neg (by simp [hsh])] at hcol
  unfold LdObject.occurrences
  split at hcol
  · cases hcol
  · rename_i hp
    have habs := prepareObjectSymbol_ok hp
    rw [Option.elim_none] at habs
    rw [← Except.ok.inj hcol, habs, append_nil]
    exact h
  · rename_i i s hp
    have hfound := prepareObjectSymbol_ok hp
    rw [Option.elim_some] at hfound
    rw [hfound]
    exact h.loop hcol

/-- Behind `collect_symbols` the table tracks all occurrences, for every name. -/
theorem Tracks.collect {objects : List LdObject} {i : Nat} (h : Tracks n pre t)
    (hsh : ∀ o ∈ objects, o.is_shared = false)
    (hcol : collectSymbols target objects i t = .ok t') :
    Tracks n (pre ++ occurrences objects i n) t' := by
  induction objects generalizing i pre t with
  | nil =>
    rw [← Except.ok.inj hcol]
    unfold occurrences
    rw [append_nil]
    exact h
  | cons o os ih =>
    unfold collectSymbols at hcol
    split at hcol
    · cases hcol
    · rename_i t1 hone
      have hstep := ih (h.object (hsh o mem_cons_self) hone)
        (fun o' ho' => hsh o' (mem_cons_of_mem _ ho')) hcol
      rw [append_assoc] at hstep
      exact hstep

/-- Behind `collect_symbols` from nothing the table holds, for every name, the fold of its
    occurrences, at most one of which is strong. -/
theorem collectSymbols_tracks {objects : List LdObject} (hsh : ∀ o ∈ objects, o.is_shared = false)
    (hcol : collectSymbols target objects 0 .empty = .ok t) (n : String) :
    Tracks n (occurrences objects 0 n) t := by
  have h0 : Tracks n [] .empty := ⟨rfl, Nat.zero_le _⟩
  exact h0.collect hsh hcol

end MeuOS.Ld
