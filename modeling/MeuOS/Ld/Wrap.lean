import MeuOS.Lib.Growing
import MeuOS.Ld.Resolve

namespace MeuOS.Ld

open MeuOS.Lib List Lib.Checked Option

/-!
# `--wrap` (`symbol.c`, `link.c`)

The globals are in an array that `get_global` lets grow, and `apply_wrap` keeps pointers into it:
three for itself and one in the alias of the wrapped global.

* `LdGlobals`, `getGlobal`, `applyWrap` — the array and the stage;
* `followAlias`, `resolveGlobal` — how `symbol_value` finds the global of a reference;
* `WrapsRight` — references to wrapped names and to their originals are redirected as asked;
* `WrapRoom` — the array has room for the names that the stage looks up;
* `applyWraps_iff` — wraps are right exactly when there is room.
-/

/-! ### The globals -/

/-- `struct ld_global` with its `alias`. -/
structure AliasedGlobal where
  global : LdGlobal
  alias_to : Option Pointer := none
  deriving DecidableEq, Repr

/-- The name of a global. -/
def AliasedGlobal.name (g : AliasedGlobal) : String := g.global.name

/-- A new global. -/
def newGlobal (name : String) : AliasedGlobal := { global := { name := name } }

@[simp] theorem newGlobal_name (name : String) : (newGlobal name).name = name := rfl

/-- `struct ld_globals`. -/
abbrev LdGlobals := Growing AliasedGlobal

/-- `find_global`. -/
def findGlobal (t : LdGlobals) (name : String) : Option Pointer := t.find AliasedGlobal.name name

/-- `get_global`. -/
def getGlobal (t : LdGlobals) (name : String) : LdGlobals × Pointer :=
  t.get AliasedGlobal.name 64 (newGlobal name)

/-! ### The stage -/

/-- `snprintf` into 256 bytes. -/
def truncate256 (text : String) : String := String.ofList (text.toList.take 255)

/-- `__wrap_SYM`. -/
def wrapName (sym : String) : String := truncate256 ("__wrap_" ++ sym)

/-- `__real_SYM`. -/
def realName (sym : String) : String := truncate256 ("__real_" ++ sym)

/-- The copy of a definition to `__real_SYM`. -/
def copyDefinition (t : LdGlobals) (original : LdGlobal) (gr : Pointer) :
    Checked String LdGlobals :=
  if original.defined then do
    let real ← t.deref gr
    t.store gr { real with global := { original with name := real.global.name } }
  else .ok t

/-- `apply_wrap`. -/
def applyWrap (t : LdGlobals) (sym : String) : Checked String LdGlobals :=
  if sym = "" then .ok t
  else do
    let (t, g) := getGlobal t sym
    let (t, gw) := getGlobal t (wrapName sym)
    let (t, gr) := getGlobal t (realName sym)
    let original ← t.deref g
    let t ← copyDefinition t original.global gr
    let wrapped ← t.deref g
    t.store g { wrapped with alias_to := some gw }

/-- `apply_wrap` for every `--wrap`. -/
def applyWraps (t : LdGlobals) (syms : List String) : Checked String LdGlobals :=
  syms.foldlM applyWrap t

/-! ### References -/

/-- `while (global->alias) global = global->alias`, for at most `fuel` globals. -/
def followAlias : Nat → LdGlobals → Pointer → Checked String LdGlobal
  | 0, _, _ => .stuck
  | fuel + 1, t, p => do
      let g ← t.deref p
      match g.alias_to with
      | none => return g.global
      | some q => followAlias fuel t q

/-- The global that an undefined reference to a name is resolved to. -/
def resolveGlobal (fuel : Nat) (t : LdGlobals) (name : String) :
    Checked String (Option LdGlobal) :=
  match findGlobal t name with
  | none => .ok none
  | some p => do
      let g ← followAlias fuel t p
      return some g

/-- `symbol_value` with aliases. -/
def symbolValueAlias (fuel : Nat) (t : LdGlobals) (address : Nat → Nat) (dyn : Bool)
    (o : LdObject) (index : Nat) : Checked String Nat :=
  match getSymbolByIndex o index with
  | .error e => .fail e
  | .ok (sym, name) =>
    if sym.sec = SHN_UNDEF then
      if name = "" then .ok 0
      else do
        match ← resolveGlobal fuel t name with
        | none => .fail ("undefined symbol: " ++ name)
        | some g =>
          if !g.defined then
            if dyn then return 0 else .fail ("undefined symbol: " ++ name)
          else if g.absolute then return add64 g.offset sym.value
          else
            match g.group with
            | none => return 0
            | some group => return add64 (add64 (address group) g.offset) sym.value
    else if sym.sec = SHN_COMMON then
      match lookupKey AliasedGlobal.name t.items name with
      | none => .fail ("undefined common symbol: " ++ name)
      | some g =>
        if !g.global.defined then .fail ("undefined common symbol: " ++ name)
        else
          match g.global.group with
          | none => .fault
          | some group => .ok (add64 (address group) g.global.offset)
    else
      match o.map sym.sec with
      | none => .fail ("symbol section was discarded: " ++ name)
      | some place => .ok (add64 (add64 (address place.1) place.2) sym.value)

/-! ### What wraps are for -/

/-- The global of a name before the wraps; a name without one gets a new one. -/
def originalGlobal (t : LdGlobals) (name : String) : LdGlobal :=
  ((lookupKey AliasedGlobal.name t.items name).map AliasedGlobal.global).getD { name := name }

/-- References to wrapped names find the definition of `__wrap_SYM`, references to `__real_SYM` find
    the definition that `SYM` had, and no chain of aliases goes on for ever. -/
structure WrapsRight (t t' : LdGlobals) (syms : List String) : Prop where
  wrapped : ∀ sym ∈ syms, sym ≠ "" → ∃ n, ∀ fuel ≥ n,
    resolveGlobal fuel t' sym = .ok (some (originalGlobal t (wrapName sym)))
  real : ∀ sym ∈ syms, sym ≠ "" → (originalGlobal t sym).defined = true → ∃ n, ∀ fuel ≥ n,
    resolveGlobal fuel t' (realName sym) =
      .ok (some { originalGlobal t sym with name := realName sym })
  ends : ∀ name, ∃ n, ∀ fuel ≥ n, resolveGlobal fuel t' name ≠ .stuck

/-- The globals that the stages before leave: every name once and no alias. -/
structure Collected (t : LdGlobals) : Prop where
  nodup : (t.keys AliasedGlobal.name).Nodup
  fits : t.items.length ≤ t.capacity
  plain : ∀ g ∈ t.items, g.alias_to = none

/-- The names are wrapped independently: none is `__wrap_SYM` or `__real_SYM` of another one, and
    these names are not cut off. -/
structure WrapNames (syms : List String) : Prop where
  short : ∀ sym ∈ syms, sym.length ≤ 248
  no_wrap : ∀ sym ∈ syms, ∀ sym' ∈ syms, sym ≠ wrapName sym'
  no_real : ∀ sym ∈ syms, ∀ sym' ∈ syms, sym ≠ realName sym'

/-- The names that the stage looks up. -/
def wrapLookups (syms : List String) : List String :=
  (syms.filter (· ≠ "")).flatMap fun sym => [sym, wrapName sym, realName sym]

/-- Behind the first name looked up, there is room for the names that have no global. -/
def WrapRoom (t : LdGlobals) (syms : List String) : Prop :=
  match wrapLookups syms with
  | [] => True
  | name :: names =>
    (getGlobal t name).1.items.length +
      (getGlobal t name).1.missing AliasedGlobal.name names ≤ (getGlobal t name).1.capacity

/-! ### One wrap -/

/-- The globals behind the lookups of a list of names. -/
def lookups (t : LdGlobals) (names : List String) : LdGlobals :=
  t.getAll AliasedGlobal.name 64 newGlobal names

/-- The global of a name. -/
def entry (t : LdGlobals) (name : String) : Option AliasedGlobal :=
  lookupKey AliasedGlobal.name t.items name

theorem entry_lookups_cons (t : LdGlobals) (name : String) (names : List String) :
    lookups t (name :: names) = lookups (getGlobal t name).1 names := rfl

theorem entry_getGlobal (t : LdGlobals) (name m : String) :
    entry (getGlobal t name).1 m =
      if m = name then some ((entry t m).getD (newGlobal name)) else entry t m := by
  unfold getGlobal entry
  rw [Growing.get_items]
  exact lookupKey_touchKey _ _ _

/-- Names looked up have a global then, other names keep theirs. -/
theorem entry_lookups (t : LdGlobals) (names : List String) (m : String) :
    entry (lookups t names) m =
      if m ∈ names then some ((entry t m).getD (newGlobal m)) else entry t m := by
  induction names generalizing t with
  | nil => simp [lookups, Growing.getAll]
  | cons name names ih =>
    rw [entry_lookups_cons, ih, entry_getGlobal]
    by_cases hm : m = name
    · subst hm
      by_cases hmem : m ∈ names <;> simp [hmem]
    · by_cases hmem : m ∈ names <;> simp [hm, hmem]

theorem find_getGlobal (t : LdGlobals) (name : String) :
    findGlobal (getGlobal t name).1 name = some (getGlobal t name).2 := Growing.find_get_self _ _ _

variable {t t' : LdGlobals} {name m sym : String} {p : Pointer} {syms : List String}

theorem find_getGlobal_of_find
    (h : findGlobal t m = some p) (hb : (getGlobal t name).1.block = t.block) :
    findGlobal (getGlobal t name).1 m = some p := Growing.find_get_of_find h hb

theorem find_lookups_of_find {names : List String}
    (h : findGlobal t m = some p) (hb : (lookups t names).block = t.block) :
    findGlobal (lookups t names) m = some p := by
  induction names generalizing t with
  | nil => exact h
  | cons name names ih =>
    rw [entry_lookups_cons] at hb ⊢
    have hle : t.block ≤ (getGlobal t name).1.block := Growing.block_le_get _ _ _
    have hle' : (getGlobal t name).1.block ≤ (lookups (getGlobal t name).1 names).block :=
      Growing.block_le_getAll _ _ _ _
    have hfirst : (getGlobal t name).1.block = t.block := by omega
    exact ih (find_getGlobal_of_find h hfirst) (hb.trans hfirst.symm)

theorem deref_findGlobal (h : findGlobal t name = some p) :
    ∃ g, t.deref (ε := String) p = .ok g ∧ g.name = name ∧ entry t name = some g :=
  Growing.deref_find h

/-- `apply_wrap` with its lookups in one place. -/
theorem applyWrap_eq (hne : sym ≠ "") :
    applyWrap t sym = (do
      let t₁ := (getGlobal t sym).1
      let t₂ := (getGlobal t₁ (wrapName sym)).1
      let t₃ := lookups t [sym, wrapName sym, realName sym]
      let original ← t₃.deref (getGlobal t sym).2
      let t₄ ← copyDefinition t₃ original.global (getGlobal t₂ (realName sym)).2
      let wrapped ← t₄.deref (getGlobal t sym).2
      t₄.store (getGlobal t sym).2
        { wrapped with alias_to := some (getGlobal t₁ (wrapName sym)).2 }) := by
  unfold applyWrap
  rw [if_neg hne]
  rfl

/-- A wrap whose own lookups move the array uses a pointer into the block before. -/
theorem block_of_applyWrap (hne : sym ≠ "") (h : applyWrap t sym = .ok t') :
    (lookups t [sym, wrapName sym, realName sym]).block = (getGlobal t sym).1.block := by
  rw [applyWrap_eq hne] at h
  obtain ⟨original, hg, -⟩ := bind_eq_ok h
  have hfound := find_getGlobal t sym
  rw [← Growing.find_block hfound]
  exact (Growing.block_of_deref hg).symm

/-- What a wrap leaves for a name, behind its lookups. -/
def wrappedEntry (t t' : LdGlobals) (sym m : String) : Option AliasedGlobal :=
  if m = sym then
    some ⟨originalGlobal t sym, findGlobal t' (wrapName sym)⟩
  else if m = realName sym ∧ (originalGlobal t sym).defined = true then
    some ⟨{ originalGlobal t sym with name := m }, ((entry t m).bind AliasedGlobal.alias_to)⟩
  else entry (lookups t [sym, wrapName sym, realName sym]) m

/-- A wrap whose own lookups leave the array where it is. -/
theorem applyWrap_ok (hne : sym ≠ "") (hreal : sym ≠ realName sym)
    (hblock : (lookups t [sym, wrapName sym, realName sym]).block = (getGlobal t sym).1.block) :
    ∃ t', applyWrap t sym = .ok t' ∧
      Growing.Alike AliasedGlobal.name t' (lookups t [sym, wrapName sym, realName sym]) ∧
      ∀ m, entry t' m = wrappedEntry t t' sym m := by
  have hentry := entry_lookups t [sym, wrapName sym, realName sym]
  have horiginal : ∀ m, ((entry t m).getD (newGlobal m)).global = originalGlobal t m := by
    intro m
    unfold originalGlobal entry
    cases lookupKey AliasedGlobal.name t.items m <;> rfl
  rw [applyWrap_eq hne]
  generalize hg : (getGlobal t sym).2 = g
  generalize ht₁ : (getGlobal t sym).1 = t₁ at hblock ⊢
  generalize hgw : (getGlobal t₁ (wrapName sym)).2 = gw
  generalize ht₂ : (getGlobal t₁ (wrapName sym)).1 = t₂
  generalize hgr : (getGlobal t₂ (realName sym)).2 = gr
  have ht₃ : (getGlobal t₂ (realName sym)).1 = lookups t [sym, wrapName sym, realName sym] := by
    rw [← ht₂, ← ht₁]
    rfl
  unfold wrappedEntry
  generalize lookups t [sym, wrapName sym, realName sym] = t₃ at ht₃ hblock hentry ⊢
  -- The three pointers are good at the end of the lookups.
  have hle₂ : t₁.block ≤ t₂.block := ht₂ ▸ Growing.block_le_get _ _ _
  have hle₃ : t₂.block ≤ t₃.block := ht₃ ▸ Growing.block_le_get _ _ _
  have hfind₂ : ∀ {m p}, findGlobal t₁ m = some p → findGlobal t₂ m = some p := by
    intro m p h
    rw [← ht₂]
    exact find_getGlobal_of_find h (by rw [ht₂]; omega)
  have hfind₃ : ∀ {m p}, findGlobal t₂ m = some p → findGlobal t₃ m = some p := by
    intro m p h
    rw [← ht₃]
    exact find_getGlobal_of_find h (by rw [ht₃]; omega)
  have hfg : findGlobal t₃ sym = some g := by
    refine hfind₃ (hfind₂ ?_)
    rw [← ht₁, ← hg]
    exact find_getGlobal t sym
  have hfgw : findGlobal t₃ (wrapName sym) = some gw := by
    refine hfind₃ ?_
    rw [← ht₂, ← hgw]
    exact find_getGlobal t₁ _
  have hfgr : findGlobal t₃ (realName sym) = some gr := by
    rw [← ht₃, ← hgr]
    exact find_getGlobal t₂ _
  -- What is behind them.
  obtain ⟨original, hderef, -, horig⟩ := deref_findGlobal hfg
  obtain ⟨real, hderefr, hrealname, hr⟩ := deref_findGlobal hfgr
  rw [hentry, if_pos (by simp)] at horig hr
  have hglobal : original.global = originalGlobal t sym := by
    rw [← horiginal, some_inj.mp horig]
  have halias : real.alias_to = (entry t (realName sym)).bind AliasedGlobal.alias_to := by
    rw [← some_inj.mp hr]
    cases entry t (realName sym) <;> rfl
  -- The copy to `__real_SYM`.
  obtain ⟨t₄, hcopy, halike₄, hentry₄⟩ : ∃ t₄, copyDefinition t₃ original.global gr = .ok t₄ ∧
      Growing.Alike AliasedGlobal.name t₄ t₃ ∧ ∀ m, entry t₄ m =
        if m = realName sym ∧ original.global.defined = true then
          some ⟨{ original.global with name := m }, real.alias_to⟩
        else entry t₃ m := by
    unfold copyDefinition
    by_cases hdef : original.global.defined = true
    · rw [if_pos hdef, hderefr, ok_bind]
      obtain ⟨t₄, hstore, hb, hc, hk, hl⟩ := Growing.store_find (ε := String) hfgr
        (a := { real with global := { original.global with name := real.global.name } }) hrealname
      refine ⟨t₄, hstore, ⟨hk, hc, hb⟩, fun m => ?_⟩
      unfold entry
      rw [hl]
      by_cases hm : m = realName sym
      · rw [if_pos hm, if_pos ⟨hm, hdef⟩, hm, ← hrealname]
        rfl
      · rw [if_neg hm, if_neg fun h => hm h.1]
    · refine ⟨t₃, by rw [if_neg hdef], .refl _, fun m => ?_⟩
      rw [if_neg fun h => hdef h.2]
  -- The alias.
  have hfind₄ : ∀ m, findGlobal t₄ m = findGlobal t₃ m :=
    Growing.find_congr halike₄.keys halike₄.block
  obtain ⟨wrapped, hderef₄, hname, hwrapped⟩ := deref_findGlobal ((hfind₄ sym).trans hfg)
  rw [hentry₄, if_neg fun h => hreal h.1, hentry, if_pos (by simp)] at hwrapped
  obtain rfl : original = wrapped := some_inj.mp (horig.symm.trans hwrapped)
  obtain ⟨t₅, hstore, hb, hc, hk, hl⟩ := Growing.store_find (ε := String) ((hfind₄ sym).trans hfg)
    (a := { original with alias_to := some gw }) hname
  have halike₅ : Growing.Alike AliasedGlobal.name t₅ t₃ :=
    Growing.Alike.trans ⟨hk, hc, hb⟩ halike₄
  refine ⟨t₅, ?_, halike₅, fun m => ?_⟩
  · dsimp only
    rw [ht₂, hgr, hgw, hderef, ok_bind, hcopy, ok_bind, hderef₄, ok_bind, hstore]
  · have hgw₅ : findGlobal t₅ (wrapName sym) = some gw :=
      (Growing.find_congr halike₅.keys halike₅.block _).trans hfgw
    rw [hgw₅]
    unfold entry
    rw [hl]
    by_cases hm : m = sym
    · rw [if_pos hm, if_pos hm, ← hglobal]
    · rw [if_neg hm, if_neg hm]
      refine (hentry₄ m).trans ?_
      rw [hglobal]
      by_cases hcond : m = realName sym ∧ (originalGlobal t sym).defined = true
      · rw [if_pos hcond, if_pos hcond, hcond.1, halias]
        rfl
      · rw [if_neg hcond, if_neg hcond]
        rfl

/-! ### Names -/

theorem toList_wrapName (h : sym.length ≤ 248) :
    (wrapName sym).toList = "__wrap_".toList ++ sym.toList := by
  unfold wrapName truncate256
  rw [String.toList_ofList, String.toList_append, take_of_length_le]
  rw [length_append, String.length_toList]
  exact Nat.add_le_add_left h 7

theorem toList_realName (h : sym.length ≤ 248) :
    (realName sym).toList = "__real_".toList ++ sym.toList := by
  unfold realName truncate256
  rw [String.toList_ofList, String.toList_append, take_of_length_le]
  rw [length_append, String.length_toList]
  exact Nat.add_le_add_left h 7

/-- No `__wrap_SYM` is a `__real_SYM`. -/
theorem wrapName_ne_realName {sym' : String} (h : sym.length ≤ 248) (h' : sym'.length ≤ 248) :
    wrapName sym ≠ realName sym' := by
  intro heq
  have hlist := congrArg String.toList heq
  rw [toList_wrapName h, toList_realName h'] at hlist
  have hthird := congrArg (·[2]?) hlist
  simp at hthird

theorem realName_inj {sym' : String} (h : sym.length ≤ 248) (h' : sym'.length ≤ 248)
    (heq : realName sym = realName sym') : sym = sym' := by
  have hlist := congrArg String.toList heq
  rw [toList_realName h, toList_realName h'] at hlist
  exact String.toList_inj.mp (append_cancel_left hlist)

/-! ### The run -/

theorem wrapLookups_cons (hne : sym ≠ "") (syms : List String) :
    wrapLookups (sym :: syms) = [sym, wrapName sym, realName sym] ++ wrapLookups syms := by
  simp [wrapLookups, hne]

theorem wrapLookups_concat (hne : sym ≠ "") (syms : List String) :
    wrapLookups (syms ++ [sym]) = wrapLookups syms ++ [sym, wrapName sym, realName sym] := by
  simp [wrapLookups, hne]

theorem lookups_append (t : LdGlobals) (names names' : List String) :
    lookups t (names ++ names') = lookups (lookups t names) names' := foldl_append

/-- What holds of the globals `t₀` behind the wraps of some names. -/
structure WrapInv (t₀ t : LdGlobals) (done : List String) : Prop where
  alike : Growing.Alike AliasedGlobal.name t (lookups t₀ (wrapLookups done))
  wrapped : ∀ sym ∈ done, entry t sym = some ⟨originalGlobal t₀ sym, findGlobal t (wrapName sym)⟩
  real : ∀ sym ∈ done, (originalGlobal t₀ sym).defined = true →
    entry t (realName sym) = some ⟨{ originalGlobal t₀ sym with name := realName sym }, none⟩
  other : ∀ m, m ∉ done →
    (∀ sym ∈ done, (originalGlobal t₀ sym).defined = true → m ≠ realName sym) →
    entry t m = if m ∈ wrapLookups done then some ⟨originalGlobal t₀ m, none⟩ else entry t₀ m

theorem WrapInv.start (t₀ : LdGlobals) : WrapInv t₀ t₀ [] := by
  refine ⟨.refl _, ?_, ?_, ?_⟩ <;> simp [wrapLookups]

section run

variable {t₀ t : LdGlobals} {all done : List String}

/-- A global before the wraps, found or new, has no alias. -/
theorem Collected.entry_getD (h : Collected t₀) (m : String) :
    (entry t₀ m).getD (newGlobal m) = ⟨originalGlobal t₀ m, none⟩ := by
  unfold originalGlobal entry
  cases hf : lookupKey AliasedGlobal.name t₀.items m with
  | none => rfl
  | some g =>
    have hplain := h.plain g (lookupKey_some hf).2
    rw [getD_some, map_some, getD_some, ← hplain]

/-- A name that is not the original of a wrapped one, behind some wraps. -/
theorem WrapInv.entry_getD (hinv : WrapInv t₀ t done) (hc : Collected t₀) (hm : m ∉ done)
    (hreal : ∀ sym ∈ done, (originalGlobal t₀ sym).defined = true → m ≠ realName sym) :
    (entry t m).getD (newGlobal m) = ⟨originalGlobal t₀ m, none⟩ := by
  rw [hinv.other m hm hreal]
  split
  · rfl
  · exact hc.entry_getD m

/-- A wrapped name keeps its definition for the wraps behind. -/
theorem WrapInv.originalGlobal_eq (hinv : WrapInv t₀ t done) (hc : Collected t₀)
    (hn : WrapNames all) (hdone : done ⊆ all) (hsym : sym ∈ all) :
    originalGlobal t sym = originalGlobal t₀ sym := by
  have hglobal : originalGlobal t sym = ((entry t sym).getD (newGlobal sym)).global := by
    unfold originalGlobal entry
    cases lookupKey AliasedGlobal.name t.items sym <;> rfl
  rw [hglobal]
  by_cases hm : sym ∈ done
  · rw [hinv.wrapped sym hm, getD_some]
  · rw [hinv.entry_getD hc hm fun s hs _ => hn.no_real sym hsym s (hdone hs)]

/-- One more wrap. -/
theorem WrapInv.step (hinv : WrapInv t₀ t done) (hc : Collected t₀) (hn : WrapNames all)
    (hnonempty : "" ∉ all) (hdone : done ⊆ all) {sym : String} (hsym : sym ∈ all)
    (hblock : (lookups t [sym, wrapName sym, realName sym]).block = (getGlobal t sym).1.block)
    (hstay : done ≠ [] → (lookups t [sym, wrapName sym, realName sym]).block = t.block) :
    ∃ t', applyWrap t sym = .ok t' ∧
      Growing.Alike AliasedGlobal.name t' (lookups t [sym, wrapName sym, realName sym]) ∧
      WrapInv t₀ t' (done ++ [sym]) := by
  have hne : sym ≠ "" := fun h => hnonempty (h ▸ hsym)
  obtain ⟨t', hok, halike, hentry⟩ := applyWrap_ok hne (hn.no_real sym hsym sym hsym) hblock
  have horig := hinv.originalGlobal_eq hc hn hdone hsym
  have hlook := entry_lookups t [sym, wrapName sym, realName sym]
  -- A name that has a global keeps it through the lookups.
  have hkeep : ∀ {m g}, entry t m = some g →
      entry (lookups t [sym, wrapName sym, realName sym]) m = some g := by
    intro m g hg
    rw [hlook, hg]
    split <;> rfl
  refine ⟨t', hok, halike, ?_, ?_, ?_, ?_⟩
  · rw [wrapLookups_concat hne, lookups_append]
    exact halike.trans (hinv.alike.getAll 64 newGlobal _)
  · intro s hs
    rw [hentry]
    unfold wrappedEntry
    by_cases hss : s = sym
    · rw [if_pos hss, hss, horig]
    · have hmem : s ∈ done := by simpa [hss] using hs
      rw [if_neg hss, if_neg fun h => hn.no_real s (hdone hmem) sym hsym h.1,
        hkeep (hinv.wrapped s hmem)]
      -- The alias of an earlier wrap still points to the same global.
      have hlookup : wrapName s ∈ wrapLookups done := by
        refine mem_flatMap.mpr ⟨s, mem_filter.mpr ⟨hmem, ?_⟩, by simp⟩
        simpa using fun h : s = "" => hnonempty (h ▸ hdone hmem)
      have hfound : entry t (wrapName s) = some ⟨originalGlobal t₀ (wrapName s), none⟩ := by
        rw [hinv.other _ (fun h => hn.no_wrap _ (hdone h) s (hdone hmem) rfl), if_pos hlookup]
        exact fun s' hs' _ =>
          wrapName_ne_realName (hn.short s (hdone hmem)) (hn.short s' (hdone hs'))
      obtain ⟨p, hp⟩ : ∃ p, findGlobal t (wrapName s) = some p := by
        refine ne_none_iff_exists'.mp fun hnone => ?_
        have hlook := Growing.lookupKey_of_find_none hnone
        rw [show lookupKey AliasedGlobal.name t.items (wrapName s) = entry t (wrapName s) from rfl,
          hfound] at hlook
        cases hlook
      have hp' := find_lookups_of_find hp (hstay (ne_nil_of_mem hmem))
      rw [hp, show findGlobal t' (wrapName s) = some p from
        (Growing.find_congr halike.keys halike.block _).trans hp']
  · intro s hs hdef
    rw [hentry]
    unfold wrappedEntry
    have hs_all : s ∈ all := by
      rcases mem_append.mp hs with h | h
      · exact hdone h
      · rwa [mem_singleton.mp h]
    rw [if_neg fun h => hn.no_real sym hsym s hs_all h.symm]
    by_cases hss : s = sym
    · subst hss
      rw [horig, if_pos ⟨rfl, hdef⟩]
      -- Neither the globals before nor a wrap leave an alias in an original.
      have hplain : (entry t (realName s)).bind AliasedGlobal.alias_to = none := by
        by_cases hmem : s ∈ done
        · rw [hinv.real s hmem hdef, bind_some]
        · have hentry := hinv.entry_getD hc (m := realName s)
            (fun h => hn.no_real _ (hdone h) s hs_all rfl) fun s' hs' _ heq => hmem (by
              rwa [realName_inj (hn.short s hs_all) (hn.short s' (hdone hs')) heq])
          cases hf : entry t (realName s) with
          | none => rfl
          | some g =>
            rw [hf, getD_some] at hentry
            rw [hentry, bind_some]
      rw [hplain]
    · have hmem : s ∈ done := by simpa [hss] using hs
      rw [if_neg fun h => hss (realName_inj (hn.short s hs_all) (hn.short sym hsym) h.1),
        hkeep (hinv.real s hmem hdef)]
  · intro m hm hreal
    have hm_done : m ∉ done := fun h => hm (mem_append_left _ h)
    have hm_sym : m ≠ sym := fun h => hm (by simp [h])
    have hreal' : ∀ s ∈ done, (originalGlobal t₀ s).defined = true → m ≠ realName s :=
      fun s hs => hreal s (mem_append_left _ hs)
    rw [hentry]
    unfold wrappedEntry
    rw [if_neg hm_sym, horig, if_neg fun h => hreal sym (by simp) h.2 h.1, hlook,
      hinv.entry_getD hc hm_done hreal', hinv.other m hm_done hreal', wrapLookups_concat hne]
    by_cases hnew : m ∈ [sym, wrapName sym, realName sym]
    · rw [if_pos hnew, if_pos (mem_append_right _ hnew)]
    · rw [if_neg hnew]
      by_cases hold : m ∈ wrapLookups done
      · rw [if_pos hold, if_pos (mem_append_left _ hold)]
      · rw [if_neg hold, if_neg fun h => (mem_append.mp h).elim hold hnew]

/-- More wraps, as long as the array stays where it is. -/
theorem WrapInv.run (hc : Collected t₀) (hn : WrapNames all) (hnonempty : "" ∉ all)
    (hinv : WrapInv t₀ t done) (hdone : done ⊆ all) (hsome : done ≠ [])
    (hsyms : syms ⊆ all) (hstay : (lookups t (wrapLookups syms)).block = t.block) :
    ∃ t', applyWraps t syms = .ok t' ∧ WrapInv t₀ t' (done ++ syms) := by
  induction syms generalizing t done with
  | nil => exact ⟨t, rfl, by rwa [append_nil]⟩
  | cons sym syms ih =>
    have hsym : sym ∈ all := hsyms mem_cons_self
    have hne : sym ≠ "" := fun h => hnonempty (h ▸ hsym)
    rw [wrapLookups_cons hne, lookups_append] at hstay
    have hle : t.block ≤ (getGlobal t sym).1.block := Growing.block_le_get _ _ _
    have hle' : (getGlobal t sym).1.block ≤
        (lookups t [sym, wrapName sym, realName sym]).block := Growing.block_le_getAll _ _ _ _
    have hle'' : (lookups t [sym, wrapName sym, realName sym]).block ≤
        (lookups (lookups t [sym, wrapName sym, realName sym]) (wrapLookups syms)).block :=
      Growing.block_le_getAll _ _ _ _
    obtain ⟨t₁, hok, halike, hinv₁⟩ :=
      hinv.step hc hn hnonempty hdone hsym (by omega) (fun _ => by omega)
    have hlater : (lookups t₁ (wrapLookups syms)).block = t₁.block := by
      have hmoved : (lookups t₁ (wrapLookups syms)).block =
          (lookups (lookups t [sym, wrapName sym, realName sym]) (wrapLookups syms)).block :=
        (halike.getAll 64 newGlobal (wrapLookups syms)).block
      rw [hmoved, halike.block]
      omega
    obtain ⟨t', hrun, hinv'⟩ := ih hinv₁ (append_subset.mpr ⟨hdone, by simpa using hsym⟩)
      (by simp) (fun s hs => hsyms (mem_cons_of_mem _ hs)) hlater
    refine ⟨t', ?_, by rwa [append_assoc] at hinv'⟩
    unfold applyWraps at hrun ⊢
    rw [foldlM_cons, hok, ok_bind, hrun]

/-- What a run of wraps does to the array, and what it leaves of the aliases of other names. -/
theorem applyWraps_alike (hn : WrapNames all)
    (hnonempty : "" ∉ all) (hsyms : syms ⊆ all) (h : applyWraps t syms = .ok t') :
    Growing.Alike AliasedGlobal.name t' (lookups t (wrapLookups syms)) ∧
      ∀ m ∉ syms, ∀ g, entry t m = some g →
        ∃ g', entry t' m = some g' ∧ g'.alias_to = g.alias_to := by
  induction syms generalizing t with
  | nil =>
    cases h
    exact ⟨.refl _, fun m _ g hg => ⟨g, hg, rfl⟩⟩
  | cons sym syms ih =>
    have hsym : sym ∈ all := hsyms mem_cons_self
    have hne : sym ≠ "" := fun h => hnonempty (h ▸ hsym)
    unfold applyWraps at h
    rw [foldlM_cons] at h
    obtain ⟨t₁, hok, h⟩ := bind_eq_ok h
    obtain ⟨t₁', hok', halike, hentry⟩ :=
      applyWrap_ok hne (hn.no_real sym hsym sym hsym) (block_of_applyWrap hne hok)
    obtain rfl : t₁' = t₁ := ok.inj (hok'.symm.trans hok)
    obtain ⟨halike', hkeep⟩ := ih (fun s hs => hsyms (mem_cons_of_mem _ hs)) h
    refine ⟨?_, fun m hm g hg => ?_⟩
    · rw [wrapLookups_cons hne, lookups_append]
      exact halike'.trans (halike.getAll 64 newGlobal _)
    · have hm_sym : m ≠ sym := fun h => hm (h ▸ mem_cons_self)
      have hm_syms : m ∉ syms := fun h => hm (mem_cons_of_mem _ h)
      obtain ⟨g₁, hg₁, halias⟩ : ∃ g₁, entry t₁' m = some g₁ ∧ g₁.alias_to = g.alias_to := by
        rw [hentry]
        unfold wrappedEntry
        rw [if_neg hm_sym, hg]
        split
        · exact ⟨_, rfl, rfl⟩
        · rw [entry_lookups, hg]
          split
          · exact ⟨g, rfl, rfl⟩
          · exact ⟨g, rfl, rfl⟩
      obtain ⟨g', hg', halias'⟩ := hkeep m hm_syms g₁ hg₁
      exact ⟨g', hg', halias'.trans halias⟩

end run

/-! ### References behind the wraps -/

/-- A global without an alias is the one that references are resolved to. -/
theorem resolveGlobal_plain {g : LdGlobal}
    (h : entry t name = some ⟨g, none⟩) : ∀ fuel ≥ 1, resolveGlobal fuel t name = .ok (some g) := by
  intro fuel hfuel
  obtain ⟨fuel, rfl⟩ := Nat.exists_eq_add_of_le' hfuel
  unfold resolveGlobal
  cases hf : findGlobal t name with
  | none =>
    have hnone := Growing.lookupKey_of_find_none hf
    exact absurd (h.symm.trans hnone) nofun
  | some p =>
    obtain ⟨a, hderef, -, ha⟩ := deref_findGlobal hf
    cases h.symm.trans ha
    simp only [followAlias, hderef, ok_bind]
    rfl

/-- A global with an alias leads to the global there. -/
theorem resolveGlobal_alias {target : String} {g g' : LdGlobal}
    (h : entry t name = some ⟨g, findGlobal t target⟩) (h' : entry t target = some ⟨g', none⟩) :
    ∀ fuel ≥ 2, resolveGlobal fuel t name = .ok (some g') := by
  intro fuel hfuel
  obtain ⟨fuel, rfl⟩ := Nat.exists_eq_add_of_le' hfuel
  have htarget := resolveGlobal_plain h' (fuel + 1) (by omega)
  unfold resolveGlobal at htarget ⊢
  cases hq : findGlobal t target with
  | none =>
    rw [hq] at htarget
    cases htarget
  | some q =>
    rw [hq] at h htarget
    cases hf : findGlobal t name with
    | none =>
      have hnone := Growing.lookupKey_of_find_none hf
      exact absurd (h.symm.trans hnone) nofun
    | some p =>
      obtain ⟨a, hderef, -, ha⟩ := deref_findGlobal hf
      cases h.symm.trans ha
      dsimp only
      rw [followAlias, hderef, ok_bind]
      exact htarget

/-- Behind wraps that leave the array where it is, references are redirected as asked. -/
theorem WrapInv.right {t₀ : LdGlobals} (hinv : WrapInv t₀ t syms)
    (hc : Collected t₀) (hn : WrapNames syms) (hnonempty : "" ∉ syms) : WrapsRight t₀ t syms := by
  have htarget : ∀ sym ∈ syms,
      entry t (wrapName sym) = some ⟨originalGlobal t₀ (wrapName sym), none⟩ := by
    intro sym hsym
    rw [hinv.other _ (fun h => hn.no_wrap _ h sym hsym rfl), if_pos]
    · refine mem_flatMap.mpr ⟨sym, mem_filter.mpr ⟨hsym, ?_⟩, by simp⟩
      simpa using fun h : sym = "" => hnonempty (h ▸ hsym)
    · exact fun s hs _ => wrapName_ne_realName (hn.short sym hsym) (hn.short s hs)
  refine ⟨fun sym hsym _ => ⟨2, ?_⟩, fun sym hsym _ hdef => ⟨1, ?_⟩, fun name => ?_⟩
  · exact resolveGlobal_alias (hinv.wrapped sym hsym) (htarget sym hsym)
  · exact resolveGlobal_plain (hinv.real sym hsym hdef)
  · by_cases hwrapped : name ∈ syms
    · refine ⟨2, fun fuel hfuel => ?_⟩
      rw [resolveGlobal_alias (hinv.wrapped name hwrapped) (htarget name hwrapped) fuel hfuel]
      exact nofun
    · -- Every other name has no global or one without an alias.
      have hplain : ∀ g, entry t name = some g → g.alias_to = none := by
        intro g hg
        by_cases hreal : ∃ sym ∈ syms, (originalGlobal t₀ sym).defined = true ∧
            name = realName sym
        · obtain ⟨sym, hsym, hdef, rfl⟩ := hreal
          rw [hinv.real sym hsym hdef] at hg
          rw [← some_inj.mp hg]
        · have hentry := hinv.entry_getD hc hwrapped fun sym hsym hdef heq =>
            hreal ⟨sym, hsym, hdef, heq⟩
          rw [hg, getD_some] at hentry
          rw [hentry]
      refine ⟨1, fun fuel hfuel => ?_⟩
      cases hf : entry t name with
      | none =>
        unfold resolveGlobal
        cases hfind : findGlobal t name with
        | none => exact nofun
        | some p =>
          obtain ⟨a, -, -, ha⟩ := deref_findGlobal hfind
          exact absurd (hf.symm.trans ha) nofun
      | some g =>
        obtain ⟨global, alias_to⟩ := g
        obtain rfl : alias_to = none := hplain _ hf
        rw [resolveGlobal_plain hf fuel hfuel]
        exact nofun

/-! ### Room -/

/-- There is room exactly when the array does not move behind the first lookup. -/
theorem wrapRoom_iff (hc : Collected t) (hne : sym ≠ "") (syms : List String) :
    WrapRoom t (sym :: syms) ↔
      (lookups t (wrapLookups (sym :: syms))).block = (getGlobal t sym).1.block := by
  unfold WrapRoom
  rw [wrapLookups_cons hne]
  dsimp only [cons_append, nil_append]
  have hfits : (getGlobal t sym).1.items.length ≤ (getGlobal t sym).1.capacity :=
    Growing.get_fits (by decide) hc.fits _
  exact (Growing.getAll_block newGlobal_name hfits _).symm

/-- Empty names are left out. -/
theorem applyWraps_filter (t : LdGlobals) (syms : List String) :
    applyWraps t syms = applyWraps t (syms.filter (· ≠ "")) := by
  unfold applyWraps
  induction syms generalizing t with
  | nil => rfl
  | cons sym syms ih =>
    by_cases hne : sym = ""
    · subst hne
      rw [foldlM_cons, filter_cons_of_neg (by simp)]
      exact ih t
    · rw [filter_cons_of_pos (by simpa using hne), foldlM_cons, foldlM_cons]
      cases applyWrap t sym with
      | ok t' => exact ih t'
      | fail e => rfl
      | fault => rfl
      | stuck => rfl

theorem wrapLookups_filter (syms : List String) :
    wrapLookups (syms.filter (· ≠ "")) = wrapLookups syms := by
  simp [wrapLookups, List.filter_filter]

/-- Wraps that are right find room for their names. -/
theorem WrapsRight.room
    (hc : Collected t) (hn : WrapNames (sym :: syms)) (hnonempty : "" ∉ sym :: syms)
    (hnew : sym ∉ syms) (hrun : applyWraps t (sym :: syms) = .ok t')
    (hright : WrapsRight t t' (sym :: syms)) : WrapRoom t (sym :: syms) := by
  have hne : sym ≠ "" := fun h => hnonempty (h ▸ mem_cons_self)
  have hreal : sym ≠ realName sym := hn.no_real sym mem_cons_self sym mem_cons_self
  rw [wrapRoom_iff hc hne]
  have hall := (applyWraps_alike hn hnonempty (List.Subset.refl _) hrun).1
  unfold applyWraps at hrun
  rw [foldlM_cons] at hrun
  obtain ⟨t₁, hok, hrun⟩ := bind_eq_ok hrun
  have hblock := block_of_applyWrap hne hok
  obtain ⟨t₁', hok', halike, hentry⟩ := applyWrap_ok hne hreal hblock
  obtain rfl : t₁' = t₁ := ok.inj (hok'.symm.trans hok)
  rw [← hall.block, ← hblock, ← halike.block]
  -- The alias of the first wrap points into the block that the array is in behind it.
  have hfirst : entry t₁' sym = some ⟨originalGlobal t sym, findGlobal t₁' (wrapName sym)⟩ := by
    rw [hentry]
    exact if_pos rfl
  obtain ⟨q, hq⟩ : ∃ q, findGlobal t₁' (wrapName sym) = some q := by
    refine ne_none_iff_exists'.mp fun hnone => ?_
    rw [show findGlobal t₁' (wrapName sym) = _ from
      Growing.find_congr halike.keys halike.block _] at hnone
    have hlook := Growing.lookupKey_of_find_none hnone
    change entry (lookups t [sym, wrapName sym, realName sym]) (wrapName sym) = none at hlook
    rw [entry_lookups, if_pos (by simp)] at hlook
    cases hlook
  obtain ⟨g, hg, halias⟩ := (applyWraps_alike hn hnonempty
    (fun s hs => mem_cons_of_mem _ hs) hrun).2 sym hnew _ hfirst
  rw [hq] at halias
  -- It is followed where the array is in the end.
  obtain ⟨n, hresolve⟩ := hright.wrapped sym mem_cons_self hne
  have hresolve := hresolve (n + 2) (by omega)
  unfold resolveGlobal at hresolve
  cases hf : findGlobal t' sym with
  | none =>
    rw [hf] at hresolve
    cases hresolve
  | some p =>
    rw [hf] at hresolve
    obtain ⟨a, hderef, -, ha⟩ := deref_findGlobal hf
    cases hg.symm.trans ha
    obtain ⟨target, hfollow, -⟩ := bind_eq_ok hresolve
    rw [followAlias, hderef, ok_bind, halias] at hfollow
    obtain ⟨next, hnext, -⟩ := bind_eq_ok hfollow
    rw [← Growing.block_of_deref hnext, Growing.find_block hq]

/-- Wraps of names that are independent of each other are right when the array of globals has room
    for the names that they look up, and if no name is wrapped twice only then. -/
theorem applyWraps_iff {t : LdGlobals} {syms : List String} (hc : Collected t)
    (hn : WrapNames syms) :
    (WrapRoom t syms → ∃ t', applyWraps t syms = .ok t' ∧ WrapsRight t t' syms) ∧
      ((syms.filter (· ≠ "")).Nodup →
        (∃ t', applyWraps t syms = .ok t' ∧ WrapsRight t t' syms) → WrapRoom t syms) := by
  have hsub : syms.filter (· ≠ "") ⊆ syms := filter_subset_self _
  have hn' : WrapNames (syms.filter (· ≠ "")) :=
    ⟨fun s hs => hn.short s (hsub hs), fun s hs s' hs' => hn.no_wrap s (hsub hs) s' (hsub hs'),
      fun s hs s' hs' => hn.no_real s (hsub hs) s' (hsub hs')⟩
  have hnonempty : "" ∉ syms.filter (· ≠ "") := by simp
  have hroom : WrapRoom t syms ↔ WrapRoom t (syms.filter (· ≠ "")) := by
    unfold WrapRoom
    rw [wrapLookups_filter]
  have hright : ∀ t', WrapsRight t t' syms ↔ WrapsRight t t' (syms.filter (· ≠ "")) := by
    intro t'
    have hmem : ∀ sym, sym ≠ "" → sym ∈ syms → sym ∈ syms.filter (· ≠ "") :=
      fun sym hne hsym => mem_filter.mpr ⟨hsym, by simpa using hne⟩
    exact ⟨fun h => ⟨fun s hs => h.wrapped s (hsub hs), fun s hs => h.real s (hsub hs), h.ends⟩,
      fun h => ⟨fun s hs hne => h.wrapped s (hmem s hne hs) hne,
        fun s hs hne => h.real s (hmem s hne hs) hne, h.ends⟩⟩
  simp only [hroom, hright, applyWraps_filter t syms]
  generalize syms.filter (· ≠ "") = names at hn' hnonempty
  cases names with
  | nil =>
    refine ⟨fun _ => ⟨t, rfl, ?_⟩, fun _ _ => trivial⟩
    exact (WrapInv.start t).right hc hn' hnonempty
  | cons sym names =>
    have hne : sym ≠ "" := fun h => hnonempty (h ▸ mem_cons_self)
    refine ⟨fun h => ?_, fun hnodup ⟨t', hrun, hright⟩ => ?_⟩
    · rw [wrapRoom_iff hc hne, wrapLookups_cons hne, lookups_append] at h
      have hle : (getGlobal t sym).1.block ≤
          (lookups t [sym, wrapName sym, realName sym]).block :=
        Growing.block_le_getAll _ _ _ _
      have hle' : (lookups t [sym, wrapName sym, realName sym]).block ≤
          (lookups (lookups t [sym, wrapName sym, realName sym]) (wrapLookups names)).block :=
        Growing.block_le_getAll _ _ _ _
      obtain ⟨t₁, hok, halike, hinv⟩ := (WrapInv.start t).step hc hn' hnonempty
        (nil_subset _) mem_cons_self (by omega) (fun h => absurd rfl h)
      have hstay : (lookups t₁ (wrapLookups names)).block = t₁.block := by
        have hmoved : (lookups t₁ (wrapLookups names)).block =
            (lookups (lookups t [sym, wrapName sym, realName sym]) (wrapLookups names)).block :=
          (halike.getAll 64 newGlobal (wrapLookups names)).block
        rw [hmoved, halike.block]
        omega
      obtain ⟨t', hrun, hinv'⟩ := hinv.run hc hn' hnonempty (by simp) (by simp)
        (fun s hs => mem_cons_of_mem _ hs) hstay
      refine ⟨t', ?_, hinv'.right hc hn' hnonempty⟩
      unfold applyWraps at hrun ⊢
      rw [foldlM_cons, hok, ok_bind, hrun]
    · exact hright.room hc hn' hnonempty (nodup_cons.mp hnodup).1 hrun

/-! ### A full array -/

/-- `n` defined functions in an array with room for 64: names of different lengths. -/
def definedGlobals (n : Nat) : LdGlobals where
  items := (range n).map fun k =>
    { global := { name := String.ofList (replicate (k + 1) 'f'), defined := true } }
  capacity := 64
  block := 0

theorem definedGlobals_collected {n : Nat} (h : n ≤ 64) : Collected (definedGlobals n) := by
  refine ⟨?_, by simpa [definedGlobals] using h, ?_⟩
  · unfold Growing.keys definedGlobals
    rw [List.map_map]
    refine List.Nodup.map (fun i j hij => ?_) nodup_range
    have hlen := congrArg (fun s => (String.toList s).length) hij
    simpa [AliasedGlobal.name] using hlen
  · intro g hg
    obtain ⟨k, -, rfl⟩ := mem_map.mp hg
    rfl

theorem wrapNames_f : WrapNames ["f"] := by
  refine ⟨?_, ?_, ?_⟩ <;> simp <;> decide

/-- With one function there is room to wrap it. -/
theorem applyWraps_room :
    (WrapRoom (definedGlobals 1) ["f"] → ∃ t', applyWraps (definedGlobals 1) ["f"] = .ok t' ∧
        WrapsRight (definedGlobals 1) t' ["f"]) ∧
      ((["f"].filter (· ≠ "")).Nodup →
        (∃ t', applyWraps (definedGlobals 1) ["f"] = .ok t' ∧
          WrapsRight (definedGlobals 1) t' ["f"]) → WrapRoom (definedGlobals 1) ["f"]) :=
  applyWraps_iff (definedGlobals_collected (by decide)) wrapNames_f

/-- With 64 globals the array is full: the lookup of `__wrap_f` moves it, and the definition of `f`
    is read from the block before. -/
theorem applyWraps_full :
    Collected (definedGlobals 64) ∧ WrapNames ["f"] ∧
      ¬∃ t', applyWraps (definedGlobals 64) ["f"] = .ok t' ∧
        WrapsRight (definedGlobals 64) t' ["f"] := by
  refine ⟨definedGlobals_collected le_rfl, wrapNames_f, ?_⟩
  rintro ⟨t', hrun, -⟩
  unfold applyWraps at hrun
  rw [foldlM_cons] at hrun
  obtain ⟨t₁, hok, -⟩ := bind_eq_ok hrun
  have hmoved : (lookups (definedGlobals 64) ["f", wrapName "f", realName "f"]).block ≠
      (getGlobal (definedGlobals 64) "f").1.block := by decide
  exact hmoved (block_of_applyWrap (by decide) hok)

end MeuOS.Ld
