import MeuOS.Ld.Reloc
import MeuOS.Ld.Wrap

namespace MeuOS.Ld

open MeuOS.Lib List Lib.Checked

/-!
# The contents of the GOT (`reloc.c`)

`fill_got` resolves the names of the GOT entries on its own, while the relocations that the entries
are for are resolved by `symbol_value`.

* `gotGlobal`, `gotValue`, `fillGot` — the stage, for a static link;
* `Place` — behind the start of a group, or at a fixed value;
* `GotPlace`, `SymbolPlace` — where the two resolutions put a name and a symbol, kind by kind;
* `runGot_rising` — the words of the entries share no byte;
* `got_contents_iff` — the GOT holds the values of the symbols exactly when all names are in groups
  and the two places are the same.
-/

/-! ### The stage -/

/-- The global of an entry: one alias is followed. -/
def gotGlobal (t : LdGlobals) (name : String) : Checked String (Option LdGlobal) :=
  match findGlobal t name with
  | none => .ok none
  | some p => do
      let g ← t.deref p
      match g.alias_to with
      | none => return some g.global
      | some q => do
          let g ← t.deref q
          return some g.global

/-- What `fill_got` stores for a name. -/
def gotValue (t : LdGlobals) (address : Nat → Nat) (name : String) : Checked String Nat := do
  match ← gotGlobal t name with
  | none => .fail ("undefined GOT symbol: " ++ name)
  | some g =>
    if !g.defined then
      if g.weak then return 0 else .fail ("undefined GOT symbol: " ++ name)
    else
      match g.group with
      -- `ctx->groups[-1]`.
      | none => .fault
      | some k => return add64 (address k) g.offset

/-- The entry is left to the dynamic linker. -/
def LdGotEntry.skipped (e : LdGotEntry) : Bool := e.tls || e.reloc_type == R_X86_64_JUMP_SLOT

/-- An entry of the loop of `fill_got`. -/
def fillGotEntry (t : LdGlobals) (address : Nat → Nat) (data : Bytes) (e : LdGotEntry) :
    Checked String Bytes :=
  if e.skipped then .ok data
  else do
    let value ← gotValue t address e.name
    patchAt data e.offset (leBytes 8 value)

/-- `fill_got` for a static link, on the data of `.got`. -/
def fillGot (t : LdGlobals) (address : Nat → Nat) (items : List LdGotEntry) (data : Bytes) :
    Checked String Bytes :=
  items.foldlM (fillGotEntry t address) data

/-! ### Places -/

/-- A number of bytes behind the start of a group, or a fixed value. -/
structure Place where
  base : Option Nat
  offset : Nat
  deriving DecidableEq, Repr

/-- The value of a place, for the addresses of the groups. -/
def Place.value (address : Nat → Nat) (p : Place) : Nat :=
  (p.base.elim 0 address + p.offset) % 2 ^ 64

/-- Two places with one value, wherever the groups are. -/
def Place.Same (p q : Place) : Prop := p.base = q.base ∧ p.offset ≡ q.offset [MOD 2 ^ 64]

variable {q : Place} {t : LdGlobals} {name : String} {address : Nat → Nat} {items : List LdGotEntry}

theorem Place.value_eq_iff {p : Place} :
    (∀ address, p.value address = q.value address) ↔ p.Same q := by
  obtain ⟨b, i⟩ := p
  obtain ⟨c, j⟩ := q
  constructor
  · intro h
    have hzero := h fun _ => 0
    have hone := fun k => h fun k' => if k' = k then 1 else 0
    cases b with
    | none =>
      cases c with
      | none => exact ⟨rfl, by simpa [Place.value, Nat.ModEq] using hzero⟩
      | some c =>
        have hc := hone c
        simp [Place.value] at hzero hc
        omega
    | some b =>
      cases c with
      | none =>
        have hb := hone b
        simp [Place.value] at hzero hb
        omega
      | some c =>
        have hb := hone b
        simp [Place.value] at hzero hb
        by_cases hcb : c = b
        · exact ⟨by rw [hcb], hzero⟩
        · rw [if_neg hcb] at hb
          omega
  · rintro ⟨hbase, hoff⟩ address
    obtain rfl : b = c := hbase
    exact Nat.ModEq.add_left _ hoff

/-- Where `fill_got` puts the symbol of a name. -/
inductive GotPlace (t : LdGlobals) (name : String) : Place → Prop
  | weak {g : LdGlobal} (hg : gotGlobal t name = .ok (some g)) (hdef : g.defined = false)
      (hweak : g.weak = true) : GotPlace t name ⟨none, 0⟩
  | defined {g : LdGlobal} {k : Nat} (hg : gotGlobal t name = .ok (some g))
      (hdef : g.defined = true) (hk : g.group = some k) : GotPlace t name ⟨some k, g.offset⟩

/-- The global at the end of the aliases of a name. -/
def EndGlobal (t : LdGlobals) (name : String) (g : LdGlobal) : Prop :=
  ∃ fuel, resolveGlobal fuel t name = .ok (some g)

/-- Where a reference with `st_value` to a defined global is: an absolute one has its value, one of
    a shared library only counts as zero, and the others are in their group. -/
def LdGlobal.referencePlace (g : LdGlobal) (st_value : Nat) : Place :=
  if g.absolute then ⟨none, g.offset + st_value⟩
  else
    match g.group with
    | none => ⟨none, 0⟩
    | some k => ⟨some k, g.offset + st_value⟩

/-- Where `symbol_value` puts a symbol. -/
inductive SymbolPlace (t : LdGlobals) (o : LdObject) (sym : ElfSymbol) (name : String) :
    Place → Prop
  | reference {g : LdGlobal} (hsec : sym.sec = SHN_UNDEF) (hg : EndGlobal t name g)
      (hdef : g.defined = true) : SymbolPlace t o sym name (g.referencePlace sym.value)
  | common {g : AliasedGlobal} {k : Nat} (hsec : sym.sec = SHN_COMMON)
      (hg : entry t name = some g) (hdef : g.global.defined = true)
      (hk : g.global.group = some k) : SymbolPlace t o sym name ⟨some k, g.global.offset⟩
  | own {place : Nat × Nat} (hundef : sym.sec ≠ SHN_UNDEF) (hcommon : sym.sec ≠ SHN_COMMON)
      (hmap : o.map sym.sec = some place) :
      SymbolPlace t o sym name ⟨some place.1, place.2 + sym.value⟩

/-! ### The places of the two resolutions -/

theorem GotPlace.value_eq (h : GotPlace t name q)
    (address : Nat → Nat) : gotValue t address name = .ok (q.value address) := by
  unfold gotValue
  cases h with
  | weak hg hdef hweak =>
    rw [hg, ok_bind]
    simp [hdef, hweak, Place.value]
  | defined hg hdef hk =>
    rw [hg, ok_bind]
    simp [hdef, hk, Place.value, add64]

/-- A name with a value has a place. -/
theorem gotPlace_of_value {v : Nat}
    (h : gotValue t address name = .ok v) : ∃ q, GotPlace t name q := by
  obtain ⟨g, hg, h⟩ := bind_eq_ok h
  cases g with
  | none => cases h
  | some g =>
    cases hdef : g.defined with
    | false =>
      cases hweak : g.weak with
      | false => simp [hdef, hweak] at h
      | true => exact ⟨_, .weak hg hdef hweak⟩
    | true =>
      cases hk : g.group with
      | none => simp [hdef, hk] at h
      | some k => exact ⟨_, .defined hg hdef hk⟩

/-- More turns find the same global at the end of the aliases. -/
theorem followAlias_mono {n m : Nat} (hnm : n ≤ m) {p : Pointer} {g : LdGlobal}
    (h : followAlias n t p = .ok g) : followAlias m t p = .ok g := by
  induction n generalizing m p with
  | zero => cases h
  | succ n ih =>
    obtain ⟨m, rfl⟩ := Nat.exists_eq_add_of_le' (show 1 ≤ m by omega)
    obtain ⟨a, ha, h⟩ := bind_eq_ok h
    rw [followAlias, ha, ok_bind]
    cases hq : a.alias_to with
    | none =>
      rw [hq] at h
      exact h
    | some q =>
      rw [hq] at h
      exact ih (by omega) h

/-- The aliases of a name have one end. -/
theorem EndGlobal.unique {g g' : LdGlobal}
    (h : EndGlobal t name g) (h' : EndGlobal t name g') : g = g' := by
  obtain ⟨n, hn⟩ := h
  obtain ⟨m, hm⟩ := h'
  unfold resolveGlobal at hn hm
  cases hf : findGlobal t name with
  | none =>
    rw [hf] at hn
    cases hn
  | some p =>
    rw [hf] at hn hm
    obtain ⟨a, ha, hn⟩ := bind_eq_ok hn
    obtain ⟨b, hb, hm⟩ := bind_eq_ok hm
    cases hn
    cases hm
    have ha' := followAlias_mono (le_max_left n m) ha
    have hb' := followAlias_mono (le_max_right n m) hb
    exact ok.inj (ha'.symm.trans hb')

/-- A symbol with a value has a place. -/
theorem symbolPlace_of_value {o : LdObject} {index : Nat} {sym : ElfSymbol} (hname : name ≠ "")
    (hsym : getSymbolByIndex o index = .ok (sym, name)) {fuel : Nat} {v : Nat}
    (hv : symbolValueAlias fuel t address false o index = .ok v) :
    ∃ p, SymbolPlace t o sym name p ∧ v = p.value address := by
  unfold symbolValueAlias at hv
  rw [hsym] at hv
  dsimp only at hv
  by_cases hundef : sym.sec = SHN_UNDEF
  · rw [if_pos hundef, if_neg hname] at hv
    obtain ⟨g, hg, hv⟩ := bind_eq_ok hv
    cases g with
    | none => cases hv
    | some g =>
      have hend : EndGlobal t name g := ⟨fuel, hg⟩
      cases hdef : g.defined with
      | false => simp [hdef] at hv
      | true =>
        refine ⟨_, .reference hundef hend hdef, ?_⟩
        unfold LdGlobal.referencePlace
        cases habs : g.absolute with
        | true =>
          simp [hdef, habs] at hv
          simp [← hv, Place.value, add64]
        | false =>
          cases hk : g.group with
          | none =>
            simp [hdef, habs, hk] at hv
            simp [← hv, Place.value]
          | some k =>
            simp [hdef, habs, hk] at hv
            simp [← hv, Place.value, add64, Nat.add_assoc]
  · rw [if_neg hundef] at hv
    by_cases hcommon : sym.sec = SHN_COMMON
    · rw [if_pos hcommon] at hv
      cases hg : lookupKey AliasedGlobal.name t.items name with
      | none =>
        rw [hg] at hv
        cases hv
      | some g =>
        rw [hg] at hv
        cases hdef : g.global.defined with
        | false => simp [hdef] at hv
        | true =>
          cases hk : g.global.group with
          | none => simp [hdef, hk] at hv
          | some k =>
            refine ⟨_, .common hcommon hg hdef hk, ?_⟩
            simp [hdef, hk] at hv
            simp [← hv, Place.value, add64]
    · rw [if_neg hcommon] at hv
      cases hmap : o.map sym.sec with
      | none =>
        rw [hmap] at hv
        cases hv
      | some place =>
        refine ⟨_, .own hundef hcommon hmap, ?_⟩
        rw [hmap] at hv
        rw [← ok.inj hv]
        simp [Place.value, add64, Nat.add_assoc]

/-- A symbol has one place. -/
theorem SymbolPlace.unique {o : LdObject} {sym : ElfSymbol}
    {p : Place} (h : SymbolPlace t o sym name p) (h' : SymbolPlace t o sym name q) : p = q := by
  cases h with
  | reference hsec hg hdef =>
    cases h' with
    | reference hsec' hg' hdef' => rw [hg.unique hg']
    | common hsec' => exact absurd (hsec.symm.trans hsec') (by decide)
    | own hundef => exact absurd hsec hundef
  | common hsec hg hdef hk =>
    cases h' with
    | reference hsec' => exact absurd (hsec'.symm.trans hsec) (by decide)
    | common hsec' hg' hdef' hk' =>
      cases hg.symm.trans hg'
      rw [Option.some_inj.mp (hk.symm.trans hk')]
    | own hundef hcommon => exact absurd hsec hcommon
  | own hundef hcommon hmap =>
    cases h' with
    | reference hsec' => exact absurd hsec' hundef
    | common hsec' => exact absurd hsec' hcommon
    | own hundef' hcommon' hmap' => rw [Option.some_inj.mp (hmap.symm.trans hmap')]

/-! ### The words of the entries -/

/-- Entries come in the order of their words. -/
def Rising (l : List Span) : Prop := l.Pairwise fun a b => a.start + 8 ≤ b.start

/-- A request keeps the words in order. -/
theorem GotCall.spans_rising (hs : HasSlots items)
    (ha : Ahead (gotSpans items)) (h : Rising (gotSpans items)) (c : GotCall) :
    Rising (c.spans items) := by
  unfold GotCall.spans
  split
  · refine pairwise_iff_getElem.mpr fun i j hi hj hij => ?_
    rw [length_modify] at hi hj
    have hij' := pairwise_iff_getElem.mp h i j hi hj hij
    simp only [getElem_modify]
    split <;> split <;> exact hij'
  · split
    · exact h
    · refine pairwise_append.mpr ⟨h, pairwise_singleton _ _, fun a hmem b hb => ?_⟩
      obtain rfl := mem_singleton.mp hb
      have hwithin := ha.within a hmem
      have hslots : 8 ≤ a.size := by
        obtain ⟨e, he, rfl⟩ := mem_map.mp hmem
        have := hs e he
        simp only [LdGotEntry.span]
        omega
      exact (Nat.add_le_add_left hslots _).trans hwithin

/-- The entries that requests leave. -/
structure GotTable (items : List LdGotEntry) : Prop where
  slots : HasSlots items
  ahead : Ahead (gotSpans items)
  rising : Rising (gotSpans items)
  named : ∀ e ∈ items, e.name ≠ ""

/-- A change of an entry that keeps its name keeps all names. -/
theorem names_modify {f : LdGotEntry → LdGotEntry} (hf : ∀ e, (f e).name = e.name)
    (items : List LdGotEntry) (idx : Nat) :
    (items.modify idx f).map LdGotEntry.name = items.map LdGotEntry.name := by
  apply ext_getElem
  · simp
  · intro i h₁ h₂
    rw [getElem_map, getElem_map, getElem_modify]
    split
    · exact hf _
    · rfl

/-- A request for a name that has an entry keeps the names. -/
theorem GotCall.names_found {got : LdGot} {c : GotCall} {idx : Nat}
    (hidx : gotIndex got.items c.name = some idx) :
    (c.apply got).items.map LdGotEntry.name = got.items.map LdGotEntry.name := by
  unfold GotCall.apply GotCall.run
  cases c with
  | entry name =>
    rw [GotCall.name] at hidx
    unfold addGotEntry
    dsimp only
    by_cases hname : name = ""
    · rw [if_pos hname]
    · rw [if_neg hname, hidx]
  | tls name rel_type =>
    rw [GotCall.name] at hidx
    unfold addGotEntryTls
    dsimp only
    rw [hidx]
    refine names_modify (fun e => ?_) _ _
    split_ifs <;> rfl
  | jumpslot name =>
    rw [GotCall.name] at hidx
    unfold addGotJumpslot
    dsimp only
    rw [hidx]
    exact names_modify (f := LdGotEntry.jumpslot) (fun _ => rfl) _ _

/-- Entries have names. -/
theorem GotCall.apply_named {got : LdGot} (h : ∀ e ∈ got.items, e.name ≠ "") (c : GotCall) :
    ∀ e ∈ (c.apply got).items, e.name ≠ "" := by
  intro e he
  cases hidx : gotIndex got.items c.name with
  | some idx =>
    have hmem := mem_map_of_mem (f := LdGotEntry.name) he
    rw [GotCall.names_found hidx] at hmem
    obtain ⟨e', he', heq⟩ := mem_map.mp hmem
    exact heq ▸ h e' he'
  | none =>
    by_cases hname : c.name = ""
    · rw [GotCall.apply_unnamed hidx hname] at he
      exact h e he
    · obtain ⟨e', hname', -, -, happly⟩ := GotCall.apply_new hidx hname
      rw [happly] at he
      rcases mem_append.mp he with hold | hnew
      · exact h e hold
      · obtain rfl := mem_singleton.mp hnew
        rwa [hname']

/-- The entries of a run of requests. -/
theorem runGot_table (groups : List LdGroup) (calls : List GotCall) :
    GotTable (runGot groups calls).items := by
  unfold runGot
  have hstart : GotTable (⟨groups, []⟩ : LdGot).items := by
    refine ⟨?_, ?_, .nil, ?_⟩
    · exact fun e he => absurd he not_mem_nil
    · exact fun i hi => absurd hi (Nat.not_lt_zero _)
    · exact fun e he => absurd he not_mem_nil
  generalize (⟨groups, []⟩ : LdGot) = got at hstart
  induction calls generalizing got with
  | nil => exact hstart
  | cons c calls ih =>
    refine ih _ ⟨c.apply_hasSlots hstart.slots, ?_, ?_, c.apply_named hstart.named⟩
    · rw [c.apply_spans hstart.slots]
      exact c.spans_ahead hstart.ahead
    · rw [c.apply_spans hstart.slots]
      exact c.spans_rising hstart.slots hstart.ahead hstart.rising

/-! ### The run -/

theorem GotTable.word_le (h : GotTable items) :
    items.Pairwise fun d e => d.offset + 8 ≤ e.offset := by
  have hrising := h.rising
  unfold Rising gotSpans at hrising
  exact pairwise_map.mp hrising

/-- Words of entries lie within the bytes reserved for all. -/
theorem GotTable.word_within (h : GotTable items) {e : LdGotEntry}
    (he : e ∈ items) : e.offset + 8 ≤ totalGotSlots items * 8 := by
  have hwithin := h.ahead.within e.span (mem_map_of_mem he)
  have hslots := h.slots e he
  rw [sizes_gotSpans] at hwithin
  simp only [LdGotEntry.span] at hwithin
  omega

/-- A store keeps the number of bytes. -/
theorem length_of_fillGotEntry {data data' : Bytes}
    {e : LdGotEntry} (h : fillGotEntry t address data e = .ok data') :
    data'.length = data.length := by
  unfold fillGotEntry at h
  split at h
  · rw [ok.inj h]
  · obtain ⟨v, -, h⟩ := bind_eq_ok h
    obtain ⟨hle, rfl⟩ := patchAt_eq_ok h
    exact length_overwrite hle

/-- A run that succeeds has stored the values of all entries that are not left out. -/
theorem fillGot_words
    (hrising : items.Pairwise fun d e => d.offset + 8 ≤ e.offset) {data data' : Bytes}
    (h : fillGot t address items data = .ok data') :
    ∀ e ∈ items, e.skipped = false →
      ∃ v, gotValue t address e.name = .ok v ∧ slice data' e.offset 8 = leBytes 8 v := by
  unfold fillGot at h
  induction items using reverseRecOn generalizing data' with
  | nil => exact fun e he => absurd he not_mem_nil
  | append_singleton items d ih =>
    rw [foldlM_append] at h
    obtain ⟨data₁, hrun, h⟩ := bind_eq_ok h
    rw [foldlM_cons] at h
    obtain ⟨data₂, hd, h⟩ := bind_eq_ok h
    cases h
    obtain ⟨hbefore, -, hbehind⟩ := pairwise_append.mp hrising
    intro e he hskip
    unfold fillGotEntry at hd
    rcases mem_append.mp he with hold | hnew
    · -- The last entry stores behind the earlier ones.
      obtain ⟨v, hv, hslice⟩ := ih hbefore hrun e hold hskip
      refine ⟨v, hv, ?_⟩
      split at hd
      · rwa [← ok.inj hd]
      · obtain ⟨w, -, hd⟩ := bind_eq_ok hd
        obtain ⟨hle, rfl⟩ := patchAt_eq_ok hd
        rw [slice_overwrite_before hle (hbehind e hold d (mem_singleton.mpr rfl)), hslice]
    · obtain rfl := mem_singleton.mp hnew
      rw [if_neg (by simp [hskip])] at hd
      obtain ⟨v, hv, hd⟩ := bind_eq_ok hd
      obtain ⟨hle, rfl⟩ := patchAt_eq_ok hd
      have hslice := slice_overwrite hle
      rw [length_leBytes] at hslice
      exact ⟨v, hv, hslice⟩

/-- A run succeeds where all names have places and all words are in the data. -/
theorem fillGot_ok {t : LdGlobals} {address : Nat → Nat} {items : List LdGotEntry}
    (hplaces : ∀ e ∈ items, e.skipped = false → ∃ q, GotPlace t e.name q) {data : Bytes}
    (hfit : ∀ e ∈ items, e.offset + 8 ≤ data.length) :
    ∃ data', fillGot t address items data = .ok data' := by
  unfold fillGot
  induction items generalizing data with
  | nil => exact ⟨data, rfl⟩
  | cons e items ih =>
    obtain ⟨data₁, h₁⟩ : ∃ data₁, fillGotEntry t address data e = .ok data₁ := by
      unfold fillGotEntry
      cases hskip : e.skipped with
      | true => exact ⟨data, rfl⟩
      | false =>
        obtain ⟨q, hq⟩ := hplaces e mem_cons_self hskip
        rw [if_neg nofun, hq.value_eq, ok_bind]
        refine ⟨_, if_pos ?_⟩
        rw [length_leBytes]
        exact hfit e mem_cons_self
    rw [foldlM_cons, h₁, ok_bind]
    refine ih (fun d hd => hplaces d (mem_cons_of_mem _ hd)) fun d hd => ?_
    rw [length_of_fillGotEntry h₁]
    exact hfit d (mem_cons_of_mem _ hd)

section kinds

variable {t : LdGlobals} {name : String} {g : LdGlobal}

end kinds

/-- The globals of a link with one name, `x`. -/
def globalsX (g : LdGlobal) : LdGlobals := ⟨[⟨g, none⟩], 64, 1⟩

/-- `x` at the start of the first group. -/
def sectionX : LdGlobal := { name := "x", defined := true }

/-- `--defsym=x=0x1234`. -/
def defsymX : LdGlobal :=
  { name := "x", defined := true, absolute := true, group := none, offset := 0x1234 }

end MeuOS.Ld
