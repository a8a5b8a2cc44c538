import MeuOS.Ld.Archive

namespace MeuOS.Ld

open MeuOS.Lib List Option

/-!
# Runs of archive extraction

`extract_archives` keeps no set of visited members: it relies on a member that was taken not
being needed again.

* `Scan` — the members a run scans, with the state in front of each;
* `Rescans` — a taken member is asked for again, which only its COMMON symbols can do;
* `ExtractInv` — members are taken once, and what a taken member defines is defined;
* `extractArchives_closed` — a run without such a scan ends, takes every member at most once
  and, when it succeeds, ends closed;
* `extractArchives_common_loops` — a member with one COMMON symbol on which the loop never
  ends.
-/

/-! ### Runs -/

/-- Member `k` of archive `i`. -/
def memberAt (archives : List Archive) (i k : Nat) : Option ArMember :=
  ((archives[i]?).bind (·.members)).bind (·[k]?)

/-- The run from `ctx₀` comes in state `ctx` to member `k` of archive `i`, or to the end of the
    archive or of the round; `changed` tells whether the round has taken a member. -/
inductive Scan (archives : List Archive) (ctx₀ : LdContext) :
    LdContext → Nat → Nat → Bool → Prop
  | start : Scan archives ctx₀ ctx₀ 0 0 false
  | member {ctx ctx' : LdContext} {i k : Nat} {changed added : Bool} {a : Archive}
      {ms : List ArMember} {m : ArMember} (hscan : Scan archives ctx₀ ctx i k changed)
      (ha : archives[i]? = some a) (hms : a.members = some ms) (hm : ms[k]? = some m)
      (hok : extractArchiveMember a.path i k m ctx = .ok (ctx', added)) :
      Scan archives ctx₀ ctx' i (k + 1) (changed || added)
  | archive {ctx : LdContext} {i : Nat} {changed : Bool} {a : Archive} {ms : List ArMember}
      (hscan : Scan archives ctx₀ ctx i ms.length changed) (ha : archives[i]? = some a)
      (hms : a.members = some ms) : Scan archives ctx₀ ctx (i + 1) 0 changed
  | round {ctx : LdContext} (hscan : Scan archives ctx₀ ctx archives.length 0 true) :
      Scan archives ctx₀ ctx 0 0 false

/-- The member was taken before, and one of its COMMON symbols names an undefined global. -/
def Rescans (archives : List Archive) (ctx : LdContext) (i k : Nat) : Prop :=
  (i, k) ∈ taken ctx.objects ∧ ∃ m o sym name, memberAt archives i k = some m ∧
    m.data = some o ∧ o.Declares sym name ∧ sym.isCommon ∧ ctx.globals.Undefined name

/-- The members taken are distinct members of the archives, and everything they define outside
    COMMON is defined. -/
structure ExtractInv (archives : List Archive) (ctx : LdContext) : Prop where
  nodup : (taken ctx.objects).Nodup
  defined : ∀ p ∈ taken ctx.objects, ∃ m o, memberAt archives p.1 p.2 = some m ∧
    m.data = some o ∧ DefinedBy ctx.globals o

variable {archives : List Archive} {ctx ctx' : LdContext} {i k : Nat} {m : ArMember} {path : String}
  {f : LdFail} {a : Archive} {ms rest : List ArMember} {changed added : Bool}

/-- A name cannot be defined and undefined. -/
theorem GlobalTable.not_undefined {t : GlobalTable} {name : String} (h : t.Defines name) :
    ¬t.Undefined name := by
  rintro ⟨g, hg, hund⟩
  obtain ⟨g', hg', hdef⟩ := h
  rw [hg] at hg'
  rw [← some.inj hg', hund] at hdef
  cases hdef

/-- A taken member that is needed is so for a COMMON symbol. -/
theorem rescans_of_needed
    {o : ElfObject} (hinv : ExtractInv archives ctx) (hmem : memberAt archives i k = some m)
    (hm : m.data = some o)
    (hneed : archiveMemberNeeded ctx.target ctx.globals o = some true)
    (htaken : (i, k) ∈ taken ctx.objects) : Rescans archives ctx i k := by
  obtain ⟨m', o', hmem', hm', hdefs⟩ := hinv.defined _ htaken
  obtain rfl : m = m' := some.inj (hmem.symm.trans hmem')
  obtain rfl : o = o' := some.inj (hm.symm.trans hm')
  obtain ⟨-, sym, name, hd, hsec, hund⟩ := archiveMemberNeeded_true hneed
  refine ⟨htaken, m, o, sym, name, hmem, hm, hd, ?_, hund⟩
  by_contra hcommon
  -- Outside COMMON the member's own symbol has defined the name.
  have hname : name ≠ "" := by
    rintro rfl
    obtain ⟨g, hg, -⟩ := hund
    rw [GlobalTable.find_empty] at hg
    cases hg
  have hdef : sym.isDefined := by
    unfold ElfSymbol.isDefined
    simp only [ElfSymbol.isCommon, beq_iff_eq] at hcommon
    simp [hsec, hcommon]
  exact GlobalTable.not_undefined (hdefs sym name hd hname hdef) hund

/-- One successful call keeps the invariant, when it is no rescan. -/
theorem ExtractInv.step {archives : List Archive} {ctx ctx' : LdContext} {path : String}
    {i k : Nat} {m : ArMember} {added : Bool} (hinv : ExtractInv archives ctx)
    (hmem : memberAt archives i k = some m) (hno : ¬Rescans archives ctx i k)
    (hok : extractArchiveMember path i k m ctx = .ok (ctx', added)) :
    ExtractInv archives ctx' := by
  rcases extractArchiveMember_ok hok with ⟨-, rfl, -⟩ | ⟨-, o, hm, hneed, -, htaken, hmono, hdef⟩
  · exact hinv
  · have hnew : (i, k) ∉ taken ctx.objects :=
      fun ht => hno (rescans_of_needed hinv hmem hm hneed ht)
    constructor
    · rw [htaken, nodup_append]
      refine ⟨hinv.nodup, by simp, fun p hp q hq hpq => hnew ?_⟩
      rw [mem_singleton] at hq
      rwa [← hq, ← hpq]
    · intro p hp
      rw [htaken, mem_append, mem_singleton] at hp
      rcases hp with hp | rfl
      · obtain ⟨m', o', hmem', hm', hdefs⟩ := hinv.defined p hp
        exact ⟨m', o', hmem', hm',
          fun sym name hd hname hs => hmono name (hdefs sym name hd hname hs)⟩
      · exact ⟨m, o, hmem, hm, hdef⟩

/-- A failing call takes no member twice, when it is no rescan. -/
theorem ExtractInv.step_error (hinv : ExtractInv archives ctx)
    (hmem : memberAt archives i k = some m) (hno : ¬Rescans archives ctx i k)
    (herr : extractArchiveMember path i k m ctx = .error f) : (taken f.objects).Nodup := by
  rcases extractArchiveMember_error herr with hsame | ⟨htaken, o, hm, hneed⟩
  · rw [hsame]
    exact hinv.nodup
  · rw [htaken, nodup_append]
    refine ⟨hinv.nodup, by simp, fun p hp q hq hpq => ?_⟩
    rw [mem_singleton] at hq
    subst hq hpq
    exact hno (rescans_of_needed hinv hmem hm hneed hp)

/-- No scan of the run from `ctx₀` is a rescan. -/
def NoRescan (archives : List Archive) (ctx₀ : LdContext) : Prop :=
  ∀ ctx i k changed, Scan archives ctx₀ ctx i k changed → ¬Rescans archives ctx i k

theorem memberAt_eq (ha : archives[i]? = some a) (hms : a.members = some ms) :
    memberAt archives i k = ms[k]? := by
  unfold memberAt
  rw [ha, bind_some, hms, bind_some]

/-- In a run without rescans every state has the invariant. -/
theorem Scan.inv {ctx₀ : LdContext} (h0 : taken ctx₀.objects = []) (hno : NoRescan archives ctx₀)
    (h : Scan archives ctx₀ ctx i k changed) : ExtractInv archives ctx := by
  induction h with
  | start =>
    refine ⟨?_, fun p hp => ?_⟩
    · rw [h0]
      exact nodup_nil
    · rw [h0] at hp
      cases hp
  | member hscan ha hms hm hok ih =>
    exact ih.step ((memberAt_eq ha hms).trans hm) (hno _ _ _ _ hscan) hok
  | archive _ _ _ ih => exact ih
  | round _ ih => exact ih

/-! ### The loops -/

/-- The first element of what is left of a list, and what is left behind it. -/
theorem of_drop_eq_cons {α : Type*} {l rest : List α} {a : α}
    (h : l.drop k = a :: rest) : k < l.length ∧ l[k]? = some a ∧ l.drop (k + 1) = rest := by
  have hlt : k < l.length := by
    by_contra hge
    rw [drop_eq_nil_of_le (by omega)] at h
    cases h
  rw [drop_eq_getElem_cons hlt, cons.injEq] at h
  exact ⟨hlt, by rw [getElem?_eq_getElem hlt, h.1], h.2⟩

section Loops

variable {archives : List Archive} {ctx₀ : LdContext}

/-- The members loop is a stretch of the run up to the end of the archive. -/
theorem Scan.foreachMember {base : Bool} (ha : archives[i]? = some a) (hms : a.members = some ms)
    {added' : Bool} (hrest : ms.drop k = rest) (hk : k ≤ ms.length)
    (h : Scan archives ctx₀ ctx i k (base || added))
    (hok : foreachMember a.path i rest k ctx added = .ok (ctx', added')) :
    Scan archives ctx₀ ctx' i ms.length (base || added') := by
  induction rest generalizing k ctx added with
  | nil =>
    cases hok
    have hlen : ms.length ≤ k := drop_eq_nil_iff.mp hrest
    rwa [show ms.length = k by omega]
  | cons m rest ih =>
    obtain ⟨hlt, hm, hdrop⟩ := of_drop_eq_cons hrest
    unfold MeuOS.Ld.foreachMember at hok
    split at hok
    · cases hok
    · rename_i ctx1 a1 hstep
      apply ih hdrop hlt ?_ hok
      rw [← Bool.or_assoc]
      exact h.member ha hms hm hstep

/-- A failing members loop fails at a member the run has come to. -/
theorem Scan.foreachMember_error {base : Bool}
    (ha : archives[i]? = some a) (hms : a.members = some ms) (hrest : ms.drop k = rest)
    (h0 : taken ctx₀.objects = []) (hno : NoRescan archives ctx₀)
    (h : Scan archives ctx₀ ctx i k (base || added))
    (herr : MeuOS.Ld.foreachMember a.path i rest k ctx added = .error f) :
    (taken f.objects).Nodup := by
  induction rest generalizing k ctx added with
  | nil => cases herr
  | cons m rest ih =>
    obtain ⟨-, hm, hdrop⟩ := of_drop_eq_cons hrest
    unfold MeuOS.Ld.foreachMember at herr
    split at herr
    · rename_i hstep
      rw [← Except.error.inj herr]
      exact (h.inv h0 hno).step_error ((memberAt_eq ha hms).trans hm) (hno _ _ _ _ h) hstep
    · rename_i ctx1 a1 hstep
      apply ih hdrop ?_ herr
      rw [← Bool.or_assoc]
      exact h.member ha hms hm hstep

/-- A round is a stretch of the run up to the end of the archives. -/
theorem Scan.foreachArchive {rest : List Archive}
    {changed' : Bool} (hrest : archives.drop i = rest) (hi : i ≤ archives.length)
    (h : Scan archives ctx₀ ctx i 0 changed)
    (hok : foreachArchive rest i ctx changed = .ok (ctx', changed')) :
    Scan archives ctx₀ ctx' archives.length 0 changed' := by
  induction rest generalizing i ctx changed with
  | nil =>
    cases hok
    have hlen : archives.length ≤ i := drop_eq_nil_iff.mp hrest
    rwa [show archives.length = i by omega]
  | cons a rest ih =>
    obtain ⟨hlt, ha, hdrop⟩ := of_drop_eq_cons hrest
    unfold MeuOS.Ld.foreachArchive at hok
    split at hok
    · cases hok
    · rename_i ms hms
      split at hok
      · cases hok
      · rename_i ctx1 added hmem
        have hend := Scan.foreachMember ha hms drop_zero (Nat.zero_le _)
          (show Scan archives ctx₀ ctx i 0 (changed || false) by rwa [Bool.or_false]) hmem
        exact ih hdrop hlt (hend.archive ha hms) hok

/-- A failing round takes no member twice. -/
theorem Scan.foreachArchive_error {rest : List Archive} (hrest : archives.drop i = rest)
    (h0 : taken ctx₀.objects = []) (hno : NoRescan archives ctx₀)
    (h : Scan archives ctx₀ ctx i 0 changed)
    (herr : MeuOS.Ld.foreachArchive rest i ctx changed = .error f) : (taken f.objects).Nodup := by
  induction rest generalizing i ctx changed with
  | nil => cases herr
  | cons a rest ih =>
    obtain ⟨-, ha, hdrop⟩ := of_drop_eq_cons hrest
    have h' : Scan archives ctx₀ ctx i 0 (changed || false) := by rwa [Bool.or_false]
    unfold MeuOS.Ld.foreachArchive at herr
    split at herr
    · rw [← Except.error.inj herr]
      exact (h.inv h0 hno).nodup
    · rename_i ms hms
      split at herr
      · rename_i f1 hmem
        rw [← Except.error.inj herr]
        show (taken f1.objects).Nodup
        exact Scan.foreachMember_error ha hms drop_zero h0 hno h' hmem
      · rename_i ctx1 added hmem
        have hend := Scan.foreachMember ha hms drop_zero (Nat.zero_le _) h' hmem
        exact ih hdrop (hend.archive ha hms) herr

end Loops

/-! ### Closedness and termination -/

/-- The scan of a member finds no undefined name that it defines. -/
def NotNeeded (ctx : LdContext) (m : ArMember) : Prop :=
  ∀ o, m.data = some o → archiveMemberNeeded ctx.target ctx.globals o = some false

/-- A members loop that ends without a taken member has changed nothing and needs none of the
    members. -/
theorem foreachMember_unchanged (hok : foreachMember path i rest k ctx added = .ok (ctx', false)) :
    ctx' = ctx ∧ added = false ∧ ∀ m ∈ rest, NotNeeded ctx m := by
  induction rest generalizing k ctx added with
  | nil =>
    cases hok
    exact ⟨rfl, rfl, fun m hm => by cases hm⟩
  | cons m rest ih =>
    unfold foreachMember at hok
    split at hok
    · cases hok
    · rename_i ctx1 a1 hstep
      obtain ⟨rfl, hadded, hnot⟩ := ih hok
      rw [Bool.or_eq_false_iff] at hadded
      obtain ⟨rfl, rfl⟩ := hadded
      rcases extractArchiveMember_ok hstep with ⟨-, rfl, hm⟩ | ⟨hfalse, -⟩
      · refine ⟨rfl, rfl, fun m' hm' => ?_⟩
        rcases mem_cons.mp hm' with rfl | hm'
        · exact hm
        · exact hnot m' hm'
      · cases hfalse

/-- A round that ends without a taken member has changed nothing and needs none of the
    members. -/
theorem foreachArchive_unchanged {rest : List Archive}
    (hok : foreachArchive rest i ctx changed = .ok (ctx', false)) :
    ctx' = ctx ∧ changed = false ∧
      ∀ a ∈ rest, ∀ ms, a.members = some ms → ∀ m ∈ ms, NotNeeded ctx m := by
  induction rest generalizing i ctx changed with
  | nil =>
    cases hok
    exact ⟨rfl, rfl, fun a ha => by cases ha⟩
  | cons a rest ih =>
    unfold foreachArchive at hok
    split at hok
    · cases hok
    · rename_i ms hms
      split at hok
      · cases hok
      · rename_i ctx1 added hmem
        obtain ⟨rfl, hchanged, hnot⟩ := ih hok
        rw [Bool.or_eq_false_iff] at hchanged
        obtain ⟨rfl, rfl⟩ := hchanged
        obtain ⟨rfl, -, hm⟩ := foreachMember_unchanged hmem
        refine ⟨rfl, rfl, fun a' ha' ms' hms' => ?_⟩
        rcases mem_cons.mp ha' with rfl | ha'
        · rw [hms] at hms'
          rw [← some.inj hms']
          exact hm
        · exact hnot a' ha' ms' hms'

/-- A members loop only adds to the members taken, and adds one when it says so. -/
theorem foreachMember_taken {added' : Bool}
    (hok : foreachMember path i rest k ctx added = .ok (ctx', added')) :
    (taken ctx.objects).length + added'.toNat ≤ (taken ctx'.objects).length + added.toNat := by
  induction rest generalizing k ctx added with
  | nil =>
    cases hok
    exact le_rfl
  | cons m rest ih =>
    unfold foreachMember at hok
    split at hok
    · cases hok
    · rename_i ctx1 a1 hstep
      have hrest := ih hok
      rcases extractArchiveMember_ok hstep with ⟨rfl, rfl, -⟩ | ⟨rfl, o, -, -, -, htaken, -⟩
      · rwa [Bool.or_false] at hrest
      · rw [htaken, length_append, length_singleton, Bool.or_true] at hrest
        have htrue : true.toNat = 1 := rfl
        omega

/-- A round only adds to the members taken, and adds one when it says so. -/
theorem foreachArchive_taken {rest : List Archive}
    {changed' : Bool} (hok : foreachArchive rest i ctx changed = .ok (ctx', changed')) :
    (taken ctx.objects).length + changed'.toNat
      ≤ (taken ctx'.objects).length + changed.toNat := by
  induction rest generalizing i ctx changed with
  | nil =>
    cases hok
    exact le_rfl
  | cons a rest ih =>
    unfold foreachArchive at hok
    split at hok
    · cases hok
    · split at hok
      · cases hok
      · rename_i ctx1 added hmem
        have hhead := foreachMember_taken hmem
        have hrest := ih hok
        rw [show false.toNat = 0 from rfl] at hhead
        cases changed <;> cases added <;> simp at hhead hrest ⊢ <;> omega

/-- The places of all members. -/
def positions (archives : List Archive) : List (Nat × Nat) :=
  (range archives.length).flatMap fun i =>
    (range (((archives[i]?).bind (·.members)).getD []).length).map (Prod.mk i)

/-- Members stand at such places. -/
theorem mem_positions (h : memberAt archives i k = some m) : (i, k) ∈ positions archives := by
  unfold memberAt at h
  rw [bind_eq_some_iff] at h
  obtain ⟨ms, hms, hk⟩ := h
  have hi : i < archives.length := by
    by_contra hge
    rw [getElem?_eq_none (by omega)] at hms
    cases hms
  refine mem_flatMap.mpr ⟨i, mem_range.mpr hi, mem_map.mpr ⟨k, ?_, rfl⟩⟩
  rw [mem_range, hms, getD_some]
  exact (List.getElem?_eq_some_iff.mp hk).1

theorem ExtractInv.taken_le (hinv : ExtractInv archives ctx) :
    (taken ctx.objects).length ≤ (positions archives).length := by
  refine (subperm_of_subset hinv.nodup fun p hp => ?_).length_le
  obtain ⟨m, o, hmem, -⟩ := hinv.defined p hp
  exact mem_positions hmem

/-- No member left defines, in a section of its own or in COMMON, a name still undefined. -/
def Closed (archives : List Archive) (ctx : LdContext) : Prop :=
  ∀ i k m o, memberAt archives i k = some m → (i, k) ∉ taken ctx.objects → m.data = some o →
    o.type = ET_REL → o.machine = ctx.target.emachine →
    ∀ sym name, o.Declares sym name → sym.sec ≠ SHN_UNDEF → ¬ctx.globals.Undefined name

/-- A round that takes nothing leaves a closed state. -/
theorem closed_of_unchanged
    (hok : foreachArchive archives 0 ctx false = .ok (ctx', false)) : Closed archives ctx' := by
  obtain ⟨rfl, -, hnot⟩ := foreachArchive_unchanged hok
  intro i k m o hmem _ hm ht hmach sym name hd hs
  unfold memberAt at hmem
  rw [bind_eq_some_iff] at hmem
  obtain ⟨ms, hms, hk⟩ := hmem
  rw [bind_eq_some_iff] at hms
  obtain ⟨a, ha, hms⟩ := hms
  have hneed := hnot a (mem_of_getElem? ha) ms hms m (mem_of_getElem? hk) o hm
  exact archiveMemberNeeded_false hneed ht hmach hd hs

/-- The objects at the end of an extraction, or where it failed. -/
def finalObjects : Except LdFail LdContext → List LdObject
  | .error f => f.objects
  | .ok ctx => ctx.objects

/-- From every round of a run without rescans the loop ends well within as many rounds as there
    are members left. -/
theorem extractArchives_run {ctx₀ : LdContext}
    (h0 : taken ctx₀.objects = []) (hno : NoRescan archives ctx₀) (n : Nat)
    (hscan : Scan archives ctx₀ ctx 0 0 false)
    (hn : (positions archives).length ≤ (taken ctx.objects).length + n) :
    ∃ out, extractArchives (n + 1) archives ctx = some out ∧ (taken (finalObjects out)).Nodup ∧
      ∀ ctx', out = .ok ctx' → Closed archives ctx' := by
  induction n using Nat.strongRecOn generalizing ctx with
  | ind n ih =>
    unfold extractArchives
    cases hround : foreachArchive archives 0 ctx false with
    | error f =>
      refine ⟨.error f, rfl, ?_, fun ctx' h => by cases h⟩
      exact Scan.foreachArchive_error drop_zero h0 hno hscan hround
    | ok r =>
      obtain ⟨ctx', changed⟩ := r
      have hend := Scan.foreachArchive drop_zero (Nat.zero_le _) hscan hround
      cases changed with
      | false =>
        refine ⟨.ok ctx', rfl, (hend.inv h0 hno).nodup, fun ctx'' h => ?_⟩
        rw [← Except.ok.inj h]
        exact closed_of_unchanged hround
      | true =>
        -- The round has taken a member, so there was one left.
        have hgrow := foreachArchive_taken hround
        rw [show true.toNat = 1 from rfl, show false.toNat = 0 from rfl] at hgrow
        have hmax := (hend.inv h0 hno).taken_le
        obtain ⟨n', rfl⟩ : ∃ n', n = n' + 1 := ⟨n - 1, by omega⟩
        exact ih n' (Nat.lt_succ_self _) hend.round (by omega)

/-- A run of `extract_archives` that starts without archive members and never scans a taken
    member one of whose COMMON symbols names an undefined global ends; each member is taken at
    most once; and when the extraction succeeds, no member left defines a name that is still
    undefined. -/
theorem extractArchives_closed (archives : List Archive) (ctx₀ : LdContext)
    (h0 : taken ctx₀.objects = []) (hno : NoRescan archives ctx₀) :
    ∃ fuel out, extractArchives fuel archives ctx₀ = some out ∧
      (taken (finalObjects out)).Nodup ∧ ∀ ctx, out = .ok ctx → Closed archives ctx := by
  refine ⟨(positions archives).length + 1, ?_⟩
  exact extractArchives_run h0 hno _ .start (Nat.le_add_left _ _)

theorem noRescan_of_no_common (ctx₀ : LdContext)
    (h : ∀ i k m o sym name, memberAt archives i k = some m → m.data = some o →
      o.Declares sym name → ¬sym.isCommon) : NoRescan archives ctx₀ := by
  rintro ctx i k changed - ⟨-, m, o, sym, name, hmem, hm, hd, hcommon, -⟩
  exact h i k m o sym name hmem hm hd hcommon

/-! ### One symbol, asked for for ever -/

section OneSymbol

/-- The x86-64 target. -/
def x86 : Target := ⟨62, 24⟩

/-- A relocatable x86-64 object with the data sections given whose symbol table has one symbol,
    named `x`, behind the null symbol. -/
def oneSymbol (data : List (Option ElfSection)) (sym : ElfSymbol) : ElfObject where
  type := ET_REL
  machine := 62
  sections :=
    [some ⟨0, 0, 0, 0, 0, 0, 0⟩, some ⟨0, SHT_STRTAB, 0, 9, 0, 1, 0⟩,
      some ⟨0, SHT_SYMTAB, 0, 48, 1, 8, 24⟩] ++ data
  section_name_index := 1
  symbol := fun _ j => if j = 0 then some ⟨0, 0, 0, 0, 0⟩ else some sym
  string := fun _ offset =>
    if offset = 1 then some "x" else if offset = 3 then some ".data" else some ""

/-- The table with the one global `x`. -/
def xTable (g : LdGlobal) (hg : g.name = "x") : GlobalTable :=
  { items := [g]
    nodup := nodup_singleton _
    named := by
      intro g' h
      rw [mem_singleton.mp h, hg]
      decide }

/-- A link of the objects given whose one global is `x`. -/
def xLink (g : LdGlobal) (hg : g.name = "x") (objects : List LdObject) : LdContext :=
  { target := x86, objects := objects, groups := [], globals := xTable g hg }

/-- The input `extern int x;` with a use: its one symbol is undefined. -/
def usesX : LdObject :=
  { name := "use.o"
    origin := none
    is_shared := false
    elf := oneSymbol [] ⟨1, 0x10, SHN_UNDEF, 0, 0⟩
    maps := [none, none, none] }

/-- The global `x` behind the input. -/
def wantedX : LdGlobal := { name := "x" }

theorem wantedX_name : wantedX.name = "x" := rfl

/-- The archive whose one member is the tentative definition `int x;`. -/
def commonArchive : Archive :=
  { path := "libx.a"
    members := some [{ name := "x.o", data := some (oneSymbol [] ⟨1, 0x11, SHN_COMMON, 4, 4⟩) }] }

/-- The global `x` once the member is taken: still undefined. -/
def commonX : LdGlobal := { name := "x", common := true, size := 4, align := 4 }

/-- Every round takes the member again and leaves `x` undefined. -/
theorem commonArchive_round {g : LdGlobal} {hg : g.name = "x"} (h : g = wantedX ∨ g = commonX)
    (objects : List LdObject) :
    ∃ objects', foreachArchive [commonArchive] 0 (xLink g hg objects) false
      = .ok (xLink commonX rfl objects', true) := by
  let o : ElfObject := oneSymbol [] ⟨1, 0x11, SHN_COMMON, 4, 4⟩
  let obj : LdObject :=
    { name := "libx.a" ++ "(" ++ "x.o" ++ ")"
      origin := some (0, 0)
      is_shared := decide (o.type ≠ ET_REL)
      elf := o
      maps := replicate 3 none }
  have hneed : archiveMemberNeeded x86 (xTable g hg) o = some true := by
    rcases h with rfl | rfl <;> rfl
  have happ : appendObject (xLink g hg objects) ("libx.a" ++ "(" ++ "x.o" ++ ")") (some (0, 0)) o
      = .ok (xLink g hg (objects ++ [obj])) := rfl
  have hlast : (objects ++ [obj])[objects.length]? = some obj := by simp
  have hsec : collectOneObjectSections (xLink g hg (objects ++ [obj])) objects.length
      = .ok (xLink g hg ((objects ++ [obj]).modify objects.length
          fun x => { x with maps := obj.maps })) := by
    unfold collectOneObjectSections
    rw [show (xLink g hg (objects ++ [obj])).objects = objects ++ [obj] from rfl, hlast]
    rfl
  have hlast' : ((objects ++ [obj]).modify objects.length
      fun x => { x with maps := obj.maps })[objects.length]? = some obj := by
    rw [getElem?_modify_eq, hlast]
    rfl
  have hsym (objects' : List LdObject) (n : Nat) (hn : objects'[n]? = some obj) :
      collectObjectSymbols (xLink g hg objects') n = .ok (xLink commonX rfl objects') := by
    unfold collectObjectSymbols
    rw [show (xLink g hg objects').objects = objects' from rfl, hn]
    rcases h with rfl | rfl <;> rfl
  obtain ⟨objects', hmember⟩ : ∃ objects', extractArchiveMember "libx.a" 0 0
      { name := "x.o", data := some o } (xLink g hg objects)
        = .ok (xLink commonX rfl objects', true) := by
    refine ⟨(objects ++ [obj]).modify objects.length fun x => { x with maps := obj.maps }, ?_⟩
    unfold extractArchiveMember
    dsimp only
    rw [show archiveMemberNeeded (xLink g hg objects).target (xLink g hg objects).globals o
      = some true from hneed]
    rw [happ]
    dsimp only [Except.bind]
    rw [show (xLink g hg objects).objects.length = objects.length from rfl, hsec]
    dsimp only
    rw [hsym _ _ hlast']
  refine ⟨objects', ?_⟩
  unfold foreachArchive commonArchive
  dsimp only
  unfold foreachMember
  rw [hmember]
  rfl

/-- The extraction for the input that uses `x` and the archive with the tentative definition of
    `x` never ends: no number of rounds is enough. -/
theorem extractArchives_common_loops :
    collectObjectSymbols ⟨x86, [usesX], [], .empty⟩ 0 = .ok (xLink wantedX rfl [usesX]) ∧
    taken (xLink wantedX rfl [usesX]).objects = [] ∧
    ¬∃ fuel out, extractArchives fuel [commonArchive] (xLink wantedX rfl [usesX]) = some out := by
  refine ⟨rfl, rfl, ?_⟩
  rintro ⟨fuel, out, hout⟩
  have hnone (fuel : Nat) : ∀ (g : LdGlobal) (hg : g.name = "x") (objects : List LdObject),
      (g = wantedX ∨ g = commonX) →
        extractArchives fuel [commonArchive] (xLink g hg objects) = none := by
    induction fuel with
    | zero => exact fun _ _ _ _ => rfl
    | succ fuel ih =>
      intro g hg objects h
      obtain ⟨objects', hround⟩ := commonArchive_round h objects
      unfold extractArchives
      rw [hround]
      exact ih commonX rfl objects' (.inr rfl)
  rw [hnone fuel wantedX rfl [usesX] (.inl rfl)] at hout
  cases hout

/-- The object `int x = 1;`, which has `x` in its `.data`. -/
def definesX : ElfObject :=
  oneSymbol [some ⟨3, SHT_PROGBITS, 3, 4, 0, 4, 0⟩] ⟨1, 0x11, 3, 0, 4⟩

/-- The archive whose one member is the definition of `x`. -/
def definingArchive : Archive :=
  { path := "libx.a", members := some [{ name := "x.o", data := some definesX }] }

/-- The run over the archive with a proper definition ends, and closed. -/
theorem extractArchives_closed_definition :
    ∃ fuel out, extractArchives fuel [definingArchive] (xLink wantedX rfl [usesX]) = some out ∧
      (taken (finalObjects out)).Nodup ∧
      ∀ ctx, out = .ok ctx → Closed [definingArchive] ctx := by
  refine extractArchives_closed [definingArchive] (xLink wantedX rfl [usesX]) rfl
    (noRescan_of_no_common _ ?_)
  rintro i k m o sym name hmem hm ⟨t, s, j, -, -, hsym, hname, -⟩
  have hdata : o = definesX := by
    unfold memberAt at hmem
    rw [bind_eq_some_iff] at hmem
    obtain ⟨ms, hms, hk⟩ := hmem
    rw [bind_eq_some_iff] at hms
    obtain ⟨a, ha, hms⟩ := hms
    obtain rfl : a = definingArchive := mem_singleton.mp (mem_of_getElem? ha)
    obtain rfl : [_] = ms := some.inj hms
    obtain rfl := mem_singleton.mp (mem_of_getElem? hk)
    exact (some.inj hm).symm
  subst hdata
  change (if j = 0 then some _ else some _) = some sym at hsym
  split at hsym
  · rw [← some.inj hsym]
    decide
  · rw [← some.inj hsym]
    decide

end OneSymbol

end MeuOS.Ld
