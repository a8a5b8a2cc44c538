import MeuOS.Lib.Spans
import MeuOS.Ld.Resolve

namespace MeuOS.Ld

open MeuOS.Lib

/-!
# The entries of the GOT (`got.c`)

Relocations ask for GOT entries by the symbol's name, and each entry takes one slot of eight
bytes, or two for a general- or local-dynamic access to a thread-local symbol:

* `addGotEntry`, `addGotEntryTls`, `addGotJumpslot` — the three requests;
* `GotCall.apply_spans` — what a request does to the spans of the entries: the span of its name
  gets the slots asked for, or there is a new span behind the others;
* `got_slots_iff` — the spans share no byte exactly when no request gives a second slot to an
  entry that has others behind it.
-/

/-! ### The entries -/

/-- `LD_R_X86_64_TLSGD`. -/
def R_X86_64_TLSGD : Nat := 19

/-- `LD_R_X86_64_TLSLD`. -/
def R_X86_64_TLSLD : Nat := 20

/-- `LD_R_X86_64_GOTTPOFF`. -/
def R_X86_64_GOTTPOFF : Nat := 22

/-- `MT_R_X86_64_JUMP_SLOT`. -/
def R_X86_64_JUMP_SLOT : Nat := 7

/-- `struct ld_got_entry`, without the place of its stub in `.plt`. -/
@[ext]
structure LdGotEntry where
  name : String
  offset : Nat
  reloc_type : Nat
  tls : Bool
  slots : Nat
  deriving DecidableEq, Repr

/-- `ctx->got` and the groups. -/
structure LdGot where
  groups : List LdGroup
  items : List LdGotEntry

/-- `got_index`. -/
def gotIndex (items : List LdGotEntry) (name : String) : Option Nat :=
  items.findIdx? (·.name == name)

/-- `total_got_slots`. -/
def totalGotSlots (items : List LdGotEntry) : Nat := (items.map (·.slots)).sum

/-- `total_got_slots_before`. -/
def totalGotSlotsBefore (items : List LdGotEntry) (idx : Nat) : Nat :=
  ((items.take idx).map (·.slots)).sum

/-- `add_got_entry`.  The table fits in memory, so offsets stay below `2 ^ 64`. -/
def addGotEntry (got : LdGot) (name : String) : Except String LdGot :=
  if name = "" then .error "GOT relocation has no symbol"
  else
    let groups :=
      match findGroup got.groups ".got" with
      | some _ => got.groups
      | none => (getGroup got.groups ".got" SHT_PROGBITS (SHF_ALLOC ||| SHF_WRITE) 8).1
    match gotIndex got.items name with
    | some _ => .ok { got with groups := groups }
    | none =>
      .ok
        { groups := groups
          items := got.items ++
            [{ name := name
               offset := totalGotSlots got.items * 8
               reloc_type := 0
               tls := false
               slots := 1 }] }

/-- `add_got_entry_tls`. -/
def addGotEntryTls (got : LdGot) (name : String) (rel_type : Nat) : Except String LdGot :=
  let slots := if rel_type = R_X86_64_TLSGD ∨ rel_type = R_X86_64_TLSLD then 2 else 1
  match gotIndex got.items name with
  | some idx =>
    .ok { got with
      items := got.items.modify idx fun e =>
        if slots > e.slots then { e with slots := slots } else e }
  | none => do
      let got ← addGotEntry got name
      let idx := got.items.length - 1
      return { got with
        items := got.items.modify idx fun e =>
          { e with tls := true, slots := slots, offset := totalGotSlotsBefore got.items idx * 8 } }

/-- The entry is filled by a `JUMP_SLOT` relocation. -/
def LdGotEntry.jumpslot (e : LdGotEntry) : LdGotEntry := { e with reloc_type := R_X86_64_JUMP_SLOT }

/-- `add_got_jumpslot`. -/
def addGotJumpslot (got : LdGot) (name : String) : Except String LdGot :=
  match gotIndex got.items name with
  | some idx =>
    .ok { got with items := got.items.modify idx LdGotEntry.jumpslot }
  | none => do
      let got ← addGotEntry got name
      let idx := got.items.length - 1
      return { got with items := got.items.modify idx LdGotEntry.jumpslot }

/-! ### Requests -/

/-- A request for an entry. -/
inductive GotCall where
  | entry (name : String)
  | tls (name : String) (rel_type : Nat)
  | jumpslot (name : String)
  deriving DecidableEq, Repr

/-- The function that a request calls. -/
def GotCall.run (got : LdGot) : GotCall → Except String LdGot
  | .entry name => addGotEntry got name
  | .tls name rel_type => addGotEntryTls got name rel_type
  | .jumpslot name => addGotJumpslot got name

/-- The GOT after a request; a failed one has left it alone. -/
def GotCall.apply (got : LdGot) (c : GotCall) : LdGot :=
  match c.run got with
  | .ok got => got
  | .error _ => got

/-- The GOT after the requests, from an empty one. -/
def runGot (groups : List LdGroup) (calls : List GotCall) : LdGot :=
  calls.foldl GotCall.apply ⟨groups, []⟩

/-- The end of `collect_got_relocations`: bytes for all slots are appended to `.got`. -/
def reserveGot (got : LdGot) : Option (List LdGroup × Nat) :=
  (findGroup got.groups ".got").bind fun i =>
    appendGroupData got.groups i (totalGotSlots got.items * 8) 8

/-! ### The spans of the entries -/

/-- The bytes of an entry. -/
def LdGotEntry.span (e : LdGotEntry) : Span := ⟨e.offset, 8 * e.slots⟩

/-- The bytes of the entries. -/
def gotSpans (items : List LdGotEntry) : List Span := items.map LdGotEntry.span

/-- The name of a request. -/
def GotCall.name : GotCall → String
  | .entry name => name
  | .tls name _ => name
  | .jumpslot name => name

/-- The slots a request asks for. -/
def GotCall.slots : GotCall → Nat
  | .tls _ rel_type => if rel_type = R_X86_64_TLSGD ∨ rel_type = R_X86_64_TLSLD then 2 else 1
  | _ => 1

theorem GotCall.slots_pos (c : GotCall) : 0 < c.slots := by
  cases c with
  | entry name => exact Nat.one_pos
  | tls name rel_type =>
    unfold GotCall.slots
    dsimp only
    split
    · exact Nat.two_pos
    · exact Nat.one_pos
  | jumpslot name => exact Nat.one_pos

theorem sizes_gotSpans (items : List LdGotEntry) :
    sizes (gotSpans items) = totalGotSlots items * 8 := by
  induction items with
  | nil => rfl
  | cons e items ih =>
    have hcons : sizes (gotSpans (e :: items)) = 8 * e.slots + sizes (gotSpans items) := by
      simp [sizes, gotSpans, LdGotEntry.span]
    rw [hcons, ih]
    unfold totalGotSlots
    rw [List.map_cons, List.sum_cons]
    omega

/-- Every entry has a slot. -/
def HasSlots (items : List LdGotEntry) : Prop := ∀ e ∈ items, 0 < e.slots

variable {items : List LdGotEntry} {name : String} {idx : Nat} {got : LdGot} {c : GotCall}

theorem gotIndex_some
    (h : gotIndex items name = some idx) : ∃ hi : idx < items.length, items[idx].name = name := by
  obtain ⟨hi, hp, -⟩ := List.findIdx?_eq_some_iff_getElem.mp h
  exact ⟨hi, by simpa using hp⟩

/-- A change of an entry that leaves its span alone. -/
theorem gotSpans_modify_same {f : LdGotEntry → LdGotEntry} (hf : ∀ e, (f e).span = e.span)
    (items : List LdGotEntry) (idx : Nat) :
    gotSpans (items.modify idx f) = gotSpans items := by
  unfold gotSpans
  apply List.ext_getElem
  · simp
  · intro i h₁ h₂
    rw [List.getElem_map, List.getElem_map, List.getElem_modify]
    split
    · exact hf _
    · rfl

/-- The spans after a request with the slots it asks for. -/
def GotCall.spans (items : List LdGotEntry) (c : GotCall) : List Span :=
  match gotIndex items c.name with
  | some idx => (gotSpans items).modify idx (Span.widen (8 * c.slots))
  | none =>
    if c.name = "" then gotSpans items
    else gotSpans items ++ [⟨sizes (gotSpans items), 8 * c.slots⟩]

theorem addGotEntry_new (hnone : gotIndex got.items name = none) (hname : name ≠ "") :
    ∃ groups, addGotEntry got name =
      .ok ⟨groups, got.items ++ [⟨name, totalGotSlots got.items * 8, 0, false, 1⟩]⟩ := by
  unfold addGotEntry
  rw [if_neg hname, hnone]
  exact ⟨_, rfl⟩

theorem gotIndex_concat {e : LdGotEntry}
    (h : gotIndex items e.name = none) : gotIndex (items ++ [e]) e.name = some items.length := by
  unfold gotIndex at h ⊢
  rw [List.findIdx?_append, h]
  simp

/-- A request makes at most the group `.got`, which has no place yet. -/
theorem addGotEntry_groups {got' : LdGot} (h : addGotEntry got name = .ok got') :
    got'.groups = got.groups ∨
      ∃ g : LdGroup, g.name = ".got" ∧ g.address = 0 ∧ got'.groups = got.groups ++ [g] := by
  have hto : got'.groups = match findGroup got.groups ".got" with
      | some _ => got.groups
      | none => (getGroup got.groups ".got" SHT_PROGBITS (SHF_ALLOC ||| SHF_WRITE) 8).1 := by
    unfold addGotEntry at h
    split at h
    next => cases h
    next =>
      cases hidx : gotIndex got.items name with
      | some _ =>
        rw [hidx] at h
        exact (congrArg LdGot.groups (Except.ok.inj h)).symm
      | none =>
        rw [hidx] at h
        exact (congrArg LdGot.groups (Except.ok.inj h)).symm
  rw [hto]
  cases hfind : findGroup got.groups ".got" with
  | some i => exact Or.inl rfl
  | none =>
    unfold getGroup
    rw [hfind]
    exact Or.inr ⟨_, rfl, rfl, rfl⟩

/-- A change of the last entry of a list. -/
theorem modify_concat (items : List LdGotEntry) (e : LdGotEntry) (f : LdGotEntry → LdGotEntry) :
    (items ++ [e]).modify ((items ++ [e]).length - 1) f = items ++ [f e] := by
  rw [List.length_append, List.length_singleton, Nat.add_sub_cancel]
  induction items with
  | nil => rfl
  | cons a items ih =>
    rw [List.cons_append, List.length_cons, List.modify_succ_cons, ih]
    rfl

/-- An entry with the slots asked for keeps its span. -/
theorem widen_enough {slots : Nat} (hi : idx < items.length) (h : slots ≤ items[idx].slots) :
    (gotSpans items).modify idx (Span.widen (8 * slots)) = gotSpans items := by
  apply List.ext_getElem
  · simp
  · intro i h₁ h₂
    rw [List.getElem_modify]
    split
    next hidx =>
      subst hidx
      refine Span.widen_eq ?_
      simp only [gotSpans, List.getElem_map, LdGotEntry.span]
      omega
    next => rfl

/-- More slots for an entry make its span larger. -/
theorem gotSpans_widen (items : List LdGotEntry) (idx slots : Nat) :
    gotSpans (items.modify idx fun e => if slots > e.slots then { e with slots := slots } else e)
      = (gotSpans items).modify idx (Span.widen (8 * slots)) := by
  unfold gotSpans
  apply List.ext_getElem
  · simp
  · intro i h₁ h₂
    rw [List.getElem_map, List.getElem_modify, List.getElem_modify, List.getElem_map]
    split
    · split
      next hlt =>
        ext
        · rfl
        · simp only [LdGotEntry.span, Span.widen_size]
          omega
      next hge =>
        refine (Span.widen_eq ?_).symm
        simp only [LdGotEntry.span]
        omega
    · rfl

/-- A request for a name that has an entry gives that entry the slots asked for. -/
theorem GotCall.apply_found
    (hidx : gotIndex got.items c.name = some idx) (hs : HasSlots got.items) :
    gotSpans (c.apply got).items = (gotSpans got.items).modify idx (Span.widen (8 * c.slots)) := by
  obtain ⟨hlt, -⟩ := gotIndex_some hidx
  have hone : 1 ≤ got.items[idx].slots := hs _ (List.getElem_mem hlt)
  cases c with
  | entry name =>
    rw [show (GotCall.entry name).slots = 1 from rfl, widen_enough hlt hone]
    unfold GotCall.apply GotCall.run addGotEntry
    rw [GotCall.name] at hidx
    dsimp only
    by_cases hname : name = ""
    · rw [if_pos hname]
    · rw [if_neg hname, hidx]
  | tls name rel_type =>
    rw [GotCall.name] at hidx
    unfold GotCall.apply GotCall.run addGotEntryTls
    dsimp only
    rw [hidx]
    exact gotSpans_widen _ _ _
  | jumpslot name =>
    rw [show (GotCall.jumpslot name).slots = 1 from rfl, widen_enough hlt hone]
    unfold GotCall.apply GotCall.run addGotJumpslot
    rw [GotCall.name] at hidx
    dsimp only
    rw [hidx]
    exact gotSpans_modify_same (f := LdGotEntry.jumpslot) (fun _ => rfl) _ _

/-- A request for a new name puts a span of the slots asked for behind the others. -/
theorem GotCall.apply_new (hidx : gotIndex got.items c.name = none) (hname : c.name ≠ "") :
    ∃ e : LdGotEntry, e.name = c.name ∧ e.slots = c.slots ∧
      e.offset = totalGotSlots got.items * 8 ∧ (c.apply got).items = got.items ++ [e] := by
  obtain ⟨groups, hadd⟩ := addGotEntry_new hidx hname
  cases c with
  | entry name =>
    rw [GotCall.name] at hadd
    unfold GotCall.apply GotCall.run
    dsimp only
    rw [hadd]
    exact ⟨_, rfl, rfl, rfl, rfl⟩
  | tls name rel_type =>
    rw [GotCall.name] at hidx hadd
    unfold GotCall.apply GotCall.run addGotEntryTls
    dsimp only
    rw [hidx, hadd]
    dsimp only [bind, Except.bind, pure, Except.pure]
    rw [modify_concat]
    refine ⟨_, rfl, rfl, ?_, rfl⟩
    -- Only the entries before the new one count.
    simp [totalGotSlotsBefore, totalGotSlots]
  | jumpslot name =>
    rw [GotCall.name] at hidx hadd
    unfold GotCall.apply GotCall.run addGotJumpslot
    dsimp only
    rw [hidx, hadd]
    dsimp only [bind, Except.bind, pure, Except.pure]
    rw [modify_concat]
    exact ⟨_, rfl, rfl, rfl, rfl⟩

/-- A request without a name fails. -/
theorem GotCall.apply_unnamed
    (hidx : gotIndex got.items c.name = none) (hname : c.name = "") : c.apply got = got := by
  have hadd : addGotEntry got "" = .error "GOT relocation has no symbol" := rfl
  cases c with
  | entry name =>
    obtain rfl : name = "" := hname
    unfold GotCall.apply GotCall.run
    dsimp only
    rw [hadd]
  | tls name rel_type =>
    obtain rfl : name = "" := hname
    rw [GotCall.name] at hidx
    unfold GotCall.apply GotCall.run addGotEntryTls
    dsimp only
    rw [hidx, hadd]
    rfl
  | jumpslot name =>
    obtain rfl : name = "" := hname
    rw [GotCall.name] at hidx
    unfold GotCall.apply GotCall.run addGotJumpslot
    dsimp only
    rw [hidx, hadd]
    rfl

/-- The spans after a request. -/
theorem GotCall.apply_spans (hs : HasSlots got.items) (c : GotCall) :
    gotSpans (c.apply got).items = c.spans got.items := by
  unfold GotCall.spans
  cases hidx : gotIndex got.items c.name with
  | some idx => exact GotCall.apply_found hidx hs
  | none =>
    by_cases hname : c.name = ""
    · rw [if_pos hname, GotCall.apply_unnamed hidx hname]
    · obtain ⟨e, -, hslots, hoff, happly⟩ := GotCall.apply_new hidx hname
      rw [if_neg hname, happly, sizes_gotSpans, ← hslots, ← hoff]
      simp [gotSpans, LdGotEntry.span]

/-! ### One request -/

/-- The request widens an entry that has others behind it. -/
def GotCall.WidensEarlier (items : List LdGotEntry) (c : GotCall) : Prop :=
  ∃ idx, gotIndex items c.name = some idx ∧ idx + 1 < items.length ∧
    ∀ e ∈ items[idx]?, e.slots < c.slots

theorem hasSlots_iff :
    HasSlots items ↔ ∀ s ∈ gotSpans items, 0 < s.size := by
  unfold HasSlots gotSpans
  rw [List.forall_mem_map]
  simp only [LdGotEntry.span]
  exact forall₂_congr fun e _ => by omega

/-- Spans stay where they are and only grow. -/
theorem GotCall.spans_grows (items : List LdGotEntry) (c : GotCall) :
    Grows (gotSpans items) (c.spans items) := by
  unfold GotCall.spans
  split
  · exact Grows.widen _ _ _
  · split
    · exact Grows.refl _
    · exact Grows.concat _ _

/-- Spans start no later than the slots before them take. -/
theorem GotCall.spans_ahead (h : Ahead (gotSpans items)) (c : GotCall) :
    Ahead (c.spans items) := by
  unfold GotCall.spans
  split
  · exact h.widen _ _
  · split
    · exact h
    · exact h.concat rfl

/-- Every entry still has a slot. -/
theorem GotCall.apply_hasSlots (hs : HasSlots got.items) (c : GotCall) :
    HasSlots (c.apply got).items := by
  have hc := c.slots_pos
  rw [hasSlots_iff, GotCall.apply_spans hs]
  rw [hasSlots_iff] at hs
  unfold GotCall.spans
  split
  · intro s hmem
    obtain ⟨i, hi, rfl⟩ := List.getElem_of_mem hmem
    have hpos := hs _ (List.getElem_mem (by simpa using hi))
    rw [List.getElem_modify]
    split
    · rw [Span.widen_size]
      omega
    · exact hpos
  · split
    · exact hs
    · intro s hmem
      rcases List.mem_append.mp hmem with hold | hnew
      · exact hs s hold
      · obtain rfl := List.mem_singleton.mp hnew
        dsimp only
        omega

/-- Stacked spans stay stacked unless an earlier entry is widened. -/
theorem GotCall.spans_stacked (h : Stacked (gotSpans items))
    (hc : ¬c.WidensEarlier items) : Stacked (c.spans items) := by
  unfold GotCall.spans
  split
  next idx hidx =>
    obtain ⟨hlt, -⟩ := gotIndex_some hidx
    have hlen : (gotSpans items).length = items.length := by simp [gotSpans]
    by_cases hlast : idx + 1 = items.length
    · exact h.widen_last (hlast.trans hlen.symm) _
    · -- The entry has its slots already.
      have hslots : c.slots ≤ items[idx].slots := by
        by_contra hnot
        refine hc ⟨idx, hidx, by omega, fun e he => ?_⟩
        rw [List.getElem?_eq_getElem hlt, Option.mem_some_iff] at he
        subst he
        omega
      rw [widen_enough hlt hslots]
      exact h
  next =>
    split
    · exact h
    · exact h.concat rfl

/-- An entry widened before another one runs into it. -/
theorem GotCall.spans_meet (h : Stacked (gotSpans items))
    (hs : HasSlots items) (hc : c.WidensEarlier items) :
    ¬(c.spans items).Pairwise fun a b => Disjoint a.places b.places := by
  obtain ⟨idx, hidx, hlt, hslots⟩ := hc
  have hlen : (gotSpans items).length = items.length := by simp [gotSpans]
  have hi : idx < items.length := Nat.lt_of_succ_lt hlt
  have hwide := hslots items[idx] (List.getElem?_eq_getElem hi)
  unfold GotCall.spans
  rw [hidx]
  dsimp only
  rw [List.pairwise_iff_getElem]
  intro hall
  have hmeet := hall idx (idx + 1) (by simpa [hlen] using hi) (by simpa [hlen] using hlt)
    (Nat.lt_succ_self idx)
  rw [List.getElem_modify, List.getElem_modify, if_pos rfl, if_neg (by omega)] at hmeet
  refine h.not_disjoint (by omega) ?_ ?_ hmeet
  · simp only [gotSpans, List.getElem_map, LdGotEntry.span]
    omega
  · exact hasSlots_iff.mp hs _ (List.getElem_mem _)

/-! ### Runs of requests -/

theorem runGot_concat (groups : List LdGroup) (calls : List GotCall) (c : GotCall) :
    runGot groups (calls ++ [c]) = c.apply (runGot groups calls) := by
  unfold runGot
  rw [List.foldl_append]
  rfl

/-- Along a run every entry has a slot, and none starts behind its share. -/
theorem runGot_invariant (groups : List LdGroup) (calls : List GotCall) :
    HasSlots (runGot groups calls).items ∧ Ahead (gotSpans (runGot groups calls).items) := by
  induction calls using List.reverseRecOn with
  | nil => exact ⟨fun e he => absurd he List.not_mem_nil, stacked_nil.ahead⟩
  | append_singleton calls c ih =>
    rw [runGot_concat, GotCall.apply_spans ih.1]
    exact ⟨GotCall.apply_hasSlots ih.1 c, GotCall.spans_ahead ih.2 c⟩

/-- No request of the run widens an entry that has others behind it at that time. -/
def NeverWidensEarlier (groups : List LdGroup) (calls : List GotCall) : Prop :=
  ∀ before c, before ++ [c] <+: calls → ¬c.WidensEarlier (runGot groups before).items

theorem neverWidensEarlier_concat {groups : List LdGroup} {calls : List GotCall} :
    NeverWidensEarlier groups (calls ++ [c]) ↔
      NeverWidensEarlier groups calls ∧ ¬c.WidensEarlier (runGot groups calls).items := by
  constructor
  · intro h
    exact ⟨fun before d hd => h before d (hd.trans (List.prefix_append _ _)),
      h calls c List.prefix_rfl⟩
  · rintro ⟨h, hc⟩ before d hd
    rcases List.prefix_concat_iff.mp hd with heq | hd
    · obtain ⟨rfl, hdc⟩ := List.append_inj' heq rfl
      obtain rfl : d = c := by simpa using hdc
      exact hc
    · exact h before d hd

/-- The spans stay stacked along a run that widens no earlier entry; along any other run two
    spans meet. -/
theorem runGot_spans (groups : List LdGroup) (calls : List GotCall) :
    (NeverWidensEarlier groups calls → Stacked (gotSpans (runGot groups calls).items)) ∧
      (¬NeverWidensEarlier groups calls →
        ¬(gotSpans (runGot groups calls).items).Pairwise fun a b =>
          Disjoint a.places b.places) := by
  induction calls using List.reverseRecOn with
  | nil =>
    refine ⟨fun _ => stacked_nil, fun h => absurd (fun before c hc => ?_) h⟩
    exact absurd (List.prefix_nil.mp hc) (by simp)
  | append_singleton calls c ih =>
    obtain ⟨hs, -⟩ := runGot_invariant groups calls
    rw [neverWidensEarlier_concat, runGot_concat, GotCall.apply_spans hs]
    refine ⟨fun ⟨hcalls, hc⟩ => GotCall.spans_stacked (ih.1 hcalls) hc, fun hnot => ?_⟩
    by_cases hcalls : NeverWidensEarlier groups calls
    · -- This request is the first that widens an earlier entry.
      have hc : c.WidensEarlier (runGot groups calls).items := by
        by_contra hc
        exact hnot ⟨hcalls, hc⟩
      exact GotCall.spans_meet (ih.1 hcalls) hs hc
    · -- Two spans met before.
      exact (GotCall.spans_grows _ c).not_pairwise (hasSlots_iff.mp hs) (ih.2 hcalls)

/-! ### The room in `.got` -/

/-- The entries share no byte and lie within the bytes that `collect_got_relocations` reserves
    for them in `.got`. -/
structure GotLaidOut (got : LdGot) : Prop where
  apart : got.items.Pairwise fun a b =>
    Disjoint (Set.Ico a.offset (a.offset + 8 * a.slots)) (Set.Ico b.offset (b.offset + 8 * b.slots))
  within : ∀ e ∈ got.items, e.offset + 8 * e.slots ≤ totalGotSlots got.items * 8
  reserved : ∀ groups offset, reserveGot got = some (groups, offset) →
    ∃ g ∈ groups, g.name = ".got" ∧ g.size = offset + totalGotSlots got.items * 8

/-- What `collect_got_relocations` appends are bytes for all slots. -/
theorem reserveGot_size {groups : List LdGroup} {offset : Nat}
    (h : reserveGot got = some (groups, offset)) :
    ∃ g ∈ groups, g.name = ".got" ∧ g.size = offset + totalGotSlots got.items * 8 := by
  unfold reserveGot at h
  obtain ⟨i, hf, h⟩ := Option.bind_eq_some_iff.mp h
  obtain ⟨hi, hname⟩ := findGroup_some hf
  unfold appendGroupData at h
  rw [List.getElem?_eq_getElem hi] at h
  dsimp only at h
  rw [if_neg (show ¬8 = 0 by decide)] at h
  split at h
  next => cases h
  next hfits =>
    rw [Option.some_inj, Prod.mk.injEq] at h
    obtain ⟨rfl, rfl⟩ := h
    have hlt : alignUp64 got.groups[i].size 8 < 2 ^ 64 := by
      unfold alignUp64
      exact lt_of_le_of_lt Nat.and_le_left (add64_lt _ _)
    refine ⟨_, List.getElem_mem (n := i) (by rwa [List.length_modify]), ?_⟩
    rw [List.getElem_modify, if_pos rfl]
    exact ⟨hname, add64_eq (by omega)⟩

/-- The entries of any run of requests share no byte and lie within the bytes reserved exactly
    when no request gave a second slot to an entry that had others behind it. -/
theorem got_slots_iff (groups : List LdGroup) (calls : List GotCall) :
    GotLaidOut (runGot groups calls) ↔ NeverWidensEarlier groups calls := by
  obtain ⟨hstacked, hmeet⟩ := runGot_spans groups calls
  constructor
  · intro h
    by_contra hnot
    refine hmeet hnot ?_
    unfold gotSpans
    rw [List.pairwise_map]
    exact h.apart
  · intro hnever
    have hs := hstacked hnever
    have hpair := hs.pairwise
    unfold gotSpans at hpair
    rw [List.pairwise_map] at hpair
    refine ⟨hpair, fun e he => ?_, fun _ _ => reserveGot_size⟩
    rw [← sizes_gotSpans]
    exact hs.ahead.within e.span (List.mem_map_of_mem he)

/-- An initial-exec access to `x`, a GOT entry for `y` and a general-dynamic access to `x`: the
    pair of `x` takes the slot of `y`. -/
theorem got_slots_meet :
    (runGot [] [.tls "x" R_X86_64_GOTTPOFF, .entry "y", .tls "x" R_X86_64_TLSGD]).items
        = [⟨"x", 0, 0, true, 2⟩, ⟨"y", 8, 0, false, 1⟩] ∧
      ¬GotLaidOut (runGot [] [.tls "x" R_X86_64_GOTTPOFF, .entry "y", .tls "x" R_X86_64_TLSGD]) := by
  have hitems : (runGot [] [.tls "x" R_X86_64_GOTTPOFF, .entry "y", .tls "x" R_X86_64_TLSGD]).items
      = [⟨"x", 0, 0, true, 2⟩, ⟨"y", 8, 0, false, 1⟩] := by decide
  refine ⟨hitems, fun h => ?_⟩
  have hap := h.apart
  rw [hitems, List.pairwise_cons] at hap
  have hxy := hap.1 _ (List.mem_singleton.mpr rfl)
  -- The eighth byte belongs to both.
  have hx : 8 ∈ Set.Ico 0 (0 + 8 * 2) := ⟨by decide, by decide⟩
  have hy : 8 ∈ Set.Ico 8 (8 + 8 * 1) := ⟨by decide, by decide⟩
  exact Set.disjoint_left.mp hxy hx hy

end MeuOS.Ld
