import MeuOS.Meow.Graph
import Mathlib.Data.List.Perm.Subperm
import Mathlib.Data.List.TakeWhile

namespace MeuOS.Meow

open MeuOS.Lib List

/-!
# The target table during a build

* `resolve` — the target that a name stands for in the table as it was read;
* `Table` — a table that only gained instances of its patterns, for names of a known set;
* `findTarget_spec` — `find_target` gives the target that the name stands for, in every such table;
* `uniqueDeps_spec` — every dependency that is a target is done or will be run.
-/

/-! ### Entries by their names -/

/-- The entry of a name. -/
def entryOf (es : List Entry) (n : Bytes) : Option Entry := es.find? fun e => e.target.name = n

variable {es es' : List Entry} {n name stem : Bytes} {i : Nat} {f : Entry → Entry} {e : Entry}
  {t : Target} {mtime : Bytes → Option Stamp} {ps : List Bytes}

/-- The index of a name leads to its entry. -/
theorem entryOf_of_findName (h : findName es n = some i) :
    ∃ e, es[i]? = some e ∧ entryOf es n = some e ∧ e.target.name = n := by
  induction es generalizing i with
  | nil => exact absurd h (by simp [findName])
  | cons e es ih =>
    rw [findName, findIdx?_cons] at h
    by_cases hname : e.target.name = n
    · rw [if_pos (by simpa using hname)] at h
      cases h
      exact ⟨e, rfl, by rw [entryOf, find?_cons_of_pos (by simpa using hname)], hname⟩
    · rw [if_neg (by simpa using hname)] at h
      obtain ⟨j, hj, rfl⟩ := Option.map_eq_some_iff.mp h
      obtain ⟨x, h1, h2, h3⟩ := ih hj
      exact ⟨x, h1, by rw [entryOf, find?_cons_of_neg (by simpa using hname)]; exact h2, h3⟩

/-- A name without an index has no entry. -/
theorem entryOf_of_findName_none (h : findName es n = none) :
    entryOf es n = none := by
  rw [findName, findIdx?_eq_none_iff] at h
  rw [entryOf, find?_eq_none]
  intro e he
  rw [h e he]
  decide

/-- New flags for an index are new flags for its name, and for no other. -/
theorem entryOf_modify (h : findName es n = some i) (hf : ∀ e, (f e).target = e.target)
    (m : Bytes) :
    entryOf (es.modify i f) m = if m = n then (entryOf es m).map f else entryOf es m := by
  induction es generalizing i with
  | nil => exact absurd h (by simp [findName])
  | cons e es ih =>
    rw [findName, findIdx?_cons] at h
    by_cases hname : e.target.name = n
    · rw [if_pos (by simpa using hname)] at h
      cases h
      rw [modify_zero_cons, entryOf, entryOf, find?_cons, find?_cons, hf, hname]
      by_cases hm : m = n
      · rw [if_pos hm, hm]
        simp
      · have hne : ¬ n = m := fun heq => hm heq.symm
        rw [if_neg hm]
        simp [hne]
    · rw [if_neg (by simpa using hname)] at h
      obtain ⟨j, hj, rfl⟩ := Option.map_eq_some_iff.mp h
      have ih := ih hj
      rw [entryOf, entryOf] at ih
      rw [modify_succ_cons, entryOf, entryOf, find?_cons, find?_cons]
      by_cases hm : e.target.name = m
      · have hne : ¬ m = n := fun heq => hname (hm.trans heq)
        rw [if_neg hne]
        simp [hm]
      · simp only [hm, decide_false]
        exact ih

/-- Flags do not move an index. -/
theorem findName_modify (hf : ∀ e, (f e).target = e.target) (m : Bytes) :
    findName (es.modify i f) m = findName es m := by
  induction es generalizing i with
  | nil => simp [findName]
  | cons e es ih =>
    obtain _ | i := i
    · rw [modify_zero_cons, findName, findName, findIdx?_cons, findIdx?_cons, hf]
    · have ih := @ih i
      rw [findName, findName] at ih
      rw [modify_succ_cons, findName, findName, findIdx?_cons, findIdx?_cons, ih]

/-- Flags do not change targets. -/
theorem map_target_modify (hf : ∀ e, (f e).target = e.target) :
    (es.modify i f).map Entry.target = es.map Entry.target := by
  induction es generalizing i with
  | nil => simp
  | cons e es ih =>
    obtain _ | i := i
    · rw [modify_zero_cons, map_cons, map_cons, hf]
    · rw [modify_succ_cons, map_cons, map_cons, ih]

/-- A table with new entries, which have no flags. -/
def Grows (es es' : List Entry) : Prop :=
  ∃ new : List Entry, es' = es ++ new ∧ ∀ e ∈ new, e.visiting = false ∧ e.done = false

theorem Grows.refl (es : List Entry) : Grows es es :=
  ⟨[], (append_nil es).symm, fun _ he => absurd he not_mem_nil⟩

theorem Grows.trans {es'' : List Entry} (h : Grows es es') (h' : Grows es' es'') :
    Grows es es'' := by
  obtain ⟨new, rfl, hnew⟩ := h
  obtain ⟨new', rfl, hnew'⟩ := h'
  refine ⟨new ++ new', append_assoc _ _ _, fun e he => ?_⟩
  obtain he | he := mem_append.mp he
  · exact hnew e he
  · exact hnew' e he

theorem Grows.findName (h : Grows es es')
    (hi : findName es n = some i) : findName es' n = some i := by
  obtain ⟨new, rfl, _⟩ := h
  rw [Meow.findName] at hi ⊢
  rw [findIdx?_append, hi]
  rfl

theorem Grows.entryOf (h : Grows es es') (he : entryOf es n = some e) : entryOf es' n = some e := by
  obtain ⟨new, rfl, _⟩ := h
  rw [Meow.entryOf] at he ⊢
  rw [find?_append, he]
  rfl

/-- What has a flag was there before. -/
theorem Grows.entryOf_of_flag (h : Grows es es')
    (he : Meow.entryOf es' n = some e) (hflag : e.visiting = true ∨ e.done = true) :
    Meow.entryOf es n = some e := by
  obtain ⟨new, rfl, hnew⟩ := h
  rw [Meow.entryOf, find?_append] at he
  rw [Meow.entryOf]
  cases hold : es.find? (fun e => decide (e.target.name = n)) with
  | some x =>
    rw [hold] at he
    exact he
  | none =>
    rw [hold, Option.none_or] at he
    have hmem := hnew e (mem_of_find?_eq_some he)
    rw [hmem.1, hmem.2] at hflag
    simp at hflag

/-! ### What a name stands for -/

/-- The target that a name stands for. -/
def resolve (ts : List Target) (name : Bytes) : Option Target :=
  match ts.find? fun t => t.name = name with
  | some t => some t
  | none => ts.findSome? fun t => (stemOf t.name name).map (t.instance name)

/-- A name that stands for an instance. -/
def isInstance (ts : List Target) (name : Bytes) : Bool :=
  (ts.find? fun t => t.name = name).isNone && (resolve ts name).isSome

/-- What a name stands for has the name. -/
theorem resolve_name {ts : List Target} (h : resolve ts name = some t) : t.name = name := by
  rw [resolve] at h
  split at h
  next t' ht =>
    cases h
    simpa using find?_some ht
  next =>
    obtain ⟨p, _, hp⟩ := exists_of_findSome?_eq_some h
    obtain ⟨stem, _, rfl⟩ := Option.map_eq_some_iff.mp hp
    rfl

/-- A pattern that matches. -/
theorem stemOf_some {pattern : Bytes} (h : stemOf pattern name = some stem) :
    ∃ before after, pattern = before ++ 0x25 :: after ∧ 0x25 ∉ before ∧ 0x25 ∉ after ∧
      name = before ++ stem ++ after := by
  rw [stemOf, splitPercent] at h
  by_cases hmem : (0x25 : UInt8) ∈ pattern
  · rw [if_pos hmem] at h
    dsimp only at h
    generalize hbefore : pattern.takeWhile (· ≠ 0x25) = before at h
    generalize hafter : (pattern.dropWhile (· ≠ 0x25)).tail = after at h
    split at h
    · cases h
    next hone =>
      split at h
      · cases h
      next hlen =>
        split at h
        next hparts =>
          cases h
          rw [Bool.and_eq_true, List.isPrefixOf_iff_prefix, List.isSuffixOf_iff_suffix] at hparts
          obtain ⟨⟨x, rfl⟩, ⟨y, hy⟩⟩ := hparts
          refine ⟨before, after, ?_, ?_, hone, ?_⟩
          · -- the first `%` is behind what was taken
            obtain ⟨c, rest, hcons⟩ : ∃ c rest, pattern.dropWhile (· ≠ 0x25) = c :: rest := by
              cases hd : pattern.dropWhile (· ≠ 0x25) with
              | nil => exact absurd (dropWhile_eq_nil_iff.mp hd _ hmem) (by simp)
              | cons c rest => exact ⟨c, rest, rfl⟩
            have hhead := head?_dropWhile_not (· ≠ (0x25 : UInt8)) pattern
            rw [hcons, head?_cons] at hhead
            have hc : c = 0x25 := by simpa using hhead
            rw [hcons, tail_cons] at hafter
            conv_lhs => rw [← @List.takeWhile_append_dropWhile _ (· ≠ (0x25 : UInt8)) pattern]
            rw [hbefore, hcons, hc, hafter]
          · rw [← hbefore]
            intro hin
            exact absurd (mem_takeWhile_imp hin) (by simp)
          · rw [drop_left, append_assoc, append_cancel_left_eq]
            -- the end of the name is the pattern's
            rw [length_append] at hlen
            have hle : after.length ≤ x.length := by omega
            have hxy : after <:+ x := by
              have hsuffix : after <:+ before ++ x := ⟨y, hy⟩
              exact suffix_of_suffix_length_le hsuffix (suffix_append _ _) hle
            obtain ⟨z, rfl⟩ := hxy
            have htake : (before ++ (z ++ after)).length - before.length - after.length =
                z.length := by
              rw [length_append, length_append]
              omega
            rw [htake, take_left]
        · cases h
  · rw [if_neg hmem] at h
    cases h

/-- A name that has the ends of a pattern matches it. -/
theorem stemOf_isSome {before after : Bytes} (hb : 0x25 ∉ before) (ha : 0x25 ∉ after) :
    (stemOf (before ++ 0x25 :: after) (before ++ stem ++ after)).isSome := by
  have htake : (before ++ 0x25 :: after).takeWhile (· ≠ 0x25) = before := by
    rw [takeWhile_append_of_pos, takeWhile_cons_of_neg (by simp), append_nil]
    intro c hc
    exact decide_eq_true fun heq => hb (heq ▸ hc)
  have hdrop : ((before ++ 0x25 :: after).dropWhile (· ≠ 0x25)).tail = after := by
    rw [dropWhile_append_of_pos, dropWhile_cons_of_neg (by simp), tail_cons]
    intro c hc
    exact decide_eq_true fun heq => hb (heq ▸ hc)
  have hlen : ¬ (before ++ stem ++ after).length < before.length + after.length := by
    simp only [length_append]
    omega
  have hparts : (before.isPrefixOf (before ++ stem ++ after) &&
      after.isSuffixOf (before ++ stem ++ after)) = true := by
    rw [Bool.and_eq_true, List.isPrefixOf_iff_prefix, List.isSuffixOf_iff_suffix, append_assoc]
    exact ⟨prefix_append _ _, ⟨before ++ stem, by rw [append_assoc]⟩⟩
  rw [stemOf, splitPercent, if_pos (by simp), htake, hdrop]
  dsimp only
  rw [if_neg ha, if_neg hlen, if_pos hparts]
  rfl

/-- A text without `%` at the head of another stands before its first `%`. -/
theorem prefix_of_mark {before rest before' after' : Bytes} (hb : 0x25 ∉ before)
    (hb' : 0x25 ∉ before') (h : before ++ rest = before' ++ 0x25 :: after') :
    before <+: before' := by
  have hpos : ∀ {s : Bytes}, 0x25 ∉ s → ∀ c ∈ s, decide (c ≠ 0x25) = true :=
    fun hs c hc => decide_eq_true fun heq => hs (heq ▸ hc)
  have htake := congrArg (takeWhile (· ≠ 0x25)) h
  rw [takeWhile_append_of_pos (hpos hb), takeWhile_append_of_pos (hpos hb'),
    takeWhile_cons_of_neg (by simp), append_nil] at htake
  exact ⟨_, htake⟩

/-- What an instance of a pattern would match as a pattern, the pattern matches. -/
theorem stemOf_trans {pattern other stem' : Bytes} (h : stemOf pattern name = some stem)
    (h' : stemOf name other = some stem') : (stemOf pattern other).isSome := by
  obtain ⟨before, after, rfl, hb, ha, hname⟩ := stemOf_some h
  obtain ⟨before', after', hname', hb', ha', rfl⟩ := stemOf_some h'
  -- the `%` of the name is in its stem, so the ends of the pattern reach further
  rw [hname'] at hname
  obtain ⟨u, rfl⟩ : before <+: before' := by
    apply prefix_of_mark hb hb'
    rw [hname, append_assoc]
  obtain ⟨v, rfl⟩ : after <:+ after' := by
    rw [← List.reverse_prefix]
    have hrev := congrArg reverse hname
    simp only [reverse_append, reverse_cons, append_assoc] at hrev
    exact prefix_of_mark (by simpa using ha) (by simpa using ha') hrev.symm
  have heq : before ++ u ++ stem' ++ (v ++ after) = before ++ (u ++ stem' ++ v) ++ after := by
    simp only [append_assoc]
  rw [heq]
  exact stemOf_isSome hb ha

/-! ### Tables with instances -/

/-- The entries of the table as it was read, and instances for names of a known set. -/
structure Table (ts : List Target) (names : List Bytes) (es : List Entry) : Prop where
  shape : ∃ instances : List Target, es.map Entry.target = ts ++ instances ∧
    (∀ t ∈ instances, t.name ∈ names ∧ isInstance ts t.name = true ∧ resolve ts t.name = some t) ∧
    (instances.map Target.name).Nodup

/-- The table has room for the instances of the names. -/
def Fits (ts : List Target) (names : List Bytes) : Prop :=
  ts.length + (names.filter (isInstance ts)).length ≤ targetMax

section

variable {ts : List Target} {names : List Bytes} {es : List Entry}

theorem Table.start : Table ts names (ts.map fun t => ⟨t, false, false⟩) :=
  ⟨⟨[], by simp [Function.comp_def], fun t ht => absurd ht not_mem_nil, nodup_nil⟩⟩

theorem Table.modify (h : Table ts names es)
    (hf : ∀ e, (f e).target = e.target) : Table ts names (es.modify i f) := by
  obtain ⟨instances, hshape⟩ := h.shape
  exact ⟨⟨instances, by rwa [map_target_modify hf]⟩⟩

/-- An instance is not in the table as it was read, and some pattern there makes it. -/
theorem isInstance_iff (h : isInstance ts name = true) :
    (ts.find? fun t => t.name = name) = none ∧
      ∃ p ∈ ts, (stemOf p.name name).isSome := by
  rw [isInstance, Bool.and_eq_true, Option.isNone_iff_eq_none] at h
  obtain ⟨hnone, hsome⟩ := h
  refine ⟨hnone, ?_⟩
  rw [resolve, hnone] at hsome
  obtain ⟨p, hp, hstem⟩ := findSome?_isSome_iff.mp hsome
  exact ⟨p, hp, by rwa [Option.isSome_map] at hstem⟩

/-- The entry of a name is what the name stands for. -/
theorem Table.resolve_of_entryOf (h : Table ts names es)
    (he : entryOf es n = some e) : resolve ts n = some e.target := by
  obtain ⟨instances, hshape, hinst, _⟩ := h.shape
  have hfind : (ts ++ instances).find? (fun t => t.name = n) = some e.target := by
    rw [← hshape, find?_map]
    exact congrArg (Option.map Entry.target) he
  rw [find?_append] at hfind
  cases hold : ts.find? (fun t => decide (t.name = n)) with
  | some t =>
    rw [hold] at hfind
    rw [resolve, hold]
    exact hfind
  | none =>
    rw [hold, Option.none_or] at hfind
    have hmem := hinst _ (mem_of_find?_eq_some hfind)
    have hname : e.target.name = n := by simpa using find?_some hfind
    rw [← hname]
    exact hmem.2.2

/-- The patterns of a table match what those that were read match. -/
theorem Table.findPattern_eq (h : Table ts names es) (hnone : entryOf es n = none) :
    findPattern es n = resolve ts n := by
  obtain ⟨instances, hshape, hinst, _⟩ := h.shape
  have hfind : (ts ++ instances).find? (fun t => t.name = n) = none := by
    rw [← hshape, find?_map]
    exact congrArg (Option.map Entry.target) hnone
  rw [find?_append, Option.or_eq_none_iff] at hfind
  have hsome : findPattern es n =
      (ts ++ instances).findSome? fun t => (stemOf t.name n).map (t.instance n) := by
    rw [← hshape, findSome?_map]
    rfl
  rw [hsome, findSome?_append, resolve, hfind.1]
  dsimp only
  cases hold : ts.findSome? (fun t => (stemOf t.name n).map (t.instance n)) with
  | some t => rfl
  | none =>
    -- an instance that matched would come from a pattern that matches
    rw [Option.none_or, findSome?_eq_none_iff]
    intro t ht
    cases hstem : stemOf t.name n with
    | none => rfl
    | some stem =>
      obtain ⟨_, p, hp, hmatch⟩ := isInstance_iff (hinst t ht).2.1
      obtain ⟨stem', hstem'⟩ := Option.isSome_iff_exists.mp hmatch
      obtain ⟨x, hx⟩ := Option.isSome_iff_exists.mp (stemOf_trans hstem' hstem)
      have hno := findSome?_eq_none_iff.mp hold p hp
      rw [hx] at hno
      cases hno

/-- There is room for a new instance. -/
theorem Table.room (h : Table ts names es) (hfits : Fits ts names) (hn : n ∈ names)
    (hinstance : isInstance ts n = true) (hnone : entryOf es n = none) :
    es.length ≠ targetMax := by
  obtain ⟨instances, hshape, hinst, hnodup⟩ := h.shape
  have hlen : es.length = ts.length + instances.length := by
    have hmap := congrArg length hshape
    rwa [length_map, length_append] at hmap
  have hnew : n ∉ instances.map Target.name := by
    intro hmem
    obtain ⟨t, ht, rfl⟩ := mem_map.mp hmem
    have htin : t ∈ es.map Entry.target := by
      rw [hshape]
      exact mem_append_right _ ht
    obtain ⟨e, he, rfl⟩ := mem_map.mp htin
    rw [entryOf, find?_eq_none] at hnone
    exact hnone e he (by simp)
  have hsub : (n :: instances.map Target.name) ⊆ names.filter (isInstance ts) := by
    intro x hx
    rw [mem_filter]
    obtain rfl | hx := mem_cons.mp hx
    · exact ⟨hn, hinstance⟩
    · obtain ⟨t, ht, rfl⟩ := mem_map.mp hx
      exact ⟨(hinst t ht).1, (hinst t ht).2.1⟩
  have hle := (subperm_of_subset (nodup_cons.mpr ⟨hnew, hnodup⟩) hsub).length_le
  rw [length_cons, length_map] at hle
  rw [Fits] at hfits
  omega

/-- **`find_target`** finds nothing for a name that stands for nothing. -/
theorem Table.findTarget_none (h : Table ts names es) (hn : resolve ts n = none) :
    findTarget n es = (none, es) := by
  cases hname : findName es n with
  | some i =>
    obtain ⟨e, _, he, _⟩ := entryOf_of_findName hname
    rw [h.resolve_of_entryOf he] at hn
    cases hn
  | none =>
    rw [findTarget, hname, h.findPattern_eq (entryOf_of_findName_none hname), hn]

/-- **`find_target`** finds what a name stands for, in the table or as a new instance. -/
theorem Table.findTarget_some (h : Table ts names es) (hfits : Fits ts names)
    (hn : n ∈ names) (ht : resolve ts n = some t) :
    ∃ i es', findTarget n es = (some i, es') ∧ Table ts names es' ∧ Grows es es' ∧
      findName es' n = some i ∧ ∃ e, es'[i]? = some e ∧ entryOf es' n = some e ∧ e.target = t := by
  cases hname : findName es n with
  | some i =>
    obtain ⟨e, he, hentry, _⟩ := entryOf_of_findName hname
    have hresolve := h.resolve_of_entryOf hentry
    rw [ht] at hresolve
    refine ⟨i, es, ?_, h, .refl es, hname, e, he, hentry, (Option.some.inj hresolve).symm⟩
    rw [findTarget, hname]
  | none =>
    have hnone := entryOf_of_findName_none hname
    have hpattern := h.findPattern_eq hnone
    obtain ⟨instances, hshape, hinst, hnodup⟩ := h.shape
    have hfind : (ts.find? fun t => t.name = n) = none := by
      have hall : (ts ++ instances).find? (fun t => t.name = n) = none := by
        rw [← hshape, find?_map]
        exact congrArg (Option.map Entry.target) hnone
      rw [find?_append, Option.or_eq_none_iff] at hall
      exact hall.1
    have hinstance : isInstance ts n = true := by
      rw [isInstance, hfind, ht]
      rfl
    have hroom := h.room hfits hn hinstance hnone
    have htname := resolve_name ht
    have hindex : findName (es ++ [⟨t, false, false⟩]) n = some es.length := by
      rw [findName] at hname ⊢
      rw [findIdx?_append, hname, Option.none_or, findIdx?_cons,
        if_pos (by simpa using htname)]
      simp
    refine ⟨es.length, es ++ [⟨t, false, false⟩], ?_, ?_, ?_, hindex, ⟨t, false, false⟩, by simp, ?_, rfl⟩
    · rw [findTarget, hname, hpattern, ht]
      dsimp only
      rw [if_neg hroom]
    · refine ⟨⟨instances ++ [t], ?_, ?_, ?_⟩⟩
      · rw [map_append, hshape, append_assoc]
        rfl
      · intro x hx
        obtain hx | hx := mem_append.mp hx
        · exact hinst x hx
        · obtain rfl := mem_singleton.mp hx
          rw [htname]
          exact ⟨hn, hinstance, ht⟩
      · rw [map_append, nodup_append]
        refine ⟨hnodup, by simp, ?_⟩
        rintro x hx y hy' rfl
        obtain rfl : x = t.name := by simpa using hy'
        obtain ⟨y, hy, hyn⟩ := mem_map.mp hx
        have hyin : y ∈ es.map Entry.target := by
          rw [hshape]
          exact mem_append_right _ hy
        obtain ⟨e, he, rfl⟩ := mem_map.mp hyin
        rw [entryOf, find?_eq_none] at hnone
        exact hnone e he (by simpa using hyn.trans htname)
    · refine ⟨[⟨t, false, false⟩], rfl, fun e he => ?_⟩
      obtain rfl := mem_singleton.mp he
      exact ⟨rfl, rfl⟩
    · rw [entryOf] at hnone ⊢
      rw [find?_append, hnone, Option.none_or, find?_cons_of_pos (by simpa using htname)]

/-! ### Dependencies -/

/-- The entry of a name has the flag `done`. -/
def Done (es : List Entry) (n : Bytes) : Prop := ∃ e, entryOf es n = some e ∧ e.done = true

/-- The entry of a name has the flag `visiting`. -/
def Visiting (es : List Entry) (n : Bytes) : Prop := ∃ e, entryOf es n = some e ∧ e.visiting = true

theorem Grows.done_iff (h : Grows es es') :
    Done es' n ↔ Done es n := by
  constructor
  · rintro ⟨e, he, hdone⟩
    exact ⟨e, h.entryOf_of_flag he (Or.inr hdone), hdone⟩
  · rintro ⟨e, he, hdone⟩
    exact ⟨e, h.entryOf he, hdone⟩

theorem Grows.visiting_iff (h : Grows es es') :
    Visiting es' n ↔ Visiting es n := by
  constructor
  · rintro ⟨e, he, hflag⟩
    exact ⟨e, h.entryOf_of_flag he (Or.inl hflag), hflag⟩
  · rintro ⟨e, he, hflag⟩
    exact ⟨e, h.entryOf he, hflag⟩

/-- **The dependencies to run**: those that are targets and not done. -/
theorem uniqueDeps_spec (h : Table ts names es) (hfits : Fits ts names) {deps : List Bytes}
    (hdeps : ∀ d ∈ deps, d ∈ names) (uniques : List Nat) :
    ∃ js es', uniqueDeps deps uniques es = (js, es') ∧ Table ts names es' ∧ Grows es es' ∧
      (∀ j ∈ uniques, j ∈ js) ∧
      (∀ j ∈ js, j ∈ uniques ∨ ∃ d ∈ deps, findName es' d = some j) ∧
      ∀ d ∈ deps, (resolve ts d).isSome → Done es' d ∨ ∃ j ∈ js, findName es' d = some j := by
  induction deps generalizing es uniques with
  | nil =>
    exact ⟨uniques, es, rfl, h, .refl es, fun j hj => hj, fun j hj => Or.inl hj,
      fun d hd => absurd hd not_mem_nil⟩
  | cons d deps ih =>
    have hd := hdeps d mem_cons_self
    have hrest : ∀ x ∈ deps, x ∈ names := fun x hx => hdeps x (mem_cons_of_mem _ hx)
    cases ht : resolve ts d with
    | none =>
      obtain ⟨js, es', heq, htable, hgrows, hkeep, hfrom, hall⟩ := ih h hrest uniques
      refine ⟨js, es', ?_, htable, hgrows, hkeep, ?_, ?_⟩
      · rw [uniqueDeps, h.findTarget_none ht]
        exact heq
      · intro j hj
        exact (hfrom j hj).imp_right fun ⟨x, hx, hxj⟩ => ⟨x, mem_cons_of_mem _ hx, hxj⟩
      · intro x hx hsome
        obtain rfl | hx := mem_cons.mp hx
        · rw [ht] at hsome
          cases hsome
        · exact hall x hx hsome
    | some t =>
      obtain ⟨i, es₁, hfind, htable₁, hgrows₁, hname, e, he, hentry, _⟩ :=
        h.findTarget_some hfits hd ht
      -- what is passed is done or in the list already
      by_cases hskip : (es₁[i]?.any Entry.done) = true ∨ i ∈ uniques
      · obtain ⟨js, es', heq, htable, hgrows, hkeep, hfrom, hall⟩ := ih htable₁ hrest uniques
        refine ⟨js, es', ?_, htable, hgrows₁.trans hgrows, hkeep, ?_, ?_⟩
        · rw [uniqueDeps, hfind]
          dsimp only
          rw [if_pos hskip, heq]
        · intro j hj
          exact (hfrom j hj).imp_right fun ⟨x, hx, hxj⟩ => ⟨x, mem_cons_of_mem _ hx, hxj⟩
        · intro x hx hsome
          obtain rfl | hx := mem_cons.mp hx
          · obtain hdone | hmem := hskip
            · rw [he] at hdone
              exact Or.inl (hgrows.done_iff.mpr ⟨e, hentry, hdone⟩)
            · exact Or.inr ⟨i, hkeep i hmem, hgrows.findName hname⟩
          · exact hall x hx hsome
      · obtain ⟨js, es', heq, htable, hgrows, hkeep, hfrom, hall⟩ :=
          ih htable₁ hrest (uniques ++ [i])
        refine ⟨js, es', ?_, htable, hgrows₁.trans hgrows,
          fun j hj => hkeep j (mem_append_left _ hj), ?_, ?_⟩
        · rw [uniqueDeps, hfind]
          dsimp only
          rw [if_neg hskip, heq]
        · intro j hj
          obtain hmem | ⟨x, hx, hxj⟩ := hfrom j hj
          · obtain hmem | hmem := mem_append.mp hmem
            · exact Or.inl hmem
            · obtain rfl := mem_singleton.mp hmem
              exact Or.inr ⟨d, mem_cons_self, hgrows.findName hname⟩
          · exact Or.inr ⟨x, mem_cons_of_mem _ hx, hxj⟩
        · intro x hx hsome
          obtain rfl | hx := mem_cons.mp hx
          · exact Or.inr ⟨i, hkeep i (mem_append_right _ mem_cons_self),
              hgrows.findName hname⟩
          · exact hall x hx hsome

/-! ### The test of time stamps -/

variable (cfg : Config)

/-- The files whose stamps a target is compared with. -/
def reads (ts : List Target) (t : Target) : List Bytes :=
  (t.inputs ++ t.deps.flatMap fun d => depFiles d (resolve ts d)).map (expandPath cfg)

/-- The files that a target makes. -/
def outs (t : Target) : List Bytes := t.outputs.map (expandPath cfg)

/-- A file is missing, or some output is older than a file that the target reads. -/
def Outdated (ts : List Target) (mtime : Bytes → Option Stamp) (t : Target) : Prop :=
  t.phony = true ∨ t.outputs = [] ∨ (∃ f ∈ reads cfg ts t ++ outs cfg t, mtime f = none) ∨
    ∃ o ∈ outs cfg t, ∃ old, mtime o = some old ∧
      (old < toLex (0, 0) ∨ ∃ f ∈ reads cfg ts t, ∃ m, mtime f = some m ∧ old < m)

theorem newestOf_append (mtime : Bytes → Option Stamp) (ps qs : List Bytes) (latest : Stamp) :
    newestOf mtime (ps ++ qs) latest = (newestOf mtime ps latest).bind (newestOf mtime qs) := by
  induction ps generalizing latest with
  | nil => rfl
  | cons p ps ih =>
    rw [cons_append, newestOf, newestOf]
    split
    · rfl
    · exact ih _

/-- There is no newest file when one is missing. -/
theorem newestOf_eq_none {latest : Stamp} :
    newestOf mtime ps latest = none ↔ ∃ p ∈ ps, mtime p = none := by
  induction ps generalizing latest with
  | nil => simp [newestOf]
  | cons p ps ih =>
    rw [newestOf]
    cases hp : mtime p with
    | none => simp [hp]
    | some m => simp [hp, ih]

/-- The stamps of a list of files, the first one's at hand. -/
theorem exists_stamp_cons {p : Bytes} {m : Stamp} (hp : mtime p = some m) (P : Stamp → Prop) :
    (∃ q ∈ p :: ps, ∃ x, mtime q = some x ∧ P x) ↔
      P m ∨ ∃ q ∈ ps, ∃ x, mtime q = some x ∧ P x := by
  rw [exists_mem_cons_iff, hp]
  refine or_congr ⟨?_, fun h => ⟨m, rfl, h⟩⟩ Iff.rfl
  rintro ⟨x, hx, h⟩
  cases hx
  exact h

/-- What lies before the newest stamp. -/
theorem lt_newestOf {latest newest : Stamp}
    (h : newestOf mtime ps latest = some newest) (y : Stamp) :
    y < newest ↔ y < latest ∨ ∃ p ∈ ps, ∃ m, mtime p = some m ∧ y < m := by
  induction ps generalizing latest with
  | nil =>
    cases h
    simp
  | cons p ps ih =>
    rw [newestOf] at h
    cases hp : mtime p with
    | none =>
      rw [hp] at h
      cases h
    | some m =>
      rw [hp] at h
      have hmax : y < (if latest < m then m else latest) ↔ y < latest ∨ y < m := by
        split
        next hlt => exact ⟨Or.inr, fun hy => hy.elim (fun hy => hy.trans hlt) id⟩
        next hge => exact ⟨Or.inl, fun hy => hy.elim id fun hy => hy.trans_le (not_lt.mp hge)⟩
      rw [ih h, hmax, exists_stamp_cons hp (y < ·), or_assoc]

/-- There is no oldest file when one is missing. -/
theorem oldestOf_eq_none {acc : Option Stamp} :
    oldestOf mtime ps acc = none ↔ (ps = [] ∧ acc = none) ∨ ∃ p ∈ ps, mtime p = none := by
  induction ps generalizing acc with
  | nil => simp [oldestOf]
  | cons p ps ih =>
    rw [oldestOf]
    cases hp : mtime p with
    | none => simp [hp]
    | some m => simp [hp, ih]

/-- What lies behind the oldest of a stamp and files. -/
theorem oldestOf_lt_from {o oldest : Stamp}
    (h : oldestOf mtime ps (some o) = some oldest) (y : Stamp) :
    oldest < y ↔ o < y ∨ ∃ p ∈ ps, ∃ m, mtime p = some m ∧ m < y := by
  induction ps generalizing o with
  | nil =>
    cases h
    simp
  | cons p ps ih =>
    rw [oldestOf] at h
    cases hp : mtime p with
    | none =>
      rw [hp] at h
      cases h
    | some m =>
      rw [hp] at h
      have hmin : (if m < o then m else o) < y ↔ o < y ∨ m < y := by
        split
        next hlt => exact ⟨Or.inr, fun hy => hy.elim (fun hy => hlt.trans hy) id⟩
        next hge => exact ⟨Or.inl, fun hy => hy.elim id fun hy => (not_lt.mp hge).trans_lt hy⟩
      rw [ih h, hmin, exists_stamp_cons hp (· < y), or_assoc]

/-- What lies behind the oldest file. -/
theorem oldestOf_lt {oldest : Stamp} (h : oldestOf mtime ps none = some oldest) (y : Stamp) :
    oldest < y ↔ ∃ p ∈ ps, ∃ m, mtime p = some m ∧ m < y := by
  obtain _ | ⟨p, ps⟩ := ps
  · exact absurd h (by simp [oldestOf])
  rw [oldestOf] at h
  cases hp : mtime p with
  | none =>
    rw [hp] at h
    cases h
  | some m =>
    rw [hp] at h
    rw [oldestOf_lt_from h, exists_stamp_cons hp (· < y)]

/-- The dependencies' stamps, in any table of the build. -/
theorem newestDeps_eq (h : Table ts names es) (hfits : Fits ts names) {deps : List Bytes}
    (hdeps : ∀ d ∈ deps, d ∈ names) (mtime : Bytes → Option Stamp) (latest : Stamp) :
    ∃ es', newestDeps cfg mtime deps latest es =
        (newestOf mtime ((deps.flatMap fun d => depFiles d (resolve ts d)).map (expandPath cfg))
          latest, es') ∧
      Table ts names es' ∧ Grows es es' := by
  induction deps generalizing es latest with
  | nil => exact ⟨es, rfl, h, .refl es⟩
  | cons d deps ih =>
    have hrest : ∀ x ∈ deps, x ∈ names := fun x hx => hdeps x (mem_cons_of_mem _ hx)
    -- what `find_target` gives for the first one
    obtain ⟨found, es₁, hfind, htable₁, hgrows₁, hpaths⟩ : ∃ found es₁,
        findTarget d es = (found, es₁) ∧ Table ts names es₁ ∧ Grows es es₁ ∧
        (found.bind (es₁[·]?)).map Entry.target = resolve ts d := by
      cases ht : resolve ts d with
      | none => exact ⟨none, es, h.findTarget_none ht, h, .refl es, rfl⟩
      | some t =>
        obtain ⟨i, es₁, hfind, htable₁, hgrows₁, _, e, he, _, rfl⟩ :=
          h.findTarget_some hfits (hdeps d mem_cons_self) ht
        exact ⟨some i, es₁, hfind, htable₁, hgrows₁, by rw [Option.bind_some, he]; rfl⟩
    rw [newestDeps, hfind]
    dsimp only
    rw [hpaths, flatMap_cons, map_append, newestOf_append]
    split
    next hnone => exact ⟨es₁, by rw [hnone]; rfl, htable₁, hgrows₁⟩
    next x hsome =>
      obtain ⟨es', heq, htable, hgrows⟩ := ih htable₁ hrest x
      exact ⟨es', by rw [heq, hsome]; rfl, htable, hgrows₁.trans hgrows⟩

/-- **The test** finds a target out of date when it is, in any table of the build. -/
theorem targetOutOfDate_spec (h : Table ts names es) (hfits : Fits ts names)
    (hdeps : ∀ d ∈ t.deps, d ∈ names) (mtime : Bytes → Option Stamp) :
    ((targetOutOfDate cfg mtime t es).1 = true ↔ Outdated cfg ts mtime t) ∧
      Table ts names (targetOutOfDate cfg mtime t es).2 ∧
      Grows es (targetOutOfDate cfg mtime t es).2 := by
  rw [targetOutOfDate, Outdated]
  by_cases halways : t.phony = true ∨ t.outputs = []
  · rw [if_pos halways]
    refine ⟨iff_of_true rfl ?_, h, .refl es⟩
    exact halways.elim Or.inl fun h => Or.inr (Or.inl h)
  rw [if_neg halways]
  obtain ⟨hphony, houtputs⟩ := not_or.mp halways
  have houts : outs cfg t ≠ [] := by rwa [outs, ne_eq, map_eq_nil_iff]
  rw [or_iff_right hphony, or_iff_right houtputs]
  -- a missing file is enough
  have hmissing : ∀ f ∈ reads cfg ts t ++ outs cfg t, mtime f = none →
      ((∃ f ∈ reads cfg ts t ++ outs cfg t, mtime f = none) ∨
        ∃ o ∈ outs cfg t, ∃ old, mtime o = some old ∧
          (old < toLex (0, 0) ∨ ∃ f ∈ reads cfg ts t, ∃ m, mtime f = some m ∧ old < m)) :=
    fun f hf hnone => Or.inl ⟨f, hf, hnone⟩
  split
  next hnone =>
    obtain ⟨f, hf, hf'⟩ := newestOf_eq_none.mp hnone
    refine ⟨iff_of_true rfl (hmissing f ?_ hf'), h, .refl es⟩
    rw [reads, map_append]
    exact mem_append_left _ (mem_append_left _ hf)
  next latest hlatest =>
    obtain ⟨es', heq, htable, hgrows⟩ := newestDeps_eq cfg h hfits hdeps mtime latest
    have hreads : newestOf mtime (reads cfg ts t) (toLex (0, 0)) =
        (newestDeps cfg mtime t.deps latest es).1 := by
      rw [heq, reads, map_append, newestOf_append, hlatest]
      rfl
    rw [heq] at hreads ⊢
    dsimp only at hreads ⊢
    rw [← hreads]
    cases hnewest : newestOf mtime (reads cfg ts t) (toLex (0, 0)) with
    | none =>
      obtain ⟨f, hf, hf'⟩ := newestOf_eq_none.mp hnewest
      exact ⟨iff_of_true rfl (hmissing f (mem_append_left _ hf) hf'), htable, hgrows⟩
    | some newest =>
      cases holdest : oldestOf mtime (outs cfg t) none with
      | none =>
        rw [outs] at holdest
        rw [holdest]
        obtain ⟨hnil, _⟩ | ⟨f, hf, hf'⟩ := oldestOf_eq_none.mp holdest
        · exact absurd hnil houts
        · exact ⟨iff_of_true rfl (hmissing f (mem_append_right _ hf) hf'), htable, hgrows⟩
      | some oldest =>
        -- every file is there
        have hall : ¬ ∃ f ∈ reads cfg ts t ++ outs cfg t, mtime f = none := by
          rintro ⟨f, hf, hf'⟩
          obtain hf | hf := mem_append.mp hf
          · rw [newestOf_eq_none.mpr ⟨f, hf, hf'⟩] at hnewest
            cases hnewest
          · rw [oldestOf_eq_none.mpr (Or.inr ⟨f, hf, hf'⟩)] at holdest
            cases holdest
        have htest : oldest < newest ↔ ∃ o ∈ outs cfg t, ∃ old, mtime o = some old ∧
            (old < toLex (0, 0) ∨ ∃ f ∈ reads cfg ts t, ∃ m, mtime f = some m ∧ old < m) := by
          rw [oldestOf_lt holdest]
          simp only [lt_newestOf hnewest]
        rw [outs] at holdest
        rw [holdest, or_iff_right hall, ← htest]
        exact ⟨decide_eq_true_iff, htable, hgrows⟩

end

end MeuOS.Meow
