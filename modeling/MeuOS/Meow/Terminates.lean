import MeuOS.Meow.Graph

namespace MeuOS.Meow

open MeuOS.Lib List

/-!
# The traversal ends

Every call that goes deeper visits one more entry of the table, and the table has at most
`targetMax` entries, instances of patterns included: `runRequested_total`.
-/

/-- A table with more entries, within its limit. -/
def Extends (es es' : List Entry) : Prop :=
  es <+: es' ∧ (es.length ≤ targetMax → es'.length ≤ targetMax)

theorem Extends.refl (es : List Entry) : Extends es es := ⟨prefix_rfl, id⟩

variable {es es' : List Entry}

theorem Extends.trans {es'' : List Entry} (h : Extends es es') (h' : Extends es' es'') :
    Extends es es'' :=
  ⟨h.1.trans h'.1, fun hle => h'.2 (h.2 hle)⟩

theorem findTarget_extends (name : Bytes) (es : List Entry) :
    Extends es (findTarget name es).2 := by
  rw [findTarget]
  split
  · exact .refl es
  split
  · exact .refl es
  split
  · exact .refl es
  next hroom =>
    refine ⟨prefix_append _ _, fun hle => ?_⟩
    show (es ++ [_]).length ≤ targetMax
    rw [length_append, length_singleton]
    omega

theorem uniqueDeps_extends (deps : List Bytes) (uniques : List Nat) (es : List Entry) :
    Extends es (uniqueDeps deps uniques es).2 := by
  induction deps generalizing uniques es with
  | nil => exact .refl es
  | cons d deps ih =>
    have hfind := findTarget_extends d es
    rw [uniqueDeps]
    cases hd : findTarget d es with
    | mk found es₁ =>
    rw [hd] at hfind
    cases found with
    | none => exact hfind.trans (ih uniques es₁)
    | some j =>
      dsimp only
      split
      · exact hfind.trans (ih uniques es₁)
      · exact hfind.trans (ih (uniques ++ [j]) es₁)

section

variable (cfg : Config)

theorem newestDeps_extends (mtime : Bytes → Option Stamp) (deps : List Bytes) (latest : Stamp)
    (es : List Entry) : Extends es (newestDeps cfg mtime deps latest es).2 := by
  induction deps generalizing latest es with
  | nil => exact .refl es
  | cons d deps ih =>
    have hfind := findTarget_extends d es
    rw [newestDeps]
    split
    · exact hfind
    · exact hfind.trans (ih _ _)

theorem targetOutOfDate_extends (mtime : Bytes → Option Stamp) (t : Target) (es : List Entry) :
    Extends es (targetOutOfDate cfg mtime t es).2 := by
  rw [targetOutOfDate]
  split
  · exact .refl es
  split
  · exact .refl es
  next latest _ =>
    have hdeps := newestDeps_extends cfg mtime t.deps latest es
    cases hd : newestDeps cfg mtime t.deps latest es with
    | mk newest es' =>
    rw [hd] at hdeps
    cases newest with
    | none => exact hdeps
    | some newest =>
      dsimp only
      split
      · exact hdeps
      · exact hdeps

end

/-! ### Entries that are being visited -/

/-- What is being visited stays so. -/
def StillVisiting (es es' : List Entry) : Prop :=
  ∀ (j : Nat) (e : Entry), es[j]? = some e → e.visiting = true →
    ∃ e' : Entry, es'[j]? = some e' ∧ e'.visiting = true

/-- How many entries are being visited. -/
def visitingCount (es : List Entry) : Nat := es.countP Entry.visiting

theorem StillVisiting.trans {es'' : List Entry} (h : StillVisiting es es')
    (h' : StillVisiting es' es'') : StillVisiting es es'' := by
  intro j e he hv
  obtain ⟨e', he', hv'⟩ := h j e he hv
  exact h' j e' he' hv'

theorem Extends.stillVisiting (h : Extends es es') :
    StillVisiting es es' := by
  obtain ⟨⟨new, rfl⟩, _⟩ := h
  intro j e he hv
  refine ⟨e, ?_, hv⟩
  rw [List.getElem?_append_left (List.getElem?_eq_some_iff.mp he).1]
  exact he

theorem visitingCount_le (h : StillVisiting es es') :
    visitingCount es ≤ visitingCount es' := by
  induction es generalizing es' with
  | nil => exact Nat.zero_le _
  | cons e es ih =>
    rw [visitingCount, countP_cons]
    obtain _ | ⟨e', es'⟩ := es'
    · -- nothing can be visited
      have hnone : ∀ x ∈ e :: es, x.visiting = false := by
        intro x hx
        obtain ⟨j, hj, rfl⟩ := getElem_of_mem hx
        by_contra hv
        obtain ⟨y, hy, _⟩ := h j _ (getElem?_eq_getElem hj) (by simpa using hv)
        cases hy
      have hzero : es.countP Entry.visiting = 0 := by
        rw [countP_eq_zero]
        intro x hx
        simp [hnone x (mem_cons_of_mem _ hx)]
      rw [hzero, hnone e mem_cons_self]
      exact Nat.zero_le _
    · have htail : StillVisiting es es' := fun j x hx hv => h (j + 1) x hx hv
      have hle := ih htail
      rw [visitingCount, visitingCount] at hle
      rw [visitingCount, countP_cons]
      cases hv : e.visiting with
      | false =>
        rw [if_neg (by decide)]
        omega
      | true =>
        obtain ⟨y, hy, hyv⟩ := h 0 e rfl hv
        cases hy
        rw [if_pos rfl, if_pos hyv]
        omega

/-- One more entry is being visited. -/
theorem visitingCount_modify {i : Nat} {e : Entry} (he : es[i]? = some e)
    (hv : e.visiting = false) (done : Bool) :
    visitingCount (es.modify i fun e => { e with visiting := true, done := done }) =
      visitingCount es + 1 := by
  induction es generalizing i with
  | nil => cases he
  | cons x es ih =>
    obtain _ | i := i
    · cases he
      rw [modify_zero_cons, visitingCount, visitingCount, countP_cons, countP_cons,
        hv, if_pos rfl, if_neg (by decide)]
    · have ih := @ih i he
      rw [visitingCount, visitingCount] at ih
      rw [modify_succ_cons, visitingCount, visitingCount, countP_cons, countP_cons,
        ih]
      omega

section

variable {σ : Type} {cfg : Config} {mach : Machine σ}

/-- New flags for an entry that is not being visited. -/
theorem stillVisiting_modify {i : Nat} {f : Entry → Entry}
    (h : ∀ e, es[i]? = some e → e.visiting = false) : StillVisiting es (es.modify i f) := by
  intro j e he hv
  refine ⟨e, ?_, hv⟩
  have hne : i ≠ j := by
    rintro rfl
    rw [h e he] at hv
    cases hv
  rw [getElem?_modify, he, Option.map_eq_map, Option.map_some, if_neg hne]

/-- The part behind the dependencies keeps what is being visited, its own target apart. -/
theorem runOwn_targets (i : Nat) (t : Target) (b : Build σ) :
    ∃ es, Extends b.targets es ∧ ((runOwn cfg mach i t b).1 = true →
      (runOwn cfg mach i t b).2.targets =
        es.modify i fun e => { e with visiting := false, done := true }) := by
  have htest := fun mtime => targetOutOfDate_extends cfg mtime t b.targets
  rw [runOwn]
  split
  next =>
    split
    · exact ⟨b.targets, .refl _, fun h => absurd h Bool.false_ne_true⟩
    next s _ =>
      refine ⟨_, htest (mach.mtime s), ?_⟩
      dsimp only
      split
      · exact fun h => absurd h Bool.false_ne_true
      · split
        · exact fun h => absurd h Bool.false_ne_true
        · exact fun _ => rfl
  · exact ⟨b.targets, .refl _, fun _ => rfl⟩

/-- A call ends, and what is being visited stays so when it succeeds. -/
def Total {σ : Type} (k : Nat) (run : Nat → Build σ → Option (Bool × Build σ)) : Prop :=
  ∀ i b, b.targets.length ≤ targetMax → k ≤ visitingCount b.targets →
    ∃ r b', run i b = some (r, b') ∧
      (r = true → b'.targets.length ≤ targetMax ∧ StillVisiting b.targets b'.targets)

/-- A chain of calls that end. -/
theorem runDeps_total {k : Nat} {run : Nat → Build σ → Option (Bool × Build σ)} (h : Total k run)
    (js : List Nat) : Total k fun _ b => runDeps run js b := by
  induction js with
  | nil => exact fun _ b hlen _ => ⟨true, b, rfl, fun _ => ⟨hlen, (Extends.refl _).stillVisiting⟩⟩
  | cons j js ih =>
    intro i b hlen hk
    obtain ⟨r, b₁, hrun, hok⟩ := h j b hlen hk
    dsimp only
    rw [runDeps, hrun]
    cases r with
    | false => exact ⟨false, b₁, rfl, fun h => absurd h (by decide)⟩
    | true =>
      obtain ⟨hlen₁, hstill₁⟩ := hok rfl
      obtain ⟨r, b', hrest, hok'⟩ := ih i b₁ hlen₁ (hk.trans (visitingCount_le hstill₁))
      refine ⟨r, b', hrest, fun hr => ?_⟩
      obtain ⟨hlen', hstill'⟩ := hok' hr
      exact ⟨hlen', hstill₁.trans hstill'⟩

/-- **A call ends** when its fuel and the entries being visited exceed the table's limit. -/
theorem runTarget_total (fuel : Nat) :
    Total (targetMax + 1 - fuel) (runTarget cfg mach fuel) := by
  induction fuel with
  | zero =>
    intro i b hlen hk
    have hle : visitingCount b.targets ≤ b.targets.length := countP_le_length
    omega
  | succ fuel ih =>
    intro i b hlen hk
    rw [runTarget]
    cases he : b.targets[i]? with
    | none => exact ⟨false, b, rfl, fun h => absurd h (by decide)⟩
    | some e =>
    dsimp only
    by_cases hv : e.visiting = true
    · rw [if_pos hv]
      exact ⟨false, b, rfl, fun h => absurd h (by decide)⟩
    rw [if_neg hv]
    by_cases hd : e.done = true
    · rw [if_pos hd]
      exact ⟨true, b, rfl, fun _ => ⟨hlen, (Extends.refl _).stillVisiting⟩⟩
    rw [if_neg hd]
    have hnot : ∀ x, b.targets[i]? = some x → x.visiting = false := by
      intro x hx
      cases he.symm.trans hx
      exact Bool.eq_false_iff.mpr hv
    by_cases hw : e.target.wanted cfg = true
    swap
    · rw [if_neg hw]
      refine ⟨true, _, rfl, fun _ => ⟨?_, stillVisiting_modify hnot⟩⟩
      rw [Build.setFlags, length_modify]
      exact hlen
    rw [if_pos hw]
    -- one more entry is being visited
    have hcount := visitingCount_modify he (hnot e he) e.done
    have hext := uniqueDeps_extends e.target.deps [] (b.setFlags i true e.done).targets
    generalize huniques : uniqueDeps e.target.deps [] (b.setFlags i true e.done).targets = found
      at hext
    have hlen₁ : found.2.length ≤ targetMax := by
      apply hext.2
      rw [Build.setFlags, length_modify]
      exact hlen
    have hk₁ : targetMax + 1 - fuel ≤ visitingCount found.2 := by
      have hle := visitingCount_le hext.stillVisiting
      rw [Build.setFlags, hcount] at hle
      omega
    obtain ⟨r, b₂, hrun, hok⟩ :=
      runDeps_total ih found.1 i { b with targets := found.2 } hlen₁ hk₁
    dsimp only at hrun ⊢
    rw [hrun]
    cases r with
    | false => exact ⟨false, b₂, rfl, fun h => absurd h (by decide)⟩
    | true =>
    obtain ⟨hlen₂, hstill₂⟩ := hok rfl
    refine ⟨(runOwn cfg mach i e.target b₂).1, (runOwn cfg mach i e.target b₂).2, rfl, fun hr => ?_⟩
    obtain ⟨es, hes, htargets⟩ := @runOwn_targets σ cfg mach i e.target b₂
    rw [htargets hr, length_modify]
    refine ⟨hes.2 hlen₂, ?_⟩
    -- its own entry was not being visited before
    intro j x hx hxv
    have hne : i ≠ j := by
      rintro rfl
      rw [hnot x hx] at hxv
      cases hxv
    have hx₁ : (b.setFlags i true e.done).targets[j]? = some x := by
      rw [Build.setFlags, getElem?_modify, hx, Option.map_eq_map, Option.map_some, if_neg hne]
    obtain ⟨y, hy, hyv⟩ :=
      (hext.stillVisiting.trans (hstill₂.trans hes.stillVisiting)) j x hx₁ hxv
    refine ⟨y, ?_, hyv⟩
    rw [getElem?_modify, hy, Option.map_eq_map, Option.map_some, if_neg hne]

/-- **A run ends**, for every table that fits. -/
theorem runRequested_total {ts : List Target} (hlen : ts.length ≤ targetMax) (requested : Bytes)
    (s : σ) : ∃ r b, runRequested cfg mach ts requested s = some (r, b) := by
  rw [runRequested]
  have hext := findTarget_extends requested (ts.map fun t => ⟨t, false, false⟩)
  cases hfind : findTarget requested (ts.map fun t => ⟨t, false, false⟩) with
  | mk found es =>
  rw [hfind] at hext
  cases found with
  | none => exact ⟨false, _, rfl⟩
  | some i =>
    obtain ⟨r, b, hrun, _⟩ := @runTarget_total σ cfg mach (targetMax + 1) i
      ⟨es, s, []⟩ (hext.2 (by rwa [length_map])) (by omega)
    exact ⟨r, b, hrun⟩

end

end MeuOS.Meow
