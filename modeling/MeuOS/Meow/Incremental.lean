import MeuOS.Meow.Table
import MeuOS.Meow.Terminates

namespace MeuOS.Meow

open MeuOS.Lib List Option

/-!
# Incremental builds

What a run does, in terms of the time stamps at its start, for recipes whose targets make their
own outputs and list what they depend on.

* `Stale` — out of date at the start, or reading what a stale target makes;
* `Good` — the invariant of a run, and `runTarget_spec`: every call keeps it;
* `runs_iff_stale` — the targets whose commands a run executes are the stale ones;
* `incremental_build` — after a successful run and changes to input files, they are the ones that
  the changes affect.
-/

/-- The condition and the architecture let a target's commands run. -/
def Target.active (cfg : Config) (t : Target) : Prop :=
  t.wanted cfg = true ∧ t.archAllowed cfg = true

/-- A target that is run before another. -/
inductive Needs (cfg : Config) (ts : List Target) : Bytes → Bytes → Prop where
  | dep {n d : Bytes} {t : Target} (h : resolve ts n = some t) (hw : t.wanted cfg = true)
      (hd : d ∈ t.deps) (hr : (resolve ts d).isSome) : Needs cfg ts n d
  | step {n d m : Bytes} {t : Target} (h : resolve ts n = some t) (hw : t.wanted cfg = true)
      (hd : d ∈ t.deps) (hm : Needs cfg ts d m) : Needs cfg ts n m

/-- A table in which every file has one maker, and a target depends on the makers of what it reads.
The names are closed under dependencies. -/
structure WellMade (cfg : Config) (ts : List Target) (names : List Bytes) : Prop where
  closed : ∀ n ∈ names, ∀ t, resolve ts n = some t → t.wanted cfg = true → ∀ d ∈ t.deps, d ∈ names
  fits : Fits ts names
  apart : ∀ n ∈ names, ∀ m ∈ names, ∀ t u, resolve ts n = some t → resolve ts m = some u →
    t.active cfg → u.active cfg → ∀ f ∈ outs cfg t, f ∈ outs cfg u → n = m
  makers : ∀ n ∈ names, ∀ m ∈ names, ∀ t u, resolve ts n = some t → resolve ts m = some u →
    t.active cfg → u.active cfg → ∀ f ∈ reads cfg ts t, f ∈ outs cfg u → Needs cfg ts n m

/-- The files that matter in a run. -/
def Watched (cfg : Config) (ts : List Target) (names : List Bytes) (f : Bytes) : Prop :=
  ∃ n ∈ names, ∃ t, resolve ts n = some t ∧ t.active cfg ∧ f ∈ reads cfg ts t ++ outs cfg t

/-- What the shell commands of the targets do: time goes on, the sections before and behind the
commands leave the files that matter alone, and commands that succeed make all outputs of their
target and change no other of these files. -/
structure Tidy {σ : Type} (cfg : Config) (mach : Machine σ) (ts : List Target) (names : List Bytes)
    (clock : σ → Stamp) : Prop where
  epoch : ∀ s, toLex (0, 0) ≤ clock s
  hook : ∀ n ∈ names, ∀ t, resolve ts n = some t → t.active cfg → ∀ h ∈ t.setup ++ t.finish, ∀ s,
    clock s ≤ clock (runHook mach h s).2 ∧
      ∀ f, Watched cfg ts names f → mach.mtime (runHook mach h s).2 f = mach.mtime s f
  build : ∀ n ∈ names, ∀ t, resolve ts n = some t → t.active cfg → ∀ s,
    (runBuild mach t s).1 = true →
      clock s ≤ clock (runBuild mach t s).2 ∧
      (∀ f, Watched cfg ts names f → f ∉ outs cfg t →
        mach.mtime (runBuild mach t s).2 f = mach.mtime s f) ∧
      ∀ f ∈ outs cfg t, ∃ m, mach.mtime (runBuild mach t s).2 f = some m ∧ clock s ≤ m ∧
        m ≤ clock (runBuild mach t s).2

/-- Out of date at the start of a run, or reading what a stale target makes. -/
inductive Stale (cfg : Config) (ts : List Target) (names : List Bytes)
    (mtime : Bytes → Option Stamp) : Bytes → Prop where
  | own {n : Bytes} {t : Target} (h : resolve ts n = some t) (ho : Outdated cfg ts mtime t) :
      Stale cfg ts names mtime n
  | made {n m f : Bytes} {t u : Target} (h : resolve ts n = some t) (hf : f ∈ reads cfg ts t)
      (hm : m ∈ names) (hu : resolve ts m = some u) (ha : u.active cfg) (hfu : f ∈ outs cfg u)
      (hs : Stale cfg ts names mtime m) : Stale cfg ts names mtime n

/-- The files that matter lie before the clock. -/
def Strict {σ : Type} (cfg : Config) (mach : Machine σ) (ts : List Target) (names : List Bytes)
    (clock : σ → Stamp) (s : σ) : Prop :=
  ∀ f, Watched cfg ts names f → ∀ m, mach.mtime s f = some m → m < clock s

/-- The invariant of a run that started in state `s₀`. -/
structure Good {σ : Type} (cfg : Config) (mach : Machine σ) (ts : List Target) (names : List Bytes)
    (clock : σ → Stamp) (s₀ : σ) (b : Build σ) : Prop where
  table : Table ts names b.targets
  clock_le : clock s₀ ≤ clock b.sys
  now : ∀ f, Watched cfg ts names f → ∀ m, mach.mtime b.sys f = some m → m ≤ clock b.sys
  frame : ∀ f, Watched cfg ts names f →
    (∀ n ∈ b.ran, ∀ t, resolve ts n = some t → f ∉ outs cfg t) →
      mach.mtime b.sys f = mach.mtime s₀ f
  made : ∀ n ∈ b.ran, ∀ t, resolve ts n = some t → ∀ f ∈ outs cfg t,
    ∃ m, mach.mtime b.sys f = some m ∧ clock s₀ ≤ m
  ran_done : ∀ n ∈ b.ran, n ∈ names ∧ Done b.targets n ∧
    ∃ t, resolve ts n = some t ∧ t.active cfg
  deps_done : ∀ n t, Done b.targets n → resolve ts n = some t → t.wanted cfg = true →
    ∀ d ∈ t.deps, (resolve ts d).isSome → Done b.targets d
  tested : Strict cfg mach ts names clock s₀ → ∀ n ∈ names, ∀ t, Done b.targets n →
    resolve ts n = some t → t.active cfg → (n ∈ b.ran ↔ Stale cfg ts names (mach.mtime s₀) n)
  fresh : ∀ n ∈ names, ∀ t, Done b.targets n → resolve ts n = some t → t.active cfg →
    t.phony = false → t.outputs ≠ [] → (∀ f ∈ reads cfg ts t, mach.mtime b.sys f ≠ none) →
      ¬ Outdated cfg ts (mach.mtime b.sys) t

section

variable {σ : Type} {cfg : Config} {mach : Machine σ} {ts : List Target} {names : List Bytes}
  {clock : σ → Stamp} {s₀ : σ}

variable {b b' : Build σ} {n : Bytes} {t : Target} {i : Nat} {visiting r : Bool}

/-- A target that is done has everything done that is run before it. -/
theorem Good.needs_done (h : Good cfg mach ts names clock s₀ b) {m : Bytes}
    (hneeds : Needs cfg ts n m) (hdone : Done b.targets n) : Done b.targets m := by
  induction hneeds with
  | dep hr hw hd hsome => exact h.deps_done _ _ hdone hr hw _ hd hsome
  | step hr hw hd hm ih =>
    refine ih (h.deps_done _ _ hdone hr hw _ hd ?_)
    cases hm with
    | dep hr' _ _ _ => exact isSome_of_eq_some hr'
    | step hr' _ _ _ => exact isSome_of_eq_some hr'

/-- Whether a target is out of date depends on its own files only. -/
theorem outdated_congr {mtime mtime' : Bytes → Option Stamp}
    (h : ∀ f ∈ reads cfg ts t ++ outs cfg t, mtime f = mtime' f) :
    Outdated cfg ts mtime t ↔ Outdated cfg ts mtime' t := by
  have hreads : ∀ f ∈ reads cfg ts t, mtime f = mtime' f :=
    fun f hf => h f (mem_append_left _ hf)
  have houts : ∀ f ∈ outs cfg t, mtime f = mtime' f :=
    fun f hf => h f (mem_append_right _ hf)
  have hold : ∀ old : Stamp, (∃ f ∈ reads cfg ts t, ∃ m, mtime f = some m ∧ old < m) ↔
      ∃ f ∈ reads cfg ts t, ∃ m, mtime' f = some m ∧ old < m := by
    intro old
    refine exists_congr fun f => and_congr_right fun hf => ?_
    rw [hreads f hf]
  rw [Outdated, Outdated]
  refine or_congr_right (or_congr_right (or_congr ?_ ?_))
  · refine exists_congr fun f => and_congr_right fun hf => ?_
    rw [h f hf]
  · refine exists_congr fun o => and_congr_right fun ho => exists_congr fun old => ?_
    rw [houts o ho, hold]

theorem watched_of_mem (hn : n ∈ names) (ht : resolve ts n = some t)
    (ha : t.active cfg) {f : Bytes} (hf : f ∈ reads cfg ts t ++ outs cfg t) :
    Watched cfg ts names f :=
  ⟨n, hn, t, ht, ha, hf⟩

/-- Time goes on, and the files that matter stay. -/
theorem Good.withSys (h : Good cfg mach ts names clock s₀ b) {s : σ}
    (hclock : clock b.sys ≤ clock s)
    (hsame : ∀ f, Watched cfg ts names f → mach.mtime s f = mach.mtime b.sys f) :
    Good cfg mach ts names clock s₀ { b with sys := s } where
  table := h.table
  clock_le := h.clock_le.trans hclock
  now f hf m hm := (h.now f hf m (by rwa [← hsame f hf])).trans hclock
  frame f hf hran := (hsame f hf).trans (h.frame f hf hran)
  made n hn t ht f hf := by
    obtain ⟨hnames, _, u, hu, ha⟩ := h.ran_done n hn
    cases ht.symm.trans hu
    obtain ⟨m, hm, hle⟩ := h.made n hn t ht f hf
    have hwatched := watched_of_mem hnames ht ha (mem_append_right _ hf)
    exact ⟨m, (hsame f hwatched).trans hm, hle⟩
  ran_done := h.ran_done
  deps_done := h.deps_done
  tested := h.tested
  fresh n hn t hdone ht ha hphony houtputs hpresent := by
    have hwatched : ∀ f ∈ reads cfg ts t ++ outs cfg t,
        mach.mtime s f = mach.mtime b.sys f :=
      fun f hf => hsame f (watched_of_mem hn ht ha hf)
    rw [outdated_congr hwatched]
    refine h.fresh n hn t hdone ht ha hphony houtputs fun f hf => ?_
    rw [← hwatched f (mem_append_left _ hf)]
    exact hpresent f hf

/-- New entries and new `visiting` flags. -/
theorem Good.withTargets (h : Good cfg mach ts names clock s₀ b) {es : List Entry}
    (htable : Table ts names es) (hdone : ∀ n, Done es n ↔ Done b.targets n) :
    Good cfg mach ts names clock s₀ { b with targets := es } where
  table := htable
  clock_le := h.clock_le
  now := h.now
  frame := h.frame
  made := h.made
  ran_done n hn := ⟨(h.ran_done n hn).1, (hdone n).mpr (h.ran_done n hn).2.1, (h.ran_done n hn).2.2⟩
  deps_done n t hn ht hw d hd hsome :=
    (hdone d).mpr (h.deps_done n t ((hdone n).mp hn) ht hw d hd hsome)
  tested hstrict n hn t hnd := h.tested hstrict n hn t ((hdone n).mp hnd)
  fresh n hn t hnd := h.fresh n hn t ((hdone n).mp hnd)

/-- The sections before and behind the commands. -/
theorem Tidy.hooks (h : Tidy cfg mach ts names clock) (hn : n ∈ names)
    (ht : resolve ts n = some t) (ha : t.active cfg) (hs : List Hook)
    (hsub : ∀ x ∈ hs, x ∈ t.setup ++ t.finish) (s : σ) :
    clock s ≤ clock (runHooks mach hs s).2 ∧
      ∀ f, Watched cfg ts names f → mach.mtime (runHooks mach hs s).2 f = mach.mtime s f := by
  induction hs generalizing s with
  | nil => exact ⟨le_rfl, fun f _ => rfl⟩
  | cons x hs ih =>
    have hfirst := h.hook n hn t ht ha x (hsub x mem_cons_self) s
    rw [runHooks]
    cases hx : runHook mach x s with
    | mk ok s' =>
      rw [hx] at hfirst
      cases ok with
      | false => exact hfirst
      | true =>
        obtain ⟨hclock, hsame⟩ := ih (fun y hy => hsub y (mem_cons_of_mem _ hy)) s'
        exact ⟨hfirst.1.trans hclock, fun f hf => (hsame f hf).trans (hfirst.2 f hf)⟩

/-! ### One target -/

/-- **The test tells whether the target was stale at the start**, when everything it depends on is
done. -/
theorem Good.outdated_iff (h : Good cfg mach ts names clock s₀ b)
    (hmade : WellMade cfg ts names) (hstrict : Strict cfg mach ts names clock s₀)
    (hn : n ∈ names) (ht : resolve ts n = some t) (ha : t.active cfg)
    (hnot : ¬ Done b.targets n) (hneeds : ∀ m, Needs cfg ts n m → Done b.targets m) :
    Outdated cfg ts (mach.mtime b.sys) t ↔ Stale cfg ts names (mach.mtime s₀) n := by
  have hwatched : ∀ f ∈ reads cfg ts t ++ outs cfg t, Watched cfg ts names f :=
    fun f hf => watched_of_mem hn ht ha hf
  -- only this target makes its outputs, and it has not been run
  have houts : ∀ f ∈ outs cfg t, mach.mtime b.sys f = mach.mtime s₀ f := by
    intro f hf
    refine h.frame f (hwatched f (mem_append_right _ hf)) fun m hm u hu hfu => hnot ?_
    obtain ⟨hmn, hdone, v, hv, hav⟩ := h.ran_done m hm
    cases hu.symm.trans hv
    rw [hmade.apart n hn m hmn t u ht hu ha hav f hf hfu]
    exact hdone
  by_cases hran : ∃ f ∈ reads cfg ts t, ∃ m ∈ b.ran, ∃ u, resolve ts m = some u ∧ f ∈ outs cfg u
  · -- a file that it reads was made in this run
    obtain ⟨f, hf, m, hm, u, hu, hfu⟩ := hran
    obtain ⟨hmn, hdone, v, hv, hav⟩ := h.ran_done m hm
    cases hu.symm.trans hv
    have hstale : Stale cfg ts names (mach.mtime s₀) m :=
      (h.tested hstrict m hmn u hdone hu hav).mp hm
    refine iff_of_true ?_ (.made ht hf hmn hu hav hfu hstale)
    obtain ⟨x, hx, hle⟩ := h.made m hm u hu f hfu
    by_cases hnil : t.outputs = []
    · exact Or.inr (Or.inl hnil)
    have hne : outs cfg t ≠ [] := by rwa [outs, ne_eq, map_eq_nil_iff]
    obtain ⟨o, os, hcons⟩ := exists_cons_of_ne_nil hne
    have ho : o ∈ outs cfg t := by rw [hcons]; exact mem_cons_self
    cases hold : mach.mtime b.sys o with
    | none => exact Or.inr (Or.inr (Or.inl ⟨o, mem_append_right _ ho, hold⟩))
    | some old =>
      have hlt := hstrict o (hwatched o (mem_append_right _ ho)) old (by rw [← houts o ho, hold])
      exact Or.inr (Or.inr (Or.inr ⟨o, ho, old, hold, Or.inr ⟨f, hf, x, hx, hlt.trans_le hle⟩⟩))
  · -- its files are as they were at the start
    have hsame : ∀ f ∈ reads cfg ts t ++ outs cfg t, mach.mtime b.sys f = mach.mtime s₀ f := by
      intro f hf
      obtain hf | hf := mem_append.mp hf
      · refine h.frame f (hwatched f (mem_append_left _ hf)) fun m hm u hu hfu => ?_
        exact hran ⟨f, hf, m, hm, u, hu, hfu⟩
      · exact houts f hf
    rw [outdated_congr hsame]
    refine ⟨.own ht, fun hstale => ?_⟩
    cases hstale with
    | own hr ho =>
      cases ht.symm.trans hr
      exact ho
    | made hr hf hm hu hau hfu hs =>
      cases ht.symm.trans hr
      have hdone := hneeds _ (hmade.makers n hn _ hm t _ ht hu ha hau _ hf hfu)
      exact absurd ⟨_, hf, _, (h.tested hstrict _ hm _ hdone hu hau).mpr hs, _, hu, hfu⟩ hran

/-- The table with a target done. -/
theorem done_setFlags (hi : findName b.targets n = some i) (m : Bytes) :
    Done (b.setFlags i visiting true).targets m ↔ m = n ∨ Done b.targets m := by
  obtain ⟨e, _, he, _⟩ := entryOf_of_findName hi
  have hentry := entryOf_modify hi
    (f := fun e : Entry => { e with visiting := visiting, done := true }) (fun _ => rfl) m
  rw [Done, Build.setFlags, hentry]
  by_cases hm : m = n
  · subst hm
    rw [if_pos rfl, he]
    exact iff_of_true ⟨_, rfl, rfl⟩ (Or.inl rfl)
  · rw [if_neg hm, or_iff_right hm]
    rfl

/-- A target whose commands are not run is done. -/
theorem Good.skip (h : Good cfg mach ts names clock s₀ b)
    (hi : findName b.targets n = some i) (ht : resolve ts n = some t)
    (hdeps : t.wanted cfg = true → ∀ d ∈ t.deps, (resolve ts d).isSome → Done b.targets d)
    (htested : Strict cfg mach ts names clock s₀ → n ∈ names → t.active cfg →
      (n ∈ b.ran ↔ Stale cfg ts names (mach.mtime s₀) n))
    (hfresh : n ∈ names → t.active cfg → t.phony = false → t.outputs ≠ [] →
      (∀ f ∈ reads cfg ts t, mach.mtime b.sys f ≠ none) →
        ¬ Outdated cfg ts (mach.mtime b.sys) t) :
    Good cfg mach ts names clock s₀ (b.setFlags i visiting true) where
  table := h.table.modify fun _ => rfl
  clock_le := h.clock_le
  now := h.now
  frame := h.frame
  made := h.made
  ran_done m hm := by
    obtain ⟨h1, h2, h3⟩ := h.ran_done m hm
    exact ⟨h1, (done_setFlags hi m).mpr (Or.inr h2), h3⟩
  deps_done m u hm hu hw d hd hsome := by
    rw [done_setFlags hi] at hm ⊢
    refine Or.inr ?_
    obtain rfl | hm := hm
    · cases ht.symm.trans hu
      exact hdeps hw d hd hsome
    · exact h.deps_done m u hm hu hw d hd hsome
  tested hstrict m hm u hdone hu ha := by
    rw [done_setFlags hi] at hdone
    obtain rfl | hdone := hdone
    · cases ht.symm.trans hu
      exact htested hstrict hm ha
    · exact h.tested hstrict m hm u hdone hu ha
  fresh m hm u hdone hu ha hphony houtputs hpresent := by
    rw [done_setFlags hi] at hdone
    obtain rfl | hdone := hdone
    · cases ht.symm.trans hu
      exact hfresh hm ha hphony houtputs hpresent
    · exact h.fresh m hm u hdone hu ha hphony houtputs hpresent

/-- A target whose commands have made its outputs is done. -/
theorem Good.built (h : Good cfg mach ts names clock s₀ b)
    (hmade : WellMade cfg ts names) (hepoch : ∀ s, toLex (0, 0) ≤ clock s)
    (hn : n ∈ names) (hi : findName b.targets n = some i)
    (ht : resolve ts n = some t) (ha : t.active cfg) (hnot : ¬ Done b.targets n)
    (hdeps : ∀ d ∈ t.deps, (resolve ts d).isSome → Done b.targets d)
    (houtdated : Outdated cfg ts (mach.mtime b.sys) t) {s : σ} (hclock : clock b.sys ≤ clock s)
    (hframe : ∀ f, Watched cfg ts names f → f ∉ outs cfg t → mach.mtime s f = mach.mtime b.sys f)
    (houts : ∀ f ∈ outs cfg t, ∃ m, mach.mtime s f = some m ∧ clock b.sys ≤ m ∧ m ≤ clock s) :
    Good cfg mach ts names clock s₀
      ((Build.mk b.targets s (n :: b.ran)).setFlags i false true) := by
  have hdone : ∀ m, Done ((Build.mk b.targets s (n :: b.ran)).setFlags i false true).targets m ↔
      m = n ∨ Done b.targets m := fun m => done_setFlags (b := ⟨b.targets, s, n :: b.ran⟩) hi m
  have hneeds : ∀ m, Needs cfg ts n m → Done b.targets m := by
    intro m hm
    cases hm with
    | dep hr hw hd hsome =>
      cases ht.symm.trans hr
      exact hdeps _ hd hsome
    | step hr hw hd hm =>
      cases ht.symm.trans hr
      refine h.needs_done hm (hdeps _ hd ?_)
      cases hm with
      | dep hr' _ _ _ => exact isSome_of_eq_some hr'
      | step hr' _ _ _ => exact isSome_of_eq_some hr'
  -- no other target makes the outputs
  have hother : ∀ m ∈ names, ∀ u, resolve ts m = some u → u.active cfg → m ≠ n →
      ∀ f ∈ outs cfg u, f ∉ outs cfg t :=
    fun m hm u hu hau hne f hf hft => hne (hmade.apart m hm n hn u t hu ht hau ha f hf hft)
  refine ⟨h.table.modify fun _ => rfl, h.clock_le.trans hclock, ?_, ?_, ?_, ?_, ?_, ?_, ?_⟩
  · intro f hf m hm
    by_cases hft : f ∈ outs cfg t
    · obtain ⟨x, hx, _, hle⟩ := houts f hft
      cases hm.symm.trans hx
      exact hle
    · exact (h.now f hf m (by rw [← hframe f hf hft]; exact hm)).trans hclock
  · intro f hf hran
    have hft : f ∉ outs cfg t := hran n mem_cons_self t ht
    exact (hframe f hf hft).trans
      (h.frame f hf fun m hm => hran m (mem_cons_of_mem _ hm))
  · intro m hm u hu f hf
    obtain rfl | hm := mem_cons.mp hm
    · cases ht.symm.trans hu
      obtain ⟨x, hx, hle, _⟩ := houts f hf
      exact ⟨x, hx, h.clock_le.trans hle⟩
    · obtain ⟨hmn, hmd, v, hv, hav⟩ := h.ran_done m hm
      cases hu.symm.trans hv
      have hne : m ≠ n := fun heq => hnot (heq ▸ hmd)
      obtain ⟨x, hx, hle⟩ := h.made m hm u hu f hf
      have hwatched := watched_of_mem hmn hu hav (mem_append_right _ hf)
      exact ⟨x, (hframe f hwatched (hother m hmn u hu hav hne f hf)).trans hx, hle⟩
  · intro m hm
    obtain rfl | hm := mem_cons.mp hm
    · exact ⟨hn, (hdone m).mpr (Or.inl rfl), t, ht, ha⟩
    · obtain ⟨h1, h2, h3⟩ := h.ran_done m hm
      exact ⟨h1, (hdone m).mpr (Or.inr h2), h3⟩
  · intro m u hm hu hw d hd hsome
    rw [hdone] at hm ⊢
    refine Or.inr ?_
    obtain rfl | hm := hm
    · cases ht.symm.trans hu
      exact hdeps d hd hsome
    · exact h.deps_done m u hm hu hw d hd hsome
  · intro hstrict m hm u hmd hu hau
    rw [hdone] at hmd
    by_cases heq : m = n
    · subst heq
      refine iff_of_true mem_cons_self ?_
      exact (h.outdated_iff hmade hstrict hm ht ha hnot hneeds).mp houtdated
    · obtain hmd := hmd.resolve_left heq
      show m ∈ n :: b.ran ↔ _
      rw [mem_cons, or_iff_right heq]
      exact h.tested hstrict m hm u hmd hu hau
  · intro m hm u hmd hu hau hphony houtputs hpresent
    rw [hdone] at hmd
    by_cases heq : m = n
    · subst heq
      cases ht.symm.trans hu
      -- it does not read what it makes, so its outputs are not older than what it reads
      have hreads : ∀ f ∈ reads cfg ts t, mach.mtime s f = mach.mtime b.sys f := by
        intro f hf
        refine hframe f (watched_of_mem hn ht ha (mem_append_left _ hf)) fun hft => hnot ?_
        exact hneeds m (hmade.makers m hn m hn t t ht ht ha ha f hf hft)
      rintro (hp | hnil | ⟨f, hf, hnone⟩ | ⟨o, ho, old, hold, hlt⟩)
      · rw [hphony] at hp
        cases hp
      · exact houtputs hnil
      · obtain hf | hf := mem_append.mp hf
        · exact hpresent f hf hnone
        · obtain ⟨x, hx, _⟩ := houts f hf
          exact absurd (hnone.symm.trans hx) (by simp)
      · obtain ⟨x, hx, hle, _⟩ := houts o ho
        cases hold.symm.trans hx
        obtain hlt | ⟨f, hf, y, hy, hlt⟩ := hlt
        · exact absurd hlt (not_lt.mpr ((hepoch _).trans hle))
        · have hnow := h.now f (watched_of_mem hn ht ha (mem_append_left _ hf)) y
            (by rw [← hreads f hf]; exact hy)
          exact absurd hlt (not_lt.mpr (hnow.trans hle))
    · obtain hmd := hmd.resolve_left heq
      -- the files of a target that was done before stay
      have hsame : ∀ f ∈ reads cfg ts u ++ outs cfg u, mach.mtime s f = mach.mtime b.sys f := by
        intro f hf
        refine hframe f (watched_of_mem hm hu hau hf) fun hft => ?_
        obtain hf | hf := mem_append.mp hf
        · exact hnot (h.needs_done (hmade.makers m hm n hn u t hu ht hau ha f hf hft) hmd)
        · exact hother m hm u hu hau heq f hf hft
      show ¬ Outdated cfg ts (mach.mtime s) u
      rw [outdated_congr hsame]
      refine h.fresh m hm u hmd hu hau hphony houtputs fun f hf => ?_
      rw [← hsame f (mem_append_left _ hf)]
      exact hpresent f hf

/-! ### The traversal -/

/-- What a run tells, also when it stops early: it runs stale targets only, and none that is done
was left out. -/
def Told {σ : Type} (cfg : Config) (mach : Machine σ) (ts : List Target) (names : List Bytes)
    (clock : σ → Stamp) (s₀ : σ) (b : Build σ) : Prop :=
  Strict cfg mach ts names clock s₀ → ∀ n ∈ names, ∀ t, resolve ts n = some t → t.active cfg →
    (n ∈ b.ran → Stale cfg ts names (mach.mtime s₀) n) ∧
      (Done b.targets n → Stale cfg ts names (mach.mtime s₀) n → n ∈ b.ran)

theorem Good.told (h : Good cfg mach ts names clock s₀ b) :
    Told cfg mach ts names clock s₀ b := by
  intro hstrict n hn t ht ha
  refine ⟨fun hran => ?_, fun hdone => (h.tested hstrict n hn t hdone ht ha).mpr⟩
  exact (h.tested hstrict n hn t (h.ran_done n hran).2.1 ht ha).mp hran

/-- Flags and indices that a part of a run keeps: what is done stays done, what is being visited
is not finished by anyone else. -/
structure Keeps (b b' : Build σ) : Prop where
  done : ∀ m, Done b.targets m → Done b'.targets m
  visiting : ∀ m, Visiting b.targets m →
    Visiting b'.targets m ∧ (Done b'.targets m → Done b.targets m)
  index : ∀ m j, findName b.targets m = some j → findName b'.targets m = some j

theorem Keeps.refl (b : Build σ) : Keeps b b :=
  ⟨fun _ h => h, fun _ h => ⟨h, fun h => h⟩, fun _ _ h => h⟩

theorem Keeps.trans {b'' : Build σ} (h : Keeps b b') (h' : Keeps b' b'') : Keeps b b'' where
  done m hm := h'.done m (h.done m hm)
  visiting m hm := by
    obtain ⟨hv, hd⟩ := h.visiting m hm
    obtain ⟨hv', hd'⟩ := h'.visiting m hv
    exact ⟨hv', fun hdone => hd (hd' hdone)⟩
  index m j hj := h'.index m j (h.index m j hj)

theorem Grows.keeps {es es' : List Entry} (h : Grows es es') (s s' : σ) (ran ran' : List Bytes) :
    Keeps (Build.mk es s ran) ⟨es', s', ran'⟩ :=
  ⟨fun _ hm => h.done_iff.mpr hm, fun _ hm => ⟨h.visiting_iff.mpr hm, h.done_iff.mp⟩,
    fun _ _ hj => h.findName hj⟩

/-- The flags of a table in which one target has new ones. -/
theorem flags_setFlags (hi : findName b.targets n = some i) (visiting done : Bool) (m : Bytes) :
    (Done (b.setFlags i visiting done).targets m ↔
      if m = n then done = true else Done b.targets m) ∧
    (Visiting (b.setFlags i visiting done).targets m ↔
      if m = n then visiting = true else Visiting b.targets m) := by
  obtain ⟨e, _, he, _⟩ := entryOf_of_findName hi
  have hentry := entryOf_modify hi
    (f := fun e : Entry => { e with visiting := visiting, done := done }) (fun _ => rfl) m
  rw [Done, Visiting, Build.setFlags, hentry]
  by_cases hm : m = n
  · subst hm
    rw [if_pos rfl, if_pos rfl, if_pos rfl, he]
    simp
  · rw [if_neg hm, if_neg hm, if_neg hm]
    exact ⟨Iff.rfl, Iff.rfl⟩

theorem findName_setFlags (b : Build σ) (i : Nat) (visiting done : Bool) (m : Bytes) :
    findName (b.setFlags i visiting done).targets m = findName b.targets m := by
  rw [Build.setFlags]
  exact findName_modify (f := fun e : Entry => { e with visiting := visiting, done := done })
    (fun _ => rfl) m

/-- Setting the flags of a target that is neither done nor visited keeps the others. -/
theorem keeps_setFlags (hi : findName b.targets n = some i)
    {done : Bool} (hdone : done = true ∨ ¬ Done b.targets n)
    (hvisiting : ¬ Visiting b.targets n) : Keeps b (b.setFlags i visiting done) where
  done m hm := by
    rw [(flags_setFlags hi visiting done m).1]
    split
    next heq => exact hdone.resolve_right fun hnot => hnot (heq ▸ hm)
    next => exact hm
  visiting m hm := by
    have hne : m ≠ n := fun heq => hvisiting (heq ▸ hm)
    rw [(flags_setFlags hi visiting done m).1, (flags_setFlags hi visiting done m).2, if_neg hne,
      if_neg hne]
    exact ⟨hm, id⟩
  index m j hj := (findName_setFlags b i visiting done m).trans hj

/-- **The part behind the dependencies**: it keeps the invariant and ends with the target done. -/
theorem runOwn_spec (hmade : WellMade cfg ts names) (htidy : Tidy cfg mach ts names clock)
    (h : Good cfg mach ts names clock s₀ b) (hn : n ∈ names) (hi : findName b.targets n = some i)
    (ht : resolve ts n = some t) (hw : t.wanted cfg = true) (hnot : ¬ Done b.targets n)
    (hdeps : ∀ d ∈ t.deps, (resolve ts d).isSome → Done b.targets d)
    (hrun : runOwn cfg mach i t b = (r, b')) :
    Told cfg mach ts names clock s₀ b' ∧ (r = true → Good cfg mach ts names clock s₀ b' ∧
      (∀ m, Done b'.targets m ↔ m = n ∨ Done b.targets m) ∧
      (∀ m, m ≠ n → (Visiting b'.targets m ↔ Visiting b.targets m)) ∧
      ∀ m j, findName b.targets m = some j → findName b'.targets m = some j) := by
  have hname := resolve_name ht
  rw [runOwn] at hrun
  by_cases harch : t.archAllowed cfg = true
  swap
  · -- the commands are not for this architecture
    rw [if_neg harch] at hrun
    cases hrun
    have hgood : Good cfg mach ts names clock s₀ (b.setFlags i false true) :=
      h.skip hi ht (fun _ => hdeps) (fun _ _ ha => absurd ha.2 harch) fun _ ha => absurd ha.2 harch
    refine ⟨hgood.told, fun _ => ⟨hgood, done_setFlags hi, ?_, ?_⟩⟩
    · intro m hm
      rw [(flags_setFlags hi false true m).2, if_neg hm]
    · intro m j hj
      exact (findName_setFlags b i false true m).trans hj
  rw [if_pos harch] at hrun
  have ha : t.active cfg := ⟨hw, harch⟩
  obtain ⟨hclock₁, hsame₁⟩ := htidy.hooks hn ht ha t.setup
    (fun x hx => mem_append_left _ hx) b.sys
  cases hsetup : runHooks mach t.setup b.sys with
  | mk ok s₁ =>
  rw [hsetup] at hrun hclock₁ hsame₁
  have h₁ := h.withSys hclock₁ hsame₁
  cases ok with
  | false =>
    cases hrun
    exact ⟨h₁.told, fun hr => absurd hr (by decide)⟩
  | true =>
  dsimp only at hrun
  -- the test, on a table that may have new entries
  obtain ⟨htest, htable, hgrows⟩ := targetOutOfDate_spec cfg h.table hmade.fits
    (hmade.closed n hn t ht hw) (mach.mtime s₁)
  have h₂ := h₁.withTargets htable fun m => hgrows.done_iff
  generalize hes : (targetOutOfDate cfg (mach.mtime s₁) t b.targets).2 = es at *
  have hi' : findName es n = some i := hgrows.findName hi
  have hnot' : ¬ Done es n := fun hd => hnot (hgrows.done_iff.mp hd)
  have hdeps' : ∀ d ∈ t.deps, (resolve ts d).isSome → Done es d :=
    fun d hd hsome => hgrows.done_iff.mpr (hdeps d hd hsome)
  have hneeds : ∀ m, Needs cfg ts n m → Done es m := by
    intro m hm
    cases hm with
    | dep hr _ hd hsome =>
      cases ht.symm.trans hr
      exact hdeps' _ hd hsome
    | step hr _ hd hm =>
      cases ht.symm.trans hr
      refine h₂.needs_done hm (hdeps' _ hd ?_)
      cases hm with
      | dep hr' _ _ _ => exact isSome_of_eq_some hr'
      | step hr' _ _ _ => exact isSome_of_eq_some hr'
  have hstale : Strict cfg mach ts names clock s₀ →
      (Outdated cfg ts (mach.mtime s₁) t ↔ Stale cfg ts names (mach.mtime s₀) n) :=
    fun hstrict => h₂.outdated_iff hmade hstrict hn ht ha hnot' hneeds
  have hfinal : ∀ (s : σ) ran, (∀ m, Done ((Build.mk es s ran).setFlags i false true).targets m ↔
        m = n ∨ Done b.targets m) ∧
      (∀ m, m ≠ n → (Visiting ((Build.mk es s ran).setFlags i false true).targets m ↔
        Visiting b.targets m)) ∧
      ∀ m j, findName b.targets m = some j →
        findName ((Build.mk es s ran).setFlags i false true).targets m = some j := by
    intro s ran
    refine ⟨fun m => ?_, fun m hm => ?_, fun m j hj => ?_⟩
    · rw [done_setFlags (b := ⟨es, s, ran⟩) hi', hgrows.done_iff]
    · rw [(flags_setFlags (b := ⟨es, s, ran⟩) hi' false true m).2, if_neg hm, hgrows.visiting_iff]
    · exact (findName_setFlags ⟨es, s, ran⟩ i false true m).trans (hgrows.findName hj)
  cases hout : (targetOutOfDate cfg (mach.mtime s₁) t b.targets).1 with
  | false =>
    rw [hout] at hrun htest
    have hfresh : ¬ Outdated cfg ts (mach.mtime s₁) t := fun ho => absurd (htest.mpr ho) (by decide)
    rw [if_neg (by decide), if_neg (by decide)] at hrun
    dsimp only at hrun
    obtain ⟨hclock₂, hsame₂⟩ := htidy.hooks hn ht ha t.finish
      (fun x hx => mem_append_right _ hx) s₁
    cases hfinish : runHooks mach t.finish s₁ with
    | mk ok s₂ =>
    rw [hfinish] at hrun hclock₂ hsame₂
    have h₃ := h₂.withSys hclock₂ hsame₂
    cases ok with
    | false =>
      cases hrun
      exact ⟨h₃.told, fun hr => absurd hr (by decide)⟩
    | true =>
      cases hrun
      have hgood : Good cfg mach ts names clock s₀ ((Build.mk es s₂ b.ran).setFlags i false true) := by
        refine Good.skip h₃ hi' ht (fun _ => hdeps') (fun hstrict _ _ => ?_) fun _ _ _ _ _ => ?_
        · refine iff_of_false (fun hran => hnot (h.ran_done n hran).2.1) fun hs => hfresh ?_
          exact (hstale hstrict).mpr hs
        · rwa [outdated_congr fun f hf => hsame₂ f (watched_of_mem hn ht ha hf)]
      exact ⟨hgood.told, fun _ => ⟨hgood, hfinal s₂ b.ran⟩⟩
  | true =>
    rw [hout] at hrun htest
    have houtdated : Outdated cfg ts (mach.mtime s₁) t := htest.mp rfl
    rw [if_pos rfl, if_pos rfl, hname] at hrun
    -- what a run tells that stops from here on
    have htold : ∀ s, Told cfg mach ts names clock s₀ ⟨es, s, n :: b.ran⟩ := by
      intro s hstrict m hm u hu hau
      have hold := h₂.told hstrict m hm u hu hau
      refine ⟨fun hran => ?_, fun hd hs => mem_cons_of_mem _ (hold.2 hd hs)⟩
      obtain rfl | hran := mem_cons.mp hran
      · exact (hstale hstrict).mp houtdated
      · exact hold.1 hran
    have hbuild := htidy.build n hn t ht ha s₁
    cases hb : runBuild mach t s₁ with
    | mk ok s₂ =>
    rw [hb] at hrun hbuild
    cases ok with
    | false =>
      cases hrun
      exact ⟨htold s₂, fun hr => absurd hr (by decide)⟩
    | true =>
    obtain ⟨hclock₂, hframe₂, houts₂⟩ := hbuild rfl
    dsimp only at hrun
    obtain ⟨hclock₃, hsame₃⟩ := htidy.hooks hn ht ha t.finish
      (fun x hx => mem_append_right _ hx) s₂
    cases hfinish : runHooks mach t.finish s₂ with
    | mk ok s₃ =>
    rw [hfinish] at hrun hclock₃ hsame₃
    cases ok with
    | false =>
      cases hrun
      exact ⟨htold s₃, fun hr => absurd hr (by decide)⟩
    | true =>
      cases hrun
      have hgood : Good cfg mach ts names clock s₀
          ((Build.mk es s₃ (n :: b.ran)).setFlags i false true) := by
        refine Good.built h₂ hmade htidy.epoch hn hi' ht ha hnot' hdeps' houtdated
          (hclock₂.trans hclock₃) ?_ ?_
        · intro f hf hft
          exact (hsame₃ f hf).trans (hframe₂ f hf hft)
        · intro f hf
          obtain ⟨x, hx, hle, hle'⟩ := houts₂ f hf
          have hwatched := watched_of_mem hn ht ha (mem_append_right _ hf)
          exact ⟨x, (hsame₃ f hwatched).trans hx, hle, hle'.trans hclock₃⟩
      exact ⟨hgood.told, fun _ => ⟨hgood, hfinal s₃ (n :: b.ran)⟩⟩

/-- What a call for a target of the names is to do. -/
def RunSpec {σ : Type} (cfg : Config) (mach : Machine σ) (ts : List Target) (names : List Bytes)
    (clock : σ → Stamp) (s₀ : σ) (run : Nat → Build σ → Option (Bool × Build σ)) : Prop :=
  ∀ n ∈ names, ∀ i b r b', findName b.targets n = some i → Good cfg mach ts names clock s₀ b →
    run i b = some (r, b') → Told cfg mach ts names clock s₀ b' ∧
      (r = true → Good cfg mach ts names clock s₀ b' ∧ Done b'.targets n ∧ Keeps b b')

/-- The dependencies one after the other. -/
theorem runDeps_spec {run : Nat → Build σ → Option (Bool × Build σ)}
    (hrun : RunSpec cfg mach ts names clock s₀ run) {js : List Nat}
    (hjs : ∀ j ∈ js, ∃ d ∈ names, findName b.targets d = some j)
    (h : Good cfg mach ts names clock s₀ b)
    (heq : runDeps run js b = some (r, b')) :
    Told cfg mach ts names clock s₀ b' ∧ (r = true → Good cfg mach ts names clock s₀ b' ∧
      Keeps b b' ∧ ∀ j ∈ js, ∀ d, findName b.targets d = some j → Done b'.targets d) := by
  induction js generalizing b with
  | nil =>
    obtain ⟨rfl, rfl⟩ := Prod.mk.inj (some.inj heq)
    exact ⟨h.told, fun _ => ⟨h, .refl b, fun j hj => absurd hj not_mem_nil⟩⟩
  | cons j js ih =>
    obtain ⟨d, hd, hdj⟩ := hjs j mem_cons_self
    rw [runDeps] at heq
    cases hfirst : run j b with
    | none =>
      rw [hfirst] at heq
      cases heq
    | some p =>
    obtain ⟨ok, b₁⟩ := p
    rw [hfirst] at heq
    obtain ⟨htold, hok⟩ := hrun d hd j b ok b₁ hdj h hfirst
    cases ok with
    | false =>
      cases heq
      exact ⟨htold, fun hr => absurd hr (by decide)⟩
    | true =>
    obtain ⟨hgood, hdone, hkeeps⟩ := hok rfl
    have hjs' : ∀ x ∈ js, ∃ y ∈ names, findName b₁.targets y = some x := by
      intro x hx
      obtain ⟨y, hy, hyx⟩ := hjs x (mem_cons_of_mem _ hx)
      exact ⟨y, hy, hkeeps.index y x hyx⟩
    obtain ⟨htold', hok'⟩ := ih hjs' hgood heq
    refine ⟨htold', fun hr => ?_⟩
    obtain ⟨hgood', hkeeps', hall⟩ := hok' hr
    refine ⟨hgood', hkeeps.trans hkeeps', fun x hx y hy => ?_⟩
    obtain rfl | hx := mem_cons.mp hx
    · -- the index has one name
      obtain ⟨e, he, _, hen⟩ := entryOf_of_findName hdj
      obtain ⟨e', he', _, hen'⟩ := entryOf_of_findName hy
      cases he.symm.trans he'
      rw [← hen', hen]
      exact hkeeps'.done d hdone
    · exact hall x hx y (hkeeps.index y x hy)

/-- **A call of `run_target`** keeps the invariant of the run, and ends with its target done. -/
theorem runTarget_spec (hmade : WellMade cfg ts names) (htidy : Tidy cfg mach ts names clock)
    (fuel : Nat) : RunSpec cfg mach ts names clock s₀ (runTarget cfg mach fuel) := by
  induction fuel with
  | zero => exact fun n _ i b r b' _ _ heq => absurd heq (by simp [runTarget])
  | succ fuel ih =>
    intro n hn i b r b' hi h heq
    obtain ⟨e, he, hentry, hname⟩ := entryOf_of_findName hi
    have ht := h.table.resolve_of_entryOf hentry
    rw [runTarget, he] at heq
    dsimp only at heq
    by_cases hvisiting : e.visiting = true
    · rw [if_pos hvisiting] at heq
      cases heq
      exact ⟨h.told, fun hr => absurd hr (by decide)⟩
    rw [if_neg hvisiting] at heq
    by_cases hdone : e.done = true
    · rw [if_pos hdone] at heq
      cases heq
      exact ⟨h.told, fun _ => ⟨h, ⟨e, hentry, hdone⟩, .refl b⟩⟩
    rw [if_neg hdone] at heq
    have hnot : ¬ Done b.targets n := by
      rintro ⟨x, hx, hxd⟩
      cases hentry.symm.trans hx
      exact hdone hxd
    have hnotv : ¬ Visiting b.targets n := by
      rintro ⟨x, hx, hxv⟩
      cases hentry.symm.trans hx
      exact hvisiting hxv
    by_cases hw : e.target.wanted cfg = true
    swap
    · -- the condition does not hold: nothing is run
      rw [if_neg hw] at heq
      cases heq
      have hgood : Good cfg mach ts names clock s₀ (b.setFlags i e.visiting true) :=
        h.skip hi ht (fun hw' => absurd hw' hw) (fun _ _ ha => absurd ha.1 hw)
          fun _ ha => absurd ha.1 hw
      exact ⟨hgood.told, fun _ => ⟨hgood, (done_setFlags hi n).mpr (Or.inl rfl),
        keeps_setFlags hi (Or.inl rfl) hnotv⟩⟩
    rw [if_pos hw, Bool.eq_false_iff.mpr hdone] at heq
    -- the target is being visited, and its dependencies are found
    have hkeeps₁ : Keeps b (b.setFlags i true false) := keeps_setFlags hi (Or.inr hnot) hnotv
    have hdone₁ : ∀ m, Done (b.setFlags i true false).targets m ↔ Done b.targets m := by
      intro m
      rw [(flags_setFlags hi true false m).1]
      split
      next heq => exact iff_of_false (by decide) (heq ▸ hnot)
      next => exact Iff.rfl
    have htable₁ : Table ts names (b.setFlags i true false).targets := h.table.modify fun _ => rfl
    obtain ⟨js, es, hfound, htable, hgrows, _, hfrom, hall⟩ :=
      uniqueDeps_spec htable₁ hmade.fits (hmade.closed n hn _ ht hw) []
    rw [hfound] at heq
    dsimp only at heq
    have h₂ : Good cfg mach ts names clock s₀ { b with targets := es } :=
      h.withTargets htable fun m => hgrows.done_iff.trans (hdone₁ m)
    have hkeeps₂ : Keeps b { b with targets := es } :=
      hkeeps₁.trans (hgrows.keeps b.sys b.sys b.ran b.ran)
    have hjs : ∀ j ∈ js, ∃ d ∈ names, findName es d = some j := by
      intro j hj
      obtain hj | ⟨d, hd, hdj⟩ := hfrom j hj
      · exact absurd hj not_mem_nil
      · exact ⟨d, hmade.closed n hn _ ht hw d hd, hdj⟩
    cases hdeps : runDeps (runTarget cfg mach fuel) js { b with targets := es } with
    | none =>
      rw [hdeps] at heq
      cases heq
    | some p =>
    obtain ⟨ok, b₃⟩ := p
    rw [hdeps] at heq
    obtain ⟨htold, hok⟩ := runDeps_spec ih hjs h₂ hdeps
    cases ok with
    | false =>
      cases heq
      exact ⟨htold, fun hr => absurd hr (by decide)⟩
    | true =>
    obtain ⟨h₃, hkeeps₃, hjsdone⟩ := hok rfl
    have hvisiting₂ : Visiting es n := by
      refine hgrows.visiting_iff.mpr ?_
      rw [(flags_setFlags hi true false n).2, if_pos rfl]
    have hnot₃ : ¬ Done b₃.targets n := by
      intro hd
      have hd' := (hkeeps₃.visiting n hvisiting₂).2 hd
      exact hnot ((hdone₁ n).mp (hgrows.done_iff.mp hd'))
    have hdeps₃ : ∀ d ∈ e.target.deps, (resolve ts d).isSome → Done b₃.targets d := by
      intro d hd hsome
      obtain hd' | ⟨j, hj, hdj⟩ := hall d hd hsome
      · exact hkeeps₃.done d hd'
      · exact hjsdone j hj d hdj
    have hi₃ : findName b₃.targets n = some i := hkeeps₃.index n i (hkeeps₂.index n i hi)
    obtain ⟨htold', hok'⟩ :=
      runOwn_spec hmade htidy h₃ hn hi₃ ht hw hnot₃ hdeps₃ (some.inj heq)
    refine ⟨htold', fun hr => ?_⟩
    obtain ⟨hgood, hdone', hvisiting', hindex⟩ := hok' hr
    refine ⟨hgood, (hdone' n).mpr (Or.inl rfl), fun m hm => ?_, fun m hm => ?_, fun m j hj => ?_⟩
    · exact (hdone' m).mpr (Or.inr (hkeeps₃.done m (hkeeps₂.done m hm)))
    · have hne : m ≠ n := fun heq => hnotv (heq ▸ hm)
      obtain ⟨hv₂, hd₂⟩ := hkeeps₂.visiting m hm
      obtain ⟨hv₃, hd₃⟩ := hkeeps₃.visiting m hv₂
      refine ⟨(hvisiting' m hne).mpr hv₃, fun hd => ?_⟩
      exact hd₂ (hd₃ (((hdone' m).mp hd).resolve_left hne))
    · exact hindex m j (hkeeps₃.index m j (hkeeps₂.index m j hj))

/-- The invariant at the start of a run. -/
theorem Good.start (hnow : ∀ f, Watched cfg ts names f → ∀ m, mach.mtime s₀ f = some m →
    m ≤ clock s₀) :
    Good cfg mach ts names clock s₀ ⟨ts.map fun t => ⟨t, false, false⟩, s₀, []⟩ := by
  have hnone : ∀ n, ¬ Done (ts.map fun t => (⟨t, false, false⟩ : Entry)) n := by
    rintro n ⟨e, he, hdone⟩
    obtain ⟨t, _, rfl⟩ := mem_map.mp (mem_of_find?_eq_some he)
    cases hdone
  exact ⟨.start, le_rfl, hnow, fun _ _ _ => rfl, fun n hn => absurd hn not_mem_nil,
    fun n hn => absurd hn not_mem_nil, fun n _ hn => absurd hn (hnone n),
    fun _ n _ _ hn => absurd hn (hnone n), fun n _ _ hn => absurd hn (hnone n)⟩

/-- **A run** of a requested target tells which targets were stale; when it succeeds the target is
done. -/
theorem runRequested_spec (hmade : WellMade cfg ts names) (htidy : Tidy cfg mach ts names clock)
    (hnow : ∀ f, Watched cfg ts names f → ∀ m, mach.mtime s₀ f = some m → m ≤ clock s₀)
    {requested : Bytes} (hreq : requested ∈ names)
    (hrun : runRequested cfg mach ts requested s₀ = some (r, b)) :
    Told cfg mach ts names clock s₀ b ∧
      (r = true → Good cfg mach ts names clock s₀ b ∧ Done b.targets requested) := by
  have hstart : Good cfg mach ts names clock s₀ _ := Good.start hnow
  rw [runRequested] at hrun
  cases ht : resolve ts requested with
  | none =>
    rw [hstart.table.findTarget_none ht] at hrun
    cases hrun
    exact ⟨hstart.told, fun hr => absurd hr (by decide)⟩
  | some t =>
    obtain ⟨i, es, hfind, htable, hgrows, hi, _⟩ :=
      hstart.table.findTarget_some hmade.fits hreq ht
    rw [hfind] at hrun
    have hgood : Good cfg mach ts names clock s₀ ⟨es, s₀, []⟩ :=
      hstart.withTargets htable fun m => hgrows.done_iff
    obtain ⟨htold, hok⟩ := runTarget_spec hmade htidy _ requested hreq i _ r b hi hgood hrun
    exact ⟨htold, fun hr => ⟨(hok hr).1, (hok hr).2.1⟩⟩

end

/-! ### After changes -/

/-- What changes affect: a target whose recipe changed, that reads a file that changed or an output
that a phony target makes anew in every run, or that depends on an affected target. -/
inductive Affected (cfg : Config) (ts : List Target) (names : List Bytes)
    (changed : Bytes → Prop) (files : Bytes → Prop) : Bytes → Prop where
  | recipe {n : Bytes} (h : changed n) : Affected cfg ts names changed files n
  | file {n f : Bytes} {t : Target} (h : resolve ts n = some t) (hf : f ∈ reads cfg ts t)
      (hc : files f) : Affected cfg ts names changed files n
  | phony {n m f : Bytes} {t u : Target} (h : resolve ts n = some t) (hf : f ∈ reads cfg ts t)
      (hm : m ∈ names) (hu : resolve ts m = some u) (ha : u.active cfg) (hp : u.phony = true)
      (hfu : f ∈ outs cfg u) : Affected cfg ts names changed files n
  | dep {n d : Bytes} {t : Target} (h : resolve ts n = some t) (hw : t.wanted cfg = true)
      (hd : d ∈ t.deps) (ha : Affected cfg ts names changed files d) :
      Affected cfg ts names changed files n

/-- The commands or the dependencies of a target are not what they were. -/
def RecipeChanged (before ts : List Target) (n : Bytes) : Prop :=
  (resolve before n).map (fun t => (t.commands, t.deps)) ≠
    (resolve ts n).map fun t => (t.commands, t.deps)

/-- **A correct incremental build**: of the targets that the run before had done, the run executes
the affected ones and no others. -/
def Incremental {σ : Type} (cfg : Config) (before ts : List Target) (names : List Bytes)
    (files : Bytes → Prop) (b b' : Build σ) : Prop :=
  ∀ n ∈ names, ∀ t, resolve ts n = some t → t.active cfg → t.phony = false → Done b.targets n →
    (n ∈ b'.ran → Affected cfg ts names (RecipeChanged before ts) files n) ∧
      (Done b'.targets n → Affected cfg ts names (RecipeChanged before ts) files n → n ∈ b'.ran)

/-- Changes to files: each gets a stamp later than all, and nothing else changes. -/
def Changes {σ : Type} (cfg : Config) (mach : Machine σ) (ts : List Target) (names : List Bytes)
    (files : Bytes → Prop) (s s' : σ) : Prop :=
  ∀ f, Watched cfg ts names f →
    (files f → ∃ m, mach.mtime s' f = some m ∧
      ∀ g, Watched cfg ts names g → ∀ x, mach.mtime s g = some x → x < m) ∧
    (¬ files f → mach.mtime s' f = mach.mtime s f)

/-- The dependencies of targets that are not phony are told by their outputs: every affected one
makes outputs, and a target without outputs is not built for nothing. -/
structure Traced (cfg : Config) (ts : List Target) (names : List Bytes) (files : Bytes → Prop) :
    Prop where
  deps : ∀ n ∈ names, ∀ t, resolve ts n = some t → t.active cfg → t.phony = false →
    ∀ d ∈ t.deps, Affected cfg ts names (fun _ => False) files d →
      ∃ u, resolve ts d = some u ∧ u.active cfg ∧ u.outputs ≠ []
  outputs : ∀ n ∈ names, ∀ t, resolve ts n = some t → t.active cfg → t.phony = false →
    t.outputs = [] → Affected cfg ts names (fun _ => False) files n
  sources : ∀ n ∈ names, ∀ t, resolve ts n = some t → t.active cfg →
    ∀ f ∈ outs cfg t, ¬ files f

section

variable {σ : Type} {cfg : Config} {mach : Machine σ} {ts : List Target} {names : List Bytes}
  {clock : σ → Stamp} {files : Bytes → Prop}

theorem Needs.affected {changed : Bytes → Prop} {n m : Bytes} (h : Needs cfg ts n m)
    (ha : Affected cfg ts names changed files m) : Affected cfg ts names changed files n := by
  induction h with
  | dep hr hw hd _ => exact .dep hr hw hd ha
  | step hr hw hd _ ih => exact .dep hr hw hd (ih ha)

/-- **Stale is affected**, for what a run had done before the changes. -/
theorem affected_of_stale (hmade : WellMade cfg ts names) (htraced : Traced cfg ts names files)
    {s₀ s : σ} {b : Build σ} (hb : Good cfg mach ts names clock s₀ b)
    (hchanges : Changes cfg mach ts names files b.sys s)
    (hpresent : ∀ n ∈ names, ∀ t, resolve ts n = some t → t.active cfg → t.phony = false →
      ∀ f ∈ reads cfg ts t, mach.mtime b.sys f ≠ none)
    {n : Bytes} (h : Stale cfg ts names (mach.mtime s) n) (hn : n ∈ names) {t : Target}
    (ht : resolve ts n = some t) (ha : t.active cfg) (hphony : t.phony = false)
    (hdone : Done b.targets n) : Affected cfg ts names (fun _ => False) files n := by
  induction h generalizing t with
  | @own n u hr ho =>
    obtain rfl := some.inj (ht.symm.trans hr)
    by_cases hnil : t.outputs = []
    · exact htraced.outputs n hn t ht ha hphony hnil
    by_contra hnot
    -- none of its files changed since it was up to date
    have hsame : ∀ f ∈ reads cfg ts t ++ outs cfg t, mach.mtime s f = mach.mtime b.sys f := by
      intro f hf
      refine (hchanges f (watched_of_mem hn ht ha hf)).2 fun hc => ?_
      obtain hf | hf := mem_append.mp hf
      · exact hnot (.file ht hf hc)
      · exact htraced.sources n hn t ht ha f hf hc
    rw [outdated_congr hsame] at ho
    exact hb.fresh n hn t hdone ht ha hphony hnil (hpresent n hn t ht ha hphony) ho
  | @made n m f u v hr hf hm hv hav hfv _ ih =>
    obtain rfl := some.inj (ht.symm.trans hr)
    cases hvp : v.phony with
    | true => exact .phony ht hf hm hv hav hvp hfv
    | false =>
      have hneeds := hmade.makers n hn m hm t v ht hv ha hav f hf hfv
      exact hneeds.affected (ih hm hv hav hvp (hb.needs_done hneeds hdone))

/-- **Affected is stale**. -/
theorem stale_of_affected (hmade : WellMade cfg ts names) (htraced : Traced cfg ts names files)
    {s₀ s : σ} {b : Build σ} (hb : Good cfg mach ts names clock s₀ b)
    (hchanges : Changes cfg mach ts names files b.sys s) {n : Bytes}
    (h : Affected cfg ts names (fun _ => False) files n) (hn : n ∈ names) {t : Target}
    (ht : resolve ts n = some t) (ha : t.active cfg) (hphony : t.phony = false)
    (hdone : Done b.targets n) : Stale cfg ts names (mach.mtime s) n := by
  induction h generalizing t with
  | recipe h => exact absurd h id
  | @file n f u hr hf hc =>
    obtain rfl := some.inj (ht.symm.trans hr)
    refine .own ht ?_
    by_cases hnil : t.outputs = []
    · exact Or.inr (Or.inl hnil)
    -- the file is newer than any output, since outputs do not change
    have hne : outs cfg t ≠ [] := by rwa [outs, ne_eq, map_eq_nil_iff]
    obtain ⟨o, os, hcons⟩ := exists_cons_of_ne_nil hne
    have ho : o ∈ outs cfg t := by rw [hcons]; exact mem_cons_self
    have hwo := watched_of_mem hn ht ha (mem_append_right (reads cfg ts t) ho)
    obtain ⟨m, hm, hlater⟩ :=
      (hchanges f (watched_of_mem hn ht ha (mem_append_left _ hf))).1 hc
    cases hold : mach.mtime s o with
    | none => exact Or.inr (Or.inr (Or.inl ⟨o, mem_append_right _ ho, hold⟩))
    | some old =>
      have hsame := (hchanges o hwo).2 (htraced.sources n hn t ht ha o ho)
      have hlt := hlater o hwo old (by rw [← hsame, hold])
      exact Or.inr (Or.inr (Or.inr ⟨o, ho, old, hold, Or.inr ⟨f, hf, m, hm, hlt⟩⟩))
  | @phony n m f u v hr hf hm hv hav hp hfv =>
    cases ht.symm.trans hr
    exact .made ht hf hm hv hav hfv (.own hv (Or.inl hp))
  | @dep n d u hr hw hd haff ih =>
    obtain rfl := some.inj (ht.symm.trans hr)
    obtain ⟨v, hv, hav, houtputs⟩ := htraced.deps n hn t ht ha hphony d hd haff
    have hdn := hmade.closed n hn t ht hw d hd
    -- an output of the dependency is a file that the target reads
    obtain ⟨o, os, hcons⟩ := exists_cons_of_ne_nil houtputs
    have ho : o ∈ v.outputs := by rw [hcons]; exact mem_cons_self
    have hread : expandPath cfg o ∈ reads cfg ts t := by
      refine mem_map.mpr ⟨o, mem_append_right _ ?_, rfl⟩
      exact mem_flatMap.mpr ⟨d, hd, by rw [hv]; exact ho⟩
    refine .made ht hread hdn hv hav (mem_map.mpr ⟨o, ho, rfl⟩) ?_
    cases hvp : v.phony with
    | true => exact .own hv (Or.inl hvp)
    | false =>
      exact ih hdn hv hav hvp (hb.deps_done n t hdone ht hw d hd (isSome_of_eq_some hv))

/-- **Incremental builds are correct** for recipes that stay as they are, whose targets are told by
their outputs: the run after a successful one and changes to input files ends, executes the
affected targets and no others, and when it succeeds it has reached every dependency. -/
theorem incremental_build (hmade : WellMade cfg ts names) (htidy : Tidy cfg mach ts names clock)
    (htraced : Traced cfg ts names files) {s₀ s : σ} {b : Build σ} {requested requested' : Bytes}
    (hreq : requested ∈ names) (hreq' : requested' ∈ names)
    (hnow : ∀ f, Watched cfg ts names f → ∀ m, mach.mtime s₀ f = some m → m ≤ clock s₀)
    (hrun : runRequested cfg mach ts requested s₀ = some (true, b))
    (hpresent : ∀ n ∈ names, ∀ t, resolve ts n = some t → t.active cfg → t.phony = false →
      ∀ f ∈ reads cfg ts t, mach.mtime b.sys f ≠ none)
    (hchanges : Changes cfg mach ts names files b.sys s)
    (hstrict : Strict cfg mach ts names clock s) :
    ∃ r b', runRequested cfg mach ts requested' s = some (r, b') ∧
      Incremental cfg ts ts names files b b' ∧
      (r = true → Done b'.targets requested' ∧
        ∀ n, Needs cfg ts requested' n → Done b'.targets n) := by
  have hlen : ts.length ≤ targetMax := (Nat.le_add_right _ _).trans hmade.fits
  obtain ⟨r, b', hrun'⟩ := @runRequested_total σ cfg mach ts hlen requested' s
  have hgood := ((runRequested_spec hmade htidy hnow hreq hrun).2 rfl).1
  obtain ⟨htold, hok⟩ := runRequested_spec hmade htidy
    (fun f hf m hm => (hstrict f hf m hm).le) hreq' hrun'
  have hsame : RecipeChanged ts ts = fun _ => False := by
    funext n
    exact eq_false (not_not.mpr rfl)
  refine ⟨r, b', hrun', ?_, fun hr => ?_⟩
  · intro n hn t ht ha hphony hdone
    obtain ⟨h1, h2⟩ := htold hstrict n hn t ht ha
    rw [hsame]
    refine ⟨fun hran => ?_, fun hdone' haff => ?_⟩
    · exact affected_of_stale hmade htraced hgood hchanges hpresent (h1 hran) hn ht ha hphony hdone
    · exact h2 hdone' (stale_of_affected hmade htraced hgood hchanges haff hn ht ha hphony hdone)
  · obtain ⟨hgood', hdone'⟩ := hok hr
    exact ⟨hdone', fun n hn => hgood'.needs_done hn hdone'⟩

end

/-! ### A machine with files to touch -/

/-- The stamps of some files, and the time in seconds. -/
structure Disk where
  stamp : Bytes → Option Stamp
  time : Nat

instance : DecidableEq Stamp := inferInstanceAs (DecidableEq (Int × Int))

/-- A stamp in whole seconds. -/
def second (n : Nat) : Stamp := toLex ((n : Int), 0)

theorem second_le {m n : Nat} : second m ≤ second n ↔ m ≤ n := by
  rw [second, second, Prod.Lex.toLex_le_toLex]
  show ((m : Int) < n ∨ (m : Int) = n ∧ (0 : Int) ≤ 0) ↔ m ≤ n
  omega

theorem second_lt {m n : Nat} : second m < second n ↔ m < n := by
  rw [← not_le, second_le, not_le]

/-- A file that is written at a time. -/
def Disk.write (s : Disk) (file : Bytes) (time : Nat) : Disk :=
  ⟨fun f => if f = file then some (second time) else s.stamp f, time⟩

/-- A machine on which a command is the name of a file, which it touches a second later. -/
def toucher : Machine Disk where
  mtime := Disk.stamp
  run text s := (s.write text (s.time + 1), 0)
  setenv _ _ s := s

/-- A target that is made by touching its output. -/
def touched (name : UInt8) (deps inputs : List Bytes) : Target where
  name := [name]
  deps := deps
  commands := [⟨[name], false, true, false⟩]
  inputs := inputs
  outputs := [[name]]
  phony := false
  when := none
  run_abort_on_fail := false
  run_quiet := false
  only_arch := none
  except_arch := none
  work_dir := none
  pre_cmd := none
  error_cmd := none
  setup := []
  finish := []
  stem := none

/-- No condition, no variable. -/
def plainConfig : Config := ⟨none, none, []⟩

/-- `o` is made from the file `i`, and `p` from `o`. -/
def chain : List Target := [touched 0x6f [] [[0x69]], touched 0x70 [[0x6f]] []]

/-- The two targets. -/
def chainNames : List Bytes := [[0x6f], [0x70]]

/-- The file `i`, written a second after the epoch. -/
def source : Disk := ⟨fun f => if f = [0x69] then some (second 1) else none, 2⟩

theorem runBuild_touched (name : UInt8) (deps inputs : List Bytes) (s : Disk) :
    runBuild toucher (touched name deps inputs) s = (true, s.write [name] (s.time + 1)) := by
  simp [runBuild, touched, runCommands, expandCommand, expandFrom, appendPieces, recipeMax,
    inWorkDir, toucher]

/-- What holds of the two targets holds of every target. -/
theorem forall_chain {P : Bytes → Target → Prop} (ho : P [0x6f] (touched 0x6f [] [[0x69]]))
    (hp : P [0x70] (touched 0x70 [[0x6f]] [])) :
    ∀ n ∈ chainNames, ∀ t, resolve chain n = some t → P n t := by
  intro n hn t ht
  obtain rfl | hn := mem_cons.mp hn
  · cases (show resolve chain [0x6f] = some _ from rfl).symm.trans ht
    exact ho
  · obtain rfl := mem_singleton.mp hn
    cases (show resolve chain [0x70] = some _ from rfl).symm.trans ht
    exact hp

theorem wellMade_chain : WellMade plainConfig chain chainNames where
  closed := forall_chain (by decide) (by decide)
  fits := by
    unfold Fits
    decide
  apart n hn m hm t u ht hu _ _ := by
    refine forall_chain (P := fun n t => ∀ m ∈ chainNames, ∀ u, resolve chain m = some u →
      ∀ f ∈ outs plainConfig t, f ∈ outs plainConfig u → n = m) ?_ ?_ n hn t ht m hm u hu
    · exact forall_chain (by decide) (by decide)
    · exact forall_chain (by decide) (by decide)
  makers n hn m hm t u ht hu _ _ := by
    refine forall_chain (P := fun n t => ∀ m ∈ chainNames, ∀ u, resolve chain m = some u →
      ∀ f ∈ reads plainConfig chain t, f ∈ outs plainConfig u → Needs plainConfig chain n m)
      ?_ ?_ n hn t ht m hm u hu
    · have hnone : ∀ u ∈ chain, ∀ f ∈ reads plainConfig chain (touched 0x6f [] [[0x69]]),
          f ∉ outs plainConfig u := by
        decide
      refine forall_chain (fun f hf hfu => ?_) fun f hf hfu => ?_
      · exact absurd hfu (hnone _ mem_cons_self f hf)
      · exact absurd hfu (hnone _ (mem_cons_of_mem _ mem_cons_self) f hf)
    · have hnone : ∀ f ∈ reads plainConfig chain (touched 0x70 [[0x6f]] []),
          f ∉ outs plainConfig (touched 0x70 [[0x6f]] []) := by
        decide
      refine forall_chain (fun f _ _ => ?_) fun f hf hfu => absurd hfu (hnone f hf)
      exact .dep (t := touched 0x70 [[0x6f]] []) rfl rfl mem_cons_self rfl

theorem watched_chain {f : Bytes} (h : Watched plainConfig chain chainNames f) :
    f = [0x69] ∨ f = [0x6f] ∨ f = [0x70] := by
  obtain ⟨n, hn, t, ht, _, hf⟩ := h
  exact forall_chain (P := fun _ t => ∀ f ∈ reads plainConfig chain t ++ outs plainConfig t,
    f = [0x69] ∨ f = [0x6f] ∨ f = [0x70]) (by decide) (by decide) n hn t ht f hf

theorem tidy_chain : Tidy plainConfig toucher chain chainNames fun s => second s.time where
  epoch s := second_le.mpr (Nat.zero_le _)
  hook n hn t ht _ h hh := by
    have hnone := forall_chain (P := fun _ t => t.setup ++ t.finish = []) rfl rfl n hn t ht
    rw [hnone] at hh
    exact absurd hh not_mem_nil
  build n hn t ht _ s _ := by
    -- both targets touch the one output that they have
    obtain ⟨name, deps, inputs, rfl, houts⟩ := forall_chain
      (P := fun _ t => ∃ name deps inputs, t = touched name deps inputs ∧
        outs plainConfig t = [[name]])
      ⟨_, _, _, rfl, by decide⟩ ⟨_, _, _, rfl, by decide⟩ n hn t ht
    rw [runBuild_touched, houts]
    refine ⟨second_le.mpr (Nat.le_succ _), fun f _ hf => ?_, fun f hf => ?_⟩
    · exact if_neg fun heq => hf (mem_singleton.mpr heq)
    · exact ⟨second (s.time + 1), if_pos (mem_singleton.mp hf), second_le.mpr (Nat.le_succ _),
        le_rfl⟩

/-- The changes to `i`. -/
def sourceChanged (f : Bytes) : Prop := f = [0x69]

theorem affected_chain : ∀ n ∈ chainNames,
    Affected plainConfig chain chainNames (fun _ => False) sourceChanged n := by
  have ho : Affected plainConfig chain chainNames (fun _ => False) sourceChanged [0x6f] :=
    .file (f := [0x69]) (t := touched 0x6f [] [[0x69]]) rfl (by decide) rfl
  intro n hn
  obtain rfl | hn := mem_cons.mp hn
  · exact ho
  · obtain rfl := mem_singleton.mp hn
    exact .dep (t := touched 0x70 [[0x6f]] []) rfl rfl mem_cons_self ho

theorem traced_chain : Traced plainConfig chain chainNames sourceChanged where
  deps n hn t ht _ _ d hd _ := by
    refine forall_chain (P := fun _ t => ∀ d ∈ t.deps, ∃ u, resolve chain d = some u ∧
      u.active plainConfig ∧ u.outputs ≠ []) ?_ ?_ n hn t ht d hd
    · exact fun d hd => absurd hd not_mem_nil
    · intro d hd
      obtain rfl := mem_singleton.mp hd
      exact ⟨_, rfl, ⟨rfl, rfl⟩, by decide⟩
  outputs n hn _ _ _ _ _ := affected_chain n hn
  sources n hn t ht _ := by
    unfold sourceChanged
    exact forall_chain (P := fun _ t => ∀ f ∈ outs plainConfig t, ¬ f = [0x69]) (by decide)
      (by decide) n hn t ht

/-- After a run that made both, `i` is written again. -/
theorem incremental_build_chain : ∃ b, runRequested plainConfig toucher chain [0x70] source =
      some (true, b) ∧
    ∃ r b', runRequested plainConfig toucher chain [0x70] ((b.sys.write [0x69] 10).write [] 11) =
        some (r, b') ∧
      Incremental plainConfig chain chain chainNames sourceChanged b b' ∧
      (r = true → Done b'.targets [0x70] ∧
        ∀ n, Needs plainConfig chain [0x70] n → Done b'.targets n) := by
  have hrun : (runRequested plainConfig toucher chain [0x70] source).map (fun p =>
      (p.1, p.2.sys.stamp [0x69], p.2.sys.stamp [0x6f], p.2.sys.stamp [0x70])) =
      some (true, some (second 1), some (second 3), some (second 4)) := by
    decide +kernel
  obtain ⟨⟨r, b⟩, hb, heq⟩ := map_eq_some_iff.mp hrun
  simp only [Prod.mk.injEq] at heq
  obtain ⟨rfl, hi, ho, hp⟩ := heq
  have hstamp : ∀ f, Watched plainConfig chain chainNames f → ∃ n, n ≤ 4 ∧
      b.sys.stamp f = some (second n) := by
    intro f hf
    obtain rfl | rfl | rfl := watched_chain hf
    · exact ⟨1, by decide, hi⟩
    · exact ⟨3, by decide, ho⟩
    · exact ⟨4, by decide, hp⟩
  have hne : ∀ f, Watched plainConfig chain chainNames f → f ≠ [] := by
    intro f hf
    obtain rfl | rfl | rfl := watched_chain hf <;> decide
  refine ⟨b, hb, incremental_build wellMade_chain tidy_chain traced_chain (by decide) (by decide)
    ?_ hb ?_ ?_ ?_⟩
  · intro f _ m hm
    have hsome : m = second 1 := by
      rw [show toucher.mtime source f = if f = [0x69] then some (second 1) else none from rfl] at hm
      split at hm
      · exact (some.inj hm).symm
      · cases hm
    rw [hsome]
    exact second_le.mpr (by decide)
  · intro n hn t ht ha _ f hf hnone
    obtain ⟨x, _, hx⟩ := hstamp f (watched_of_mem hn ht ha (mem_append_left _ hf))
    exact absurd (hx.symm.trans hnone) (by simp)
  · intro f hf
    have hwrite : toucher.mtime ((b.sys.write [0x69] 10).write [] 11) f =
        if f = [0x69] then some (second 10) else b.sys.stamp f := if_neg (hne f hf)
    rw [hwrite]
    refine ⟨fun hc => ⟨second 10, if_pos hc, fun g hg x hx => ?_⟩, fun hc => if_neg hc⟩
    obtain ⟨y, hy, hgy⟩ := hstamp g hg
    cases hx.symm.trans hgy
    exact second_lt.mpr (by omega)
  · intro f hf m hm
    have hwrite : toucher.mtime ((b.sys.write [0x69] 10).write [] 11) f =
        if f = [0x69] then some (second 10) else b.sys.stamp f := if_neg (hne f hf)
    rw [hwrite] at hm
    split at hm
    · cases hm
      exact second_lt.mpr (show 10 < 11 by decide)
    · obtain ⟨y, hy, hfy⟩ := hstamp f hf
      cases hm.symm.trans hfy
      exact second_lt.mpr (show y < 11 by omega)

/-- `o` and `p`, where `o` is made by another command. -/
def chainChanged : List Target :=
  [{ touched 0x6f [] [[0x69]] with commands := [⟨[0x71], false, true, false⟩] },
    touched 0x70 [[0x6f]] []]

/-- A changed command is not seen: its target is up to date by its stamps. -/
theorem incremental_fails : ∃ b b', runRequested plainConfig toucher chain [0x6f] source =
      some (true, b) ∧
    runRequested plainConfig toucher chainChanged [0x6f] b.sys = some (true, b') ∧
    ¬ Incremental plainConfig chain chainChanged chainNames (fun _ => False) b b' := by
  have hruns : ((runRequested plainConfig toucher chain [0x6f] source).bind fun p =>
      (runRequested plainConfig toucher chainChanged [0x6f] p.2.sys).map fun q =>
        (p.1, q.1, q.2.ran, (entryOf p.2.targets [0x6f]).map Entry.done,
          (entryOf q.2.targets [0x6f]).map Entry.done)) =
      some (true, true, [], some true, some true) := by
    decide +kernel
  obtain ⟨⟨r, b⟩, hb, hmap⟩ := bind_eq_some_iff.mp hruns
  obtain ⟨⟨r', b'⟩, hb', heq⟩ := map_eq_some_iff.mp hmap
  simp only [Prod.mk.injEq] at heq
  obtain ⟨rfl, rfl, hran, hdone, hdone'⟩ := heq
  refine ⟨b, b', hb, hb', fun hinc => ?_⟩
  obtain ⟨e, he, hd⟩ := map_eq_some_iff.mp hdone
  obtain ⟨e', he', hd'⟩ := map_eq_some_iff.mp hdone'
  have hchanged : RecipeChanged chain chainChanged [0x6f] := by
    unfold RecipeChanged
    decide
  have hmem := (hinc [0x6f] mem_cons_self _ rfl ⟨rfl, rfl⟩ rfl ⟨e, he, hd⟩).2 ⟨e', he', hd'⟩
    (.recipe hchanged)
  rw [hran] at hmem
  exact absurd hmem not_mem_nil

end MeuOS.Meow
