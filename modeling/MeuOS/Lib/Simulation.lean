import Mathlib.Logic.Basic

namespace MeuOS.Lib

/-!
# Deterministic step systems and lockstep simulation

A step system is a function `step : C → Option (C ⊕ F)`: a configuration has no
defined next move (`none`), moves on to a configuration (`inl`), or finishes
(`inr`).  `run step n` makes up to `n` moves.

* `SimOn` — a relation on configurations that one move of the first system carries to
  one move of the second, wherever a condition `P` holds.  `SimOn.run` lifts it to runs of
  any length whose moves all start where `P` holds (`Along`), so every finite part
  of a run (of a run that never finishes as well) is matched;
* `SimOn.matches_iff` — if in addition a move from where `P` fails is told apart, the two
  systems match exactly on the runs along `P`.
-/

variable {C C' C'' F F' F'' : Type*}

/-- Up to `n` moves of a step system. -/
def run (step : C → Option (C ⊕ F)) : Nat → C → Option (C ⊕ F)
  | 0, c => some (.inl c)
  | n + 1, c =>
    match step c with
    | none => none
    | some (.inl c') => run step n c'
    | some (.inr f) => some (.inr f)

@[simp] theorem run_zero (step : C → Option (C ⊕ F)) (c : C) : run step 0 c = some (.inl c) := rfl

/-- The last move of a run. -/
theorem run_succ (step : C → Option (C ⊕ F)) (n : Nat) : ∀ c,
    run step (n + 1) c =
      match run step n c with
      | none => none
      | some (.inl d) => step d
      | some (.inr f) => some (.inr f) := by
  induction n with
  | zero =>
    intro c
    simp only [run]
    cases step c with
    | none => rfl
    | some t => cases t <;> rfl
  | succ n ih =>
    intro c
    rw [run]
    cases hs : step c with
    | none => simp only [run, hs]
    | some t =>
      cases t with
      | inl d => simp only [ih d]; simp only [run, hs]
      | inr f => simp only [run, hs]

/-! ### Relating outcomes -/

/-- Two outcomes are related when both go on in related configurations or both finish
    with related results. -/
def LiftRel (R : C → C' → Prop) (Q : F → F' → Prop) : C ⊕ F → C' ⊕ F' → Prop
  | .inl c, .inl c' => R c c'
  | .inr f, .inr f' => Q f f'
  | _, _ => False

@[simp] theorem liftRel_inl (R : C → C' → Prop) (Q : F → F' → Prop) (c : C) (c' : C') :
    LiftRel R Q (.inl c) (.inl c') = R c c' := rfl
@[simp] theorem liftRel_inr (R : C → C' → Prop) (Q : F → F' → Prop) (f : F) (f' : F') :
    LiftRel R Q (.inr f) (.inr f') = Q f f' := rfl

variable {R O : C → C' → Prop} {Q Q' : F → F' → Prop} {step : C → Option (C ⊕ F)} {P : C → Prop}
  {n : Nat} {c : C} {step' : C' → Option (C' ⊕ F')} {c' : C'}

theorem LiftRel.mono {R' : C → C' → Prop} {s : C ⊕ F} {s' : C' ⊕ F'}
    (hR : ∀ c c', R c c' → R' c c') (hQ : ∀ f f', Q f f' → Q' f f') (h : LiftRel R Q s s') :
    LiftRel R' Q' s s' := by
  cases s <;> cases s' <;> simp only [LiftRel] at h ⊢
  · exact hR _ _ h
  · exact hQ _ _ h

/-! ### Invariants of runs -/

/-- Every defined move among the first `n` of a run starts where `P` holds. -/
def Along (step : C → Option (C ⊕ F)) (P : C → Prop) (n : Nat) (c : C) : Prop :=
  ∀ k < n, ∀ d, run step k c = some (.inl d) → (step d).isSome → P d

theorem Along.head {s : C ⊕ F} (h : Along step P (n + 1) c) (hs : step c = some s) : P c :=
  h 0 (Nat.succ_pos n) c rfl (by rw [hs]; rfl)

theorem Along.tail {step : C → Option (C ⊕ F)} {P : C → Prop} {n : Nat} {c d : C}
    (h : Along step P (n + 1) c) (hs : step c = some (.inl d)) : Along step P n d := by
  intro k hk e he hdef
  exact h (k + 1) (Nat.succ_lt_succ hk) e (by simp only [run, hs, he]) hdef

theorem Along.mono {m : Nat} (h : Along step P n c) (hmn : m ≤ n) : Along step P m c :=
  fun k hk => h k (Nat.lt_of_lt_of_le hk hmn)

/-- What holds everywhere holds along every run. -/
theorem along_of_forall (h : ∀ c, P c) (n : Nat) (c : C) : Along step P n c := fun _ _ d _ _ => h d

/-! ### Simulation -/

/-- One defined move of `step` from a configuration where `P` holds is matched by one move of
    `step'` from a related configuration. -/
def SimOn (P : C → Prop) (step : C → Option (C ⊕ F)) (step' : C' → Option (C' ⊕ F'))
    (R : C → C' → Prop) (Q : F → F' → Prop) : Prop :=
  ∀ c c' s, P c → R c c' → step c = some s → ∃ s', step' c' = some s' ∧ LiftRel R Q s s'

/-- **Run lemma.** A simulation matches every run along its condition, move for move. -/
theorem SimOn.run (h : SimOn P step step' R Q) (n : Nat) :
    ∀ c c' s, R c c' → Along step P n c → Lib.run step n c = some s →
      ∃ s', Lib.run step' n c' = some s' ∧ LiftRel R Q s s' := by
  induction n with
  | zero =>
    intro c c' s hR _ hs
    cases hs
    exact ⟨.inl c', rfl, hR⟩
  | succ n ih =>
    intro c c' s hR hP hs
    simp only [Lib.run] at hs
    cases hstep : step c with
    | none => rw [hstep] at hs; cases hs
    | some t =>
      obtain ⟨t', hstep', ht⟩ := h c c' t (hP.head hstep) hR hstep
      rw [hstep] at hs
      cases t with
      | inl d =>
        cases t' with
        | inl d' =>
          obtain ⟨s', hs', hrel⟩ := ih d d' s ht (hP.tail hstep) hs
          exact ⟨s', by simpa only [Lib.run, hstep'] using hs', hrel⟩
        | inr f' => exact ht.elim
      | inr f =>
        cases t' with
        | inl d' => exact ht.elim
        | inr f' =>
          cases hs
          exact ⟨.inr f', by simp only [Lib.run, hstep'], ht⟩

/-- The first `n` moves of both systems match under the observations `O` and `Q`: at
    every point the first run reaches, the second one is defined and looks the same. -/
def Matches (step : C → Option (C ⊕ F)) (step' : C' → Option (C' ⊕ F'))
    (O : C → C' → Prop) (Q : F → F' → Prop) (n : Nat) (c : C) (c' : C') : Prop :=
  ∀ k ≤ n, ∀ s, run step k c = some s → ∃ s', run step' k c' = some s' ∧ LiftRel O Q s s'

theorem SimOn.matches (h : SimOn P step step' R Q) (hO : ∀ c c', R c c' → O c c')
    (hQ : ∀ f f', Q f f' → Q' f f') (hR : R c c') (hP : Along step P n c) :
    Matches step step' O Q' n c c' := by
  intro k hk s hs
  obtain ⟨s', hs', hrel⟩ := h.run k c c' s hR (hP.mono hk) hs
  exact ⟨s', hs', hrel.mono hO hQ⟩

theorem Matches.refl {O : C → C → Prop} (hO : ∀ c, O c c) : Matches step step O Eq n c c := by
  intro k _ s hs
  refine ⟨s, hs, ?_⟩
  cases s with
  | inl d => exact hO d
  | inr f => exact rfl

/-- Matching systems compose. -/
theorem Matches.trans {step'' : C'' → Option (C'' ⊕ F'')} {O' : C' → C'' → Prop}
    {O'' : C → C'' → Prop} {Q' : F' → F'' → Prop} {Q'' : F → F'' → Prop} {c'' : C''}
    (h : Matches step step' O Q n c c') (h' : Matches step' step'' O' Q' n c' c'')
    (hO : ∀ a b d, O a b → O' b d → O'' a d) (hQ : ∀ a b d, Q a b → Q' b d → Q'' a d) :
    Matches step step'' O'' Q'' n c c'' := by
  intro k hk s hs
  obtain ⟨s', hs', hrel⟩ := h k hk s hs
  obtain ⟨s'', hs'', hrel'⟩ := h' k hk s' hs'
  refine ⟨s'', hs'', ?_⟩
  cases s <;> cases s' <;> cases s'' <;> simp only [LiftRel] at hrel hrel' ⊢
  · exact hO _ _ _ hrel hrel'
  · exact hQ _ _ _ hrel hrel'

/-- **Exactness.** When a defined move from where `P` fails is told apart, the systems match
    exactly on the runs along `P`. -/
theorem SimOn.matches_iff
    (h : SimOn P step step' R Q) (hO : ∀ c c', R c c' → O c c') (hQ : ∀ f f', Q f f' → Q' f f')
    (hbad : ∀ c c' s s', ¬ P c → R c c' → step c = some s → step' c' = some s' →
      ¬ LiftRel O Q' s s') (hR : R c c') :
    Matches step step' O Q' n c c' ↔ Along step P n c := by
  refine ⟨fun hm => ?_, h.matches hO hQ hR⟩
  -- by induction on the position, everything before it is along `P` and so still related
  suffices hk : ∀ k ≤ n, Along step P k c from hk n (Nat.le_refl n)
  intro k
  induction k with
  | zero => intro _ j hj; exact absurd hj (Nat.not_lt_zero j)
  | succ k ih =>
    intro hk j hj d hd hdef
    have hprev := ih (Nat.le_of_succ_le hk)
    rcases Nat.lt_succ_iff_lt_or_eq.mp hj with hlt | rfl
    · exact hprev j hlt d hd hdef
    · refine Classical.byContradiction fun hP => ?_
      obtain ⟨t', hd', hrel⟩ := h.run j c c' (.inl d) hR hprev hd
      obtain ⟨s, hs⟩ := Option.isSome_iff_exists.mp hdef
      cases t' with
      | inr f' => exact hrel.elim
      | inl d' =>
        obtain ⟨s', hs', hobs⟩ := hm (j + 1) hk s (by rw [run_succ, hd]; exact hs)
        rw [run_succ, hd'] at hs'
        exact hbad d d' s s' hP hrel hs hs' hobs

end MeuOS.Lib
