import Mathlib.Data.Nat.Basic
import Mathlib.Data.Vector.Basic
import Mathlib.Logic.Function.Basic

namespace MeuOS.Lib

/-!
# Runs with checked accesses

A run over fixed arrays returns a value, fails with an error of its own, touches an element
outside an array, or does not end within the turns its loops are given.

* `Checked`, `fetchAt`, `storeAt` — the runs and the two accesses;
* `Checked.Sat` — neither an outside access nor a loop without end, and a value as asked;
* `Checked.Sat.bind`, `forUp_sat`, `forUp_ok`, `forUp_fault` — the rules of sequence and loops;
* `foldlM_keeps`, `foldlM_flatMap_ok` — the rules of folds, and of folds in folds;
* `fetchAt_eq`, `storeAt_eq` — an access inside reads or updates the array seen as a function.
-/

/-- The outcome of a run. -/
inductive Checked (ε α : Type) where
  /-- The run returns a value. -/
  | ok (a : α)
  /-- The run gives up with an error of its own. -/
  | fail (e : ε)
  /-- The run touches an element outside an array. -/
  | fault
  /-- A loop has used up its turns. -/
  | stuck
  deriving DecidableEq

namespace Checked

variable {ε α β : Type}

instance : Monad (Checked ε) where
  pure := ok
  bind x f :=
    match x with
    | ok a => f a
    | fail e => fail e
    | fault => fault
    | stuck => stuck

@[simp] theorem ok_bind (a : α) (f : α → Checked ε β) : (ok a >>= f) = f a := rfl
@[simp] theorem fail_bind (e : ε) (f : α → Checked ε β) : (fail e >>= f) = fail e := rfl
@[simp] theorem fault_bind (f : α → Checked ε β) : (fault >>= f) = fault := rfl
@[simp] theorem stuck_bind (f : α → Checked ε β) : (stuck >>= f) = stuck := rfl
@[simp] theorem ok_ne_fault (a : α) : (ok a : Checked ε α) ≠ fault := nofun
@[simp] theorem fail_ne_fault (e : ε) : (fail e : Checked ε α) ≠ fault := nofun
@[simp] theorem pure_eq (a : α) : (pure a : Checked ε α) = ok a := rfl

instance : LawfulMonad (Checked ε) :=
  LawfulMonad.mk' (Checked ε)
    (by
      intro α x
      cases x <;> rfl)
    (fun _ _ => rfl)
    (by
      intro α β γ x f g
      cases x <;> rfl)

/-- A run keeps inside its arrays, ends, and returns only values that `P` allows. -/
def Sat (x : Checked ε α) (P : α → Prop) : Prop :=
  match x with
  | ok a => P a
  | fail _ => True
  | fault => False
  | stuck => False

variable {a : α} {P : α → Prop} {x : Checked ε α}

@[simp] theorem sat_ok : (ok a : Checked ε α).Sat P ↔ P a := Iff.rfl

@[simp] theorem sat_fail {e : ε} : (fail e : Checked ε α).Sat P := trivial

theorem Sat.bind {x : Checked ε α} {f : α → Checked ε β} {P : α → Prop} {Q : β → Prop}
    (hx : x.Sat P) (hf : ∀ a, P a → (f a).Sat Q) : (x >>= f).Sat Q := by
  match x with
  | ok a => exact hf a hx
  | fail e => exact trivial

theorem Sat.mono {Q : α → Prop} (hx : x.Sat P) (h : ∀ a, P a → Q a) :
    x.Sat Q := by
  match x with
  | ok a => exact h a hx
  | fail e => exact trivial

theorem Sat.ne_fault (hx : x.Sat P) : x ≠ fault := by
  rintro rfl
  exact hx

theorem Sat.ne_stuck (hx : x.Sat P) : x ≠ stuck := by
  rintro rfl
  exact hx

theorem Sat.of_ok (hx : x.Sat P) (ha : x = ok a) :
    P a := by
  subst ha
  exact hx

/-- A sequence that returns a value has passed one on. -/
theorem bind_eq_ok {f : α → Checked ε β} {b : β} (h : (x >>= f) = ok b) :
    ∃ a, x = ok a ∧ f a = ok b := by
  match x with
  | ok a => exact ⟨a, rfl, h⟩

/-- The value that a run returns. -/
def toOption : Checked ε α → Option α
  | ok a => some a
  | _ => none

theorem eq_ok_of_toOption (h : x.toOption = some a) : x = ok a := by
  match x with
  | ok _ => exact congrArg ok (Option.some.inj h)

/-- What follows a run adds no access outside. -/
theorem bind_ne_fault {f : α → Checked ε β} (hf : ∀ a, f a ≠ fault) :
    (x >>= f) ≠ fault ↔ x ≠ fault := by
  match x with
  | ok a => exact ⟨fun _ => ok_ne_fault a, fun _ => hf a⟩
  | fail e => exact ⟨fun _ => fail_ne_fault e, fun _ => fail_ne_fault e⟩
  | fault => exact ⟨fun h => absurd rfl h, fun h => absurd rfl h⟩
  | stuck => exact ⟨fun _ => nofun, fun _ => nofun⟩

/-- A run that keeps inside its arrays and ends returns a value or an error. -/
theorem Sat.cases (hx : x.Sat P) :
    (∃ a, x = ok a ∧ P a) ∨ ∃ e, x = fail e := by
  match x with
  | ok a => exact Or.inl ⟨a, rfl, hx⟩
  | fail e => exact Or.inr ⟨e, rfl⟩

end Checked

/-! ### Accesses -/

section access

variable {ε α β : Type} {n : Nat}

/-- `v[i]`. -/
def fetchAt (v : Vector α n) (i : Int) : Checked ε α :=
  if h : 0 ≤ i ∧ i.toNat < n then .ok (v.get ⟨i.toNat, h.2⟩) else .fault

/-- `v[i] = a`. -/
def storeAt (v : Vector α n) (i : Int) (a : α) : Checked ε (Vector α n) :=
  if h : 0 ≤ i ∧ i.toNat < n then .ok (v.set i.toNat a h.2) else .fault

/-- The element of an array of numbers at an index, 0 outside. -/
def cellAt (v : Vector Nat n) (i : Nat) : Nat := v[i]?.getD 0

theorem fetchAt_eq (v : Vector Nat n) {i : Nat} (hi : i < n) :
    fetchAt (ε := ε) v i = .ok (cellAt v i) := by
  have hget : v.get ⟨i, hi⟩ = v[i] := rfl
  simp [fetchAt, cellAt, hi, hget]

theorem fetchAt_outside (v : Vector Nat n) {i : Nat} (hi : n ≤ i) :
    fetchAt (ε := ε) v i = .fault := by
  simp [fetchAt, Nat.not_lt.mpr hi]

theorem storeAt_outside (v : Vector Nat n) (a : Nat) {i : Nat} (hi : n ≤ i) :
    storeAt (ε := ε) v i a = .fault := by
  simp [storeAt, Nat.not_lt.mpr hi]

/-- A store inside the array updates it at the index and nowhere else. -/
theorem storeAt_eq (v : Vector Nat n) (a : Nat) {i : Nat} (hi : i < n) :
    ∃ v' : Vector Nat n, storeAt (ε := ε) v i a = .ok v' ∧
      cellAt v' = Function.update (cellAt v) i a := by
  refine ⟨v.set i a, by simp [storeAt, hi], ?_⟩
  ext j
  by_cases hj : j = i
  · subst hj
    simp [cellAt, hi]
  · simp [cellAt, Function.update_of_ne hj, Vector.getElem?_set_ne hi (Ne.symm hj)]

/-- Arrays that agree at every index are equal. -/
theorem eq_of_cellAt {v v' : Vector Nat n} (h : ∀ i < n, cellAt v i = cellAt v' i) : v = v' := by
  apply Vector.ext
  intro i hi
  simpa [cellAt, hi] using h i hi

end access

/-! ### Counting loops -/

section loop

variable {ε β : Type}

/-- `for (i = lo; turns > 0; i++, turns--) b = f(i, b)`. -/
def forUp (f : Nat → β → Checked ε β) : Nat → Nat → β → Checked ε β
  | 0, _, b => .ok b
  | turns + 1, i, b => f i b >>= forUp f turns (i + 1)

/-- What every turn of a counting loop keeps holds at its end. -/
theorem forUp_sat (I : Nat → β → Prop) {f : Nat → β → Checked ε β} {turns lo : Nat} {b : β}
    (hstep : ∀ i b, lo ≤ i → i < lo + turns → I i b → (f i b).Sat (I (i + 1)))
    (hb : I lo b) : (forUp f turns lo b).Sat (I (lo + turns)) := by
  induction turns generalizing lo b with
  | zero => exact hb
  | succ turns ih =>
    apply (hstep lo b le_rfl (by omega) hb).bind
    intro b' hb'
    have h := ih (fun i b hlo hi => hstep i b (by omega) (by omega)) hb'
    rwa [Nat.add_right_comm] at h

/-- A counting loop whose turns all return a value returns one. -/
theorem forUp_ok (I : Nat → β → Prop) {f : Nat → β → Checked ε β} {turns lo : Nat} {b : β}
    (hstep : ∀ i b, lo ≤ i → i < lo + turns → I i b → ∃ b', f i b = .ok b' ∧ I (i + 1) b')
    (hb : I lo b) : ∃ b', forUp f turns lo b = .ok b' ∧ I (lo + turns) b' := by
  induction turns generalizing lo b with
  | zero => exact ⟨b, rfl, hb⟩
  | succ turns ih =>
    obtain ⟨b', hok, hb'⟩ := hstep lo b le_rfl (by omega) hb
    obtain ⟨b'', hend, hI⟩ := ih (fun i b hlo hi => hstep i b (by omega) (by omega)) hb'
    refine ⟨b'', ?_, by rwa [Nat.add_right_comm] at hI⟩
    unfold forUp
    rw [hok, Checked.ok_bind, hend]

/-- A counting loop that gets to a turn with an access outside ends there. -/
theorem forUp_fault (I : Nat → β → Prop) {f : Nat → β → Checked ε β} {turns lo m : Nat} {b : β}
    (hlo : lo ≤ m) (hm : m < lo + turns)
    (hstep : ∀ i b, i < m → I i b → ∃ b', f i b = .ok b' ∧ I (i + 1) b')
    (hend : ∀ b, I m b → f m b = .fault) (hb : I lo b) : forUp f turns lo b = .fault := by
  induction turns generalizing lo b with
  | zero => exact absurd hm (by omega)
  | succ turns ih =>
    unfold forUp
    rcases Nat.eq_or_lt_of_le hlo with rfl | hlt
    · rw [hend b hb, Checked.fault_bind]
    · obtain ⟨b', hok, hb'⟩ := hstep lo b hlt hb
      rw [hok, Checked.ok_bind]
      exact ih hlt (by omega) hb'

end loop

/-! ### Folds -/

section fold

variable {ε α β σ : Type}

/-- What every step of a fold keeps holds behind it. -/
theorem foldlM_keeps {step : σ → α → Checked ε σ} {I : σ → Prop}
    (hkeep : ∀ s a s', I s → step s a = .ok s' → I s') {l : List α} {s s' : σ} (hI : I s)
    (h : l.foldlM step s = .ok s') : I s' := by
  induction l generalizing s with
  | nil =>
    cases h
    exact hI
  | cons a l ih =>
    rw [List.foldlM_cons] at h
    obtain ⟨s₁, hs₁, h⟩ := Checked.bind_eq_ok h
    exact ih (hkeep s a s₁ hI hs₁) h

/-- A fold whose steps are folds themselves is one fold over all their elements, as long as an
    invariant that the elements keep lets each step be seen so. -/
theorem foldlM_flatMap_ok {step : σ → α → Checked ε σ} {write : σ → β → Checked ε σ}
    {elements : α → List β} {I : σ → Prop}
    (hkeep : ∀ s b s', I s → write s b = .ok s' → I s')
    (hstep : ∀ s a s', I s → step s a = .ok s' → (elements a).foldlM write s = .ok s')
    (l : List α) {s s' : σ} (hI : I s) (h : l.foldlM step s = .ok s') :
    (l.flatMap elements).foldlM write s = .ok s' := by
  induction l generalizing s with
  | nil => exact h
  | cons a l ih =>
    rw [List.foldlM_cons] at h
    obtain ⟨s₁, hs₁, h⟩ := Checked.bind_eq_ok h
    have hfirst := hstep s a s₁ hI hs₁
    rw [List.flatMap_cons, List.foldlM_append, hfirst, Checked.ok_bind]
    exact ih (foldlM_keeps hkeep hI hfirst) h

end fold

end MeuOS.Lib
