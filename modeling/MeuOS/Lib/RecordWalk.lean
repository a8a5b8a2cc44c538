import Mathlib.Logic.Relation

namespace MeuOS.Lib

/-!
# Two readers of one sequence of records

A reader takes a record off its state at each step, gives out what the record holds, and goes on
to the next state, until it is done or meets a record that it does not accept.

* `Taken`, `Yields` — the outcome of one step, and what a whole walk gives;
* `walkRecords` — the walk as a program, `Yields.unique` — a walk gives one list;
* `CommonStep` — a step that two readers take alike;
* `yields_agree_iff` — two readers give the same exactly when at every state that they reach
  together and where they differ neither accepts what follows.
-/

variable {σ β : Type}

/-- The outcome of one step of a reader. -/
inductive Taken (σ β : Type) where
  /-- There is no further record. -/
  | done
  /-- The record is not accepted. -/
  | bad
  /-- The record holds `out`, and the reader goes on at `s`. -/
  | next (out : List β) (s : σ)
  deriving DecidableEq

/-- A walk from a state to the end of the records gives a list. -/
inductive Yields (step : σ → Taken σ β) : σ → List β → Prop where
  | done {s : σ} (h : step s = .done) : Yields step s []
  | next {s s' : σ} {out rest : List β} (h : step s = .next out s') (ht : Yields step s' rest) :
      Yields step s (out ++ rest)

/-- The walk of a state, for at most `fuel` steps. -/
def walkRecords (step : σ → Taken σ β) : Nat → σ → Option (List β)
  | 0, _ => none
  | fuel + 1, s =>
    match step s with
    | .done => some []
    | .bad => none
    | .next out s' => (walkRecords step fuel s').map (out ++ ·)

/-- A walk that ends without an error. -/
def Accepts (step : σ → Taken σ β) (s : σ) : Prop := ∃ out, Yields step s out

/-- A step that two readers take alike. -/
def CommonStep (f g : σ → Taken σ β) (s s' : σ) : Prop :=
  ∃ out, f s = .next out s' ∧ g s = .next out s'

section walk

variable {step f g : σ → Taken σ β} {s s' : σ} {out : List β}

theorem yields_done (h : step s = .done) : Yields step s out ↔ out = [] := by
  constructor
  · intro hy
    cases hy with
    | done => rfl
    | next h' => exact nomatch h.symm.trans h'
  · rintro rfl
    exact .done h

theorem not_yields_bad (h : step s = .bad) : ¬ Yields step s out := by
  intro hy
  cases hy with
  | done h' => exact nomatch h.symm.trans h'
  | next h' => exact nomatch h.symm.trans h'

/-- What a walk gives begins with what its first record holds. -/
theorem yields_next {front : List β} (h : step s = .next front s') :
    Yields step s out ↔ ∃ rest, out = front ++ rest ∧ Yields step s' rest := by
  constructor
  · intro hy
    cases hy with
    | done h' => exact nomatch h.symm.trans h'
    | next h' ht =>
      cases h.symm.trans h'
      exact ⟨_, rfl, ht⟩
  · rintro ⟨rest, rfl, ht⟩
    exact .next h ht

/-- A walk gives one list. -/
theorem Yields.unique {out' : List β} (h : Yields step s out) (h' : Yields step s out') :
    out = out' := by
  induction h generalizing out' with
  | done hs => exact ((yields_done hs).mp h').symm
  | next hs _ ih =>
    obtain ⟨rest', rfl, hrest⟩ := (yields_next hs).mp h'
    rw [ih hrest]

/-- What the program gives, the walk gives. -/
theorem yields_of_walkRecords {fuel : Nat} (h : walkRecords step fuel s = some out) :
    Yields step s out := by
  induction fuel generalizing s out with
  | zero => cases h
  | succ fuel ih =>
    unfold walkRecords at h
    cases hs : step s with
    | done =>
      rw [hs] at h
      rw [← Option.some.inj h]
      exact .done hs
    | bad =>
      rw [hs] at h
      cases h
    | next front s' =>
      rw [hs] at h
      obtain ⟨rest, hrest, rfl⟩ := Option.map_eq_some_iff.mp h
      exact .next hs (ih hrest)

/-- Two readers that agree on a state agree on the states they reach together. -/
theorem agree_of_commonStep (hstep : CommonStep f g s s')
    (hagree : ∀ out, Yields f s out ↔ Yields g s out) (out : List β) :
    Yields f s' out ↔ Yields g s' out := by
  obtain ⟨front, hf, hg⟩ := hstep
  have hboth := hagree (front ++ out)
  rw [yields_next hf, yields_next hg] at hboth
  constructor
  · intro hy
    obtain ⟨rest, hrest, hy'⟩ := hboth.mp ⟨out, rfl, hy⟩
    rwa [List.append_cancel_left hrest]
  · intro hy
    obtain ⟨rest, hrest, hy'⟩ := hboth.mpr ⟨out, rfl, hy⟩
    rwa [List.append_cancel_left hrest]

/-- Where two readers differ only on states on which the first one does not go on, what it gives
the other gives as well. -/
theorem yields_of_agree {D : σ → Prop} (hsame : ∀ s, ¬ D s → f s = g s)
    (hstop : ∀ s', Relation.ReflTransGen (CommonStep f g) s s' → D s' → ¬ Accepts f s')
    (hy : Yields f s out) : Yields g s out := by
  induction hy with
  | @done s h =>
    have hd : ¬ D s := fun hd => hstop s .refl hd ⟨[], .done h⟩
    exact .done ((hsame s hd).symm.trans h)
  | @next s s' out rest h ht ih =>
    have hd : ¬ D s := fun hd => hstop s .refl hd ⟨_, .next h ht⟩
    have hg : g s = .next out s' := (hsame s hd).symm.trans h
    exact .next hg (ih fun t hreach => hstop t (.head ⟨out, h, hg⟩ hreach))

theorem commonStep_symm : CommonStep f g = CommonStep g f := by
  ext s s'
  exact exists_congr fun _ => and_comm

/-- Two readers that differ on the states of `D`, and never give the same from there, agree from
a state exactly when neither accepts what follows a state of `D` that they reach together. -/
theorem yields_agree_iff {D : σ → Prop} (hsame : ∀ s, ¬ D s → f s = g s)
    (hdiff : ∀ s, D s → ∀ out, Yields f s out → ¬ Yields g s out) :
    (∀ out, Yields f s out ↔ Yields g s out) ↔
      ∀ s', Relation.ReflTransGen (CommonStep f g) s s' → D s' →
        ¬ Accepts f s' ∧ ¬ Accepts g s' := by
  constructor
  · intro hagree s' hreach hd
    have hagree' : ∀ out, Yields f s' out ↔ Yields g s' out := by
      clear hd
      induction hreach with
      | refl => exact hagree
      | @tail t t' _ hstep ih => exact agree_of_commonStep hstep ih
    constructor
    · rintro ⟨out, hy⟩
      exact hdiff s' hd out hy ((hagree' out).mp hy)
    · rintro ⟨out, hy⟩
      exact hdiff s' hd out ((hagree' out).mpr hy) hy
  · intro hstop out
    constructor
    · exact yields_of_agree hsame fun s' hreach hd => (hstop s' hreach hd).1
    · refine yields_of_agree (fun s hd => (hsame s hd).symm) ?_
      rw [← commonStep_symm]
      exact fun s' hreach hd => (hstop s' hreach hd).2

end walk

end MeuOS.Lib
