import Mathlib.Logic.Basic
import Mathlib.Data.List.Basic

namespace MeuOS.Lib

/-!
# Computations of a process, and refinement between them

A computation reads and changes a state, and returns a value, ends the process with a status, or
uses up its fuel.  A traced computation reports events as well.

* `Outcome`, `Process`, `Traced` — the outcomes and the two monads;
* `Traced.lift`, `Traced.emit` — a computation without events, and one event;
* `Agree` — two outcomes match: values and states as related, the same exit, or both out of fuel;
* `RefinesAt` — a computation does what a traced one does, as long as every event is one the
  refinement allows;
* `RefinesAt.bind`, `RefinesAt.lift` and the other rules of composition;
* `Process.Keeps` — what a computation leaves alone.
-/

/-- How a computation of a process ends. -/
inductive Outcome (α : Type) where
  /-- It returns a value. -/
  | ok (a : α)
  /-- It ends the process. -/
  | exited (status : Int)
  /-- Its fuel is used up. -/
  | timeout
  deriving DecidableEq

/-- A computation on a state. -/
def Process (σ α : Type) : Type := σ → Outcome α × σ

/-- A computation on a state that reports events, the first one first. -/
def Traced (τ ε α : Type) : Type := τ → Outcome α × τ × List ε

variable {σ τ ε α β γ δ : Type}

namespace Process

instance : Monad (Process σ) where
  pure a := fun s => (.ok a, s)
  bind x f := fun s =>
    match x s with
    | (.ok a, s') => f a s'
    | (.exited r, s') => (.exited r, s')
    | (.timeout, s') => (.timeout, s')

/-- Read the state. -/
def get : Process σ σ := fun s => (.ok s, s)

/-- Change the state. -/
def modify (f : σ → σ) : Process σ Unit := fun s => (.ok (), f s)

/-- A step of its own: a value and a new state. -/
def step (f : σ → α × σ) : Process σ α := fun s => (.ok (f s).1, (f s).2)

/-- End the process. -/
def exit (r : Int) : Process σ α := fun s => (.exited r, s)

/-- Give up for want of fuel. -/
def timeout : Process σ α := fun s => (.timeout, s)

@[simp] theorem pure_apply (a : α) (s : σ) : (pure a : Process σ α) s = (.ok a, s) := rfl
@[simp] theorem get_apply (s : σ) : (get : Process σ σ) s = (.ok s, s) := rfl
@[simp] theorem modify_apply (f : σ → σ) (s : σ) : modify f s = (.ok (), f s) := rfl
@[simp] theorem step_apply (f : σ → α × σ) (s : σ) : step f s = (.ok (f s).1, (f s).2) := rfl
@[simp] theorem exit_apply (r : Int) (s : σ) : (exit r : Process σ α) s = (.exited r, s) := rfl
@[simp] theorem timeout_apply (s : σ) : (timeout : Process σ α) s = (.timeout, s) := rfl

theorem bind_apply (x : Process σ α) (f : α → Process σ β) (s : σ) :
    (x >>= f) s =
      match x s with
      | (.ok a, s') => f a s'
      | (.exited r, s') => (.exited r, s')
      | (.timeout, s') => (.timeout, s') := rfl

@[simp] theorem pure_bind (a : α) (f : α → Process σ β) : (pure a >>= f) = f a := rfl
@[simp] theorem get_bind (f : σ → Process σ β) (s : σ) : (get >>= f) s = f s s := rfl
@[simp] theorem modify_bind (g : σ → σ) (f : Unit → Process σ β) (s : σ) :
    (modify g >>= f) s = f () (g s) := rfl
@[simp] theorem step_bind (g : σ → α × σ) (f : α → Process σ β) (s : σ) :
    (step g >>= f) s = f (g s).1 (g s).2 := rfl

/-- A first part that returns hands over to the second. -/
theorem bind_of_ok {x : Process σ α} {s s' : σ} {a : α} (h : x s = (.ok a, s'))
    (f : α → Process σ β) : (x >>= f) s = f a s' := by
  rw [bind_apply, h]

/-- The computation leaves what `p` reads of the state alone. -/
def Keeps (p : σ → β) (x : Process σ α) : Prop := ∀ s, p (x s).2 = p s

theorem Keeps.pure {p : σ → γ} (a : α) : Keeps p (pure a : Process σ α) := fun _ => rfl

theorem Keeps.get {p : σ → γ} : Keeps p (get : Process σ σ) := fun _ => rfl

theorem Keeps.bind {p : σ → γ} {x : Process σ α} {f : α → Process σ β} (hx : Keeps p x)
    (hf : ∀ a, Keeps p (f a)) : Keeps p (x >>= f) := by
  intro s
  have hs := hx s
  rw [bind_apply]
  rcases h : x s with ⟨o, s'⟩
  rw [h] at hs
  cases o with
  | ok a => exact (hf a s').trans hs
  | exited r => exact hs
  | timeout => exact hs

end Process

namespace Traced

instance : Monad (Traced τ ε) where
  pure a := fun t => (.ok a, t, [])
  bind x f := fun t =>
    match x t with
    | (.ok a, t', l) => ((f a t').1, (f a t').2.1, l ++ (f a t').2.2)
    | (.exited r, t', l) => (.exited r, t', l)
    | (.timeout, t', l) => (.timeout, t', l)

/-- The events of a run. -/
def trace (x : Traced τ ε α) (t : τ) : List ε := (x t).2.2

/-- Read the state. -/
def get : Traced τ ε τ := fun t => (.ok t, t, [])

/-- Change the state. -/
def modify (f : τ → τ) : Traced τ ε Unit := fun t => (.ok (), f t, [])

/-- Report an event. -/
def emit (e : ε) : Traced τ ε Unit := fun t => (.ok (), t, [e])

/-- End the process. -/
def exit (r : Int) : Traced τ ε α := fun t => (.exited r, t, [])

/-- Give up for want of fuel. -/
def timeout : Traced τ ε α := fun t => (.timeout, t, [])

/-- A computation without events. -/
def lift (x : Process τ α) : Traced τ ε α := fun t => ((x t).1, (x t).2, [])

@[simp] theorem pure_apply (a : α) (t : τ) : (pure a : Traced τ ε α) t = (.ok a, t, []) := rfl
@[simp] theorem get_apply (t : τ) : (get : Traced τ ε τ) t = (.ok t, t, []) := rfl
@[simp] theorem modify_apply (f : τ → τ) (t : τ) :
    (modify f : Traced τ ε Unit) t = (.ok (), f t, []) := rfl
@[simp] theorem emit_apply (e : ε) (t : τ) : emit e t = (.ok (), t, [e]) := rfl
@[simp] theorem exit_apply (r : Int) (t : τ) :
    (exit r : Traced τ ε α) t = (.exited r, t, []) := rfl
@[simp] theorem timeout_apply (t : τ) : (timeout : Traced τ ε α) t = (.timeout, t, []) := rfl
@[simp] theorem lift_apply (x : Process τ α) (t : τ) :
    (lift x : Traced τ ε α) t = ((x t).1, (x t).2, []) := rfl

theorem bind_apply (x : Traced τ ε α) (f : α → Traced τ ε β) (t : τ) :
    (x >>= f) t =
      match x t with
      | (.ok a, t', l) => ((f a t').1, (f a t').2.1, l ++ (f a t').2.2)
      | (.exited r, t', l) => (.exited r, t', l)
      | (.timeout, t', l) => (.timeout, t', l) := rfl

@[simp] theorem pure_bind (a : α) (f : α → Traced τ ε β) : (pure a >>= f) = f a := rfl
@[simp] theorem get_bind (f : τ → Traced τ ε β) (t : τ) : (get >>= f) t = f t t := rfl
@[simp] theorem modify_bind (g : τ → τ) (f : Unit → Traced τ ε β) (t : τ) :
    (modify g >>= f) t = f () (g t) := rfl
@[simp] theorem emit_bind (e : ε) (f : Unit → Traced τ ε β) (t : τ) :
    (emit e >>= f) t = ((f () t).1, (f () t).2.1, e :: (f () t).2.2) := rfl

end Traced

/-! ### Agreement of outcomes -/

/-- Two outcomes match: values and states are related by `S`, or both processes have ended with
    one status in states related by `X`, or both are out of fuel. -/
inductive Agree (X : σ → τ → Prop) (S : α → σ → β → τ → Prop) :
    Outcome α × σ → Outcome β × τ × List ε → Prop where
  | ok {a : α} {s : σ} {b : β} {t : τ} {l : List ε} (h : S a s b t) :
      Agree X S (.ok a, s) (.ok b, t, l)
  | exited {r : Int} {s : σ} {t : τ} {l : List ε} (h : X s t) :
      Agree X S (.exited r, s) (.exited r, t, l)
  | timeout {s : σ} {t : τ} {l : List ε} : Agree X S (.timeout, s) (.timeout, t, l)

variable {s : σ} {S : α → σ → β → τ → Prop} {t : τ}

/-- The events do not matter to a match. -/
theorem Agree.of_trace {X : σ → τ → Prop} {x : Outcome α × σ}
    {y : Outcome β × τ × List ε} (h : Agree X S x y) (l : List ε) :
    Agree X S x (y.1, y.2.1, l) := by
  cases h with
  | ok h => exact .ok h
  | exited h => exact .exited h
  | timeout => exact .timeout

/-- `f` does in `s` what `g` does in `t`, if every event of `g` there is as `P` allows. -/
def RefinesAt (P : ε → Prop) (X : σ → τ → Prop) (S : α → σ → β → τ → Prop)
    (f : Process σ α) (g : Traced τ ε β) (s : σ) (t : τ) : Prop :=
  (∀ e ∈ g.trace t, P e) → Agree X S (f s) (g t)

section Rules

variable {P : ε → Prop} {X : σ → τ → Prop}

/-- Sequence. -/
theorem RefinesAt.bind {S : α → σ → β → τ → Prop} {S' : γ → σ → δ → τ → Prop}
    {f : Process σ α} {g : Traced τ ε β} {k : α → Process σ γ} {h : β → Traced τ ε δ}
    {s : σ} {t : τ} (hfirst : RefinesAt P X S f g s t)
    (hsecond : ∀ a s' b t', S a s' b t' → RefinesAt P X S' (k a) (h b) s' t') :
    RefinesAt P X S' (f >>= k) (g >>= h) s t := by
  intro hevents
  unfold RefinesAt at hfirst
  unfold Traced.trace at hevents hfirst
  rw [Traced.bind_apply] at hevents ⊢
  rw [Process.bind_apply]
  rcases hg : g t with ⟨o, t', l⟩
  rw [hg] at hevents hfirst
  -- the events of the first part are allowed whichever way it ends
  have hl : ∀ e ∈ l, P e := by
    cases o with
    | ok b => exact fun e he => hevents e (List.mem_append_left _ he)
    | exited r => exact hevents
    | timeout => exact hevents
  have hagree := hfirst hl
  rcases hf : f s with ⟨o', s'⟩
  rw [hf] at hagree
  cases hagree with
  | ok hS =>
    have hrest := hsecond _ _ _ _ hS (fun e he => hevents e (List.mem_append_right _ he))
    exact hrest.of_trace _
  | exited hX => exact .exited hX
  | timeout => exact .timeout

/-- Both read the state. -/
theorem RefinesAt.get {S : γ → σ → δ → τ → Prop} {k : σ → Process σ γ} {h : τ → Traced τ ε δ}
    (hrest : RefinesAt P X S (k s) (h t) s t) :
    RefinesAt P X S (Process.get >>= k) (Traced.get >>= h) s t := hrest

/-- Both change the state. -/
theorem RefinesAt.modify {S : γ → σ → δ → τ → Prop} {f : σ → σ} {g : τ → τ}
    {k : Unit → Process σ γ} {h : Unit → Traced τ ε δ}
    (hrest : RefinesAt P X S (k ()) (h ()) (f s) (g t)) :
    RefinesAt P X S (Process.modify f >>= k) (Traced.modify g >>= h) s t := hrest

/-- A value. -/
theorem RefinesAt.pure {a : α} {b : β}
    (h : S a s b t) : RefinesAt P X S (pure a : Process σ α) (pure b : Traced τ ε β) s t :=
  fun _ => .ok h

/-- A computation that the reference performs as it is. -/
theorem RefinesAt.lift {x : Process σ α} {S : α → σ → α → σ → Prop}
    (h : ∀ a s', x s = (.ok a, s') → S a s' a s') :
    RefinesAt P Eq S x (Traced.lift x : Traced σ ε α) s s := by
  intro _
  rw [Traced.lift_apply]
  rcases hx : x s with ⟨o, s'⟩
  cases o with
  | ok a => exact .ok (h a s' hx)
  | exited r => exact .exited rfl
  | timeout => exact .timeout

/-- The end of the fuel. -/
theorem RefinesAt.timeout :
    RefinesAt P X S (Process.timeout : Process σ α) (Traced.timeout : Traced τ ε β) s t :=
  fun _ => .timeout

/-- A weaker relation at the end. -/
theorem RefinesAt.mono {S' : α → σ → β → τ → Prop} {f : Process σ α} {g : Traced τ ε β}
    (h : RefinesAt P X S f g s t) (hS : ∀ a s' b t', S a s' b t' → S' a s' b t') :
    RefinesAt P X S' f g s t := by
  intro hevents
  have hagree := h hevents
  revert hagree
  generalize f s = x
  generalize g t = y
  intro hagree
  cases hagree with
  | ok h => exact .ok (hS _ _ _ _ h)
  | exited h => exact .exited h
  | timeout => exact .timeout

end Rules

end MeuOS.Lib
