import MeuOS.Lib.Checked

namespace MeuOS.Lib

/-!
# Three ways to follow a run

* `Checked.Ends` — the loops of a run have turns enough, and a value that it returns is as asked;
* `Checked.UpTo` — a run is another run, unless it gives up before; the rules `UpTo.bind`,
  `UpTo.foldlM` carry this through sequences and folds;
* `Checked.Returns`, `Checked.Both` — what holds of the value that a run returns, and of the values
  that two runs return, when they do.

The second compares runs of one program in two surroundings: it asks the surroundings questions, and
gives up where they would answer differently.
-/

namespace Checked

variable {ε α β γ : Type}

/-! ### Runs that end -/

/-- The run does not use up its turns, and `P` holds of a value that it returns. -/
def Ends (x : Checked ε α) (P : α → Prop) : Prop := x ≠ stuck ∧ ∀ a, x = ok a → P a

theorem Ends.ok {a : α} {P : α → Prop} (h : P a) : (ok a : Checked ε α).Ends P := by
  refine ⟨nofun, fun b hb => ?_⟩
  cases hb
  exact h

theorem Ends.fault {P : α → Prop} : (fault : Checked ε α).Ends P := ⟨nofun, nofun⟩

theorem Ends.fail {e : ε} {P : α → Prop} : (fail e : Checked ε α).Ends P := ⟨nofun, nofun⟩

theorem Ends.mono {x : Checked ε α} {P Q : α → Prop} (hx : x.Ends P) (h : ∀ a, P a → Q a) :
    x.Ends Q :=
  ⟨hx.1, fun a ha => h a (hx.2 a ha)⟩

theorem Ends.bind {x : Checked ε α} {f : α → Checked ε β} {P : α → Prop} {Q : β → Prop}
    (hx : x.Ends P) (hf : ∀ a, P a → (f a).Ends Q) : (x >>= f).Ends Q := by
  match x, hx with
  | .ok a, hx => exact hf a (hx.2 a rfl)
  | .fail e, _ => exact Ends.fail
  | .fault, _ => exact Ends.fault
  | .stuck, hx => exact absurd rfl hx.1

/-- A fold ends when each step does. -/
theorem Ends.foldlM {step : β → α → Checked ε β} {I : β → Prop} (l : List α)
    (hstep : ∀ b a, I b → (step b a).Ends I) {b : β} (hb : I b) : (l.foldlM step b).Ends I := by
  induction l generalizing b with
  | nil => exact Ends.ok hb
  | cons a l ih =>
    rw [List.foldlM_cons]
    exact (hstep b a hb).bind fun b' hb' => ih hb'

/-! ### Runs in two surroundings -/

/-- `x` is the run `y`, or it has given up. -/
def UpTo (x y : Checked Unit α) : Prop := x = fail () ∨ x = y

@[refl] theorem UpTo.refl (x : Checked Unit α) : UpTo x x := Or.inr rfl

theorem UpTo.eq {x y : Checked Unit α} (h : UpTo x y) (hx : x ≠ fail ()) : x = y :=
  h.resolve_left hx

theorem UpTo.bind {x y : Checked Unit α} {f g : α → Checked Unit β} (hx : UpTo x y)
    (hf : ∀ a, UpTo (f a) (g a)) : UpTo (x >>= f) (y >>= g) := by
  rcases hx with rfl | rfl
  · exact Or.inl rfl
  · match x with
    | ok a => exact hf a
    | fail e => exact Or.inr rfl
    | fault => exact Or.inr rfl
    | stuck => exact Or.inr rfl

theorem UpTo.ite {c : Prop} [Decidable c] {x y x' y' : Checked Unit α} (h : UpTo x y)
    (h' : UpTo x' y') : UpTo (if c then x else x') (if c then y else y') := by
  split
  · exact h
  · exact h'

theorem UpTo.foldlM {f g : β → α → Checked Unit β} (l : List α) (hf : ∀ b a, UpTo (f b a) (g b a))
    (b : β) : UpTo (l.foldlM f b) (l.foldlM g b) := by
  induction l generalizing b with
  | nil => exact UpTo.refl _
  | cons a l ih =>
    rw [List.foldlM_cons, List.foldlM_cons]
    exact (hf b a).bind fun b' => ih b'

/-- The answer that two surroundings agree on. -/
def agreed [DecidableEq α] (x y : Checked Unit α) : Checked Unit α := if x = y then x else fail ()

theorem agreed_upTo_left [DecidableEq α] (x y : Checked Unit α) : UpTo (agreed x y) x := by
  unfold agreed
  split
  · exact UpTo.refl _
  · exact Or.inl rfl

theorem agreed_upTo_right [DecidableEq α] (x y : Checked Unit α) : UpTo (agreed x y) y := by
  unfold agreed
  split
  next h => exact Or.inr h
  next => exact Or.inl rfl

/-! ### Values of one run and of two -/

/-- `P` holds of a value that the run returns. -/
def Returns (x : Checked ε α) (P : α → Prop) : Prop := ∀ a, x = ok a → P a

theorem Returns.ok {a : α} {P : α → Prop} (h : P a) : (ok a : Checked ε α).Returns P := by
  rintro _ ⟨⟩
  exact h

theorem Returns.fail {e : ε} {P : α → Prop} : (fail e : Checked ε α).Returns P := nofun

theorem Returns.mono {x : Checked ε α} {P Q : α → Prop} (hx : x.Returns P) (h : ∀ a, P a → Q a) :
    x.Returns Q :=
  fun a ha => h a (hx a ha)

theorem Returns.bind {x : Checked ε α} {f : α → Checked ε β} {P : α → Prop} {Q : β → Prop}
    (hx : x.Returns P) (hf : ∀ a, P a → (f a).Returns Q) : (x >>= f).Returns Q := by
  intro b hb
  obtain ⟨a, ha, hb⟩ := bind_eq_ok hb
  exact hf a (hx a ha) b hb

/-- What follows a run of which nothing is known. -/
theorem Returns.bind_any {x : Checked ε α} {f : α → Checked ε β} {Q : β → Prop}
    (hf : ∀ a, (f a).Returns Q) : (x >>= f).Returns Q :=
  @Returns.bind _ _ _ x f (fun _ => True) Q (fun _ _ => trivial) fun a _ => hf a

theorem Returns.forUp {f : Nat → β → Checked ε β} {I : β → Prop}
    (hf : ∀ i b, I b → (f i b).Returns I) {turns lo : Nat} {b : β} (hb : I b) :
    (forUp f turns lo b).Returns I := by
  induction turns generalizing lo b with
  | zero => exact Returns.ok hb
  | succ turns ih => exact (hf lo b hb).bind fun b' hb' => ih hb'

/-- `R` relates the values that two runs return. -/
def Both (x : Checked ε α) (y : Checked ε β) (R : α → β → Prop) : Prop :=
  ∀ a b, x = ok a → y = ok b → R a b

variable {α' β' : Type} {R : β → β' → Prop}

theorem Both.ok {b : β} {b' : β'} (h : R b b') : Both (ok b : Checked ε β) (ok b') R := by
  rintro _ _ ⟨⟩ ⟨⟩
  exact h

theorem Both.fail_left {e : ε} {y : Checked ε β'} : Both (fail e) y R := nofun

theorem Both.fail_right {x : Checked ε β} {e : ε} : Both x (fail e) R := nofun

/-- The second run alone decides. -/
theorem Returns.both {x : Checked ε β} {y : Checked ε β'} (h : y.Returns fun b' => ∀ b, R b b') :
    Both x y R :=
  fun b b' _ hb' => h b' hb' b

theorem Both.bind {x : Checked ε α} {y : Checked ε α'} {f : α → Checked ε β}
    {g : α' → Checked ε β'} {S : α → α' → Prop} (hx : Both x y S)
    (hf : ∀ a a', S a a' → Both (f a) (g a') R) : Both (x >>= f) (y >>= g) R := by
  intro b b' hb hb'
  obtain ⟨a, ha, hb⟩ := bind_eq_ok hb
  obtain ⟨a', ha', hb'⟩ := bind_eq_ok hb'
  exact hf a a' (hx a a' ha ha') b b' hb hb'

/-- Two runs that begin with the same run. -/
theorem Both.same {x : Checked ε α} {f : α → Checked ε β} {g : α → Checked ε β'}
    (hf : ∀ a, Both (f a) (g a) R) : Both (x >>= f) (x >>= g) R := by
  have hx : Both x x Eq := fun a a' ha ha' => Checked.ok.inj (ha.symm.trans ha')
  exact hx.bind fun a a' h => h ▸ hf a

theorem Both.ite {c : Prop} [Decidable c] {x x' : Checked ε β} {y y' : Checked ε β'}
    (h : c → Both x y R) (h' : ¬ c → Both x' y' R) :
    Both (if c then x else x') (if c then y else y') R := by
  split
  next hc => exact h hc
  next hc => exact h' hc

theorem Both.forUp {f : Nat → β → Checked ε β} {g : Nat → β' → Checked ε β'}
    (hf : ∀ i b b', R b b' → Both (f i b) (g i b') R) {turns lo : Nat} {b : β} {b' : β'}
    (hb : R b b') : Both (forUp f turns lo b) (forUp g turns lo b') R := by
  induction turns generalizing lo b b' with
  | zero => exact Both.ok hb
  | succ turns ih => exact (hf lo b b' hb).bind fun _ _ h => ih h

end Checked

end MeuOS.Lib
