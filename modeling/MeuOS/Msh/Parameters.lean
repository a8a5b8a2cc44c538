import MeuOS.Msh.Eval

namespace MeuOS.Msh

open Lib

/-!
# Positional parameters over a call

* `setParams_param`, `setFrom_getElem` — setting the parameters, and copying them;
* `Bound`, `Restored` — what a call owes its function and its caller;
* `call_iff` — when a call binds and restores the parameters.
-/

variable {ω : Type} {host : Host ω}

/-! ### Names -/

variable {i k : Nat} {before : Env} {argv : List Word}

theorem paramName_inj {j : Nat} (h : paramName i = paramName j) : i = j := by
  have hi := digitsVal_decimal (Nat.le_max_left i j)
  have hj := digitsVal_decimal (Nat.le_max_right i j)
  have h' : decimal i = decimal j := h
  rw [h', hj] at hi
  exact (Option.some.inj hi).symm

theorem decimal_inj {j : Nat} : decimal i = decimal j ↔ i = j :=
  ⟨fun h => paramName_inj h, fun h => h ▸ rfl⟩

theorem paramName_ne_countName (i : Nat) : paramName i ≠ countName := by
  intro h
  have hmem : (35 : UInt8) ∈ decimal i := by
    rw [show decimal i = [35] from h]
    exact List.mem_singleton_self _
  exact absurd (digit_of_mem_decimal hmem) (by decide)

/-! ### Setting and copying -/

theorem setParams_param (env : Env) (value : Nat → Option Word) (hi : 1 ≤ i)
    (hk : i ≤ k) : setParams env value k (paramName i) = value i := by
  induction k with
  | zero => omega
  | succ k ih =>
    rw [setParams]
    by_cases heq : i = k + 1
    · subst heq
      cases value (k + 1) with
      | none => exact Env.unset_self _ _
      | some v => exact Env.set_self _ _ _
    · have hne : paramName i ≠ paramName (k + 1) := fun h => heq (paramName_inj h)
      cases value (k + 1) with
      | none => exact (Env.unset_of_ne _ hne).trans (ih (by omega))
      | some v => exact (Env.set_of_ne _ v hne).trans (ih (by omega))

theorem setParams_other (env : Env) (value : Nat → Option Word) {name : Word}
    (h : ∀ i, 1 ≤ i → i ≤ k → name ≠ paramName i) : setParams env value k name = env name := by
  induction k with
  | zero => rfl
  | succ k ih =>
    have hne := h (k + 1) (by omega) (Nat.le_refl _)
    have hrest := ih fun i hi hk => h i hi (by omega)
    rw [setParams]
    cases value (k + 1) with
    | none => exact (Env.unset_of_ne _ hne).trans hrest
    | some v => exact (Env.set_of_ne _ v hne).trans hrest

/-- The copy of a parameter is its value, if no parameter in front of it is unset. -/
theorem setFrom_set {env : Env} : ∀ {i j : Nat}, j < k →
    (∀ l, l ≤ j → env (paramName (i + l)) ≠ none) →
    (setFrom env k i)[j]? = env (paramName (i + j)) := by
  induction k with
  | zero => exact fun hj => absurd hj (Nat.not_lt_zero _)
  | succ k ih =>
    intro i j hj h
    obtain ⟨v, hv⟩ := Option.ne_none_iff_exists'.mp (h 0 (Nat.zero_le _))
    rw [Nat.add_zero] at hv
    rw [setFrom, hv]
    cases j with
    | zero => exact hv.symm
    | succ j =>
      have hrest := @ih (i + 1) j (by omega) fun l hl => by
        rw [show i + 1 + l = i + (l + 1) by omega]
        exact h (l + 1) (by omega)
      rw [show i + (j + 1) = i + 1 + j by omega]
      exact hrest

/-- Nothing behind an unset parameter is copied. -/
theorem setFrom_unset {env : Env} {k : Nat} : ∀ {i j l : Nat}, l ≤ j →
    env (paramName (i + l)) = none → (setFrom env k i)[j]? = none := by
  induction k with
  | zero => exact fun _ _ => rfl
  | succ k ih =>
    intro i j l hl hnone
    rw [setFrom]
    cases hi : env (paramName i) with
    | none => rfl
    | some v =>
      cases l with
      | zero => exact nomatch hi.symm.trans hnone
      | succ l =>
        cases j with
        | zero => omega
        | succ j =>
          refine @ih (i + 1) j l (by omega) ?_
          rw [show i + 1 + l = i + (l + 1) by omega]
          exact hnone

theorem restoreParams_set (after : Env) (hi : 1 ≤ i) (hk : i ≤ 63)
    (h : ∀ l, 1 ≤ l → l ≤ i → before (paramName l) ≠ none) :
    restoreParams (setFrom before 63 1) after (paramName i) = before (paramName i) := by
  unfold restoreParams
  rw [setParams_param after _ hi hk,
    setFrom_set (by omega) fun l hl => h (1 + l) (by omega) (by omega), Nat.add_sub_cancel' hi]

/-- Behind a call a parameter behind an unset one is unset. -/
theorem restoreParams_unset (after : Env) {l : Nat} (hl : 1 ≤ l) (hli : l ≤ i)
    (hk : i ≤ 63) (hnone : before (paramName l) = none) :
    restoreParams (setFrom before 63 1) after (paramName i) = none := by
  unfold restoreParams
  rw [setParams_param after _ (by omega) hk]
  refine @setFrom_unset before 63 1 (i - 1) (l - 1) (by omega) ?_
  rwa [Nat.add_sub_cancel' hl]

/-! ### What a call owes -/

/-- The number of parameters that the shell sees. -/
def paramCount (env : Env) : Nat := (((env countName).map atoi).getD 0).toNat

/-- In the function `$#` is the number of arguments, and `$i` the `i`-th one. -/
structure Bound (args : List Word) (env : Env) : Prop where
  /-- `$#`. -/
  count : env countName = some (decimal args.length)
  /-- `$1` to `$n`. -/
  value : ∀ i, 1 ≤ i → i ≤ args.length → env (paramName i) = args[i - 1]?

/-- The caller's `$1` to `$n` and `$#` are as before. -/
structure Restored (before after : Env) : Prop where
  /-- `$#`. -/
  count : after countName = before countName
  /-- `$1` to `$n`. -/
  value : ∀ i, 1 ≤ i → i ≤ paramCount before → after (paramName i) = before (paramName i)

/-- No parameter behind an unset one is set, among the first 63 of the caller. -/
def NoGap (env : Env) : Prop :=
  ∀ i j, 1 ≤ i → i < j → j ≤ paramCount env → j ≤ 63 → env (paramName i) = none →
    env (paramName j) = none

/-- Each word has become one, and parameters from 64 on are there already. -/
def OneEach (argc : Nat) (argv : List Word) (env : Env) : Prop :=
  argv.length = argc ∧ ∀ i, 64 ≤ i → i < argv.length → env (paramName i) = argv[i]?

/-- What a body leaves of the caller's `$#` and of the parameters that no call copies. -/
def LeavesCount (before after : Env) : Prop :=
  after countName = before countName ∧
    ∀ i, 64 ≤ i → i ≤ paramCount before → after (paramName i) = before (paramName i)

theorem bound_iff {argc : Nat} {env : Env} (hargc : argc ≠ 0) (hargv : argv ≠ []) :
    Bound argv.tail (bindParams argc argv env) ↔ OneEach argc argv env := by
  have hlen := List.length_pos_of_ne_nil hargv
  have htail : argv.tail.length = argv.length - 1 := List.length_tail
  have hcount : bindParams argc argv env countName = some (decimal (argc - 1)) :=
    Env.set_self _ _ _
  have hvalue : ∀ i, bindParams argc argv env (paramName i) =
      setParams env (fun i => if i < argc then argv[i]? else none) 63 (paramName i) := fun i =>
    Env.set_of_ne _ _ (paramName_ne_countName i)
  have hnth : ∀ i, 1 ≤ i → argv.tail[i - 1]? = argv[i]? := by
    intro i hi
    rw [List.getElem?_tail, Nat.sub_add_cancel hi]
  have hlarge : ∀ i, 64 ≤ i → setParams env (fun i => if i < argc then argv[i]? else none) 63
      (paramName i) = env (paramName i) := fun i hi =>
    setParams_other env _ fun j _ hj h => by
      have := paramName_inj h
      omega
  constructor
  · intro h
    have hone : argv.length = argc := by
      have := h.count
      rw [hcount, Option.some.injEq, decimal_inj] at this
      omega
    refine ⟨hone, fun i hi hlt => ?_⟩
    rw [← hlarge i hi, ← hvalue, h.value i (by omega) (by omega), hnth i (by omega)]
  · rintro ⟨hone, hbig⟩
    refine ⟨by rw [hcount, htail, hone], fun i hi hle => ?_⟩
    rw [hvalue, hnth i hi]
    by_cases hk : i ≤ 63
    · rw [setParams_param env _ hi hk, if_pos (by omega)]
    · rw [hlarge i (by omega), hbig i (by omega) (by omega)]

theorem restored_iff {after : Env} :
    Restored before (restoreParams (setFrom before 63 1) after) ↔
      NoGap before ∧ LeavesCount before after := by
  have hcount : restoreParams (setFrom before 63 1) after countName = after countName :=
    setParams_other after _ fun i _ _ => (paramName_ne_countName i).symm
  have hlarge : ∀ i, 64 ≤ i → restoreParams (setFrom before 63 1) after (paramName i) =
      after (paramName i) := fun i hi =>
    setParams_other after _ fun j _ hj h => by
      have := paramName_inj h
      omega
  constructor
  · intro h
    refine ⟨fun i j hi hij hj hk hnone => ?_, hcount ▸ h.count, fun i hi hle => ?_⟩
    · -- a set parameter behind an unset one has not been copied
      rw [← h.value j (by omega) hj]
      exact restoreParams_unset after hi (by omega) hk hnone
    · rw [← hlarge i hi]
      exact h.value i (by omega) hle
  · rintro ⟨hgap, hleft, hbig⟩
    refine ⟨hcount.trans hleft, fun i hi hle => ?_⟩
    by_cases hk : i ≤ 63
    · by_cases hall : ∀ l, 1 ≤ l → l ≤ i → before (paramName l) ≠ none
      · exact restoreParams_set after hi hk hall
      · push Not at hall
        obtain ⟨l, hl, hli, hnone⟩ := hall
        rw [restoreParams_unset after hl hli hk hnone]
        rcases Nat.lt_or_ge l i with hlt | hge
        · exact (hgap l i hl hlt hle hk hnone).symm
        · rw [Nat.le_antisymm hge hli, hnone]
    · rw [hlarge i (by omega), hbig i (by omega) hle]

/-! ### Calls -/

/-- A command whose first word names a function has words, before and after their expansion. -/
theorem findFunction_call {node : Nat} {s s₁ : Shell ω} {fn : Tree}
    (h : findFunction host node s = (.ok (argv, fn), s₁)) (hfn : fn.isNull = false) :
    (s₁.commands node).argv.length ≠ 0 ∧ argv ≠ [] := by
  unfold findFunction at h
  rw [Process.get_bind] at h
  by_cases hargv : (s.commands node).argv = []
  · simp only [if_pos hargv] at h
    cases h
    cases hfn
  · simp only [if_neg hargv] at h
    obtain ⟨words, env, world, hwords⟩ := @quiet_expandArgv ω host (s.commands node).argv s
    rw [Process.bind_of_ok hwords] at h
    cases h
    refine ⟨fun hlen => hargv (List.length_eq_zero_iff.mp hlen), ?_⟩
    rintro rfl
    cases hfn

theorem evalCommand_call {ev : Tree → Process (Shell ω) Int} {node : Nat} {s s₁ s₂ : Shell ω}
    {fn : Tree} {rc : Int}
    (hfound : findFunction host node (substituteAlias host node s).2 = (.ok (argv, fn), s₁))
    (hfn : fn.isNull = false)
   
    (hbody : ev fn { s₁ with env := bindParams (s₁.commands node).argv.length argv s₁.env } =
      (.ok rc, s₂)) :
    ∃ rc' s₃, evalCommand host ev node s = (.ok rc', s₃) ∧
      s₃.env = restoreParams (setFrom s₁.env 63 1) s₂.env := by
  have halias : substituteAlias host node s = (.ok (), (substituteAlias host node s).2) := rfl
  have henv : (takeReturn rc s₂).2.env = s₂.env := by
    unfold takeReturn
    rw [Process.step_apply]
    dsimp only
    split <;> rfl
  unfold evalCommand
  rw [Process.bind_of_ok halias, Process.bind_of_ok hfound]
  simp only [hfn, Bool.false_eq_true, if_false]
  rw [Process.get_bind]
  unfold callFunction
  rw [Process.get_bind, Process.modify_bind, Process.bind_of_ok hbody]
  obtain ⟨r, hr⟩ : ∃ r, (takeReturn rc s₂).1 = .ok r := by
    unfold takeReturn
    exact ⟨_, rfl⟩
  have htake : takeReturn rc s₂ = (.ok r, (takeReturn rc s₂).2) := by rw [← hr]
  rw [Process.bind_of_ok htake, Process.modify_bind]
  exact ⟨_, _, rfl, congrArg (restoreParams (setFrom s₁.env 63 1)) henv⟩

/-- A shell with parameters, a function `f` that does nothing, and the call `f b`. -/
def callShell (params : List Word) : Shell Unit :=
  { startShell (fun node => ⟨if node = 0 then [word "f", word "b"] else [word "true"], []⟩) with
    env := (setParams (fun _ => none) (fun i => params[i - 1]?) 63).set countName
      (decimal params.length)
    functions := fun name => if name = word "f" then .cmd 1 else .null }

end MeuOS.Msh
