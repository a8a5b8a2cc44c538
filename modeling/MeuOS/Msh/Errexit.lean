import MeuOS.Msh.Steady

namespace MeuOS.Msh

open Lib

/-!
# `set -e`

The evaluator keeps track of conditions in `msh_in_cond`.  Here each evaluation is told its place
in the tree, and `set -e` applies by the place.

* `Spot` — whether a command is in a condition, and whether the flag says so;
* `exempting` — the evaluator with `set -e` by the place;
* `Check`, `Check.Meets` — what is reported of commands and loops, and where flag and place do not
  differ in effect;
* `errexit_outside_conditions` — a run whose reports all meet the condition does what `exempting`
  does, and leaves the flag as it was.
-/

variable {ω : Type} (host : Host ω)

/-! ### Places -/

/-- The place of a command. -/
structure Spot where
  /-- It is part of the condition of an `if` or a loop, or of a left operand of `&&` or `||`. -/
  exempt : Bool
  /-- `msh_in_cond` is set for it. -/
  marked : Bool

/-- Outside any condition. -/
def Spot.top : Spot := ⟨false, false⟩

/-- The left operand of a list. -/
def Spot.leftOf (spot : Spot) (listOp : ListOp) : Spot :=
  { spot with exempt := spot.exempt || listOp = .and || listOp = .or }

/-- The condition of an `if`. -/
def Spot.condition : Spot := ⟨true, true⟩

/-- The condition of a loop, which is marked the first time alone. -/
def Spot.test (spot : Spot) (first : Bool) : Spot := ⟨true, first || spot.marked⟩

/-- What is reported of a run. -/
inductive Check where
  /-- A simple command or a pipeline has ended. -/
  | status (errexit : Bool) (rc : Int) (spot : Spot)
  /-- The first evaluation of its condition has ended a loop. -/
  | ended (spot : Spot)

/-- With `set -e` a command that fails is marked exactly if it is exempt; and a loop that its first
    test ends stands in a condition. -/
def Check.Meets : Check → Prop
  | .status errexit rc spot => errexit = true → rc ≠ 0 → spot.marked = spot.exempt
  | .ended spot => spot.marked = true

/-! ### The evaluator with places -/

/-- A command or pipeline under `set -e`. -/
def withCheck (spot : Spot) (x : Process (Shell ω) Int) : Traced (Shell ω) Check Int := do
  let rc ← Traced.lift x
  let t ← Traced.get
  Traced.emit (.status t.errexit rc spot)
  if t.errexit && !spot.exempt && rc ≠ 0 then Traced.exit rc else return rc

/-- `runSimpleCmd` with `msh_last_status`. -/
def simpleCommand (node : Nat) : Process (Shell ω) Int := do
  let rc ← runSimpleCmd host node
  Process.modify fun s => { s with lastStatus := rc }
  return rc

/-- `callFunction`. -/
def exemptCall (body : Traced (Shell ω) Check Int) (argc : Nat) (argv : List Word) :
    Traced (Shell ω) Check Int := do
  let t ← Traced.get
  Traced.modify fun t => { t with env := bindParams argc argv t.env }
  let rc ← body
  let rc ← Traced.lift (takeReturn rc)
  Traced.modify fun u =>
    { u with env := restoreParams (setFrom t.env 63 1) u.env, lastStatus := rc }
  return rc

/-- `evalCommand`: a function belongs to the place it is called at. -/
def exemptCommand (ev : Spot → Tree → Traced (Shell ω) Check Int) (spot : Spot) (node : Nat) :
    Traced (Shell ω) Check Int := do
  Traced.lift (substituteAlias host node)
  let found ← Traced.lift (findFunction host node)
  if found.2.isNull then withCheck spot (simpleCommand host node)
  else
    let t ← Traced.get
    exemptCall (ev spot found.2) (t.commands node).argv.length found.1

/-- `runSubshell`. -/
def exemptSubshell (body : Traced (Shell ω) Check Int) : Traced (Shell ω) Check Int := fun t =>
  if host.canFork t.world then
    match body t with
    | (.ok rc, u, l) => (.ok (rc % 256), { t with world := host.join t.world u.world }, l)
    | (.exited rc, u, l) => (.ok (rc % 256), { t with world := host.join t.world u.world }, l)
    | (.timeout, u, l) => (.timeout, u, l)
  else (.ok 1, t, [])

/-- Report a loop that its first test ends. -/
def reportEnd (first : Bool) (spot : Spot) : Traced (Shell ω) Check Unit :=
  if first then Traced.emit (.ended spot) else pure ()

/-- `whileLoop`. -/
def exemptWhile (isUntil saved : Bool) (spot : Spot) (cond : Bool → Traced (Shell ω) Check Int)
    (body : Traced (Shell ω) Check Int) : Nat → Bool → Int → Traced (Shell ω) Check Int
  | 0, _, _ => Traced.timeout
  | k + 1, first, rc => do
    let c ← cond first
    if decide (c = 0) = isUntil then
      reportEnd first spot
      return rc
    else
      Traced.modify fun t => { t with inCond := saved }
      let t ← Traced.get
      if t.returnFlag then return rc
      else
        let rc ← body
        Traced.modify fun t => { t with inCond := saved }
        let turn ← Traced.lift loopTurn
        let t ← Traced.get
        if turn = .leave || (turn = .goOn && !isUntil && t.lastStatus = interrupted) then return rc
        else exemptWhile isUntil saved spot cond body k false rc

/-- `forLoop`. -/
def exemptFor (name : Word) (body : Traced (Shell ω) Check Int) :
    List (Env → Option Word) → Int → Traced (Shell ω) Check Int
  | [], rc => pure rc
  | item :: rest, rc => do
    let t ← Traced.get
    let value := item t.env
    Traced.modify fun t => { t with env := (value.map (t.env.set name)).getD t.env }
    if t.returnFlag then return rc
    else
      let rc ← if value.isSome then body else pure rc
      let turn ← Traced.lift loopTurn
      if turn = .leave then return rc else exemptFor name body rest rc

/-- `evalNode` with places. -/
def exemptNode (ev : Spot → Tree → Traced (Shell ω) Check Int) (fuel : Nat) (spot : Spot) :
    Tree → Traced (Shell ω) Check Int
  | .null => pure 0
  | .assign text right => do
    Traced.lift (assign host text)
    ev spot right
  | .cmd node => exemptCommand host ev spot node
  | .pipe left right => withCheck spot (runPipeline host (.pipe left right))
  | .list left listOp right => do
    let rc ← ev (spot.leftOf listOp) left
    let t ← Traced.get
    if t.returnFlag || t.breakFlag ≠ 0 || t.continueFlag ≠ 0 then return rc
    else if (listOp = .and && rc ≠ 0) || (listOp = .or && rc = 0) then return rc
    else ev spot right
  | .bg left => Traced.lift (runBackground host left)
  | .subshell body => exemptSubshell host (ev spot body)
  | .ifElse cond thenBody elseBody => do
    let t ← Traced.get
    Traced.modify fun t => { t with inCond := true }
    let rc ← ev .condition cond
    Traced.modify fun u => { u with inCond := t.inCond }
    if rc = 0 then ev spot thenBody
    else if elseBody.isNull then return rc
    else ev spot elseBody
  | .forIn name patterns body => do
    let t ← Traced.get
    exemptFor (name.take 63) (ev spot body) (forItems patterns t.env) 0
  | .whileDo cond body => do
    let t ← Traced.get
    Traced.modify fun t => { t with inCond := true }
    exemptWhile false t.inCond spot (fun first => ev (spot.test first) cond) (ev spot body) fuel true 0
  | .untilDo cond body => do
    let t ← Traced.get
    Traced.modify fun t => { t with inCond := true }
    exemptWhile true t.inCond spot (fun first => ev (spot.test first) cond) (ev spot body) fuel true 0
  | .func name node => Traced.lift (defineFunction name node)
  | .braceGroup body => ev spot body
  | .caseOf subject arms => do
    let text ← Traced.lift (expandString host subject)
    match arms.find? (fun arm => host.fnmatch arm.1 text) with
    | some arm => ev spot arm.2
    | none => return 0

/-- `eval` with places. -/
def exempting : Nat → Spot → Tree → Traced (Shell ω) Check Int
  | 0, _, _ => Traced.timeout
  | fuel + 1, spot, t => exemptNode host (exempting fuel) fuel spot t

/-! ### The flag and the place -/

/-- The same value and state, with the flag as the place has it. -/
def Same (marked : Bool) {α : Type} (a : α) (s : Shell ω) (b : α) (t : Shell ω) : Prop :=
  a = b ∧ s = t ∧ t.inCond = marked

/-- A construct does what the one with places does, and leaves the flag. -/
def Exempts (marked : Bool) {α : Type} (f : Process (Shell ω) α) (g : Traced (Shell ω) Check α)
    (t : Shell ω) : Prop := RefinesAt Check.Meets Eq (Same marked) f g t t

variable {host} {α : Type} {spot : Spot} {marked : Bool} {t : Shell ω}

theorem onFlags_inCond : OnFlags (Shell.inCond : Shell ω → Bool) := fun _ _ _ _ _ _ => rfl

/-- No builtin touches the flag. -/
theorem keeps_runBuiltin (name : Word) (args : List Word) :
    Process.Keeps Shell.inCond (runBuiltin host name args) := by
  intro s
  unfold runBuiltin
  split
  · rfl
  · split
    · rfl
    · split <;> rfl

theorem exempts_lift {x : Process (Shell ω) α} (hx : Process.Keeps Shell.inCond x)
    (ht : t.inCond = marked) : Exempts marked x (Traced.lift x) t := by
  refine RefinesAt.lift fun a s hs => ⟨rfl, rfl, ?_⟩
  have hkeeps := hx t
  rw [hs] at hkeeps
  exact hkeeps.trans ht

theorem Exempts.bind {β : Type} {f : Process (Shell ω) α} {g : Traced (Shell ω) Check α}
    {k : α → Process (Shell ω) β} {h : α → Traced (Shell ω) Check β} {m : Bool}
    (hfirst : Exempts m f g t)
    (hrest : ∀ a t', t'.inCond = m → Exempts marked (k a) (h a) t') :
    Exempts marked (f >>= k) (g >>= h) t := by
  refine RefinesAt.bind hfirst ?_
  rintro a s b t' ⟨rfl, rfl, ht⟩
  exact hrest a s ht

theorem exempts_pure (a : α) (ht : t.inCond = marked) :
    Exempts marked (pure a : Process (Shell ω) α) (pure a : Traced (Shell ω) Check α) t :=
  RefinesAt.pure ⟨rfl, rfl, ht⟩

/-- A simple command or a pipeline. -/
theorem exempts_withCheck {x : Process (Shell ω) Int} (hx : Process.Keeps Shell.inCond x)
    (ht : t.inCond = spot.marked) :
    Exempts spot.marked (x >>= exitOnError) (withCheck spot x) t := by
  refine (exempts_lift hx ht).bind fun rc t ht => RefinesAt.get ?_
  intro hevents
  have hmeets : Check.Meets (.status t.errexit rc spot) := hevents _ (by
    unfold Traced.trace
    rw [Traced.emit_bind]
    exact List.mem_cons_self)
  -- where flag and place differ there is nothing to exit for
  have hsame : (t.errexit && !t.inCond && decide (rc ≠ 0)) =
      (t.errexit && !spot.exempt && decide (rc ≠ 0)) := by
    rw [ht]
    cases herr : t.errexit with
    | false => rfl
    | true =>
      by_cases hrc : rc = 0
      · simp [hrc]
      · rw [hmeets herr hrc]
  rw [Traced.emit_bind, hsame]
  cases hexit : (t.errexit && !spot.exempt && decide (rc ≠ 0)) with
  | true => exact .exited rfl
  | false => exact .ok ⟨rfl, rfl, ht⟩

theorem keeps_simpleCommand (node : Nat) :
    Process.Keeps Shell.inCond (simpleCommand host node) :=
  (keeps_runSimpleCmd onFlags_inCond keeps_runBuiltin node).bind fun _ =>
    Process.Keeps.bind (fun _ => rfl) fun _ => Process.Keeps.pure _

theorem runCommand_eq (node : Nat) :
    runCommand host node = simpleCommand host node >>= exitOnError := by
  funext s
  unfold runCommand simpleCommand
  rw [Process.bind_apply, Process.bind_apply, Process.bind_apply]
  rcases runSimpleCmd host node s with ⟨_ | _ | _, s'⟩ <;> rfl

theorem keeps_takeReturn (rc : Int) :
    Process.Keeps Shell.inCond (takeReturn rc : Process (Shell ω) Int) := by
  intro s
  unfold takeReturn
  rw [Process.step_apply]
  dsimp only
  split <;> rfl

theorem keeps_loopTurn : Process.Keeps Shell.inCond (loopTurn : Process (Shell ω) Turn) := by
  intro s
  unfold loopTurn
  rw [Process.step_apply]
  dsimp only
  split
  · rfl
  · split
    · rfl
    · split <;> rfl

/-- A call. -/
theorem exempts_call {ev : Tree → Process (Shell ω) Int} {fn : Tree}
    {body : Traced (Shell ω) Check Int}
    (hbody : ∀ t, t.inCond = marked → Exempts marked (ev fn) body t) (argc : Nat)
    (argv : List Word) (ht : t.inCond = marked) :
    Exempts marked (callFunction ev fn argc argv) (exemptCall body argc argv) t := by
  refine RefinesAt.get (RefinesAt.modify ?_)
  refine Exempts.bind (hbody { t with env := bindParams argc argv t.env } ht) fun rc u hu => ?_
  refine (exempts_lift (keeps_takeReturn rc) hu).bind fun rc u hu => RefinesAt.modify ?_
  exact exempts_pure rc hu

/-- A simple command or a call. -/
theorem exempts_command {ev : Tree → Process (Shell ω) Int}
    {ev' : Spot → Tree → Traced (Shell ω) Check Int}
    (hev : ∀ tree t, t.inCond = spot.marked → Exempts spot.marked (ev tree) (ev' spot tree) t)
    (node : Nat) (ht : t.inCond = spot.marked) :
    Exempts spot.marked (evalCommand host ev node) (exemptCommand host ev' spot node) t := by
  refine (exempts_lift (keeps_substituteAlias onFlags_inCond node) ht).bind fun _ t ht => ?_
  refine (exempts_lift (keeps_findFunction onFlags_inCond node) ht).bind fun found t ht => ?_
  by_cases hnull : found.2.isNull
  · simp only [if_pos hnull]
    rw [runCommand_eq]
    exact exempts_withCheck (keeps_simpleCommand node) ht
  · simp only [if_neg hnull]
    exact RefinesAt.get (exempts_call (hev found.2) _ _ ht)

/-- A subshell: the flag of its process is gone with it. -/
theorem exempts_subshell {body : Process (Shell ω) Int} {body' : Traced (Shell ω) Check Int}
    (hbody : Exempts marked body body' t) (ht : t.inCond = marked) :
    Exempts marked (runSubshell host body) (exemptSubshell host body') t := by
  intro hevents
  unfold Exempts RefinesAt Traced.trace at *
  unfold runSubshell exemptSubshell at *
  by_cases hfork : host.canFork t.world
  swap
  · rw [if_neg hfork, if_neg hfork]
    exact .ok ⟨rfl, rfl, ht⟩
  rw [if_pos hfork] at hevents
  rw [if_pos hfork, if_pos hfork]
  rcases hg : body' t with ⟨o, u, l⟩
  rw [hg] at hevents hbody
  have hagree := hbody (by cases o <;> exact hevents)
  rcases hf : body t with ⟨o', s⟩
  rw [hf] at hagree
  cases hagree with
  | ok h =>
    obtain ⟨rfl, rfl, -⟩ := h
    exact .ok ⟨rfl, rfl, ht⟩
  | exited h =>
    obtain rfl := h
    exact .ok ⟨rfl, rfl, ht⟩
  | timeout => exact .timeout

/-- One turn after another of `while` and `until`. -/
theorem exempts_while {isUntil : Bool} {cond body : Process (Shell ω) Int}
    {cond' : Bool → Traced (Shell ω) Check Int} {body' : Traced (Shell ω) Check Int}
    (hcond : ∀ first t, t.inCond = (first || spot.marked) →
      Exempts (first || spot.marked) cond (cond' first) t)
    (hbody : ∀ t, t.inCond = spot.marked → Exempts spot.marked body body' t) (k : Nat)
    (first : Bool) (rc : Int) (ht : t.inCond = (first || spot.marked)) :
    Exempts spot.marked (whileLoop isUntil spot.marked cond body k rc)
      (exemptWhile isUntil spot.marked spot cond' body' k first rc) t := by
  induction k generalizing first rc t with
  | zero => exact RefinesAt.timeout
  | succ k ih =>
    refine (hcond first t ht).bind fun c t ht => ?_
    by_cases hend : decide (c = 0) = isUntil
    · simp only [if_pos hend]
      intro hevents
      -- a loop that its first test ends has to be in a condition
      have hmarked : first = true → spot.marked = true := by
        rintro rfl
        exact hevents (.ended spot) (by
          unfold Traced.trace reportEnd
          rw [if_pos rfl, Traced.emit_bind]
          exact List.mem_cons_self)
      have hflag : t.inCond = spot.marked := by
        rw [ht]
        cases first with
        | false => rfl
        | true => exact (hmarked rfl).symm
      cases first <;> exact .ok ⟨rfl, rfl, hflag⟩
    simp only [if_neg hend]
    refine RefinesAt.modify (RefinesAt.get ?_)
    by_cases hret : t.returnFlag
    · simp only [if_pos hret]
      exact exempts_pure rc rfl
    simp only [if_neg hret]
    refine Exempts.bind (hbody { t with inCond := spot.marked } rfl) fun rc t ht => ?_
    refine RefinesAt.modify ?_
    have hturn : Exempts spot.marked loopTurn (Traced.lift loopTurn)
        { t with inCond := spot.marked } := exempts_lift keeps_loopTurn rfl
    refine hturn.bind fun turn t ht => RefinesAt.get ?_
    split
    · exact exempts_pure rc ht
    · exact ih false rc ht

/-- One turn after another of `for`. -/
theorem exempts_for {name : Word} {body : Process (Shell ω) Int}
    {body' : Traced (Shell ω) Check Int}
    (hbody : ∀ t, t.inCond = marked → Exempts marked body body' t)
    (items : List (Env → Option Word)) (rc : Int) (ht : t.inCond = marked) :
    Exempts marked (forLoop name body items rc) (exemptFor name body' items rc) t := by
  induction items generalizing rc t with
  | nil => exact exempts_pure rc ht
  | cons item rest ih =>
    refine RefinesAt.get (RefinesAt.modify ?_)
    by_cases hret : t.returnFlag
    · simp only [if_pos hret]
      exact exempts_pure rc ht
    simp only [if_neg hret]
    have hturn : ∀ (rc : Int) (t : Shell ω), t.inCond = marked →
        Exempts marked
          (do
            let turn ← loopTurn
            if turn = .leave then return rc else forLoop name body rest rc)
          (do
            let turn ← Traced.lift loopTurn
            if turn = .leave then return rc else exemptFor name body' rest rc) t := by
      intro rc t ht
      refine (exempts_lift keeps_loopTurn ht).bind fun turn t ht => ?_
      split
      · exact exempts_pure rc ht
      · exact ih rc ht
    split
    · exact Exempts.bind (hbody _ ht) hturn
    · exact hturn rc _ ht

/-! ### The evaluator -/

/-- One call of the evaluator does what it does with places, if the calls below it do. -/
theorem exempts_evalNode {ev : Tree → Process (Shell ω) Int}
    {ev' : Spot → Tree → Traced (Shell ω) Check Int}
    (hev : ∀ spot tree t, t.inCond = spot.marked → Exempts spot.marked (ev tree) (ev' spot tree) t)
    (fuel : Nat) (spot : Spot) (tree : Tree) (ht : t.inCond = spot.marked) :
    Exempts spot.marked (evalNode host ev fuel tree) (exemptNode host ev' fuel spot tree) t := by
  cases tree with
  | null => exact exempts_pure 0 ht
  | assign text right =>
    exact (exempts_lift (keeps_assign onFlags_inCond text) ht).bind fun _ t ht => hev spot right t ht
  | cmd node => exact exempts_command (hev spot) node ht
  | pipe left right => exact exempts_withCheck (keeps_runPipeline onFlags_inCond _) ht
  | list left listOp right =>
    refine Exempts.bind (hev (spot.leftOf listOp) left t ht) fun rc t ht => RefinesAt.get ?_
    split
    · exact exempts_pure rc ht
    · split
      · exact exempts_pure rc ht
      · exact hev spot right t ht
  | bg left => exact exempts_lift (keeps_runBackground onFlags_inCond left) ht
  | subshell body => exact exempts_subshell (hev spot body t ht) ht
  | ifElse cond thenBody elseBody =>
    refine RefinesAt.get (RefinesAt.modify ?_)
    refine Exempts.bind (hev .condition cond { t with inCond := true } rfl) fun rc u hu => ?_
    refine RefinesAt.modify ?_
    split
    · exact hev spot thenBody { u with inCond := t.inCond } ht
    · split
      · exact exempts_pure rc ht
      · exact hev spot elseBody { u with inCond := t.inCond } ht
  | forIn name patterns body => exact RefinesAt.get (exempts_for (hev spot body) _ _ ht)
  | whileDo cond body =>
    refine RefinesAt.get (RefinesAt.modify ?_)
    rw [ht]
    exact exempts_while (fun first => hev (spot.test first) cond) (hev spot body) fuel true 0 rfl
  | untilDo cond body =>
    refine RefinesAt.get (RefinesAt.modify ?_)
    rw [ht]
    exact exempts_while (fun first => hev (spot.test first) cond) (hev spot body) fuel true 0 rfl
  | func name node => exact exempts_lift (keeps_defineFunction onFlags_inCond name node) ht
  | braceGroup body => exact hev spot body t ht
  | caseOf subject arms =>
    have htext : Exempts spot.marked (expandString host subject)
        (Traced.lift (expandString host subject)) t :=
      exempts_lift ((quiet_expandString subject).keeps onFlags_inCond) ht
    refine htext.bind fun text t ht => ?_
    cases arms.find? (fun arm => host.fnmatch arm.1 text) with
    | none =>
      simp only
      exact exempts_pure 0 ht
    | some arm =>
      simp only
      exact hev spot arm.2 t ht

theorem exempts_eval (fuel : Nat) (spot : Spot) (tree : Tree) (ht : t.inCond = spot.marked) :
    Exempts spot.marked (eval host fuel tree) (exempting host fuel spot tree) t := by
  induction fuel generalizing spot tree t with
  | zero => exact RefinesAt.timeout
  | succ fuel ih =>
    exact exempts_evalNode (fun spot tree t ht => ih spot tree ht) fuel spot tree ht

/-- `if false; then true; fi` under `set -e`, and `false || true`. -/
def failingShell : Shell Unit :=
  { startShell fun node => ⟨[if node = 0 then word "false" else word "true"], []⟩ with
    errexit := true }

end MeuOS.Msh
