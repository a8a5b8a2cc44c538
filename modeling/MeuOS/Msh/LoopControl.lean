import MeuOS.Msh.Steady

namespace MeuOS.Msh

open Lib

/-!
# `break` and `continue`

The evaluator keeps a jump in two counters of the shell, which every construct has to look at.
Here a jump is part of what an evaluation returns, and each construct hands it on.

* `Signal`, `Place`, `Jump` — a jump under way, the place of a command, and what is reported of a
  command that jumps;
* `structured` — the evaluator with signals: a jump leaves the loops that it names;
* `Jump.Meets` — the jumps that the counters carry out;
* `Pending` — the counters that stand for a signal;
* `loop_control` — a run whose jumps all meet the condition does what `structured` does, and ends
  with both counters at zero.
-/

variable {ω : Type} (host : Host ω)

/-! ### Jumps -/

/-- A jump under way. -/
inductive Signal where
  | none
  /-- Leave the innermost loop, and as many more around it. -/
  | leave (more : Nat)
  /-- Leave as many loops, and start the next turn of the loop around them. -/
  | next (more : Nat)
  deriving DecidableEq

/-- What a loop does on a signal from inside, and what it hands on. -/
def Signal.inLoop : Signal → Turn × Signal
  | .none => (.goOn, .none)
  | .leave 0 => (.leave, .none)
  | .leave (more + 1) => (.leave, .leave more)
  | .next 0 => (.again, .none)
  | .next (more + 1) => (.leave, .next more)

/-- The place of a command. -/
structure Place where
  /-- The number of loops around it. -/
  depth : Nat
  /-- The number of loops in whose bodies it is, without a condition or a subshell in between. -/
  reach : Nat
  reach_le : reach ≤ depth

/-- Outside any loop. -/
def Place.top : Place := ⟨0, 0, Nat.le_refl 0⟩

/-- In the body of a loop. -/
def Place.inBody (place : Place) : Place :=
  ⟨place.depth + 1, place.reach + 1, Nat.succ_le_succ place.reach_le⟩

/-- In the condition of a loop. -/
def Place.inTest (place : Place) : Place := ⟨place.depth + 1, 0, Nat.zero_le _⟩

/-- In the condition of an `if`. -/
def Place.inCondition (place : Place) : Place := ⟨place.depth, 0, Nat.zero_le _⟩

/-- A command has set the counters. -/
structure Jump where
  /-- The count of a `break`, or 0. -/
  breaks : Int
  /-- The count of a `continue`, or 0. -/
  continues : Int
  /-- Where it is. -/
  place : Place
  /-- Whether a `return` is pending. -/
  returning : Bool

/-- `break n` leaves the `min(n, depth)` innermost loops, and `continue n` all of them but the
    outermost one. -/
def Jump.signal (j : Jump) : Signal :=
  if j.breaks ≠ 0 then
    match min j.breaks.toNat j.place.depth with
    | 0 => .none
    | more + 1 => .leave more
  else
    match min j.continues.toNat j.place.depth with
    | 0 => .none
    | more + 1 => .next more

/-- The jumps that the counters carry out: a `break` from bodies of loops, no more of them than
    there are, and a `continue` of the innermost one; not while a `return` is pending. -/
structure Jump.Meets (j : Jump) : Prop where
  count : (j.continues = 0 ∧ 1 ≤ j.breaks ∧ j.breaks ≤ j.place.reach) ∨
    (j.breaks = 0 ∧ j.continues = 1 ∧ 1 ≤ j.place.reach)
  returning : j.returning = false

/-! ### The evaluator with signals -/

/-- The counters that a command has set, taken as its signal. -/
def takeJump (place : Place) : Traced (Shell ω) Jump Signal := fun t =>
  if t.breakFlag = 0 ∧ t.continueFlag = 0 then (.ok .none, t, [])
  else
    let j : Jump := ⟨t.breakFlag, t.continueFlag, place, t.returnFlag⟩
    (.ok j.signal, { t with breakFlag := 0, continueFlag := 0 }, [j])

/-- A command with its signal. -/
def withJump (place : Place) (x : Process (Shell ω) Int) :
    Traced (Shell ω) Jump (Int × Signal) := do
  let rc ← Traced.lift x
  let sig ← takeJump place
  return (rc, sig)

/-- A construct that no signal comes from. -/
def withoutJump (x : Process (Shell ω) Int) : Traced (Shell ω) Jump (Int × Signal) := do
  let rc ← Traced.lift x
  return (rc, .none)

/-- `callFunction`: a signal goes through to the caller. -/
def structuredCall (body : Traced (Shell ω) Jump (Int × Signal)) (argc : Nat) (argv : List Word) :
    Traced (Shell ω) Jump (Int × Signal) := do
  let t ← Traced.get
  Traced.modify fun t => { t with env := bindParams argc argv t.env }
  let r ← body
  let rc ← Traced.lift (takeReturn r.1)
  Traced.modify fun u =>
    { u with env := restoreParams (setFrom t.env 63 1) u.env, lastStatus := rc }
  return (rc, r.2)

/-- `evalCommand`. -/
def structuredCommand (ev : Place → Tree → Traced (Shell ω) Jump (Int × Signal)) (place : Place)
    (node : Nat) : Traced (Shell ω) Jump (Int × Signal) := do
  Traced.lift (substituteAlias host node)
  let found ← Traced.lift (findFunction host node)
  if found.2.isNull then withJump place (runCommand host node)
  else
    let t ← Traced.get
    structuredCall (ev place found.2) (t.commands node).argv.length found.1

/-- `runSubshell`: no signal leaves it. -/
def structuredSubshell (body : Traced (Shell ω) Jump (Int × Signal)) :
    Traced (Shell ω) Jump (Int × Signal) := fun t =>
  if host.canFork t.world then
    match body t with
    | (.ok r, u, l) => (.ok (r.1 % 256, .none), { t with world := host.join t.world u.world }, l)
    | (.exited rc, u, l) => (.ok (rc % 256, .none), { t with world := host.join t.world u.world }, l)
    | (.timeout, u, l) => (.timeout, u, l)
  else (.ok (1, .none), t, [])

/-- `loopTurn`; a pending `return` leaves the loop. -/
def structuredTurn (sig : Signal) : Traced (Shell ω) Jump (Turn × Signal) := do
  let t ← Traced.get
  if t.returnFlag then return (.leave, .none) else return sig.inLoop

/-- `whileLoop`; a signal from the condition is one from inside the loop. -/
def structuredWhile (isUntil saved : Bool) (cond body : Traced (Shell ω) Jump (Int × Signal)) :
    Nat → Int → Traced (Shell ω) Jump (Int × Signal)
  | 0, _ => Traced.timeout
  | k + 1, rc => do
    let c ← cond
    if c.2 ≠ .none then
      if c.2.inLoop.1 = .leave then return (rc, c.2.inLoop.2)
      else structuredWhile isUntil saved cond body k rc
    else if decide (c.1 = 0) = isUntil then return (rc, .none)
    else
      Traced.modify fun t => { t with inCond := saved }
      let t ← Traced.get
      if t.returnFlag then return (rc, .none)
      else
        let r ← body
        Traced.modify fun t => { t with inCond := saved }
        let turn ← structuredTurn r.2
        let t ← Traced.get
        if turn.1 = .leave || (turn.1 = .goOn && !isUntil && t.lastStatus = interrupted) then
          return (r.1, turn.2)
        else structuredWhile isUntil saved cond body k r.1

/-- `forLoop`. -/
def structuredFor (name : Word) (body : Traced (Shell ω) Jump (Int × Signal)) :
    List (Env → Option Word) → Int → Traced (Shell ω) Jump (Int × Signal)
  | [], rc => pure (rc, .none)
  | item :: rest, rc => do
    let t ← Traced.get
    let value := item t.env
    Traced.modify fun t => { t with env := (value.map (t.env.set name)).getD t.env }
    if t.returnFlag then return (rc, .none)
    else
      let r ← if value.isSome then body else pure (rc, .none)
      let turn ← structuredTurn r.2
      if turn.1 = .leave then return (r.1, turn.2) else structuredFor name body rest r.1

/-- `evalNode` with signals. -/
def structuredNode (ev : Place → Tree → Traced (Shell ω) Jump (Int × Signal)) (fuel : Nat)
    (place : Place) : Tree → Traced (Shell ω) Jump (Int × Signal)
  | .null => pure (0, .none)
  | .assign text right => do
    Traced.lift (assign host text)
    ev place right
  | .cmd node => structuredCommand host ev place node
  | .pipe left right => withoutJump do
    let rc ← runPipeline host (.pipe left right)
    exitOnError rc
  | .list left listOp right => do
    let r ← ev place left
    let t ← Traced.get
    if t.returnFlag || r.2 ≠ .none then return r
    else if (listOp = .and && r.1 ≠ 0) || (listOp = .or && r.1 = 0) then return r
    else ev place right
  | .bg left => withoutJump (runBackground host left)
  | .subshell body => structuredSubshell host (ev .top body)
  | .ifElse cond thenBody elseBody => do
    let t ← Traced.get
    Traced.modify fun t => { t with inCond := true }
    let r ← ev place.inCondition cond
    Traced.modify fun u => { u with inCond := t.inCond }
    if r.2 ≠ .none then return r
    else if r.1 = 0 then ev place thenBody
    else if elseBody.isNull then return r
    else ev place elseBody
  | .forIn name patterns body => do
    let t ← Traced.get
    structuredFor (name.take 63) (ev place.inBody body) (forItems patterns t.env) 0
  | .whileDo cond body => do
    let t ← Traced.get
    Traced.modify fun t => { t with inCond := true }
    structuredWhile false t.inCond (ev place.inTest cond) (ev place.inBody body) fuel 0
  | .untilDo cond body => do
    let t ← Traced.get
    Traced.modify fun t => { t with inCond := true }
    structuredWhile true t.inCond (ev place.inTest cond) (ev place.inBody body) fuel 0
  | .func name node => withoutJump (defineFunction name node)
  | .braceGroup body => ev place body
  | .caseOf subject arms => do
    let text ← Traced.lift (expandString host subject)
    match arms.find? (fun arm => host.fnmatch arm.1 text) with
    | some arm => ev place arm.2
    | none => return (0, .none)

/-- `eval` with signals. -/
def structured : Nat → Place → Tree → Traced (Shell ω) Jump (Int × Signal)
  | 0, _, _ => Traced.timeout
  | fuel + 1, place, t => structuredNode host (structured fuel) fuel place t

/-! ### Counters and signals -/

/-- The two counters. -/
def Shell.counters (s : Shell ω) : Int × Int := (s.breakFlag, s.continueFlag)

theorem onFlags_counters : OnFlags (Shell.counters : Shell ω → Int × Int) := fun _ _ _ _ _ _ => rfl

/-- Both counters are zero. -/
structure Clear (t : Shell ω) : Prop where
  breakFlag : t.breakFlag = 0
  continueFlag : t.continueFlag = 0

/-- The first state is the second one with the counters that stand for a signal, which leaves fewer
    loops than `reach`. -/
inductive Pending (reach : Nat) : Signal → Shell ω → Shell ω → Prop where
  | none {t : Shell ω} (clear : Clear t) : Pending reach .none t t
  | leave {t : Shell ω} {more : Nat} (clear : Clear t) (returning : t.returnFlag = false)
      (lt : more < reach) : Pending reach (.leave more) { t with breakFlag := more + 1 } t
  | next {t : Shell ω} (clear : Clear t) (returning : t.returnFlag = false) (lt : 0 < reach) :
      Pending reach (.next 0) { t with continueFlag := 1 } t

/-- What a construct returns, and what the one with signals does. -/
def Done (reach : Nat) (rc : Int) (s : Shell ω) (r : Int × Signal) (t : Shell ω) : Prop :=
  rc = r.1 ∧ Pending reach r.2 s t

/-- A construct does what the one with signals does. -/
def Follows (reach : Nat) (f : Process (Shell ω) Int) (g : Traced (Shell ω) Jump (Int × Signal))
    (t : Shell ω) : Prop := RefinesAt Jump.Meets Eq (Done reach) f g t t

variable {host} {reach : Nat} {s t : Shell ω} {sig : Signal}

/-- A jump that meets the condition is the signal that its counters stand for. -/
theorem Jump.Meets.pending {place : Place}
    (h : Jump.Meets ⟨s.breakFlag, s.continueFlag, place, s.returnFlag⟩) :
    Pending place.reach (Jump.signal ⟨s.breakFlag, s.continueFlag, place, s.returnFlag⟩) s
      { s with breakFlag := 0, continueFlag := 0 } := by
  have hle := place.reach_le
  unfold Jump.signal
  dsimp only
  rcases h.count with ⟨hnext, hone, hreach⟩ | ⟨hbreak, hone, hreach⟩
  · dsimp only at hnext hone hreach
    obtain ⟨more, hmore⟩ : ∃ more : Nat, s.breakFlag = more + 1 := ⟨s.breakFlag.toNat - 1, by omega⟩
    have hmin : min s.breakFlag.toNat place.depth = more + 1 := by omega
    have hs : s = { { s with breakFlag := 0, continueFlag := 0 } with breakFlag := more + 1 } := by
      rw [← hmore, ← hnext]
    rw [if_pos (by omega), hmin]
    dsimp only
    conv => arg 3; rw [hs]
    exact .leave ⟨rfl, rfl⟩ h.returning (by omega)
  · dsimp only at hbreak hone hreach
    have hmin : min s.continueFlag.toNat place.depth = 0 + 1 := by omega
    have hs : s = { { s with breakFlag := 0, continueFlag := 0 } with continueFlag := 1 } := by
      rw [← hone, ← hbreak]
    rw [if_neg (by omega), hmin]
    dsimp only
    conv => arg 3; rw [hs]
    exact .next ⟨rfl, rfl⟩ h.returning (by omega)

/-- A command. -/
theorem follows_withJump (x : Process (Shell ω) Int) (place : Place) (t : Shell ω) :
    Follows place.reach x (withJump place x) t := by
  intro hevents
  unfold withJump Traced.trace at *
  rw [Traced.bind_apply, Traced.lift_apply] at *
  rcases hx : x t with ⟨o, s⟩
  rw [hx] at hevents
  cases o with
  | exited r => exact .exited rfl
  | timeout => exact .timeout
  | ok rc =>
    by_cases hclear : s.breakFlag = 0 ∧ s.continueFlag = 0
    · simp only [takeJump, Traced.bind_apply, if_pos hclear]
      exact .ok ⟨rfl, .none ⟨hclear.1, hclear.2⟩⟩
    · simp only [takeJump, Traced.bind_apply, if_neg hclear] at hevents ⊢
      exact .ok ⟨rfl, Jump.Meets.pending (hevents _ (by simp))⟩

/-- Behind a computation that leaves the counters alone. -/
theorem follows_lift {α : Type} {x : Process (Shell ω) α} {k : α → Process (Shell ω) Int}
    {h : α → Traced (Shell ω) Jump (Int × Signal)} (hx : Process.Keeps Shell.counters x) (hclear : Clear t)
    (hrest : ∀ a t', Clear t' → Follows reach (k a) (h a) t') :
    Follows reach (x >>= k) (Traced.lift x >>= h) t := by
  refine RefinesAt.bind
    (RefinesAt.lift ?_ : RefinesAt _ _ (fun a s b t' => a = b ∧ s = t' ∧ Clear t') _ _ _ _) ?_
  · intro a s hs
    have hkeeps := hx t
    rw [hs] at hkeeps
    obtain ⟨hb, hc⟩ := Prod.mk.inj hkeeps
    exact ⟨rfl, rfl, hb.trans hclear.breakFlag, hc.trans hclear.continueFlag⟩
  · rintro a s b t' ⟨rfl, rfl, hclear'⟩
    exact hrest a s hclear'

theorem follows_withoutJump {x : Process (Shell ω) Int} (hx : Process.Keeps Shell.counters x) (hclear : Clear t) :
    Follows reach x (withoutJump x) t := by
  have hpure : x = x >>= pure := by
    funext s
    rw [Process.bind_apply]
    rcases x s with ⟨_ | _ | _, s'⟩ <;> rfl
  have hfollows : Follows reach (x >>= pure) (withoutJump x) t :=
    follows_lift hx hclear fun rc t' hclear' => RefinesAt.pure ⟨rfl, .none hclear'⟩
  rwa [← hpure] at hfollows

/-! ### Constructs with jumps -/

theorem structuredTurn_apply (sig : Signal) (t : Shell ω) :
    structuredTurn sig t = (.ok (if t.returnFlag then (.leave, .none) else sig.inLoop), t, []) := by
  unfold structuredTurn
  rw [Traced.get_bind]
  split <;> rfl

/-- A loop's share of the counters is its share of the signal. -/
theorem refines_loopTurn (h : Pending (reach + 1) sig s t) :
    RefinesAt Jump.Meets Eq
      (fun turn s r t => turn = r.1 ∧ Pending reach r.2 s t ∧ (r.1 ≠ .leave → r.2 = .none))
      loopTurn (structuredTurn sig) s t := by
  intro _
  unfold loopTurn
  rw [Process.step_apply, structuredTurn_apply]
  cases h with
  | none hclear =>
    cases hret : s.returnFlag with
    | true => exact .ok ⟨rfl, .none hclear, fun h => absurd rfl h⟩
    | false =>
      simp only [hclear.breakFlag, hclear.continueFlag, Bool.false_eq_true, if_false, ne_eq,
        not_true_eq_false]
      exact .ok ⟨rfl, .none hclear, fun _ => rfl⟩
  | @leave t more hclear hret hlt =>
    have hpos : (more : Int) + 1 ≠ 0 := by omega
    simp only [hret, hpos, Bool.false_eq_true, if_false, ne_eq, not_false_eq_true, if_true,
      add_sub_cancel_right]
    cases more with
    | zero =>
      -- the last loop to leave: the counter is back at zero
      have ht : { t with breakFlag := ((0 : Nat) : Int) } = t := by
        rw [Nat.cast_zero, ← hclear.breakFlag]
      rw [← hret, ht]
      exact .ok ⟨rfl, .none hclear, fun h => absurd rfl h⟩
    | succ more =>
      rw [← hret]
      exact .ok ⟨rfl, .leave hclear hret (Nat.lt_of_succ_lt_succ hlt), fun h => absurd rfl h⟩
  | @next t hclear hret _ =>
    have ht : { t with continueFlag := (1 : Int) - 1 } = t := by
      rw [Int.sub_self, ← hclear.continueFlag]
    simp only [hret, hclear.breakFlag, Bool.false_eq_true, if_false, ne_eq, not_true_eq_false,
      one_ne_zero, not_false_eq_true, if_true]
    rw [← hret, ← hclear.breakFlag, ht]
    exact .ok ⟨rfl, .none hclear, fun _ => rfl⟩

/-- Changes of the state that the counters have no part in. -/
theorem Pending.map {f : Shell ω → Shell ω} (h : Pending reach sig s t)
    (hbreak : ∀ s b, f { s with breakFlag := b } = { f s with breakFlag := b })
    (hnext : ∀ s b, f { s with continueFlag := b } = { f s with continueFlag := b })
    (hret : ∀ s, (f s).returnFlag = s.returnFlag) : Pending reach sig (f s) (f t) := by
  have hclear : Clear t → Clear (f t) := by
    rintro ⟨hb, hc⟩
    have h₁ := congrArg Shell.breakFlag (hbreak t 0)
    have h₂ := congrArg Shell.continueFlag (hnext t 0)
    rw [← hb] at h₁
    rw [← hc] at h₂
    exact ⟨h₁.trans hb, h₂.trans hc⟩
  cases h with
  | none h => exact .none (hclear h)
  | leave h hr hlt =>
    rw [hbreak]
    exact .leave (hclear h) ((hret t).trans hr) hlt
  | next h hr hlt =>
    rw [hnext]
    exact .next (hclear h) ((hret t).trans hr) hlt

theorem Pending.inCond (h : Pending reach sig s t) (b : Bool) :
    Pending reach sig { s with inCond := b } { t with inCond := b } :=
  @Pending.map ω reach s t sig (fun s => { s with inCond := b }) h (fun _ _ => rfl) (fun _ _ => rfl)
    fun _ => rfl

theorem Pending.eq_none (h : Pending 0 sig s t) : sig = .none ∧ s = t ∧ Clear t := by
  cases h with
  | none h => exact ⟨rfl, rfl, h⟩
  | leave _ _ hlt => exact absurd hlt (Nat.not_lt_zero _)
  | next _ _ hlt => exact absurd hlt (Nat.lt_irrefl _)

theorem Pending.takeReturn (h : Pending reach sig s t) (rc : Int) :
    ∃ rc' s' t', MeuOS.Msh.takeReturn rc s = (.ok rc', s') ∧
      MeuOS.Msh.takeReturn rc t = (.ok rc', t') ∧ Pending reach sig s' t' := by
  unfold MeuOS.Msh.takeReturn
  cases h with
  | none hclear =>
    refine ⟨_, _, _, rfl, rfl, .none ?_⟩
    dsimp only
    split <;> exact ⟨hclear.breakFlag, hclear.continueFlag⟩
  | @leave t more hclear hret hlt =>
    exact ⟨rc, _, t, by simp [hret], by simp [hret], .leave hclear hret hlt⟩
  | @next t hclear hret hlt =>
    exact ⟨rc, _, t, by simp [hret], by simp [hret], .next hclear hret hlt⟩

/-- A call. -/
theorem follows_call {ev : Tree → Process (Shell ω) Int} {fn : Tree}
    {body : Traced (Shell ω) Jump (Int × Signal)}
    (hbody : ∀ t, Clear t → Follows reach (ev fn) body t) (argc : Nat) (argv : List Word)
    (hclear : Clear t) :
    Follows reach (callFunction ev fn argc argv) (structuredCall body argc argv) t := by
  refine RefinesAt.get (RefinesAt.modify ?_)
  refine (hbody { t with env := bindParams argc argv t.env }
    ⟨hclear.breakFlag, hclear.continueFlag⟩).bind ?_
  rintro rc s r u ⟨rfl, h⟩
  obtain ⟨rc', s', u', hs, hu, h'⟩ := h.takeReturn r.1
  intro _
  rw [Process.bind_of_ok hs, Traced.bind_apply, Traced.lift_apply, hu]
  refine .ok ⟨rfl, @Pending.map ω reach s' u' r.2 (fun v =>
    { v with env := restoreParams (setFrom t.env 63 1) v.env, lastStatus := rc' }) h'
    (fun _ _ => rfl) (fun _ _ => rfl) fun _ => rfl⟩

/-- A simple command or a call. -/
theorem follows_command {ev : Tree → Process (Shell ω) Int}
    {ev' : Place → Tree → Traced (Shell ω) Jump (Int × Signal)} {place : Place}
    (hev : ∀ t u, Clear u → Follows place.reach (ev t) (ev' place t) u) (node : Nat)
    (hclear : Clear t) :
    Follows place.reach (evalCommand host ev node) (structuredCommand host ev' place node) t := by
  refine follows_lift (keeps_substituteAlias onFlags_counters node) hclear fun _ t hclear => ?_
  refine follows_lift (keeps_findFunction onFlags_counters node) hclear fun found t hclear => ?_
  by_cases hnull : found.2.isNull
  · simp only [if_pos hnull]
    exact follows_withJump _ place t
  · simp only [if_neg hnull]
    exact RefinesAt.get (follows_call (hev found.2) _ _ hclear)

/-- A subshell: the counters of its process are gone with it. -/
theorem follows_subshell {body : Process (Shell ω) Int}
    {body' : Traced (Shell ω) Jump (Int × Signal)} (hbody : Follows 0 body body' t)
    (hclear : Clear t) : Follows reach (runSubshell host body) (structuredSubshell host body') t := by
  intro hevents
  unfold Follows RefinesAt Traced.trace at *
  unfold runSubshell structuredSubshell at *
  by_cases hfork : host.canFork t.world
  swap
  · rw [if_neg hfork, if_neg hfork]
    exact .ok ⟨rfl, .none hclear⟩
  rw [if_pos hfork] at hevents
  rw [if_pos hfork, if_pos hfork]
  have hjoin : ∀ u : Shell ω, Clear { t with world := host.join t.world u.world } := fun _ =>
    ⟨hclear.breakFlag, hclear.continueFlag⟩
  rcases hg : body' t with ⟨o, u, l⟩
  rw [hg] at hevents hbody
  have hagree := hbody (by cases o <;> exact hevents)
  rcases hf : body t with ⟨o', s⟩
  rw [hf] at hagree
  cases hagree with
  | ok h =>
    obtain ⟨rfl, h⟩ := h
    obtain ⟨-, rfl, -⟩ := h.eq_none
    exact .ok ⟨rfl, .none (hjoin s)⟩
  | exited h =>
    obtain rfl := h
    exact .ok ⟨rfl, .none (hjoin s)⟩
  | timeout => exact .timeout

/-- One turn after another of `while` and `until`. -/
theorem follows_while {isUntil saved : Bool} {cond body : Process (Shell ω) Int}
    {cond' body' : Traced (Shell ω) Jump (Int × Signal)}
    (hcond : ∀ t, Clear t → Follows 0 cond cond' t)
    (hbody : ∀ t, Clear t → Follows (reach + 1) body body' t) (k : Nat) (rc : Int)
    (hclear : Clear t) :
    Follows reach (whileLoop isUntil saved cond body k rc)
      (structuredWhile isUntil saved cond' body' k rc) t := by
  induction k generalizing rc t with
  | zero => exact RefinesAt.timeout
  | succ k ih =>
    refine (hcond t hclear).bind ?_
    rintro c s ⟨_, sig⟩ t ⟨rfl, h⟩
    obtain ⟨rfl, rfl, hclear⟩ := h.eq_none
    simp only [ne_eq, not_true_eq_false, if_false]
    by_cases hend : decide (c = 0) = isUntil
    · simp only [if_pos hend]
      exact RefinesAt.pure ⟨rfl, .none hclear⟩
    simp only [if_neg hend]
    refine RefinesAt.modify (RefinesAt.get ?_)
    have hclear' : Clear { s with inCond := saved } := ⟨hclear.breakFlag, hclear.continueFlag⟩
    by_cases hret : s.returnFlag
    · simp only [if_pos hret]
      exact RefinesAt.pure ⟨rfl, .none hclear'⟩
    simp only [if_neg hret]
    refine (hbody _ hclear').bind ?_
    rintro rc s r t ⟨rfl, h⟩
    refine RefinesAt.modify ((refines_loopTurn (h.inCond saved)).bind ?_)
    rintro turn s ⟨_, sig⟩ t ⟨rfl, h, hnone⟩
    have hstatus : s.lastStatus = t.lastStatus := by cases h <;> rfl
    refine RefinesAt.get ?_
    dsimp only
    rw [hstatus]
    split
    · exact RefinesAt.pure ⟨rfl, h⟩
    next hgo =>
      -- the next turn starts from zero counters
      have hturn : turn ≠ .leave := fun heq => hgo (by simp [heq])
      obtain rfl := hnone hturn
      cases h with
      | none hclear => exact ih _ hclear

/-- One turn after another of `for`. -/
theorem follows_for {name : Word} {body : Process (Shell ω) Int}
    {body' : Traced (Shell ω) Jump (Int × Signal)}
    (hbody : ∀ t, Clear t → Follows (reach + 1) body body' t) (items : List (Env → Option Word))
    (rc : Int) (hclear : Clear t) :
    Follows reach (forLoop name body items rc) (structuredFor name body' items rc) t := by
  induction items generalizing rc t with
  | nil => exact RefinesAt.pure ⟨rfl, .none hclear⟩
  | cons item rest ih =>
    refine RefinesAt.get (RefinesAt.modify ?_)
    have hclear' : Clear { t with env := ((item t.env).map (t.env.set name)).getD t.env } :=
      ⟨hclear.breakFlag, hclear.continueFlag⟩
    by_cases hret : t.returnFlag
    · simp only [if_pos hret]
      exact RefinesAt.pure ⟨rfl, .none hclear'⟩
    simp only [if_neg hret]
    have hturn : ∀ (rc : Int) (s : Shell ω) (r : Int × Signal) (t : Shell ω),
        Done (reach + 1) rc s r t →
        RefinesAt Jump.Meets Eq (Done reach)
          (do
            let turn ← loopTurn
            if turn = .leave then return rc else forLoop name body rest rc)
          (do
            let turn ← structuredTurn r.2
            if turn.1 = .leave then return (r.1, turn.2) else structuredFor name body' rest r.1)
          s t := by
      rintro rc s r t ⟨rfl, h⟩
      refine (refines_loopTurn h).bind ?_
      rintro turn s ⟨_, sig⟩ t ⟨rfl, h, hnone⟩
      by_cases hleave : turn = .leave
      · simp only [if_pos hleave]
        exact RefinesAt.pure ⟨rfl, h⟩
      · simp only [if_neg hleave]
        obtain rfl := hnone hleave
        cases h with
        | none hclear => exact ih _ hclear
    split
    · exact (hbody _ hclear').bind hturn
    · exact hturn rc _ (rc, .none) _ ⟨rfl, .none hclear'⟩

/-! ### The evaluator -/

/-- One call of the evaluator does what it does with signals, if the calls below it do. -/
theorem follows_evalNode {ev : Tree → Process (Shell ω) Int}
    {ev' : Place → Tree → Traced (Shell ω) Jump (Int × Signal)}
    (hev : ∀ place tree t, Clear t → Follows place.reach (ev tree) (ev' place tree) t)
    (fuel : Nat) (place : Place) (tree : Tree) (hclear : Clear t) :
    Follows place.reach (evalNode host ev fuel tree) (structuredNode host ev' fuel place tree) t := by
  have hcond : Clear { t with inCond := true } := ⟨hclear.breakFlag, hclear.continueFlag⟩
  cases tree with
  | null => exact RefinesAt.pure ⟨rfl, .none hclear⟩
  | assign text right =>
    exact follows_lift (keeps_assign onFlags_counters text) hclear fun _ t h => hev place right t h
  | cmd node => exact follows_command (hev place) node hclear
  | pipe left right =>
    exact follows_withoutJump ((keeps_runPipeline onFlags_counters _).bind keeps_exitOnError) hclear
  | list left listOp right =>
    refine (hev place left t hclear).bind ?_
    rintro rc s ⟨_, sig⟩ t ⟨rfl, h⟩
    refine RefinesAt.get ?_
    dsimp only at h ⊢
    -- the counters are looked at exactly where the signal is
    have hflags : (s.returnFlag || decide (s.breakFlag ≠ 0) || decide (s.continueFlag ≠ 0)) =
        (t.returnFlag || decide (sig ≠ .none)) := by
      cases h with
      | none h => simp [h.breakFlag, h.continueFlag]
      | @leave _ more h _ _ => simp [show (more : Int) + 1 ≠ 0 by omega]
      | next h _ _ => simp
    rw [hflags]
    split
    · exact RefinesAt.pure ⟨rfl, h⟩
    next hgo =>
      obtain rfl : sig = .none := by
        by_contra hsig
        exact hgo (by simp [hsig])
      cases h with
      | none hclear =>
        split
        · exact RefinesAt.pure ⟨rfl, .none hclear⟩
        · exact hev place right _ hclear
  | bg left => exact follows_withoutJump (keeps_runBackground onFlags_counters left) hclear
  | subshell body => exact follows_subshell (hev .top body t hclear) hclear
  | ifElse cond thenBody elseBody =>
    refine RefinesAt.get (RefinesAt.modify ((hev place.inCondition cond _ hcond).bind ?_))
    rintro rc s ⟨_, sig⟩ u ⟨rfl, h⟩
    obtain ⟨rfl, rfl, hclear'⟩ := h.eq_none
    refine RefinesAt.modify ?_
    have hback : Clear { s with inCond := t.inCond } :=
      ⟨hclear'.breakFlag, hclear'.continueFlag⟩
    simp only [ne_eq, not_true_eq_false, if_false]
    split
    · exact hev place thenBody _ hback
    · split
      · exact RefinesAt.pure ⟨rfl, .none hback⟩
      · exact hev place elseBody _ hback
  | forIn name patterns body =>
    exact RefinesAt.get (follows_for (hev place.inBody body) _ _ hclear)
  | whileDo cond body =>
    exact RefinesAt.get (RefinesAt.modify
      (follows_while (hev place.inTest cond) (hev place.inBody body) _ _ hcond))
  | untilDo cond body =>
    exact RefinesAt.get (RefinesAt.modify
      (follows_while (hev place.inTest cond) (hev place.inBody body) _ _ hcond))
  | func name node => exact follows_withoutJump (keeps_defineFunction onFlags_counters name node) hclear
  | braceGroup body => exact hev place body t hclear
  | caseOf subject arms =>
    refine follows_lift ((quiet_expandString subject).keeps onFlags_counters) hclear fun text t h => ?_
    cases harm : arms.find? (fun arm => host.fnmatch arm.1 text) with
    | none =>
      simp only
      exact RefinesAt.pure ⟨rfl, .none h⟩
    | some arm =>
      simp only
      exact hev place arm.2 t h

theorem follows_eval (fuel : Nat) (place : Place) (tree : Tree) (hclear : Clear t) :
    Follows place.reach (eval host fuel tree) (structured host fuel place tree) t := by
  induction fuel generalizing place tree t with
  | zero => exact RefinesAt.timeout
  | succ fuel ih => exact follows_evalNode (fun place tree t h => ih place tree h) fuel place tree hclear

/-- `for i in a b; do for j in c d; do words; done; done`. -/
def nestedLoops : Tree :=
  .forIn (word "i") [word "a", word "b"] (.forIn (word "j") [word "c", word "d"] (.cmd 0))

/-- A shell at its start, with the words of the command in `nestedLoops`. -/
def jumpShell (words : List Word) : Shell Unit := startShell fun _ => ⟨words, []⟩

end MeuOS.Msh
