import MeuOS.Msh.Command

namespace MeuOS.Msh

open Lib

/-!
# The evaluator (`msh_eval`, `parse/parse.c`)

* `callFunction` — a call: the parameters are environment variables that are copied, set, and put
  back;
* `loopTurn`, `whileLoop`, `forLoop` — the loops and their share of the control flags;
* `evalCommand`, `evalNode`, `eval` — the evaluator.  The fuel bounds the depth of the recursion
  and the turns of each loop; pending traps are left out.
-/

variable {ω : Type} (host : Host ω)

/-! ### Assignments and aliases -/

/-- A leading assignment. -/
def assign (text : Word) : Process (Shell ω) Unit :=
  match text.span (· ≠ 61) with
  | (name, _ :: value) =>
    if value.head? = some 40 || name.contains 91 then
      Process.modify fun s =>
        let r := host.arrayAssign s.toMachine text
        { s with env := r.1, world := r.2 }
    else do
      let v ← expandString host value
      Process.modify fun s => { s with env := s.env.set name v }
  | (_, []) => pure ()

/-- The words of an alias, at most 64. -/
def aliasWords (value : Word) : List Word :=
  ((value.splitOnP (fun c => c = 32 || c = 9)).filter (· ≠ [])).take 64

/-- An alias takes the place of the first word, in the tree itself. -/
def substituteAlias (node : Nat) : Process (Shell ω) Unit :=
  Process.modify fun s =>
    match s.classic, (s.commands node).argv with
    | false, name :: args =>
      match (host.aliasOf s.world name).map aliasWords with
      | some (first :: more) =>
        { s with
          commands := Function.update s.commands node
            { s.commands node with argv := (first :: more) ++ args } }
      | _ => s
    | _, _ => s

/-! ### Functions -/

/-- The name of a positional parameter. -/
def paramName (i : Nat) : Word := decimal i

/-- The name of the number of parameters. -/
def countName : Word := [35]

/-- The values of the parameters from `i` on, up to the first that is not set. -/
def setFrom (env : Env) : Nat → Nat → List Word
  | 0, _ => []
  | k + 1, i =>
    match env (paramName i) with
    | some v => v :: setFrom env k (i + 1)
    | none => []

/-- The parameters 1 to `k` are set or unset, one by one. -/
def setParams (env : Env) (value : Nat → Option Word) : Nat → Env
  | 0 => env
  | k + 1 =>
    match value (k + 1) with
    | some v => (setParams env value k).set (paramName (k + 1)) v
    | none => (setParams env value k).unset (paramName (k + 1))

/-- The parameters of a call, from the number of words as written and the words expanded. -/
def bindParams (argc : Nat) (argv : List Word) (env : Env) : Env :=
  (setParams env (fun i => if i < argc then argv[i]? else none) 63).set countName
    (decimal (argc - 1))

/-- The parameters after a call. -/
def restoreParams (saved : List Word) (env : Env) : Env :=
  setParams env (fun i => saved[i - 1]?) 63

/-- A pending `return` ends with the function. -/
def takeReturn (rc : Int) : Process (Shell ω) Int :=
  Process.step fun s =>
    if s.returnFlag then (s.returnValue, { s with returnFlag := false }) else (rc, s)

/-- A call of the function with body `fn`. -/
def callFunction (ev : Tree → Process (Shell ω) Int) (fn : Tree) (argc : Nat) (argv : List Word) :
    Process (Shell ω) Int := do
  let s ← Process.get
  Process.modify fun s => { s with env := bindParams argc argv s.env }
  let rc ← ev fn
  let rc ← takeReturn rc
  Process.modify fun t =>
    { t with env := restoreParams (setFrom s.env 63 1) t.env, lastStatus := rc }
  return rc

/-- The words of a command and the function that its first word names, or `null`. -/
def findFunction (node : Nat) : Process (Shell ω) (List Word × Tree) := do
  let s ← Process.get
  if (s.commands node).argv = [] then return ([], .null)
  else
    let argv ← expandArgv host (s.commands node).argv
    let s ← Process.get
    return (argv, (argv.head?.map s.functions).getD .null)

/-! ### Commands -/

/-- `set -e`. -/
def exitOnError (rc : Int) : Process (Shell ω) Int := do
  let s ← Process.get
  if s.errexit && !s.inCond && rc ≠ 0 then Process.exit rc else return rc

/-- A command that is no function. -/
def runCommand (node : Nat) : Process (Shell ω) Int := do
  let rc ← runSimpleCmd host node
  Process.modify fun s => { s with lastStatus := rc }
  exitOnError rc

/-- `AST_CMD`. -/
def evalCommand (ev : Tree → Process (Shell ω) Int) (node : Nat) : Process (Shell ω) Int := do
  substituteAlias host node
  let found ← findFunction host node
  if found.2.isNull then runCommand host node
  else
    let s ← Process.get
    callFunction ev found.2 (s.commands node).argv.length found.1

/-- The command of a stage of a pipeline. -/
def stage (commands : Nat → Command) : Tree → Option Command
  | .cmd node => some (commands node)
  | _ => none

/-- The stages of a pipeline, from left to right. -/
def stages (commands : Nat → Command) : Tree → List (Option Command)
  | .pipe left right => stages commands left ++ [stage commands right]
  | t => [stage commands t]

/-- `run_pipeline`. -/
def runPipeline (t : Tree) : Process (Shell ω) Int :=
  Process.step fun s =>
    let r := host.pipeline s.toMachine (stages s.commands t)
    (r.1, { s with world := r.2 })

/-- A subshell: the parent waits for the status, and keeps its own state. -/
def runSubshell (body : Process (Shell ω) Int) : Process (Shell ω) Int := fun s =>
  if host.canFork s.world then
    match body s with
    | (.ok rc, t) => (.ok (rc % 256), { s with world := host.join s.world t.world })
    | (.exited rc, t) => (.ok (rc % 256), { s with world := host.join s.world t.world })
    | (.timeout, t) => (.timeout, t)
  else (.ok 1, s)

/-- A command in the background. -/
def runBackground (t : Tree) : Process (Shell ω) Int :=
  Process.step fun s =>
    if host.canFork s.world then (0, { s with world := host.background s.toMachine t }) else (1, s)

/-- `func_add`, which takes the body out of the tree. -/
def defineFunction (name : Word) (node : Nat) : Process (Shell ω) Int :=
  Process.step fun s =>
    (0, { s with
      functions := Function.update s.functions name (s.bodies node)
      bodies := Function.update s.bodies node .null })

/-! ### Loops -/

/-- Set `msh_in_cond`. -/
def setInCond (b : Bool) : Process (Shell ω) Unit :=
  Process.modify fun s => { s with inCond := b }

/-- What a loop does behind its body. -/
inductive Turn where
  | leave
  | again
  | goOn
  deriving DecidableEq

/-- A loop's share of the control flags. -/
def loopTurn : Process (Shell ω) Turn :=
  Process.step fun s =>
    if s.returnFlag then (.leave, s)
    else if s.breakFlag ≠ 0 then (.leave, { s with breakFlag := s.breakFlag - 1 })
    else if s.continueFlag ≠ 0 then (.again, { s with continueFlag := s.continueFlag - 1 })
    else (.goOn, s)

/-- `256 + SIGINT`. -/
def interrupted : Int := 258

/-- The turns of `while` and `until`, which differ in the test, and in that `while` looks for an
    interrupt. -/
def whileLoop (isUntil saved : Bool) (cond body : Process (Shell ω) Int) :
    Nat → Int → Process (Shell ω) Int
  | 0, _ => Process.timeout
  | k + 1, rc => do
    let c ← cond
    if decide (c = 0) = isUntil then return rc
    else
      setInCond saved
      let s ← Process.get
      if s.returnFlag then return rc
      else
        let rc ← body
        setInCond saved
        let turn ← loopTurn
        let s ← Process.get
        if turn = .leave || (turn = .goOn && !isUntil && s.lastStatus = interrupted) then return rc
        else whileLoop isUntil saved cond body k rc

/-- The turns of `for`, over words or over parameters that may have been unset meanwhile. -/
def forLoop (name : Word) (body : Process (Shell ω) Int) :
    List (Env → Option Word) → Int → Process (Shell ω) Int
  | [], rc => pure rc
  | item :: rest, rc => do
    let s ← Process.get
    let value := item s.env
    Process.modify fun s => { s with env := (value.map (s.env.set name)).getD s.env }
    if s.returnFlag then return rc
    else
      let rc ← if value.isSome then body else pure rc
      let turn ← loopTurn
      if turn = .leave then return rc else forLoop name body rest rc

/-- What a `for` goes through: its words, or without any the parameters there are. -/
def forItems (patterns : List Word) (env : Env) : List (Env → Option Word) :=
  if patterns = [] then
    (List.range (((env countName).map atoi).getD 0).toNat).map fun i env => env (paramName (i + 1))
  else patterns.map fun p _ => some p

/-! ### The evaluator -/

/-- One call of `msh_eval`, given the calls below it. -/
def evalNode (ev : Tree → Process (Shell ω) Int) (fuel : Nat) : Tree → Process (Shell ω) Int
  | .null => pure 0
  | .assign text right => do
    assign host text
    ev right
  | .cmd node => evalCommand host ev node
  | .pipe left right => do
    let rc ← runPipeline host (.pipe left right)
    exitOnError rc
  | .list left listOp right => do
    let rc ← ev left
    let s ← Process.get
    if s.returnFlag || s.breakFlag ≠ 0 || s.continueFlag ≠ 0 then return rc
    -- `msh_in_cond` is set around this test alone, and nothing reads it there
    else if (listOp = .and && rc ≠ 0) || (listOp = .or && rc = 0) then return rc
    else ev right
  | .bg left => runBackground host left
  | .subshell body => runSubshell host (ev body)
  | .ifElse cond thenBody elseBody => do
    let s ← Process.get
    setInCond true
    let rc ← ev cond
    setInCond s.inCond
    if rc = 0 then ev thenBody
    else if elseBody.isNull then return rc
    else ev elseBody
  | .forIn name patterns body => do
    let s ← Process.get
    forLoop (name.take 63) (ev body) (forItems patterns s.env) 0
  | .whileDo cond body => do
    let s ← Process.get
    setInCond true
    whileLoop false s.inCond (ev cond) (ev body) fuel 0
  | .untilDo cond body => do
    let s ← Process.get
    setInCond true
    whileLoop true s.inCond (ev cond) (ev body) fuel 0
  | .func name node => defineFunction name node
  | .braceGroup body => ev body
  | .caseOf subject arms => do
    let text ← expandString host subject
    match arms.find? (fun arm => host.fnmatch arm.1 text) with
    | some arm => ev arm.2
    | none => return 0

/-- `msh_eval`. -/
def eval : Nat → Tree → Process (Shell ω) Int
  | 0, _ => Process.timeout
  | fuel + 1, t => evalNode host (eval fuel) fuel t

end MeuOS.Msh
