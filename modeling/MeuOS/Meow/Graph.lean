import MeuOS.Meow.Recipe
import Mathlib.Data.Prod.Lex

namespace MeuOS.Meow

open MeuOS.Lib

/-!
# Building a target (`engine/graph.c`, `recipe/parse.c`), one job

* `findTarget` — the table lookup, which adds an instance for a name that a pattern matches;
* `targetOutOfDate` — the test of time stamps;
* `runTarget` — the traversal: dependencies, test, commands.
-/

/-- A time stamp: seconds, then nanoseconds. -/
abbrev Stamp := ℤ ×ₗ ℤ

/-- What `meow` runs on: the files' time stamps and the shell. -/
structure Machine (σ : Type) where
  mtime : σ → Bytes → Option Stamp
  run : Bytes → σ → σ × Int
  setenv : Bytes → Bytes → σ → σ

/-- An entry of the table with its flags. -/
structure Entry where
  target : Target
  visiting : Bool
  done : Bool
  deriving DecidableEq, Repr

/-! ### The table -/

/-- `TARGET_MAX`. -/
def targetMax : Nat := 128

/-- What stands before and behind the first `%`. -/
def splitPercent (s : Bytes) : Option (Bytes × Bytes) :=
  if 0x25 ∈ s then some (s.takeWhile (· ≠ 0x25), (s.dropWhile (· ≠ 0x25)).tail) else none

/-- The stem of a name under a pattern, which has one `%`. -/
def stemOf (pattern name : Bytes) : Option Bytes :=
  match splitPercent pattern with
  | none => none
  | some (before, after) =>
    if 0x25 ∈ after then none
    else if name.length < before.length + after.length then none
    else if before.isPrefixOf name && after.isSuffixOf name then
      some ((name.drop before.length).take (name.length - before.length - after.length))
    else none

/-- The stem in the place of the first `%`. -/
def putStem (stem s : Bytes) : Bytes :=
  match splitPercent s with
  | none => s
  | some (before, after) => before ++ stem ++ after

/-- The instance of a pattern. -/
def Target.instance (t : Target) (name stem : Bytes) : Target :=
  { t with
    name := name
    stem := some stem
    deps := t.deps.map (putStem stem)
    inputs := t.inputs.map (putStem stem)
    outputs := t.outputs.map (putStem stem) }

/-- The first entry of a name. -/
def findName (ts : List Entry) (name : Bytes) : Option Nat :=
  ts.findIdx? fun e => e.target.name = name

/-- The instance of the first pattern that matches a name. -/
def findPattern (ts : List Entry) (name : Bytes) : Option Target :=
  ts.findSome? fun e => (stemOf e.target.name name).map (e.target.instance name)

/-- `find_target`: the index of the entry, and the table. -/
def findTarget (name : Bytes) (ts : List Entry) : Option Nat × List Entry :=
  match findName ts name with
  | some i => (some i, ts)
  | none =>
    match findPattern ts name with
    | none => (none, ts)
    | some t =>
      if ts.length = targetMax then (none, ts) else (some ts.length, ts ++ [⟨t, false, false⟩])

/-! ### Time stamps -/

/-- `newer` over files, from a first stamp; nothing when one is missing. -/
def newestOf (mtime : Bytes → Option Stamp) : List Bytes → Stamp → Option Stamp
  | [], latest => some latest
  | p :: ps, latest =>
    match mtime p with
    | none => none
    | some m => newestOf mtime ps (if latest < m then m else latest)

/-- The oldest of the outputs; nothing when one is missing. -/
def oldestOf (mtime : Bytes → Option Stamp) : List Bytes → Option Stamp → Option Stamp
  | [], oldest => oldest
  | p :: ps, oldest =>
    match mtime p with
    | none => none
    | some m =>
      oldestOf mtime ps (some (match oldest with
        | none => m
        | some o => if m < o then m else o))

/-- The files of a dependency: the outputs of its target, or the file of its name. -/
def depFiles (d : Bytes) : Option Target → List Bytes
  | some t => t.outputs
  | none => [d]

section

variable {σ : Type} (cfg : Config) (mach : Machine σ)

/-- The newest of the dependencies' files. -/
def newestDeps (mtime : Bytes → Option Stamp) :
    List Bytes → Stamp → List Entry → Option Stamp × List Entry
  | [], latest, ts => (some latest, ts)
  | d :: ds, latest, ts =>
    let found := findTarget d ts
    let paths := depFiles d ((found.1.bind (found.2[·]?)).map Entry.target)
    match newestOf mtime (paths.map (expandPath cfg)) latest with
    | none => (none, found.2)
    | some latest => newestDeps mtime ds latest found.2

/-- `target_out_of_date`. -/
def targetOutOfDate (mtime : Bytes → Option Stamp) (t : Target) (ts : List Entry) :
    Bool × List Entry :=
  if t.phony ∨ t.outputs = [] then (true, ts)
  else
    match newestOf mtime (t.inputs.map (expandPath cfg)) (toLex (0, 0)) with
    | none => (true, ts)
    | some latest =>
      match newestDeps cfg mtime t.deps latest ts with
      | (none, ts) => (true, ts)
      | (some newest, ts) =>
        match oldestOf mtime (t.outputs.map (expandPath cfg)) none with
        | none => (true, ts)
        | some oldest => (decide (oldest < newest), ts)

/-! ### Commands -/

/-- A hook, and whether the build goes on. -/
def runHook (h : Hook) (s : σ) : Bool × σ :=
  if h.missing.any fun f => (mach.mtime s f).isSome then (true, s)
  else
    let (s, rc) := mach.run h.text s
    (rc = 0 || !h.fatal, s)

/-- Hooks up to the first that ends the build. -/
def runHooks : List Hook → σ → Bool × σ
  | [], s => (true, s)
  | h :: hs, s =>
    match runHook mach h s with
    | (false, s) => (false, s)
    | (true, s) => runHooks hs s

/-- A command in its working directory, in a buffer of `RECIPE_MAX + 128` bytes. -/
def inWorkDir (t : Target) (command : Bytes) : Bytes :=
  match t.work_dir with
  | none => command
  | some d =>
    ([0x6d, 0x6b, 0x64, 0x69, 0x72, 0x20, 0x2d, 0x70, 0x20, 0x27] ++ d ++
      [0x27, 0x20, 0x26, 0x26, 0x20, 0x63, 0x64, 0x20, 0x27] ++ d ++
      [0x27, 0x20, 0x26, 0x26, 0x20] ++ command).take (recipeMax + 127)

/-- `>/dev/null 2>&1` behind a quiet command. -/
def quietly (command : Bytes) : Bytes :=
  command ++ [0x20, 0x3e, 0x2f, 0x64, 0x65, 0x76, 0x2f, 0x6e, 0x75, 0x6c, 0x6c, 0x20, 0x32, 0x3e,
    0x26, 0x31]

/-- The error callback: `CMD` is the command and `EXITCODE` is 1. -/
def runError (t : Target) (command : Bytes) (s : σ) : σ :=
  match t.error_cmd with
  | none => s
  | some error_cmd =>
    let s := mach.setenv [0x43, 0x4d, 0x44] command s
    let s := mach.setenv [0x45, 0x58, 0x49, 0x54, 0x43, 0x4f, 0x44, 0x45] [0x31] s
    (mach.run (expandCommand t error_cmd).2 s).1

/-- A failure of the command ends the build of its target. -/
def Command.aborts (t : Target) (c : Command) : Bool :=
  c.abort || (!c.noabort && t.run_abort_on_fail)

/-- The commands of a target up to the first that ends its build. -/
def runCommands (t : Target) : List Command → σ → Bool × σ
  | [], s => (true, s)
  | c :: cs, s =>
    match expandCommand t c.text with
    | (false, _) => (false, s)
    | (true, text) =>
      let command := inWorkDir t text
      let (s, rc) :=
        mach.run (if t.run_quiet || c.quiet then quietly command else command) s
      if rc ≠ 0 ∧ c.aborts t = true then (false, runError mach t command s)
      else runCommands t cs s

/-- `do_build`: the hook before the commands, and the commands. -/
def runBuild (t : Target) (s : σ) : Bool × σ :=
  match t.pre_cmd with
  | none => runCommands mach t t.commands s
  | some pre =>
    let (s, rc) := mach.run (expandCommand t pre).2 s
    if rc ≠ 0 then (false, s) else runCommands mach t t.commands s

/-! ### The traversal -/

/-- The table and the machine; `ran` tells whose commands were run, the latest first. -/
structure Build (σ : Type) where
  targets : List Entry
  sys : σ
  ran : List Bytes

/-- The flags of an entry. -/
def Build.setFlags (b : Build σ) (i : Nat) (visiting done : Bool) : Build σ :=
  { b with targets := b.targets.modify i fun e => { e with visiting := visiting, done := done } }

/-- The dependencies to run: entries that are not done, each once. -/
def uniqueDeps : List Bytes → List Nat → List Entry → List Nat × List Entry
  | [], uniques, ts => (uniques, ts)
  | d :: ds, uniques, ts =>
    match findTarget d ts with
    | (none, ts) => uniqueDeps ds uniques ts
    | (some j, ts) =>
      if (ts[j]?.any Entry.done) ∨ j ∈ uniques then uniqueDeps ds uniques ts
      else uniqueDeps ds (uniques ++ [j]) ts

/-- The dependencies one after the other, up to the first that fails. -/
def runDeps (run : Nat → Build σ → Option (Bool × Build σ)) :
    List Nat → Build σ → Option (Bool × Build σ)
  | [], b => some (true, b)
  | j :: js, b =>
    match run j b with
    | none => none
    | some (false, b) => some (false, b)
    | some (true, b) => runDeps run js b

/-- The part of `run_target` behind the dependencies. -/
def runOwn (i : Nat) (t : Target) (b : Build σ) : Bool × Build σ :=
  if t.archAllowed cfg then
    match runHooks mach t.setup b.sys with
    | (false, s) => (false, { b with sys := s })
    | (true, s) =>
      let test := targetOutOfDate cfg (mach.mtime s) t b.targets
      let ran := if test.1 then t.name :: b.ran else b.ran
      match if test.1 then runBuild mach t s else (true, s) with
      | (false, s) => (false, ⟨test.2, s, ran⟩)
      | (true, s) =>
        match runHooks mach t.finish s with
        | (false, s) => (false, ⟨test.2, s, ran⟩)
        | (true, s) => (true, (Build.mk test.2 s ran).setFlags i false true)
  else (true, b.setFlags i false true)

/-- `run_target`, with `none` when the fuel is used up. -/
def runTarget : Nat → Nat → Build σ → Option (Bool × Build σ)
  | 0, _, _ => none
  | fuel + 1, i, b =>
    match b.targets[i]? with
    | none => some (false, b)
    | some e =>
      if e.visiting then some (false, b)
      else if e.done then some (true, b)
      else if e.target.wanted cfg then
        let found := uniqueDeps e.target.deps [] (b.setFlags i true e.done).targets
        match runDeps (runTarget fuel) found.1 { b with targets := found.2 } with
        | none => none
        | some (false, b) => some (false, b)
        | some (true, b) => some (runOwn cfg mach i e.target b)
      else some (true, b.setFlags i e.visiting true)

/-- `run_target(find_target(requested))` on a table as it was read. -/
def runRequested (ts : List Target) (requested : Bytes) (s : σ) : Option (Bool × Build σ) :=
  let ts := ts.map fun t => (⟨t, false, false⟩ : Entry)
  match findTarget requested ts with
  | (none, ts) => some (false, ⟨ts, s, []⟩)
  | (some i, ts) => runTarget cfg mach (targetMax + 1) i ⟨ts, s, []⟩

end

end MeuOS.Meow
