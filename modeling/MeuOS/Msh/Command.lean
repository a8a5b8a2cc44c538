import MeuOS.Msh.State

namespace MeuOS.Msh

open Lib

/-!
# Simple commands and their redirections

* `attach` — `parse_command` adds a redirection to a command: in front of the list;
* `redirectFd`, `applyRedirect`, `applyRedirects` — the loop of `run_simple_cmd` over the list;
* `runBuiltin`, `runWords` — what the command does behind its redirections;
* `runSimpleCmd` — the whole function;
* `Quiet` — what expansions leave alone;
* `plainHost`, `startShell` — a concrete host and state.
-/

variable {ω : Type} (host : Host ω)

/-! ### Descriptors -/

/-- The shell's own two descriptors that commands are redirected on. -/
inductive Stream where
  | stdin
  | stdout
  deriving DecidableEq

/-- The number of the descriptor. -/
def Stream.number : Stream → Nat
  | .stdin => 0
  | .stdout => 1

/-- `dup`: a new descriptor for the file that `fd` refers to, unless it refers to none. -/
def dup (fd : Nat) : Process (Shell ω) (Option Nat) :=
  Process.step fun s =>
    match s.fds.refers fd with
    | some d => (some s.fds.least, { s with fds := s.fds.place d })
    | none => (none, s)

/-- `dup2`: `target` refers to the file of `fd`; false when `fd` refers to none. -/
def dup2 (fd target : Nat) : Process (Shell ω) Bool :=
  Process.step fun s =>
    match s.fds.refers fd with
    | some d => (true, { s with fds := s.fds.reopen target d })
    | none => (false, s)

/-- `close`. -/
def closeFd (fd : Nat) : Process (Shell ω) Unit :=
  Process.modify fun s => { s with fds := s.fds.release fd }

/-- A new descriptor for an open file. -/
def newFd (d : Nat) : Process (Shell ω) Nat :=
  Process.step fun s => (s.fds.least, { s with fds := s.fds.place d })

/-- `open`. -/
def openTarget (mode : OpenMode) (target : Word) : Process (Shell ω) (Option Nat) := do
  let opened ← Process.step fun (s : Shell ω) =>
    let r := host.openFile s.toMachine mode target
    (r.1, { s with world := r.2 })
  match opened with
  | some d =>
    let fd ← newFd d
    return some fd
  | none => return none

/-- `pipe`: the read end and the write end. -/
def openPipe : Process (Shell ω) (Option (Nat × Nat)) := do
  let opened ← Process.step fun (s : Shell ω) =>
    let r := host.pipe s.world
    (r.1, { s with world := r.2 })
  match opened with
  | some ends =>
    let readEnd ← newFd ends.1
    let writeEnd ← newFd ends.2
    return some (readEnd, writeEnd)
  | none => return none

/-- `write` to a descriptor; nothing is written of an empty text. -/
def writeFd (fd : Nat) (content : Bytes) : Process (Shell ω) Unit :=
  Process.modify fun s =>
    if content = [] then s
    else { s with world := host.write s.world (s.fds.refers fd) content }

/-! ### Redirections -/

/-- `parse_command` puts a redirection in front of those it has read before. -/
def attach (redir : List Redirect) (r : Redirect) : List Redirect := r :: redir

/-- The list that `parse_command` builds from redirections in the order they are written in. -/
def parseRedirects (written : List Redirect) : List Redirect := written.foldl attach []

/-- `saved_in` and `saved_out`: the copy of a stream's descriptor, `none` for -1. -/
abbrev Saved : Type := Stream → Option Nat

/-- Keep a copy of a stream's descriptor, unless there is one. -/
def save (saved : Saved) (stream : Stream) : Process (Shell ω) Saved :=
  match saved stream with
  | some _ => pure saved
  | none => do
    let copy ← dup stream.number
    return Function.update saved stream copy

/-- Put the file of `fd` in the place of a stream, and close `fd`; `none` when `dup2` fails. -/
def redirectTo (saved : Saved) (fd : Nat) (stream : Stream) :
    Process (Shell ω) (Option Saved) := do
  let saved ← save saved stream
  let done ← dup2 fd stream.number
  closeFd fd
  return if done then some saved else none

/-- The read end of a pipe with the text of a here-string or here-document in it. -/
def textPipe (content : Process (Shell ω) Bytes) : Process (Shell ω) (Option Nat) := do
  match ← openPipe host with
  | none => return none
  | some (readEnd, writeEnd) =>
    let text ← content
    writeFd host writeEnd text
    closeFd writeEnd
    return some readEnd

/-- A here-document that has been read is marked as `<`, in the tree itself. -/
def spend (node index : Nat) : Process (Shell ω) Unit :=
  Process.modify fun s =>
    { s with
      commands := Function.update s.commands node
        { s.commands node with
          redir := (s.commands node).redir.modify index (fun r => { r with op := .input }) } }

/-- `<&N` and `>&N`: a copy of descriptor `N`. -/
def dupTarget (target : Word) : Process (Shell ω) (Option Nat) := do
  if atoi target < 0 || atoi target > 255 then return none else dup (atoi target).toNat

/-- The descriptor that a redirection makes; `none` stands for `return 1`. -/
def redirectFd (node index : Nat) (r : Redirect) : Process (Shell ω) (Option Nat) := do
  let target ← expandString host r.target
  match r.op, r.heredoc with
  | .hereString, _ =>
    let text ← expandString host r.target
    textPipe host (pure (text ++ [10]))
  | .heredoc, some body =>
    match ← textPipe host (if r.fd = 0 then expandString host body else pure body) with
    | none => return none
    | some fd =>
      spend node index
      return some fd
  | .heredoc, none => return none
  | .input, _ => openTarget host .read target
  | .output, _ => openTarget host .truncate target
  | .append, _ => openTarget host .append target
  | .dupIn, _ => dupTarget target
  | .dupOut, _ => dupTarget target

/-- The stream that a redirection is for. -/
def Redirect.stream (r : Redirect) : Stream :=
  match r.op with
  | .output => .stdout
  | .append => .stdout
  | .dupOut => .stdout
  | _ => .stdin

/-- One round of the loop over the redirections; `none` stands for `return 1`. -/
def applyRedirect (node index : Nat) (r : Redirect) (saved : Saved) :
    Process (Shell ω) (Option Saved) := do
  match ← redirectFd host node index r with
  | none => return none
  | some fd => redirectTo saved fd r.stream

/-- The loop over the redirections. -/
def applyRedirects (node : Nat) : Nat → List Redirect → Saved → Process (Shell ω) (Option Saved)
  | _, [], saved => pure (some saved)
  | index, r :: rest, saved => do
    match ← applyRedirect host node index r saved with
    | none => return none
    | some saved => applyRedirects node (index + 1) rest saved

/-- Put a stream back from its copy, and close the copy. -/
def restoreFd (copy : Option Nat) (stream : Stream) : Process (Shell ω) Unit :=
  match copy with
  | none => pure ()
  | some fd => do
    let _ ← dup2 fd stream.number
    closeFd fd

/-! ### Commands -/

/-- The names that `is_builtin` knows. -/
def builtinNames : List Word :=
  ["cd", "export", "unset", "set", "exit", "true", "false", ":", "echo", "pwd", "read", "eval",
    "type", "exec", "jobs", "fg", "bg", "wait", "trap", "source", ".", "msh", "[[", "complete",
    "compgen", "shift", "return", "break", "continue", "alias", "unalias", "local", "getopts",
    "umask", "hash", "let", "declare", "typeset", "printf", "test", "[", "sleep", "seq"].map word

/-- `is_builtin`: one of the names, or a text with a colon in front. -/
def isBuiltin (name : Word) : Bool :=
  (name.head? = some 58 && name ≠ [58]) || builtinNames.contains name

/-- The count that `break` and `continue` are given. -/
def loopCount : List Word → Int
  | [] => 1
  | n :: _ => atoi n

/-- `break`. -/
def breakLoop (args : List Word) : Process (Shell ω) Int := do
  Process.modify fun s => { s with breakFlag := loopCount args }
  return 0

/-- `continue`. -/
def continueLoop (args : List Word) : Process (Shell ω) Int := do
  Process.modify fun s => { s with continueFlag := loopCount args }
  return 0

/-- The status that `return` is given, or the last one. -/
def returnStatus (lastStatus : Int) : List Word → Int
  | [] => lastStatus
  | n :: _ => atoi n

/-- `return`. -/
def returnFunction (args : List Word) : Process (Shell ω) Int := do
  let s ← Process.get
  let rc := returnStatus s.lastStatus args
  Process.modify fun s => { s with returnFlag := true, returnValue := rc }
  return rc

/-- The builtins that have no part in the flow of control. -/
def otherBuiltin (argv : List Word) : Process (Shell ω) Int := fun s =>
  let r := host.builtin s.toMachine s.errexit argv
  (r.1, { s with env := r.2.1, world := r.2.2.1, errexit := r.2.2.2 })

/-- `msh_run_builtin`. -/
def runBuiltin (name : Word) (args : List Word) : Process (Shell ω) Int :=
  if name = word "break" then breakLoop args
  else if name = word "continue" then continueLoop args
  else if name = word "return" then returnFunction args
  else otherBuiltin host (name :: args)

/-- A program in a process of its own. -/
def runProgram (argv : List Word) : Process (Shell ω) Int :=
  Process.step fun s =>
    let r := host.execute s.toMachine argv
    (r.1, { s with world := r.2 })

/-- The command itself, behind its redirections. -/
def runWords (argv : List Word) : Process (Shell ω) Int :=
  match argv with
  | name :: args => if isBuiltin name then runBuiltin host name args else runProgram host argv
  | [] => runProgram host argv

/-- `run_simple_cmd`. -/
def runSimpleCmd (node : Nat) : Process (Shell ω) Int := do
  let s ← Process.get
  let cmd := s.commands node
  if cmd.argv = [] then return 0
  let argv ← expandArgv host cmd.argv
  match ← applyRedirects host node 0 cmd.redir (fun _ => none) with
  | none => return 1
  | some saved =>
    let rc ← runWords host argv
    restoreFd (saved .stdin) .stdin
    restoreFd (saved .stdout) .stdout
    return rc

/-! ### Expansions -/

/-- A computation that returns, and changes the environment and the world at most. -/
def Quiet {α : Type} (x : Process (Shell ω) α) : Prop :=
  ∀ s, ∃ a env world, x s = (.ok a, { s with env := env, world := world })

theorem Quiet.pure {α : Type} (a : α) : Quiet (pure a : Process (Shell ω) α) :=
  fun s => ⟨a, s.env, s.world, rfl⟩

theorem Quiet.get : Quiet (Process.get : Process (Shell ω) (Shell ω)) :=
  fun s => ⟨s, s.env, s.world, rfl⟩

theorem Quiet.bind {α β : Type} {x : Process (Shell ω) α} {f : α → Process (Shell ω) β}
    (hx : Quiet x) (hf : ∀ a, Quiet (f a)) : Quiet (x >>= f) := by
  intro s
  obtain ⟨a, env, world, hxs⟩ := hx s
  obtain ⟨b, env', world', hfs⟩ := hf a { s with env := env, world := world }
  exact ⟨b, env', world', (Process.bind_of_ok hxs f).trans hfs⟩

variable {host}

theorem quiet_expandString (text : Word) : Quiet (expandString host text) :=
  fun _ => ⟨_, _, _, rfl⟩

theorem quiet_expandOneArg (arg : Word) : Quiet (expandOneArg host arg) := by
  refine Quiet.get.bind fun s => (quiet_expandString _).bind fun expanded => Quiet.get.bind ?_
  intro s'
  split
  · exact Quiet.pure _
  · exact Quiet.pure _

theorem quiet_expandArgv (argv : List Word) : Quiet (expandArgv host argv) := by
  induction argv with
  | nil => exact Quiet.pure _
  | cons arg rest ih =>
    exact (quiet_expandOneArg arg).bind fun segment => ih.bind fun words => Quiet.pure _

/-! ### A plain host -/

/-- A host for examples: words expand to themselves, nothing but `missing` fails to open, `false`
    fails, `set` turns `set -e` on, and programs do nothing and succeed. -/
def plainHost : Host Unit where
  expand m text := (text, m.env, m.world)
  glob _ _ := []
  fnmatch pattern text := pattern = text
  aliasOf _ _ := none
  arrayAssign m _ := (m.env, m.world)
  openFile m _ target := (if target = word "missing" then none else some 7, m.world)
  pipe world := (some (8, 9), world)
  write world _ _ := world
  builtin m errexit argv :=
    (.ok (if argv = [word "false"] then 1 else 0), m.env, m.world,
      errexit || argv = [word "set", word "-e"])
  execute m _ := (0, m.world)
  pipeline m _ := (0, m.world)
  canFork _ := true
  join world _ := world
  background m _ := m.world

/-- A shell at its start, with the simple commands of its trees. -/
def startShell (commands : Nat → Command) : Shell Unit where
  env := fun _ => none
  world := ()
  fds := [some 0, some 1, some 2]
  lastStatus := 0
  commands := commands
  bodies := fun _ => .null
  functions := fun _ => .null
  classic := true
  errexit := false
  inCond := false
  breakFlag := 0
  continueFlag := 0
  returnFlag := false
  returnValue := 0

end MeuOS.Msh
