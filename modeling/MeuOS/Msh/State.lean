import MeuOS.Lib.Decimal
import MeuOS.Lib.Descriptors
import MeuOS.Lib.Process

namespace MeuOS.Msh

open Lib

/-!
# The shell: trees, state, and the expansion of words

* `Tree` — the syntax trees that `msh_eval` walks.  A simple command and the body of a function
  definition stand in the state, since the evaluator changes them in place;
* `Machine`, `Shell` — the state that commands see, and the evaluator's own globals beside it;
* `Host` — what lies outside the evaluator: the expansion of a word, the file system, the other
  processes and the builtins that have no part in the flow of control;
* `expandArgv` — the words of a command, expanded.
-/

/-- A word of the source, or of a command. -/
abbrev Word := Bytes

/-- The bytes of a text. -/
def word (text : String) : Word := text.toUTF8.data.toList

/-- The environment, in which the shell keeps all its variables. -/
abbrev Env := Word → Option Word

/-- `setenv`. -/
def Env.set (env : Env) (name value : Word) : Env := fun n => if n = name then some value else env n

/-- `unsetenv`. -/
def Env.unset (env : Env) (name : Word) : Env := fun n => if n = name then none else env n

@[simp] theorem Env.set_self (env : Env) (name value : Word) :
    env.set name value name = some value := if_pos rfl

theorem Env.set_of_ne (env : Env) {name other : Word} (value : Word) (h : other ≠ name) :
    env.set name value other = env other := if_neg h

@[simp] theorem Env.unset_self (env : Env) (name : Word) : env.unset name name = none := if_pos rfl

theorem Env.unset_of_ne (env : Env) {name other : Word} (h : other ≠ name) :
    env.unset name other = env other := if_neg h

/-- The white space that `atoi` skips. -/
def isSpace (c : UInt8) : Bool := c = 32 || (9 ≤ c && c ≤ 13)

/-- The number that the digits in front of a text stand for. -/
def leadingDigits (text : Word) : Nat :=
  (text.takeWhile (fun c => 48 ≤ c && c ≤ 57)).foldl (fun n c => n * 10 + (c.toNat - 48)) 0

/-- `atoi`. -/
def atoi (text : Word) : Int :=
  match text.dropWhile isSpace with
  | 45 :: digits => -(leadingDigits digits : Int)
  | 43 :: digits => leadingDigits digits
  | digits => leadingDigits digits

/-! ### Trees -/

/-- The operators of redirections: `<`, `>`, `>>`, `<&`, `>&`, `<<` and `<<<`. -/
inductive RedirOp where
  | input
  | output
  | append
  | dupIn
  | dupOut
  | heredoc
  | hereString
  deriving DecidableEq

/-- `redirect_t`.  For a here-document `fd` says whether the delimiter was quoted. -/
structure Redirect where
  /-- The operator. -/
  op : RedirOp
  /-- The word behind it. -/
  target : Word
  /-- The text of a here-document. -/
  heredoc : Option Word
  /-- Nonzero for a quoted delimiter. -/
  fd : Nat
  deriving DecidableEq

/-- The fields of an `AST_CMD` node. -/
structure Command where
  /-- The words as written. -/
  argv : List Word
  /-- The redirections, in the order of the linked list. -/
  redir : List Redirect

/-- The operators that join the commands of a list. -/
inductive ListOp where
  | newline
  | semi
  | and
  | or
  deriving DecidableEq

/-- Syntax trees.  `null` is the null pointer; `cmd` and `func` name the places of a simple
    command and of a function's body in the state. -/
inductive Tree where
  | null
  | assign (text : Word) (right : Tree)
  | cmd (node : Nat)
  | pipe (left right : Tree)
  | list (left : Tree) (listOp : ListOp) (right : Tree)
  | bg (left : Tree)
  | subshell (body : Tree)
  | ifElse (cond thenBody elseBody : Tree)
  | forIn (name : Word) (patterns : List Word) (body : Tree)
  | whileDo (cond body : Tree)
  | untilDo (cond body : Tree)
  | func (name : Word) (node : Nat)
  | braceGroup (body : Tree)
  | caseOf (subject : Word) (arms : List (Word × Tree))

/-- The test for a null pointer. -/
def Tree.isNull : Tree → Bool
  | .null => true
  | _ => false

/-! ### State -/

/-- What a command sees of the shell. -/
structure Machine (ω : Type) where
  /-- The environment. -/
  env : Env
  /-- Files, processes, aliases, arrays and all else outside the evaluator. -/
  world : ω
  /-- The shell's descriptors and the open files they refer to. -/
  fds : Descriptors Nat
  /-- `msh_last_status`. -/
  lastStatus : Int

/-- The state of the shell. -/
structure Shell (ω : Type) extends Machine ω where
  /-- The simple commands of all trees. -/
  commands : Nat → Command
  /-- The bodies of the function definitions in the trees. -/
  bodies : Nat → Tree
  /-- The function table; `null` for a name that has no function. -/
  functions : Word → Tree
  /-- `msh_mode_classic`. -/
  classic : Bool
  /-- `msh_errexit`. -/
  errexit : Bool
  /-- `msh_in_cond`. -/
  inCond : Bool
  /-- `msh_break_flag`. -/
  breakFlag : Int
  /-- `msh_continue_flag`. -/
  continueFlag : Int
  /-- `msh_return_flag`. -/
  returnFlag : Bool
  /-- `msh_return_value`. -/
  returnValue : Int

/-- How a redirection opens its target. -/
inductive OpenMode where
  | read
  | truncate
  | append
  deriving DecidableEq

/-- What the evaluator calls and has no part in. -/
structure Host (ω : Type) where
  /-- `msh_expand`: parameters, command substitution and arithmetic in one word. -/
  expand : Machine ω → Word → Word × Env × ω
  /-- `glob`: the paths a pattern matches, none of them when it fails. -/
  glob : Machine ω → Word → List Word
  /-- `fnmatch`. -/
  fnmatch : Word → Word → Bool
  /-- `msh_alias_lookup`. -/
  aliasOf : ω → Word → Option Word
  /-- `msh_array_parse_assign` and `msh_array_parse_indexed`. -/
  arrayAssign : Machine ω → Word → Env × ω
  /-- `open`: the open file, unless it fails. -/
  openFile : Machine ω → OpenMode → Word → Option Nat × ω
  /-- `pipe`: the two open files of a new pipe, read end first. -/
  pipe : ω → Option (Nat × Nat) × ω
  /-- `write` to an open file. -/
  write : ω → Option Nat → Bytes → ω
  /-- The builtins other than `break`, `continue` and `return`: how they end, the environment, the
      world, and whether `set -e` is on afterwards. -/
  builtin : Machine ω → Bool → List Word → Outcome Int × Env × ω × Bool
  /-- A program run in a process of its own, up to its status. -/
  execute : Machine ω → List Word → Int × ω
  /-- A pipeline of simple commands in processes of their own; `none` for another stage. -/
  pipeline : Machine ω → List (Option Command) → Int × ω
  /-- Whether `fork` can make a process for a subshell. -/
  canFork : ω → Bool
  /-- The world of the shell after a child's: its own part of the first, all else of the second. -/
  join : ω → ω → ω
  /-- A command started in the background. -/
  background : Machine ω → Tree → ω

variable {ω : Type} (host : Host ω)

/-! ### Words -/

/-- Expand one word as text. -/
def expandString (text : Word) : Process (Shell ω) Word :=
  Process.step fun s =>
    let r := host.expand s.toMachine text
    (r.1, { s with env := r.2.1, world := r.2.2 })

/-- A word with a tilde in front, with the home directory in its place. -/
def tilde (env : Env) (arg : Word) : Word :=
  match arg, env (word "HOME") with
  | 126 :: rest, some home => if rest = [] || rest.head? = some 47 then home ++ rest else arg
  | _, _ => arg

/-- The words one argument expands to: the paths it matches, or the text itself. -/
def expandOneArg (arg : Word) : Process (Shell ω) (List Word) := do
  let s ← Process.get
  let expanded ← expandString host (tilde s.env arg)
  let s ← Process.get
  if expanded.any (fun c => c = 42 || c = 63 || c = 91) && !(host.glob s.toMachine expanded).isEmpty
  then return host.glob s.toMachine expanded
  else return [expanded]

/-- The words of a command. -/
def expandArgv : List Word → Process (Shell ω) (List Word)
  | [] => pure []
  | arg :: rest => do
    let segment ← expandOneArg host arg
    let words ← expandArgv rest
    return segment ++ words

end MeuOS.Msh
