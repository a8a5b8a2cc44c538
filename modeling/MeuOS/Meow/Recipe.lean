import MeuOS.Lib.Bytes

namespace MeuOS.Meow

open MeuOS.Lib

/-!
# Recipes of meow (`include/meow.h`, `recipe/parse.c`, `engine/graph.c`)

* `Target` — an entry of the target table;
* `evalCondition`, `archListed` — whether a target takes part in a build;
* `expandPath`, `expandCommand` — paths with the recipe's environment, commands with the automatic
  variables.
-/

/-! ### Texts -/

/-- `strstr`: the text from the first occurrence on. -/
def strstr : Bytes → Bytes → Option Bytes
  | [], needle => if needle = [] then some [] else none
  | c :: cs, needle => if needle.isPrefixOf (c :: cs) then some (c :: cs) else strstr cs needle

/-- What stands before and behind the first occurrence of a mark. -/
def splitAtMark (s mark : Bytes) : Option (Bytes × Bytes) :=
  (strstr s mark).map fun rest => (s.take (s.length - rest.length), rest.drop mark.length)

/-- `isspace`. -/
def isBlank (c : UInt8) : Bool := c = 0x20 || (0x09 ≤ c && c ≤ 0x0d)

/-- `%n[…]` and `%ns`: at most `n` characters of a set, at least one. -/
def scanSet (n : Nat) (p : UInt8 → Bool) (s : Bytes) : Option (Bytes × Bytes) :=
  let w := (s.takeWhile p).take n
  if w = [] then none else some (w, s.drop w.length)

/-- The value of a condition's third part: `"VALUE"`, or else `VALUE`. -/
def scanValue (s : Bytes) : Option Bytes :=
  match s with
  | 0x22 :: quoted =>
    match scanSet 127 (· ≠ 0x22) quoted with
    | some (value, _) => some value
    | none => (scanSet 127 (!isBlank ·) s).map Prod.fst
  | _ => (scanSet 127 (!isBlank ·) s).map Prod.fst

/-- `EXPR OP VALUE`, at most 63 and 7 characters for the first two. -/
def scanCondition (s : Bytes) : Option (Bytes × Bytes × Bytes) := do
  let (expr, s) ← scanSet 63 (· ≠ 0x20) s
  let (op, s) ← scanSet 7 (· ≠ 0x20) (s.dropWhile isBlank)
  let value ← scanValue (s.dropWhile isBlank)
  pure (expr, op, value)

/-- The words of a list between characters of a set. -/
def words (sep : UInt8 → Bool) : Bytes → Bytes → List Bytes
  | cur, [] => if cur = [] then [] else [cur]
  | cur, c :: cs =>
    if sep c then (if cur = [] then words sep [] cs else cur :: words sep [] cs)
    else words sep (cur ++ [c]) cs

/-! ### Conditions -/

/-- What the whole table is read with. -/
structure Config where
  build_arch : Option Bytes
  build_target : Option Bytes
  recipe_environment : Bytes

/-- `ARCH`. -/
def archWord : Bytes := [0x41, 0x52, 0x43, 0x48]

/-- `TARGET`. -/
def targetWord : Bytes := [0x54, 0x41, 0x52, 0x47, 0x45, 0x54]

/-- A list of `in`: words between commas, blanks before a word are passed. -/
def inList (value : Bytes) : List Bytes :=
  (words (· = 0x2c) [] value).filterMap fun w =>
    let w := w.dropWhile (· = 0x20)
    if w = [] then none else some w

/-- A comparison of `eval_condition`; what cannot be read holds. -/
def evalComparison (cfg : Config) (text : Bytes) : Bool :=
  match scanCondition text with
  | none => true
  | some (expr, op, value) =>
    let actual := if expr = archWord then cfg.build_arch
      else if expr = targetWord then cfg.build_target else none
    match actual with
    | none => true
    | some actual =>
      if op = [0x3d, 0x3d] then actual = value
      else if op = [0x21, 0x3d] then actual ≠ value
      else if op = [0x69, 0x6e] then (inList value).contains actual
      else true

/-- `eval_condition`: `||` binds weaker than `&&`, and the text to the left of one is cut at 255
characters. Every call has a shorter text. -/
def evalConditionFrom (cfg : Config) : Nat → Bytes → Bool
  | 0, _ => true
  | n + 1, text =>
    if text = [] then true
    else
      match splitAtMark text [0x20, 0x7c, 0x7c, 0x20] with
      | some (left, right) =>
        evalConditionFrom cfg n (left.take 255) || evalConditionFrom cfg n right
      | none =>
        match splitAtMark text [0x20, 0x26, 0x26, 0x20] with
        | some (left, right) =>
          evalConditionFrom cfg n (left.take 255) && evalConditionFrom cfg n right
        | none => evalComparison cfg text

/-- `eval_condition`. -/
def evalCondition (cfg : Config) (text : Bytes) : Bool :=
  evalConditionFrom cfg (text.length + 1) text

/-- The test of `only:` and `except:`: the architecture is one of the words in the first 255
characters. -/
def archListed (cfg : Config) (list : Bytes) : Bool :=
  match cfg.build_arch with
  | none => false
  | some arch => (inList (list.take 255)).contains arch

/-! ### Paths and commands -/

/-- The value of a variable behind its opening quote: up to a quote that no `\'` follows. -/
def quotedValue : Bytes → Bytes
  | [] => []
  | 0x27 :: 0x5c :: 0x27 :: rest => 0x27 :: quotedValue (rest.drop 1)
  | 0x27 :: _ => []
  | c :: rest => c :: quotedValue rest
termination_by s => s.length
decreasing_by all_goals simp_all; try omega

/-- The value of `key` in the recipe's environment, empty when it has none. -/
def envValue (environment key : Bytes) : Bytes :=
  let mark := [0x65, 0x78, 0x70, 0x6f, 0x72, 0x74, 0x20] ++ key ++ [0x3d, 0x27]
  match strstr environment mark with
  | none => []
  | some found => quotedValue (found.drop mark.length)

/-- `expand_env_vars`, in at most `n` rounds; a name of more than 256 characters is an error. -/
def expandEnvVars (environment : Bytes) : Nat → Bytes → Option Bytes
  | 0, _ => some []
  | _ + 1, [] => some []
  | n + 1, c :: cs =>
    if c = 0x24 ∧ cs.head? = some 0x7b ∧ 0x7d ∈ cs.tail then
      let key := cs.tail.takeWhile (· ≠ 0x7d)
      if 256 < key.length then none
      else (expandEnvVars environment n (cs.tail.drop (key.length + 1))).map
        (envValue environment key ++ ·)
    else (expandEnvVars environment n cs).map (c :: ·)

/-- `expand_path`. -/
def expandPath (cfg : Config) (path : Bytes) : Bytes :=
  if 0x24 ∈ path ∧ 0x7b ∈ path then
    (expandEnvVars cfg.recipe_environment path.length path).getD path
  else path

/-- A command of a target with its `run(X)` modifiers. -/
structure Command where
  text : Bytes
  quiet : Bool
  abort : Bool
  noabort : Bool
  deriving DecidableEq, Repr

/-- A shell command of a section that every build runs, before a target's commands (`has:`,
`download:`, `sha256:`, `unpack:`, `patch:`, `srcdir:`, `builddir:`) or behind them (`post:`, `test:`,
`install:`, `strip:`): only when the file `missing` is not there, and with `fatal` a failure ends
the build. -/
structure Hook where
  text : Bytes
  missing : Option Bytes
  fatal : Bool
  deriving DecidableEq, Repr

/-- `struct target`, with its sections as the hooks that they come to. -/
structure Target where
  name : Bytes
  deps : List Bytes
  commands : List Command
  inputs : List Bytes
  outputs : List Bytes
  phony : Bool
  when : Option Bytes
  run_abort_on_fail : Bool
  run_quiet : Bool
  only_arch : Option Bytes
  except_arch : Option Bytes
  work_dir : Option Bytes
  pre_cmd : Option Bytes
  error_cmd : Option Bytes
  setup : List Hook
  finish : List Hook
  stem : Option Bytes
  deriving DecidableEq, Repr

/-- The condition of a target holds, so that its dependencies are built. -/
def Target.wanted (cfg : Config) (t : Target) : Bool := t.when.all (evalCondition cfg)

/-- `only:` and `except:` let a target's commands run. -/
def Target.archAllowed (cfg : Config) (t : Target) : Bool :=
  t.only_arch.all (archListed cfg) && t.except_arch.all (!archListed cfg ·)

/-- `RECIPE_MAX`. -/
def recipeMax : Nat := 65536

/-- `append_text` for pieces one after the other: false and what went before when one does not fit. -/
def appendPieces : Bytes → List Bytes → Bool × Bytes
  | buffer, [] => (true, buffer)
  | buffer, p :: ps =>
    if recipeMax < buffer.length + p.length + 1 then (false, buffer)
    else appendPieces (buffer ++ p) ps

/-- The pieces that a character behind `$` stands for. -/
def variablePieces (t : Target) (c : UInt8) : List Bytes :=
  if c = 0x40 then [t.name]
  else if c = 0x3c then [(t.deps ++ t.inputs).headD []]
  else if c = 0x5e then (t.deps ++ t.inputs).intersperse [0x20]
  else if c = 0x2a then [t.stem.getD []]
  else if c = 0x24 then [[0x24]]
  else [[0x24, c]]

/-- `expand_command` behind what is in the buffer. -/
def expandFrom (t : Target) : Bytes → Bytes → Bool × Bytes
  | buffer, [] => (true, buffer)
  | buffer, [c] => appendPieces buffer [[c]]
  | buffer, c :: x :: rest =>
    if c = 0x24 then
      match appendPieces buffer (variablePieces t x) with
      | (false, buffer) => (false, buffer)
      | (true, buffer) => expandFrom t buffer rest
    else
      match appendPieces buffer [[c]] with
      | (false, buffer) => (false, buffer)
      | (true, buffer) => expandFrom t buffer (x :: rest)
termination_by _ command => command.length

/-- `expand_command`: whether it fits, and the buffer. -/
def expandCommand (t : Target) (command : Bytes) : Bool × Bytes := expandFrom t [] command

end MeuOS.Meow
