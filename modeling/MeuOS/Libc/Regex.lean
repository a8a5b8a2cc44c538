import MeuOS.Lib.Bytes
import MeuOS.Lib.Runs

namespace MeuOS.Libc

open MeuOS.Lib Checked
open MeuOS.Lib.Checked (UpTo Ends agreed)

/-!
# Regular expressions (`regex.c`)

A pattern is compiled to a table of states, and a string is matched by following sets of states.
The table, its length and the flags are variables of the file, not part of the compiled expression.

* `regcomp`, `regexec` — the calls, on the variables of the file;
* `regcomp_ends` — every compilation ends;
* `regcomp_resets` — a compilation leaves nothing of the variables;
* `regexec_upTo`, `regexec_independent` — a match depends on what it reads of the variables, and
  another compilation does it no harm where it has not changed that.

Allocations succeed, and the memory behind the states in use is unknown: to touch it is a fault.
-/

/-! ### States and fragments -/

/-- The types of a state. -/
inductive StateType where
  | CONCAT | ALTERN | STAR | PLUS | QUEST | DOT | CHAR | SET | ANCHOR_START | ANCHOR_END
  deriving DecidableEq

/-- `struct nfa_state`, zeroed but for what is given.  The charset is the number with the bits of
    its 32 bytes. -/
structure NfaState where
  type : StateType := .CONCAT
  c : Int := 0
  out : Nat := 0
  out1 : Nat := 0
  charset : Nat := 0
  deriving DecidableEq

/-- `struct nfa_frag`: the first state and the states whose arcs dangle. -/
structure NfaFrag where
  start : Nat := 0
  out : List Nat := []

def REG_ICASE : Nat := 2
def REG_NOTBOL : Nat := 1
def REG_NOMATCH : Nat := 1
def REG_BADPAT : Nat := 2
def REG_EESCAPE : Nat := 5
def REG_EBRACK : Nat := 7
def REG_EPAREN : Nat := 8
def REG_BADRPT : Nat := 13

/-- The variables of the file that outlive a call.  `nstates` is the length of the table; without
    states the pointer is null. -/
structure RegexFile where
  states : List NfaState := []
  rflags : Nat := 0
  deriving DecidableEq

/-- What the parser works on: the table, `rp` and `errcode`. -/
structure RegexParse where
  states : List NfaState := []
  rp : Bytes := []
  errcode : Nat := 0

/-- `*rp`; 0 is the terminator. -/
def RegexParse.peek (σ : RegexParse) : UInt8 := σ.rp.headD 0

/-- `rp++`, where `*rp` is not the terminator. -/
def RegexParse.skip (σ : RegexParse) : RegexParse := { σ with rp := σ.rp.tail }

/-- `alloc_state`, and the fields that are set at once. -/
def RegexParse.allocState (σ : RegexParse) (s : NfaState) : RegexParse × Nat :=
  ({ σ with states := σ.states ++ [s] }, σ.states.length)

/-- `states[i].out = s`. -/
def setOut (states : List NfaState) (i s : Nat) : Checked Unit (List NfaState) :=
  if i < states.length then .ok (states.modify i fun st => { st with out := s }) else .fault

/-- `patch`. -/
def RegexParse.patch (σ : RegexParse) (list : List Nat) (s : Nat) : Checked Unit RegexParse := do
  let states ← list.foldlM (fun states i => setOut states i s) σ.states
  return { σ with states := states }

/-- A state and the fragment of it alone, `frag(s, s)`. -/
def RegexParse.single (σ : RegexParse) (s : NfaState) : NfaFrag × RegexParse :=
  (⟨(σ.allocState s).2, [(σ.allocState s).2]⟩, (σ.allocState s).1)

/-- `errcode = e`, and the fragment of zeros. -/
def RegexParse.error (σ : RegexParse) (e : Nat) : NfaFrag × RegexParse :=
  ({}, { σ with errcode := e })

/-! ### Bracket expressions -/

/-- `charset[c >> 3] |= 1 << (c & 7)`. -/
def charsetAdd (charset : Nat) (c : Nat) : Nat := charset ||| 1 <<< c

/-- The characters from `c1` to `c2`, in either order. -/
def charsetRange (charset c1 c2 : Nat) : Nat :=
  (List.range' (min c1 c2) (max c1 c2 - min c1 c2 + 1)).foldl charsetAdd charset

/-- `*rp++`, a fault behind the terminator. -/
def takeChar : Bytes → Checked Unit (UInt8 × Bytes)
  | [] => .fault
  | c :: rp => .ok (c, rp)

/-- The loop over a bracket expression: the characters and the text from `]` or the end on. -/
def bracketLoop : Nat → Bytes → Nat → Checked Unit (Nat × Bytes)
  | 0, _, _ => .stuck
  | turns + 1, rp, charset =>
    -- 93 is `]`, 92 the backslash, 45 the hyphen
    if rp.headD 0 = 0 ∨ rp.headD 0 = 93 then .ok (charset, rp)
    else do
      let (c1, rp) ← takeChar (if rp.headD 0 = 92 then rp.tail else rp)
      if rp.headD 0 = 45 ∧ rp.tail.headD 0 ≠ 0 ∧ rp.tail.headD 0 ≠ 93 then do
        let (c2, rp) ← takeChar rp.tail
        bracketLoop turns rp (charsetRange charset c1.toNat c2.toNat)
      else bracketLoop turns rp (charsetAdd charset c1.toNat)

/-- `[`, with `rp` behind it. -/
def parseBracket (σ : RegexParse) : Checked Unit (NfaFrag × RegexParse) := do
  let neg : Bool := σ.peek = 94
  let rp := if neg then σ.rp.tail else σ.rp
  -- a leading `]` sets the bit of NUL
  let (charset, rp) := if rp.headD 0 = 93 then (charsetAdd 0 0, rp.tail) else (0, rp)
  let (charset, rp) ← bracketLoop (rp.length + 1) rp charset
  let σ := { σ with rp := rp }
  let charset := if neg then (charset ^^^ (2 ^ 256 - 1)) &&& (2 ^ 256 - 2) else charset
  return if rp.headD 0 = 0 then σ.error REG_EBRACK
    else σ.skip.single { type := .SET, charset := charset }

/-! ### The parser -/

/-- The operators that repeat: `*`, `+`, `?`. -/
def isRepeat (c : UInt8) : Bool := c = 42 || c = 43 || c = 63

/-- A repetition operator behind a fragment. -/
def parseRepeat (f : NfaFrag) (σ : RegexParse) : Checked Unit (NfaFrag × RegexParse) :=
  if σ.errcode = 0 ∧ isRepeat σ.peek then do
    let op := σ.peek
    let σ := σ.skip
    if op = 42 then
      let (σ, s) := σ.allocState { type := .STAR, out := f.start }
      let σ ← σ.patch f.out s
      return ({ start := s, out := [s] }, σ)
    else if op = 43 then
      let (σ, s) := σ.allocState { type := .STAR, out := f.start }
      let σ ← σ.patch f.out s
      return ({ f with out := [s] }, σ)
    else
      let (σ, s) := σ.allocState {}
      let (σ, s2) := σ.allocState { type := .ALTERN, out := f.start, out1 := s }
      let σ ← σ.patch f.out s
      return ({ start := s2, out := [s2] }, σ)
  else .ok (f, σ)

/-- A literal, an anchor or a misplaced operator. -/
def parseLiteral (σ : RegexParse) : NfaFrag × RegexParse :=
  let c := σ.peek
  let σ := σ.skip
  if c = 94 then σ.single { type := .ANCHOR_START }
  else if c = 36 then σ.single { type := .ANCHOR_END }
  else if isRepeat c ∨ c = 124 ∨ c = 41 then σ.error REG_BADRPT
  else σ.single { type := .CHAR, c := c.toNat }

/-- Chain a fragment to the one behind it. -/
def concatFrag (f g : NfaFrag) (σ : RegexParse) : Checked Unit (NfaFrag × RegexParse) := do
  let (σ, s) := σ.allocState { type := .CONCAT, out := f.start }
  match f.out with
  -- the list of a failed fragment is a null pointer
  | [] => .fault
  | i :: out =>
    let σ ← σ.patch (i :: out) g.start
    return ({ start := s, out := g.out }, σ)

mutual

/-- `parse_branch`. -/
def parseBranch : Nat → RegexParse → Checked Unit (NfaFrag × RegexParse)
  | 0, _ => .stuck
  | turns + 1, σ => do
      let (f, σ) ← parsePiece turns σ
      branchLoop turns f σ

/-- The loop of `parse_branch`. -/
def branchLoop : Nat → NfaFrag → RegexParse → Checked Unit (NfaFrag × RegexParse)
  | 0, _, _ => .stuck
  | turns + 1, f, σ =>
    if σ.peek = 0 ∨ σ.peek = 124 ∨ σ.peek = 41 then .ok (f, σ)
    else do
      let (g, σ) ← parsePiece turns σ
      let (f, σ) ← concatFrag f g σ
      branchLoop turns f σ

/-- `parse_piece`. -/
def parsePiece : Nat → RegexParse → Checked Unit (NfaFrag × RegexParse)
  | 0, _ => .stuck
  | turns + 1, σ => do
      let (f, σ) ← parseAtom turns σ
      parseRepeat f σ

/-- `parse_atom`. -/
def parseAtom : Nat → RegexParse → Checked Unit (NfaFrag × RegexParse)
  | 0, _ => .stuck
  | turns + 1, σ =>
    if σ.peek = 0 then .ok (σ.error REG_BADPAT)
    -- 40 is `(`, 41 `)`
    else if σ.peek = 40 then do
      let (f, σ) ← parseBranch turns σ.skip
      if σ.peek = 41 then .ok (f, σ.skip) else .ok (f, { σ with errcode := REG_EPAREN })
    -- an empty branch
    else if σ.peek = 124 then .ok (σ.single { type := .CHAR, c := -1 })
    else if σ.peek = 46 then .ok (σ.skip.single { type := .DOT })
    else if σ.peek = 91 then parseBracket σ.skip
    else if σ.peek = 92 then
      let σ := σ.skip
      if σ.peek = 0 then .ok (σ.error REG_EESCAPE)
      else .ok (σ.skip.single { type := .CHAR, c := σ.peek.toNat })
    else .ok (parseLiteral σ)

end

/-! ### The compiler -/

/-- The part of `regex_t` that is used: `opaque`, null or the first state and the accepting one. -/
structure RegexT where
  opaquePtr : Option (Nat × Nat) := none
  deriving DecidableEq

/-- The loop `while (*rp == '|')` of `regcomp`. -/
def alternLoop : Nat → NfaFrag → RegexParse → Checked Unit (NfaFrag × RegexParse)
  | 0, _, _ => .stuck
  | turns + 1, f, σ =>
    if σ.peek = 124 then do
      let σ := σ.skip
      let (g, σ) ← parseBranch (4 * σ.rp.length + 4) σ
      let (σ, s) := σ.allocState { type := .ALTERN, out := f.start, out1 := g.start }
      let σ ← σ.patch f.out s
      let σ ← σ.patch g.out s
      alternLoop turns { start := s, out := [s] } σ
    else .ok (f, σ)

/-- The pattern of `regcomp`; an empty one is an empty state. -/
def parsePattern (σ : RegexParse) : Checked Unit (NfaFrag × RegexParse) :=
  if σ.peek = 0 then .ok (σ.single { type := .CHAR, c := -1 })
  else do
    let (f, σ) ← parseBranch (4 * σ.rp.length + 4) σ
    alternLoop (σ.rp.length + 1) f σ

/-- `regcomp`: the variables of the file, the expression and the code that is returned. -/
def regcomp (file : RegexFile) (pattern : Bytes) (cflags : Nat) :
    Checked Unit (RegexFile × RegexT × Nat) := do
  -- the states of the last compilation are freed
  let file := { file with states := [], rflags := cflags }
  let (f, σ) ← parsePattern { states := file.states, rp := pattern, errcode := 0 }
  if σ.errcode ≠ 0 then
    return ({ file with states := [] }, { opaquePtr := none }, σ.errcode)
  else
    let (σ, accept) := σ.allocState { type := .CHAR, c := -1 }
    let σ ← σ.patch f.out accept
    return ({ file with states := σ.states }, { opaquePtr := some (f.start, accept) }, 0)

/-! ### The matcher -/

/-- What the matcher asks of the variables: a state, whether an index is below `nstates`, and
    whether `rflags` has `REG_ICASE`. -/
structure RegexView where
  state : Nat → Checked Unit NfaState
  below : Nat → Checked Unit Bool
  icase : Checked Unit Bool

/-- The variables of the file answer. -/
def RegexFile.view (file : RegexFile) : RegexView where
  state s := if h : s < file.states.length then .ok (file.states.get ⟨s, h⟩) else .fault
  below s := .ok (s < file.states.length)
  icase := .ok (file.rflags &&& REG_ICASE ≠ 0)

/-- `tolower`. -/
def tolower (c : Int) : Int := if 65 ≤ c ∧ c ≤ 90 then c - 65 + 97 else c

/-- The elements of `int set[512]`. -/
def SET_MAX : Nat := 512

/-- `set[(*set_len)++] = s`. -/
def pushState (set : List Nat) (s : Nat) : Checked Unit (List Nat) :=
  if set.length < SET_MAX then .ok (set ++ [s]) else .fault

/-- Where a state leads without a character. -/
def epsilonNext (st : NfaState) : List Nat :=
  match st.type with
  | .CONCAT | .STAR | .PLUS => [st.out]
  | .ALTERN => [st.out, st.out1]
  | .CHAR => if st.c < 0 then [st.out] else []
  | _ => []

section matcher

variable (V : RegexView)

/-- Add a state of `next` to the set; `added` is set with it. -/
def closureAdd (acc : List Nat × Bool) (ns : Nat) : Checked Unit (List Nat × Bool) :=
  if ns ∈ acc.1 then .ok acc
  else do
    let inside ← V.below ns
    if inside then
      let set ← pushState acc.1 ns
      return (set, true)
    else return acc

/-- A turn of the loop in `closure`. -/
def closureStep (acc : List Nat × Bool) (s : Nat) : Checked Unit (List Nat × Bool) := do
  let inside ← V.below s
  if inside then
    let st ← V.state s
    (epsilonNext st).foldlM (closureAdd V) acc
  else return acc

/-- `for (int i = 0; i < *set_len; i++)`, over a set that grows. -/
def closurePass : Nat → Nat → List Nat × Bool → Checked Unit (List Nat × Bool)
  | 0, _, _ => .stuck
  | turns + 1, i, acc =>
    match acc.1[i]? with
    | none => .ok acc
    | some s => do
        let acc ← closureStep V acc s
        closurePass turns (i + 1) acc

/-- `closure`, the loop `do … while (added)`. -/
def closure : Nat → List Nat → Checked Unit (List Nat)
  | 0, _ => .stuck
  | turns + 1, set => do
      let (set, added) ← closurePass V (SET_MAX + 1) 0 (set, false)
      if added then closure turns set else return set

/-- Add the target of a match, as far as 510. -/
def addTarget (next : List Nat) (target : Nat) : List Nat :=
  if target ∉ next ∧ next.length < 510 then next ++ [target] else next

/-- The body of a `STAR` state, added without a look at 510. -/
def addBody (next : List Nat) (body : Nat) : Checked Unit (List Nat) := do
  let inside ← V.below body
  if inside ∧ body ∉ next then pushState next body else return next

/-- What a state adds to the next set on the character `c`. -/
def stepState (icase : Bool) (c : Int) (next : List Nat) (s : Nat) : Checked Unit (List Nat) := do
  let st ← V.state s
  match st.type with
  | .CHAR =>
    if st.c = c ∨ (icase ∧ tolower st.c = c) then return addTarget next st.out else return next
  | .DOT => if c ≠ 10 then return addTarget next st.out else return next
  | .SET => if st.charset.testBit c.toNat then return addTarget next st.out else return next
  | .STAR => do
      let next ← addBody V next st.out
      if next.length < 510 then return next ++ [s] else return next
  | _ => return next

/-- `for (int p = pos; p < slen; p++)`: where the match ends. -/
def matchRun (accept : Nat) : Bytes → Nat → List Nat → Checked Unit (Option Nat)
  | [], _, _ => .ok none
  | ch :: str, p, cur => do
      let icase ← V.icase
      let c : Int := if icase then tolower ch.toNat else ch.toNat
      let next ← cur.foldlM (stepState V icase c) []
      let next ← closure V (SET_MAX + 2) next
      if accept ∈ next then return some (p + 1) else matchRun accept str (p + 1) next

/-- A turn of the loop over the positions: `rm_so` and `rm_eo` of a match that begins here. -/
def matchAt (start accept : Nat) (str : Bytes) (pos : Nat) :
    Checked Unit (Option (Nat × Nat)) := do
  let cur ← closure V (SET_MAX + 2) [start]
  if accept ∈ cur then return some (pos, pos)
  else
    let found ← matchRun V accept str pos cur
    return found.map fun eo => (pos, eo)

/-- `for (int pos = 0; pos <= slen; pos++)`. -/
def matchFrom (start accept eflags : Nat) : Bytes → Nat → Checked Unit (Option (Nat × Nat))
  | [], pos =>
    if 0 < pos ∧ eflags &&& REG_NOTBOL ≠ 0 then .ok none else matchAt V start accept [] pos
  | ch :: str, pos =>
    if 0 < pos ∧ eflags &&& REG_NOTBOL ≠ 0 then .ok none
    else do
      let found ← matchAt V start accept (ch :: str) pos
      if found.isSome then return found else matchFrom start accept eflags str (pos + 1)

/-- `regexec` through a view: the code that is returned and `pmatch[0]` where it is written. -/
def regexecView (preg : RegexT) (str : Bytes) (eflags : Nat) :
    Checked Unit (Nat × Option (Nat × Nat)) :=
  match preg.opaquePtr with
  | none => .fault
  | some (start, accept) => do
      let found ← matchFrom V start accept eflags str 0
      return (if found.isSome then 0 else REG_NOMATCH, found)

end matcher

/-- `regexec`. -/
def regexec (file : RegexFile) (preg : RegexT) (str : Bytes) (eflags : Nat) :
    Checked Unit (Nat × Option (Nat × Nat)) :=
  regexecView file.view preg str eflags

/-! ### Every compilation ends -/

/-- What a part of the parser does: it reads on, the table grows, an error stays, and without one
    the fragment begins with a state of the table. -/
structure Parsed (σ : RegexParse) (r : NfaFrag × RegexParse) : Prop where
  rp : r.2.rp.length ≤ σ.rp.length
  states : σ.states.length ≤ r.2.states.length
  error : σ.errcode ≠ 0 → r.2.errcode ≠ 0
  start : r.2.errcode = 0 → r.1.start < r.2.states.length

/-- A part of the parser that reads on at a character. -/
structure Reads (σ : RegexParse) (r : NfaFrag × RegexParse) : Prop extends Parsed σ r where
  reads : σ.peek ≠ 0 → σ.peek ≠ 124 → r.2.rp.length < σ.rp.length

@[simp] theorem allocState_snd (σ : RegexParse) (s : NfaState) :
    (σ.allocState s).2 = σ.states.length := rfl

@[simp] theorem allocState_states (σ : RegexParse) (s : NfaState) :
    (σ.allocState s).1.states = σ.states ++ [s] := rfl

@[simp] theorem allocState_rp (σ : RegexParse) (s : NfaState) : (σ.allocState s).1.rp = σ.rp := rfl

@[simp] theorem allocState_errcode (σ : RegexParse) (s : NfaState) :
    (σ.allocState s).1.errcode = σ.errcode := rfl

theorem skip_lt {σ : RegexParse} (h : σ.peek ≠ 0) : σ.skip.rp.length < σ.rp.length := by
  unfold RegexParse.peek at h
  unfold RegexParse.skip
  match hrp : σ.rp with
  | [] => rw [hrp] at h; exact absurd rfl h
  | c :: rp => simp

theorem skip_le (σ : RegexParse) : σ.skip.rp.length ≤ σ.rp.length := by
  simp [RegexParse.skip]

/-- Patching changes no length. -/
theorem patch_ends (σ : RegexParse) (list : List Nat) (s : Nat) :
    (σ.patch list s).Ends fun σ' => σ'.rp = σ.rp ∧ σ'.errcode = σ.errcode ∧
      σ'.states.length = σ.states.length := by
  unfold RegexParse.patch
  refine (Ends.foldlM (I := fun states : List NfaState => states.length = σ.states.length) list
    (fun states i h => ?_) rfl).bind fun states h => Ends.ok ⟨rfl, rfl, h⟩
  unfold setOut
  split
  · exact Ends.ok (by rw [List.length_modify, h])
  · exact Ends.fault

/-- A fragment of one state. -/
theorem single_parsed {σ σ' : RegexParse} (s : NfaState) (hrp : σ'.rp.length ≤ σ.rp.length)
    (hstates : σ.states.length ≤ σ'.states.length) (herror : σ'.errcode = σ.errcode) :
    Parsed σ (σ'.single s) where
  rp := hrp
  states := by
    show _ ≤ (σ'.states ++ [s]).length
    rw [List.length_append]
    omega
  error h := by
    show σ'.errcode ≠ 0
    rwa [herror]
  start _ := by
    show σ'.states.length < (σ'.states ++ [s]).length
    simp

/-- An error. -/
theorem error_parsed {σ σ' : RegexParse} {e : Nat} (he : e ≠ 0)
    (hrp : σ'.rp.length ≤ σ.rp.length) (hstates : σ.states.length ≤ σ'.states.length) :
    Parsed σ (σ'.error e) where
  rp := hrp
  states := hstates
  error _ := he
  start h := absurd h he

theorem takeChar_ends (rp : Bytes) :
    (takeChar rp).Ends fun r => r.2.length < rp.length := by
  match rp with
  | [] => exact Ends.fault
  | c :: rp => exact Ends.ok (Nat.lt_succ_self _)

/-- The loop over a bracket expression ends: every turn takes a character. -/
theorem bracketLoop_ends (turns : Nat) {rp : Bytes} (hturns : rp.length < turns) (charset : Nat) :
    (bracketLoop turns rp charset).Ends fun r => r.2.length ≤ rp.length := by
  induction turns generalizing rp charset with
  | zero => omega
  | succ turns ih =>
    rw [bracketLoop]
    split
    · exact Ends.ok (Nat.le_refl _)
    · have hskip : (if rp.headD 0 = 92 then rp.tail else rp).length ≤ rp.length := by
        split <;> simp
      refine (takeChar_ends _).bind fun r hr => ?_
      obtain ⟨c1, rp1⟩ := r
      dsimp only at hr ⊢
      split
      · refine (takeChar_ends _).bind fun r' hr' => ?_
        obtain ⟨c2, rp2⟩ := r'
        have htail : rp1.tail.length ≤ rp1.length := by simp
        dsimp only at hr' ⊢
        exact (ih (by omega) _).mono fun _ h => by omega
      · exact (ih (by omega) _).mono fun _ h => by omega

theorem parseBracket_ends (σ : RegexParse) : (parseBracket σ).Ends (Parsed σ) := by
  unfold parseBracket
  dsimp only
  generalize hneg : (if decide (σ.peek = 94) = true then σ.rp.tail else σ.rp) = rp
  have hrp : rp.length ≤ σ.rp.length := by
    rw [← hneg]
    split <;> simp
  generalize hopen : (if rp.headD 0 = 93 then (charsetAdd 0 0, rp.tail) else (0, rp)) = opened
  have hopened : opened.2.length ≤ rp.length := by
    rw [← hopen]
    split <;> simp
  refine (bracketLoop_ends _ (Nat.lt_succ_self _) opened.1).bind fun r hr => ?_
  split
  · exact Ends.ok (error_parsed (by decide) (by dsimp only; omega) (Nat.le_refl _))
  · refine Ends.ok (single_parsed _ ?_ (Nat.le_refl _) rfl)
    refine Nat.le_trans (skip_le _) ?_
    dsimp only
    omega

theorem parseLiteral_reads (σ : RegexParse) : Reads σ (parseLiteral σ) := by
  have hreads : σ.peek ≠ 0 → σ.peek ≠ 124 → (parseLiteral σ).2.rp.length < σ.rp.length := by
    intro h _
    have hlt := skip_lt h
    unfold parseLiteral
    dsimp only
    split_ifs <;> exact hlt
  refine ⟨?_, hreads⟩
  unfold parseLiteral
  dsimp only
  split_ifs
  · exact single_parsed _ (skip_le σ) (Nat.le_refl _) rfl
  · exact single_parsed _ (skip_le σ) (Nat.le_refl _) rfl
  · exact error_parsed (by decide) (skip_le σ) (Nat.le_refl _)
  · exact single_parsed _ (skip_le σ) (Nat.le_refl _) rfl

/-- Behind a fragment, a part of the parser that keeps what has been parsed. -/
theorem Parsed.trans {σ : RegexParse} {r r' : NfaFrag × RegexParse} (h : Parsed σ r)
    (hrp : r'.2.rp.length ≤ r.2.rp.length) (hstates : r.2.states.length ≤ r'.2.states.length)
    (herror : r.2.errcode ≠ 0 → r'.2.errcode ≠ 0)
    (hstart : r'.2.errcode = 0 → r'.1.start < r'.2.states.length) : Parsed σ r' where
  rp := Nat.le_trans hrp h.rp
  states := Nat.le_trans h.states hstates
  error he := herror (h.error he)
  start := hstart

theorem parseRepeat_ends {σ : RegexParse} {r : NfaFrag × RegexParse} (h : Reads σ r) :
    (parseRepeat r.1 r.2).Ends (Reads σ) := by
  unfold parseRepeat
  -- patching an allocated table, the last step of each operator
  have hpatched : ∀ (σ₁ : RegexParse) (f : NfaFrag) (s : Nat),
      σ₁.rp.length ≤ r.2.rp.length → r.2.states.length ≤ σ₁.states.length →
      σ₁.errcode = r.2.errcode → (r.2.errcode = 0 → f.start < σ₁.states.length) →
      (do
        let σ ← σ₁.patch r.1.out s
        return (f, σ) : Checked Unit (NfaFrag × RegexParse)).Ends (Reads σ) := by
    intro σ₁ f s hrp hstates herr hstart
    refine (patch_ends σ₁ r.1.out s).bind fun σ' hσ' => Ends.ok ⟨?_, fun h0 h124 => ?_⟩
    · refine h.toParsed.trans ?_ ?_ ?_ ?_
      · rw [hσ'.1]; exact hrp
      · rw [hσ'.2.2]; exact hstates
      · rw [hσ'.2.1, herr]; exact id
      · rw [hσ'.2.1, hσ'.2.2, herr]; exact hstart
    · dsimp only
      rw [hσ'.1]
      exact Nat.lt_of_le_of_lt hrp (h.reads h0 h124)
  split
  · dsimp only
    have hskip := skip_le r.2
    split
    · refine hpatched _ _ _ hskip (by simp [RegexParse.skip]) rfl fun _ => ?_
      simp
    · split
      · refine hpatched _ _ _ hskip (by simp [RegexParse.skip]) rfl fun herr => ?_
        have := h.start herr
        simp [RegexParse.skip]
        omega
      · refine hpatched _ _ _ hskip (by simp [RegexParse.skip]) rfl fun _ => ?_
        simp
  · exact Ends.ok h

theorem concatFrag_ends {σ : RegexParse} {f g : NfaFrag} {σ₁ : RegexParse}
    (h : σ₁.rp.length ≤ σ.rp.length ∧ σ.states.length ≤ σ₁.states.length ∧
      (σ.errcode ≠ 0 → σ₁.errcode ≠ 0)) :
    (concatFrag f g σ₁).Ends fun r => Parsed σ r ∧ r.2.rp = σ₁.rp := by
  unfold concatFrag
  dsimp only
  match f.out with
  | [] => exact Ends.fault
  | i :: out =>
    refine (patch_ends _ _ _).bind fun σ' hσ' => Ends.ok ⟨⟨?_, ?_, ?_, fun _ => ?_⟩, hσ'.1⟩
    · rw [hσ'.1]
      exact h.1
    · rw [hσ'.2.2]
      simp
      omega
    · rw [hσ'.2.1]
      exact h.2.2
    · rw [hσ'.2.2]
      simp

/-- The turns of the parser suffice: each level of `parse_atom` and each turn of the loop takes a
    character, and uses four turns at most. -/
theorem parse_ends (turns : Nat) :
    (∀ σ : RegexParse, 4 * σ.rp.length + 4 ≤ turns → (parseBranch turns σ).Ends (Parsed σ)) ∧
      (∀ (σ₀ : RegexParse) (f : NfaFrag) (σ : RegexParse), Parsed σ₀ (f, σ) →
        4 * σ.rp.length + 3 ≤ turns → (branchLoop turns f σ).Ends (Parsed σ₀)) ∧
      (∀ σ : RegexParse, 4 * σ.rp.length + 2 ≤ turns → (parsePiece turns σ).Ends (Reads σ)) ∧
      (∀ σ : RegexParse, 4 * σ.rp.length + 1 ≤ turns → (parseAtom turns σ).Ends (Reads σ)) := by
  induction turns with
  | zero =>
    refine ⟨fun σ h => ?_, fun _ _ σ _ h => ?_, fun σ h => ?_, fun σ h => ?_⟩ <;> omega
  | succ turns ih =>
    obtain ⟨ihBranch, ihLoop, ihPiece, ihAtom⟩ := ih
    refine ⟨fun σ h => ?_, fun σ₀ f σ hf h => ?_, fun σ h => ?_, fun σ h => ?_⟩
    · rw [parseBranch]
      refine (ihPiece σ (by omega)).bind fun r hr => ihLoop σ r.1 r.2 hr.toParsed ?_
      have := hr.rp
      omega
    · rw [branchLoop]
      split
      next => exact Ends.ok hf
      next hstop =>
        have h0 : σ.peek ≠ 0 := fun h => hstop (Or.inl h)
        have h124 : σ.peek ≠ 124 := fun h => hstop (Or.inr (Or.inl h))
        refine (ihPiece σ (by omega)).bind fun r hr => ?_
        have hlt := hr.reads h0 h124
        have hle : σ.rp.length ≤ σ₀.rp.length := hf.rp
        have hst : σ₀.states.length ≤ σ.states.length := hf.states
        have hconcat := @concatFrag_ends σ₀ f r.1 r.2 ⟨by omega, Nat.le_trans hst hr.states,
          fun he => hr.error (hf.error he)⟩
        refine hconcat.bind fun r' hr' => ?_
        refine ihLoop σ₀ r'.1 r'.2 hr'.1 ?_
        rw [hr'.2]
        omega
    · rw [parsePiece]
      exact (ihAtom σ (by omega)).bind fun r hr => parseRepeat_ends hr
    · rw [parseAtom]
      have hskip := skip_le σ
      split
      next h0 =>
        exact Ends.ok ⟨error_parsed (by decide) (Nat.le_refl _) (Nat.le_refl _),
          fun h => absurd h0 h⟩
      next h0 =>
      have hlt := skip_lt h0
      split
      · refine (ihBranch σ.skip (by omega)).bind fun r hr => ?_
        have hrp := hr.rp
        have hskip' := skip_le r.2
        have hparen : REG_EPAREN ≠ 0 := by decide
        dsimp only
        split
        · exact Ends.ok ⟨⟨by dsimp only; omega, hr.states, hr.error, hr.start⟩,
            fun _ _ => by dsimp only; omega⟩
        · exact Ends.ok ⟨⟨by dsimp only; omega, hr.states, fun _ => hparen,
            fun h => absurd h hparen⟩, fun _ _ => by dsimp only; omega⟩
      · split
        next h124 =>
          exact Ends.ok ⟨single_parsed _ (Nat.le_refl _) (Nat.le_refl _) rfl,
            fun _ h => absurd h124 h⟩
        next =>
        split
        · exact Ends.ok ⟨single_parsed _ hskip (Nat.le_refl _) rfl, fun _ _ => hlt⟩
        · split
          · refine (parseBracket_ends σ.skip).mono fun r hr => ⟨⟨?_, hr.states, hr.error,
              hr.start⟩, fun _ _ => ?_⟩
            · exact Nat.le_trans hr.rp hskip
            · exact Nat.lt_of_le_of_lt hr.rp hlt
          · split
            · dsimp only
              split
              · exact Ends.ok ⟨error_parsed (by decide) hskip (Nat.le_refl _), fun _ _ => hlt⟩
              · have hskip' := skip_le σ.skip
                exact Ends.ok ⟨single_parsed _ (Nat.le_trans hskip' hskip) (Nat.le_refl _) rfl,
                  fun _ _ => Nat.lt_of_le_of_lt hskip' hlt⟩
            · exact Ends.ok (parseLiteral_reads σ)

theorem parseBranch_ends (σ : RegexParse) :
    (parseBranch (4 * σ.rp.length + 4) σ).Ends (Parsed σ) :=
  (parse_ends _).1 σ (Nat.le_refl _)

theorem alternLoop_ends (turns : Nat) {σ₀ : RegexParse} {f : NfaFrag} {σ : RegexParse}
    (hf : Parsed σ₀ (f, σ)) (hturns : σ.rp.length < turns) :
    (alternLoop turns f σ).Ends (Parsed σ₀) := by
  induction turns generalizing f σ with
  | zero => omega
  | succ turns ih =>
    rw [alternLoop]
    split
    next hbar =>
      have hlt : σ.skip.rp.length < σ.rp.length := skip_lt (by rw [hbar]; decide)
      refine (parseBranch_ends σ.skip).bind fun r hr => ?_
      have hrp := hr.rp
      have hle : σ.rp.length ≤ σ₀.rp.length := hf.rp
      have hst : σ₀.states.length ≤ σ.states.length := hf.states
      have hrs : σ.states.length ≤ r.2.states.length := hr.states
      dsimp only
      refine (patch_ends _ _ _).bind fun σ₁ h₁ => (patch_ends _ _ _).bind fun σ₂ h₂ => ?_
      refine ih ⟨?_, ?_, fun he => ?_, fun _ => ?_⟩ ?_
      · dsimp only
        rw [h₂.1, h₁.1]
        dsimp only [allocState_rp]
        omega
      · dsimp only
        rw [h₂.2.2, h₁.2.2]
        simp
        omega
      · dsimp only
        rw [h₂.2.1, h₁.2.1]
        exact hr.error (hf.error he)
      · dsimp only
        rw [h₂.2.2, h₁.2.2]
        simp
      · rw [h₂.1, h₁.1]
        dsimp only [allocState_rp]
        omega
    next => exact Ends.ok hf

theorem parsePattern_ends (σ : RegexParse) : (parsePattern σ).Ends (Parsed σ) := by
  unfold parsePattern
  split
  · exact Ends.ok (single_parsed _ (Nat.le_refl _) (Nat.le_refl _) rfl)
  · exact (parseBranch_ends σ).bind fun r hr => alternLoop_ends _ hr (Nat.lt_succ_self _)

/-- **Every compilation ends**, and an expression begins with a state before the accepting one. -/
theorem regcomp_ends (file : RegexFile) (pattern : Bytes) (cflags : Nat) :
    (regcomp file pattern cflags).Ends fun r =>
      ∀ start accept, r.2.1.opaquePtr = some (start, accept) → start < accept := by
  unfold regcomp
  dsimp only
  refine (parsePattern_ends _).bind fun r hr => ?_
  split
  next => exact Ends.ok nofun
  next herr =>
    refine (patch_ends _ _ _).bind fun σ' _ => Ends.ok ?_
    rintro start accept ⟨⟩
    exact hr.start (by simpa using herr)

/-! ### What a match reads of the variables -/

section upTo

/-- `V` answers as `W` does, or not at all. -/
structure RegexView.UpTo (V W : RegexView) : Prop where
  state : ∀ s, Checked.UpTo (V.state s) (W.state s)
  below : ∀ s, Checked.UpTo (V.below s) (W.below s)
  icase : Checked.UpTo V.icase W.icase

variable {V W : RegexView}

theorem closureStep_upTo (h : V.UpTo W) (acc : List Nat × Bool) (s : Nat) :
    UpTo (closureStep V acc s) (closureStep W acc s) := by
  refine (h.below s).bind fun inside => UpTo.ite ?_ (UpTo.refl _)
  refine (h.state s).bind fun st => UpTo.foldlM _ (fun acc ns => ?_) acc
  refine UpTo.ite (UpTo.refl _) ?_
  exact (h.below ns).bind fun inside => UpTo.refl _

theorem closure_upTo (h : V.UpTo W) (turns : Nat) (set : List Nat) :
    UpTo (closure V turns set) (closure W turns set) := by
  have hpass : ∀ (turns i : Nat) (acc : List Nat × Bool),
      UpTo (closurePass V turns i acc) (closurePass W turns i acc) := by
    intro turns
    induction turns with
    | zero => exact fun _ _ => UpTo.refl _
    | succ turns ih =>
      intro i acc
      rw [closurePass, closurePass]
      cases acc.1[i]? with
      | none => exact UpTo.refl _
      | some s => exact (closureStep_upTo h acc s).bind fun acc' => ih (i + 1) acc'
  induction turns generalizing set with
  | zero => exact UpTo.refl _
  | succ turns ih =>
    rw [closure, closure]
    exact (hpass _ _ _).bind fun acc => UpTo.ite (ih acc.1) (UpTo.refl _)

theorem stepState_upTo (h : V.UpTo W) (icase : Bool) (c : Int) (next : List Nat) (s : Nat) :
    UpTo (stepState V icase c next s) (stepState W icase c next s) := by
  refine (h.state s).bind fun st => ?_
  cases st.type with
  | STAR =>
    refine UpTo.bind ?_ fun next' => UpTo.refl _
    exact (h.below st.out).bind fun inside => UpTo.refl _
  | _ => exact UpTo.refl _

theorem matchRun_upTo (h : V.UpTo W) (accept : Nat) (str : Bytes) (p : Nat) (cur : List Nat) :
    UpTo (matchRun V accept str p cur) (matchRun W accept str p cur) := by
  induction str generalizing p cur with
  | nil => exact UpTo.refl _
  | cons ch str ih =>
    rw [matchRun, matchRun]
    refine h.icase.bind fun icase => ?_
    refine (UpTo.foldlM cur (fun next s => stepState_upTo h icase _ next s) []).bind fun next => ?_
    exact (closure_upTo h _ next).bind fun next' => UpTo.ite (UpTo.refl _) (ih _ _)

theorem matchFrom_upTo (h : V.UpTo W) (start accept eflags : Nat) (str : Bytes) (pos : Nat) :
    UpTo (matchFrom V start accept eflags str pos) (matchFrom W start accept eflags str pos) := by
  have hat : ∀ (str : Bytes) (pos : Nat),
      UpTo (matchAt V start accept str pos) (matchAt W start accept str pos) := fun str pos =>
    (closure_upTo h _ _).bind fun cur =>
      UpTo.ite (UpTo.refl _) ((matchRun_upTo h accept str pos cur).bind fun found => UpTo.refl _)
  induction str generalizing pos with
  | nil => exact UpTo.ite (UpTo.refl _) (hat [] pos)
  | cons ch str ih =>
    exact UpTo.ite (UpTo.refl _)
      ((hat _ pos).bind fun found => UpTo.ite (UpTo.refl _) (ih (pos + 1)))

/-- **A match is the same match** for a view that answers what it asks in the same way. -/
theorem regexec_upTo (h : V.UpTo W) (preg : RegexT) (str : Bytes) (eflags : Nat) :
    UpTo (regexecView V preg str eflags) (regexecView W preg str eflags) := by
  unfold regexecView
  match preg.opaquePtr with
  | none => exact UpTo.refl _
  | some (start, accept) =>
    exact (matchFrom_upTo h start accept eflags str 0).bind fun found => UpTo.refl _

end upTo

/-! ### Two expressions -/

/-- The answers that the variables give before and after a compilation. -/
def RegexFile.common (file file' : RegexFile) : RegexView where
  state s := agreed (file.view.state s) (file'.view.state s)
  below s := agreed (file.view.below s) (file'.view.below s)
  icase := agreed file.view.icase file'.view.icase

/-- `regexec` reads nothing of the variables that has changed from `file` to `file'`: no state, no
    comparison with `nstates` and no flag. -/
def ReadsUnchanged (file file' : RegexFile) (preg : RegexT) (str : Bytes) (eflags : Nat) : Prop :=
  regexecView (file.common file') preg str eflags ≠ .fail ()

theorem RegexFile.common_upTo_left (file file' : RegexFile) :
    (file.common file').UpTo file.view where
  state _ := agreed_upTo_left _ _
  below _ := agreed_upTo_left _ _
  icase := agreed_upTo_left _ _

theorem RegexFile.common_upTo_right (file file' : RegexFile) :
    (file.common file').UpTo file'.view where
  state _ := agreed_upTo_right _ _
  below _ := agreed_upTo_right _ _
  icase := agreed_upTo_right _ _

theorem regcomp_resets (file file' : RegexFile) (pattern : Bytes) (cflags : Nat) :
    regcomp file pattern cflags = regcomp file' pattern cflags := rfl

/-- `regcomp(&rp, p, cp); regexec(&rp, s, eflags)`, and with `regcomp(&rq, q, cq)` in between. -/
def execFirst (p : Bytes) (cp : Nat) (str : Bytes) (eflags : Nat) :
    Checked Unit (Nat × Option (Nat × Nat)) := do
  let compiled ← regcomp {} p cp
  regexec compiled.1 compiled.2.1 str eflags

def execBetween (p : Bytes) (cp : Nat) (q : Bytes) (cq : Nat) (str : Bytes) (eflags : Nat) :
    Checked Unit (Nat × Option (Nat × Nat)) := do
  let compiled ← regcomp {} p cp
  let compiled' ← regcomp compiled.1 q cq
  regexec compiled'.1 compiled.2.1 str eflags

/-- The second compilation returns, and has changed nothing that the match reads. -/
def Undisturbed (p : Bytes) (cp : Nat) (q : Bytes) (cq : Nat) (str : Bytes) (eflags : Nat) : Prop :=
  ∀ file re code, regcomp {} p cp = .ok (file, re, code) →
    ∃ file' re' code', regcomp file q cq = .ok (file', re', code') ∧
      ReadsUnchanged file file' re str eflags

/-- A second compilation that has changed nothing that is read does no harm. -/
theorem execBetween_of_undisturbed {p q str : Bytes} {cp cq eflags : Nat}
    (h : Undisturbed p cp q cq str eflags) :
    execBetween p cp q cq str eflags = execFirst p cp str eflags := by
  unfold execBetween execFirst
  match hp : regcomp {} p cp with
  | .ok (file, re, code) =>
    obtain ⟨file', re', code', hq, hun⟩ := h file re code hp
    have hleft := (regexec_upTo (file.common_upTo_left file') re str eflags).eq hun
    have hright := (regexec_upTo (file.common_upTo_right file') re str eflags).eq hun
    rw [ok_bind, ok_bind]
    dsimp only
    rw [hq, ok_bind]
    exact hright.symm.trans hleft
  | .fail e => rfl
  | .fault => rfl
  | .stuck => rfl

theorem regcomp_paren (file : RegexFile) (cflags : Nat) :
    regcomp file [40] cflags = .ok ({ rflags := cflags }, {}, REG_EPAREN) := rfl

/-- Without states, a closure is the state it begins with. -/
theorem closure_of_no_states {file : RegexFile} (h : file.states = []) (start : Nat) :
    closure file.view (SET_MAX + 2) [start] = .ok [start] := by
  have hstep : closureStep file.view ([start], false) start = .ok ([start], false) := by
    unfold closureStep RegexFile.view
    simp [h]
  have hpass : closurePass file.view (SET_MAX + 1) 0 ([start], false) = .ok ([start], false) := by
    rw [closurePass]
    show (do
      let acc ← closureStep file.view ([start], false) start
      closurePass file.view SET_MAX (0 + 1) acc) = _
    rw [hstep]
    rfl
  rw [closure, hpass]
  rfl

/-- Without states, a match looks at a null pointer for the first character. -/
theorem regexec_of_no_states {file : RegexFile} (h : file.states = []) {re : RegexT}
    (hre : ∀ start accept, re.opaquePtr = some (start, accept) → start < accept) {str : Bytes}
    (hstr : str ≠ []) (eflags : Nat) : regexec file re str eflags = .fault := by
  unfold regexec regexecView
  match hptr : re.opaquePtr, str, hstr with
  | none, _, _ => rfl
  | some (start, accept), ch :: str, _ =>
    have hlt := hre start accept hptr
    have hrun : matchRun file.view accept (ch :: str) 0 [start] = .fault := by
      have hread : file.view.state start = .fault := by
        unfold RegexFile.view
        simp [h]
      have hstep : ∀ icase c, stepState file.view icase c [] start = .fault := by
        intro icase c
        unfold stepState
        rw [hread]
        rfl
      rw [matchRun]
      change (Checked.ok _ >>= _) = _
      rw [ok_bind]
      dsimp only
      rw [List.foldlM_cons, hstep]
      rfl
    have hat : matchAt file.view start accept (ch :: str) 0 = .fault := by
      unfold matchAt
      rw [closure_of_no_states h, ok_bind, if_neg (by simp; omega), hrun]
      rfl
    dsimp only
    rw [matchFrom, if_neg (by simp), hat]
    rfl

/-- **No expression is independent.**  Where the second compilation returns and has changed nothing
    that the match reads of the variables of the file, the match is as before.  But every match on a
    text that is not empty breaks when `(` is compiled before it, which fails and leaves nothing. -/
theorem regexec_independent (p str : Bytes) (cp eflags : Nat) :
    (∀ q cq, Undisturbed p cp q cq str eflags →
      execBetween p cp q cq str eflags = execFirst p cp str eflags) ∧
    (∀ file re r, str ≠ [] → regcomp {} p cp = .ok (file, re, 0) →
      execFirst p cp str eflags = .ok r → ∀ cq,
        execBetween p cp [40] cq str eflags = .fault ∧
          execBetween p cp [40] cq str eflags ≠ execFirst p cp str eflags) := by
  refine ⟨fun q cq h => execBetween_of_undisturbed h, fun file re r hstr hp hfirst cq => ?_⟩
  have hlt := (regcomp_ends {} p cp).2 _ hp
  have hfault : execBetween p cp [40] cq str eflags = .fault := by
    unfold execBetween
    rw [hp, ok_bind]
    dsimp only
    rw [regcomp_paren, ok_bind]
    exact regexec_of_no_states rfl hlt hstr eflags
  refine ⟨hfault, ?_⟩
  rw [hfault, hfirst]
  nofun

/-- Compiling `a` again does no harm to the first expression for it, compiling `(` does. -/
theorem regexec_independent_again :
    Undisturbed [97] 0 [97] 0 [97] 0 ∧
      execBetween [97] 0 [97] 0 [97] 0 = execFirst [97] 0 [97] 0 ∧
      execBetween [97] 0 [40] 0 [97] 0 = .fault := by
  have hcomp : ∀ file, regcomp file [97] 0 =
      .ok ({ states := [{ type := .CHAR, c := 97, out := 1 }, { type := .CHAR, c := -1 }] },
        { opaquePtr := some (0, 1) }, 0) := fun file =>
    (regcomp_resets file {} [97] 0).trans (by decide)
  have hun : Undisturbed [97] 0 [97] 0 [97] 0 := by
    intro file re code h
    rw [hcomp] at h
    cases h
    refine ⟨_, _, _, hcomp _, ?_⟩
    unfold ReadsUnchanged
    decide
  have hfirst : execFirst [97] 0 [97] 0 = .ok (0, some (0, 1)) := by decide
  obtain ⟨hsame, hbreak⟩ := regexec_independent [97] [97] 0 0
  exact ⟨hun, hsame [97] 0 hun, (hbreak _ _ _ (by decide) (hcomp {}) hfirst 0).1⟩

/-- After `b` has been compiled, the expression for `a` does not match `a`. -/
theorem regexec_not_independent :
    ¬ ∀ p cp q cq str eflags, execBetween p cp q cq str eflags = execFirst p cp str eflags := by
  intro h
  have hbetween : execBetween [97] 0 [98] 0 [97] 0 = .ok (REG_NOMATCH, none) := by decide
  have hfirst : execFirst [97] 0 [97] 0 = .ok (0, some (0, 1)) := by decide
  have := h [97] 0 [98] 0 [97] 0
  rw [hbetween, hfirst] at this
  exact absurd this (by decide)

end MeuOS.Libc
