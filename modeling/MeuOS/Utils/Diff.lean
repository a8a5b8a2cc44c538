import MeuOS.Lib.Decimal
import MeuOS.Lib.EditScript
import Mathlib.Data.List.TakeWhile

namespace MeuOS.Utils

open MeuOS.Lib List

/-!
# diff (`utils/text/diff.c`)

Lines are byte strings without their newline.

* `computeDiff` — the edit script, read off a table of longest common subsequences; it makes the
  second list out of the first (`computeDiff_olds`, `computeDiff_news`) whatever the table holds;
* `unifiedWindows`, `outputUnified` — the hunks of the unified format and their text;
* `unifiedWindows_tile` — hunks that do not overlap cover every change.
-/

/-- `diff_op_t`; `type` is `=`, `-` or `+`. -/
structure DiffOp where
  type : EditKind
  line : Bytes
  a_line : Nat
  b_line : Nat
  deriving DecidableEq, Repr

/-- An operation as a step of an edit script. -/
def DiffOp.edit (op : DiffOp) : EditKind × Bytes := (op.type, op.line)

/-- Operations as an edit script. -/
def script (ops : List DiffOp) : Edits Bytes := ops.map DiffOp.edit

@[simp] theorem script_append (s t : List DiffOp) : script (s ++ t) = script s ++ script t := by
  simp [script]

/-! ### The edit script -/

/-- The cells `1 …` of a row of the table, for line `a`, from the row before. -/
def dpRow (a : Bytes) : List Bytes → List Nat → Nat → List Nat
  | [], _, _ => []
  | b :: bs, prev, left =>
    let cell := if a = b then prev.headD 0 + 1 else max (prev.tail.headD 0) left
    cell :: dpRow a bs prev.tail cell

/-- The rows of the table from `row` on. -/
def dpRows (B : List Bytes) : List Bytes → List Nat → List (List Nat)
  | [], row => [row]
  | a :: as, row => row :: dpRows B as (0 :: dpRow a B row 0)

/-- `dp`. -/
def dpTable (A B : List Bytes) : List (List Nat) := dpRows B A (replicate (B.length + 1) 0)

/-- `dp[i][j]`. -/
def dpAt (dp : List (List Nat)) (i j : Nat) : Nat := (dp.getD i []).getD j 0

/-- The backtracking of `compute_diff` from `(i, j)`, in at most `n` rounds. -/
def backtrack (A B : List Bytes) (dp : List (List Nat)) : Nat → Nat → Nat → List DiffOp
  | 0, _, _ => []
  | n + 1, i, j =>
    if 0 < i ∧ 0 < j ∧ A.getD (i - 1) [] = B.getD (j - 1) [] then
      ⟨.keep, A.getD (i - 1) [], i, j⟩ :: backtrack A B dp n (i - 1) (j - 1)
    else if 0 < j ∧ (i = 0 ∨ dpAt dp (i - 1) j ≤ dpAt dp i (j - 1)) then
      ⟨.ins, B.getD (j - 1) [], 0, j⟩ :: backtrack A B dp n i (j - 1)
    else if 0 < i then ⟨.del, A.getD (i - 1) [], i, 0⟩ :: backtrack A B dp n (i - 1) j
    else []

/-- `compute_diff`; every round takes a line of one of the lists. -/
def computeDiff (A B : List Bytes) : List DiffOp :=
  (backtrack A B (dpTable A B) (A.length + B.length) A.length B.length).reverse

/-- Line numbers: behind `i` old and `j` new lines, every operation says which line it is about. -/
def Numbered : Nat → Nat → List DiffOp → Prop
  | _, _, [] => True
  | i, j, op :: ops =>
    match op.type with
    | .keep => op.a_line = i + 1 ∧ op.b_line = j + 1 ∧ Numbered (i + 1) (j + 1) ops
    | .del => op.a_line = i + 1 ∧ Numbered (i + 1) j ops
    | .ins => op.b_line = j + 1 ∧ Numbered i (j + 1) ops

variable {ops : List DiffOp} {context k : Nat}

theorem numbered_append {i j : Nat} {s t : List DiffOp} :
    Numbered i j (s ++ t) ↔
      Numbered i j s ∧ Numbered (i + (olds (script s)).length) (j + (news (script s)).length) t := by
  induction s generalizing i j with
  | nil => simp [Numbered, script]
  | cons op s ih =>
    obtain ⟨kind, line, a, b⟩ := op
    cases kind <;>
      simp [Numbered, script, DiffOp.edit, olds, news, ih, Nat.add_assoc, Nat.add_comm, and_assoc]

/-- What the backtracking from `(i, j)` leaves is a script between the first `i` and `j` lines. -/
theorem backtrack_script {A B : List Bytes} {dp : List (List Nat)} {n i j : Nat}
    (hi : i ≤ A.length) (hj : j ≤ B.length) (hn : i + j ≤ n) :
    olds (script (backtrack A B dp n i j).reverse) = A.take i ∧
      news (script (backtrack A B dp n i j).reverse) = B.take j ∧
      Numbered 0 0 (backtrack A B dp n i j).reverse := by
  -- a line behind the first ones
  have htake : ∀ (l : List Bytes) (k : Nat), 0 < k → k ≤ l.length →
      l.take k = l.take (k - 1) ++ [l.getD (k - 1) []] := by
    intro l k hk hlen
    obtain ⟨m, rfl⟩ := Nat.exists_eq_succ_of_ne_zero (Nat.pos_iff_ne_zero.mp hk)
    rw [Nat.succ_sub_one, take_succ_eq_append_getElem (by omega), getD_eq_getElem?_getD,
      getElem?_eq_getElem (by omega), Option.getD_some]
  have hlen : ∀ (l : List Bytes) (k : Nat), k ≤ l.length → (l.take k).length = k := by
    intro l k hk
    rw [length_take, Nat.min_eq_left hk]
  induction n generalizing i j with
  | zero =>
    obtain rfl : i = 0 := by omega
    obtain rfl : j = 0 := by omega
    simp [backtrack, script, Numbered]
  | succ n ih =>
    rw [backtrack]
    split
    next h =>
      obtain ⟨hi0, hj0, heq⟩ := h
      obtain ⟨ho, hw, hnum⟩ := ih (i := i - 1) (j := j - 1) (by omega) (by omega) (by omega)
      rw [reverse_cons, script_append, olds_append, news_append, numbered_append, ho, hw,
        hlen A _ (by omega), hlen B _ (by omega)]
      refine ⟨?_, ?_, hnum, ?_, ?_, trivial⟩
      · rw [htake A i hi0 hi]
        rfl
      · rw [htake B j hj0 hj, ← heq]
        rfl
      · show i = 0 + (i - 1) + 1
        omega
      · show j = 0 + (j - 1) + 1
        omega
    next h =>
      split
      next hins =>
        obtain ⟨ho, hw, hnum⟩ := ih (i := i) (j := j - 1) (by omega) (by omega) (by omega)
        rw [reverse_cons, script_append, olds_append, news_append, numbered_append, ho, hw,
          hlen A _ (by omega), hlen B _ (by omega)]
        refine ⟨append_nil _, ?_, hnum, ?_, trivial⟩
        · rw [htake B j hins.1 hj]
          rfl
        · show j = 0 + (j - 1) + 1
          omega
      next hins =>
        split
        next hi0 =>
          obtain ⟨ho, hw, hnum⟩ := ih (i := i - 1) (j := j) (by omega) (by omega) (by omega)
          rw [reverse_cons, script_append, olds_append, news_append, numbered_append, ho, hw,
            hlen A _ (by omega), hlen B _ (by omega)]
          refine ⟨?_, append_nil _, hnum, ?_, trivial⟩
          · rw [htake A i hi0 hi]
            rfl
          · show i = 0 + (i - 1) + 1
            omega
        next hi0 =>
          -- neither list has a line left
          obtain rfl : i = 0 := by omega
          obtain rfl : j = 0 := by
            by_contra hj0
            exact hins ⟨Nat.pos_of_ne_zero hj0, Or.inl rfl⟩
          simp [script, Numbered]

theorem computeDiff_olds (A B : List Bytes) : olds (script (computeDiff A B)) = A := by
  rw [computeDiff, (backtrack_script le_rfl le_rfl le_rfl).1, take_length]

theorem computeDiff_news (A B : List Bytes) : news (script (computeDiff A B)) = B := by
  rw [computeDiff, (backtrack_script le_rfl le_rfl le_rfl).2.1, take_length]

/-! ### The hunks -/

/-- A `=` operation. -/
def isKeep (op : DiffOp) : Bool := op.type = .keep

/-- The operations of a hunk: from `ctx_start` to `ctx_end`, where the first change is at `start`. -/
structure DiffWindow where
  ctx_start : Nat
  start : Nat
  ctx_end : Nat
  deriving DecidableEq, Repr

/-- One round of `output_unified` from operation `k` on. The lines before the change are left out
when they are all kept ones. -/
def nextWindow (ops : List DiffOp) (context k : Nat) : Option DiffWindow :=
  let start := k + ((ops.drop k).takeWhile isKeep).length
  if ops.length ≤ start then none
  else
    let back := start - context
    let ctx_start := if ((ops.drop back).take (start - back)).all isKeep then start else back
    let stop := start + ((ops.drop start).takeWhile fun op => !isKeep op).length
    some ⟨ctx_start, start, min (stop + context) ops.length⟩

/-- The hunks from operation `k` on, at most `n`. -/
def windowsFrom (ops : List DiffOp) (context : Nat) : Nat → Nat → List DiffWindow
  | 0, _ => []
  | n + 1, k =>
    match nextWindow ops context k with
    | none => []
    | some w => w :: windowsFrom ops context n w.ctx_end

/-- The hunks of `output_unified`; each takes an operation. -/
def unifiedWindows (ops : List DiffOp) (context : Nat) : List DiffWindow :=
  windowsFrom ops context ops.length 0

/-- The operations that a hunk prints. -/
def windowOps (ops : List DiffOp) (w : DiffWindow) : List DiffOp :=
  (ops.drop w.ctx_start).take (w.ctx_end - w.ctx_start)

/-- The start and count of a range in a hunk's header, from the line numbers in it. -/
def lineRange (nums : List Nat) : Nat × Nat :=
  match nums.find? (· ≠ 0) with
  | some start => (start, nums.length)
  | none => (1, 0)

/-- `old_start` and `old_count`. -/
def oldRange (ops : List DiffOp) : Nat × Nat :=
  lineRange ((ops.filter fun op => op.type ≠ .ins).map DiffOp.a_line)

/-- `new_start` and `new_count`. -/
def newRange (ops : List DiffOp) : Nat × Nat :=
  lineRange ((ops.filter fun op => op.type ≠ .del).map DiffOp.b_line)

/-- The header of a hunk, without its newline. -/
def hunkHeader (ops : List DiffOp) : Bytes :=
  [0x40, 0x40, 0x20, 0x2d] ++ decimal (oldRange ops).1 ++ [0x2c] ++ decimal (oldRange ops).2 ++
    [0x20, 0x2b] ++ decimal (newRange ops).1 ++ [0x2c] ++ decimal (newRange ops).2 ++
    [0x20, 0x40, 0x40]

/-- The mark of an operation in a hunk. -/
def EditKind.mark : EditKind → UInt8
  | .keep => 0x20
  | .del => 0x2d
  | .ins => 0x2b

/-- The line of an operation in a hunk, without its newline. -/
def opLine (op : DiffOp) : Bytes := EditKind.mark op.type :: op.line

/-- The text of an operation: changes are in colour when that is on, up to behind the newline. -/
def opText (colored : Bool) (op : DiffOp) : Bytes :=
  match op.type, colored with
  | .del, true => [0x1b, 0x5b, 0x33, 0x31, 0x6d] ++ opLine op ++ [0x0a, 0x1b, 0x5b, 0x30, 0x6d]
  | .ins, true => [0x1b, 0x5b, 0x33, 0x32, 0x6d] ++ opLine op ++ [0x0a, 0x1b, 0x5b, 0x30, 0x6d]
  | _, _ => opLine op ++ [0x0a]

/-- The text of a hunk. -/
def hunkText (colored : Bool) (ops : List DiffOp) : Bytes :=
  hunkHeader ops ++ [0x0a] ++ ops.flatMap (opText colored)

/-- `output_unified`. -/
def outputUnified (ops : List DiffOp) (path_a path_b : Bytes) (context : Nat) (colored : Bool) :
    Bytes :=
  [0x2d, 0x2d, 0x2d, 0x20] ++ path_a ++ [0x0a] ++ [0x2b, 0x2b, 0x2b, 0x20] ++ path_b ++ [0x0a] ++
    (unifiedWindows ops context).flatMap fun w => hunkText colored (windowOps ops w)

/-! ### Hunks that do not overlap -/

/-- A hunk in the script. -/
def windowOf (ops : List DiffOp) (w : DiffWindow) : Window Bytes :=
  ⟨script (ops.take w.start), script (windowOps ops w), script (ops.drop w.ctx_end)⟩

theorem keeps_script (h : ∀ op ∈ ops, isKeep op = true) : Keeps (script ops) := by
  intro e he
  obtain ⟨op, hop, rfl⟩ := mem_map.mp he
  exact of_decide_eq_true (h op hop)

theorem drop_length_takeWhile {α : Type} (p : α → Bool) (l : List α) :
    l.drop (l.takeWhile p).length = l.dropWhile p := by
  calc l.drop (l.takeWhile p).length
      = (l.takeWhile p ++ l.dropWhile p).drop (l.takeWhile p).length := by
        rw [takeWhile_append_dropWhile]
    _ = l.dropWhile p := drop_left

theorem take_length_takeWhile {α : Type} (p : α → Bool) (l : List α) :
    l.take (l.takeWhile p).length = l.takeWhile p := by
  calc l.take (l.takeWhile p).length
      = (l.takeWhile p ++ l.dropWhile p).take (l.takeWhile p).length := by
        rw [takeWhile_append_dropWhile]
    _ = l.takeWhile p := take_left

/-- A round passes kept operations and takes a change. -/
theorem nextWindow_some {w : DiffWindow} (h : nextWindow ops context k = some w) :
    k ≤ w.start ∧ w.start < w.ctx_end ∧ w.ctx_end ≤ ops.length ∧
      ∀ op ∈ (ops.drop k).take (w.start - k), isKeep op = true := by
  rw [nextWindow] at h
  dsimp only at h
  split at h
  · cases h
  next hlt =>
    cases h
    dsimp only
    have hdrop : ops.drop (k + ((ops.drop k).takeWhile isKeep).length) =
        (ops.drop k).dropWhile isKeep := by
      rw [← drop_drop, drop_length_takeWhile]
    -- the operation that the round stops at is a change
    have hstop : 0 < (((ops.drop k).dropWhile isKeep).takeWhile fun op => !isKeep op).length := by
      have hlen : 0 < ((ops.drop k).dropWhile isKeep).length := by
        rw [← hdrop, length_drop]
        omega
      obtain ⟨op, rest, hcons⟩ := exists_cons_of_length_pos hlen
      have hhead := head?_dropWhile_not isKeep (ops.drop k)
      rw [hcons, head?_cons] at hhead
      rw [hcons, takeWhile_cons, if_pos (by simp [hhead])]
      exact Nat.succ_pos _
    rw [hdrop]
    refine ⟨Nat.le_add_right _ _, by omega, Nat.min_le_right _ _, ?_⟩
    rw [Nat.add_sub_cancel_left, take_length_takeWhile]
    intro op hop
    exact mem_takeWhile_imp hop

/-- A round that takes nothing finds only kept operations. -/
theorem nextWindow_none
    (h : nextWindow ops context k = none) : ∀ op ∈ ops.drop k, isKeep op = true := by
  rw [nextWindow] at h
  dsimp only at h
  split at h
  next hle =>
    intro op hop
    have hall : (ops.drop k).takeWhile isKeep = ops.drop k := by
      have hdrop : (ops.drop k).dropWhile isKeep = [] := by
        rw [← drop_length_takeWhile, drop_drop]
        exact drop_eq_nil_of_le hle
      have happ := @List.takeWhile_append_dropWhile _ isKeep (ops.drop k)
      rwa [hdrop, append_nil] at happ
    rw [← hall] at hop
    exact mem_takeWhile_imp hop
  next => cases h

/-- The hunks from `k` on that do not reach back cover every change from there on. -/
theorem windowsFrom_tile {n : Nat} (hn : ops.length - k ≤ n)
    (h : ∀ w ∈ windowsFrom ops context n k, w.ctx_start = w.start) :
    Tiles (script (ops.take k)) (script (ops.drop k))
      ((windowsFrom ops context n k).map (windowOf ops)) := by
  induction n generalizing k with
  | zero =>
    rw [drop_eq_nil_of_le (by omega)]
    exact .done fun e he => absurd he not_mem_nil
  | succ n ih =>
    rw [windowsFrom] at h ⊢
    split
    next hnone => exact .done (keeps_script (nextWindow_none hnone))
    next w hsome =>
      rw [hsome] at h
      dsimp only at h
      obtain ⟨hk, hlt, hend, hkeep⟩ := nextWindow_some hsome
      have hstart := h w mem_cons_self
      have hrest := ih (k := w.ctx_end) (by omega) fun x hx => h x (mem_cons_of_mem _ hx)
      -- the operations up to the end of the hunk
      have hgap : ops.take w.start = ops.take k ++ (ops.drop k).take (w.start - k) := by
        rw [← take_add, Nat.add_sub_cancel' hk]
      have hbody : ops.take w.ctx_end = ops.take w.start ++ windowOps ops w := by
        rw [windowOps, hstart, ← take_add, Nat.add_sub_cancel' hlt.le]
      have hall : ops.drop k =
          (ops.drop k).take (w.start - k) ++ (windowOps ops w ++ ops.drop w.ctx_end) := by
        have hlast : windowOps ops w ++ ops.drop w.ctx_end = ops.drop w.start := by
          rw [windowOps, hstart]
          conv_rhs => rw [← take_append_drop (w.ctx_end - w.start) (ops.drop w.start)]
          rw [drop_drop, Nat.add_sub_cancel' hlt.le]
        have hfirst : (ops.drop k).drop (w.start - k) = ops.drop w.start := by
          rw [drop_drop, Nat.add_sub_cancel' hk]
        rw [hlast, ← hfirst, take_append_drop]
      rw [hbody, hgap, script_append, script_append] at hrest
      rw [hall, script_append, script_append, map_cons, windowOf, hgap, script_append]
      exact .next (keeps_script hkeep) hrest

/-- **Hunks that do not overlap cover every change of the script.** -/
theorem unifiedWindows_tile (h : ∀ w ∈ unifiedWindows ops context, w.ctx_start = w.start) :
    Tiles [] (script ops) ((unifiedWindows ops context).map (windowOf ops)) :=
  windowsFrom_tile (Nat.sub_le _ _) h

end MeuOS.Utils
