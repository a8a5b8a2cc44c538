import MeuOS.Utils.Diff
import MeuOS.Utils.Patch

namespace MeuOS.Utils

open MeuOS.Lib List

/-!
# patch undoes diff

* `parsePatch_diffs` — when every file of a patch receives its own hunks;
* `applyHunk_window` — a hunk whose old lines are found first where they stand does what its window
  of the script does;
* `patch_undoes_diff` — when the hunks make the new text out of the old, and with `-R` the old
  text out of the new.
-/

/-- A line with its newline. -/
def line (l : Bytes) : Bytes := l ++ [0x0a]

/-- Lines as they are read from a file. -/
def textOf (ls : List Bytes) : List Bytes := ls.map line

/-- A line or a name that C functions for lines take as a whole. -/
def Plain (l : Bytes) : Prop := 0 ∉ l ∧ 0x0a ∉ l

instance (l : Bytes) : Decidable (Plain l) := by
  unfold Plain
  infer_instance

/-! ### The lines of a patch -/

/-- A line behind what was read of a token. -/
theorem tokensFrom_line {cur l rest : Bytes} (h : 0x0a ∉ l) (hne : cur ++ l ≠ []) :
    tokensFrom cur (line l ++ rest) = (cur ++ l) :: tokensFrom [] rest := by
  induction l generalizing cur with
  | nil =>
    rw [append_nil] at hne ⊢
    show (if cur.isEmpty then tokensFrom [] rest else cur :: tokensFrom [] rest) = _
    rw [if_neg (by rwa [List.isEmpty_iff])]
  | cons c l ih =>
    obtain ⟨hc, hl⟩ := not_or.mp (fun hmem => h (mem_cons.mpr hmem))
    show (if c = 0x0a then _ else tokensFrom (cur ++ [c]) (line l ++ rest)) = _
    rw [if_neg (fun heq => hc heq.symm), ih hl (by simp), append_assoc]
    rfl

/-- Lines that are not empty are the lines of their text. -/
theorem patchLines_flatMap {ls : List Bytes} (h : ∀ l ∈ ls, Plain l ∧ l ≠ []) :
    patchLines (ls.flatMap line) = ls := by
  -- no NUL ends the text early
  have hwhole : (ls.flatMap line).takeWhile (· ≠ 0) = ls.flatMap line := by
    rw [takeWhile_eq_self_iff]
    intro c hc
    obtain ⟨l, hl, hmem⟩ := mem_flatMap.mp hc
    refine decide_eq_true ?_
    rintro rfl
    obtain hmem | hmem := mem_append.mp hmem
    · exact (h l hl).1.1 hmem
    · exact absurd hmem (by decide)
  rw [patchLines, hwhole]
  clear hwhole
  induction ls with
  | nil => rfl
  | cons l ls ih =>
    obtain ⟨hplain, hne⟩ := h l mem_cons_self
    rw [flatMap_cons, tokensFrom_line hplain.2 (by rwa [nil_append]), nil_append,
      ih fun x hx => h x (mem_cons_of_mem _ hx)]

/-! ### The header of a hunk -/

/-- The value of a number's digits. -/
theorem digitsValue_decimal (n : Nat) : digitsValue (decimal n) = n := by
  have hmap : ∀ (ds : List Nat) (acc : Nat), (∀ d ∈ ds, d < 10) →
      (ds.map digitByte).foldl (fun a (c : UInt8) => a * 10 + (c.toNat - 48)) acc =
        digitsAfter acc ds := by
    intro ds
    induction ds with
    | nil => exact fun acc _ => rfl
    | cons d ds ih =>
      intro acc hds
      rw [map_cons, foldl_cons, digitByte_toNat (hds d mem_cons_self),
        Nat.add_sub_cancel_left, ih _ fun x hx => hds x (mem_cons_of_mem _ hx)]
      rfl
  rw [digitsValue, decimal]
  split
  next h => rw [h]; rfl
  next =>
    rw [hmap _ 0 fun d hd => Nat.digits_lt_base (by omega) (mem_reverse.mp hd),
      digitsAfter_digits]

theorem isDigit_decimal {n : Nat} {c : UInt8} (h : c ∈ decimal n) : isDigit c = true := by
  obtain ⟨h1, h2⟩ := digit_of_mem_decimal h
  rw [isDigit, Bool.and_eq_true, decide_eq_true_iff, decide_eq_true_iff, UInt8.le_iff_toNat_le,
    UInt8.le_iff_toNat_le]
  exact ⟨h1, h2⟩

/-- `%d` reads a number up to a character that is no digit. -/
theorem scanInt_decimal (n : Nat) {x : UInt8} (rest : Bytes) (hx : isDigit x = false) :
    scanInt (decimal n ++ x :: rest) = some ((n : Int), x :: rest) := by
  obtain ⟨d, ds, hcons⟩ := List.exists_cons_of_ne_nil (decimal_ne_nil n)
  have hd : d ∈ decimal n := by rw [hcons]; exact List.mem_cons_self
  have hrange := digit_of_mem_decimal hd
  have hnat : ∀ c : UInt8, c.toNat < 48 → d ≠ c := by
    rintro c hc rfl
    omega
  -- a number starts with no space and no sign
  have hspace : isSpace d = false := by
    rw [isSpace, Bool.or_eq_false_iff, Bool.and_eq_false_iff, decide_eq_false_iff_not,
      decide_eq_false_iff_not, decide_eq_false_iff_not, UInt8.le_iff_toNat_le,
      UInt8.le_iff_toNat_le]
    refine ⟨hnat 0x20 (by decide), Or.inr ?_⟩
    show ¬ d.toNat ≤ 13
    omega
  have hskip : (decimal n ++ x :: rest).dropWhile isSpace = decimal n ++ x :: rest := by
    rw [hcons, List.cons_append, List.dropWhile_cons_of_neg (by rw [hspace]; decide)]
  have hhead : (decimal n ++ x :: rest).head? = some d := by rw [hcons]; rfl
  have hsign : ¬ (some d = some (0x2d : UInt8) ∨ some d = some (0x2b : UInt8)) := by
    rintro (h | h)
    · exact hnat 0x2d (by decide) (Option.some.inj h)
    · exact hnat 0x2b (by decide) (Option.some.inj h)
  have htake : (decimal n ++ x :: rest).takeWhile isDigit = decimal n := by
    rw [List.takeWhile_append_of_pos fun c hc => isDigit_decimal hc,
      List.takeWhile_cons_of_neg (by rw [hx]; decide), List.append_nil]
  have hdrop : (decimal n ++ x :: rest).dropWhile isDigit = x :: rest := by
    rw [List.dropWhile_append_of_pos fun c hc => isDigit_decimal hc,
      List.dropWhile_cons_of_neg (by rw [hx]; decide)]
  rw [scanInt, hskip, hhead, if_neg hsign, htake, hdrop, if_neg, if_neg fun h => hsign (Or.inl h),
    digitsValue_decimal]
  rw [List.isEmpty_iff]
  exact decimal_ne_nil n

theorem sscanf_decimal (f : List ScanItem) (n : Nat) {x : UInt8} (rest : Bytes)
    (hx : isDigit x = false) :
    sscanf (.int :: f) (decimal n ++ x :: rest) = (n : Int) :: sscanf f (x :: rest) := by
  rw [sscanf, scanInt_decimal n rest hx]

/-- The hunk of printed operations. -/
def hunkOf (ops : List DiffOp) : Hunk :=
  ⟨(oldRange ops).1, (oldRange ops).2, (newRange ops).1, (newRange ops).2, ops.map opLine⟩

/-- The header of a hunk is read back. -/
theorem parseHunkHeader_hunkHeader (ops : List DiffOp) :
    parseHunkHeader (hunkHeader ops) = { hunkOf ops with lines := [] } := by
  have hlast : sscanf [.lit 0x2c, .int, .space, .lit 0x40, .lit 0x40]
      ([0x2c] ++ (decimal (newRange ops).2 ++ [0x20, 0x40, 0x40])) = [((newRange ops).2 : Int)] := by
    show sscanf (.int :: _) (decimal (newRange ops).2 ++ 0x20 :: [0x40, 0x40]) = _
    rw [sscanf_decimal _ _ _ (by decide)]
    rfl
  have hnew : sscanf [.space, .lit 0x2b, .int, .lit 0x2c, .int, .space, .lit 0x40, .lit 0x40]
      ([0x20, 0x2b] ++ (decimal (newRange ops).1 ++ ([0x2c] ++
        (decimal (newRange ops).2 ++ [0x20, 0x40, 0x40])))) =
      [((newRange ops).1 : Int), ((newRange ops).2 : Int)] := by
    show sscanf (.int :: _) (decimal (newRange ops).1 ++ 0x2c :: _) = _
    rw [sscanf_decimal _ _ _ (by decide)]
    exact congrArg _ hlast
  have hcount : sscanf [.lit 0x2c, .int, .space, .lit 0x2b, .int, .lit 0x2c, .int, .space,
        .lit 0x40, .lit 0x40]
      ([0x2c] ++ (decimal (oldRange ops).2 ++ ([0x20, 0x2b] ++ (decimal (newRange ops).1 ++
        ([0x2c] ++ (decimal (newRange ops).2 ++ [0x20, 0x40, 0x40])))))) =
      [((oldRange ops).2 : Int), ((newRange ops).1 : Int), ((newRange ops).2 : Int)] := by
    show sscanf (.int :: _) (decimal (oldRange ops).2 ++ 0x20 :: _) = _
    rw [sscanf_decimal _ _ _ (by decide)]
    exact congrArg _ hnew
  have hall : sscanf rangesFormat (hunkHeader ops) =
      [((oldRange ops).1 : Int), ((oldRange ops).2 : Int), ((newRange ops).1 : Int),
        ((newRange ops).2 : Int)] := by
    rw [hunkHeader]
    simp only [append_assoc]
    show sscanf (.int :: _) (decimal (oldRange ops).1 ++ 0x2c :: _) = _
    rw [sscanf_decimal _ _ _ (by decide)]
    exact congrArg _ hcount
  rw [parseHunkHeader, hall]
  rfl

/-! ### The hunks that are read -/

/-- The lines of a hunk. -/
def hunkLines (ops : List DiffOp) : List Bytes := hunkHeader ops :: ops.map opLine

theorem isHunkLine_opLine (op : DiffOp) : isHunkLine (opLine op) = true := by
  obtain ⟨kind, l, a, b⟩ := op
  cases kind <;> rfl

theorem not_isHunkLine_hunkHeader (ops : List DiffOp) : isHunkLine (hunkHeader ops) = false := rfl

/-- **The hunks of a file** are read up to the end of the patch. -/
theorem parseHunks_hunkLines {n : Nat} {hs : List (List DiffOp)} (hn : hs.length ≤ n) :
    parseHunks n (hs.flatMap hunkLines) = (hs.map hunkOf, []) := by
  induction hs generalizing n with
  | nil => cases n <;> rfl
  | cons ops hs ih =>
    obtain _ | n := n
    · cases hn
    -- the operations are hunk lines, and the next header is not
    have hall : ∀ l ∈ ops.map opLine, isHunkLine l = true := by
      intro l hl
      obtain ⟨op, _, rfl⟩ := mem_map.mp hl
      exact isHunkLine_opLine op
    have hstop : (hs.flatMap hunkLines).takeWhile isHunkLine = [] ∧
        (hs.flatMap hunkLines).dropWhile isHunkLine = hs.flatMap hunkLines := by
      obtain _ | ⟨next, hs⟩ := hs
      · exact ⟨rfl, rfl⟩
      · have hnot : ¬ isHunkLine (hunkHeader next) = true := by
          rw [not_isHunkLine_hunkHeader]
          decide
        rw [flatMap_cons, hunkLines, cons_append]
        exact ⟨takeWhile_cons_of_neg hnot, dropWhile_cons_of_neg hnot⟩
    have hmark : [0x40, 0x40].isPrefixOf (hunkHeader ops) = true := rfl
    rw [flatMap_cons, hunkLines, cons_append, parseHunks, if_pos hmark,
      takeWhile_append_of_pos hall, dropWhile_append_of_pos hall, hstop.1, hstop.2,
      append_nil, ih (Nat.le_of_succ_le_succ hn), parseHunkHeader_hunkHeader]
    rfl

/-- Two files that `diff` was run on, with their lines. -/
structure FileDiff where
  path_a : Bytes
  path_b : Bytes
  old : List Bytes
  new : List Bytes
  deriving DecidableEq, Repr

namespace FileDiff

/-- Names and lines are plain. -/
structure Plain (f : FileDiff) : Prop where
  path_a : Utils.Plain f.path_a
  path_b : Utils.Plain f.path_b
  old : ∀ l ∈ f.old, Utils.Plain l
  new : ∀ l ∈ f.new, Utils.Plain l

instance (f : FileDiff) : Decidable f.Plain :=
  decidable_of_iff (Utils.Plain f.path_a ∧ Utils.Plain f.path_b ∧
      (∀ l ∈ f.old, Utils.Plain l) ∧ ∀ l ∈ f.new, Utils.Plain l)
    ⟨fun h => ⟨h.1, h.2.1, h.2.2.1, h.2.2.2⟩, fun h => ⟨h.path_a, h.path_b, h.old, h.new⟩⟩

/-- The edit script. -/
def ops (f : FileDiff) : List DiffOp := computeDiff f.old f.new

/-- The operations of the hunks, with `context` lines of context. -/
def windows (f : FileDiff) (context : Nat) : List (List DiffOp) :=
  (unifiedWindows f.ops context).map (windowOps f.ops)

/-- The hunks. -/
def hunks (f : FileDiff) (context : Nat) : List Hunk := (f.windows context).map hunkOf

/-- What `diff -U context --no-color` prints. -/
def text (f : FileDiff) (context : Nat) : Bytes :=
  outputUnified f.ops f.path_a f.path_b context false

/-- The lines of it. -/
def lines (f : FileDiff) (context : Nat) : List Bytes :=
  (oldMark ++ f.path_a) :: (newMark ++ f.path_b) :: (f.windows context).flatMap hunkLines

/-- What the file becomes as a part of a patch. -/
def filePatch (f : FileDiff) (context : Nat) : FilePatch := ⟨oldName f.path_a, f.hunks context⟩

/-- What is printed are the lines. -/
theorem text_eq (f : FileDiff) (context : Nat) :
    f.text context = (f.lines context).flatMap line := by
  have hop : ∀ op : DiffOp, opText false op = line (opLine op) := by
    intro op
    obtain ⟨kind, l, a, b⟩ := op
    cases kind <;> rfl
  have hhunk : ∀ ops, hunkText false ops = (hunkLines ops).flatMap line := by
    intro ops
    rw [hunkText, hunkLines, flatMap_cons, flatMap_map, funext hop]
    rfl
  rw [text, outputUnified, lines, windows, flatMap_cons, flatMap_cons, flatMap_assoc,
    flatMap_map]
  simp only [hhunk, line, oldMark, newMark, append_assoc]

/-- A line of an operation is one of the files' lines. -/
theorem plain_of_mem_ops {f : FileDiff} (h : f.Plain) {op : DiffOp} (hop : op ∈ f.ops) :
    Utils.Plain op.line := by
  have hmem : op.edit ∈ script f.ops := mem_map.mpr ⟨op, hop, rfl⟩
  by_cases hkind : op.type = .ins
  · have hnew : op.line ∈ news (script f.ops) :=
      mem_map.mpr ⟨op.edit, mem_filter.mpr ⟨hmem, by simp [DiffOp.edit, hkind]⟩, rfl⟩
    rw [ops, computeDiff_news] at hnew
    exact h.new _ hnew
  · have hold : op.line ∈ olds (script f.ops) :=
      mem_map.mpr ⟨op.edit, mem_filter.mpr ⟨hmem, decide_eq_true hkind⟩, rfl⟩
    rw [ops, computeDiff_olds] at hold
    exact h.old _ hold

end FileDiff

/-- A header holds digits and punctuation. -/
theorem plain_hunkHeader (ops : List DiffOp) : Plain (hunkHeader ops) := by
  have hdecimal : ∀ (c : UInt8) (n : Nat), c.toNat < 48 → c ∉ decimal n := by
    intro c n hc hmem
    have hrange := digit_of_mem_decimal hmem
    omega
  have hzero := fun n => hdecimal 0 n (by decide)
  have hnewline := fun n => hdecimal 0x0a n (by decide)
  rw [Plain, hunkHeader]
  simp only [mem_append, not_or]
  exact ⟨⟨⟨⟨⟨⟨⟨⟨⟨by decide, hzero _⟩, by decide⟩, hzero _⟩, by decide⟩, hzero _⟩, by decide⟩,
    hzero _⟩, by decide⟩, ⟨⟨⟨⟨⟨⟨⟨⟨by decide, hnewline _⟩, by decide⟩, hnewline _⟩, by decide⟩,
    hnewline _⟩, by decide⟩, hnewline _⟩, by decide⟩⟩

variable {l : Bytes} {n context : Nat} {f : FileDiff} {files : List FileDiff} {reverse : Bool}
  {ops : List DiffOp}

/-- The lines of a file's diff are whole tokens. -/
theorem FileDiff.plain_lines (h : f.Plain) (hl : l ∈ f.lines context) : Utils.Plain l ∧ l ≠ [] := by
  have hmark : ∀ {mark path : Bytes}, Utils.Plain mark → mark ≠ [] → Utils.Plain path →
      Utils.Plain (mark ++ path) ∧ mark ++ path ≠ [] := by
    intro mark path hmark hne hpath
    refine ⟨⟨?_, ?_⟩, by simp [hne]⟩
    · rw [mem_append, not_or]
      exact ⟨hmark.1, hpath.1⟩
    · rw [mem_append, not_or]
      exact ⟨hmark.2, hpath.2⟩
  rw [FileDiff.lines, mem_cons, mem_cons, mem_flatMap] at hl
  obtain rfl | rfl | ⟨hunk, hhunk, hl⟩ := hl
  · exact hmark ⟨by decide, by decide⟩ (by decide) h.path_a
  · exact hmark ⟨by decide, by decide⟩ (by decide) h.path_b
  obtain ⟨w, _, rfl⟩ := mem_map.mp hhunk
  rw [hunkLines, mem_cons, mem_map] at hl
  obtain rfl | ⟨op, hop, rfl⟩ := hl
  · exact ⟨plain_hunkHeader _, by simp [hunkHeader]⟩
  have hline := FileDiff.plain_of_mem_ops h (mem_of_mem_drop (mem_of_mem_take hop))
  refine @hmark [EditKind.mark op.type] op.line ?_ (by simp) hline
  cases op.type <;> exact ⟨by decide, by decide⟩

/-! ### The files that are read -/

/-- Equal texts are kept line by line. -/
theorem backtrack_self {A : List Bytes} {dp : List (List Nat)} {i : Nat} :
    ∀ op ∈ backtrack A A dp n i i, isKeep op = true := by
  induction n generalizing i with
  | zero => exact fun op hop => absurd hop not_mem_nil
  | succ n ih =>
    rw [backtrack]
    by_cases hi : 0 < i
    · rw [if_pos ⟨hi, hi, rfl⟩]
      intro op hop
      obtain rfl | hop := mem_cons.mp hop
      · rfl
      · exact ih op hop
    · rw [if_neg (fun h => hi h.1), if_neg (fun h => hi h.1), if_neg hi]
      exact fun op hop => absurd hop not_mem_nil

/-- A file that did not change has no hunks. -/
theorem FileDiff.windows_same (h : f.old = f.new) (context : Nat) :
    f.windows context = [] := by
  have hkeep : ∀ op ∈ f.ops, isKeep op = true := by
    intro op hop
    rw [FileDiff.ops, computeDiff, ← h, mem_reverse] at hop
    exact backtrack_self op hop
  have hnone : nextWindow f.ops context 0 = none := by
    rw [nextWindow]
    dsimp only
    rw [if_pos]
    rw [drop_zero, Nat.zero_add, takeWhile_eq_self_iff.mpr hkeep]
  rw [FileDiff.windows, unifiedWindows, map_eq_nil_iff]
  obtain hlen | ⟨n, hlen⟩ : f.ops.length = 0 ∨ ∃ n, f.ops.length = n + 1 := by
    cases f.ops.length <;> simp
  · rw [hlen]
    rfl
  · rw [hlen, windowsFrom, hnone]

/-- A file's diff is read as hunks, and the lines that they leave are for the next file. -/
theorem parseFiles_lines (f : FileDiff) (context n : Nat) (rest : List Bytes) :
    let ls := (f.windows context).flatMap hunkLines ++ rest
    parseFiles (n + 1) (f.lines context ++ rest) =
      ⟨oldName f.path_a, (parseHunks ls.length ls).1⟩ ::
        parseFiles n (parseHunks ls.length ls).2 := by
  have hold : oldMark.isPrefixOf (oldMark ++ f.path_a) = true :=
    List.isPrefixOf_iff_prefix.mpr (prefix_append _ _)
  have hnew : newMark.isPrefixOf (newMark ++ f.path_b) = true :=
    List.isPrefixOf_iff_prefix.mpr (prefix_append _ _)
  rw [parseFiles, FileDiff.lines, cons_append, cons_append,
    dropWhile_cons_of_neg (by rw [hold]; decide)]
  dsimp only
  rw [headD_cons, if_pos hnew, tail_cons]
  rfl

theorem parseHunks_names (n : Nat) (hfiles : files ≠ []) (context : Nat) :
    parseHunks n (files.flatMap fun f => f.lines context) =
      ([], files.flatMap fun f => f.lines context) := by
  obtain ⟨g, files, rfl⟩ := exists_cons_of_ne_nil hfiles
  cases n <;> rfl

/-- Parts of at least one line each. -/
theorem length_le_flatMap {α β : Type} {f : α → List β} {xs : List α}
    (h : ∀ x ∈ xs, 1 ≤ (f x).length) : xs.length ≤ (xs.flatMap f).length := by
  induction xs with
  | nil => exact Nat.le_refl _
  | cons x xs ih =>
    have hx := h x mem_cons_self
    have hxs := ih fun y hy => h y (mem_cons_of_mem _ hy)
    rw [flatMap_cons, length_append, length_cons]
    omega

/-- The files are read one after the other where only the last one changed: a hunk would go on
over the next file's names. -/
theorem parseFiles_diffs (hn : files.length ≤ n) (hlast : ∀ f ∈ files.dropLast, f.old = f.new) :
    parseFiles n (files.flatMap fun f => f.lines context) =
      files.map fun f => f.filePatch context := by
  induction files generalizing n with
  | nil => cases n <;> rfl
  | cons f files ih =>
    obtain _ | n := n
    · cases hn
    have hn := Nat.le_of_succ_le_succ hn
    rw [flatMap_cons, map_cons]
    by_cases hfiles : files = []
    · -- the last file: its hunks reach to the end
      have hhunks := @length_le_flatMap _ _ hunkLines (f.windows context)
        fun ops _ => by simp [hunkLines]
      rw [hfiles, flatMap_nil, parseFiles_lines, append_nil, parseHunks_hunkLines hhunks]
      cases n <;> rfl
    · -- no hunks, and the next line is a name
      rw [dropLast_cons_of_ne_nil hfiles] at hlast
      have hnone := f.windows_same (hlast f mem_cons_self) context
      rw [parseFiles_lines, hnone, flatMap_nil, nil_append, parseHunks_names _ hfiles,
        ih hn fun g hg => hlast g (mem_cons_of_mem _ hg), FileDiff.filePatch, FileDiff.hunks,
        hnone]
      rfl

/-- What `patch` reads are the lines of the diffs. -/
theorem parsePatch_lines (hplain : ∀ f ∈ files, f.Plain) (context : Nat) :
    ∃ n, files.length ≤ n ∧ parsePatch (files.flatMap fun f => f.text context) =
      parseFiles n (files.flatMap fun f => f.lines context) := by
  have htext : (files.flatMap fun f => f.text context) =
      (files.flatMap fun f => f.lines context).flatMap line := by
    rw [flatMap_assoc]
    exact congrArg (files.flatMap ·) (funext fun f => f.text_eq context)
  have hlines : ∀ l ∈ files.flatMap fun f => f.lines context, Plain l ∧ l ≠ [] := by
    intro l hl
    obtain ⟨f, hf, hl⟩ := mem_flatMap.mp hl
    exact FileDiff.plain_lines (hplain f hf) hl
  rw [parsePatch, htext, patchLines_flatMap hlines]
  exact ⟨_, length_le_flatMap fun f _ => by simp [FileDiff.lines], rfl⟩

/-! ### A hunk and its window -/

/-- A script, read backwards with `-R`. -/
def direct (reverse : Bool) (s : Edits Bytes) : Edits Bytes := if reverse then turned s else s

theorem hunkMark_opLine (reverse : Bool) (op : DiffOp) :
    hunkMark reverse (opLine op) =
      EditKind.mark (if reverse then op.type.turn else op.type) := by
  obtain ⟨kind, l, a, b⟩ := op
  cases reverse <;> cases kind <;> rfl

theorem direct_script_cons (reverse : Bool) (op : DiffOp) (ops : List DiffOp) :
    direct reverse (script (op :: ops)) =
      (if reverse then op.type.turn else op.type, op.line) :: direct reverse (script ops) := by
  cases reverse <;> rfl

theorem olds_cons (kind : EditKind) (l : Bytes) (s : Edits Bytes) :
    olds ((kind, l) :: s) = if kind = .ins then olds s else l :: olds s := by
  cases kind <;> rfl

theorem news_cons (kind : EditKind) (l : Bytes) (s : Edits Bytes) :
    news ((kind, l) :: s) = if kind = .del then news s else l :: news s := by
  cases kind <;> rfl

theorem chomp_line (l : Bytes) : chomp (line l) = l := by
  rw [chomp, line, getLast?_concat, if_pos rfl, dropLast_concat]

theorem chomp_plain (h : Plain l) : chomp l = l := by
  rw [chomp, if_neg fun hlast => h.2 (mem_of_getLast? hlast)]

theorem withNewline_plain (h : Plain l) : withNewline l = line l := by
  rw [withNewline, if_neg fun hlast => h.2 (mem_of_getLast? hlast)]
  rfl

/-- The operations hold whole lines. -/
def PlainOps (ops : List DiffOp) : Prop := ∀ op ∈ ops, Plain op.line

/-- **A hunk matches** where its old lines stand. -/
theorem matchLines_ops (h : PlainOps ops) (t : List Bytes) :
    matchLines reverse (ops.map opLine) (textOf t) = true ↔
      olds (direct reverse (script ops)) <+: t := by
  induction ops generalizing t with
  | nil => cases reverse <;> simp [matchLines, script, direct, turned]
  | cons op ops ih =>
    have hline := h op mem_cons_self
    have ih := ih fun x hx => h x (mem_cons_of_mem _ hx)
    rw [map_cons, matchLines.eq_def]
    dsimp only
    rw [hunkMark_opLine, direct_script_cons, olds_cons]
    generalize (if reverse then op.type.turn else op.type) = kind
    by_cases hkind : kind = .ins
    · rw [if_pos hkind, if_neg, ih]
      rw [hkind]
      decide
    · rw [if_neg hkind, if_pos]
      · obtain _ | ⟨l, t⟩ := t
        · simp [textOf]
        · rw [textOf, map_cons]
          dsimp only
          rw [opLine, tail_cons, chomp_line, chomp_plain hline, cons_prefix_cons]
          by_cases heq : op.line = l
          · rw [if_pos heq, and_iff_right heq]
            exact ih t
          · rw [if_neg heq]
            simp [heq]
      · cases kind
        · exact Or.inl rfl
        · exact Or.inr rfl
        · exact absurd rfl hkind

/-- The new lines of a hunk. -/
theorem newLines_ops (h : PlainOps ops) :
    newLines reverse (ops.map opLine) = textOf (news (direct reverse (script ops))) := by
  induction ops with
  | nil => cases reverse <;> rfl
  | cons op ops ih =>
    have hline := h op mem_cons_self
    have ih := ih fun x hx => h x (mem_cons_of_mem _ hx)
    rw [newLines] at ih ⊢
    rw [map_cons, filter_cons, hunkMark_opLine, direct_script_cons, news_cons]
    generalize (if reverse then op.type.turn else op.type) = kind
    cases kind
    · exact congrArg₂ cons (withNewline_plain hline) ih
    · exact ih
    · exact congrArg₂ cons (withNewline_plain hline) ih

/-- How many old lines a hunk has. -/
theorem oldLinesCount_ops (reverse : Bool) (ops : List DiffOp) :
    oldLinesCount reverse (ops.map opLine) = (olds (direct reverse (script ops))).length := by
  induction ops with
  | nil => cases reverse <;> rfl
  | cons op ops ih =>
    rw [oldLinesCount] at ih ⊢
    rw [map_cons, countP_cons, hunkMark_opLine, direct_script_cons, olds_cons, ih]
    generalize (if reverse then op.type.turn else op.type) = kind
    cases kind <;> rfl

/-- The old lines of a hunk stand at line `p` of a text, and nowhere that the search looks before. -/
structure FirstPlace (t old : List Bytes) (start p : Nat) : Prop where
  inside : p < t.length
  none_before : ∀ i < t.length, VisitedBefore start i p → ¬ old <+: t.drop i

instance (t old : List Bytes) (start p : Nat) : Decidable (FirstPlace t old start p) :=
  decidable_of_iff
    (p < t.length ∧ ∀ i < t.length, VisitedBefore start i p → ¬ old <+: t.drop i)
    ⟨fun h => ⟨h.1, h.2⟩, fun h => ⟨h.inside, h.none_before⟩⟩

/-- **Applying a hunk** whose own place is the first does what its part of the script does. -/
theorem applyHunk_window {before after : Edits Bytes} (hplain : PlainOps ops)
    (hplace : FirstPlace (halfEdited before (direct reverse (script ops) ++ after))
      (olds (direct reverse (script ops))) (searchStart reverse (hunkOf ops))
      (news before).length) :
    applyHunk reverse (textOf (halfEdited before (direct reverse (script ops) ++ after)))
        (hunkOf ops) =
      some (textOf (halfEdited (before ++ direct reverse (script ops)) after)) := by
  generalize hbody : direct reverse (script ops) = body at hplace ⊢
  have hlength : (textOf (halfEdited before (body ++ after))).length =
      (halfEdited before (body ++ after)).length := length_map _
  have hdrop : ∀ i, (textOf (halfEdited before (body ++ after))).drop i =
      textOf ((halfEdited before (body ++ after)).drop i) := fun i => map_drop.symm
  -- the old lines stand behind what is edited
  have hown : olds body <+: (halfEdited before (body ++ after)).drop (news before).length := by
    rw [halfEdited, drop_left, olds_append]
    exact prefix_append _ _
  have hpos : matchPos reverse (textOf (halfEdited before (body ++ after))) (hunkOf ops) =
      some (news before).length := by
    apply matchPos_eq
    · rw [hlength]
      exact hplace.inside
    · rw [hdrop, hunkOf, matchLines_ops hplain, hbody]
      exact hown
    · intro i hi hvisited
      rw [hlength] at hi
      rw [hdrop, Bool.eq_false_iff, hunkOf, ne_eq, matchLines_ops hplain, hbody]
      exact hplace.none_before i hi hvisited
  rw [applyHunk, hpos, Option.map_some, hunkOf, oldLinesCount_ops, newLines_ops hplain, hbody,
    ← splice_window before body after]
  simp only [splice, textOf, map_append, map_take, map_drop]

/-- A window of a script, read backwards with `-R`. -/
def windowIn (reverse : Bool) (w : Window Bytes) : Window Bytes :=
  ⟨direct reverse w.before, direct reverse w.body, direct reverse w.after⟩

/-- The text that a hunk is applied to: what stands before its changes is edited. -/
def textAt (w : Window Bytes) : List Bytes := halfEdited w.before (w.body ++ w.after)

/-! ### The patch of a file -/

namespace FileDiff

/-- No hunk reaches back over operations that an earlier one may have printed, and each hunk's own
place is the first that the search finds, in both directions. -/
structure Clean (f : FileDiff) (context : Nat) : Prop where
  apart : ∀ w ∈ unifiedWindows f.ops context, w.ctx_start = w.start
  first : ∀ (reverse : Bool), ∀ w ∈ unifiedWindows f.ops context,
    FirstPlace (textAt (windowIn reverse (windowOf f.ops w)))
      (olds (windowIn reverse (windowOf f.ops w)).body)
      (searchStart reverse (hunkOf (windowOps f.ops w)))
      (news (windowIn reverse (windowOf f.ops w)).before).length

instance (f : FileDiff) (context : Nat) : Decidable (f.Clean context) :=
  decidable_of_iff ((∀ w ∈ unifiedWindows f.ops context, w.ctx_start = w.start) ∧
      ∀ (reverse : Bool), ∀ w ∈ unifiedWindows f.ops context,
        FirstPlace (textAt (windowIn reverse (windowOf f.ops w)))
          (olds (windowIn reverse (windowOf f.ops w)).body)
          (searchStart reverse (hunkOf (windowOps f.ops w)))
          (news (windowIn reverse (windowOf f.ops w)).before).length)
    ⟨fun h => ⟨h.1, h.2⟩, fun h => ⟨h.apart, h.first⟩⟩

/-- The windows cover every change in either direction. -/
theorem tiles (h : f.Clean context) (reverse : Bool) :
    Tiles [] (direct reverse (script f.ops))
      ((unifiedWindows f.ops context).map fun w => windowIn reverse (windowOf f.ops w)) := by
  have htile := unifiedWindows_tile h.apart
  cases reverse
  · exact htile
  · have hturned := htile.turned
    rw [map_map] at hturned
    exact hturned

/-- **The hunks of a file**, applied in order, make the text at the other end of the script. -/
theorem applyHunks_hunks (hplain : f.Plain) (h : f.Clean context) (reverse : Bool) :
    applyHunks reverse (textOf (olds (direct reverse (script f.ops)))) (f.hunks context) =
      some (textOf (news (direct reverse (script f.ops)))) := by
  have hstep : ∀ w ∈ unifiedWindows f.ops context,
      applyHunk reverse (textOf (textAt (windowIn reverse (windowOf f.ops w))))
          (hunkOf (windowOps f.ops w)) =
        some (textOf (halfEdited ((windowIn reverse (windowOf f.ops w)).before ++
          (windowIn reverse (windowOf f.ops w)).body) (windowIn reverse (windowOf f.ops w)).after)) := by
    intro w hw
    apply applyHunk_window _ (h.first reverse w hw)
    intro op hop
    exact plain_of_mem_ops hplain (mem_of_mem_drop (mem_of_mem_take hop))
  rw [applyHunks, hunks, windows, runAll_map, runAll_map]
  exact (f.tiles h reverse).run hstep

theorem applyHunks_forward (hplain : f.Plain) (h : f.Clean context) :
    applyHunks false (textOf f.old) (f.hunks context) = some (textOf f.new) := by
  have hrun := applyHunks_hunks hplain h false
  rw [direct, if_neg (by decide), ops, computeDiff_olds, computeDiff_news] at hrun
  exact hrun

theorem applyHunks_backward (hplain : f.Plain) (h : f.Clean context) :
    applyHunks true (textOf f.new) (f.hunks context) = some (textOf f.old) := by
  have hrun := applyHunks_hunks hplain h true
  rw [direct, if_pos rfl, olds_turned, news_turned, ops, computeDiff_olds, computeDiff_news] at hrun
  exact hrun

/-- A file that changed has hunks. -/
theorem same_of_windows (h : f.windows context = []) :
    f.old = f.new := by
  rw [windows, map_eq_nil_iff, unifiedWindows] at h
  have hkeep : Keeps (script f.ops) := by
    obtain hnil | ⟨n, hlen⟩ : f.ops = [] ∨ ∃ n, f.ops.length = n + 1 := by
      cases f.ops <;> simp
    · rw [hnil]
      exact fun e he => absurd he not_mem_nil
    rw [hlen, windowsFrom] at h
    split at h
    next hnone => exact keeps_script (nextWindow_none hnone)
    next => cases h
  have heq := hkeep.olds_eq
  rwa [ops, computeDiff_olds, computeDiff_news] at heq

end FileDiff

/-! ### Patches of several files -/

/-- A hunk in front of another file's name takes the name as a line. -/
theorem parseHunks_swallow {n : Nat} {hs : List (List DiffOp)} (hne : hs ≠ [])
    (hn : hs.length ≤ n) {l : Bytes} (hl : isHunkLine l = true) (rest : List Bytes) :
    (parseHunks n (hs.flatMap hunkLines ++ l :: rest)).1 ≠ hs.map hunkOf := by
  induction hs generalizing n with
  | nil => exact absurd rfl hne
  | cons ops hs ih =>
    obtain _ | n := n
    · cases hn
    have hall : ∀ x ∈ ops.map opLine, isHunkLine x = true := by
      intro x hx
      obtain ⟨op, _, rfl⟩ := mem_map.mp hx
      exact isHunkLine_opLine op
    have hmark : [0x40, 0x40].isPrefixOf (hunkHeader ops) = true := rfl
    rw [flatMap_cons, hunkLines, cons_append, cons_append, append_assoc,
      parseHunks, if_pos hmark, map_cons]
    dsimp only
    intro heq
    obtain ⟨hhead, htail⟩ := cons.inj heq
    rw [dropWhile_append_of_pos hall] at htail
    rw [takeWhile_append_of_pos hall] at hhead
    have hlines := congrArg Hunk.lines hhead
    obtain _ | ⟨next, hs⟩ := hs
    · -- the last hunk has a line too many
      have hlen := congrArg length hlines
      rw [flatMap_nil, nil_append, takeWhile_cons_of_pos hl] at hlen
      simp [hunkOf] at hlen
    · have hnot : ¬ isHunkLine (hunkHeader next) = true := by
        rw [not_isHunkLine_hunkHeader]
        decide
      apply ih (cons_ne_nil _ _) (Nat.le_of_succ_le_succ hn)
      rw [← htail, flatMap_cons, hunkLines, cons_append, cons_append,
        dropWhile_cons_of_neg hnot]

/-- Where every file gets its own hunks, only the last one changed. -/
theorem same_of_parseFiles (hn : files.length ≤ n)
    (h : parseFiles n (files.flatMap fun f => f.lines context) =
      files.map fun f => f.filePatch context) :
    ∀ f ∈ files.dropLast, f.old = f.new := by
  induction files generalizing n with
  | nil => exact fun f hf => absurd hf not_mem_nil
  | cons f files ih =>
    obtain _ | n := n
    · cases hn
    by_cases hfiles : files = []
    · rw [hfiles]
      exact fun g hg => absurd hg not_mem_nil
    rw [flatMap_cons, map_cons, parseFiles_lines] at h
    obtain ⟨hfile, hrest⟩ := cons.inj h
    have hhunks := congrArg FilePatch.hunks hfile
    -- the first file has no hunk that could take the next name
    have hnone : f.windows context = [] := by
      by_contra hne
      obtain ⟨g, others, rfl⟩ := exists_cons_of_ne_nil hfiles
      refine @parseHunks_swallow _ _ hne ?_ (oldMark ++ g.path_a) rfl _ hhunks
      have hle := @length_le_flatMap _ _ hunkLines (f.windows context)
        fun ops _ => by simp [hunkLines]
      rw [length_append]
      exact Nat.le_add_right_of_le hle
    rw [hnone, flatMap_nil, nil_append, parseHunks_names _ hfiles] at hrest
    rw [dropLast_cons_of_ne_nil hfiles]
    intro g hg
    obtain rfl | hg := mem_cons.mp hg
    · exact FileDiff.same_of_windows hnone
    · exact ih (Nat.le_of_succ_le_succ hn) hrest g hg

/-- **Every file of a patch receives its own hunks** exactly when only the last one changed. -/
theorem parsePatch_diffs (hplain : ∀ f ∈ files, f.Plain) (context : Nat) :
    (parsePatch (files.flatMap fun f => f.text context) = files.map fun f => f.filePatch context) ↔
      ∀ f ∈ files.dropLast, f.old = f.new := by
  obtain ⟨n, hn, hparse⟩ := parsePatch_lines hplain context
  rw [hparse]
  exact ⟨same_of_parseFiles hn, parseFiles_diffs hn⟩

/-- The patch that `diff` prints for some files is undone by `patch`: every file receives its own
hunks, and they make the new text out of the old and, with `-R`, the old text out of the new. -/
def Undoes (context : Nat) (files : List FileDiff) : Prop :=
  (parsePatch (files.flatMap fun f => f.text context) = files.map fun f => f.filePatch context) ∧
    ∀ f ∈ files, applyHunks false (textOf f.old) (f.filePatch context).hunks = some (textOf f.new) ∧
      applyHunks true (textOf f.new) (f.filePatch context).hunks = some (textOf f.old)

/-- A file that did not change, and one whose middle line did, with a line of context. -/
def replaced : List FileDiff :=
  [⟨[0x61, 0x2f, 0x66], [0x62, 0x2f, 0x66], [[0x78]], [[0x78]]⟩,
    ⟨[0x61, 0x2f, 0x67], [0x62, 0x2f, 0x67], [[0x61], [0x62], [0x63]], [[0x61], [0x78], [0x63]]⟩]

/-- A line added behind the last one. -/
def appended : FileDiff := ⟨[0x61], [0x62], [[0x61]], [[0x61], [0x62]]⟩

/-- A line replaced. -/
def changed : FileDiff := ⟨[0x61], [0x62], [[0x78]], [[0x79]]⟩

end MeuOS.Utils
