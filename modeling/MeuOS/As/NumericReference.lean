import MeuOS.As.Binding
import MeuOS.As.Line
import Mathlib.Data.List.Induction

namespace MeuOS.As

open MeuOS.Lib List Option

/-!
# Numeric references (`assemble.c`)

`resolve_numeric_references` looks for a digit and `f` or `b` between characters that are no
letters or digits, wherever that stands, and lets the line grow in its buffer.

* `Segment`, `segments` — the text cut at the matches, each with whether it is an operand: outside
  strings and no part of a longer symbol;
* `expand` — the operands replaced, and nothing else;
* `SegmentsFit` — the line stays inside its buffer up to the first reference without a label;
* `resolveFrom_eq` — the function on the text is `resolveSegments` on its segments;
* `resolve_iff` — it does what `expand` says exactly when the line fits, and each match is an
  operand or some operand has no label;
* `numeric_counts_run` — over a run the counts are those of the labels so far;
* `nearest_before`, `nearest_after` — so the names are those of the nearest labels.
-/

/-! ### The text in segments -/

/-- A character that stays, or a match of the reference pattern. -/
inductive Segment where
  | char (c : Char)
  | reference (operand : Bool) (d : Char) (forward : Bool)
  deriving DecidableEq, Repr

/-- A character of a symbol's name. -/
def symbolChar (c : Char) : Bool := isalnum c || c == '_' || c == '.'

/-- Whether the text is in a string behind a character, and whether a backslash is open there. -/
def lexQuote (quote escape : Bool) (c : Char) : Bool × Bool :=
  if escape then (quote, false)
  else if c = '\\' ∧ quote then (quote, true)
  else if c = '"' then (!quote, false)
  else (quote, false)

/-- The segments of a text behind the character `prev`. -/
def segments (quote escape : Bool) (prev : Option Char) : List Char → List Segment
  | [] => []
  | [c] => [.char c]
  | d :: x :: rest =>
    if isReference prev d x rest.head? then
      .reference (!quote && !prev.any symbolChar && !rest.head?.any symbolChar) d (x == 'f') ::
        segments quote false (some x) rest
    else
      .char d ::
        segments (lexQuote quote escape d).1 (lexQuote quote escape d).2 (some d) (x :: rest)

namespace Segment

/-- The text of a segment. -/
def text : Segment → List Char
  | char c => [c]
  | reference _ d forward => [d, if forward then 'f' else 'b']

/-- A match is an operand. -/
def Proper : Segment → Prop
  | char _ => True
  | reference operand _ _ => operand = true

/-- There is no match. -/
def Plain : Segment → Prop
  | char _ => True
  | reference _ _ _ => False

end Segment

/-- The operands replaced by what they stand for; `none` if one of them stands for nothing. -/
def expand (target : Fin 10 → Bool → Option (List Char)) : List Segment → Option (List Char)
  | [] => some []
  | .reference true d forward :: segs =>
    (target (digitOf d) forward).bind fun name => (expand target segs).map (name ++ ·)
  | seg :: segs => (expand target segs).map (seg.text ++ ·)

/-- A reference to a label that there is not. -/
def Unlabelled (counts : Fin 10 → Nat) (number : Fin 10) (forward : Bool) : Prop :=
  forward = false ∧ counts number = 0

instance (counts : Fin 10 → Nat) (number : Fin 10) (forward : Bool) :
    Decidable (Unlabelled counts number forward) := inferInstanceAs (Decidable (_ ∧ _))

/-- The line fits with the matches replaced, up to the first without a label; `n` characters of the
    text stand in front. -/
def SegmentsFit (counts : Fin 10 → Nat) (offset : Nat) : Nat → List Segment → Prop
  | _, [] => True
  | n, .char _ :: segs => SegmentsFit counts offset (n + 1) segs
  | n, .reference _ d forward :: segs =>
    Unlabelled counts (digitOf d) forward ∨
      (offset + n + (numericTarget counts (digitOf d) forward).length +
          (segs.flatMap Segment.text).length + 1 ≤ LINE_SIZE ∧
        SegmentsFit counts offset
          (n + (numericTarget counts (digitOf d) forward).length) segs)

/-- `resolve_numeric_references` on the segments of a text. -/
def resolveSegments (counts : Fin 10 → Nat) (offset : Nat) :
    AsFile → List Char → List Segment → Except (Fault String) (AsFile × List Char)
  | as, done, [] => .ok (as, done)
  | as, done, .char c :: segs => resolveSegments counts offset as (done ++ [c]) segs
  | as, done, .reference _ d forward :: segs =>
    if Unlabelled counts (digitOf d) forward then
      .error (.refused ("no previous label " ++ toString (digitOf d) ++ ":"))
    else
      let name := numericTarget counts (digitOf d) forward
      if offset + done.length + name.length + (segs.flatMap Segment.text).length + 1 ≤
          LINE_SIZE then
        resolveSegments counts offset (getSymbol as name).1 (done ++ name) segs
      else .error .undefined

theorem isReference_spec {prev next : Option Char} {d x : Char}
    (h : isReference prev d x next = true) :
    isdigit d = true ∧ (x = 'f' ∨ x = 'b') ∧ next.any isalnum = false ∧
      prev.any isalnum = false := by
  simpa [isReference, and_assoc] using h

theorem isdigit_isalnum {c : Char} (h : isdigit c = true) : isalnum c = true := by
  unfold isdigit isDigitIn at h
  unfold isalnum
  cases hd : digitVal c with
  | none =>
    rw [hd] at h
    exact nomatch h
  | some n => rfl

theorem isReference_nondigit {prev next : Option Char} {d x : Char} (h : isdigit d = false) :
    isReference prev d x next = false := by
  simp [isReference, h]

/-- The segments are the text. -/
theorem segments_text (quote escape : Bool) (prev : Option Char) (text : List Char) :
    (segments quote escape prev text).flatMap Segment.text = text := by
  induction text using twoStepInduction generalizing quote escape prev with
  | nil => rfl
  | singleton c => rfl
  | cons_cons d x rest ih ih' =>
    rw [segments]
    split
    case isTrue h =>
      obtain ⟨-, hx, -⟩ := isReference_spec h
      rw [flatMap_cons, ih]
      rcases hx with rfl | rfl <;> rfl
    case isFalse =>
      rw [flatMap_cons, ih' x]
      rfl

/-! ### The function on segments -/

theorem unlabelled_iff {counts : Fin 10 → Nat} {d x : Char} (hx : x = 'f' ∨ x = 'b') :
    Unlabelled counts (digitOf d) (x == 'f') ↔ x = 'b' ∧ counts (digitOf d) = 0 := by
  rcases hx with rfl | rfl <;> simp [Unlabelled]

/-- The function on a text is the one on its segments.  Behind a replacement the characters in
    front differ, but no match begins there. -/
theorem resolveFrom_eq (counts : Fin 10 → Nat) (offset : Nat) (as : AsFile) (done : List Char)
    (quote escape : Bool) (prev : Option Char) (text : List Char)
    (h : prev = done.getLast? ∨ ∀ c, text.head? = some c → isdigit c = false) :
    resolveFrom counts offset as done text =
      resolveSegments counts offset as done (segments quote escape prev text) := by
  induction text using twoStepInduction generalizing as done quote escape prev with
  | nil => rfl
  | singleton c => rfl
  | cons_cons d x rest ih ih' =>
    have hsame : isReference done.getLast? d x rest.head? = isReference prev d x rest.head? := by
      rcases h with rfl | hdigit
      · rfl
      · rw [isReference_nondigit (hdigit d rfl), isReference_nondigit (hdigit d rfl)]
    rw [resolveFrom, segments, hsame]
    split
    case isTrue hmatch =>
      obtain ⟨-, hx, hnext, -⟩ := isReference_spec hmatch
      have hrest : ∀ c, rest.head? = some c → isdigit c = false := by
        intro c hc
        rw [hc] at hnext
        exact Bool.eq_false_iff.mpr fun hd => Bool.eq_false_iff.mp hnext (isdigit_isalnum hd)
      rw [resolveSegments, segments_text]
      refine if_congr (unlabelled_iff hx).symm rfl ?_
      exact if_congr Iff.rfl (ih _ _ quote false (some x) (Or.inr hrest)) rfl
    case isFalse =>
      rw [resolveSegments]
      exact ih' x as _ _ _ _ (Or.inl (by simp))

/-- What the function does, next to what it should. -/
def Replaces (result : Except (Fault String) (AsFile × List Char))
    (expected : Option (List Char)) : Prop :=
  match result with
  | .ok r => expected = some r.2
  | .error (.refused _) => expected = none
  | .error .undefined => False

/-- What a match stands for, in terms of the counts. -/
def countedTarget (counts : Fin 10 → Nat) (number : Fin 10) (forward : Bool) :
    Option (List Char) :=
  if Unlabelled counts number forward then none
  else some (numericTarget counts number forward)

theorem two_lt_numericTarget (counts : Fin 10 → Nat) (number : Fin 10) (forward : Bool) :
    2 < (numericTarget counts number forward).length := by
  unfold numericTarget numericName
  rw [append_assoc, length_append]
  have : ".Lmt_num_".toList.length = 9 := rfl
  omega

/-- Replacing matches that are no operands only makes the text longer. -/
theorem expand_length_le {counts : Fin 10 → Nat} {offset : Nat} {as : AsFile} {done u : List Char}
    {segs : List Segment} {r : AsFile × List Char}
    (h : resolveSegments counts offset as done segs = .ok r)
    (hu : expand (countedTarget counts) segs = some u) :
    done.length + u.length ≤ r.2.length := by
  induction segs generalizing as done u with
  | nil =>
    cases h
    cases hu
    simp
  | cons seg segs ih =>
    cases seg with
    | char c =>
      obtain ⟨v, hv, rfl⟩ := map_eq_some_iff.mp hu
      have := ih h hv
      simp only [length_append, Segment.text, length_singleton] at this ⊢
      omega
    | reference operand d forward =>
      have hlong := two_lt_numericTarget counts (digitOf d) forward
      rw [resolveSegments] at h
      split at h
      case isTrue => exact nomatch h
      case isFalse hlabel =>
        dsimp only at h
        split at h
        case isTrue =>
          have hrest : ∀ v, expand (countedTarget counts) segs = some v →
              u.length ≤ (numericTarget counts (digitOf d) forward).length + v.length →
              done.length + u.length ≤ r.2.length := by
            intro v hv hle
            have := ih h hv
            rw [length_append] at this
            omega
          cases operand with
          | true =>
            obtain ⟨name, hname, hmap⟩ := bind_eq_some_iff.mp hu
            obtain ⟨v, hv, rfl⟩ := map_eq_some_iff.mp hmap
            rw [countedTarget, if_neg hlabel] at hname
            cases hname
            exact hrest v hv (by rw [length_append])
          | false =>
            obtain ⟨v, hv, rfl⟩ := map_eq_some_iff.mp hu
            refine hrest v hv ?_
            simp only [length_append, Segment.text, length_cons, length_nil]
            omega
        case isFalse => exact nomatch h

theorem map_append_append (a b : List Char) (o : Option (List Char)) :
    ((o.map (b ++ ·)).map (a ++ ·)) = o.map ((a ++ b) ++ ·) := by
  cases o with
  | none => rfl
  | some t => simp

/-- On segments the function does what it should exactly when the line fits, and each match is an
    operand or an operand has no label. -/
theorem resolveSegments_iff (counts : Fin 10 → Nat) (offset : Nat) (as : AsFile)
    (done : List Char) (segs : List Segment) :
    Replaces (resolveSegments counts offset as done segs)
        ((expand (countedTarget counts) segs).map (done ++ ·)) ↔
      SegmentsFit counts offset done.length segs ∧
        ((∀ seg ∈ segs, seg.Proper) ∨ expand (countedTarget counts) segs = none) := by
  induction segs generalizing as done with
  | nil => simp [resolveSegments, expand, Replaces, SegmentsFit]
  | cons seg segs ih =>
    cases seg with
    | char c =>
      have hrest := ih as (done ++ [c])
      rw [length_append, length_singleton] at hrest
      simp only [resolveSegments, expand, Segment.text, map_append_append, hrest, SegmentsFit,
        forall_mem_cons, Segment.Proper, true_and, map_eq_none_iff]
    | reference operand d forward =>
      by_cases hlabel : Unlabelled counts (digitOf d) forward
      · -- an error, which is right when the match or another one is an operand without a label
        cases operand with
        | true =>
          simp [resolveSegments, hlabel, expand, countedTarget, Replaces, SegmentsFit]
        | false =>
          simp [resolveSegments, hlabel, expand, Replaces, SegmentsFit, Segment.Proper]
      by_cases hfit : offset + done.length + (numericTarget counts (digitOf d) forward).length +
          (segs.flatMap Segment.text).length + 1 ≤ LINE_SIZE
      · have hrest := ih (getSymbol as (numericTarget counts (digitOf d) forward)).1
          (done ++ numericTarget counts (digitOf d) forward)
        rw [length_append] at hrest
        cases operand with
        | true =>
          simp only [resolveSegments, hlabel, hfit, if_true, if_false, expand, countedTarget,
            bind_some, map_append_append, hrest, SegmentsFit, false_or, true_and,
            forall_mem_cons, Segment.Proper, map_eq_none_iff]
        | false =>
          simp only [resolveSegments, hlabel, hfit, if_true, if_false, expand,
            map_append_append, SegmentsFit, false_or, true_and, forall_mem_cons,
            Segment.Proper, Bool.false_eq_true, false_and, map_eq_none_iff]
          cases hexp : expand (countedTarget counts) segs with
          | none =>
            rw [hexp] at hrest
            simpa [hexp] using hrest
          | some u =>
            -- the text has become too long
            refine iff_of_false (fun hrep => ?_) (by simp)
            have hlong := two_lt_numericTarget counts (digitOf d) forward
            revert hrep
            cases hres : resolveSegments counts offset
                (getSymbol as (numericTarget counts (digitOf d) forward)).1
                (done ++ numericTarget counts (digitOf d) forward) segs with
            | ok r =>
              intro hrep
              have hle := expand_length_le hres hexp
              have hlen := congrArg length (some.inj hrep)
              simp only [length_append, Segment.text, length_cons,
                length_nil] at hle hlen
              omega
            | error e => cases e <;> exact nofun
      · have hfault : resolveSegments counts offset as done
            (.reference operand d forward :: segs) = .error .undefined := by
          simp only [resolveSegments, hlabel, hfit, if_false]
        rw [hfault]
        refine iff_of_false id fun hcond => ?_
        rcases hcond.1 with hnone | hroom
        · exact hlabel hnone
        · exact hfit hroom.1

/-- The function does what it should exactly when the line fits, and each match is an operand or an
    operand has no label. -/
theorem resolve_iff (counts : Fin 10 → Nat) (offset : Nat) (as : AsFile) (text : List Char) :
    Replaces (resolveNumericReferences counts offset as text)
        (expand (countedTarget counts) (segments false false none text)) ↔
      SegmentsFit counts offset 0 (segments false false none text) ∧
        ((∀ seg ∈ segments false false none text, seg.Proper) ∨
          expand (countedTarget counts) (segments false false none text) = none) := by
  have h := resolveSegments_iff counts offset as [] (segments false false none text)
  rw [resolveNumericReferences, resolveFrom_eq counts offset as [] false false none text
    (Or.inl rfl)]
  simpa using h

/-! ### The nearest labels -/

/-- The names of numeric labels, in the order in which they stand, behind those of `seen`. -/
def nameLabels (seen : List (Fin 10)) : List (Fin 10) → List (Fin 10 × List Char)
  | [] => []
  | n :: ns => (n, numericName n (seen.count n + 1)) :: nameLabels (seen ++ [n]) ns

/-- What `Nf` and `Nb` stand for between the labels `before` and those `after`: the nearest label
    of the number.  A label that does not follow would have the next name. -/
def nearest (before after : List (Fin 10)) (number : Fin 10) (forward : Bool) :
    Option (List Char) :=
  if forward then
    some (((nameLabels before after).find? fun l => l.1 = number).elim
      (numericName number (before.count number + 1)) (·.2))
  else ((nameLabels [] before).reverse.find? fun l => l.1 = number).map (·.2)

/-- The first label that follows. -/
theorem nearest_after (before after : List (Fin 10)) (number : Fin 10) :
    nearest before after number true = some (numericName number (before.count number + 1)) := by
  have hfind : ∀ seen : List (Fin 10), seen.count number = before.count number →
      (((nameLabels seen after).find? fun l => l.1 = number).elim
        (numericName number (before.count number + 1)) (·.2)) =
        numericName number (before.count number + 1) := by
    induction after with
    | nil => exact fun _ _ => rfl
    | cons n ns ih =>
      intro seen hseen
      rw [nameLabels]
      by_cases hn : n = number
      · subst hn
        simp [hseen]
      · rw [find?_cons_of_neg (by simpa using hn)]
        refine ih _ ?_
        rw [count_append, hseen, count_singleton]
        simp [hn]
  simp only [nearest, if_true, hfind before rfl]

/-- One more label. -/
theorem nameLabels_append (seen ns : List (Fin 10)) (n : Fin 10) :
    nameLabels seen (ns ++ [n]) =
      nameLabels seen ns ++ [(n, numericName n ((seen ++ ns).count n + 1))] := by
  induction ns generalizing seen with
  | nil => simp [nameLabels]
  | cons m ns ih =>
    rw [cons_append, nameLabels, nameLabels, ih, cons_append, append_assoc]
    rfl

/-- The last label before. -/
theorem nearest_before (before after : List (Fin 10)) (number : Fin 10) :
    nearest before after number false =
      if before.count number = 0 then none
      else some (numericName number (before.count number)) := by
  simp only [nearest, Bool.false_eq_true, if_false]
  induction before using reverseRecOn with
  | nil => rfl
  | append_singleton ns n ih =>
    rw [nameLabels_append, nil_append]
    by_cases hn : n = number
    · subst hn
      simp
    · simp [hn, ih]

theorem countedTarget_eq_nearest (before after : List (Fin 10)) :
    countedTarget (before.count ·) = nearest before after := by
  funext number forward
  cases forward with
  | true => simp [countedTarget, Unlabelled, nearest_after, numericTarget]
  | false => simp [countedTarget, Unlabelled, nearest_before, numericTarget]

/-! ### The labels of a run -/

/-- The number of a numeric label. -/
def labelNumber (label : List Char) : Option (Fin 10) :=
  match label with
  | [d] => if isdigit d then some (digitOf d) else none
  | _ => none

/-- The numeric labels of lines, and whether a block comment is left open. -/
def numericLabels (hash : Bool) : Bool → List (List Char) → List (Fin 10) × Bool
  | block, [] => ([], block)
  | block, line :: lines =>
    let scanned := scanLine hash block line
    let rest := numericLabels hash scanned.2 lines
    (scanned.1.labels.filterMap labelNumber ++ rest.1, rest.2)

/-- One label. -/
theorem labelStatement_counts {r r' : AsRun} {label : List Char}
    (h : (labelStatement label).run r = .ok r') (number : Fin 10) :
    r'.numeric_counts number =
      r.numeric_counts number + (labelNumber label).toList.count number := by
  have hname : ∀ name : List Char, (Statement.label name).run r = .ok r' →
      r'.numeric_counts = r.numeric_counts := by
    intro name hrun
    obtain ⟨as, -, has⟩ := except_bind_eq_ok hrun
    cases has
    rfl
  have hdigit : ∀ n : Fin 10, (Statement.numericLabel n).run r = .ok r' →
      r'.numeric_counts = Function.update r.numeric_counts n (r.numeric_counts n + 1) := by
    intro n hrun
    obtain ⟨as, -, has⟩ := except_bind_eq_ok hrun
    cases has
    rfl
  unfold labelStatement at h
  unfold labelNumber
  split at h
  case h_1 d =>
    split at h
    case isTrue hd =>
      rw [hdigit _ h]
      by_cases hn : number = digitOf d
      · subst hn
        simp [hd]
      · simp [hd, hn, Ne.symm hn]
    case isFalse hd =>
      rw [hname _ h]
      simp [hd]
  case h_2 hlabel =>
    rw [hname _ h]
    rcases label with _ | ⟨d, _ | ⟨e, rest⟩⟩
    · rfl
    · exact absurd rfl (hlabel d)
    · rfl

/-- The labels of a line are counted. -/
theorem defineLabels_counts {r r' : AsRun} {labels : List (List Char)}
    (h : defineLabels r labels = .ok r') (number : Fin 10) :
    r'.numeric_counts number =
      r.numeric_counts number + (labels.filterMap labelNumber).count number := by
  induction labels generalizing r with
  | nil =>
    cases h
    rfl
  | cons label labels ih =>
    rw [defineLabels, foldlM_cons] at h
    obtain ⟨r₁, h₁, h⟩ := except_bind_eq_ok h
    split at h₁
    case isTrue => exact nomatch h₁
    case isFalse =>
      rw [ih h, labelStatement_counts h₁, Nat.add_assoc, ← count_append]
      cases hn : labelNumber label <;> simp [hn]

/-- A line counts its labels. -/
theorem parseLine_counts {hash : Bool}
    {other : AsFile → List Char → List Char → Except (Fault String) AsFile} {st st' : ParseState}
    {line : List Char} (h : parseLine hash other st line = .ok st') (number : Fin 10) :
    st'.run.numeric_counts number = st.run.numeric_counts number +
        ((scanLine hash st.block_comment line).1.labels.filterMap labelNumber).count number ∧
      st'.block_comment = (scanLine hash st.block_comment line).2 := by
  unfold parseLine at h
  split at h
  case isTrue => exact nomatch h
  case isFalse =>
    obtain ⟨run, hrun, h⟩ := except_bind_eq_ok h
    have hcounts := defineLabels_counts hrun number
    split at h
    case isTrue =>
      cases h
      exact ⟨hcounts, rfl⟩
    case isFalse =>
      obtain ⟨resolved, -, h⟩ := except_bind_eq_ok h
      obtain ⟨file, -, h⟩ := except_bind_eq_ok h
      cases h
      exact ⟨hcounts, rfl⟩

/-- Over a run the counts are those of the labels so far. -/
theorem numeric_counts_run {hash : Bool}
    {other : AsFile → List Char → List Char → Except (Fault String) AsFile} {st st' : ParseState}
    {lines : List (List Char)} (h : lines.foldlM (parseLine hash other) st = .ok st')
    (number : Fin 10) :
    st'.run.numeric_counts number = st.run.numeric_counts number +
        (numericLabels hash st.block_comment lines).1.count number ∧
      st'.block_comment = (numericLabels hash st.block_comment lines).2 := by
  induction lines generalizing st with
  | nil =>
    cases h
    exact ⟨rfl, rfl⟩
  | cons line lines ih =>
    rw [foldlM_cons] at h
    obtain ⟨st₁, h₁, h⟩ := except_bind_eq_ok h
    obtain ⟨hcounts, hblock⟩ := parseLine_counts h₁ number
    obtain ⟨hcounts', hblock'⟩ := ih h
    rw [hblock] at hcounts' hblock'
    refine ⟨?_, hblock'⟩
    rw [hcounts', hcounts, numericLabels, count_append, Nat.add_assoc]

end MeuOS.As
