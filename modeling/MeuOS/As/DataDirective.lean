import MeuOS.As.File
import MeuOS.As.Reference

namespace MeuOS.As

open MeuOS.Lib List

/-!
# Data directives (`as_parse.c`)

`.byte`, `.short`, `.long` and `.quad` take a list of operands.  Each is a number, whose low bytes
are emitted, or refers to a symbol: then zeros are emitted and a fixup tells the linker what to
put there.

* `nextCsv`, `parseDataValue`, `parseDataList` — the code;
* `Means` — what a directive with one operand ought to do;
* `Good` — the operands and states for which the code does it;
* `parseDataList_means_iff` — the code does what the operand means exactly for these.
-/

/-! ### The code -/

/-- The scan of `next_csv`: up to a comma outside quotes. -/
def csvScan (quote : Bool) : List Char → List Char × Option (List Char)
  | [] => ([], none)
  | c :: cs =>
    if c = ',' ∧ quote = false then ([], some cs)
    else
      let r := csvScan (if c = '"' then !quote else quote) cs
      (c :: r.1, r.2)

/-- `next_csv`: the next item, and the text where the cursor then stands. -/
def nextCsv (cursor : List Char) : List Char × List Char :=
  let (item, rest) := csvScan false (trim cursor)
  (trim item, rest.getD [])

/-- `strstr(text, " - ")`: what lies before and behind. -/
def findSpacedDash : List Char → Option (List Char × List Char)
  | [] => none
  | c :: cs =>
    if c = ' ' ∧ cs.head? = some '-' ∧ (cs.drop 1).head? = some ' ' then some ([], cs.drop 2)
    else (findSpacedDash cs).map fun p => (c :: p.1, p.2)

def EM_386 : Nat := 3
def EM_ARM : Nat := 40
def EM_AARCH64 : Nat := 183
def EM_RISCV : Nat := 243
def EM_LOONGARCH : Nat := 258

/-- `data_reloc_type`: the absolute relocation of that width. -/
def dataRelocType (target : Option Nat) (width : Nat) : Nat :=
  if target = some EM_ARM then
    if width = 1 then 8 else if width = 2 then 5 else 2
  else if target = some EM_AARCH64 then
    if width = 8 then 257 else 258
  else if target = some EM_RISCV ∨ target = some EM_LOONGARCH then
    if width = 8 then 2 else 1
  else if target = some EM_386 then
    if width = 1 then 22 else if width = 2 then 20 else 1
  else if width = 8 then 1 else 10

/-- The second symbol of a difference and the constant behind it, split off at the first sign;
    the error is the part before that sign. -/
def differenceTail (tail : List Char) : Except (Fault (List Char)) (List Char × Int) :=
  let isSign := fun c : Char => c == '+' || c == '-'
  let sym2 := tail.takeWhile (!isSign ·)
  match tail.dropWhile (!isSign ·) with
  | [] => .ok (trim sym2, 0)
  | op :: text =>
    match (parseInteger text).1 with
    | none => .error (.refused sym2)
    | some k =>
      if op = '-' then
        if FitsI64 (-k) then .ok (trim sym2, -k) else .error .undefined
      else .ok (trim sym2, k)

/-- The emission at the end of `parse_data_value` for a symbol. -/
def emitReference (as : AsFile) (offset width : Nat) (name : List Char) (addend : Int) :
    Except (Fault String) AsFile := do
  let as ← asEmitLe (referSymbol as name) 0 width
  .ok (asAddFixup as offset width (dataRelocType as.target width) addend name)

/-- The emission for a symbol difference. -/
def emitDifference (as : AsFile) (offset width : Nat) (name : List Char) (addend : Int)
    (sym2 : List Char) (k : Int) : Except (Fault String) AsFile := do
  let as ← asEmitLe (referSymbol (referSymbol as name) sym2) 0 width
  let sum ← addI64 addend k
  .ok (asAddFixupDiff as offset width (dataRelocType as.target width) sum name sym2)

/-- The rest of `parse_data_value`, once a spaced minus has been looked for. -/
def dataOperand (as : AsFile) (text : List Char) (diff : Option (List Char × Int)) (width : Nat) :
    Except (Fault String) AsFile :=
  match parseReference (trim text) with
  | .error .undefined => .error .undefined
  | .error (.refused ()) =>
    .error (.refused ("invalid data expression: " ++ String.ofList (trimInPlace text)))
  | .ok (referent, modifier) =>
    if modifier ≠ [] then
      .error (.refused ("unsupported data relocation modifier: " ++ String.ofList modifier))
    else
      match referent, diff with
      | .number v, none => asEmitLe as (v % 2 ^ 64).toNat width
      -- the name of a number is a null pointer
      | .number _, some _ => .error .undefined
      | .symbol name addend, none => emitReference as as.cur.size width name addend
      | .symbol name addend, some (sym2, k) =>
        emitDifference as as.cur.size width name addend sym2 k

/-- `parse_data_value` on the current section. -/
def parseDataValue (as : AsFile) (text : List Char) (width : Nat) : Except (Fault String) AsFile :=
  match findSpacedDash (trim text) with
  | none => dataOperand as (trimInPlace text) none width
  | some (sym1, tail) =>
    match differenceTail tail with
    | .error .undefined => .error .undefined
    | .error (.refused sym2) =>
      .error (.refused ("invalid symbol-difference expression: " ++
        String.ofList (text.takeWhile isspace ++ (sym1 ++ (" - ".toList ++ sym2)))))
    | .ok diff => dataOperand as sym1 (some diff) width

theorem csvScan_rest_length {quote : Bool} {t rest : List Char}
    (h : (csvScan quote t).2 = some rest) : rest.length < t.length := by
  induction t generalizing quote with
  | nil => simp [csvScan] at h
  | cons c cs ih =>
    rw [csvScan] at h
    split at h
    · cases h
      exact Nat.lt_succ_self _
    · exact Nat.lt_succ_of_lt (ih h)

theorem length_trim_le (t : List Char) : (trim t).length ≤ t.length :=
  Nat.le_trans ( rdropWhile_prefix isspace _).length_le (dropWhile_sublist isspace).length_le

/-- The cursor moves forward. -/
theorem nextCsv_length {cursor : List Char} (h : (nextCsv cursor).2 ≠ []) :
    (nextCsv cursor).2.length < cursor.length := by
  unfold nextCsv at h ⊢
  dsimp only at h ⊢
  rcases hr : (csvScan false (trim cursor)).2 with _ | rest
  · rw [hr] at h
    simp at h
  · exact Nat.lt_of_lt_of_le (csvScan_rest_length hr) (length_trim_le cursor)

/-- `parse_data_list`. -/
def parseDataList (as : AsFile) (cursor : List Char) (width : Nat) : Except (Fault String) AsFile :=
  if (nextCsv cursor).1 = [] then .error (.refused "empty data expression")
  else
    match parseDataValue as (nextCsv cursor).1 width with
    | .error e => .error e
    | .ok as =>
      if _h : (nextCsv cursor).2 = [] then .ok as
      else parseDataList as (nextCsv cursor).2 width
termination_by cursor.length
decreasing_by exact nextCsv_length _h

/-! ### What a directive means -/

/-- The widths of the data directives. -/
inductive Width where
  | byte
  | short
  | long
  | quad
  deriving Repr, DecidableEq

def Width.size : Width → Nat
  | byte => 1
  | short => 2
  | long => 4
  | quad => 8

theorem Width.size_pos (w : Width) : 0 < w.size := by
  rcases w with _ | _ | _ | _ <;> decide

/-- The low bytes of an integer, least significant first. -/
def lowBytes (w : Width) (v : Int) : Bytes := leBytes w.size (v % 256 ^ w.size).toNat

/-- The bytes that an operand stands for: those of its value, or zeros for a symbol. -/
def Operand.bytes (o : Operand) (w : Width) : Bytes :=
  match o.head with
  | .lit c => lowBytes w (c.value + o.offset)
  | .sym _ => replicate w.size 0

/-- The fixups that an operand stands for: one against its symbol, at the emitted bytes. -/
def Operand.fixups (o : Operand) (as : AsFile) (w : Width) : List Fixup :=
  match o.head with
  | .lit _ => []
  | .sym s =>
    [{ sec := as.current, offset := as.cur.size, type := dataRelocType as.target w.size,
       width := w.size, addend := o.offset, symbol := s.name, symbol2 := none }]

/-- The run took `as` to `as'` and emitted what the operand means. -/
structure Means (as : AsFile) (w : Width) (o : Operand) (as' : AsFile) : Prop where
  current : as'.current = as.current
  others : ∀ i, i ≠ as.current → as'.sections[i]? = as.sections[i]?
  data : as'.cur.data = as.cur.data ++ o.bytes w
  fixups : as'.fixups = as.fixups ++ o.fixups as w

/-- The sign stands between two spaces. -/
def Tail.Spaced (t : Tail) : Prop :=
  t.minus = true ∧ t.before.1.getLast? = some ' ' ∧ t.after.1.head? = some ' '

/-- What the code needs of a tail behind the head. -/
structure Tail.Good (t : Tail) (head : Head) (w : Width) : Prop where
  fits : FitsI64 t.lit.value
  /-- the sign does not follow what looks like a mantissa -/
  plain : sciMantissa (head.text ++ t.before.1).reverse = false
  /-- a minus is not the one of a symbol difference -/
  unspaced : ¬ t.Spaced
  /-- the literals are added: no overflow, and a subtraction must give the same bytes -/
  sum : ∀ c, head = .lit c → FitsI64 (c.value + t.lit.value) ∧
    (t.minus = true → (256 : Int) ^ w.size ∣ 2 * t.lit.value)
  /-- the minus before an addend is lost -/
  addend : ∀ s, head = .sym s → t.minus = true → t.lit.value = 0

/-- The operands and states for which the code does what the operand means. -/
structure Good (as : AsFile) (w : Width) (o : Operand) : Prop where
  progbits : as.cur.type ≠ SHT_NOBITS
  room : as.cur.size + w.size ≤ SIZE_MAX
  short : o.text.length < BUFFER_SIZE
  fits : ∀ c, o.head = .lit c → FitsI64 c.value
  tail : ∀ t, o.tail = some t → t.Good o.head w

/-! ### The text of an operand -/

/-- A character that stands in operands. -/
def operandChar (c : Char) : Bool := wordChar c || c == '+' || c == '-' || c == ' ' || c == '\t'

theorem Literal.operandChar (l : Literal) : ∀ c ∈ l.text, operandChar c = true := by
  obtain ⟨c, rest, ht, hc, hrest⟩ := l.head_text
  intro x hx
  rw [ht] at hx
  unfold As.operandChar
  rcases mem_cons.mp hx with rfl | hx
  · rcases hc with rfl | hc
    · rfl
    · simp [hc]
  · simp [hrest x hx]

theorem Blanks.operandChar (b : Blanks) : ∀ c ∈ b.1, operandChar c = true := by
  intro c hc
  rcases b.2 c hc with rfl | rfl <;> rfl

theorem Operand.operandChar (o : Operand) : ∀ c ∈ o.text, operandChar c = true := by
  obtain ⟨head, tail⟩ := o
  intro c hc
  rcases mem_append.mp hc with hc | hc
  · rcases head with l | s
    · exact l.operandChar c hc
    · simp [As.operandChar, s.word c hc]
  · rcases tail with _ | t
    · simp at hc
    · rcases mem_append.mp hc with hc | hc
      · exact t.before.operandChar c hc
      · rcases mem_cons.mp hc with rfl | hc
        · rcases t.sign_cases with h | h <;> rw [h] <;> rfl
        · rcases mem_append.mp hc with hc | hc
          · exact t.after.operandChar c hc
          · exact t.lit.operandChar c hc

theorem Operand.not_mem_text (o : Operand) {c : Char} (hc : As.operandChar c = false) :
    c ∉ o.text := by
  intro h
  rw [o.operandChar c h] at hc
  cases hc

theorem Head.text_ne_nil (h : Head) : h.text ≠ [] := by
  rcases h with l | s
  · obtain ⟨c, rest, ht, -⟩ := l.head_text
    simp [Head.text, ht]
  · obtain ⟨c, rest, hn, -⟩ := s.first
    simp [Head.text, hn]

/-- An operand has no blanks at its ends. -/
theorem Operand.trimmed (o : Operand) : Trimmed o.text := by
  obtain ⟨head, tail⟩ := o
  constructor
  · intro c hc
    apply head.nonblank
    obtain ⟨x, xs, hx⟩ := exists_cons_of_ne_nil head.text_ne_nil
    have : x = c := by simpa [Operand.text, hx] using hc
    rw [hx, this]
    exact mem_cons_self
  · intro c hc
    rcases tail with _ | t
    · have hlast : head.text.getLast? = some c := by simpa [Operand.text] using hc
      exact head.nonblank c (mem_of_mem_getLast? hlast)
    · -- the last character is the literal's
      apply t.lit.nonblank
      have hne : t.lit.text ≠ [] := (Head.lit t.lit).text_ne_nil
      have htext : Operand.text ⟨head, some t⟩ =
          (head.text ++ (t.before.1 ++ t.sign :: t.after.1)) ++ t.lit.text := by
        simp [Operand.text, Tail.text]
      rw [htext, getLast?_append_of_ne_nil _ hne] at hc
      exact mem_of_mem_getLast? hc

/-- Without commas and quotes the whole text is one item. -/
theorem csvScan_eq {t : List Char} (hcomma : ',' ∉ t) (hquote : '"' ∉ t) :
    csvScan false t = (t, none) := by
  induction t with
  | nil => rfl
  | cons c cs ih =>
    rw [mem_cons, not_or] at hcomma hquote
    rw [csvScan, if_neg (fun h => hcomma.1 h.1.symm), if_neg (fun h => hquote.1 h.symm),
      ih hcomma.2 hquote.2]

theorem nextCsv_operand (o : Operand) : nextCsv o.text = (o.text, []) := by
  unfold nextCsv
  rw [o.trimmed.trim, csvScan_eq (o.not_mem_text (by decide)) (o.not_mem_text (by decide))]
  simp [o.trimmed.trim]

theorem Operand.text_ne_nil (o : Operand) : o.text ≠ [] := by
  unfold Operand.text
  intro h
  exact o.head.text_ne_nil (append_eq_nil_iff.mp h).1

theorem parseDataList_operand (as : AsFile) (o : Operand) (width : Nat) :
    parseDataList as o.text width = parseDataValue as o.text width := by
  rw [parseDataList]
  simp only [nextCsv_operand, if_neg o.text_ne_nil]
  rcases parseDataValue as o.text width with e | as' <;> rfl

/-! ### The spaced minus -/

theorem findSpacedDash_cons {c : Char} {cs : List Char}
    (h : ¬ (c = ' ' ∧ cs.head? = some '-' ∧ (cs.drop 1).head? = some ' ')) :
    findSpacedDash (c :: cs) = none ↔ findSpacedDash cs = none := by
  rw [findSpacedDash, if_neg h, Option.map_eq_none_iff]

theorem findSpacedDash_append {a t : List Char} (ha : ' ' ∉ a) :
    findSpacedDash (a ++ t) = none ↔ findSpacedDash t = none := by
  induction a with
  | nil => rfl
  | cons c cs ih =>
    rw [mem_cons, not_or] at ha
    rw [cons_append, findSpacedDash_cons (fun h => ha.1 h.1.symm), ih ha.2]

/-- Blanks matter only where the last of them meets what follows. -/
theorem findSpacedDash_blanks {b t : List Char} (hb : '-' ∉ b)
    (hjoin : b.getLast? = some ' ' → t.head? = some '-' → (t.drop 1).head? ≠ some ' ') :
    findSpacedDash (b ++ t) = none ↔ findSpacedDash t = none := by
  induction b with
  | nil => rfl
  | cons c cs ih =>
    rw [mem_cons, not_or] at hb
    rw [cons_append, findSpacedDash_cons]
    · rcases cs with _ | ⟨d, ds⟩
      · rfl
      · exact ih hb.2 (fun h => hjoin (by rw [getLast?_cons_cons]; exact h))
    · rintro ⟨rfl, h1, h2⟩
      rcases cs with _ | ⟨d, ds⟩
      · exact hjoin rfl h1 h2
      · -- the next character is a blank, not the minus
        exact hb.2 (by rw [cons_append, head?_cons, Option.some.injEq] at h1; simp [h1])

theorem findSpacedDash_hit (a t : List Char) :
    findSpacedDash (a ++ ' ' :: '-' :: ' ' :: t) ≠ none := by
  induction a with
  | nil => simp [findSpacedDash]
  | cons c cs ih =>
    rw [cons_append, findSpacedDash]
    split
    · simp
    · rw [Ne, Option.map_eq_none_iff]
      exact ih

theorem Literal.not_space (l : Literal) : ' ' ∉ l.text := by
  intro h
  exact absurd (l.nonblank _ h) (by decide)

theorem Blanks.not_minus (b : Blanks) : '-' ∉ b.1 := fun h => (b.signFree _ h).2 rfl

theorem Literal.drop_one_head (l : Literal) : (l.text.drop 1).head? ≠ some ' ' := by
  intro h
  exact l.not_space (mem_of_mem_drop (mem_of_mem_head? h))

/-- `strstr` finds a spaced minus exactly where the operand has one. -/
theorem findSpacedDash_operand (o : Operand) :
    findSpacedDash o.text = none ↔ ∀ t, o.tail = some t → ¬ t.Spaced := by
  obtain ⟨head, tail⟩ := o
  have hhead : ' ' ∉ head.text := fun h => absurd (head.nonblank _ h) (by decide)
  rcases tail with _ | t
  · have htext : Operand.text ⟨head, none⟩ = head.text ++ [] := rfl
    rw [htext, findSpacedDash_append hhead]
    simp [findSpacedDash]
  · have htext : Operand.text ⟨head, some t⟩ =
        head.text ++ (t.before.1 ++ t.sign :: (t.after.1 ++ t.lit.text)) := rfl
    rw [htext, findSpacedDash_append hhead]
    constructor
    · rintro h t' ht' ⟨hm, hb, ha⟩
      cases ht'
      -- write the blanks with the space next to the sign
      obtain ⟨b, hbe⟩ := getLast?_eq_some_iff.mp hb
      obtain ⟨a, hae⟩ := head?_eq_some_iff.mp ha
      have hsign : t.sign = '-' := by simp [Tail.sign, hm]
      rw [hbe, hae, hsign] at h
      have hhit := findSpacedDash_hit b (a ++ t.lit.text)
      exact hhit (by simpa using h)
    · intro h
      have hns := h t rfl
      have hsign : t.sign ≠ ' ' := by rcases t.sign_cases with h | h <;> rw [h] <;> decide
      rw [findSpacedDash_blanks t.before.not_minus, findSpacedDash_cons (fun h => hsign h.1),
        findSpacedDash_blanks t.after.not_minus (fun _ _ => t.lit.drop_one_head)]
      · have h := findSpacedDash_append (t := []) t.lit.not_space
        rw [append_nil] at h
        exact h.mpr rfl
      · intro hlast hminus hspace
        have hm : t.minus = true := by
          by_contra hm
          simp [Tail.sign, hm] at hminus
        refine hns ⟨hm, hlast, ?_⟩
        rw [drop_one, tail_cons] at hspace
        rcases hae : t.after.1 with _ | ⟨c, cs⟩
        · rw [hae, nil_append] at hspace
          exact absurd (mem_of_mem_head? hspace) t.lit.not_space
        · rw [hae] at hspace
          simpa using hspace

/-! ### Runs -/

variable {as as' : AsFile} {o : Operand}

/-- When an operand without a spaced minus is emitted, and how. -/
theorem dataOperand_ok_iff {width : Nat} :
    dataOperand as o.text none width = .ok as' ↔
      o.text.length < BUFFER_SIZE ∧
        ((∃ v, referenceBody o.text = .ok (.number v) ∧
            asEmitLe as (v % 2 ^ 64).toNat width = .ok as') ∨
          ∃ name a, referenceBody o.text = .ok (.symbol name a) ∧
            emitReference as as.cur.size width name a = .ok as') := by
  have hat : '@' ∉ o.text := o.not_mem_text (by decide)
  unfold dataOperand
  rw [o.trimmed.trim, parseReference_text o.trimmed hat]
  by_cases hlen : BUFFER_SIZE ≤ o.text.length
  · rw [if_pos hlen]
    exact ⟨fun h => by simp at h, fun h => absurd h.1 (Nat.not_lt.mpr hlen)⟩
  · rw [if_neg hlen]
    have hlt : o.text.length < BUFFER_SIZE := Nat.lt_of_not_le hlen
    rcases hr : referenceBody o.text with e | (v | ⟨name, a⟩)
    · rcases e with ⟨⟩ | _ <;> simp [Except.map]
    · simp [Except.map, hlt]
    · simp [Except.map, hlt]

/-- A run through the symbol-difference path leaves a fixup with a second symbol. -/
theorem dataOperand_diff {text : List Char} {diff : List Char × Int} {width : Nat}
    (h : dataOperand as text (some diff) width = .ok as') :
    ∃ f : Fixup, f.symbol2 ≠ none ∧ as'.fixups = as.fixups ++ [f] := by
  unfold dataOperand at h
  rcases hr : parseReference (trim text) with e | ⟨r, modifier⟩
  · rw [hr] at h
    rcases e with ⟨⟩ | _ <;> simp at h
  · rw [hr] at h
    dsimp only at h
    split at h
    · simp at h
    · rcases r with v | ⟨name, a⟩
      · simp at h
      · simp only [emitDifference, asEmitLe, asAppendBytes, addI64, referSymbol_cur] at h
        -- only the branch without an error is left
        split at h
        · simp [bind, Except.bind] at h
        · simp only [bind, Except.bind] at h
          split at h
          · simp at h
          · cases h
            refine ⟨_, ?_, by
              simp only [asAddFixupDiff, AsFile.setCur, referSymbol_fixups]; rfl⟩
            simp

/-- A symbol's emission: when it succeeds, and the file after it. -/
theorem emitReference_ok_iff {w : Width} {offset : Nat} {name : List Char} {a : Int} :
    emitReference as offset w.size name a = .ok as' ↔
      as.cur.size + w.size ≤ SIZE_MAX ∧
        as' = asAddFixup ((referSymbol as name).setCur (as.cur.append (leBytes w.size 0))) offset
          w.size (dataRelocType as.target w.size) a name := by
  have hle := @asEmitLe_ok (referSymbol as name) ((referSymbol as name).setCur
    (as.cur.append (leBytes w.size 0))) 0 w.size w.size_pos
  rw [referSymbol_cur] at hle
  unfold emitReference
  by_cases hroom : as.cur.size + w.size ≤ SIZE_MAX
  · rw [hle.mpr ⟨hroom, rfl⟩]
    have htarget : ((referSymbol as name).setCur (as.cur.append (leBytes w.size 0))).target =
        as.target := referSymbol_target as name
    simp only [bind, Except.bind, htarget, Except.ok.injEq]
    exact ⟨fun h => ⟨hroom, h.symm⟩, fun h => h.2.symm⟩
  · rcases he : asEmitLe (referSymbol as name) 0 w.size with e | as1
    · exact ⟨fun h => by simp [bind, Except.bind] at h, fun h => absurd h.1 hroom⟩
    · have h1 := (asEmitLe_ok w.size_pos).mp he
      rw [referSymbol_cur] at h1
      exact absurd h1.1 hroom

/-- The bytes that the code emits are those of another value exactly when the values agree modulo
    what the bytes hold. -/
theorem leBytes_eq_lowBytes (w : Width) (v u : Int) :
    leBytes w.size (v % 2 ^ 64).toNat = lowBytes w u ↔ (256 : Int) ^ w.size ∣ u - v := by
  unfold lowBytes
  rw [leBytes_eq_iff]
  rcases w with _ | _ | _ | _ <;> simp only [Width.size] <;> omega

theorem replicate_zero (w : Width) : replicate w.size (0 : UInt8) = leBytes w.size 0 := by
  rcases w with _ | _ | _ | _ <;> rfl

/-- What appending does to the data: nothing in a `NOBITS` section. -/
theorem Section.append_data_eq {sec : Section} {w : Width} {n : Nat} {bytes : Bytes}
    (hb : bytes.length = w.size) :
    (sec.append (leBytes w.size n)).data = sec.data ++ bytes ↔
      sec.type ≠ SHT_NOBITS ∧ leBytes w.size n = bytes := by
  unfold Section.append
  dsimp only
  split
  next h =>
    constructor
    · intro he
      have hlen := congrArg length he
      rw [length_append, hb] at hlen
      have := w.size_pos
      omega
    · exact fun h' => absurd h h'.1
  next h =>
    rw [append_cancel_left_eq]
    exact ⟨fun he => ⟨h, he⟩, fun he => he.2⟩

theorem Operand.length_bytes (o : Operand) (w : Width) : (o.bytes w).length = w.size := by
  unfold Operand.bytes
  rcases o.head with c | s
  · exact length_leBytes _ _
  · exact length_replicate

/-- The file after a number. -/
theorem means_number_iff {c : Literal} {tail : Option Tail} {w : Width} {n : Nat} :
    Means as w ⟨.lit c, tail⟩ (as.setCur (as.cur.append (leBytes w.size n))) ↔
      as.cur.type ≠ SHT_NOBITS ∧
        leBytes w.size n = lowBytes w (c.value + Operand.offset ⟨.lit c, tail⟩) := by
  have hlen := Operand.length_bytes ⟨.lit c, tail⟩ w
  constructor
  · intro h
    have hd := h.data
    rw [AsFile.setCur_cur] at hd
    exact (Section.append_data_eq hlen).mp hd
  · intro h
    refine ⟨rfl, fun i hi => ?_, ?_, ?_⟩
    · exact getElem?_set_ne hi.symm
    · rw [AsFile.setCur_cur]
      exact (Section.append_data_eq hlen).mpr h
    · exact (append_nil as.fixups).symm

/-- The file after a reference. -/
theorem means_symbol_iff {s : SymName} {tail : Option Tail} {w : Width} {name : List Char}
    {a : Int} :
    Means as w ⟨.sym s, tail⟩
        (asAddFixup ((referSymbol as name).setCur (as.cur.append (leBytes w.size 0))) as.cur.size
          w.size (dataRelocType as.target w.size) a name) ↔
      as.cur.type ≠ SHT_NOBITS ∧ name = s.name ∧ a = Operand.offset ⟨.sym s, tail⟩ := by
  have hlen := Operand.length_bytes ⟨.sym s, tail⟩ w
  have hbytes : leBytes w.size 0 = Operand.bytes ⟨.sym s, tail⟩ w := (replicate_zero w).symm
  have hcur : (asAddFixup ((referSymbol as name).setCur (as.cur.append (leBytes w.size 0)))
      as.cur.size w.size (dataRelocType as.target w.size) a name).cur =
        as.cur.append (leBytes w.size 0) := by
    unfold asAddFixup
    rw [referSymbol_cur]
    exact AsFile.setCur_cur _ _
  have hfix : (asAddFixup ((referSymbol as name).setCur (as.cur.append (leBytes w.size 0)))
      as.cur.size w.size (dataRelocType as.target w.size) a name).fixups =
        as.fixups ++
          [{ sec := as.current, offset := as.cur.size, type := dataRelocType as.target w.size,
             width := w.size, addend := a, symbol := name, symbol2 := none }] := by
    simp only [asAddFixup, AsFile.setCur, referSymbol_fixups, referSymbol_current]
  constructor
  · intro h
    have hd := h.data
    have hf := h.fixups
    rw [hcur] at hd
    rw [hfix] at hf
    have heq := append_cancel_left hf
    simp only [Operand.fixups, cons.injEq, Fixup.mk.injEq, and_true, true_and] at heq
    exact ⟨((Section.append_data_eq hlen).mp hd).1, heq.2, heq.1⟩
  · rintro ⟨ht, rfl, rfl⟩
    refine ⟨?_, fun i hi => ?_, ?_, ?_⟩
    · simp only [asAddFixup, AsFile.setCur, referSymbol_current]
    · simp only [asAddFixup, AsFile.setCur, referSymbol_sections, referSymbol_current]
      exact getElem?_set_ne hi.symm
    · rw [hcur]
      exact (Section.append_data_eq hlen).mpr ⟨ht, hbytes⟩
    · rw [hfix]
      rfl

/-- Only an operand without a spaced minus can be read as what it means. -/
theorem means_unspaced {w : Width} (h : parseDataValue as o.text w.size = .ok as')
    (hm : Means as w o as') :
    findSpacedDash o.text = none ∧ dataOperand as o.text none w.size = .ok as' := by
  unfold parseDataValue at h
  rw [o.trimmed.trim, o.trimmed.trimInPlace] at h
  rcases hd : findSpacedDash o.text with _ | ⟨sym1, tail⟩
  · rw [hd] at h
    exact ⟨rfl, h⟩
  · rw [hd] at h
    dsimp only at h
    rcases ht : differenceTail tail with e | diff
    · rw [ht] at h
      rcases e with e | _ <;> simp at h
    · rw [ht] at h
      obtain ⟨f, hf, he⟩ := dataOperand_diff h
      -- the fixups of an operand are none, or one with a single symbol
      have hfix := hm.fixups
      rw [he] at hfix
      have heq := append_cancel_left hfix
      unfold Operand.fixups at heq
      rcases hh : o.head with c | s <;> rw [hh] at heq
      · simp at heq
      · refine absurd ?_ hf
        rw [(cons.inj heq).1]

/-- The bytes of a sum are those of the operand exactly when a lost minus does not matter. -/
theorem lowBytes_tail (w : Width) (c : Literal) (t : Tail) :
    leBytes w.size ((t.lit.value + c.value) % 2 ^ 64).toNat =
        lowBytes w (c.value + Operand.offset ⟨.lit c, some t⟩) ↔
      (t.minus = true → (256 : Int) ^ w.size ∣ 2 * t.lit.value) := by
  rw [leBytes_eq_lowBytes]
  show (256 : Int) ^ w.size ∣ c.value + t.offset - (t.lit.value + c.value) ↔ _
  unfold Tail.offset
  rcases hm : t.minus with _ | _
  · have h0 : c.value + t.lit.value - (t.lit.value + c.value) = 0 := by omega
    simp [h0]
  · have h2 : c.value + -t.lit.value - (t.lit.value + c.value) = -(2 * t.lit.value) := by omega
    simp only [if_true, h2, Int.dvd_neg, true_implies]

/-- The addend of a reference is the operand's exactly when a lost minus does not matter. -/
theorem addend_tail (s : SymName) (t : Tail) :
    t.lit.value = Operand.offset ⟨.sym s, some t⟩ ↔ (t.minus = true → t.lit.value = 0) := by
  show t.lit.value = t.offset ↔ _
  unfold Tail.offset
  rcases t.minus with _ | _
  · simp
  · simp only [if_true, true_implies]
    omega

/-- A directive with one operand does what the operand means exactly in the good cases. -/
theorem parseDataList_means_iff (as : AsFile) (w : Width) (o : Operand) :
    (∃ as', parseDataList as o.text w.size = .ok as' ∧ Means as w o as') ↔ Good as w o := by
  simp only [parseDataList_operand]
  constructor
  · rintro ⟨as', hrun, hm⟩
    obtain ⟨hnone, hop⟩ := means_unspaced hrun hm
    obtain ⟨hlen, hcase⟩ := dataOperand_ok_iff.mp hop
    have hspace := (findSpacedDash_operand o).mp hnone
    obtain ⟨head, tail⟩ := o
    rcases head with c | s
    · -- a literal: the code must have read a number
      rcases hcase with ⟨v, hv, hemit⟩ | ⟨name, a, -, hemit⟩
      · obtain ⟨hroom, rfl⟩ := (asEmitLe_ok w.size_pos).mp hemit
        obtain ⟨hprog, hbytes⟩ := means_number_iff.mp hm
        obtain ⟨hfit, hrest⟩ := (referenceBody_lit c tail v).mp hv
        refine ⟨hprog, hroom, hlen, fun c' hc' => Head.lit.inj hc' ▸ hfit, ?_⟩
        rintro t rfl
        obtain ⟨hl, hsci, hsum, rfl⟩ := hrest
        refine ⟨hl, hsci, hspace t rfl, ?_, fun s hs => by simp at hs⟩
        intro c' hc'
        cases hc'
        exact ⟨by rw [Int.add_comm]; exact hsum, (lowBytes_tail w c t).mp hbytes⟩
      · obtain ⟨-, rfl⟩ := emitReference_ok_iff.mp hemit
        have hf := hm.fixups
        simp [asAddFixup, AsFile.setCur, Operand.fixups] at hf
    · -- a symbol: the code must have read that symbol
      rcases hcase with ⟨v, -, hemit⟩ | ⟨name, a, hv, hemit⟩
      · obtain ⟨-, rfl⟩ := (asEmitLe_ok w.size_pos).mp hemit
        have hf := hm.fixups
        simp [AsFile.setCur, Operand.fixups] at hf
      · obtain ⟨hroom, rfl⟩ := emitReference_ok_iff.mp hemit
        obtain ⟨hprog, rfl, rfl⟩ := means_symbol_iff.mp hm
        have hrest := (referenceBody_sym s tail _).mp hv
        refine ⟨hprog, hroom, hlen, fun c' hc' => by simp at hc', ?_⟩
        rintro t rfl
        obtain ⟨hl, hsci, ha⟩ := hrest
        refine ⟨hl, hsci, hspace t rfl, fun c' hc' => by simp at hc', ?_⟩
        intro s' _
        exact (addend_tail s t).mp ha.symm
  · intro hg
    have hnone : findSpacedDash o.text = none :=
      (findSpacedDash_operand o).mpr fun t ht => (hg.tail t ht).unspaced
    have hvalue : parseDataValue as o.text w.size = dataOperand as o.text none w.size := by
      unfold parseDataValue
      rw [o.trimmed.trim, hnone, o.trimmed.trimInPlace]
    rw [hvalue]
    have hshort := hg.short
    obtain ⟨head, tail⟩ := o
    rcases head with c | s
    · have hfit := hg.fits c rfl
      rcases tail with _ | t
      · refine ⟨_, dataOperand_ok_iff.mpr ⟨hshort, Or.inl ⟨c.value,
          (referenceBody_lit c none _).mpr ⟨hfit, rfl⟩,
          (asEmitLe_ok w.size_pos).mpr ⟨hg.room, rfl⟩⟩⟩, means_number_iff.mpr ⟨hg.progbits, ?_⟩⟩
        rw [leBytes_eq_lowBytes]
        show (256 : Int) ^ w.size ∣ c.value + 0 - c.value
        simp
      · have ht := hg.tail t rfl
        obtain ⟨hsum, hdvd⟩ := ht.sum c rfl
        rw [Int.add_comm] at hsum
        exact ⟨_, dataOperand_ok_iff.mpr ⟨hshort, Or.inl ⟨_,
          (referenceBody_lit c (some t) _).mpr ⟨hfit, ht.fits, ht.plain, hsum, rfl⟩,
          (asEmitLe_ok w.size_pos).mpr ⟨hg.room, rfl⟩⟩⟩,
          means_number_iff.mpr ⟨hg.progbits, (lowBytes_tail w c t).mpr hdvd⟩⟩
    · rcases tail with _ | t
      · exact ⟨_, dataOperand_ok_iff.mpr ⟨hshort, Or.inr ⟨_, _,
          (referenceBody_sym s none 0).mpr rfl, emitReference_ok_iff.mpr ⟨hg.room, rfl⟩⟩⟩,
          means_symbol_iff.mpr ⟨hg.progbits, rfl, rfl⟩⟩
      · have ht := hg.tail t rfl
        exact ⟨_, dataOperand_ok_iff.mpr ⟨hshort, Or.inr ⟨_, _,
          (referenceBody_sym s (some t) _).mpr ⟨ht.fits, ht.plain, rfl⟩,
          emitReference_ok_iff.mpr ⟨hg.room, rfl⟩⟩⟩,
          means_symbol_iff.mpr ⟨hg.progbits, rfl, (addend_tail s t).mpr (ht.addend s rfl)⟩⟩

/-! ### `.byte 10-3` -/

/-- A file with an empty `.data` section. -/
def emptyData : AsFile :=
  { sections := [{ name := ".data".toList, type := 1, data := [], size := 0, size_eq := fun _ => rfl }]
    symbols := []
    fixups := []
    current := 0
    target := none
    current_lt := by decide }

/-- `10-3`. -/
def tenMinusThree : Operand :=
  { head := .lit
      { neg := false, radix := .dec, digits := "10".toList, digits_ok := all_eq_true.mp rfl
        starts := ⟨'1', ['0'], rfl, by decide⟩, lo := by decide, hi := by decide }
    tail := some
      { minus := true, before := ⟨[], by simp⟩, after := ⟨[], by simp⟩
        lit :=
          { neg := false, radix := .dec, digits := "3".toList, digits_ok := all_eq_true.mp rfl
            starts := ⟨'3', [], rfl, by decide⟩, lo := by decide, hi := by decide } } }

/-- The minus is lost: `.byte 10-3` emits 13. -/
theorem byte_ten_minus_three :
    tenMinusThree.text = "10-3".toList ∧
      (∃ as', parseDataList emptyData "10-3".toList 1 = .ok as' ∧ as'.cur.data = [13]) ∧
      ¬ ∃ as', parseDataList emptyData tenMinusThree.text 1 = .ok as' ∧
        Means emptyData .byte tenMinusThree as' := by
  have htext : tenMinusThree.text = "10-3".toList := by decide
  have hone : parseDataList emptyData tenMinusThree.text 1 =
      parseDataValue emptyData tenMinusThree.text 1 := parseDataList_operand _ _ _
  rw [htext] at hone
  have hrun : (parseDataValue emptyData "10-3".toList 1).toOption.map (·.cur.data) = some [13] := by
    decide
  rw [htext, hone]
  rcases hp : parseDataValue emptyData "10-3".toList 1 with e | as'
  · rw [hp] at hrun
    simp [Except.toOption] at hrun
  · have hdata : as'.cur.data = [13] := by
      rw [hp] at hrun
      exact Option.some.inj hrun
    refine ⟨rfl, ⟨as', rfl, hdata⟩, ?_⟩
    rintro ⟨as'', he, hm⟩
    cases he
    have hd := hm.data
    rw [hdata] at hd
    cases hd

end MeuOS.As
