import MeuOS.As.Operand

namespace MeuOS.As

open List

/-!
# `parse_integer` and `parse_reference` on operands

* `parseInteger_literal`, `parseInteger_sym` — `parse_integer` on the two kinds of terms;
* `referenceHead_lit`, `referenceHead_lit_symbol`, `referenceHead_sym` — the term before the sign;
* `splitScan_sign`, `splitScan_scientific` — where the operand is split;
* `parseReference_text` — a text without blanks at its ends and without `@`;
* `referenceBody_lit`, `referenceBody_sym` — when an operand is read as the number or the symbol
  that it shows.
-/

/-! ### Trimming -/

/-- Blanks behind a text that ends with none are cut off. -/
theorem rdropWhile_blanks {t b : List Char} (hb : ∀ c ∈ b, isspace c = true)
    (ht : ∀ c, t.getLast? = some c → isspace c = false) : (t ++ b).rdropWhile isspace = t := by
  unfold rdropWhile
  rw [reverse_append, dropWhile_blanks, reverse_reverse]
  · intro c hc
    exact hb c (mem_reverse.mp hc)
  · intro c hc
    exact ht c (by simpa using hc)

theorem trim_blanks {b : List Char} (hb : ∀ c ∈ b, isspace c = true) : trim b = [] := by
  unfold trim
  rw [dropWhile_eq_nil_iff.mpr hb]
  rfl

/-- A text with a character that is no blank is not trimmed away. -/
theorem trim_ne_nil {t : List Char} {c : Char} (hc : c ∈ t) (hs : isspace c = false) :
    trim t ≠ [] := by
  intro h
  have hall := rdropWhile_eq_nil_iff.mp h
  -- the first character that is no blank survives both cuts
  rcases hd : t.dropWhile isspace with _ | ⟨x, xs⟩
  · rw [dropWhile_eq_nil_iff] at hd
    exact absurd (hd c hc) (by simp [hs])
  · have hx : isspace x = false := by
      have := head?_dropWhile_not isspace t
      rw [hd] at this
      simpa using this
    exact absurd (hall x (by simp [hd])) (by simp [hx])

theorem trim_of_head {t : List Char} (ht : ∀ c, t.head? = some c → isspace c = false) :
    trim t = t.rdropWhile isspace := by
  have h := @dropWhile_blanks [] t (by simp) ht
  rw [nil_append] at h
  unfold trim
  rw [h]

theorem trimInPlace_of_head {t : List Char} (ht : ∀ c, t.head? = some c → isspace c = false) :
    trimInPlace t = t.rdropWhile isspace := by
  unfold trimInPlace
  rw [trim_of_head ht]
  rcases t with _ | ⟨c, cs⟩
  · rfl
  · rw [takeWhile_cons_of_neg (by simp [ht c rfl]), nil_append]

/-- A text without blanks at its ends. -/
structure Trimmed (t : List Char) : Prop where
  head : ∀ c, t.head? = some c → isspace c = false
  last : ∀ c, t.getLast? = some c → isspace c = false

theorem Trimmed.trim {t : List Char} (h : Trimmed t) : trim t = t := by
  have := rdropWhile_blanks (b := []) (by simp) h.last
  rw [append_nil] at this
  rw [trim_of_head h.head, this]

theorem Trimmed.trimInPlace {t : List Char} (h : Trimmed t) : trimInPlace t = t := by
  have := rdropWhile_blanks (b := []) (by simp) h.last
  rw [append_nil] at this
  rw [trimInPlace_of_head h.head, this]

/-! ### `parse_integer` -/

/-- On a literal, `parse_integer` gives its value if an `int64_t` holds it and only blanks
    follow it. -/
theorem parseInteger_literal (l : Literal) {pre post : List Char}
    (hpre : ∀ c ∈ pre, isspace c = true) (hpost : NoDigit post) :
    (parseInteger (pre ++ (l.text ++ post))).1 =
      if FitsI64 l.value ∧ trim post = [] then some l.value else none := by
  obtain ⟨c, rest, ht, -, -⟩ := l.head_text
  have hne : pre ++ (l.text ++ post) ≠ [] := by simp [ht]
  unfold parseInteger
  rw [if_neg hne]
  simp only [strtoll_literal l hpre hpost]
  by_cases hf : FitsI64 l.value
  · have hclamp : max (-2 ^ 63) (min l.value (2 ^ 63 - 1)) = l.value := by
      obtain ⟨hlo, hhi⟩ := hf
      omega
    simp only [hf, not_true_eq_false, decide_false, Bool.false_eq_true, if_false, true_and, hclamp]
  · simp [hf]

/-- What the buffer then holds begins with the literal. -/
theorem parseInteger_literal_snd (l : Literal) {post : List Char} (hpost : NoDigit post) :
    ∃ rest, (parseInteger (l.text ++ post)).2 = l.text ++ rest := by
  obtain ⟨c, rest, ht, -, -⟩ := l.head_text
  have hs := @strtoll_literal l [] post (by simp) hpost
  rw [nil_append] at hs
  unfold parseInteger
  rw [if_neg (by simp [ht])]
  simp only [hs]
  split
  · exact ⟨post, rfl⟩
  · refine ⟨trimInPlace post, ?_⟩
    simp

/-- A name is no number; the blanks behind it are cut off. -/
theorem parseInteger_sym (s : SymName) (post : List Char) :
    parseInteger (s.name ++ post) = (none, (s.name ++ post).rdropWhile isspace) := by
  obtain ⟨c, rest, hn, hdig⟩ := s.first
  have hw : wordChar c = true := s.word c (by simp [hn])
  have hhead : (s.name ++ post).head? = some c := by simp [hn]
  have hspace : ∀ x, (s.name ++ post).head? = some x → isspace x = false := by
    intro x hx
    obtain rfl : c = x := by rw [hhead] at hx; simpa using hx
    exact not_blank_of_word hw
  have hdrop : (s.name ++ post).dropWhile isspace = s.name ++ post := by
    have h := @dropWhile_blanks [] (s.name ++ post) (by simp) hspace
    rwa [nil_append] at h
  have hzero : c ≠ '0' := by
    rintro rfl
    cases hdig
  have hstrtoll : strtoll (s.name ++ post) = { value := 0, erange := false, rest := s.name ++ post } := by
    have hsign : ∀ x, wordChar x = false → (s.name ++ post).head? ≠ some x := by
      intro x hx
      rw [hhead]
      simpa using ne_of_word hw hx
    unfold strtoll
    simp only [hdrop]
    rw [if_neg (hsign '-' (by decide)), if_neg (hsign '+' (by decide))]
    have hbase : strtollBase (s.name ++ post) = (10, s.name ++ post) := by
      unfold strtollBase
      rw [if_neg (by rw [hhead]; simpa using hzero)]
    unfold strtollDigits
    simp only [hbase, hhead, Option.any_some]
    rw [if_neg (by simpa [isdigit] using hdig)]
  have hne : s.name ++ post ≠ [] := by simp [hn]
  have htrim : trim (s.name ++ post) ≠ [] :=
    trim_ne_nil (mem_of_mem_head? hhead) (not_blank_of_word hw)
  unfold parseInteger
  rw [if_neg hne]
  simp only [hstrtoll, Bool.false_eq_true, if_false, Nat.sub_self, take_zero, nil_append]
  rw [if_neg htrim, trimInPlace_of_head hspace]

/-! ### The part before the sign -/

theorem noDigit_of_head {c : Char} {rest : List Char} (h : digitVal c = none) :
    NoDigit (c :: rest) := by
  intro x hx
  obtain rfl : c = x := by simpa using hx
  exact h

theorem noDigit_blanks {b rest : List Char} (hb : ∀ c ∈ b, isspace c = true)
    (hrest : NoDigit rest) : NoDigit (b ++ rest) := by
  rcases b with _ | ⟨c, cs⟩
  · exact hrest
  · exact noDigit_of_head (digitVal_none_of_isspace (hb c mem_cons_self))

/-- A literal before the sign that an `int64_t` holds is a number. -/
theorem referenceHead_lit (l : Literal) {b : List Char} (hb : ∀ c ∈ b, isspace c = true)
    (hf : FitsI64 l.value) (addend : Option Int) :
    referenceHead (l.text ++ b) addend =
      match addend with
      | some a => (addI64 a l.value).map .number
      | none => .ok (.number l.value) := by
  have hnd : NoDigit b := by
    have h := @noDigit_blanks b [] hb (by intro c hc; simp at hc)
    rwa [append_nil] at h
  have h := @parseInteger_literal l [] b (by simp) hnd
  rw [nil_append, if_pos ⟨hf, trim_blanks hb⟩] at h
  rcases hp : parseInteger (l.text ++ b) with ⟨v, buf⟩
  rw [hp] at h
  obtain rfl : v = some l.value := h
  rcases addend with _ | a <;> simp only [referenceHead, hp]

/-- Any other text that begins with a literal becomes a symbol. -/
theorem referenceHead_lit_symbol (l : Literal) {post : List Char} (hpost : NoDigit post)
    (h : ¬ (FitsI64 l.value ∧ trim post = [])) (addend : Option Int) :
    ∃ name, referenceHead (l.text ++ post) addend = .ok (.symbol name (addend.getD 0)) := by
  have h1 := @parseInteger_literal l [] post (by simp) hpost
  rw [nil_append, if_neg h] at h1
  obtain ⟨rest, h2⟩ := parseInteger_literal_snd l hpost
  obtain ⟨c, cs, ht, -, -⟩ := l.head_text
  rcases hp : parseInteger (l.text ++ post) with ⟨v, buf⟩
  rw [hp] at h1 h2
  obtain rfl : v = none := h1
  obtain rfl : buf = l.text ++ rest := h2
  refine ⟨stripQuotes (l.text ++ rest), ?_⟩
  simp only [referenceHead, hp]
  rw [if_neg (by simp [ht])]

theorem stripQuotes_of_head {t : List Char} (h : t.head? ≠ some '"') : stripQuotes t = t := by
  unfold stripQuotes
  rw [if_neg (fun hq => h hq.1)]

theorem SymName.last (s : SymName) : ∀ c, s.name.getLast? = some c → isspace c = false := by
  intro c hc
  exact not_blank_of_word (s.word c (mem_of_mem_getLast? hc))

/-- A name before the sign is the symbol; whatever follows it up to the last character that is no
    blank belongs to the symbol's name. -/
theorem referenceHead_sym (s : SymName) (post : List Char) (addend : Option Int) :
    referenceHead (s.name ++ post) addend =
      .ok (.symbol ((s.name ++ post).rdropWhile isspace) (addend.getD 0)) := by
  obtain ⟨c, rest, hn, -⟩ := s.first
  have hw : wordChar c = true := s.word c (by simp [hn])
  -- the first character is no blank, so it is still there
  have hhead : ((s.name ++ post).rdropWhile isspace).head? = some c := by
    obtain ⟨d, hd⟩ := rdropWhile_prefix isspace (l := s.name ++ post)
    rcases hr : (s.name ++ post).rdropWhile isspace with _ | ⟨x, xs⟩
    · have hall := rdropWhile_eq_nil_iff.mp hr
      exact absurd (hall c (by simp [hn])) (by simp [not_blank_of_word hw])
    · rw [hr, hn] at hd
      have : x = c := by simpa using congrArg head? hd
      rw [this]; rfl
  simp only [referenceHead, parseInteger_sym]
  have hne : (s.name ++ post).rdropWhile isspace ≠ [] := by
    intro h
    rw [h] at hhead
    simp at hhead
  rw [if_neg hne, stripQuotes_of_head]
  rw [hhead]
  simpa using ne_of_word hw (d := '"') (by decide)

/-! ### The split -/

/-- No character is a sign. -/
def SignFree (t : List Char) : Prop := ∀ c ∈ t, c ≠ '+' ∧ c ≠ '-'

theorem splitScan_skip {a : List Char} (ha : SignFree a) (before t : List Char) :
    splitScan before (a ++ t) = splitScan (a.reverse ++ before) t := by
  induction a generalizing before with
  | nil => rfl
  | cons c cs ih =>
    have hc := ha c mem_cons_self
    rw [cons_append, splitScan, if_neg (by rintro ⟨h | h, -⟩ <;> simp_all),
      ih (fun x hx => ha x (mem_cons_of_mem _ hx))]
    simp

theorem splitScan_signFree {a : List Char} (ha : SignFree a) (before : List Char) :
    splitScan before a = none := by
  have h := splitScan_skip ha before []
  rwa [append_nil] at h

/-- The part before the split begins with what was read already. -/
theorem splitScan_before {before t head rest : List Char}
    (h : splitScan before t = some (head, rest)) : ∃ m, head = before.reverse ++ m := by
  induction t generalizing before with
  | nil => simp [splitScan] at h
  | cons c cs ih =>
    rw [splitScan] at h
    split at h
    · cases h
      exact ⟨[], by simp⟩
    · obtain ⟨m, hm⟩ := ih h
      exact ⟨c :: m, by simp [hm]⟩

/-- A term: no sign behind its first character. -/
def Term (t : List Char) : Prop := ∃ c cs, t = c :: cs ∧ SignFree cs

theorem referenceBody_term {t : List Char} (ht : Term t) :
    referenceBody t = referenceHead t none := by
  obtain ⟨c, cs, rfl, hcs⟩ := ht
  simp only [referenceBody, splitScan_signFree hcs]

variable {t b rest : List Char} {sign : Char}

/-- The scan arrives at the sign with everything before it read. -/
theorem splitScan_term {c : Char} {cs : List Char} (hcs : SignFree cs) (hb : SignFree b) :
    splitScan [c] (cs ++ (b ++ sign :: rest)) =
      splitScan ((c :: cs) ++ b).reverse (sign :: rest) := by
  have hfree : SignFree (cs ++ b) := by
    intro x hx
    exact (mem_append.mp hx).elim (hcs x) (hb x)
  rw [← append_assoc, splitScan_skip hfree]
  simp

/-- A text is split at its first sign, if no mantissa precedes it. -/
theorem referenceBody_split (ht : Term t) (hb : SignFree b) (hsign : sign = '+' ∨ sign = '-')
    (hsci : sciMantissa (t ++ b).reverse = false) :
    referenceBody (t ++ (b ++ sign :: rest)) =
      match (parseInteger rest).1 with
      | none => .error (.refused ())
      | some addend => referenceHead (t ++ b) (some addend) := by
  obtain ⟨c, cs, rfl, hcs⟩ := ht
  have hscan := @splitScan_term b rest sign c cs hcs hb
  rw [splitScan, if_pos ⟨hsign, hsci⟩, reverse_reverse] at hscan
  rw [cons_append]
  rcases hrest : (parseInteger rest).1 with _ | a <;> simp only [referenceBody, hscan, hrest]

/-- Behind a mantissa the sign stays in the part before the split. -/
theorem referenceBody_scientific (ht : Term t) (hb : SignFree b)
    (hsci : sciMantissa (t ++ b).reverse = true) :
    (∃ e, referenceBody (t ++ (b ++ sign :: rest)) = .error e) ∨
      ∃ m addend, referenceBody (t ++ (b ++ sign :: rest)) =
        referenceHead (t ++ (b ++ sign :: m)) addend := by
  obtain ⟨c, cs, rfl, hcs⟩ := ht
  have hscan := @splitScan_term b rest sign c cs hcs hb
  rw [splitScan, if_neg (fun h => absurd (hsci.symm.trans h.2) (by decide))] at hscan
  rw [cons_append]
  simp only [referenceBody, hscan]
  rcases hs : splitScan (sign :: (c :: cs ++ b).reverse) rest with _ | ⟨head, tail⟩
  · exact Or.inr ⟨rest, none, rfl⟩
  · obtain ⟨m, rfl⟩ := splitScan_before hs
    dsimp only
    rcases (parseInteger tail).1 with _ | a
    · exact Or.inl ⟨_, rfl⟩
    · exact Or.inr ⟨m, some a, by simp⟩

/-- `parse_reference` on a text without blanks at its ends and without a modifier. -/
theorem parseReference_text {text : List Char} (htrim : Trimmed text) (hat : '@' ∉ text) :
    parseReference text =
      if BUFFER_SIZE ≤ text.length then .error (.refused ())
      else (referenceBody text).map (·, []) := by
  have hne : ∀ c ∈ text, decide (c ≠ '@') = true := by
    intro c hc
    apply decide_eq_true
    rintro rfl
    exact hat hc
  have htake : text.takeWhile (fun c => decide (c ≠ '@')) = text := takeWhile_eq_self_iff.mpr hne
  have hdrop : text.dropWhile (fun c => decide (c ≠ '@')) = [] := dropWhile_eq_nil_iff.mpr hne
  unfold parseReference
  simp only [htrim.trimInPlace, htake, hdrop, drop_nil, length_nil]
  rw [if_neg (c := MODIFIER_SIZE ≤ 0) (by decide)]

/-! ### References of operands -/

theorem Literal.nonblank (l : Literal) : ∀ c ∈ l.text, isspace c = false := by
  obtain ⟨c, rest, ht, hc, hrest⟩ := l.head_text
  intro x hx
  rw [ht] at hx
  rcases mem_cons.mp hx with rfl | hx
  · exact isspace_head_term hc
  · exact not_blank_of_word (hrest x hx)

theorem Literal.term (l : Literal) : Term l.text := by
  obtain ⟨c, rest, ht, -, hrest⟩ := l.head_text
  exact ⟨c, rest, ht, fun x hx =>
    ⟨ne_of_word (hrest x hx) (by decide), ne_of_word (hrest x hx) (by decide)⟩⟩

theorem Head.nonblank (h : Head) : ∀ c ∈ h.text, isspace c = false := by
  rcases h with l | s
  · exact l.nonblank
  · exact fun c hc => not_blank_of_word (s.word c hc)

theorem SymName.term (s : SymName) : Term s.name := by
  obtain ⟨c, rest, hn, -⟩ := s.first
  refine ⟨c, rest, hn, fun x hx => ?_⟩
  have hw : wordChar x = true := s.word x (by simp [hn, hx])
  exact ⟨ne_of_word hw (by decide), ne_of_word hw (by decide)⟩

theorem Blanks.isspace (b : Blanks) : ∀ c ∈ b.1, isspace c = true :=
  fun c hc => isspace_of_blank (b.2 c hc)

theorem Blanks.signFree (b : Blanks) : SignFree b.1 := by
  intro c hc
  rcases b.2 c hc with rfl | rfl <;> decide

theorem Tail.sign_cases (t : Tail) : t.sign = '+' ∨ t.sign = '-' := by
  rcases h : t.minus with _ | _ <;> simp [Tail.sign, h]

theorem Tail.noDigit_sign (t : Tail) (rest : List Char) :
    NoDigit (t.before.1 ++ t.sign :: rest) := by
  apply noDigit_blanks t.before.isspace
  apply noDigit_of_head
  rcases t.sign_cases with h | h <;> rw [h] <;> rfl

theorem Tail.isspace_sign (t : Tail) : isspace t.sign = false := by
  rcases t.sign_cases with h | h <;> rw [h] <;> rfl

/-- The literal behind the sign, as `parse_integer` reads it. -/
theorem Tail.parseInteger (t : Tail) :
    (As.parseInteger (t.after.1 ++ t.lit.text)).1 =
      if FitsI64 t.lit.value then some t.lit.value else none := by
  have h := @parseInteger_literal t.lit t.after.1 [] t.after.isspace (by intro c hc; simp at hc)
  rw [append_nil] at h
  rw [h]
  simp [trim_blanks (b := [])]

/-- The operand as `parse_reference` sees it behind a mantissa: the sign is in the first part. -/
theorem blanks_rdropWhile_ne (name : List Char) {b : List Char} {sign : Char} (m : List Char)
    (hs : isspace sign = false) : (name ++ (b ++ sign :: m)).rdropWhile isspace ≠ name := by
  intro h
  have happ := rdropWhile_append_rtakeWhile (p := isspace) (l := name ++ (b ++ sign :: m))
  rw [h] at happ
  have htake := append_cancel_left happ
  have hmem : sign ∈ (name ++ (b ++ sign :: m)).rtakeWhile isspace := by
    rw [htake]
    simp
  exact absurd (mem_rtakeWhile_imp hmem) (by simp [hs])

/-- `parse_reference` on an operand that begins with a literal: when it is a number, and which. -/
theorem referenceBody_lit (c : Literal) (tail : Option Tail) (v : Int) :
    referenceBody (Operand.text ⟨.lit c, tail⟩) = .ok (.number v) ↔
      FitsI64 c.value ∧
        match tail with
        | none => v = c.value
        | some t => FitsI64 t.lit.value ∧ sciMantissa (c.text ++ t.before.1).reverse = false ∧
            FitsI64 (t.lit.value + c.value) ∧ v = t.lit.value + c.value := by
  have hterm : Term c.text := c.term
  -- a head that is out of range, or garbage behind it, makes a symbol of the whole
  have hsymbol : ∀ post, NoDigit post → ¬ (FitsI64 c.value ∧ trim post = []) →
      ∀ addend, referenceHead (c.text ++ post) addend ≠ .ok (.number v) := by
    intro post hpost h addend
    obtain ⟨name, hn⟩ := referenceHead_lit_symbol c hpost h addend
    rw [hn]
    simp
  have hnil : NoDigit [] := by intro x hx; simp at hx
  rcases tail with _ | t
  · have htext : Operand.text ⟨.lit c, none⟩ = c.text ++ [] := rfl
    rw [htext, append_nil, referenceBody_term hterm]
    by_cases hf : FitsI64 c.value
    · have h := @referenceHead_lit c [] (by simp) hf none
      rw [append_nil] at h
      rw [h]
      simp [hf, eq_comm]
    · have h := hsymbol [] hnil (fun h => hf h.1) none
      rw [append_nil] at h
      exact ⟨fun hc => absurd hc h, fun hc => absurd hc.1 hf⟩
  · have htext : Operand.text ⟨.lit c, some t⟩ =
        c.text ++ (t.before.1 ++ t.sign :: (t.after.1 ++ t.lit.text)) := rfl
    rw [htext]
    rcases hsci : sciMantissa (c.text ++ t.before.1).reverse with _ | _
    · rw [referenceBody_split hterm t.before.signFree t.sign_cases hsci, t.parseInteger]
      by_cases hl : FitsI64 t.lit.value
      · rw [if_pos hl]
        by_cases hf : FitsI64 c.value
        · have h := referenceHead_lit c t.before.isspace hf (some t.lit.value)
          dsimp only at h ⊢
          rw [h]
          by_cases ha : FitsI64 (t.lit.value + c.value)
          · unfold addI64
            rw [if_pos ha]
            simp only [Except.map, Except.ok.injEq, Referent.number.injEq]
            exact ⟨fun h => ⟨hf, hl, hsci, ha, h.symm⟩, fun h => h.2.2.2.2.symm⟩
          · unfold addI64
            rw [if_neg ha]
            exact ⟨fun h => absurd h (by simp [Except.map]), fun h => absurd h.2.2.2.1 ha⟩
        · have h := hsymbol t.before.1 (by simpa using noDigit_blanks t.before.isspace hnil)
            (fun h => hf h.1) (some t.lit.value)
          exact ⟨fun hc => absurd hc h, fun hc => absurd hc.1 hf⟩
      · rw [if_neg hl]
        simp [hl]
    · constructor
      · intro h
        rcases @referenceBody_scientific _ _ (t.after.1 ++ t.lit.text) t.sign hterm
            t.before.signFree hsci with ⟨e, he⟩ | ⟨m, addend, he⟩
        · rw [he] at h
          simp at h
        · rw [he] at h
          refine absurd h (hsymbol _ (t.noDigit_sign m) (fun hc => ?_) addend)
          exact trim_ne_nil (mem_append_right _ mem_cons_self) t.isspace_sign hc.2
      · rintro ⟨-, -, h, -⟩
        exact absurd (hsci.symm.trans h) (by decide)

/-- `parse_reference` on an operand that begins with a name: when it is that symbol, and with
    which addend. -/
theorem referenceBody_sym (s : SymName) (tail : Option Tail) (a : Int) :
    referenceBody (Operand.text ⟨.sym s, tail⟩) = .ok (.symbol s.name a) ↔
      match tail with
      | none => a = 0
      | some t => FitsI64 t.lit.value ∧ sciMantissa (s.name ++ t.before.1).reverse = false ∧
          a = t.lit.value := by
  have hterm : Term s.name := s.term
  -- blanks behind the name are cut off
  have hhead : ∀ b : List Char, (∀ c ∈ b, isspace c = true) → ∀ addend : Option Int,
      referenceHead (s.name ++ b) addend = .ok (.symbol s.name (addend.getD 0)) := by
    intro b hb addend
    rw [referenceHead_sym, rdropWhile_blanks hb s.last]
  rcases tail with _ | t
  · have htext : Operand.text ⟨.sym s, none⟩ = s.name ++ [] := rfl
    rw [htext, append_nil, referenceBody_term hterm]
    have h := hhead [] (by simp) none
    rw [append_nil] at h
    rw [h]
    simp [eq_comm]
  · have htext : Operand.text ⟨.sym s, some t⟩ =
        s.name ++ (t.before.1 ++ t.sign :: (t.after.1 ++ t.lit.text)) := rfl
    rw [htext]
    rcases hsci : sciMantissa (s.name ++ t.before.1).reverse with _ | _
    · rw [referenceBody_split hterm t.before.signFree t.sign_cases hsci, t.parseInteger]
      by_cases hl : FitsI64 t.lit.value
      · have h := hhead t.before.1 t.before.isspace (some t.lit.value)
        rw [if_pos hl]
        dsimp only
        rw [h, Option.getD_some, Except.ok.injEq, Referent.symbol.injEq]
        exact ⟨fun h => ⟨hl, hsci, h.2.symm⟩, fun h => ⟨rfl, h.2.2.symm⟩⟩
      · rw [if_neg hl]
        simp [hl]
    · constructor
      · intro h
        rcases @referenceBody_scientific _ _ (t.after.1 ++ t.lit.text) t.sign hterm
            t.before.signFree hsci with ⟨e, he⟩ | ⟨m, addend, he⟩
        · rw [he] at h
          simp at h
        · -- the symbol's name then contains the sign
          rw [he] at h
          rw [referenceHead_sym] at h
          simp only [Except.ok.injEq, Referent.symbol.injEq] at h
          exact absurd h.1 (blanks_rdropWhile_ne s.name m t.isspace_sign)
      · rintro ⟨-, h, -⟩
        exact absurd (hsci.symm.trans h) (by decide)

end MeuOS.As
