import MeuOS.As.Fixups

namespace MeuOS.As

open MeuOS.Lib List Option

/-!
# Differences of labels (`as_parse.c`, `as_elfout.c`)

`.4byte A - B + c`, for two labels of one section, is a number that does not depend on where the
section goes.

* `Difference` — the text of such an operand, and `readData_difference` — what is read from it;
* `Patches` — the number is written, and nothing is left to the linker;
* `difference_patched_iff` — that is so exactly in the labels' own section.
-/

/-! ### The text -/

/-- `A - B`, and a constant behind it. -/
structure Difference where
  minuend : SymName
  subtrahend : SymName
  tail : Option Tail

namespace Difference

def text (d : Difference) : List Char :=
  d.minuend.name ++ ' ' :: '-' :: ' ' :: (d.subtrahend.name ++ (d.tail.map Tail.text).getD [])

/-- The constant. -/
def offset (d : Difference) : Int := (d.tail.map Tail.offset).getD 0

end Difference

theorem findSpacedDash_eq {a : List Char} (ha : ' ' ∉ a) (t : List Char) :
    findSpacedDash (a ++ ' ' :: '-' :: ' ' :: t) = some (a, t) := by
  induction a with
  | nil => simp [findSpacedDash]
  | cons c cs ih =>
    rw [mem_cons, not_or] at ha
    rw [cons_append, findSpacedDash, if_neg (fun h => ha.1 h.1.symm), ih ha.2]
    rfl

theorem SymName.signFree (s : SymName) : SignFree s.name := by
  intro c hc
  exact ⟨ne_of_word (s.word c hc) (by decide), ne_of_word (s.word c hc) (by decide)⟩

theorem SymName.nonblank (s : SymName) : ∀ c ∈ s.name, isspace c = false :=
  (Head.sym s).nonblank

theorem SymName.trimmed (s : SymName) : Trimmed s.name where
  head c hc := s.nonblank c (mem_of_mem_head? hc)
  last c hc := s.last c hc

/-- The part in front of the sign. -/
theorem takeWhile_sign {a : List Char} (ha : SignFree a) {sign : Char}
    (hsign : sign = '+' ∨ sign = '-') (t : List Char) :
    (a ++ sign :: t).takeWhile (fun c => !(c == '+' || c == '-')) = a ∧
      (a ++ sign :: t).dropWhile (fun c => !(c == '+' || c == '-')) = sign :: t := by
  have hall : ∀ c ∈ a, (!(c == '+' || c == '-')) = true := by
    intro c hc
    simp [ha c hc]
  have hstop : (!(sign == '+' || sign == '-')) = false := by
    rcases hsign with rfl | rfl <;> rfl
  constructor
  · rw [takeWhile_append_of_pos hall, takeWhile_cons, hstop]
    simp
  · rw [dropWhile_append_of_pos hall, dropWhile_cons, hstop]
    simp

/-- What is read behind the spaced minus. -/
theorem differenceTail_eq (d : Difference) {p : List Char × Int}
    (h : differenceTail (d.subtrahend.name ++ (d.tail.map Tail.text).getD []) = .ok p) :
    p = (d.subtrahend.name, d.offset) := by
  obtain ⟨a, s, tail⟩ := d
  unfold differenceTail at h
  dsimp only at h ⊢
  cases tail with
  | none =>
    have hall : ∀ c ∈ s.name, (!(c == '+' || c == '-')) = true := by
      intro c hc
      simp [s.signFree c hc]
    rw [map_none, getD_none, append_nil,
      takeWhile_eq_self_iff.mpr hall, dropWhile_eq_nil_iff.mpr hall] at h
    cases h
    rw [s.trimmed.trim]
    rfl
  | some t =>
    have hfree : SignFree (s.name ++ t.before.1) := by
      intro c hc
      exact (mem_append.mp hc).elim (s.signFree c) (t.before.signFree c)
    have htext : s.name ++ ((some t).map Tail.text).getD [] =
        (s.name ++ t.before.1) ++ t.sign :: (t.after.1 ++ t.lit.text) := by
      simp [Tail.text]
    obtain ⟨htake, hdrop⟩ := takeWhile_sign hfree t.sign_cases (t.after.1 ++ t.lit.text)
    rw [htext, htake, hdrop] at h
    have htrim : trim (s.name ++ t.before.1) = s.name := by
      rw [trim_of_head, rdropWhile_blanks t.before.isspace s.last]
      intro c hc
      obtain ⟨x, rest, hn, -⟩ := s.first
      rw [hn, cons_append, head?_cons, some.injEq] at hc
      exact s.nonblank c (by simp [hn, hc])
    dsimp only at h
    rw [t.parseInteger, htrim] at h
    split at h
    next hnone => simp at h
    next k hk =>
      have hk : k = t.lit.value := by
        split at hk
        · exact (some.inj hk).symm
        · simp at hk
      subst hk
      cases hm : t.minus with
      | true =>
        rw [if_pos (by simp [Tail.sign, hm])] at h
        split at h
        · cases h
          simp [Difference.offset, Tail.offset, hm]
        · simp at h
      | false =>
        rw [if_neg (by simp [Tail.sign, hm])] at h
        cases h
        simp [Difference.offset, Tail.offset, hm]

theorem last_append {a b : List Char} (hb : b ≠ []) (hnb : ∀ c ∈ b, isspace c = false) :
    ∀ c, (a ++ b).getLast? = some c → isspace c = false := by
  intro c hc
  rw [getLast?_append_of_ne_nil _ hb] at hc
  exact hnb c (mem_of_mem_getLast? hc)

theorem Difference.trimmed (d : Difference) : Trimmed d.text := by
  obtain ⟨a, s, tail⟩ := d
  constructor
  · intro c hc
    obtain ⟨x, rest, hn, -⟩ := a.first
    have hx : x = c := by simpa [Difference.text, hn] using hc
    exact a.nonblank c (by simp [hn, hx])
  · cases tail with
    | none =>
      have htext : Difference.text ⟨a, s, none⟩ = (a.name ++ [' ', '-', ' ']) ++ s.name := by
        simp [Difference.text]
      rw [htext]
      exact last_append (Head.sym s).text_ne_nil s.nonblank
    | some t =>
      have htext : Difference.text ⟨a, s, some t⟩ =
          (a.name ++ ' ' :: '-' :: ' ' :: (s.name ++ (t.before.1 ++ t.sign :: t.after.1))) ++
            t.lit.text := by
        simp [Difference.text, Tail.text]
      rw [htext]
      exact last_append (Head.lit t.lit).text_ne_nil t.lit.nonblank

/-- **What is read from a difference.** -/
theorem readData_difference {d : Difference} {o : DataOperand} (h : readData d.text = .ok o) :
    o = .difference d.minuend.name 0 d.subtrahend.name d.offset := by
  have hspace : ' ' ∉ d.minuend.name := fun h => absurd (d.minuend.nonblank _ h) (by decide)
  have hdash : findSpacedDash d.text =
      some (d.minuend.name, d.subtrahend.name ++ (d.tail.map Tail.text).getD []) :=
    findSpacedDash_eq hspace _
  unfold readData at h
  rw [d.trimmed.trim, hdash] at h
  dsimp only at h
  split at h
  · simp at h
  · simp at h
  next diff hdiff =>
    obtain rfl := differenceTail_eq d hdiff
    have hat : '@' ∉ d.minuend.name := fun hc =>
      ne_of_word (d.minuend.word _ hc) (by decide : wordChar '@' = false) rfl
    have hbody : referenceBody d.minuend.name = .ok (.symbol d.minuend.name 0) := by
      have := (referenceBody_sym d.minuend none 0).mpr rfl
      simpa [Operand.text, Head.text] using this
    unfold readOperand at h
    rw [d.minuend.trimmed.trim, parseReference_text d.minuend.trimmed hat, hbody] at h
    split at h
    · simp at h
    · simp at h
    next referent modifier href =>
      split at href
      · simp at href
      · cases href
        exact (Except.ok.inj h).symm

/-! ### The field -/

/-- The directive's fixup. -/
def Difference.fixup (d : Difference) (as : AsFile) (w : Width) : Fixup where
  sec := as.current
  offset := as.cur.size
  type := dataRelocType as.target w.size
  width := w.size
  addend := d.offset
  symbol := d.minuend.name
  symbol2 := some d.subtrahend.name

/-- From a state of `resolve_fixups` on, with the fixup the next one: the field gets the bytes and
    holds them in the end, and no relocation is added for it. -/
def Patches (as : AsFile) (st : Resolved) (fix : Fixup) (rest : List Fixup) (bytes : Bytes) :
    Prop :=
  ∃ st', resolveFixup as st fix = .ok st' ∧ st'.groups = st.groups ∧
    st'.field fix = some bytes ∧
    ∀ out, rest.foldlM (resolveFixup as) st' = .ok out → out.field fix = some bytes

/-- Where the directive stands and what it asks for is a number for the assembler. -/
structure Difference.Constant (d : Difference) (as : AsFile) (a b : Symbol) : Prop where
  /-- the directive is in the labels' own section -/
  own : a.sec = as.current
  /-- which has data -/
  data : as.cur.type ≠ SHT_NOBITS
  distance : FitsI64 (toI64 a.value - toI64 b.value)
  sum : FitsI64 (toI64 a.value - toI64 b.value + d.offset)

theorem lowBytes_eq_fieldBytes (w : Width) (v : Int) : lowBytes w v = fieldBytes w.size v := by
  have hw : w.size ≤ 8 := by cases w <;> decide
  have hlow : (leNat (lowBytes w v) : Int) = v % 256 ^ w.size := by
    have hpos : (0 : Int) < 256 ^ w.size := Int.pow_pos (by decide)
    unfold lowBytes
    rw [leNat_leBytes, Int.natCast_mod, Int.toNat_of_nonneg (Int.emod_nonneg _ hpos.ne'),
      Int.natCast_pow]
    exact Int.emod_emod_of_dvd v dvd_rfl
  have hnat := Int.natCast_inj.mp (hlow.trans (leNat_fieldBytes hw v).symm)
  have h₁ := leBytes_leNat (lowBytes w v)
  have h₂ := leBytes_leNat (fieldBytes w.size v)
  rw [length_fieldBytes] at h₂
  rw [show (lowBytes w v).length = w.size from length_leBytes _ _] at h₁
  rw [← h₁, ← h₂, hnat]

/-- The conversions of the values do not show in the field. -/
theorem difference_bytes (w : Width) (a b : Nat) (c : Int) :
    fieldBytes w.size (toI64 a - toI64 b + c) = fieldBytes w.size (a - b + c) := by
  have hw : w.size ≤ 8 := by cases w <;> decide
  have hrange : (256 ^ w.size : Int) ∣ 2 ^ 64 := by
    have h : (256 : Int) ^ w.size ∣ 256 ^ 8 := pow_dvd_pow 256 hw
    exact h
  have hsum : toI64 a - toI64 b + c - (a - b + c) = toI64 a - a - (toI64 b - b) := by omega
  rw [fieldBytes_eq_iff hw, hsum]
  exact hrange.trans (Int.dvd_sub (toI64_dvd a) (toI64_dvd b))

theorem relocAdd_groups (st : Resolved) (fix : Fixup) (sym : Nat) (addend : Int) :
    (relocAdd st fix sym addend).groups ≠ st.groups := by
  intro h
  have hlen := congrArg (fun g => (g fix.sec).length) h
  simp [relocAdd] at hlen

/-- A field within its section can be patched if the section has data. -/
theorem patchLe_iff {st : Resolved} {fix : Fixup} {s : Section} (value : Int)
    (hs : st.sections[fix.sec]? = some s) (hfits : fix.offset + fix.width ≤ s.size)
    (hw : fix.width = 4 ∨ fix.width = 8 ∨ fix.width = 2 ∨ fix.width = 1) :
    (∃ st', patchLe st fix value = .ok st') ↔ s.type ≠ SHT_NOBITS := by
  unfold patchLe
  rw [hs]
  dsimp only
  rw [if_neg (by omega : ¬ (fix.offset > s.size ∨ fix.width > s.size - fix.offset)),
    if_neg (by omega :
      ¬ (fix.width ≠ 4 ∧ fix.width ≠ 8 ∧ fix.width ≠ 2 ∧ fix.width ≠ 1))]
  by_cases ht : s.type = SHT_NOBITS
  · rw [if_pos ht]
    exact iff_of_false (fun ⟨_, h⟩ => nomatch h) (fun h => h ht)
  · rw [if_neg ht]
    exact iff_of_true ⟨_, rfl⟩ ht

/-- What becomes of a difference. -/
theorem decideFixup_difference {as : AsFile} {fix : Fixup} {name2 : List Char} {a b : Symbol}
    (hfix : fix.symbol2 = some name2) (ha : internalSymbol as fix.symbol = .ok a)
    (hb : internalSymbol as name2 = .ok b) (value : Int) :
    decideFixup as fix = .ok (.patch value) ↔
      (a.inSectionOf fix = true ∧ b.inSectionOf fix = true) ∧
        FitsI64 (toI64 a.value - toI64 b.value) ∧
        FitsI64 (toI64 a.value - toI64 b.value + fix.addend) ∧
        value = toI64 a.value - toI64 b.value + fix.addend := by
  have hdecide : decideFixup as fix =
      if a.inSectionOf fix && b.inSectionOf fix then
        subI64 (toI64 a.value) (toI64 b.value) >>= fun delta =>
          addI64 delta fix.addend >>= fun delta => .ok (.patch delta)
      else
        subI64 fix.addend (toI64 b.value) >>= fun addend =>
          .ok (.reloc a.output_index addend) := by
    unfold decideFixup
    rw [ha, hfix]
    show (internalSymbol as name2 >>= _) = _
    rw [hb]
    rfl
  rw [hdecide, ← Bool.and_eq_true]
  by_cases hsame : (a.inSectionOf fix && b.inSectionOf fix) = true
  · rw [if_pos hsame, and_iff_right hsame]
    constructor
    · intro h
      obtain ⟨delta, hdelta, h⟩ := except_bind_eq_ok h
      obtain ⟨sum, hsum, h⟩ := except_bind_eq_ok h
      cases h
      obtain ⟨hsub, hd⟩ := subI64_eq_ok_iff.mp hdelta
      obtain ⟨hadd, hv⟩ := addI64_eq_ok_iff.mp hsum
      rw [hd] at hadd hv
      exact ⟨hsub, hadd, hv⟩
    · rintro ⟨hsub, hadd, hv⟩
      rw [hv, subI64_eq_ok_iff.mpr ⟨hsub, rfl⟩]
      rw [except_ok_bind, addI64_eq_ok_iff.mpr ⟨hadd, rfl⟩, except_ok_bind]
  · rw [if_neg hsame]
    refine iff_of_false (fun h => ?_) (fun h => hsame h.1)
    obtain ⟨addend, -, h⟩ := except_bind_eq_ok h
    cases Except.ok.inj h

/-! ### The source -/

/-- A source comes apart at a statement. -/
theorem assemble_split {target : Option Nat} {before after : List Statement} {stmt : Statement}
    {r₀ r : AsRun} (h₀ : assemble target before = .ok r₀)
    (h : assemble target (before ++ stmt :: after) = .ok r) :
    ∃ r₁, stmt.run r₀ = .ok r₁ ∧ after.foldlM Statement.run r₁ = .ok r := by
  unfold assemble at h₀ h
  rw [foldlM_append, h₀, except_ok_bind, foldlM_cons] at h
  exact except_bind_eq_ok h

/-- The fixups of a source with a difference in it: those before, its own, and the rest. -/
theorem difference_fixups {d : Difference} {w : Width} {r₀ r₁ r : AsRun} {after : List Statement}
    (h₁ : (Statement.data d.text w.size).run r₀ = .ok r₁)
    (h : after.foldlM Statement.run r₁ = .ok r) :
    ∃ rest, r.file.fixups = r₀.file.fixups ++ d.fixup r₀.file w :: rest := by
  obtain ⟨as, has, hr⟩ := except_bind_eq_ok h₁
  cases hr
  unfold Statement.runFile at has
  dsimp only at has
  rw [parseDataValue_eq] at has
  obtain ⟨o, ho, hemit⟩ := except_bind_eq_ok has
  obtain rfl := readData_difference ho
  have hfixups := (emitOperand_spec hemit).1
  obtain ⟨rest, hrest⟩ := (source_lays h).fixups
  refine ⟨rest, ?_⟩
  rw [← hrest, hfixups]
  simp [DataOperand.fixups, Difference.fixup]

/-- A symbol that is defined is found, with its index, when the table has been built. -/
theorem internalSymbol_built {as : AsFile} {b : BuiltSymbols} (hb : buildSymbols as = .ok b)
    (hbind : ∀ s ∈ as.symbols, s.bind < 16) {n : List Char} (hdef : (as.symbol n).defined = true) :
    ∃ u, internalSymbol b.file n = .ok u ∧ Indexed (as.symbol n) u := by
  unfold AsFile.symbol at hdef ⊢
  cases hfind : as.symbols.find? fun s => s.name = n with
  | none =>
    rw [hfind] at hdef
    exact absurd hdef (by simp [newSymbol])
  | some s =>
    obtain ⟨u, hu, hindexed⟩ := find?_indexed n (buildSymbols_spec hb hbind).1 hfind
    refine ⟨u, ?_, hindexed⟩
    unfold internalSymbol
    rw [hu]

/-- In any assembled source, when `resolve_fixups` arrives at the fixup of a difference of two
    labels of one section, it patches the field with the low bytes of the difference and leaves
    nothing to the linker exactly when the directive stands in that section, the section has data,
    and the sums fit their type. -/
theorem difference_patched_iff {target : Option Nat} {before after : List Statement}
    {d : Difference} {w : Width} {r₀ r : AsRun} {b : BuiltSymbols} {st : Resolved}
    (h₀ : assemble target before = .ok r₀)
    (h : assemble target (before ++ .data d.text w.size :: after) = .ok r)
    (hb : buildSymbols r.file = .ok b)
    (hminuend : (r.file.symbol d.minuend.name).defined = true)
    (hsubtrahend : (r.file.symbol d.subtrahend.name).defined = true)
    (hsec : (r.file.symbol d.subtrahend.name).sec = (r.file.symbol d.minuend.name).sec)
    (hst : (b.file.fixups.take r₀.file.fixups.length).foldlM (resolveFixup b.file)
      (.start b.file) = .ok st) :
    b.file.fixups[r₀.file.fixups.length]? = some (d.fixup r₀.file w) ∧
      (Patches b.file st (d.fixup r₀.file w) (b.file.fixups.drop (r₀.file.fixups.length + 1))
          (lowBytes w ((r.file.symbol d.minuend.name).value -
            (r.file.symbol d.subtrahend.name).value + d.offset)) ↔
        d.Constant r₀.file (r.file.symbol d.minuend.name)
          (r.file.symbol d.subtrahend.name)) := by
  obtain ⟨r₁, h₁, hafter⟩ := assemble_split h₀ h
  obtain ⟨rest, hfixups⟩ := difference_fixups h₁ hafter
  obtain ⟨hsections, hbfixups, -⟩ := buildSymbols_rest hb
  rw [← hbfixups] at hfixups
  have htake : b.file.fixups.take r₀.file.fixups.length = r₀.file.fixups := by
    rw [hfixups, take_left]
  have hdrop : b.file.fixups.drop (r₀.file.fixups.length + 1) = rest := by
    rw [hfixups, ← drop_drop, drop_left]
    rfl
  rw [htake] at hst
  rw [hdrop]
  have hget : b.file.fixups[r₀.file.fixups.length]? = some (d.fixup r₀.file w) := by
    rw [hfixups, getElem?_append_right le_rfl, Nat.sub_self]
    rfl
  refine ⟨hget, ?_⟩
  have hl := laid_built h hb
  have hmem := mem_of_getElem? hget
  -- the section when the fixup is resolved
  obtain ⟨s, hs, htype, -⟩ :=
    ((lays_run h₁).trans (source_lays hafter)).sections _ _ r₀.file.getElem?_current
  rw [← hsections] at hs
  obtain ⟨s', hs', hfits⟩ := hl.within _ hmem
  obtain rfl : s = s' := some.inj (hs.symm.trans hs')
  have hresolving := resolving_run (fun _ => rfl) hst r₀.file.current
  rw [hs] at hresolving
  obtain ⟨t, ht, hshape⟩ := map_eq_some_iff.mp hresolving
  obtain ⟨httype, htsize⟩ := Prod.mk.inj hshape
  have hwidth : w.size = 4 ∨ w.size = 8 ∨ w.size = 2 ∨ w.size = 1 := by cases w <;> decide
  have hpatch := fun v => @patchLe_iff st (d.fixup r₀.file w) t v ht (htsize ▸ hfits) hwidth
  rw [httype, htype] at hpatch
  -- the two symbols
  have hbind := assemble_bind_lt h
  obtain ⟨ua, hua, hia⟩ := internalSymbol_built hb hbind hminuend
  obtain ⟨ub, hub, hib⟩ := internalSymbol_built hb hbind hsubtrahend
  have hdecide := fun v =>
    @decideFixup_difference b.file (d.fixup r₀.file w) d.subtrahend.name ua ub rfl hua hub v
  have hsame : (ua.inSectionOf (d.fixup r₀.file w) = true ∧
      ub.inSectionOf (d.fixup r₀.file w) = true) ↔
        (r.file.symbol d.minuend.name).sec = r₀.file.current := by
    rw [hia, hib]
    unfold Symbol.inSectionOf Difference.fixup
    simp [hminuend, hsubtrahend, hsec]
  have hva : ua.value = (r.file.symbol d.minuend.name).value := by rw [hia]
  have hvb : ub.value = (r.file.symbol d.subtrahend.name).value := by rw [hib]
  rw [hsame, hva, hvb] at hdecide
  constructor
  · rintro ⟨st', hstep, hgroups, -⟩
    rcases resolveFixup_eq_ok hstep with ⟨v, hd, hp⟩ | ⟨sym, addend, -, rfl⟩
    · obtain ⟨hown, hsub, hsum, -⟩ := (hdecide v).mp hd
      exact ⟨hown, (hpatch v).mp ⟨st', hp⟩, hsub, hsum⟩
    · exact absurd hgroups (relocAdd_groups _ _ _ _)
  · intro hc
    have hd := (hdecide _).mpr ⟨hc.own, hc.distance, hc.sum, rfl⟩
    obtain ⟨st', hp⟩ := (hpatch _).mpr hc.data
    have hstep : resolveFixup b.file st (d.fixup r₀.file w) = .ok st' := by
      unfold resolveFixup
      rw [hd, except_ok_bind]
      exact hp
    have hheld : st'.field (d.fixup r₀.file w) =
        some (lowBytes w ((r.file.symbol d.minuend.name).value -
          (r.file.symbol d.subtrahend.name).value + d.offset)) := by
      rw [patched_field hp, lowBytes_eq_fieldBytes]
      exact congrArg some (difference_bytes _ _ _ _)
    refine ⟨st', hstep, ?_, hheld, fun out hout => ?_⟩
    · obtain ⟨s', -, -, -, rfl⟩ := patchLe_eq_ok hp
      rfl
    · have hapart := hl.apart
      rw [hfixups] at hapart
      rw [field_run (pairwise_cons.mp (pairwise_append.mp hapart).2.1).1 hout]
      exact hheld

/-- Two labels. -/
def symA : SymName := ⟨['A'], all_eq_true.mp rfl, 'A', [], rfl, by decide⟩

def symB : SymName := ⟨['B'], all_eq_true.mp rfl, 'B', [], rfl, by decide⟩

/-- `B - A`. -/
def distanceBA : Difference := ⟨symB, symA, none⟩

/-- Two bytes between the labels, and a section behind them. -/
def twoBytes (sec : List Char) : List Statement :=
  [.label symA.name, .bytes [0x90, 0x90], .label symB.name, .enter sec]

/-- What is needed of the runs: where the directive stands, the symbols, and the number of
    relocations that its turn adds. -/
def distanceRun (sec : List Char) :
    Option (AsRun × AsRun × BuiltSymbols × Resolved) := do
  let r₀ ← (assemble (some EM_X86_64) (twoBytes sec)).toOption
  let r ← (assemble (some EM_X86_64) (twoBytes sec ++ [.data distanceBA.text 4])).toOption
  let b ← (buildSymbols r.file).toOption
  let st ← (resolveFixup b.file (.start b.file) (distanceBA.fixup r₀.file .long)).toOption
  some (r₀, r, b, st)

theorem distanceRun_eq_some {sec : List Char} {p : AsRun × AsRun × BuiltSymbols × Resolved}
    (h : distanceRun sec = some p) :
    assemble (some EM_X86_64) (twoBytes sec) = .ok p.1 ∧
      assemble (some EM_X86_64) (twoBytes sec ++ [.data distanceBA.text 4]) = .ok p.2.1 ∧
      buildSymbols p.2.1.file = .ok p.2.2.1 ∧
      resolveFixup p.2.2.1.file (.start p.2.2.1.file) (distanceBA.fixup p.1.file .long) =
        .ok p.2.2.2 := by
  unfold distanceRun at h
  obtain ⟨r₀, h₀, h⟩ := bind_eq_some_iff.mp h
  obtain ⟨r, hr, h⟩ := bind_eq_some_iff.mp h
  obtain ⟨b, hb, h⟩ := bind_eq_some_iff.mp h
  obtain ⟨st, hst, h⟩ := bind_eq_some_iff.mp h
  cases h
  exact ⟨eq_ok_of_toOption h₀, eq_ok_of_toOption hr, eq_ok_of_toOption hb, eq_ok_of_toOption hst⟩

/-- In the labels' own section the distance is written. -/
theorem difference_patched_text :
    ∃ r₀ r b, assemble (some EM_X86_64) (twoBytes ".text".toList) = .ok r₀ ∧
      assemble (some EM_X86_64) (twoBytes ".text".toList ++ [.data distanceBA.text 4]) = .ok r ∧
      buildSymbols r.file = .ok b ∧
      (b.file.fixups[r₀.file.fixups.length]? = some (distanceBA.fixup r₀.file .long) ∧
        (Patches b.file (.start b.file) (distanceBA.fixup r₀.file .long)
            (b.file.fixups.drop (r₀.file.fixups.length + 1))
            (lowBytes .long ((r.file.symbol symB.name).value - (r.file.symbol symA.name).value +
              distanceBA.offset)) ↔
          distanceBA.Constant r₀.file (r.file.symbol symB.name) (r.file.symbol symA.name))) := by
  have hrun : (distanceRun ".text".toList).map (fun p => (p.1.file.fixups,
      p.2.1.file.symbol symB.name, p.2.1.file.symbol symA.name)) =
        some ([], { newSymbol ['B'] with defined := true, sec := 0, value := 2 },
          { newSymbol ['A'] with defined := true, sec := 0, value := 0 }) := by
    decide
  obtain ⟨⟨r₀, r, b, st⟩, hp, hfacts⟩ := map_eq_some_iff.mp hrun
  obtain ⟨h₀, hr, hb, -⟩ := distanceRun_eq_some hp
  obtain ⟨hfixups, hsymbols⟩ := Prod.mk.inj hfacts
  obtain ⟨hB, hA⟩ := Prod.mk.inj hsymbols
  refine ⟨r₀, r, b, h₀, hr, hb, ?_⟩
  refine @difference_patched_iff _ _ _ distanceBA .long _ _ _ _ h₀ hr hb ?_ ?_ ?_ ?_
  · exact congrArg Symbol.defined hB
  · exact congrArg Symbol.defined hA
  · exact (congrArg Symbol.sec hA).trans (congrArg Symbol.sec hB).symm
  · rw [show r₀.file.fixups = [] from hfixups]
    rfl

/-- In `.debug_info` it is left to the linker. -/
theorem difference_debug_info :
    ∃ r₀ r b, assemble (some EM_X86_64) (twoBytes ".debug_info".toList) = .ok r₀ ∧
      assemble (some EM_X86_64) (twoBytes ".debug_info".toList ++ [.data distanceBA.text 4]) =
        .ok r ∧
      buildSymbols r.file = .ok b ∧
      ((r.file.symbol symB.name).defined ∧ (r.file.symbol symA.name).defined ∧
        (r.file.symbol symA.name).sec = (r.file.symbol symB.name).sec) ∧
      ¬ Patches b.file (.start b.file) (distanceBA.fixup r₀.file .long)
        (b.file.fixups.drop (r₀.file.fixups.length + 1))
        (lowBytes .long ((r.file.symbol symB.name).value - (r.file.symbol symA.name).value +
          distanceBA.offset)) := by
  have hrun : (distanceRun ".debug_info".toList).map (fun p =>
      (p.2.1.file.symbol symB.name, p.2.1.file.symbol symA.name, (p.2.2.2.groups 1).length)) =
        some ({ newSymbol ['B'] with defined := true, sec := 0, value := 2 },
          { newSymbol ['A'] with defined := true, sec := 0, value := 0 }, 1) := by
    decide
  obtain ⟨⟨r₀, r, b, st⟩, hp, hfacts⟩ := map_eq_some_iff.mp hrun
  obtain ⟨h₀, hr, hb, hst⟩ := distanceRun_eq_some hp
  obtain ⟨hB, hrest⟩ := Prod.mk.inj hfacts
  obtain ⟨hA, hlen⟩ := Prod.mk.inj hrest
  refine ⟨r₀, r, b, h₀, hr, hb, ⟨congrArg Symbol.defined hB, congrArg Symbol.defined hA,
    (congrArg Symbol.sec hA).trans (congrArg Symbol.sec hB).symm⟩, ?_⟩
  rintro ⟨st', hstep, hgroups, -⟩
  cases hst.symm.trans hstep
  have hnone : st.groups 1 = [] := congrFun hgroups 1
  rw [hnone] at hlen
  cases hlen

end MeuOS.As
