import MeuOS.As.Statement
import Mathlib.Data.List.Induction

namespace MeuOS.As

open MeuOS.Lib List

/-!
# The binding of a symbol

What a source does to the binding of one symbol is a matter of the order in which it refers to the
symbol, labels it and lists it in directives.

* `Touch`, `Seen.touch` — the ways to come upon a symbol, and what each does to it;
* `touches` — the touches of a source, and `assemble_touched`: the run is a fold over them;
* `Claimed` — the binding that a symbol ought to have;
* `Ordered`, `claimed_iff` — the orders of touches that give it.
-/

/-! ### Touches -/

/-- The ways in which a source comes upon a symbol. -/
inductive Touch where
  /-- A fixup against it, or an operand that names it. -/
  | refer
  /-- It is looked up, and added if need be. -/
  | mention
  | label
  /-- The label of a digit. -/
  | numericLabel
  | bind (d : SymbolDirective)
  | comm
  | set
  deriving DecidableEq

/-- The fields of a symbol that matter for its binding. -/
@[ext]
structure Seen where
  defined : Bool
  bind : Nat
  deriving DecidableEq

def Symbol.seen (s : Symbol) : Seen := ⟨s.defined, s.bind⟩

/-- A name that begins with a dot. -/
def dotted (name : List Char) : Bool := name.head? = some '.'

/-- What a touch does to a symbol, whose name may be dotted.  A second definition is refused. -/
def Seen.touch (dot : Bool) (s : Seen) : Touch → Option Seen
  | .refer => some (if s.defined = false ∧ dot = false then { s with bind := STB_GLOBAL } else s)
  | .mention => some s
  | .label =>
    if s.defined then none
    else some { defined := true, bind := if dot then STB_LOCAL else s.bind }
  | .numericLabel => if s.defined then none else some { s with defined := true }
  | .bind d => some { s with bind := d.bind }
  | .comm => some { defined := true, bind := STB_GLOBAL }
  | .set => if s.defined then none else some { s with defined := true }

/-- A symbol that has not been seen. -/
def Seen.fresh : Seen := ⟨false, STB_LOCAL⟩

/-- The touches of one name. -/
def touchesOf (name : List Char) (ts : List (List Char × Touch)) : List Touch :=
  (ts.filter (·.1 = name)).map (·.2)

def DataOperand.touches : DataOperand → List (List Char × Touch)
  | .number _ => []
  | .symbol name _ => [(name, .refer), (name, .refer)]
  | .difference name _ sym2 _ => [(name, .refer), (sym2, .refer), (name, .refer)]

/-- The touches of a statement, with the counts of numeric labels before it. -/
def Statement.touches (counts : Fin 10 → Nat) : Statement → List (List Char × Touch)
  | .enter _ => []
  | .label name => [(name, .label)]
  | .numericLabel number => [(numericName number (counts number + 1), .numericLabel)]
  | .numericReference number forward => [(numericTarget counts number forward, .mention)]
  | .list d names => names.map (·, .bind d)
  | .hidden names => names.map (·, .mention)
  | .type name _ => [(name, .mention)]
  | .size name _ => [(name, .mention)]
  | .comm name _ _ => [(name, .comm)]
  | .set name _ => [(name, .set)]
  | .data text _ =>
    match readData text with
    | .ok o => o.touches
    | .error _ => []
  | .bytes _ => []
  | .insn i => i.fixups.map fun f => (f.symbol, .refer)

/-- The counts behind a statement. -/
def Statement.count (counts : Fin 10 → Nat) : Statement → Fin 10 → Nat
  | .numericLabel number => Function.update counts number (counts number + 1)
  | _ => counts

/-- The touches of a source. -/
def touches (counts : Fin 10 → Nat) : List Statement → List (List Char × Touch)
  | [] => []
  | s :: source => s.touches counts ++ touches (s.count counts) source

/-! ### One symbol of the file -/

theorem touchesOf_append (name : List Char) (ts ts' : List (List Char × Touch)) :
    touchesOf name (ts ++ ts') = touchesOf name ts ++ touchesOf name ts' := by
  simp [touchesOf]

@[simp] theorem touchesOf_nil (name : List Char) : touchesOf name [] = [] := rfl

theorem touchesOf_cons (name m : List Char) (t : Touch) (ts : List (List Char × Touch)) :
    touchesOf name ((m, t) :: ts) =
      if m = name then t :: touchesOf name ts else touchesOf name ts := by
  unfold touchesOf
  rw [filter_cons]
  by_cases h : m = name
  · rw [if_pos (by simpa using h), if_pos h]
    rfl
  · rw [if_neg (by simpa using h), if_neg h]

/-- The names of the symbol table. -/
def AsFile.names (as : AsFile) : List (List Char) := as.symbols.map Symbol.name

variable {f : Symbol → Symbol} {α : Type} {as as' : AsFile}

/-- A change of the first symbol of a name, seen through the names. -/
theorem find?_modify {l : List Symbol} {m : List Char} {i : Nat}
    (hf : ∀ s, (f s).name = s.name) (hi : l.findIdx? (fun s => s.name = m) = some i)
    (n : List Char) :
    (l.modify i f).find? (fun s => s.name = n) =
      if n = m then (l.find? fun s => s.name = m).map f else l.find? fun s => s.name = n := by
  induction l generalizing i with
  | nil => simp at hi
  | cons s l ih =>
    rw [findIdx?_cons] at hi
    by_cases hs : s.name = m
    · rw [if_pos (by simpa using hs)] at hi
      obtain rfl := (Option.some.inj hi).symm
      rw [modify_zero_cons, find?_cons, hf]
      by_cases hn : n = m
      · subst hn
        simp [hs]
      · have hne : ¬ s.name = n := fun h => hn (h.symm.trans hs)
        simp [hn, hne]
    · rw [if_neg (by simpa using hs)] at hi
      obtain ⟨j, hj, rfl⟩ := Option.map_eq_some_iff.mp hi
      rw [modify_succ_cons, find?_cons, find?_cons, ih hj]
      by_cases hn : n = m
      · subst hn
        simp [hs]
      · by_cases hne : s.name = n <;> simp [hn, hne]

theorem names_modify (hf : ∀ s, (f s).name = s.name) (l : List Symbol)
    (i : Nat) : (l.modify i f).map Symbol.name = l.map Symbol.name := by
  induction l generalizing i with
  | nil => simp
  | cons s l ih =>
    cases i with
    | zero => simp [hf]
    | succ i => simp [ih]

/-- `get_symbol` finds or adds, and every name keeps its symbol. -/
theorem getSymbol_spec (as : AsFile) (m : List Char) :
    (getSymbol as m).1.symbols.findIdx? (fun s => s.name = m) = some (getSymbol as m).2 ∧
      (∀ n, (getSymbol as m).1.symbol n = as.symbol n) ∧
      (getSymbol as m).1.names = if m ∈ as.names then as.names else as.names ++ [m] := by
  unfold getSymbol
  cases hfind : findSymbol as m with
  | some i =>
    obtain ⟨hlt, hi⟩ := findIdx?_eq_some_iff_getElem.mp hfind
    have hmem : m ∈ as.names := by
      have hname : as.symbols[i].name = m := by simpa using hi.1
      exact hname ▸ mem_map_of_mem (getElem_mem hlt)
    exact ⟨hfind, fun n => rfl, (if_pos hmem).symm⟩
  | none =>
    have hnone : ∀ s ∈ as.symbols, ¬ s.name = m := by
      simpa [findSymbol, findIdx?_eq_none_iff] using hfind
    have hmem : m ∉ as.names := by
      intro h
      obtain ⟨s, hs, hname⟩ := mem_map.mp h
      exact hnone s hs hname
    refine ⟨?_, fun n => ?_, ?_⟩
    · have hidx : as.symbols.findIdx? (fun s => decide (s.name = m)) = none := hfind
      simp [findIdx?_append, hidx, newSymbol]
    · unfold AsFile.symbol
      rw [find?_append]
      cases as.symbols.find? fun s => s.name = n with
      | some s => rfl
      | none =>
        by_cases hn : m = n
        · simp [newSymbol, hn]
        · simp [newSymbol, hn]
    · rw [if_neg hmem]
      simp [AsFile.names, newSymbol]

/-- A change of one symbol: the other names keep theirs. -/
theorem updateSymbol_symbol (as : AsFile) (m : List Char)
    (hf : ∀ s, (f s).name = s.name) (n : List Char) :
    (updateSymbol as m f).symbol n = if n = m then f (as.symbol m) else as.symbol n := by
  obtain ⟨hidx, hsame, -⟩ := getSymbol_spec as m
  have hfind := find?_modify hf hidx n
  have hm := hsame m
  have hn := hsame n
  unfold AsFile.symbol at hm hn ⊢
  show (((getSymbol as m).1.symbols.modify (getSymbol as m).2 f).find? _).getD _ = _
  rw [hfind]
  by_cases hnm : n = m
  · subst hnm
    rw [if_pos rfl, if_pos rfl, ← hm]
    obtain ⟨hlt, hi⟩ := findIdx?_eq_some_iff_getElem.mp hidx
    cases hs : (getSymbol as n).1.symbols.find? fun s => s.name = n with
    | none => exact absurd hi.1 (find?_eq_none.mp hs _ (getElem_mem hlt))
    | some s => rfl
  · rw [if_neg hnm, if_neg hnm]
    exact hn

theorem updateSymbol_names (as : AsFile) (m : List Char) (hf : ∀ s, (f s).name = s.name) :
    (updateSymbol as m f).names = if m ∈ as.names then as.names else as.names ++ [m] := by
  rw [← (getSymbol_spec as m).2.2]
  exact names_modify hf _ _

/-! ### The file as a fold of touches -/

theorem except_bind_eq_ok {ε β : Type} {x : Except ε α} {f : α → Except ε β} {b : β}
    (h : (x >>= f) = .ok b) : ∃ a, x = .ok a ∧ f a = .ok b := by
  match x with
  | .ok a => exact ⟨a, rfl, h⟩

theorem except_ok_bind {ε β : Type} (a : α) (f : α → Except ε β) :
    (Except.ok a >>= f) = f a := rfl

/-- The file `as'` is `as` after the touches. -/
structure Touched (as : AsFile) (ts : List (List Char × Touch)) (as' : AsFile) : Prop where
  seen : ∀ n, (touchesOf n ts).foldlM (Seen.touch (dotted n)) (as.symbol n).seen =
    some (as'.symbol n).seen
  names : ∀ n, n ∈ as'.names ↔ n ∈ as.names ∨ n ∈ ts.map (·.1)
  nodup : as.names.Nodup → as'.names.Nodup

theorem Touched.refl (as : AsFile) : Touched as [] as :=
  ⟨fun _ => rfl, fun _ => by simp, id⟩

/-- What leaves the symbols alone is no touch. -/
theorem Touched.of_symbols (h : as'.symbols = as.symbols) :
    Touched as [] as' := by
  have hs : as'.symbol = as.symbol := by
    unfold AsFile.symbol
    rw [h]
  have hn : as'.names = as.names := by
    unfold AsFile.names
    rw [h]
  exact ⟨fun n => by rw [hs]; rfl, fun n => by simp [hn], fun h => hn ▸ h⟩

theorem Touched.trans {as₁ as₂ : AsFile} {ts ts' : List (List Char × Touch)}
    (h : Touched as ts as₁) (h' : Touched as₁ ts' as₂) : Touched as (ts ++ ts') as₂ where
  seen n := by
    rw [touchesOf_append, foldlM_append, h.seen]
    exact h'.seen n
  names n := by
    rw [h'.names, h.names, map_append, mem_append, or_assoc]
  nodup hn := h'.nodup (h.nodup hn)

/-- The fields of a symbol are looked at for one touch. -/
theorem touched_update {as : AsFile} {m : List Char} {f : Symbol → Symbol} {t : Touch}
    (hf : ∀ s, (f s).name = s.name)
    (ht : (as.symbol m).seen.touch (dotted m) t = some (f (as.symbol m)).seen) :
    Touched as [(m, t)] (updateSymbol as m f) where
  seen n := by
    rw [updateSymbol_symbol as m hf, touchesOf_cons]
    by_cases h : n = m
    · subst h
      rw [if_pos rfl, if_pos rfl, foldlM_cons, ht]
      rfl
    · rw [if_neg h, if_neg (fun hm => h hm.symm)]
      rfl
  names n := by
    rw [updateSymbol_names as m hf]
    by_cases h : m ∈ as.names
    · rw [if_pos h]
      constructor
      · exact Or.inl
      · rintro (hn | hn)
        · exact hn
        · rw [map_singleton, mem_singleton] at hn
          exact hn ▸ h
    · rw [if_neg h, mem_append]
      simp
  nodup hn := by
    rw [updateSymbol_names as m hf]
    by_cases h : m ∈ as.names
    · rwa [if_pos h]
    · rw [if_neg h]
      refine nodup_append.mpr ⟨hn, by simp, fun a ha b hb hab => ?_⟩
      rw [mem_singleton] at hb
      exact h (hb ▸ hab ▸ ha)

theorem touched_getSymbol (as : AsFile) (m : List Char) :
    Touched as [(m, .mention)] (getSymbol as m).1 := by
  have h := @touched_update as m id .mention (fun _ => rfl) rfl
  have hsym : (updateSymbol as m id).symbols = (getSymbol as m).1.symbols := by
    show (getSymbol as m).1.symbols.modify _ id = _
    rw [modify_id]
  have hback : (getSymbol as m).1.symbols = (updateSymbol as m id).symbols := hsym.symm
  have := h.trans (Touched.of_symbols hback)
  rwa [append_nil] at this

/-- A reference. -/
theorem touched_refer (as : AsFile) (m : List Char) :
    Touched as [(m, .refer)] (referSymbol as m) := by
  refine touched_update (f := fun s =>
    if s.defined = false ∧ m.head? ≠ some '.' then { s with bind := STB_GLOBAL } else s) ?_ ?_
  · intro s
    split <;> rfl
  · unfold Symbol.seen Seen.touch dotted
    by_cases h : (as.symbol m).defined = false ∧ m.head? ≠ some '.'
    · rw [if_pos h, if_pos ⟨h.1, by simpa using h.2⟩]
    · rw [if_neg h, if_neg (fun h' => h ⟨h'.1, by simpa using h'.2⟩)]

theorem touched_foldl {step : AsFile → α → AsFile} {touch : α → List Char × Touch}
    (hstep : ∀ as a, Touched as [touch a] (step as a)) (l : List α) (as : AsFile) :
    Touched as (l.map touch) (l.foldl step as) := by
  induction l generalizing as with
  | nil => exact Touched.refl as
  | cons a l ih => exact (hstep as a).trans (ih (step as a))

theorem touched_asAppendBytes {bs : Bytes}
    (h : asAppendBytes as bs = .ok as') : Touched as [] as' := by
  unfold asAppendBytes at h
  split at h
  · simp at h
  · cases h
    exact Touched.of_symbols rfl

theorem touched_asAddFixup (as : AsFile) (offset width type : Nat) (addend : Int)
    (symbol : List Char) :
    Touched as [(symbol, .refer)] (asAddFixup as offset width type addend symbol) := by
  have h : Touched as [] { as with
      fixups := as.fixups ++
        [{ sec := as.current, offset, type, width, addend, symbol, symbol2 := none }] } :=
    Touched.of_symbols rfl
  exact h.trans (touched_refer _ symbol)

theorem touched_asAddFixupDiff (as : AsFile) (offset width type : Nat) (addend : Int)
    (symbol symbol2 : List Char) :
    Touched as [(symbol, .refer)]
      (asAddFixupDiff as offset width type addend symbol symbol2) := by
  have h : Touched as [] { as with
      fixups := as.fixups ++
        [{ sec := as.current, offset, type, width, addend, symbol, symbol2 := some symbol2 }] } :=
    Touched.of_symbols rfl
  exact h.trans (touched_refer _ symbol)

/-- A label of a name that is as it stands in the line. -/
theorem touched_defineLabel {name text : List Char} {t : Touch}
    (h : defineLabel as name text = .ok as')
    (ht : ∀ s : Symbol, s.defined = false → s.seen.touch (dotted name) t =
      some ⟨true, if text.head? = some '.' then STB_LOCAL else s.bind⟩) :
    Touched as [(name, t)] as' := by
  unfold defineLabel at h
  split at h
  next => simp at h
  next hdef =>
    cases h
    exact touched_update (fun _ => rfl) (ht _ (by simpa using hdef))

/-- An operand that is emitted. -/
theorem touched_emitOperand {width : Nat} {o : DataOperand}
    (h : emitOperand as width o = .ok as') : Touched as o.touches as' := by
  cases o with
  | number v => exact touched_asAppendBytes h
  | symbol name addend =>
    obtain ⟨as₁, h₁, h₂⟩ := except_bind_eq_ok h
    cases h₂
    exact (touched_refer as name).trans
      ((touched_asAppendBytes h₁).trans (touched_asAddFixup _ _ _ _ _ _))
  | difference name addend sym2 k =>
    obtain ⟨as₁, h₁, h₂⟩ := except_bind_eq_ok h
    obtain ⟨sum, -, h₃⟩ := except_bind_eq_ok h₂
    cases h₃
    exact (touched_refer as name).trans ((touched_refer _ sym2).trans
      ((touched_asAppendBytes h₁).trans (touched_asAddFixupDiff _ _ _ _ _ _ _)))

/-! ### The run -/

/-- A statement that is no numeric label or reference. -/
theorem touched_runFile {s : Statement} (h : s.runFile as = .ok as')
    (counts : Fin 10 → Nat) (hnum : ∀ k, s ≠ .numericLabel k)
    (href : ∀ k b, s ≠ .numericReference k b) : Touched as (s.touches counts) as' := by
  cases s with
  | enter name =>
    cases h
    refine Touched.of_symbols ?_
    unfold enterSection
    split <;> rfl
  | label name =>
    refine touched_defineLabel h fun s hs => ?_
    unfold Seen.touch Symbol.seen dotted
    simp [hs]
  | numericLabel k => exact absurd rfl (hnum k)
  | numericReference k b => exact absurd rfl (href k b)
  | list d names =>
    cases h
    have hstep : ∀ as n, Touched as [(n, Touch.bind d)] (bindSymbol d as n) :=
      fun as n => touched_update (fun _ => rfl) rfl
    exact touched_foldl hstep names as
  | hidden names =>
    cases h
    have hstep : ∀ as n, Touched as [(n, Touch.mention)]
        (updateSymbol as n fun s => { s with other := STV_HIDDEN }) :=
      fun as n => touched_update (fun _ => rfl) rfl
    exact touched_foldl hstep names as
  | type name t =>
    cases h
    exact touched_update (fun _ => rfl) rfl
  | size name n =>
    cases h
    exact touched_update (fun _ => rfl) rfl
  | comm name n align =>
    cases h
    exact touched_update (fun _ => rfl) rfl
  | set name value =>
    unfold Statement.runFile at h
    dsimp only at h
    split at h
    next => simp at h
    next hdef =>
      cases h
      refine touched_update (fun _ => rfl) ?_
      unfold Seen.touch Symbol.seen
      dsimp only
      rw [if_neg hdef]
  | data text width =>
    unfold Statement.runFile at h
    dsimp only at h
    rw [parseDataValue_eq] at h
    obtain ⟨o, ho, hemit⟩ := except_bind_eq_ok h
    have htouches : Statement.touches counts (.data text width) = o.touches := by
      unfold Statement.touches
      dsimp only
      rw [ho]
    rw [htouches]
    exact touched_emitOperand hemit
  | bytes bs => exact touched_asAppendBytes h
  | insn i =>
    obtain ⟨as₁, h₁, h₂⟩ := except_bind_eq_ok h
    cases h₂
    have hstep : ∀ (as' : AsFile) (f : InsnFixup), Touched as' [(f.symbol, Touch.refer)]
        (asAddFixup as' (as.cur.size + f.offset) f.width f.type f.addend f.symbol) :=
      fun as' f => touched_asAddFixup as' _ _ _ _ _
    exact (touched_asAppendBytes h₁).trans (touched_foldl hstep i.fixups as₁)

theorem head_toDigits (number : Fin 10) : (Nat.toDigits 10 number).head? ≠ some '.' := by
  revert number
  decide

/-- A statement. -/
theorem touched_run {r r' : AsRun} {s : Statement} (h : s.run r = .ok r') :
    Touched r.file (s.touches r.numeric_counts) r'.file ∧
      r'.numeric_counts = s.count r.numeric_counts := by
  have hplain : (∀ k, s ≠ .numericLabel k) → (∀ k b, s ≠ .numericReference k b) →
      (do
        let as ← s.runFile r.file
        .ok { r with file := as }) = Except.ok r' →
      Touched r.file (s.touches r.numeric_counts) r'.file ∧
        r'.numeric_counts = s.count r.numeric_counts := by
    intro hnum href h
    obtain ⟨as, has, hr⟩ := except_bind_eq_ok h
    cases hr
    refine ⟨touched_runFile has _ hnum href, ?_⟩
    cases s with
    | numericLabel k => exact absurd rfl (hnum k)
    | _ => rfl
  cases s with
  | numericLabel number =>
    obtain ⟨as, has, hr⟩ := except_bind_eq_ok h
    cases hr
    refine ⟨touched_defineLabel has fun s hs => ?_, rfl⟩
    unfold Seen.touch Symbol.seen
    simp [hs, head_toDigits]
  | numericReference number forward =>
    unfold Statement.run at h
    dsimp only at h
    split at h
    · simp at h
    · cases h
      exact ⟨touched_getSymbol _ _, rfl⟩
  | _ => exact hplain nofun nofun h

/-- **A source is a fold of touches**, for every symbol. -/
theorem source_touched {source : List Statement} {r r' : AsRun}
    (h : source.foldlM Statement.run r = .ok r') :
    Touched r.file (touches r.numeric_counts source) r'.file := by
  induction source generalizing r with
  | nil =>
    obtain rfl := Except.ok.inj h
    exact Touched.refl r.file
  | cons s source ih =>
    rw [foldlM_cons] at h
    obtain ⟨r₁, h₁, h₂⟩ := except_bind_eq_ok h
    obtain ⟨htouched, hcount⟩ := touched_run h₁
    have hrest := ih h₂
    rw [hcount] at hrest
    exact htouched.trans hrest

/-! ### The touches of one symbol -/

/-- The touches that define a symbol. -/
def Touch.defines : Touch → Bool
  | .label | .numericLabel | .comm | .set => true
  | _ => false

/-- The touches that list a symbol in a directive. -/
def Touch.lists : Touch → Bool
  | .bind _ | .comm => true
  | _ => false

/-- Among the touches is one, with `p` of those before it, that none with `q` follows. -/
def Lastly (p : List Touch → Touch → Prop) (q : Touch → Prop) (T : List Touch) : Prop :=
  ∃ T₁ t T₂, T = T₁ ++ t :: T₂ ∧ p T₁ t ∧ ∀ u ∈ T₂, ¬ q u

theorem lastly_nil (p : List Touch → Touch → Prop) (q : Touch → Prop) : ¬ Lastly p q [] := by
  rintro ⟨T₁, t, T₂, h, -⟩
  simp at h

/-- One more touch. -/
theorem lastly_snoc (p : List Touch → Touch → Prop) (q : Touch → Prop) (T : List Touch)
    (u : Touch) : Lastly p q (T ++ [u]) ↔ (Lastly p q T ∧ ¬ q u) ∨ p T u := by
  constructor
  · rintro ⟨T₁, t, T₂, h, hp, hq⟩
    rcases eq_nil_or_concat T₂ with rfl | ⟨T₂, v, rfl⟩
    · obtain ⟨rfl, hu⟩ := append_inj' h rfl
      obtain rfl : u = t := by simpa using hu
      exact Or.inr hp
    · rw [concat_eq_append, ← cons_append, ← append_assoc] at h
      obtain ⟨rfl, hu⟩ := append_inj' h rfl
      obtain rfl : u = v := by simpa using hu
      rw [concat_eq_append] at hq
      exact Or.inl ⟨⟨T₁, t, T₂, rfl, hp, fun w hw => hq w (mem_append_left _ hw)⟩,
        hq u (by simp)⟩
  · rintro (⟨⟨T₁, t, T₂, rfl, hp, hq⟩, hu⟩ | hp)
    · refine ⟨T₁, t, T₂ ++ [u], by simp, hp, fun w hw => ?_⟩
      rcases mem_append.mp hw with hw | hw
      · exact hq w hw
      · rw [mem_singleton] at hw
        exact hw ▸ hu
    · exact ⟨T, u, [], rfl, hp, by simp⟩

/-- A reference in front of any definition. -/
def early (T₁ : List Touch) (t : Touch) : Prop := t = .refer ∧ ∀ u ∈ T₁, u.defines = false

/-- The symbol is referred to before it is defined. -/
def EarlyRef (T : List Touch) : Prop := Lastly early (fun _ => False) T

/-- It is, and no `.weak` comes behind that. -/
def EarlyRefLast (T : List Touch) : Prop := Lastly early (fun u => u = .bind .weak) T

/-- The symbol is labelled, and no directive that lists it comes behind that. -/
def LabelLast (T : List Touch) : Prop :=
  Lastly (fun _ t => t = .label) (fun u => u.lists = true) T

/-- What the touches have made of a symbol. -/
structure Tracked (dot : Bool) (T : List Touch) (s : Seen) : Prop where
  defined : s.defined = true ↔ ∃ t ∈ T, t.defines = true
  bind : s.bind = STB_LOCAL ∨ s.bind = STB_GLOBAL ∨ s.bind = STB_WEAK
  /-- without a directive, an early reference decides -/
  plain : dot = false → (∀ t ∈ T, t.lists = false) →
    s.bind ≠ STB_WEAK ∧ (s.bind = STB_GLOBAL ↔ EarlyRef T)
  globl : dot = false → .bind .weak ∉ T → (∃ t ∈ T, t.lists = true) → s.bind = STB_GLOBAL
  weak : dot = false → .bind .globl ∉ T → .comm ∉ T → .bind .weak ∈ T →
    s.bind ≠ STB_LOCAL ∧ (s.bind = STB_GLOBAL ↔ EarlyRefLast T)
  undefined : dot = false → .refer ∈ T → (∀ t ∈ T, t.defines = false) → s.bind ≠ STB_LOCAL
  dotPlain : dot = true → (∀ t ∈ T, t.lists = false) → s.bind = STB_LOCAL
  dotListed : dot = true → (∃ t ∈ T, t.lists = true) → (s.bind = STB_LOCAL ↔ LabelLast T)
  dotGlobl : dot = true → .bind .weak ∉ T → s.bind ≠ STB_WEAK
  dotWeak : dot = true → .bind .globl ∉ T → .comm ∉ T → s.bind ≠ STB_GLOBAL

variable {dot : Bool} {T : List Touch} {s₀ s : Seen} {t : Touch}

theorem earlyRef_snoc : EarlyRef (T ++ [t]) ↔ EarlyRef T ∨ early T t := by
  unfold EarlyRef
  rw [lastly_snoc]
  simp

theorem earlyRefLast_snoc :
    EarlyRefLast (T ++ [t]) ↔ EarlyRefLast T ∧ t ≠ .bind .weak ∨ early T t :=
  lastly_snoc early _ T t

theorem labelLast_snoc :
    LabelLast (T ++ [t]) ↔ LabelLast T ∧ ¬ t.lists = true ∨ t = .label :=
  lastly_snoc _ _ T t

theorem forall_snoc {P : Touch → Prop} : (∀ u ∈ T ++ [t], P u) ↔ (∀ u ∈ T, P u) ∧ P t := by
  simp [or_imp, forall_and]

theorem exists_snoc {P : Touch → Prop} : (∃ u ∈ T ++ [t], P u) ↔ (∃ u ∈ T, P u) ∨ P t := by
  simp [or_and_right, exists_or]

theorem mem_snoc {u : Touch} : u ∈ T ++ [t] ↔ u ∈ T ∨ u = t := by
  rw [mem_append, mem_singleton]

theorem global_ne_weak : STB_GLOBAL ≠ STB_WEAK := by decide

theorem global_ne_local : STB_GLOBAL ≠ STB_LOCAL := by decide

theorem weak_ne_local : STB_WEAK ≠ STB_LOCAL := by decide

/-- A touch that leaves the binding alone. -/
theorem Tracked.keep (h : Tracked dot T s₀) (hbind : s.bind = s₀.bind)
    (hdef : s.defined = true ↔ s₀.defined = true ∨ t.defines = true) (hlists : t.lists = false)
    (hearly : dot = false → ¬ early T t) (hlabel : dot = true → t ≠ .label) :
    Tracked dot (T ++ [t]) s := by
  have hweak : t ≠ .bind .weak := by
    rintro rfl
    cases hlists
  have hmem : ∀ u : Touch, u.lists = true → (u ∈ T ++ [t] ↔ u ∈ T) := by
    intro u hu
    rw [mem_snoc]
    refine or_iff_left ?_
    rintro rfl
    rw [hlists] at hu
    cases hu
  constructor
  · rw [hdef, h.defined, exists_snoc]
  · rw [hbind]
    exact h.bind
  · intro hdot hall
    rw [hbind, earlyRef_snoc, or_iff_left (hearly hdot)]
    exact h.plain hdot (forall_snoc.mp hall).1
  · intro hdot hw hex
    rw [hbind]
    rw [hmem _ rfl] at hw
    rw [exists_snoc, hlists] at hex
    exact h.globl hdot hw (hex.resolve_right (by simp))
  · intro hdot hg hc hw
    rw [hmem _ rfl] at hg hc hw
    rw [hbind, earlyRefLast_snoc, or_iff_left (hearly hdot), and_iff_left hweak]
    exact h.weak hdot hg hc hw
  · intro hdot href hall
    rw [hbind]
    rw [forall_snoc] at hall
    rcases mem_snoc.mp href with href | rfl
    · exact h.undefined hdot href hall.1
    · exact absurd ⟨rfl, hall.1⟩ (hearly hdot)
  · intro hdot hall
    rw [hbind]
    exact h.dotPlain hdot (forall_snoc.mp hall).1
  · intro hdot hex
    rw [exists_snoc, hlists] at hex
    rw [hbind, labelLast_snoc, or_iff_left (hlabel hdot), hlists, and_iff_left (by simp)]
    exact h.dotListed hdot (hex.resolve_right (by simp))
  · intro hdot hw
    rw [hbind]
    rw [hmem _ rfl] at hw
    exact h.dotGlobl hdot hw
  · intro hdot hg hc
    rw [hbind]
    rw [hmem _ rfl] at hg hc
    exact h.dotWeak hdot hg hc

/-- A reference to an undefined symbol that is not dotted. -/
theorem Tracked.refer (h : Tracked dot T s₀) (hdot : dot = false) (hundef : s₀.defined = false) :
    Tracked dot (T ++ [.refer]) { s₀ with bind := STB_GLOBAL } := by
  have hearly : early T .refer := by
    refine ⟨rfl, fun u hu => ?_⟩
    by_contra hu'
    have := h.defined.mpr ⟨u, hu, by simpa using hu'⟩
    rw [hundef] at this
    cases this
  constructor
  · rw [exists_snoc, or_iff_left (by decide)]
    exact h.defined
  · exact Or.inr (Or.inl rfl)
  · intro _ _
    exact ⟨global_ne_weak, iff_of_true rfl (earlyRef_snoc.mpr (Or.inr hearly))⟩
  · exact fun _ _ _ => rfl
  · intro _ _ _ _
    exact ⟨global_ne_local, iff_of_true rfl (earlyRefLast_snoc.mpr (Or.inr hearly))⟩
  · exact fun _ _ _ => global_ne_local
  all_goals exact fun hd => absurd (hdot.symm.trans hd) (by simp)

/-- A label of a dotted symbol. -/
theorem tracked_label (hdot : dot = true) :
    Tracked dot (T ++ [.label]) ⟨true, STB_LOCAL⟩ := by
  constructor
  · exact iff_of_true rfl (exists_snoc.mpr (Or.inr rfl))
  · exact Or.inl rfl
  · exact fun hd => absurd (hdot.symm.trans hd) (by simp)
  · exact fun hd => absurd (hdot.symm.trans hd) (by simp)
  · exact fun hd => absurd (hdot.symm.trans hd) (by simp)
  · exact fun hd => absurd (hdot.symm.trans hd) (by simp)
  · exact fun _ _ => rfl
  · exact fun _ _ => iff_of_true rfl (labelLast_snoc.mpr (Or.inr rfl))
  · exact fun _ _ => by decide
  · exact fun _ _ _ => by decide

/-- A directive that lists the symbol, `.comm` or another. -/
theorem Tracked.listed (h : Tracked dot T s₀) (hlists : t.lists = true)
    (hdef : s.defined = true ↔ s₀.defined = true ∨ t.defines = true)
    (hbind : s.bind = if t = .bind .weak then STB_WEAK else STB_GLOBAL) :
    Tracked dot (T ++ [t]) s := by
  have hearly : ¬ early T t := by
    rintro ⟨rfl, -⟩
    cases hlists
  have hlabel : ¬ LabelLast (T ++ [t]) := by
    rw [labelLast_snoc]
    rintro (⟨-, h⟩ | rfl)
    · exact h hlists
    · cases hlists
  have hnotlocal : s.bind ≠ STB_LOCAL := by
    rw [hbind]
    split <;> decide
  have hweakIff : s.bind = STB_WEAK ↔ t = .bind .weak := by
    rw [hbind]
    split
    next h => exact iff_of_true rfl h
    next h => exact iff_of_false (by decide) h
  constructor
  · rw [hdef, h.defined, exists_snoc]
  · rw [hbind]
    split
    · exact Or.inr (Or.inr rfl)
    · exact Or.inr (Or.inl rfl)
  · intro _ hall
    rw [forall_snoc, hlists] at hall
    exact absurd hall.2 (by simp)
  · intro _ hw _
    rw [hbind, if_neg (fun ht => hw (mem_snoc.mpr (Or.inr ht.symm)))]
  · intro _ hg hc _
    -- only `.weak` is left
    have ht : t = .bind .weak := by
      rw [mem_snoc, not_or] at hg hc
      cases t with
      | bind d =>
        cases d with
        | globl => exact absurd rfl hg.2
        | weak => rfl
      | comm => exact absurd rfl hc.2
      | _ => cases hlists
    rw [hbind, if_pos ht, earlyRefLast_snoc]
    refine ⟨by decide, iff_of_false (by decide) ?_⟩
    rintro (⟨-, hne⟩ | he)
    · exact hne ht
    · exact hearly he
  · exact fun _ _ _ => hnotlocal
  · intro _ hall
    rw [forall_snoc, hlists] at hall
    exact absurd hall.2 (by simp)
  · exact fun _ _ => iff_of_false hnotlocal hlabel
  · intro _ hw
    rw [Ne, hweakIff]
    exact fun ht => hw (mem_snoc.mpr (Or.inr ht.symm))
  · intro _ hg hc
    have ht : t = .bind .weak := by
      rw [mem_snoc, not_or] at hg hc
      cases t with
      | bind d =>
        cases d with
        | globl => exact absurd rfl hg.2
        | weak => rfl
      | comm => exact absurd rfl hc.2
      | _ => cases hlists
    rw [hbind, if_pos ht]
    decide

/-- **What the touches make of a symbol.** -/
theorem tracked (h : T.foldlM (Seen.touch dot) Seen.fresh = some s) : Tracked dot T s := by
  induction T using reverseRecOn generalizing s with
  | nil =>
    cases h
    constructor <;> simp [Seen.fresh, STB_LOCAL, STB_GLOBAL, STB_WEAK, EarlyRef, lastly_nil]
  | append_singleton T t ih =>
    rw [foldlM_append] at h
    obtain ⟨s₀, h₀, h₁⟩ := Option.bind_eq_some_iff.mp h
    have hs : s₀.touch dot t = some s := by simpa using h₁
    have ht := ih h₀
    unfold Seen.touch at hs
    cases t with
    | refer =>
      cases hs
      split
      next hopen => exact ht.refer hopen.2 hopen.1
      next hopen =>
        refine ht.keep rfl (by simp [Touch.defines]) rfl (fun hdot he => ?_) (fun _ => nofun)
        -- the symbol has been defined
        have hd : s₀.defined = true := by
          by_contra hd
          exact hopen ⟨by simpa using hd, hdot⟩
        obtain ⟨u, hu, hud⟩ := ht.defined.mp hd
        rw [he.2 u hu] at hud
        cases hud
    | mention =>
      cases hs
      exact ht.keep rfl (by simp [Touch.defines]) rfl (fun _ => nofun) (fun _ => nofun)
    | label =>
      dsimp only at hs
      split at hs
      next => simp at hs
      next =>
        cases hs
        by_cases hdot : dot = true
        · rw [if_pos hdot]
          exact tracked_label hdot
        · rw [if_neg hdot]
          exact ht.keep rfl (by simp [Touch.defines]) rfl (fun _ => nofun)
            (fun h => absurd h hdot)
    | numericLabel =>
      dsimp only at hs
      split at hs
      next => simp at hs
      next =>
        cases hs
        exact ht.keep rfl (by simp [Touch.defines]) rfl (fun _ => nofun) (fun _ => nofun)
    | bind d =>
      cases hs
      exact ht.listed rfl (by simp [Touch.defines]) (by cases d <;> rfl)
    | comm =>
      cases hs
      exact ht.listed rfl (by simp [Touch.defines]) rfl
    | set =>
      dsimp only at hs
      split at hs
      next => simp at hs
      next =>
        cases hs
        exact ht.keep rfl (by simp [Touch.defines]) rfl (fun _ => nofun) (fun _ => nofun)

/-! ### The binding that a symbol ought to have -/

/-- The binding `b` is the one that the touches ask for. -/
structure Claimed (T : List Touch) (b : Nat) : Prop where
  /-- a label, and no directive -/
  labelled : (.label ∈ T ∨ .numericLabel ∈ T) → (∀ t ∈ T, t.lists = false) → b = STB_LOCAL
  globl : .bind .globl ∈ T → .bind .weak ∉ T → b = STB_GLOBAL
  weak : .bind .weak ∈ T → .bind .globl ∉ T → .comm ∉ T → b = STB_WEAK
  /-- a reference, and no definition -/
  undefined : .refer ∈ T → (∀ t ∈ T, t.defines = false) → b = STB_GLOBAL ∨ b = STB_WEAK

/-- The touches come in an order for which the code gives that binding. -/
structure Ordered (dot : Bool) (T : List Touch) : Prop where
  /-- a label without a directive comes before the references -/
  labelled : dot = false → (.label ∈ T ∨ .numericLabel ∈ T) → (∀ t ∈ T, t.lists = false) →
    ¬ EarlyRef T
  /-- `.weak` comes behind the references in front of the definition -/
  weak : dot = false → .bind .weak ∈ T → .bind .globl ∉ T → .comm ∉ T → ¬ EarlyRefLast T
  /-- a dotted symbol is listed behind its label -/
  dotted : dot = true → (.bind .globl ∈ T ∧ .bind .weak ∉ T ∨
    .bind .weak ∈ T ∧ .bind .globl ∉ T ∧ .comm ∉ T) → ¬ LabelLast T
  /-- a dotted symbol that is only referred to is listed -/
  dottedUndefined : dot = true → .refer ∈ T → (∀ t ∈ T, t.defines = false) →
    ∃ t ∈ T, t.lists = true

theorem not_labelLast (h : ∀ t ∈ T, t.defines = false) : ¬ LabelLast T := by
  rintro ⟨T₁, t, T₂, rfl, rfl, -⟩
  exact absurd (h .label (by simp)) (by decide)

/-- **The binding is the one asked for exactly in these orders.** -/
theorem claimed_iff (h : T.foldlM (Seen.touch dot) Seen.fresh = some s) :
    Claimed T s.bind ↔ Ordered dot T := by
  have ht := tracked h
  have hlisted : ∀ {d : SymbolDirective}, .bind d ∈ T → ∃ t ∈ T, t.lists = true :=
    fun hd => ⟨_, hd, rfl⟩
  constructor
  · refine fun hc => ⟨fun hdot hl hn he => ?_, fun hdot hw hg hcomm he => ?_,
      fun hdot hcases hl => ?_, fun hdot href hdef => ?_⟩
    · have hglobal := (ht.plain hdot hn).2.mpr he
      rw [hc.labelled hl hn] at hglobal
      exact global_ne_local hglobal.symm
    · have hglobal := (ht.weak hdot hg hcomm hw).2.mpr he
      rw [hc.weak hw hg hcomm] at hglobal
      exact global_ne_weak hglobal.symm
    · rcases hcases with ⟨hg, hw⟩ | ⟨hw, hg, hcomm⟩
      · have hlocal := (ht.dotListed hdot (hlisted hg)).mpr hl
        rw [hc.globl hg hw] at hlocal
        exact global_ne_local hlocal
      · have hlocal := (ht.dotListed hdot (hlisted hw)).mpr hl
        rw [hc.weak hw hg hcomm] at hlocal
        exact weak_ne_local hlocal
    · by_contra hno
      have hlocal := ht.dotPlain hdot (fun t htm => by
        by_contra hlists
        exact hno ⟨t, htm, by simpa using hlists⟩)
      rcases hc.undefined href hdef with hb | hb
      · exact global_ne_local (hb.symm.trans hlocal)
      · exact weak_ne_local (hb.symm.trans hlocal)
  · intro ho
    have hbind := ht.bind
    cases dot with
    | false =>
      refine ⟨fun hl hn => ?_, fun hg hw => ht.globl rfl hw (hlisted hg), fun hw hg hcomm => ?_,
        fun href hdef => ?_⟩
      · obtain ⟨hweak, hglobal⟩ := ht.plain rfl hn
        have hnot := hglobal.not.mpr (ho.labelled rfl hl hn)
        exact hbind.resolve_right (fun hb => hb.elim hnot hweak)
      · obtain ⟨hlocal, hglobal⟩ := ht.weak rfl hg hcomm hw
        have hnot := hglobal.not.mpr (ho.weak rfl hw hg hcomm)
        exact (hbind.resolve_left hlocal).resolve_left hnot
      · exact hbind.resolve_left (ht.undefined rfl href hdef)
    | true =>
      refine ⟨fun _ hn => ht.dotPlain rfl hn, fun hg hw => ?_, fun hw hg hcomm => ?_,
        fun href hdef => ?_⟩
      · have hnot := (ht.dotListed rfl (hlisted hg)).not.mpr (ho.dotted rfl (Or.inl ⟨hg, hw⟩))
        exact (hbind.resolve_left hnot).resolve_right (ht.dotGlobl rfl hw)
      · have hnot := (ht.dotListed rfl (hlisted hw)).not.mpr
          (ho.dotted rfl (Or.inr ⟨hw, hg, hcomm⟩))
        exact (hbind.resolve_left hnot).resolve_left (ht.dotWeak rfl hg hcomm)
      · have hex := ho.dottedUndefined rfl href hdef
        exact hbind.resolve_left ((ht.dotListed rfl hex).not.mpr (not_labelLast hdef))

end MeuOS.As
