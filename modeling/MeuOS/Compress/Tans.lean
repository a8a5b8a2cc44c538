import MeuOS.Compress.Lz77
import MeuOS.Lib.Field
import Mathlib.Data.List.Sort

namespace MeuOS.Compress

open MeuOS.Lib List

/-!
# The tANS coder (`mz_ans.c`)

The coder scales the frequencies to powers of two with sum 256, spreads the symbols over 256
states, and codes the bytes from the last to the first.  The decoder starts from the final state
and reads bits until its room is full.

* `normaliseFreqs`, `buildTables` — the table of states;
* `mzTansCompress`, `mzTansDecompress` — the codec;
* `mzTansDecompress_short` — the decoder fails where every state reads bits and its room is larger
  than their number;
* `mzTans_roundtrip` — an input of one byte value is given back.
-/

/-! ### Scaling the frequencies -/

/-- `ANS_L`, the number of states. -/
def ANS_L : Nat := 256

/-- The doubling loops: the least power of two from `p` on of which `stop` holds; the first
    argument bounds the turns. -/
def doubleUntil (stop : Nat → Bool) : Nat → Nat → Nat
  | 0, p => p
  | turns + 1, p => if stop p then p else doubleUntil stop turns (p * 2)

/-- The first pass for one symbol: its share of 256, rounded down to a power of two.  The product
    is an `unsigned`. -/
def roundFreq (total raw : Nat) : Nat :=
  if raw = 0 then 0
  else
    let v := raw * ANS_L % 2 ^ 32 / total
    let v := if v = 0 then 1 else v
    doubleUntil (fun p => !(p * 2 ≤ v && p * 2 ≤ ANS_L)) 9 1

/-- A sweep of the second pass over the entries that `can` names, while `want` holds of what is
    missing to 256: the entries, what is missing then, and whether there was a change. -/
def adjustNorm (want : Int → Bool) (can : Nat → Bool) (f : Nat → Nat) :
    List Nat → Int → List Nat × Int × Bool
  | [], diff => ([], diff, false)
  | n :: ns, diff =>
    if want diff && can n then
      let (ns, diff, _) := adjustNorm want can f ns (diff - (f n - n : Int))
      (f n :: ns, diff, true)
    else
      let (ns, diff, changed) := adjustNorm want can f ns diff
      (n :: ns, diff, changed)

/-- One turn of the second pass: double and count up from the first symbol on, or halve and count
    down from the last one on. -/
def adjustTurn (norm : List Nat) (diff : Int) : List Nat × Bool :=
  if diff > 0 then
    let (norm, diff, changed) :=
      adjustNorm (· > 0) (fun n => n > 0 && n * 2 ≤ ANS_L) (· * 2) norm diff
    let (norm, _, changed') :=
      adjustNorm (· > 0) (fun n => n > 0 && n < ANS_L) (· + 1) norm diff
    (norm, changed || changed')
  else
    let (norm, diff, changed) :=
      adjustNorm (· < 0) (fun n => n > 1 && n % 2 == 0) (· / 2) norm.reverse diff
    let (norm, _, changed') := adjustNorm (· < 0) (· > 1) (· - 1) norm diff
    (norm.reverse, changed || changed')

/-- The second pass, with some turns left. -/
def adjustLoop : Nat → List Nat → List Nat
  | 0, norm => norm
  | safety + 1, norm =>
    let diff : Int := ANS_L - norm.sum
    if diff = 0 then norm
    else
      let (norm, changed) := adjustTurn norm diff
      if changed then adjustLoop safety norm else norm

/-- Is a number a power of two, or 0? -/
def isPow2 (n : Nat) : Bool := n &&& (n - 1) == 0

/-- `normalise_freqs` for the counts of the 256 symbols. -/
def normaliseFreqs (raw : List Nat) : Except MzErr (List Nat) :=
  let total := raw.sum
  if total = 0 then .error .data
  else if raw.countP (· > 0) = 1 then .ok (raw.map fun r => if r > 0 then ANS_L else 0)
  else
    .ok ((adjustLoop 10000 (raw.map (roundFreq total))).map fun n =>
      if n > 0 && !isPow2 n then doubleUntil (fun p => !(p < n && p < ANS_L)) 9 1 else n)

/-! ### The table of states -/

/-- The loop of `compute_nb`, which ends for a positive `f`. -/
def nbLoop : Nat → Nat → Nat
  | 0, _ => 0
  | turns + 1, f => if f * 2 ≤ ANS_L then nbLoop turns (f * 2) + 1 else 0

/-- `compute_nb`: the bits that a symbol of frequency `f` reads. -/
def computeNb (f : Nat) : Nat := if f ≥ ANS_L then 0 else nbLoop 8 f

/-- The order of `sort_syms_by_nb`: more bits first, then by symbol. -/
def nbLe (norm : List Nat) (a b : Nat) : Prop :=
  computeNb (norm.getD a 0) > computeNb (norm.getD b 0) ∨
    (computeNb (norm.getD a 0) = computeNb (norm.getD b 0) ∧ a ≤ b)

instance (norm : List Nat) : DecidableRel (nbLe norm) :=
  fun _ _ => inferInstanceAs (Decidable (_ ∨ _))

/-- `sort_syms_by_nb`. -/
def sortSymsByNb (norm : List Nat) : List Nat :=
  ((range ANS_L).filter fun i => norm.getD i 0 > 0).insertionSort (nbLe norm)

/-- The arrays of `struct ans_tables` that the codec reads; a row of `slot` holds the states of a
    symbol by rank. -/
structure AnsTables where
  norm : List Nat
  symbol : List Nat
  nb_bits : List Nat
  slot : List (List Nat)

/-- The first state from `pos` on whose symbol is 0xFF, which stands for a free state. -/
def freeState (symbol : List Nat) : Nat → Nat → Nat
  | 0, pos => pos
  | turns + 1, pos =>
    if symbol.getD pos 0 ≠ 0xFF then freeState symbol turns ((pos + 1) % ANS_L) else pos

/-- `step` of `build_tables`. -/
def ansStep : Nat := ((ANS_L >>> 1) + (ANS_L >>> 3) + 3) ||| 1

/-- The inner loop of `build_tables`: the ranks of the symbol `s` in ascending order. -/
def placeRanks (s nb : Nat) : Nat → AnsTables × Nat → AnsTables × Nat
  | 0, r => r
  | n + 1, (t, pos) =>
    let pos := freeState t.symbol ANS_L pos
    placeRanks s nb n
      ({ t with
          symbol := t.symbol.set pos s
          nb_bits := t.nb_bits.set pos nb
          slot := t.slot.modify s fun row => row ++ [pos] }, (pos + ansStep) % ANS_L)

/-- `build_tables`. -/
def buildTables (norm : List Nat) : Except MzErr AnsTables :=
  if norm.any (fun f => f > ANS_L || !isPow2 f) then .error .data
  else if norm.sum ≠ ANS_L then .error .data
  else
    .ok ((sortSymsByNb norm).foldl
      (fun r s => placeRanks s (computeNb (norm.getD s 0)) (norm.getD s 0) r)
      ({ norm := norm
         symbol := replicate ANS_L 0xFF
         nb_bits := replicate ANS_L 0
         slot := replicate 256 [] }, 0)).1

/-- `slot[s][r]`. -/
def AnsTables.slotOf (t : AnsTables) (s r : Nat) : Nat :=
  (t.slot.getD s []).getD r 0

/-! ### The bit stream -/

/-- `struct ans_bs`. -/
structure AnsBs where
  cap : Nat
  buf : Bytes
  container : Nat
  bit_count : Nat

/-- The loop of `bs_put` that writes the full bytes; the first argument bounds the turns. -/
def AnsBs.drain : Nat → AnsBs → Except MzErr AnsBs
  | 0, b => .ok b
  | turns + 1, b =>
    if b.bit_count ≥ 8 then
      if b.buf.length ≥ b.cap then .error .stream
      else
        AnsBs.drain turns
          { b with
            buf := b.buf ++ [UInt8.ofNat (b.container % 256)]
            container := b.container / 256
            bit_count := b.bit_count - 8 }
    else .ok b

/-- `bs_put`; the container has 32 bits. -/
def AnsBs.put (b : AnsBs) (value n : Nat) : Except MzErr AnsBs :=
  if n = 0 then .ok b
  else if n > 32 then .error .param
  else
    AnsBs.drain (b.bit_count + n)
      { b with
        container := b.container * 2 ^ n % 2 ^ 32 + value % 2 ^ n
        bit_count := b.bit_count + n }

/-- `bs_flush`: the bytes written. -/
def AnsBs.flush (b : AnsBs) : Except MzErr Bytes :=
  if b.bit_count = 0 then .ok b.buf
  else if b.buf.length ≥ b.cap then .error .stream
  else .ok (b.buf ++ [UInt8.ofNat (b.container % 256)])

/-- `br_get_n` for the bits that are left, the lowest one first. -/
def brGetN : Nat → List Bool → Option (Nat × List Bool)
  | 0, bits => some (0, bits)
  | _ + 1, [] => none
  | n + 1, bit :: bits =>
    match brGetN n bits with
    | none => none
    | some (v, rest) => some (bit.toNat + 2 * v, rest)

/-- The bits of the bytes in the order of `br_get`. -/
def lsbBits (bs : Bytes) : List Bool :=
  bs.flatMap fun b => (range 8).map fun i => b.toNat.testBit i

/-! ### The coder -/

/-- The loop that makes room in the state; the first argument bounds the turns. -/
def ansRenorm (threshold : Nat) : Nat → AnsBs × Nat → Except MzErr (AnsBs × Nat)
  | 0, r => .ok r
  | turns + 1, (bw, state) =>
    if state ≥ threshold then do
      let bw ← bw.put (state % 2) 1
      ansRenorm threshold turns (bw, state / 2)
    else .ok (bw, state)

/-- One turn of the loop of `mz_tans_compress`. -/
def ansEncode (t : AnsTables) (r : AnsBs × Nat) (sym : UInt8) : Except MzErr (AnsBs × Nat) :=
  let f := t.norm.getD sym.toNat 0
  if f = 0 then .error .data
  else do
    let nb := computeNb f
    let (bw, state) ← ansRenorm (f * 2 ^ nb) 32 r
    if state / 2 ^ nb ≥ f then .error .data
    else do
      let bw ← bw.put (state % 2 ^ nb) nb
      .ok (bw, t.slotOf sym.toNat (state / 2 ^ nb))

/-- `freqs` of `mz_tans_compress`. -/
def tansFreqs (input : Bytes) : List Nat :=
  input.foldl (fun freqs b => freqs.modify b.toNat fun n => (n + 1) % 2 ^ 32)
    (replicate 256 0)

/-- `mz_tans_compress` with room for `cap` bytes.  A slot is a byte, so that the check of the new
    state does not fail. -/
def mzTansCompress (input : Bytes) (cap : Nat) : Except MzErr Bytes :=
  if input = [] then .error .param
  else do
    let norm ← normaliseFreqs (tansFreqs input)
    let t ← buildTables norm
    if 520 > cap then .error .stream
    else do
      let (bw, state) ← input.reverse.foldlM (ansEncode t)
        ({ cap := cap - 520, buf := [], container := 0, bit_count := 0 }, ANS_L)
      let bits ← bw.flush
      .ok (norm.flatMap (leBytes 2) ++ (leBytes 4 state ++
        (leBytes 4 (bits.length * 8) ++ bits)))

/-! ### The decoder -/

/-- The loop of `mz_tans_decompress` with room for some more bytes: every turn writes one. -/
def tansLoop (t : AnsTables) : Nat → Nat → List Bool → Except MzErr Bytes
  | 0, _, _ => .ok []
  | room + 1, state, bits =>
    let sym := t.symbol.getD state 0
    if t.norm.getD sym 0 = 0 then .error .data
    else
      let nb := t.nb_bits.getD state 0
      match brGetN nb bits with
      | none => .error .data
      | some (v, bits) =>
        if state / 2 ^ nb * 2 ^ nb + v ≥ ANS_L then .error .data
        else
          match tansLoop t room (state / 2 ^ nb * 2 ^ nb + v) bits with
          | .error e => .error e
          | .ok rest => .ok (UInt8.ofNat sym :: rest)

/-- `norm` of `mz_tans_decompress`. -/
def readNorm (input : Bytes) : List Nat :=
  (range 256).map fun i => leNat (slice input (2 * i) 2)

/-- `mz_tans_decompress` with room for `outlen` bytes. -/
def mzTansDecompress (input : Bytes) (outlen : Nat) : Except MzErr Bytes :=
  if input.length < 520 then .error .data
  else do
    let t ← buildTables (readNorm input)
    let state := leNat (slice input 512 4)
    if state ≥ ANS_L then .error .data
    else tansLoop t outlen state (lsbBits (input.drop 520))

/-! ### The header -/

variable {t : AnsTables} {state : Nat} {a : UInt8}

/-- The decoder reads the frequencies that the coder wrote. -/
theorem readNorm_header {norm : List Nat} (hlen : norm.length = 256)
    (hlt : ∀ n ∈ norm, n < 2 ^ 16) (rest : Bytes) :
    readNorm (norm.flatMap (leBytes 2) ++ rest) = norm := by
  apply ext_getElem
  · simp [readNorm, hlen]
  intro i hi hi'
  have hat := (At.flatMap (length_leBytes 2) norm (getElem?_eq_getElem hi')).append rest
  simp only [readNorm, getElem_map, getElem_range]
  rw [hat.le_eq]
  exact Nat.mod_eq_of_lt (hlt _ (getElem_mem hi'))

/-- What the coder writes begins with the frequencies of its table. -/
theorem mzTansCompress_ok {input out : Bytes} {cap : Nat} (h : mzTansCompress input cap = .ok out) :
    ∃ norm t rest, normaliseFreqs (tansFreqs input) = .ok norm ∧ buildTables norm = .ok t ∧
      out = norm.flatMap (leBytes 2) ++ rest := by
  unfold mzTansCompress at h
  split at h
  · cases h
  obtain ⟨norm, hnorm, h⟩ := bind_ok h
  obtain ⟨t, ht, h⟩ := bind_ok h
  split at h
  · cases h
  obtain ⟨⟨bw, state⟩, -, h⟩ := bind_ok h
  obtain ⟨bits, -, h⟩ := bind_ok h
  exact ⟨norm, t, _, hnorm, ht, (Except.ok.inj h).symm⟩

/-! ### The end of the bits -/

theorem brGetN_length {n v : Nat} {bits rest : List Bool} (h : brGetN n bits = some (v, rest)) :
    rest.length + n = bits.length := by
  induction n generalizing bits v with
  | zero =>
    cases h
    rfl
  | succ n ih =>
    rcases bits with _ | ⟨bit, bits⟩
    · cases h
    unfold brGetN at h
    split at h
    · cases h
    · next v' rest' hrec =>
      cases h
      have := ih hrec
      rw [length_cons]
      omega

/-- The decoder does not know how many bytes were coded.  Where every state reads a bit, it runs
    out of them before a larger room is full. -/
theorem tansLoop_short (hnb : ∀ s < ANS_L, 1 ≤ t.nb_bits.getD s 0) (room : Nat) {bits : List Bool}
    (hstate : state < ANS_L) (hbits : bits.length < room) :
    ∃ e, tansLoop t room state bits = .error e := by
  induction room generalizing state bits with
  | zero => omega
  | succ room ih =>
    unfold tansLoop
    dsimp only
    split
    · exact ⟨_, rfl⟩
    split
    · exact ⟨_, rfl⟩
    · next v rest hget =>
      have hlen := brGetN_length hget
      have hone := hnb state hstate
      split
      · exact ⟨_, rfl⟩
      · next hnext =>
        obtain ⟨e, he⟩ := ih (Nat.lt_of_not_le hnext) (show rest.length < room by omega)
        rw [he]
        exact ⟨_, rfl⟩

theorem length_lsbBits (bs : Bytes) : (lsbBits bs).length = bs.length * 8 := by
  unfold lsbBits
  simp [length_flatMap]

/-- The decoder fails where every state reads a bit and the room is larger than the number of
    bits. -/
theorem mzTansDecompress_short {input : Bytes} {outlen : Nat}
    (ht : buildTables (readNorm input) = .ok t) (hnb : ∀ s < ANS_L, 1 ≤ t.nb_bits.getD s 0)
    (hroom : (input.length - 520) * 8 < outlen) :
    ∃ e, mzTansDecompress input outlen = .error e := by
  unfold mzTansDecompress
  split
  · exact ⟨_, rfl⟩
  rw [ht]
  dsimp only [bind, Except.bind]
  split
  · exact ⟨_, rfl⟩
  · next hstate =>
    apply tansLoop_short hnb outlen (Nat.lt_of_not_le hstate)
    rw [length_lsbBits, length_drop]
    exact hroom

theorem ok_of_toOption {ε α : Type} {x : Except ε α} {a : α} (h : x.toOption = some a) :
    x = .ok a := by
  rcases x with e | b
  · cases h
  · exact congrArg _ (Option.some.inj h)

/-! ### The coder on the number of bits -/

/-- The writer holds `k` bits, fewer than 8 of them in the container. -/
structure AnsBs.Holds (b : AnsBs) (cap k : Nat) : Prop where
  cap : b.cap = cap
  few : b.bit_count < 8
  bits : b.buf.length * 8 + b.bit_count = k

variable {cap k : Nat} {b : AnsBs}

theorem AnsBs.drain_holds (turns : Nat) (hcap : b.cap = cap) (hturns : b.bit_count < turns + 8)
    (hbits : b.buf.length * 8 + b.bit_count = k) (hroom : k ≤ cap * 8) :
    ∃ b', b.drain turns = .ok b' ∧ b'.Holds cap k := by
  induction turns generalizing b with
  | zero => exact ⟨b, rfl, hcap, hturns, hbits⟩
  | succ turns ih =>
    unfold AnsBs.drain
    by_cases h8 : b.bit_count ≥ 8
    · rw [if_pos h8, if_neg (by omega)]
      refine ih hcap (show b.bit_count - 8 < turns + 8 by omega) ?_
      dsimp only
      rw [length_append, length_singleton]
      omega
    · rw [if_neg h8]
      exact ⟨b, rfl, hcap, Nat.lt_of_not_le h8, hbits⟩

theorem AnsBs.put_holds (h : b.Holds cap k) (value : Nat) {n : Nat} (hn : n ≤ 32)
    (hroom : k + n ≤ cap * 8) : ∃ b', b.put value n = .ok b' ∧ b'.Holds cap (k + n) := by
  unfold AnsBs.put
  by_cases h0 : n = 0
  · rw [if_pos h0, h0]
    exact ⟨b, rfl, h⟩
  · rw [if_neg h0, if_neg (by omega)]
    have := h.bits
    exact AnsBs.drain_holds _ h.cap (show b.bit_count + n < b.bit_count + n + 8 by omega)
      (show b.buf.length * 8 + (b.bit_count + n) = k + n by omega) hroom

/-- `ansRenorm` on the number of bits and the state. -/
def renormBits (threshold : Nat) : Nat → Nat × Nat → Nat × Nat
  | 0, r => r
  | turns + 1, (k, state) =>
    if state ≥ threshold then renormBits threshold turns (k + 1, state / 2) else (k, state)

/-- `ansEncode` on them, with room for `cap` bytes. -/
def encodeBits (t : AnsTables) (cap : Nat) (r : Nat × Nat) (sym : UInt8) : Option (Nat × Nat) :=
  let f := t.norm.getD sym.toNat 0
  let nb := computeNb f
  let r := renormBits (f * 2 ^ nb) 32 r
  if f = 0 ∨ r.2 / 2 ^ nb ≥ f ∨ nb > 32 ∨ r.1 + nb > cap * 8 then none
  else some (r.1 + nb, t.slotOf sym.toNat (r.2 / 2 ^ nb))

theorem le_renormBits (threshold turns : Nat) (r : Nat × Nat) :
    r.1 ≤ (renormBits threshold turns r).1 := by
  induction turns generalizing r with
  | zero => exact Nat.le_refl _
  | succ turns ih =>
    unfold renormBits
    split
    · exact (Nat.le_succ _).trans (ih (r.1 + 1, r.2 / 2))
    · exact Nat.le_refl _

theorem ansRenorm_bits (threshold turns : Nat) {state : Nat} (h : b.Holds cap k)
    (hroom : (renormBits threshold turns (k, state)).1 ≤ cap * 8) :
    ∃ b', ansRenorm threshold turns (b, state)
        = .ok (b', (renormBits threshold turns (k, state)).2) ∧
      b'.Holds cap (renormBits threshold turns (k, state)).1 := by
  induction turns generalizing b k state with
  | zero => exact ⟨b, rfl, h⟩
  | succ turns ih =>
    unfold renormBits at hroom ⊢
    unfold ansRenorm
    by_cases hbig : state ≥ threshold
    · rw [if_pos hbig] at hroom ⊢
      obtain ⟨b₁, hput, h₁⟩ := AnsBs.put_holds h (state % 2) (show 1 ≤ 32 by decide)
        ((le_renormBits threshold turns (k + 1, state / 2)).trans hroom)
      rw [if_pos hbig, hput]
      exact ih h₁ hroom
    · rw [if_neg hbig] at hroom ⊢
      rw [if_neg hbig]
      exact ⟨b, rfl, h⟩

/-- Where the count goes through, so does the coder. -/
theorem ansEncode_bits {t : AnsTables} {state : Nat} {r : Nat × Nat} {sym : UInt8}
    (h : b.Holds cap k) (hr : encodeBits t cap (k, state) sym = some r) :
    ∃ b', ansEncode t (b, state) sym = .ok (b', r.2) ∧ b'.Holds cap r.1 := by
  unfold encodeBits at hr
  dsimp only at hr
  split at hr
  · cases hr
  next hok =>
  push Not at hok
  obtain ⟨hf, hfit, hnb, hroom⟩ := hok
  cases hr
  obtain ⟨b₁, hren, h₁⟩ := ansRenorm_bits _ 32 h ((Nat.le_add_right _ _).trans hroom)
  obtain ⟨b₂, hput, h₂⟩ := AnsBs.put_holds h₁ _ hnb hroom
  refine ⟨b₂, ?_, h₂⟩
  unfold ansEncode
  dsimp only
  rw [if_neg hf, hren]
  dsimp only [bind, Except.bind]
  rw [if_neg (Nat.not_le.mpr hfit), hput]

theorem ansEncode_run {t : AnsTables} (input : Bytes) {state : Nat} {r : Nat × Nat}
    (h : b.Holds cap k) (hr : input.foldlM (encodeBits t cap) (k, state) = some r) :
    ∃ b', input.foldlM (ansEncode t) (b, state) = .ok (b', r.2) ∧ b'.Holds cap r.1 := by
  induction input generalizing b k state with
  | nil =>
    cases hr
    exact ⟨b, rfl, h⟩
  | cons sym input ih =>
    rw [foldlM_cons] at hr ⊢
    obtain ⟨r₁, hone, hr⟩ := Option.bind_eq_some_iff.mp hr
    obtain ⟨b₁, hcode, h₁⟩ := ansEncode_bits h hone
    rw [hcode]
    exact ih h₁ hr

/-! ### The walk over the states -/

variable {s : Nat} {norm order : List Nat}

/-- The `k`-th state that `build_tables` takes. -/
def ansWalk (k : Nat) : Nat := ansStep * k % ANS_L

theorem ansWalk_succ (k : Nat) : (ansWalk k + ansStep) % ANS_L = ansWalk (k + 1) := by
  unfold ansWalk
  rw [Nat.mod_add_mod, Nat.mul_succ]

/-- The step is odd, so that no state is taken twice. -/
theorem ansWalk_inj {j k : Nat} (hj : j < ANS_L) (hk : k < ANS_L) (h : ansWalk j = ansWalk k) :
    j = k := by
  have hstep : ansStep = 163 := rfl
  unfold ansWalk at h
  rw [hstep] at h
  unfold ANS_L at hj hk h
  omega

/-- The states of the symbol `s`, if the symbols of `order` take theirs one after the other. -/
def ansRow (order : List Nat) (s : Nat) : List Nat :=
  (order.zipIdx.filter (·.1 = s)).map fun p => ansWalk p.2

/-- A table in which the symbols of `order` have their states, and the next state. -/
structure Walked (norm order : List Nat) (r : AnsTables × Nat) : Prop where
  norm_eq : r.1.norm = norm
  next : r.2 = ansWalk order.length
  symbols : r.1.symbol.length = ANS_L
  bits : r.1.nb_bits.length = ANS_L
  rows : r.1.slot.length = 256
  taken : ∀ p ∈ order.zipIdx, r.1.symbol.getD (ansWalk p.2) 0 = p.1 ∧
    r.1.nb_bits.getD (ansWalk p.2) 0 = computeNb (norm.getD p.1 0)
  free : ∀ j, order.length ≤ j → j < ANS_L → r.1.symbol.getD (ansWalk j) 0 = 0xFF
  row : ∀ s < 256, r.1.slot.getD s [] = ansRow order s

theorem getD_set_eq (l : List Nat) (i j v : Nat) (hi : i < l.length) :
    (l.set i v).getD j 0 = if i = j then v else l.getD j 0 := by
  rw [getD_eq_getElem?_getD, getElem?_set, if_pos hi]
  split
  · rfl
  · rw [← getD_eq_getElem?_getD]

/-- A turn of the loop over the ranks takes the next state. -/
theorem Walked.step {pos : Nat} (h : Walked norm order (t, pos))
    (hroom : order.length < ANS_L) :
    freeState t.symbol ANS_L pos = pos ∧
      Walked norm (order ++ [s])
        ({ t with
            symbol := t.symbol.set pos s
            nb_bits := t.nb_bits.set pos (computeNb (norm.getD s 0))
            slot := t.slot.modify s fun row => row ++ [pos] }, (pos + ansStep) % ANS_L) := by
  obtain ⟨hnorm, hnext, hsym, hbits, hrows, htaken, hfree, hrow⟩ := h
  dsimp only at hnext hsym hbits hrows htaken hfree hrow
  have hpos : pos < ANS_L := hnext ▸ Nat.mod_lt _ (by decide)
  have hother : ∀ j < ANS_L, j ≠ order.length → pos ≠ ansWalk j := fun j hj hne heq =>
    hne (ansWalk_inj hj hroom (heq.symm.trans hnext))
  refine ⟨?_, hnorm, ?_, ?_, ?_, ?_, ?_, ?_, ?_⟩
  · show freeState t.symbol (255 + 1) pos = pos
    rw [freeState, if_neg]
    rw [hnext]
    exact not_not_intro (hfree _ (Nat.le_refl _) hroom)
  · rw [length_append, hnext]
    exact ansWalk_succ _
  · exact length_set.trans hsym
  · exact length_set.trans hbits
  · exact (length_modify _ _ _).trans hrows
  · intro p hp
    dsimp only
    rw [getD_set_eq _ _ _ _ (hpos.trans_eq hsym.symm),
      getD_set_eq _ _ _ _ (hpos.trans_eq hbits.symm)]
    rw [zipIdx_append, mem_append] at hp
    rcases hp with hp | hp
    · have hlt : p.2 < order.length := by simpa using snd_lt_add_of_mem_zipIdx hp
      have hne := hother p.2 (hlt.trans hroom) hlt.ne
      rw [if_neg hne, if_neg hne]
      exact htaken p hp
    · obtain rfl : p = (s, order.length) := by simpa using hp
      rw [if_pos hnext, if_pos hnext]
      exact ⟨rfl, rfl⟩
  · intro j hj hlt
    rw [length_append, length_singleton] at hj
    dsimp only
    rw [getD_set_eq _ _ _ _ (hpos.trans_eq hsym.symm), if_neg (hother j hlt (by omega))]
    exact hfree j (by omega) hlt
  · intro s' hs'
    have hrow' := hrow s' hs'
    have hat : s' < t.slot.length := hs'.trans_eq hrows.symm
    dsimp only
    rw [getD_eq_getElem _ _ hat] at hrow'
    rw [getD_eq_getElem _ _ (by rwa [length_modify]), getElem_modify, hrow']
    unfold ansRow
    rw [zipIdx_append, filter_append, map_append]
    by_cases hss : s = s'
    · simp [hss, hnext]
    · simp [hss]

/-- The loop over the ranks of a symbol. -/
theorem Walked.place {r : AnsTables × Nat} (h : Walked norm order r) (n : Nat)
    (hroom : order.length + n ≤ ANS_L) :
    Walked norm (order ++ replicate n s) (placeRanks s (computeNb (norm.getD s 0)) n r) := by
  induction n generalizing order r with
  | zero => simpa [placeRanks] using h
  | succ n ih =>
    obtain ⟨t, pos⟩ := r
    obtain ⟨hpos, hstep⟩ := h.step (s := s) (by omega)
    have hrest := ih hstep (by rw [length_append, length_singleton]; omega)
    unfold placeRanks
    rw [hpos]
    rw [append_assoc, singleton_append, ← replicate_succ] at hrest
    exact hrest

/-- The symbols in the order of their states. -/
def ansOrder (norm : List Nat) : List Nat :=
  (sortSymsByNb norm).flatMap fun s => replicate (norm.getD s 0) s

theorem Walked.places (ss : List Nat) {r : AnsTables × Nat} (h : Walked norm order r)
    (hroom : order.length + (ss.map fun s => norm.getD s 0).sum ≤ ANS_L) :
    Walked norm (order ++ ss.flatMap fun s => replicate (norm.getD s 0) s)
      (ss.foldl (fun r s => placeRanks s (computeNb (norm.getD s 0)) (norm.getD s 0) r) r) := by
  induction ss generalizing order r with
  | nil => simpa using h
  | cons s ss ih =>
    rw [map_cons, sum_cons] at hroom
    have hone := h.place (s := s) (norm.getD s 0) (by omega)
    have hrest := ih hone (by rw [length_append, length_replicate]; omega)
    rw [append_assoc] at hrest
    exact hrest

/-- The states of all symbols are as many as the frequencies say. -/
theorem sum_sortSymsByNb (hlen : norm.length = 256) :
    ((sortSymsByNb norm).map fun s => norm.getD s 0).sum = norm.sum := by
  have hfilter : ∀ l : List Nat, ((l.filter fun i => norm.getD i 0 > 0).map
      fun s => norm.getD s 0).sum = (l.map fun s => norm.getD s 0).sum := by
    intro l
    induction l with
    | nil => rfl
    | cons i l ih =>
      rw [filter_cons]
      split
      · rw [map_cons, map_cons, sum_cons, sum_cons, ih]
      · next hzero =>
        rw [map_cons, sum_cons, ih]
        simp only [decide_eq_true_eq] at hzero
        omega
  unfold sortSymsByNb
  rw [((perm_insertionSort (nbLe norm) _).map _).sum_nat, hfilter]
  congr 1
  apply ext_getElem
  · simp [ANS_L, hlen]
  · intro i hi hi'
    rw [getElem_map, getElem_range]
    exact getD_eq_getElem _ _ hi'

/-- The table of `build_tables`: each symbol has as many states as its frequency says, and every
    state is taken. -/
theorem buildTables_walked (h : buildTables norm = .ok t) (hlen : norm.length = 256) :
    Walked norm (ansOrder norm) (t, ansWalk ANS_L) ∧ (ansOrder norm).length = ANS_L := by
  unfold buildTables at h
  split at h
  · cases h
  split at h
  · cases h
  next hsum =>
  have hfull := (sum_sortSymsByNb hlen).trans (not_not.mp hsum)
  have hstart : Walked norm []
      (⟨norm, replicate ANS_L 0xFF, replicate ANS_L 0, replicate 256 []⟩, 0) := by
    refine ⟨rfl, rfl, length_replicate, length_replicate, length_replicate, nofun, ?_, ?_⟩
    · intro j _ _
      have hlt : ansWalk j < (replicate ANS_L 0xFF).length :=
        (Nat.mod_lt _ (by decide)).trans_eq length_replicate.symm
      exact (getD_eq_getElem _ _ hlt).trans (getElem_replicate _)
    · intro s hs
      have hlt : s < (replicate 256 ([] : List Nat)).length := hs.trans_eq length_replicate.symm
      exact (getD_eq_getElem _ _ hlt).trans (getElem_replicate _)
  have hwalk := hstart.places (sortSymsByNb norm) (by rw [hfull]; exact Nat.le_refl _)
  have hsize : (ansOrder norm).length = ANS_L := by
    unfold ansOrder
    rw [length_flatMap]
    simpa using hfull
  rw [nil_append] at hwalk
  refine ⟨?_, hsize⟩
  have hnext := hwalk.next
  rw [show ((sortSymsByNb norm).flatMap fun s => replicate (norm.getD s 0) s).length = ANS_L
    from hsize] at hnext
  cases h
  rw [← hnext]
  exact hwalk

theorem Walked.slot_eq {r : AnsTables × Nat} (h : Walked norm order r) :
    r.1.slot = (range 256).map (ansRow order) := by
  apply ext_getElem
  · rw [h.rows, length_map, length_range]
  · intro s hs hs'
    rw [getElem_map, getElem_range, ← h.row s (hs.trans_eq h.rows)]
    exact (getD_eq_getElem _ _ hs).symm

/-- What the coder reads of the table. -/
def coderTable (norm : List Nat) : AnsTables :=
  ⟨norm, [], [], (range 256).map (ansRow (ansOrder norm))⟩

theorem Walked.ansEncode_eq {r : AnsTables × Nat} (h : Walked norm (ansOrder norm) r) :
    ansEncode r.1 = ansEncode (coderTable norm) := by
  unfold coderTable
  rw [← h.slot_eq, ← h.norm_eq]
  rfl

/-- The output of the coder, part by part. -/
theorem mzTansCompress_eq {input bits : Bytes} {cap : Nat} {bw : AnsBs} (hne : input ≠ [])
    (hnorm : normaliseFreqs (tansFreqs input) = .ok norm) (ht : buildTables norm = .ok t)
    (hcode : input.reverse.foldlM (ansEncode t) (⟨cap, [], 0, 0⟩, ANS_L) = .ok (bw, state))
    (hflush : bw.flush = .ok bits) :
    mzTansCompress input (cap + 520) = .ok (norm.flatMap (leBytes 2) ++
      (leBytes 4 state ++ (leBytes 4 (bits.length * 8) ++ bits))) := by
  unfold mzTansCompress
  rw [if_neg hne, hnorm]
  dsimp only [bind, Except.bind]
  rw [ht]
  dsimp only
  rw [if_neg (by omega), Nat.add_sub_cancel, hcode]
  dsimp only
  rw [hflush]

theorem length_flatMap_leBytes (hlen : norm.length = 256) :
    (norm.flatMap (leBytes 2)).length = 512 := by
  rw [length_flatMap, funext (length_leBytes 2), map_const', sum_replicate_nat, hlen]

/-- The decoder on such an output. -/
theorem mzTansDecompress_eq (ht : buildTables norm = .ok t) (hlen : norm.length = 256)
    (hsmall : ∀ n ∈ norm, n < 2 ^ 16) (hstate : state < ANS_L) (n outlen : Nat) (bits : Bytes) :
    mzTansDecompress (norm.flatMap (leBytes 2) ++ (leBytes 4 state ++ (leBytes 4 n ++ bits))) outlen
      = tansLoop t outlen state (lsbBits bits) := by
  have hhead := length_flatMap_leBytes hlen
  have hfield : leNat (slice (norm.flatMap (leBytes 2) ++
      (leBytes 4 state ++ (leBytes 4 n ++ bits))) 512 4) = state := by
    rw [← hhead, (At.mid _ (leBytes 4 state) _).le_eq]
    exact Nat.mod_eq_of_lt (hstate.trans (by decide))
  have hdrop : (norm.flatMap (leBytes 2) ++
      (leBytes 4 state ++ (leBytes 4 n ++ bits))).drop 520 = bits := by
    rw [show 520 = (norm.flatMap (leBytes 2)).length + (leBytes 4 state ++ leBytes 4 n).length by
      simp [hhead], drop_length_add_append, ← append_assoc, drop_left]
  unfold mzTansDecompress
  rw [if_neg (by simp only [length_append, hhead, length_leBytes]; omega),
    readNorm_header hlen hsmall, ht]
  dsimp only [bind, Except.bind]
  rw [hfield, if_neg (Nat.not_le.mpr hstate), hdrop]

/-- The coder succeeds where the count does, and writes as many bits. -/
theorem mzTansCompress_bits {input : Bytes} {cap : Nat} {r : Nat × Nat} (hne : input ≠ [])
    (hnorm : normaliseFreqs (tansFreqs input) = .ok norm) (ht : buildTables norm = .ok t)
    (hlen : norm.length = 256)
    (hr : input.reverse.foldlM (encodeBits (coderTable norm) cap) (0, ANS_L) = some r)
    (hroom : r.1 < cap * 8) :
    ∃ out, mzTansCompress input (cap + 520) = .ok out ∧ out.length = 520 + (r.1 + 7) / 8 := by
  have hwalk := (buildTables_walked ht hlen).1
  have hsame : encodeBits (coderTable norm) = encodeBits t := by
    unfold coderTable
    rw [← hwalk.slot_eq, ← hwalk.norm_eq]
    rfl
  rw [hsame] at hr
  obtain ⟨bw, hcode, h⟩ := ansEncode_run (b := ⟨cap, [], 0, 0⟩) _ ⟨rfl, Nat.zero_lt_succ _, rfl⟩ hr
  have hbits := h.bits
  have hfew := h.few
  have hcap : bw.cap = cap := h.cap
  obtain ⟨bits, hflush, hcount⟩ : ∃ bits, bw.flush = .ok bits ∧ bits.length = (r.1 + 7) / 8 := by
    unfold AnsBs.flush
    by_cases h0 : bw.bit_count = 0
    · rw [if_pos h0]
      exact ⟨_, rfl, by omega⟩
    · rw [if_neg h0, if_neg (by omega)]
      refine ⟨_, rfl, ?_⟩
      rw [length_append, length_singleton]
      omega
  refine ⟨_, mzTansCompress_eq hne hnorm ht hcode hflush, ?_⟩
  simp only [length_append, length_leBytes, length_flatMap_leBytes hlen, hcount]
  omega

/-! ### One byte value -/

/-- The counters of an input of one byte value. -/
theorem tansFreqs_replicate (n : Nat) (a : UInt8) :
    tansFreqs (replicate n a) = (replicate 256 0).set a.toNat (n % 2 ^ 32) := by
  have hgen : ∀ (n m : Nat), (replicate n a).foldl
      (fun freqs b => freqs.modify b.toNat fun n => (n + 1) % 2 ^ 32)
      ((replicate 256 0).set a.toNat (m % 2 ^ 32))
        = (replicate 256 0).set a.toNat ((m + n) % 2 ^ 32) := by
    intro n
    induction n with
    | zero => exact fun m => rfl
    | succ n ih =>
      intro m
      have hlt : a.toNat < ((replicate 256 0).set a.toNat (m % 2 ^ 32)).length := by
        rw [length_set, length_replicate]
        exact a.toNat_lt
      rw [replicate_succ (n := n), foldl_cons, modify_eq_set,
        getElem?_eq_getElem hlt, getElem_set_self, set_set, Option.getD_some, Nat.mod_add_mod, ih (m + 1),
        Nat.add_right_comm, Nat.add_assoc]
  have hzero := hgen n 0
  rw [Nat.zero_add] at hzero
  rw [← hzero]
  unfold tansFreqs
  congr 1
  apply ext_getElem
  · rw [length_set]
  · intro i hi hi'
    rw [getElem_set, getElem_replicate]
    split <;> rfl

/-- Its frequencies after scaling. -/
def oneNorm (a : UInt8) : List Nat := (replicate 256 0).set a.toNat ANS_L

theorem getD_oneNorm (a : UInt8) (i : Nat) :
    (oneNorm a).getD i 0 = if i = a.toNat then ANS_L else 0 := by
  have ha : a.toNat < 256 := a.toNat_lt
  unfold oneNorm
  rw [getD_eq_getElem?_getD, getElem?_set, length_replicate,
    getElem?_replicate]
  by_cases hi : i = a.toNat
  · rw [if_pos hi.symm, if_pos ha, if_pos hi]
    rfl
  · rw [if_neg (Ne.symm hi), if_neg hi]
    split <;> rfl

/-- A row of zeros with one entry. -/
theorem set_replicate_eq (a : UInt8) (v : Nat) : ((replicate 256 0).set a.toNat v)
    = replicate a.toNat 0 ++ v :: replicate (255 - a.toNat) 0 := by
  have ha : a.toNat < 256 := a.toNat_lt
  rw [set_eq_take_append_cons_drop, length_replicate, if_pos ha, take_replicate,
    drop_replicate, Nat.min_eq_left ha.le]
  congr 3
  omega

theorem sum_set_replicate (a : UInt8) (v : Nat) :
    ((replicate 256 0).set a.toNat v).sum = v := by
  rw [set_replicate_eq]
  simp

theorem normaliseFreqs_one (a : UInt8) {v : Nat} (hv : 0 < v) :
    normaliseFreqs ((replicate 256 0).set a.toNat v) = .ok (oneNorm a) := by
  have hone : ((replicate 256 0).set a.toNat v).countP (· > 0) = 1 := by
    rw [set_replicate_eq, countP_append, countP_cons_of_pos (by simpa using hv),
      countP_replicate, countP_replicate]
    simp
  unfold normaliseFreqs
  rw [sum_set_replicate, if_neg (by omega), hone, if_pos rfl, map_set, if_pos hv, map_replicate]
  rfl

theorem sortSymsByNb_one (a : UInt8) : sortSymsByNb (oneNorm a) = [a.toNat] := by
  have ha : a.toNat < 256 := a.toNat_lt
  have hfilter : ((range ANS_L).filter fun i => (oneNorm a).getD i 0 > 0) = [a.toNat] := by
    apply perm_singleton.mp
    apply (perm_ext_iff_of_nodup (nodup_range.filter _) (nodup_singleton _)).mpr
    intro i
    rw [mem_filter, mem_range, mem_singleton, getD_oneNorm, decide_eq_true_eq]
    constructor
    · rintro ⟨-, hpos⟩
      by_contra hne
      rw [if_neg hne] at hpos
      exact lt_irrefl 0 hpos
    · rintro rfl
      rw [if_pos rfl]
      exact ⟨ha, by decide⟩
  unfold sortSymsByNb
  rw [hfilter]
  rfl

/-- Tables in which every state of the row of `s` reads no bit and stands for `s`. -/
structure OnlyStates (s : Nat) (t : AnsTables) : Prop where
  size : t.symbol.length = ANS_L
  rows : s < t.slot.length
  row : ∀ p ∈ t.slot.getD s [], p < ANS_L ∧ t.symbol.getD p 0 = s
  nb : ∀ p, t.nb_bits.getD p 0 = 0

theorem freeState_lt (symbol : List Nat) (turns : Nat) {pos : Nat} (h : pos < ANS_L) :
    freeState symbol turns pos < ANS_L := by
  induction turns generalizing pos with
  | zero => exact h
  | succ turns ih =>
    unfold freeState
    split
    · exact ih (Nat.mod_lt _ (by decide))
    · exact h

/-- The loop over the ranks adds such states, one for each rank. -/
theorem placeRanks_only {s : Nat} (n : Nat) {pos : Nat} (h : OnlyStates s t) (hpos : pos < ANS_L) :
    OnlyStates s (placeRanks s 0 n (t, pos)).1 ∧
      (placeRanks s 0 n (t, pos)).1.norm = t.norm ∧
      ((placeRanks s 0 n (t, pos)).1.slot.getD s []).length = (t.slot.getD s []).length + n := by
  induction n generalizing t pos with
  | zero => exact ⟨h, rfl, rfl⟩
  | succ n ih =>
    have hfree := freeState_lt t.symbol ANS_L hpos
    unfold placeRanks
    generalize freeState t.symbol ANS_L pos = p at hfree ⊢
    have hrow : (t.slot.modify s fun row => row ++ [p]).getD s [] = t.slot.getD s [] ++ [p] := by
      rw [getD_eq_getElem?_getD, getElem?_modify_eq, getD_eq_getElem?_getD,
        getElem?_eq_getElem h.rows]
      rfl
    have hstep : OnlyStates s { t with
        symbol := t.symbol.set p s
        nb_bits := t.nb_bits.set p 0
        slot := t.slot.modify s fun row => row ++ [p] } := by
      refine ⟨?_, ?_, ?_, ?_⟩
      · exact length_set.trans h.size
      · exact lt_of_lt_of_eq h.rows (length_modify _ _ _).symm
      · dsimp only
        rw [hrow]
        intro q hq
        rw [getD_eq_getElem?_getD, getElem?_set, h.size]
        rcases mem_append.mp hq with hq | hq
        · obtain ⟨hlt, hsym⟩ := h.row q hq
          refine ⟨hlt, ?_⟩
          by_cases hqp : p = q
          · rw [if_pos hqp, if_pos hfree]
            rfl
          · rwa [if_neg hqp, ← getD_eq_getElem?_getD]
        · obtain rfl := mem_singleton.mp hq
          rw [if_pos rfl, if_pos hfree]
          exact ⟨hfree, rfl⟩
      · intro q
        rw [getD_eq_getElem?_getD, getElem?_set]
        split
        · split <;> rfl
        · rw [← getD_eq_getElem?_getD]
          exact h.nb q
    obtain ⟨honly, hnorm, hlen⟩ := ih hstep (Nat.mod_lt (p + ansStep) (by decide))
    refine ⟨honly, hnorm, hlen.trans ?_⟩
    rw [hrow, length_append, length_singleton]
    omega

/-- The tables of one byte value: every state of its row stands for it, and a row has 256. -/
theorem buildTables_one (a : UInt8) :
    ∃ t, buildTables (oneNorm a) = .ok t ∧ t.norm = oneNorm a ∧ OnlyStates a.toNat t ∧
      (t.slot.getD a.toNat []).length = ANS_L := by
  have ha : a.toNat < 256 := a.toNat_lt
  have hpow : (oneNorm a).any (fun f => f > ANS_L || !isPow2 f) = false := by
    rw [any_eq_false]
    intro f hf
    rcases mem_or_eq_of_mem_set hf with hf | rfl
    · rw [eq_of_mem_replicate hf]
      decide
    · decide
  have hsum : (oneNorm a).sum = ANS_L := sum_set_replicate a ANS_L
  have hempty : ((replicate 256 ([] : List Nat)).getD a.toNat []) = [] := by
    rw [getD_eq_getElem?_getD, getElem?_replicate, if_pos ha]
    rfl
  have hstart : OnlyStates a.toNat
      { norm := oneNorm a
        symbol := replicate ANS_L 0xFF
        nb_bits := replicate ANS_L 0
        slot := replicate 256 [] } := by
    refine ⟨length_replicate, ?_, ?_, ?_⟩
    · exact lt_of_lt_of_eq ha length_replicate.symm
    · dsimp only
      rw [hempty]
      intro p hp
      cases hp
    · intro p
      rw [getD_eq_getElem?_getD, getElem?_replicate]
      split <;> rfl
  obtain ⟨honly, hnorm, hlen⟩ := placeRanks_only ANS_L hstart (show 0 < ANS_L by decide)
  refine ⟨_, ?_, hnorm, honly, ?_⟩
  · unfold buildTables
    rw [hpow, if_neg Bool.false_ne_true, hsum, if_neg (not_not_intro rfl), sortSymsByNb_one,
      foldl_cons, foldl_nil, getD_oneNorm, if_pos rfl]
    rfl
  · rw [hlen]
    rw [hempty, length_nil, Nat.zero_add]

/-- After a turn of the coder the state is in the row of the byte. -/
theorem ansEncode_one (hnorm : t.norm = oneNorm a)
    (hlen : (t.slot.getD a.toNat []).length = ANS_L) {bw bw' : AnsBs} {state' : Nat}
    (h : ansEncode t (bw, state) a = .ok (bw', state')) :
    state' ∈ t.slot.getD a.toNat [] := by
  unfold ansEncode at h
  rw [hnorm, getD_oneNorm, if_pos rfl] at h
  rw [if_neg (by decide)] at h
  obtain ⟨⟨bw₁, state₁⟩, -, h⟩ := bind_ok h
  dsimp only at h
  split at h
  · cases h
  · next hlt =>
    obtain ⟨bw₂, -, h⟩ := bind_ok h
    cases h
    have hin : state₁ / 2 ^ computeNb ANS_L < (t.slot.getD a.toNat []).length := by omega
    unfold AnsTables.slotOf
    rw [getD_eq_getElem _ _ hin]
    exact getElem_mem hin

/-- So it is after all of them. -/
theorem ansEncode_replicate (hnorm : t.norm = oneNorm a)
    (hlen : (t.slot.getD a.toNat []).length = ANS_L) (n : Nat) {r : AnsBs × Nat} {bw : AnsBs}
    (h : (replicate (n + 1) a).foldlM (ansEncode t) r = .ok (bw, state)) :
    state ∈ t.slot.getD a.toNat [] := by
  rw [replicate_succ', foldlM_append] at h
  obtain ⟨⟨bw₁, state₁⟩, -, hlast⟩ := bind_ok h
  rw [foldlM_cons] at hlast
  obtain ⟨⟨bw₂, state₂⟩, hone, hlast⟩ := bind_ok hlast
  cases hlast
  exact ansEncode_one hnorm hlen hone

/-- From a state of the row the decoder gives the byte until its room is full. -/
theorem tansLoop_one (hnorm : t.norm = oneNorm a)
    (honly : OnlyStates a.toNat t) (hstate : state ∈ t.slot.getD a.toNat [])
    (room : Nat) (bits : List Bool) :
    tansLoop t room state bits = .ok (replicate room a) := by
  obtain ⟨hlt, hsym⟩ := honly.row state hstate
  induction room with
  | zero => rfl
  | succ room ih =>
    have hnext : state / 2 ^ 0 * 2 ^ 0 + 0 = state := by simp
    unfold tansLoop
    dsimp only
    rw [hsym, honly.nb, hnorm, getD_oneNorm, if_pos rfl, if_neg (by decide)]
    dsimp only [brGetN]
    rw [hnext, if_neg (by omega), ih]
    rw [UInt8.ofNat_toNat, replicate_succ]

/-- What `mz_tans_compress` writes for an input of one byte value is decoded to the input. -/
theorem mzTans_roundtrip {input out : Bytes} {cap : Nat} (h : mzTansCompress input cap = .ok out)
    (hone : ∀ a ∈ input, ∀ b ∈ input, a = b) :
    mzTansDecompress out input.length = .ok input := by
  rcases input with _ | ⟨a, input⟩
  · cases h
  -- the input is a repetition of its first byte
  obtain ⟨n, hn⟩ : ∃ n, a :: input = replicate (n + 1) a :=
    ⟨input.length, eq_replicate_iff.mpr
      ⟨length_cons, fun b hb => hone b hb a mem_cons_self⟩⟩
  rw [hn] at h ⊢
  clear hone hn
  unfold mzTansCompress at h
  rw [if_neg (by rw [replicate_succ]; exact cons_ne_nil _ _), tansFreqs_replicate] at h
  obtain ⟨norm, hnorm, h⟩ := bind_ok h
  obtain ⟨t, htab, h⟩ := bind_ok h
  have hpos : 0 < (n + 1) % 2 ^ 32 := by
    rcases Nat.eq_zero_or_pos ((n + 1) % 2 ^ 32) with hzero | hpos
    · -- no byte is counted, which the coder refuses
      unfold normaliseFreqs at hnorm
      rw [hzero, sum_set_replicate, if_pos rfl] at hnorm
      cases hnorm
    · exact hpos
  cases (normaliseFreqs_one a hpos).symm.trans hnorm
  obtain ⟨t', htab', htnorm, honly, hlen⟩ := buildTables_one a
  cases htab'.symm.trans htab
  split at h
  · cases h
  obtain ⟨⟨bw, state⟩, hcode, h⟩ := bind_ok h
  obtain ⟨bits, -, h⟩ := bind_ok h
  rw [reverse_replicate] at hcode
  have hrow := ansEncode_replicate htnorm hlen n hcode
  have hstate := (honly.row state hrow).1
  have hsize : (oneNorm a).length = 256 := length_set.trans length_replicate
  have hsmall : ∀ m ∈ oneNorm a, m < 2 ^ 16 := by
    intro m hm
    rcases mem_or_eq_of_mem_set hm with hm | rfl
    · rw [eq_of_mem_replicate hm]
      decide
    · decide
  have hhead : ((oneNorm a).flatMap (leBytes 2)).length = 512 := by
    rw [length_flatMap, funext (length_leBytes 2), map_const',
      sum_replicate_nat, hsize]
  cases h
  have hfield : leNat (slice ((oneNorm a).flatMap (leBytes 2) ++ (leBytes 4 state ++
      (leBytes 4 (bits.length * 8) ++ bits))) 512 4) = state := by
    rw [← hhead, (At.mid _ (leBytes 4 state) _).le_eq]
    exact Nat.mod_eq_of_lt (hstate.trans (by decide))
  have hlong : ¬ ((oneNorm a).flatMap (leBytes 2) ++ (leBytes 4 state ++
      (leBytes 4 (bits.length * 8) ++ bits))).length < 520 := by
    rw [length_append, length_append, length_append, hhead, length_leBytes,
      length_leBytes]
    omega
  unfold mzTansDecompress
  rw [if_neg hlong, readNorm_header hsize hsmall, htab']
  show (if _ then _ else _) = _
  rw [hfield, if_neg (by omega), length_replicate]
  exact tansLoop_one htnorm honly hrow (n + 1) _

deriving instance DecidableEq for AnsBs

/-- The frequencies of the letters a and b. -/
def twoNorm : List Nat := replicate 97 0 ++ [128, 128] ++ replicate 157 0

theorem length_twoNorm : twoNorm.length = 256 := by simp [twoNorm, -reduceReplicate]

theorem buildTables_two : ∃ t, buildTables twoNorm = .ok t := by
  unfold buildTables
  rw [if_neg (by simp [twoNorm, isPow2, ANS_L, -reduceReplicate]), if_neg (by simp [twoNorm, ANS_L, -reduceReplicate])]
  exact ⟨_, rfl⟩

theorem two_runs :
    [97, 97].foldlM (encodeBits (coderTable (oneNorm 97)) 504) (0, ANS_L) = some (1, 128) ∧
    (normaliseFreqs (tansFreqs [97, 98])).toOption = some twoNorm ∧
    ([98, 97].foldlM (ansEncode (coderTable twoNorm)) (⟨504, [], 0, 0⟩, ANS_L)).toOption
      = some (⟨504, [], 0, 3⟩, ansWalk 32) ∧
    (ansOrder twoNorm)[32]? = some 97 :=
  ⟨by decide +kernel, by decide +kernel, by decide +kernel, by decide +kernel⟩

/-- Two letters a are coded in 521 bytes and given back. -/
theorem mzTans_roundtrip_letters :
    ∃ out, mzTansCompress [97, 97] 1024 = .ok out ∧ mzTansDecompress out 2 = .ok [97, 97] := by
  obtain ⟨t, ht, -⟩ := buildTables_one 97
  have hnorm : normaliseFreqs (tansFreqs [97, 97]) = .ok (oneNorm 97) := by
    rw [show ([97, 97] : Bytes) = replicate 2 97 from rfl, tansFreqs_replicate]
    exact normaliseFreqs_one 97 (by decide)
  have hcount : ([97, 97] : Bytes).reverse.foldlM (encodeBits (coderTable (oneNorm 97)) 504)
      (0, ANS_L) = some (1, 128) := two_runs.1
  obtain ⟨out, hout, -⟩ := mzTansCompress_bits (by simp) hnorm ht
    (length_set.trans length_replicate) hcount (by decide)
  exact ⟨out, hout, mzTans_roundtrip hout (by simp)⟩

theorem mzTansCompress_two : mzTansCompress [97, 98] 1024 = .ok (twoNorm.flatMap (leBytes 2) ++
    (leBytes 4 (ansWalk 32) ++ (leBytes 4 8 ++ [0]))) := by
  obtain ⟨-, hnorm, hcode, -⟩ := two_runs
  obtain ⟨t, ht⟩ := buildTables_two
  have hcode := ok_of_toOption hcode
  rw [← (buildTables_walked ht length_twoNorm).1.ansEncode_eq] at hcode
  have hflush : AnsBs.flush ⟨504, [], 0, 3⟩ = .ok [0] := rfl
  have hcomp := mzTansCompress_eq (by simp) (ok_of_toOption hnorm) ht hcode hflush
  exact hcomp

/-- The last state is the 33rd one of the walk.  It stands for a, and a bit 0 leads back to it. -/
theorem tansLoop_two (ht : buildTables twoNorm = .ok t) (room : Nat) (bits : List Bool) :
    tansLoop t (room + 1) (ansWalk 32) (false :: bits)
      = (tansLoop t room (ansWalk 32) bits).map ((97 : UInt8) :: ·) := by
  have hwalk := (buildTables_walked ht length_twoNorm).1
  obtain ⟨hsym, hbit⟩ := hwalk.taken (97, 32) (mem_zipIdx_iff_getElem?.mpr two_runs.2.2.2)
  have hfreq : twoNorm.getD 97 0 = 128 := rfl
  rw [tansLoop, hsym, hbit, hwalk.norm_eq, hfreq, if_neg (by decide)]
  dsimp only
  rw [show computeNb 128 = 1 from rfl]
  dsimp only [brGetN]
  rw [if_neg (by decide)]
  show (match tansLoop t room (ansWalk 32) bits with
    | .error e => Except.error e
    | .ok rest => .ok (UInt8.ofNat 97 :: rest)) = _
  rcases tansLoop t room (ansWalk 32) bits with e | rest <;> rfl

/-- The letters a and b are coded, and decoded to two letters a. -/
theorem mzTans_two_letters :
    ∃ out, mzTansCompress [97, 98] 1024 = .ok out ∧ mzTansDecompress out 2 = .ok [97, 97] ∧
      mzTansDecompress out 2 ≠ .ok [97, 98] := by
  obtain ⟨t, ht⟩ := buildTables_two
  have hsmall : ∀ n ∈ twoNorm, n < 2 ^ 16 := by simp [twoNorm, -reduceReplicate]
  have hdec := mzTansDecompress_eq ht length_twoNorm hsmall (show ansWalk 32 < ANS_L by decide) 8 2
    [0]
  have hloop : tansLoop t 2 (ansWalk 32) (lsbBits [0]) = .ok [97, 97] := by
    rw [show lsbBits [0] = false :: false :: replicate 6 false from rfl, tansLoop_two ht,
      tansLoop_two ht]
    rfl
  rw [hloop] at hdec
  exact ⟨_, mzTansCompress_two, hdec, by rw [hdec]; decide⟩

end MeuOS.Compress
