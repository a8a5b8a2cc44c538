import MeuOS.Compress.Combo
import MeuOS.Lib.CheckedBytes

namespace MeuOS.Compress

open MeuOS.Lib

/-!
# The decoder of `mz_combo.c` over a piece of memory

The decoders again, with a pointer and a length in the place of the bytes: every read of the input
and every store to the block for the output is checked.

* `lz77From`, `hufFrom`, `tansFrom`, `meuosFrom` — the LZ77, Huffman and tANS decoders, and
  `mz_decompress_meuos` over them;
* `lz77From_sat`, `hufFrom_sat`, `tansFrom_sat`, `meuosFrom_sat` — given bytes that are there, they
  end and keep inside their input and their blocks.
-/

variable {grants : Nat → Bool}

/-! ### LZ77 -/

/-- `out[op++] = b` into a block of `uncompsz` bytes, and the same byte to the window. -/
def DecSt.store (uncompsz : Nat) (s : DecSt) (b : UInt8) : Checked MzErr DecSt :=
  if s.out.length < uncompsz then .ok (s.put b) else .fault

/-- The copy loop of a match token. -/
def copyFrom (uncompsz offset : Nat) : Nat → DecSt → Checked MzErr DecSt
  | 0, s => .ok s
  | length + 1, s =>
    if s.out.length < uncompsz then do
      let s ← s.store uncompsz (s.win ((s.wp + MZ_WSIZE - offset) % MZ_WSIZE))
      copyFrom uncompsz offset length s
    else .ok s

/-- `while (ip < inlen && op < uncompsz)`. -/
def lz77Loop (isV2 : Bool) (uncompsz : Nat) : Nat → Src → DecSt → Checked MzErr DecSt
  | 0, _, _ => .stuck
  | turns + 1, src, s =>
    if src.left > 0 ∧ s.out.length < uncompsz then do
      let (b0, src) ← src.byte
      if b0 < 0x80 then
        let s ← s.store uncompsz b0
        lz77Loop isV2 uncompsz turns src s
      else if isEscape isV2 b0 then
        if src.left = 0 then .fail .data
        else
          let (val, src) ← src.byte
          let s ← s.store uncompsz val
          lz77Loop isV2 uncompsz turns src s
      else if src.left < 2 then .fail .data
      else
        let (b1, src) ← src.byte
        let (b2, src) ← src.byte
        if !isV2 && matchOffset isV2 b0 b1 b2 == 0 then return s
        else
          let s ← copyFrom uncompsz (matchOffset isV2 b0 b1 b2) (matchLength isV2 b2) s
          lz77Loop isV2 uncompsz turns src s
    else .ok s

/-- `mz_decompress_lz77`: the value returned and the bytes of `*result`.  The second character is
read where the first one fits. -/
def lz77From (grants : Nat → Bool) (src : Src) : Checked MzErr (Int × Bytes) :=
  if src.left < 6 then .fail .data
  else do
    let (m0, src) ← src.byte
    if m0 ≠ 0x4D ∧ m0 ≠ 0x6D then .fail .data
    else
      let (m1, src) ← src.byte
      if m1 ≠ 0x5A then .fail .data
      else
        let (size, src) ← src.take 4
        if grants (leNat size) then
          let s ← lz77Loop (m0 == 0x6D) (leNat size) (src.left + 1) src .init
          return (cInt s.out.length, s.out)
        else .fail .memory

theorem copyFrom_sat {uncompsz offset length : Nat} {s : DecSt} :
    (copyFrom uncompsz offset length s).Sat fun _ => True := by
  induction length generalizing s with
  | zero => trivial
  | succ length ih =>
    unfold copyFrom
    split
    · rename_i hroom
      rw [DecSt.store, if_pos hroom, Checked.ok_bind]
      exact ih
    · trivial

theorem lz77Loop_sat {isV2 : Bool} {uncompsz turns : Nat} {src : Src} {s : DecSt}
    (hin : src.Inside) (hturns : src.left < turns) :
    (lz77Loop isV2 uncompsz turns src s).Sat fun _ => True := by
  induction turns generalizing src s with
  | zero => exact absurd hturns (Nat.not_lt_zero _)
  | succ turns ih =>
    unfold lz77Loop
    split
    · rename_i hmore
      apply (Src.byte_sat hin hmore.1).bind
      rintro ⟨b0, src₁⟩ ⟨hin₁, hleft₁⟩
      dsimp only at hin₁ hleft₁ ⊢
      split
      · rw [DecSt.store, if_pos hmore.2, Checked.ok_bind]
        exact ih hin₁ (by omega)
      split
      · split
        · trivial
        apply (Src.byte_sat hin₁ (by omega)).bind
        rintro ⟨val, src₂⟩ ⟨hin₂, hleft₂⟩
        rw [DecSt.store, if_pos hmore.2, Checked.ok_bind]
        exact ih hin₂ (by omega)
      split
      · trivial
      apply (Src.byte_sat hin₁ (by omega)).bind
      rintro ⟨b1, src₂⟩ ⟨hin₂, hleft₂⟩
      dsimp only at hin₂ hleft₂ ⊢
      apply (Src.byte_sat hin₂ (by omega)).bind
      rintro ⟨b2, src₃⟩ ⟨hin₃, hleft₃⟩
      split
      · trivial
      · exact copyFrom_sat.bind fun s' _ => ih hin₃ (by omega)
    · trivial

theorem lz77From_sat {src : Src} (hin : src.Inside) :
    (lz77From grants src).Sat fun _ => True := by
  unfold lz77From
  split
  · trivial
  apply (Src.byte_sat hin (by omega)).bind
  rintro ⟨m0, src₁⟩ ⟨hin₁, hleft₁⟩
  dsimp only at hin₁ hleft₁ ⊢
  split
  · trivial
  apply (Src.byte_sat hin₁ (by omega)).bind
  rintro ⟨m1, src₂⟩ ⟨hin₂, hleft₂⟩
  dsimp only at hin₂ hleft₂ ⊢
  split
  · trivial
  apply (Src.take_sat hin₂ (show 4 ≤ src₂.left by omega)).bind
  rintro ⟨size, src₃⟩ ⟨hin₃, -⟩
  split
  · exact (lz77Loop_sat hin₃ (Nat.lt_succ_self _)).bind fun _ _ => trivial
  · trivial

/-! ### Huffman codes -/

/-- `struct bit_reader`. -/
structure HufReader where
  src : Src
  hold : UInt32
  hold_bits : Nat

/-- The bits held, as the peeking functions see them. -/
def HufReader.bits (br : HufReader) : BitReader :=
  { rest := br.src.bytes, hold := br.hold, hold_bits := br.hold_bits }

/-- `br_consume`. -/
def HufReader.consume (br : HufReader) (n : Nat) : HufReader :=
  { src := br.src, hold := (br.bits.consume n).hold, hold_bits := (br.bits.consume n).hold_bits }

/-- `br_fill`: are there `n` bits, and the reader after it. -/
def fillFrom (n : Nat) : Nat → HufReader → Checked MzErr (Bool × HufReader)
  | 0, _ => .stuck
  | turns + 1, br =>
    if br.hold_bits < n then
      if br.src.left = 0 then .ok (false, br)
      else do
        let (b, src) ← br.src.byte
        fillFrom n turns
          { src := src, hold := (br.hold <<< 8) ||| b.toUInt32, hold_bits := br.hold_bits + 8 }
    else .ok (true, br)

/-- The bit by bit part of `decode_sym`. -/
def treeFrom : Trie UInt8 → HufReader → Checked MzErr (Option (UInt8 × HufReader))
  | .nil, _ => .ok none
  | .node (some s) _ _, br => .ok (some (s, br))
  | .node none l r, br => do
      let (filled, br) ← fillFrom 1 2 br
      if !filled then return none
      else if br.bits.peek 1 = 0 then treeFrom l (br.consume 1)
      else treeFrom r (br.consume 1)

/-- `decode_sym`. -/
def symFrom (table : Nat → DecodeEntry) (root : Trie UInt8) (br : HufReader) :
    Checked MzErr (Option (UInt8 × HufReader)) := do
  let (filled, br) ← fillFrom DECODE_TABLE_BITS (DECODE_TABLE_BITS + 1) br
  let key := (br.bits.peek DECODE_TABLE_BITS).toNat
  if filled ∧ key < 2 ^ DECODE_TABLE_BITS ∧ (table key).len > 0 then
    return some ((table key).sym, br.consume (table key).len)
  else treeFrom root br

/-- `while (op < *outlen)`, with room for some more bytes. -/
def hufLoopFrom (table : Nat → DecodeEntry) (root : Trie UInt8) :
    Nat → HufReader → Checked MzErr Bytes
  | 0, _ => .ok []
  | room + 1, br => do
      match ← symFrom table root br with
      | none => return []
      | some (sym, br) =>
        let rest ← hufLoopFrom table root room br
        return sym :: rest

/-- `mz_huf_decompress` with room for `outlen` bytes. -/
def hufFrom (src : Src) (outlen : Nat) : Checked MzErr Bytes :=
  if src.left < 2 + 256 then .fail .data
  else do
    let (count, src) ← src.take 2
    if leNat count ≠ 256 then .fail .data
    else
      let (lens, src) ← src.take 256
      let cs := makeCanonical (readLen (count ++ lens))
      match buildDecodeTree cs (if cs = [] then .nil else .node none .nil .nil) with
      | .error e => .fail e
      | .ok root =>
        hufLoopFrom (buildDecodeTable cs) root outlen { src := src, hold := 0, hold_bits := 0 }

theorem fillFrom_sat {n turns : Nat} {br : HufReader} (hin : br.src.Inside)
    (hturns : n ≤ br.hold_bits + turns) :
    (fillFrom n (turns + 1) br).Sat fun r => r.2.src.Inside := by
  induction turns generalizing br with
  | zero =>
    unfold fillFrom
    rw [if_neg (by omega)]
    exact hin
  | succ turns ih =>
    unfold fillFrom
    split
    · split
      · exact hin
      apply (Src.byte_sat hin (by omega)).bind
      rintro ⟨b, src⟩ ⟨hin', -⟩
      exact ih hin' (by dsimp only; omega)
    · exact hin

theorem treeFrom_sat {tree : Trie UInt8} {br : HufReader} (hin : br.src.Inside) :
    (treeFrom tree br).Sat fun r => ∀ x ∈ r, x.2.src.Inside := by
  induction tree generalizing br with
  | nil =>
    show ∀ x ∈ none, _
    simp
  | node sym l r ihl ihr =>
    cases sym with
    | some s =>
      show ∀ x ∈ some (s, br), _
      simpa using hin
    | none =>
      apply (fillFrom_sat hin (by omega)).bind
      rintro ⟨filled, br'⟩ hin'
      dsimp only at hin' ⊢
      split
      · show ∀ x ∈ none, _
        simp
      split
      · exact ihl hin'
      · exact ihr hin'

theorem symFrom_sat {table : Nat → DecodeEntry} {root : Trie UInt8} {br : HufReader}
    (hin : br.src.Inside) : (symFrom table root br).Sat fun r => ∀ x ∈ r, x.2.src.Inside := by
  apply (fillFrom_sat hin (by omega)).bind
  rintro ⟨filled, br'⟩ hin'
  dsimp only at hin' ⊢
  split
  · intro x hx
    cases hx
    exact hin'
  · exact treeFrom_sat hin'

theorem hufLoopFrom_sat {table : Nat → DecodeEntry} {root : Trie UInt8} {room : Nat}
    {br : HufReader} (hin : br.src.Inside) :
    (hufLoopFrom table root room br).Sat fun _ => True := by
  induction room generalizing br with
  | zero => trivial
  | succ room ih =>
    apply (symFrom_sat hin).bind
    intro r hr
    match r with
    | none => trivial
    | some (sym, br') => exact (ih (hr (sym, br') rfl)).bind fun _ _ => trivial

theorem hufFrom_sat {src : Src} {outlen : Nat} (hin : src.Inside) :
    (hufFrom src outlen).Sat fun _ => True := by
  unfold hufFrom
  split
  · trivial
  apply (Src.take_sat hin (show 2 ≤ src.left by omega)).bind
  rintro ⟨count, src₁⟩ ⟨hin₁, hleft₁⟩
  dsimp only at hin₁ hleft₁ ⊢
  split
  · trivial
  apply (Src.take_sat hin₁ (show 256 ≤ src₁.left by omega)).bind
  rintro ⟨lens, src₂⟩ ⟨hin₂, -⟩
  split
  · trivial
  · exact hufLoopFrom_sat hin₂

/-! ### Asymmetric numeral systems -/

/-- `br_get`: a bit of the `cap` bytes behind a pointer, none behind them. -/
def bitFrom (src : Src) (bit_pos : Nat) : Checked MzErr (Option Nat) :=
  if bit_pos / 8 ≥ src.left then .ok none
  else do
    let b ← leAt src.bytes (bit_pos / 8) 1
    return some (b / 2 ^ (bit_pos % 8) % 2)

/-- `br_get_n`: a number of `n` bits, the lowest one first, and the position behind it. -/
def bitsFrom (src : Src) : Nat → Nat → Checked MzErr (Option (Nat × Nat))
  | 0, bit_pos => .ok (some (0, bit_pos))
  | n + 1, bit_pos => do
      match ← bitFrom src bit_pos with
      | none => return none
      | some bit =>
        let rest ← bitsFrom src n (bit_pos + 1)
        return rest.map fun r => (bit + 2 * r.1, r.2)

/-- The loop of `mz_tans_decompress` with room for some more bytes.  The tables have `ANS_L`
entries. -/
def tansLoopFrom (t : AnsTables) (src : Src) : Nat → Nat → Nat → Checked MzErr Bytes
  | 0, _, _ => .ok []
  | room + 1, state, bit_pos =>
    if state ≥ ANS_L then .fault
    else
      let sym := t.symbol.getD state 0
      if t.norm.getD sym 0 = 0 then .fail .data
      else do
        let nb := t.nb_bits.getD state 0
        match ← bitsFrom src nb bit_pos with
        | none => .fail .data
        | some (v, bit_pos) =>
          if state / 2 ^ nb * 2 ^ nb + v ≥ ANS_L then .fail .data
          else
            let rest ← tansLoopFrom t src room (state / 2 ^ nb * 2 ^ nb + v) bit_pos
            return UInt8.ofNat sym :: rest

/-- `mz_tans_decompress` with room for `outlen` bytes; the tables take 67328 bytes of memory. -/
def tansFrom (grants : Nat → Bool) (src : Src) (outlen : Nat) : Checked MzErr Bytes :=
  if src.left < 520 then .fail .data
  else do
    let (header, src) ← src.take 512
    if grants 67328 then
      match buildTables (readNorm header) with
      | .error e => .fail e
      | .ok t =>
        let (state, src) ← src.take 4
        if leNat state ≥ ANS_L then .fail .data
        else
          -- the number of bits is not read
          let bits : Src := { bytes := src.bytes.drop 4, left := src.left - 4 }
          tansLoopFrom t bits outlen (leNat state) 0
    else .fail .memory

theorem bitsFrom_sat {src : Src} (hin : src.Inside) {n bit_pos : Nat} :
    (bitsFrom src n bit_pos).Sat fun _ => True := by
  induction n generalizing bit_pos with
  | zero => trivial
  | succ n ih =>
    unfold Src.Inside at hin
    have hbit : (bitFrom src bit_pos).Sat fun _ => True := by
      unfold bitFrom
      split
      · trivial
      · exact (leAt_sat (by omega)).bind fun _ _ => trivial
    apply hbit.bind
    intro bit _
    match bit with
    | none => trivial
    | some bit => exact ih.bind fun _ _ => trivial

theorem tansLoopFrom_sat {t : AnsTables} {src : Src} (hin : src.Inside) {room state bit_pos : Nat}
    (hstate : state < ANS_L) : (tansLoopFrom t src room state bit_pos).Sat fun _ => True := by
  induction room generalizing state bit_pos with
  | zero => trivial
  | succ room ih =>
    unfold tansLoopFrom
    rw [if_neg (Nat.not_le.mpr hstate)]
    dsimp only
    split
    · trivial
    apply (bitsFrom_sat hin).bind
    intro r _
    match r with
    | none => trivial
    | some (v, bit_pos') =>
      dsimp only
      split
      · trivial
      · rename_i hnext
        exact (ih (Nat.not_le.mp hnext)).bind fun _ _ => trivial

theorem tansFrom_sat {src : Src} {outlen : Nat} (hin : src.Inside) :
    (tansFrom grants src outlen).Sat fun _ => True := by
  unfold tansFrom
  split
  · trivial
  apply (Src.take_sat hin (show 512 ≤ src.left by omega)).bind
  rintro ⟨header, src₁⟩ ⟨hin₁, hleft₁⟩
  dsimp only at hin₁ hleft₁ ⊢
  split
  · split
    · trivial
    apply (Src.take_sat hin₁ (show 4 ≤ src₁.left by omega)).bind
    rintro ⟨state, src₂⟩ ⟨hin₂, -⟩
    dsimp only at hin₂ ⊢
    split
    · trivial
    · rename_i hstate
      refine tansLoopFrom_sat ?_ (Nat.not_le.mp hstate)
      unfold Src.Inside at hin₂ ⊢
      dsimp only
      rw [List.length_drop]
      omega
  · trivial

/-! ### The pipeline -/

/-- An error of an entropy decoder is `MZ_ERR_DATA`. -/
def entropyFrom (x : Checked MzErr Bytes) : Checked MzErr Bytes :=
  match x with
  | .fail _ => .fail .data
  | x => x

/-- `mz_decompress_meuos`: the value returned and the bytes of `*r`.  The room for the decoded
stream is a number of type `size_t`. -/
def meuosFrom (grants : Nat → Bool) (src : Src) : Checked MzErr (Int × Bytes) :=
  if src.left < 1 then .fail .param
  else do
    let (etype, src) ← src.byte
    let max_out := (src.left * 4 + 4096) % 2 ^ 64
    if etype = ComboType.tans.byte then
      if grants max_out then
        let lz77 ← entropyFrom (tansFrom grants src max_out)
        lz77From grants (.whole lz77)
      else .fail .memory
    else if etype = ComboType.huff.byte then
      if grants max_out then
        let lz77 ← entropyFrom (hufFrom src max_out)
        lz77From grants (.whole lz77)
      else .fail .memory
    else if etype = ComboType.raw.byte then lz77From grants src
    else .fail .data

theorem entropyFrom_sat {x : Checked MzErr Bytes} (hx : x.Sat fun _ => True) :
    (entropyFrom x).Sat fun _ => True := by
  match x with
  | .ok _ => trivial
  | .fail _ => trivial

/-- Given bytes that are there, `mz_decompress_meuos` ends, reads no others and stores only to its
own blocks. -/
theorem meuosFrom_sat {src : Src} (hin : src.Inside) :
    (meuosFrom grants src).Sat fun _ => True := by
  unfold meuosFrom
  split
  · trivial
  apply (Src.byte_sat hin (by omega)).bind
  rintro ⟨etype, src₁⟩ ⟨hin₁, -⟩
  dsimp only at hin₁ ⊢
  split
  · split
    · exact (entropyFrom_sat (tansFrom_sat hin₁)).bind fun lz77 _ =>
        lz77From_sat (Src.whole_inside lz77)
    · trivial
  split
  · split
    · exact (entropyFrom_sat (hufFrom_sat hin₁)).bind fun lz77 _ =>
        lz77From_sat (Src.whole_inside lz77)
    · trivial
  split
  · exact lz77From_sat hin₁
  · trivial

end MeuOS.Compress
