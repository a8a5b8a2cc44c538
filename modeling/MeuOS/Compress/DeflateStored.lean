import MeuOS.Compress.InflateBounds
import Mathlib.Tactic.NormNum

namespace MeuOS.Compress.Inflate

open MeuOS.Lib List Lib.Checked

/-!
# The DEFLATE writer (`mz_deflate.c`) and stored blocks

* `mzDeflateCompress` — the writer: stored blocks of 65535 bytes at most, written to a buffer whose
  size is computed beforehand;
* `storedBytes` — what it writes, without the buffer;
* `mzDeflateCompress_ok`, `mzDeflateCompress_empty` — it keeps inside the buffer for every input
  but the empty one;
* `inflateLoop_stored` — the decoder gives the input back.
-/

/-! ### The writer -/

/-- Some stores `out[op++] = b`, or a `memcpy` to `out + op`. -/
def OutBuf.write (out : OutBuf) (bs : Bytes) : Run OutBuf :=
  if out.pos + bs.length ≤ out.cap then .ok { out with bytes := out.bytes ++ bs } else .fault

/-- The five bytes before the data of a block. -/
def storedHeader (is_final : Bool) (block_len : Nat) : Bytes :=
  let nlen := (2 ^ 64 - 1 - block_len) % 2 ^ 16
  (if is_final then 1 else 0) :: (leBytes 2 block_len ++ leBytes 2 nlen)

/-- `while (ip < inlen)`. -/
def storedLoop (input : Bytes) : Nat → Nat → OutBuf → Run OutBuf
  | 0, _, _ => .stuck
  | turns + 1, ip, out =>
    if ip < input.length then do
      let block_len := if input.length - ip > 65535 then 65535 else input.length - ip
      let is_final := decide (ip + block_len ≥ input.length)
      let out ← out.write (storedHeader is_final block_len)
      let out ← out.write (slice input ip block_len)
      storedLoop input turns (ip + block_len) out
    else .ok out

/-- `if (inlen == 0)`. -/
def emptyBlock (input : Bytes) (out : OutBuf) : Run OutBuf :=
  if input.length = 0 then out.write [0x01, 0x00, 0x00, 0xFF, 0xFF] else .ok out

/-- `max_out`, a number of type `size_t`. -/
def maxOut (inlen : Nat) : Nat := (inlen + (inlen + 65534) / 65535 * 5 + 1) % 2 ^ 64

/-- `mz_deflate_compress`: the value returned and the bytes. -/
def mzDeflateCompress (grants : Nat → Bool) (input : Bytes) : Run (Int × Bytes) :=
  if grants (maxOut input.length) then do
    let out ← storedLoop input (input.length + 1) 0 { bytes := [], cap := maxOut input.length }
    let out ← emptyBlock input out
    return (cInt out.pos, out.bytes)
  else .fail .memory

/-! ### What it writes -/

/-- The stored blocks of an input that is not empty. -/
def storedBytes (x : Bytes) : Bytes :=
  if x.length ≤ 65535 then storedHeader true x.length ++ x
  else storedHeader false 65535 ++ (x.take 65535 ++ storedBytes (x.drop 65535))
termination_by x.length
decreasing_by
  rw [length_drop]
  omega

/-- The number of bytes in the stored blocks for `n` bytes. -/
def storedLength (n : Nat) : Nat := n + (n + 65534) / 65535 * 5

theorem length_storedHeader (is_final : Bool) (n : Nat) : (storedHeader is_final n).length = 5 := by
  simp [storedHeader]

theorem length_storedBytes {x : Bytes} (h : x ≠ []) :
    (storedBytes x).length = storedLength x.length := by
  have hpos : 0 < x.length := length_pos_iff.mpr h
  induction hn : x.length using Nat.strong_induction_on generalizing x with
  | _ n ih =>
    unfold storedBytes storedLength
    split
    · rw [length_append, length_storedHeader]
      omega
    · rename_i hlong
      have hdrop : (x.drop 65535).length = n - 65535 := by rw [length_drop, hn]
      have hpos' : 0 < (x.drop 65535).length := by omega
      have hrest := ih (n - 65535) (by omega) (length_pos_iff.mp hpos') hpos' hdrop
      rw [length_append, length_append, length_storedHeader, length_take, hrest]
      unfold storedLength
      omega

theorem write_ok {out : OutBuf} {bs : Bytes} (h : out.pos + bs.length ≤ out.cap) :
    out.write bs = .ok { out with bytes := out.bytes ++ bs } := if_pos h

/-- The blocks of the rest of an input, with room for them. -/
theorem storedLoop_ok {input : Bytes} {turns ip : Nat} {out : OutBuf}
    (hip : ip < input.length) (hturns : input.length - ip < turns)
    (hroom : out.pos + (storedBytes (input.drop ip)).length ≤ out.cap) :
    storedLoop input turns ip out
      = .ok { out with bytes := out.bytes ++ storedBytes (input.drop ip) } := by
  induction turns generalizing ip out with
  | zero => exact absurd hturns (Nat.not_lt_zero _)
  | succ turns ih =>
    have hlen : (input.drop ip).length = input.length - ip := length_drop
    unfold storedLoop
    rw [if_pos hip]
    unfold storedBytes at hroom ⊢
    rw [hlen] at hroom ⊢
    by_cases hlong : input.length - ip > 65535
    · -- A full block, and more to come.
      have hle : ¬ input.length - ip ≤ 65535 := Nat.not_le.mpr hlong
      rw [if_neg hle] at hroom ⊢
      have hfinal : decide (ip + 65535 ≥ input.length) = false := by
        rw [decide_eq_false_iff_not]
        omega
      simp only [length_append, length_storedHeader, length_take, hlen,
        Nat.min_eq_left hlong.le, OutBuf.pos] at hroom
      simp only [if_pos hlong, hfinal]
      rw [write_ok (by rw [length_storedHeader, OutBuf.pos]; omega), ok_bind,
        write_ok (by
          rw [length_slice input (by omega)]
          simp only [OutBuf.pos, length_append, length_storedHeader]
          omega),
        ok_bind, ih (by omega) (by omega)]
      · simp [slice, drop_drop, append_assoc]
      · rw [← drop_drop]
        simp only [OutBuf.pos, length_append, length_storedHeader]
        rw [length_slice input (by omega)]
        omega
    · -- The last block.
      have hle : input.length - ip ≤ 65535 := Nat.not_lt.mp hlong
      rw [if_pos hle] at hroom ⊢
      have hfinal : decide (ip + (input.length - ip) ≥ input.length) = true := by
        rw [decide_eq_true_eq]
        omega
      simp only [length_append, length_storedHeader, hlen, OutBuf.pos] at hroom
      simp only [if_neg hlong, hfinal]
      rw [write_ok (by rw [length_storedHeader, OutBuf.pos]; omega), ok_bind,
        write_ok (by
          rw [length_slice input (by omega)]
          simp only [OutBuf.pos, length_append, length_storedHeader]
          omega),
        ok_bind]
      have hslice : slice input ip (input.length - ip) = input.drop ip := by
        rw [slice, take_of_length_le (by rw [hlen])]
      cases turns with
      | zero => omega
      | succ turns =>
        unfold storedLoop
        rw [if_neg (by omega), hslice, append_assoc]

theorem maxOut_eq {n : Nat} (h : storedLength n + 1 < 2 ^ 64) :
    maxOut n = storedLength n + 1 := Nat.mod_eq_of_lt h

/-- The writer keeps inside its buffer for an input that is not empty. -/
theorem mzDeflateCompress_ok {grants : Nat → Bool} {x : Bytes} (hx : x ≠ [])
    (hsize : storedLength x.length + 1 < 2 ^ 64)
    (hgrants : grants (storedLength x.length + 1) = true) :
    mzDeflateCompress grants x = .ok (cInt (storedLength x.length), storedBytes x) := by
  have hpos : 0 < x.length := length_pos_iff.mpr hx
  have hloop : storedLoop x (x.length + 1) 0 { bytes := [], cap := maxOut x.length }
      = .ok { bytes := storedBytes x, cap := maxOut x.length } := by
    rw [storedLoop_ok hpos (by omega)]
    · rfl
    · rw [drop_zero, length_storedBytes hx, maxOut_eq hsize]
      simp [OutBuf.pos]
  unfold mzDeflateCompress
  rw [maxOut_eq hsize] at hloop ⊢
  rw [if_pos hgrants, hloop, ok_bind]
  unfold emptyBlock
  rw [if_neg (by omega), ok_bind, OutBuf.pos, length_storedBytes hx]
  rfl

theorem mzDeflateCompress_empty {grants : Nat → Bool} (hgrants : grants 1 = true) :
    mzDeflateCompress grants [] = .fault := by
  unfold mzDeflateCompress
  rw [show maxOut ([] : Bytes).length = 1 from rfl, if_pos hgrants]
  rfl

/-! ### Reading it back -/

section reading

variable {grants : Nat → Bool} {data chunk t : Bytes} {p : Nat} {is_final : Bool} {out : OutBuf}

theorem or_shift_leBytes {n : Nat} (h : n < 2 ^ 16) : n % 256 ||| ((n / 256 % 256) <<< 8) = n := by
  rw [Nat.lor_comm, ← Nat.shiftLeft_add_eq_or_of_lt (by omega : n % 256 < 2 ^ 8),
    Nat.shiftLeft_eq]
  omega

theorem byte_eq {br : BitReader} {i : Nat} {b : UInt8} (h : br.data[i]? = some b) :
    br.byte i = .ok b.toNat := by
  unfold BitReader.byte
  rw [h]

theorem brBit_within {b : UInt8} {k : Nat} (h : data[p]? = some b) (hk : k < 7) :
    brBit { data := data, byte_pos := p, bit_pos := k }
      = .ok (some ((b.toNat >>> k) &&& 1), { data := data, byte_pos := p, bit_pos := k + 1 }) := by
  unfold brBit
  rw [if_neg (Nat.not_le.mpr (List.getElem?_eq_some_iff.mp h).1), byte_eq h, ok_bind]
  exact if_neg (by dsimp only; omega)

/-- The three bits at the start of a stored block. -/
theorem type_bits (h : data[p]? = some (if is_final then 1 else 0)) :
    brBit { data := data, byte_pos := p, bit_pos := 0 }
        = .ok (some (if is_final then 1 else 0), { data := data, byte_pos := p, bit_pos := 1 }) ∧
      brBits { data := data, byte_pos := p, bit_pos := 1 } 2
        = .ok (0, { data := data, byte_pos := p, bit_pos := 3 }) := by
  constructor
  · rw [brBit_within h (by decide)]
    cases is_final <;> rfl
  · unfold brBits brBitsLoop
    rw [brBit_within h (by decide), ok_bind]
    unfold brBitsLoop
    dsimp only
    rw [brBit_within h (by decide), ok_bind]
    cases is_final <;> rfl

/-- The bytes of the header of a block. -/
theorem header_bytes {n : Nat} (hn : n ≤ 65535)
    (h : data.drop p = storedHeader is_final n ++ t) :
    data[p]? = some (if is_final then 1 else 0) ∧
      data[p + 1]? = some (UInt8.ofNat n) ∧ data[p + 2]? = some (UInt8.ofNat (n / 256)) ∧
      data[p + 3]? = some (UInt8.ofNat (65535 - n)) ∧
      data[p + 4]? = some (UInt8.ofNat ((65535 - n) / 256)) := by
  have hnlen : (2 ^ 64 - 1 - n) % 2 ^ 16 = 65535 - n := by omega
  have hget : ∀ i, data[p + i]? = (data.drop p)[i]? := fun i => getElem?_drop.symm
  unfold storedHeader at h
  rw [hnlen] at h
  refine ⟨?_, ?_, ?_, ?_, ?_⟩
  · have h0 := hget 0
    rw [Nat.add_zero] at h0
    rw [h0, h]
    rfl
  all_goals
    rw [hget, h]
    rfl

/-- A stored block, after the type bits. -/
theorem inflateStored_bytes {n : Nat} (hn : n ≤ 65535) (hsize : p + 5 + n ≤ data.length)
    (h1 : data[p + 1]? = some (UInt8.ofNat n)) (h2 : data[p + 2]? = some (UInt8.ofNat (n / 256)))
    (h3 : data[p + 3]? = some (UInt8.ofNat (65535 - n)))
    (h4 : data[p + 4]? = some (UInt8.ofNat ((65535 - n) / 256)))
    (hroom : out.pos + n ≤ out.cap) :
    inflateStored grants { data := data, byte_pos := p, bit_pos := 3 } out
      = .ok ({ data := data, byte_pos := p + 5 + n, bit_pos := 0 },
          { out with bytes := out.bytes ++ (data.drop (p + 5)).take n }) := by
  have halign : brAlign { data := data, byte_pos := p, bit_pos := 3 }
      = { data := data, byte_pos := p + 1, bit_pos := 0 } := rfl
  have hlen := or_shift_leBytes (show n < 2 ^ 16 by omega)
  have hnlen := or_shift_leBytes (show 65535 - n < 2 ^ 16 by omega)
  unfold inflateStored
  rw [halign]
  dsimp only
  rw [if_neg (by omega), byte_eq h1, ok_bind, byte_eq h2, ok_bind, byte_eq h3,
    ok_bind, byte_eq h4, ok_bind]
  simp only [UInt8.toNat_ofNat', hlen, hnlen]
  rw [if_neg (not_not.mpr rfl)]
  unfold OutBuf.reserve
  rw [if_neg (Nat.not_lt.mpr hroom), ok_bind, if_neg (by omega)]
  unfold copyStored
  rw [if_pos ⟨by dsimp only; omega, hroom⟩]

/-- A stored block gives its bytes. -/
theorem inflateBlockWith_stored {fixed : Run (HuffTable × HuffTable)}
    (hlen : chunk.length ≤ 65535)
    (h : data.drop p = storedHeader is_final chunk.length ++ (chunk ++ t))
    (hroom : out.pos + chunk.length ≤ out.cap) :
    inflateBlockWith fixed grants { data := data, byte_pos := p, bit_pos := 0 } out
      = .ok (is_final, { data := data, byte_pos := p + 5 + chunk.length, bit_pos := 0 },
          { out with bytes := out.bytes ++ chunk }) := by
  have hsize : p + 5 + chunk.length ≤ data.length := by
    have hl := congrArg length h
    simp only [length_drop, length_append, length_storedHeader] at hl
    omega
  obtain ⟨h0, h1, h2, h3, h4⟩ := header_bytes hlen h
  obtain ⟨hbit, hbits⟩ := type_bits h0
  have hchunk : (data.drop (p + 5)).take chunk.length = chunk := by
    rw [← drop_drop, h, drop_left' (length_storedHeader _ _), take_left]
  have hstored := @inflateStored_bytes grants data p out _ hlen hsize h1 h2 h3 h4 hroom
  rw [hchunk] at hstored
  unfold inflateBlockWith
  rw [hbit, ok_bind]
  dsimp only
  rw [hbits, ok_bind]
  rw [if_pos rfl, hstored]
  cases is_final <;> rfl

theorem inflateBlock_stored (hlen : chunk.length ≤ 65535)
    (h : data.drop p = storedHeader is_final chunk.length ++ (chunk ++ t))
    (hroom : out.pos + chunk.length ≤ out.cap) :
    inflateBlock grants { data := data, byte_pos := p, bit_pos := 0 } out
      = .ok (is_final, { data := data, byte_pos := p + 5 + chunk.length, bit_pos := 0 },
          { out with bytes := out.bytes ++ chunk }) :=
  inflateBlockWith_stored hlen h hroom

/-- The decoder gives back what was stored. -/
theorem inflateLoop_stored {x : Bytes} (hx : x ≠ []) {turns : Nat}
    (h : data.drop p = storedBytes x) (hroom : out.pos + x.length ≤ out.cap)
    (hturns : x.length < turns) :
    inflateLoop grants turns { data := data, byte_pos := p, bit_pos := 0 } out
      = .ok { out with bytes := out.bytes ++ x } := by
  induction turns generalizing p out x with
  | zero => exact absurd hturns (Nat.not_lt_zero _)
  | succ turns ih =>
    unfold inflateLoop
    unfold storedBytes at h
    by_cases hle : x.length ≤ 65535
    · rw [if_pos hle] at h
      have hblock := @inflateBlock_stored grants data x [] p true out hle
        (by rw [h, append_nil]) hroom
      rw [hblock]
      rfl
    · rw [if_neg hle] at h
      have htake : (x.take 65535).length = 65535 := by
        rw [length_take]
        omega
      have hdrop : (x.drop 65535).length = x.length - 65535 := length_drop
      have hrest : data.drop (p + 5 + (x.take 65535).length) = storedBytes (x.drop 65535) := by
        rw [← drop_drop, ← drop_drop, h, drop_left' (length_storedHeader _ _),
          drop_left]
      have hblock := @inflateBlock_stored grants data (x.take 65535) (storedBytes (x.drop 65535)) p
        false out (by omega) (by rw [htake, h]) (by omega)
      rw [hblock, ok_bind]
      dsimp only
      rw [if_neg Bool.false_ne_true, ih (length_pos_iff.mp (by omega)) hrest _ (by omega)]
      · dsimp only
        rw [append_assoc, take_append_drop]
      · simp only [OutBuf.pos, length_append, htake, hdrop] at hroom ⊢
        omega

end reading

/-- Inflate undoes the writer. -/
theorem mzDeflateDecompress_stored {grants : Nat → Bool} {x : Bytes} (hx : x ≠ [])
    (hsize : 4 * storedLength x.length + 1024 < 2 ^ 64)
    (hgrants : grants (4 * storedLength x.length + 1024) = true) :
    mzDeflateDecompress grants (storedBytes x) = .ok x := by
  have hpos : 0 < x.length := length_pos_iff.mpr hx
  have hlen := length_storedBytes hx
  have hle : x.length ≤ storedLength x.length := Nat.le_add_right _ _
  have hcap : firstCap (storedBytes x) = 4 * storedLength x.length + 1024 := by
    unfold firstCap
    rw [hlen, Nat.mod_eq_of_lt (by omega), Nat.mul_comm]
  have hnil : storedBytes x ≠ [] := length_pos_iff.mp (by omega)
  rw [mzDeflateDecompress_eq hnil (by rw [hcap, hgrants])]
  have hloop := @inflateLoop_stored grants (storedBytes x) 0 (firstBlock (storedBytes x)).2 x hx
    (8 * (storedBytes x).length + 1) drop_zero
    (by
      show 0 + x.length ≤ firstCap (storedBytes x)
      rw [hcap]
      omega)
    (by omega)
  have hloop : inflateLoop grants (8 * (storedBytes x).length + 1) (firstBlock (storedBytes x)).1
      (firstBlock (storedBytes x)).2 = _ := hloop
  rw [hloop, ok_bind]
  rfl

end MeuOS.Compress.Inflate
