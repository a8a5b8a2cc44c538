import MeuOS.Compress.Lz77
import MeuOS.Lib.Checked

namespace MeuOS.Compress.Inflate

open MeuOS.Lib

/-!
# The DEFLATE decoder (`mz_deflate.c`)

Every access to an array of the decoder is checked here: one outside the array ends the run with
`Checked.fault`.

* `BitReader`, `brBit`, `brBits`, `brAlign` — the input, bit by bit;
* `HuffTable`, `huffBuild`, `huffDecode` — canonical codes;
* `OutBuf` — the output and its allocation;
* `dynamicHeader`, `readLengths`, `blockTables`, `decodeSymbols`, `inflateBlock` — one block;
* `mzDeflateDecompress` — the decoder.

Loops whose length depends on the input are given turns; the run is `Checked.stuck` when they do
not suffice.
-/

/-- A run of the decoder. -/
abbrev Run (α : Type) : Type := Checked MzErr α

/-! ### Bits -/

/-- `struct mz_bit_reader`. -/
structure BitReader where
  data : Bytes
  byte_pos : Nat
  /-- 0 to 7, the least significant bit first. -/
  bit_pos : Nat

/-- `br_init`. -/
def brInit (data : Bytes) : BitReader := { data := data, byte_pos := 0, bit_pos := 0 }

/-- A byte of the input. -/
def BitReader.byte (br : BitReader) (i : Nat) : Run Nat :=
  match br.data[i]? with
  | some b => .ok b.toNat
  | none => .fault

/-- `br_bit`; `none` is -1. -/
def brBit (br : BitReader) : Run (Option Nat × BitReader) :=
  if br.byte_pos ≥ br.data.length then .ok (none, br)
  else do
    let b ← br.byte br.byte_pos
    let bit := (b >>> br.bit_pos) &&& 1
    if br.bit_pos + 1 ≥ 8 then
      return (some bit, { br with bit_pos := 0, byte_pos := br.byte_pos + 1 })
    else
      return (some bit, { br with bit_pos := br.bit_pos + 1 })

/-- The loop of `br_bits` from bit `i` on. -/
def brBitsLoop : Nat → Nat → Nat → BitReader → Run (Nat × BitReader)
  | 0, _, val, br => .ok (val, br)
  | turns + 1, i, val, br => do
      let (b, br) ← brBit br
      match b with
      | none => return (0, br)
      | some b => brBitsLoop turns (i + 1) (val ||| (b <<< i)) br

/-- `br_bits`; it returns 0 when the input ends. -/
def brBits (br : BitReader) (n : Nat) : Run (Nat × BitReader) := brBitsLoop n 0 0 br

/-- `br_align`. -/
def brAlign (br : BitReader) : BitReader :=
  if br.bit_pos > 0 then { br with bit_pos := 0, byte_pos := br.byte_pos + 1 } else br

/-! ### Huffman tables -/

/-- `struct mz_huff_table`. -/
structure HuffTable where
  counts : Vector Nat 16
  symbols : Vector Nat 288
  deriving DecidableEq

/-- The counting of one length in `huff_build`; `none` when it is above 15. -/
def countLength {n : Nat} (lengths : Vector Nat n) (i : Nat) (counts : Vector Nat 16) :
    Run (Option (Vector Nat 16)) := do
  let l ← fetchAt lengths i
  if l > 15 then return none
  else
    let c ← fetchAt counts l
    return some (← storeAt counts l (c + 1))

/-- The counting of the lengths; `none` ends the function with -1. -/
def countLengths {n : Nat} (lengths : Vector Nat n) (num_symbols : Nat) :
    Run (Option (Vector Nat 16)) :=
  forUp (fun i counts =>
    match counts with
    | none => .ok none
    | some counts => countLength lengths i counts)
    num_symbols 0 (some (Vector.replicate 16 0))

/-- The check for an over-subscribed code; `none` when `left` becomes negative. -/
def codesLeft (counts : Vector Nat 16) : Run (Option Int) :=
  forUp (fun len left =>
    match left with
    | none => .ok none
    | some left => do
        let c ← fetchAt counts len
        if left * 2 - c < 0 then return none else return some (left * 2 - c))
    15 1 (some 1)

/-- The offsets of the lengths. -/
def lengthOffsets (counts : Vector Nat 16) : Run (Vector Nat 16 × Nat) :=
  forUp (fun len (offsets, off) => do
    let offsets ← storeAt offsets len off
    let c ← fetchAt counts len
    return (offsets, off + c))
    15 1 (Vector.replicate 16 0, 0)

/-- The placing of the symbols. -/
def placeSymbols {n : Nat} (lengths : Vector Nat n) (num_symbols : Nat)
    (offsets : Vector Nat 16) (symbols : Vector Nat 288) :
    Run (Vector Nat 16 × Vector Nat 288) :=
  forUp (fun sym (offsets, symbols) => do
    let l ← fetchAt lengths sym
    if l > 0 then
      let o ← fetchAt offsets l
      let symbols ← storeAt symbols o sym
      return (← storeAt offsets l (o + 1), symbols)
    else return (offsets, symbols))
    num_symbols 0 (offsets, symbols)

/-- `huff_build`: the table and `left`, or `none` for -1.  The entries of `symbols` that are not
written hold what the caller's table held, 0 here. -/
def huffBuild {n : Nat} (lengths : Vector Nat n) (num_symbols : Nat) :
    Run (Option (HuffTable × Int)) := do
  match ← countLengths lengths num_symbols with
  | none => return none
  | some counts =>
    let counts ← storeAt counts 0 0
    match ← codesLeft counts with
    | none => return none
    | some left =>
      let (offsets, _) ← lengthOffsets counts
      let (_, symbols) ← placeSymbols lengths num_symbols offsets (Vector.replicate 288 0)
      return some ({ counts := counts, symbols := symbols }, left)

/-- The loop of `huff_decode` from length `len` on. -/
def huffDecodeLoop (ht : HuffTable) :
    Nat → Nat → Nat → Nat → Nat → BitReader → Run (Option Nat × BitReader)
  | 0, _, _, _, _, br => .ok (none, br)
  | turns + 1, len, code, first, index, br => do
      let (b, br) ← brBit br
      match b with
      | none => return (none, br)
      | some b =>
        let code := code ||| b
        let count ← fetchAt ht.counts len
        if (code : Int) - first < count then
          let sym ← fetchAt ht.symbols (index + ((code : Int) - first))
          return (some sym, br)
        else
          huffDecodeLoop ht turns (len + 1) (code <<< 1) ((first + count) <<< 1)
            (index + count) br

/-- `huff_decode`; `none` is -1. -/
def huffDecode (br : BitReader) (ht : HuffTable) : Run (Option Nat × BitReader) :=
  huffDecodeLoop ht 15 1 0 0 0 br

/-! ### Tables -/

/-- `s_length_base`. -/
def sLengthBase : Vector Nat 29 :=
  #v[3, 4, 5, 6, 7, 8, 9, 10, 11, 13, 15, 17, 19, 23, 27, 31, 35, 43, 51, 59, 67, 83, 99, 115, 131,
    163, 195, 227, 258]

/-- `s_length_extra`. -/
def sLengthExtra : Vector Nat 29 :=
  #v[0, 0, 0, 0, 0, 0, 0, 0, 1, 1, 1, 1, 2, 2, 2, 2, 3, 3, 3, 3, 4, 4, 4, 4, 5, 5, 5, 5, 0]

/-- `s_dist_base`. -/
def sDistBase : Vector Nat 30 :=
  #v[1, 2, 3, 4, 5, 7, 9, 13, 17, 25, 33, 49, 65, 97, 129, 193, 257, 385, 513, 769, 1025, 1537,
    2049, 3073, 4097, 6145, 8193, 12289, 16385, 24577]

/-- `s_dist_extra`. -/
def sDistExtra : Vector Nat 30 :=
  #v[0, 0, 0, 0, 1, 1, 2, 2, 3, 3, 4, 4, 5, 5, 6, 6, 7, 7, 8, 8, 9, 9, 10, 10, 11, 11, 12, 12, 13,
    13]

/-- `s_code_order`. -/
def sCodeOrder : Vector Nat 19 :=
  #v[16, 17, 18, 0, 8, 7, 9, 6, 10, 5, 11, 4, 12, 3, 13, 2, 14, 1, 15]

/-! ### The output -/

/-- `*out` with `*out_pos` bytes written and room for `*out_cap`. -/
structure OutBuf where
  bytes : Bytes
  cap : Nat

/-- `*out_pos`. -/
def OutBuf.pos (out : OutBuf) : Nat := out.bytes.length

/-- The `realloc` of `*out` to `new_cap` bytes, a number of type `size_t`; `grants` tells which
requests the allocator meets. -/
def OutBuf.grow (grants : Nat → Bool) (out : OutBuf) (new_cap : Nat) : Run OutBuf :=
  if grants (new_cap % 2 ^ 64) then .ok { out with cap := new_cap % 2 ^ 64 } else .fail .memory

/-- The room made for a stored block or a match of `len` bytes. -/
def OutBuf.reserve (grants : Nat → Bool) (out : OutBuf) (len : Nat) : Run OutBuf :=
  if out.pos + len > out.cap then out.grow grants ((out.cap + len) * 2) else .ok out

/-- The room made for a literal. -/
def OutBuf.reserveLiteral (grants : Nat → Bool) (out : OutBuf) : Run OutBuf :=
  if out.pos ≥ out.cap then out.grow grants (out.cap * 2 + 1024) else .ok out

/-- `(*out)[(*out_pos)++] = b`. -/
def OutBuf.push (out : OutBuf) (b : UInt8) : Run OutBuf :=
  if out.pos < out.cap then .ok { out with bytes := out.bytes ++ [b] } else .fault

/-- `(*out)[*out_pos - dist]`, a byte that has been written. -/
def OutBuf.back (out : OutBuf) (dist : Nat) : Run UInt8 :=
  if dist ≤ out.pos ∧ out.pos - dist < out.cap then
    match out.bytes[out.pos - dist]? with
    | some b => .ok b
    | none => .fault
  else .fault

/-- `memcpy(*out + *out_pos, br->data + br->byte_pos, len)` with the two positions moved on. -/
def copyStored (br : BitReader) (out : OutBuf) (len : Nat) : Run (BitReader × OutBuf) :=
  if br.byte_pos + len ≤ br.data.length ∧ out.pos + len ≤ out.cap then
    .ok ({ br with byte_pos := br.byte_pos + len },
      { out with bytes := out.bytes ++ (br.data.drop br.byte_pos).take len })
  else .fault

/-! ### Blocks -/

/-- A stored block, after the type bits. -/
def inflateStored (grants : Nat → Bool) (br : BitReader) (out : OutBuf) :
    Run (BitReader × OutBuf) := do
  let br := brAlign br
  if br.byte_pos + 4 > br.data.length then .fail .data
  else
    let d0 ← br.byte br.byte_pos
    let d1 ← br.byte (br.byte_pos + 1)
    let d2 ← br.byte (br.byte_pos + 2)
    let d3 ← br.byte (br.byte_pos + 3)
    let len := d0 ||| (d1 <<< 8)
    let nlen := d2 ||| (d3 <<< 8)
    let br := { br with byte_pos := br.byte_pos + 4 }
    if 65535 - len ≠ nlen then .fail .data
    else
      let out ← out.reserve grants len
      if br.byte_pos + len > br.data.length then .fail .data
      else copyStored br out len

/-- `lit_lengths` of a block with fixed codes. -/
@[irreducible] def fixedLitLengths : Vector Nat 288 :=
  Vector.ofFn fun i =>
    if i.val ≤ 143 then 8 else if i.val ≤ 255 then 9 else if i.val ≤ 279 then 7 else 8

/-- `dist_lengths` of a block with fixed codes. -/
@[irreducible] def fixedDistLengths : Vector Nat 30 := Vector.replicate 30 5

/-- The loop that reads `code_lengths`. -/
def readCodeLengths (hclen : Nat) (br : BitReader) : Run (Vector Nat 19 × BitReader) :=
  forUp (fun i (code_lengths, br) => do
    let sym ← fetchAt sCodeOrder i
    let (val, br) ← brBits br 3
    return (← storeAt code_lengths sym val, br))
    hclen 0 (Vector.replicate 19 0, br)

/-- The first part of a dynamic block's header: `hlit`, `hdist` and the code for the lengths. -/
def dynamicHeader (br : BitReader) : Run (Nat × Nat × HuffTable × BitReader) := do
  let (h, br) ← brBits br 5
  let hlit := h + 257
  let (h, br) ← brBits br 5
  let hdist := h + 1
  let (h, br) ← brBits br 4
  let hclen := h + 4
  let (code_lengths, br) ← readCodeLengths hclen br
  match ← huffBuild code_lengths 19 with
  | none => .fail .data
  | some (code_ht, _) => return (hlit, hdist, code_ht, br)

/-- `lit_lengths` and `dist_lengths`. -/
structure Lengths where
  lit : Vector Nat 288
  dist : Vector Nat 30

/-- The length of symbol `pos` is set, in the first array or in the second. -/
def Lengths.put (ls : Lengths) (hlit pos val : Nat) : Run Lengths :=
  if pos < hlit then do return { ls with lit := ← storeAt ls.lit pos val }
  else do return { ls with dist := ← storeAt ls.dist ((pos : Int) - hlit) val }

/-- `prev`. -/
def Lengths.prev (ls : Lengths) (hlit pos : Nat) : Run Nat :=
  if (pos : Int) - 1 < hlit then fetchAt ls.lit ((pos : Int) - 1)
  else fetchAt ls.dist ((pos : Int) - 1 - hlit)

/-- `while (rep-- > 0 && pos < total)`. -/
def repeatLength (hlit total prev : Nat) : Nat → Nat → Lengths → Run (Nat × Lengths)
  | 0, pos, ls => .ok (pos, ls)
  | rep + 1, pos, ls =>
    if pos < total then do
      let ls ← ls.put hlit pos prev
      repeatLength hlit total prev rep (pos + 1) ls
    else .ok (pos, ls)

/-- `while (pos < total)`. -/
def readLengths (code_ht : HuffTable) (hlit total : Nat) :
    Nat → Nat → Lengths → BitReader → Run (Lengths × BitReader)
  | 0, _, _, _ => .stuck
  | turns + 1, pos, ls, br =>
    if pos < total then do
      let (sym, br) ← huffDecode br code_ht
      match sym with
      | none => .fail .data
      | some sym =>
        if sym < 16 then
          let ls ← ls.put hlit pos sym
          readLengths code_ht hlit total turns (pos + 1) ls br
        else if sym = 16 then
          if pos = 0 then .fail .data
          else
            let (rep, br) ← brBits br 2
            let prev ← ls.prev hlit pos
            let (pos, ls) ← repeatLength hlit total prev (rep + 3) pos ls
            readLengths code_ht hlit total turns pos ls br
        else if sym = 17 then
          let (rep, br) ← brBits br 3
          if pos + (rep + 3) > total then .fail .data
          else readLengths code_ht hlit total turns (pos + (rep + 3)) ls br
        else if sym = 18 then
          let (rep, br) ← brBits br 7
          if pos + (rep + 11) > total then .fail .data
          else readLengths code_ht hlit total turns (pos + (rep + 11)) ls br
        else readLengths code_ht hlit total turns pos ls br
    else .ok (ls, br)

/-- The tables of a dynamic block. -/
def dynamicTables (br : BitReader) : Run (HuffTable × HuffTable × BitReader) := do
  let (hlit, hdist, code_ht, br) ← dynamicHeader br
  let ls : Lengths := { lit := Vector.replicate 288 0, dist := Vector.replicate 30 0 }
  let (ls, br) ← readLengths code_ht hlit (hlit + hdist) (8 * br.data.length + 1) 0 ls br
  match ← huffBuild ls.lit hlit with
  | none => .fail .data
  | some (lit_ht, _) =>
    match ← huffBuild ls.dist hdist with
    | none => .fail .data
    | some (dist_ht, _) => return (lit_ht, dist_ht, br)

/-- The tables of a block from given lengths.  The source does not look at the results of the two
calls; they are never -1 there. -/
def tablesFor (lit_lengths : Vector Nat 288) (dist_lengths : Vector Nat 30) :
    Run (HuffTable × HuffTable) := do
  match ← huffBuild lit_lengths 288, ← huffBuild dist_lengths 30 with
  | some (lit_ht, _), some (dist_ht, _) => return (lit_ht, dist_ht)
  | _, _ => .stuck

/-- The tables of a block with fixed codes. -/
def fixedTables : Run (HuffTable × HuffTable) := tablesFor fixedLitLengths fixedDistLengths

/-- `for (int i = 0; i < length; i++)` of a match. -/
def outputCopy (dist length : Nat) (out : OutBuf) : Run OutBuf :=
  forUp (fun _ out => do
    let b ← out.back dist
    out.push b)
    length 0 out

/-- A length and distance pair, after the symbol of the length. -/
def inflateMatch (grants : Nat → Bool) (dist_ht : HuffTable) (li : Nat) (br : BitReader)
    (out : OutBuf) : Run (BitReader × OutBuf) := do
  if li ≥ 29 then .fail .data
  else
    let base ← fetchAt sLengthBase li
    let extra ← fetchAt sLengthExtra li
    let (bits, br) ← brBits br extra
    let length := base + bits
    let (dsym, br) ← huffDecode br dist_ht
    match dsym with
    | none => .fail .data
    | some dsym =>
      if dsym ≥ 30 then .fail .data
      else
        let base ← fetchAt sDistBase dsym
        let extra ← fetchAt sDistExtra dsym
        let (bits, br) ← brBits br extra
        let dist := base + bits
        if dist > out.pos then .fail .data
        else
          let out ← out.reserve grants length
          return (br, ← outputCopy dist length out)

/-- `for (;;)`, up to the end of the block. -/
def decodeSymbols (grants : Nat → Bool) (lit_ht dist_ht : HuffTable) :
    Nat → BitReader → OutBuf → Run (BitReader × OutBuf)
  | 0, _, _ => .stuck
  | turns + 1, br, out => do
      let (sym, br) ← huffDecode br lit_ht
      match sym with
      | none => .fail .data
      | some sym =>
        if sym < 256 then
          let out ← out.reserveLiteral grants
          let out ← out.push (UInt8.ofNat sym)
          decodeSymbols grants lit_ht dist_ht turns br out
        else if sym = 256 then return (br, out)
        else
          let (br, out) ← inflateMatch grants dist_ht (sym - 257) br out
          decodeSymbols grants lit_ht dist_ht turns br out

/-- The body of `inflate_block`, given the tables of a block with fixed codes. -/
def inflateBlockWith (fixed : Run (HuffTable × HuffTable)) (grants : Nat → Bool) (br : BitReader)
    (out : OutBuf) : Run (Bool × BitReader × OutBuf) := do
  let (bfinal, br) ← brBit br
  match bfinal with
  | none => .fail .data
  | some bfinal =>
    let (btype, br) ← brBits br 2
    if btype = 0 then
      let (br, out) ← inflateStored grants br out
      return (bfinal = 1, br, out)
    else if btype = 1 then
      let (lit_ht, dist_ht) ← fixed
      let (br, out) ← decodeSymbols grants lit_ht dist_ht (8 * br.data.length + 1) br out
      return (bfinal = 1, br, out)
    else if btype = 2 then
      let (lit_ht, dist_ht, br) ← dynamicTables br
      let (br, out) ← decodeSymbols grants lit_ht dist_ht (8 * br.data.length + 1) br out
      return (bfinal = 1, br, out)
    else .fail .data

/-- `inflate_block`: whether the block is the last one, and the state after it. -/
def inflateBlock (grants : Nat → Bool) (br : BitReader) (out : OutBuf) :
    Run (Bool × BitReader × OutBuf) :=
  inflateBlockWith fixedTables grants br out

/-! ### The decoder -/

/-- `while (!done)`. -/
def inflateLoop (grants : Nat → Bool) : Nat → BitReader → OutBuf → Run OutBuf
  | 0, _, _ => .stuck
  | turns + 1, br, out => do
      let (done, br, out) ← inflateBlock grants br out
      if done then return out else inflateLoop grants turns br out

/-- `mz_deflate_decompress`. -/
def mzDeflateDecompress (grants : Nat → Bool) (input : Bytes) : Run Bytes :=
  if input.length = 0 then .fail .data
  else
    let out_cap := (input.length * 4 + 1024) % 2 ^ 64
    if grants out_cap then do
      let out ← inflateLoop grants (8 * input.length + 1) (brInit input)
        { bytes := [], cap := out_cap }
      return out.bytes
    else .fail .memory

end MeuOS.Compress.Inflate
