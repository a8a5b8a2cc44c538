import MeuOS.Compress.Lz77
import MeuOS.Lib.KeyTable
import MeuOS.Lib.PrefixCode
import Mathlib.Data.List.Sort

namespace MeuOS.Compress

open MeuOS.Lib

/-!
# Static Huffman coding (`mz_huf.c`)

The coder counts the bytes, builds a tree with a binary heap, assigns canonical codes by length
and writes the 256 lengths and the code words.  The decoder rebuilds the codes from the lengths
and reads symbols with a table of ten bits, or bit by bit in a tree.

* `mzHufCompress`, `mzHufDecompress` — the codec;
* `heapPush`, `heapPop`, `buildTree` — the coder's tree;
* `assignCodes`, `buildDecodeTree`, `buildDecodeTable`, `decodeSym` — the codes and the decoder.
-/

/-! ### The heap -/

/-- `struct huf_heap`, with the node itself in place of its index. -/
structure HufHeap where
  freq : UInt32
  node : Trie UInt8

/-- The exchange of two entries. -/
def heapSwap (heap : List HufHeap) (i j : Nat) : List HufHeap :=
  match heap[i]?, heap[j]? with
  | some a, some b => (heap.set i b).set j a
  | _, _ => heap

/-- The frequency at an index. -/
def heapFreq (heap : List HufHeap) (i : Nat) : UInt32 := (heap[i]?.map HufHeap.freq).getD 0

/-- `heap_sift_up`; the first argument bounds the turns. -/
def heapSiftUp : Nat → List HufHeap → Nat → List HufHeap
  | 0, heap, _ => heap
  | turns + 1, heap, i =>
    if i > 0 then
      let p := (i - 1) / 2
      if heapFreq heap p ≤ heapFreq heap i then heap
      else heapSiftUp turns (heapSwap heap p i) p
    else heap

/-- The smallest of an entry and its children in `heap_sift_down`. -/
def heapLeast (heap : List HufHeap) (i : Nat) : Nat :=
  let l := 2 * i + 1
  let r := 2 * i + 2
  let s := if l < heap.length ∧ heapFreq heap l < heapFreq heap i then l else i
  if r < heap.length ∧ heapFreq heap r < heapFreq heap s then r else s

/-- `heap_sift_down` from index `i` on; the first argument bounds the turns. -/
def heapSiftDown : Nat → List HufHeap → Nat → List HufHeap
  | 0, heap, _ => heap
  | turns + 1, heap, i =>
    if heapLeast heap i = i then heap
    else heapSiftDown turns (heapSwap heap i (heapLeast heap i)) (heapLeast heap i)

/-- `heap_push`. -/
def heapPush (heap : List HufHeap) (e : HufHeap) : List HufHeap :=
  heapSiftUp heap.length (heap ++ [e]) heap.length

/-- `heap_pop`: the first entry, and the heap with the last entry sifted down from its place. -/
def heapPop : List HufHeap → Option (HufHeap × List HufHeap)
  | [] => none
  | e :: rest =>
    match rest.getLast? with
    | none => some (e, [])
    | some last => some (e, heapSiftDown rest.length (last :: rest.dropLast) 0)

/-! ### The tree -/

/-- All bytes in ascending order. -/
def allBytes : Bytes := (List.range 256).map UInt8.ofNat

/-- `freqs`. -/
def hufFreq (input : Bytes) (sym : UInt8) : UInt32 := UInt32.ofNat (input.count sym)

/-- The heap of the symbols that occur. -/
def leafHeap (input : Bytes) : List HufHeap :=
  allBytes.foldl
    (fun heap sym =>
      if hufFreq input sym > 0 then
        heapPush heap { freq := hufFreq input sym, node := .node (some sym) .nil .nil }
      else heap) []

/-- The loop of `build_tree` that joins the two rarest nodes; every turn shortens the heap. -/
def joinHeap : Nat → List HufHeap → List HufHeap
  | 0, heap => heap
  | turns + 1, heap =>
    if heap.length > 1 then
      match heapPop heap with
      | none => heap
      | some (a, heap) =>
        match heapPop heap with
        | none => heap
        | some (b, heap) =>
          joinHeap turns
            (heapPush heap { freq := a.freq + b.freq, node := .node none a.node b.node })
    else heap

/-- `build_tree`: the root, which is the last node made. -/
def buildTree (input : Bytes) : Option (Trie UInt8) :=
  match leafHeap input with
  | [] => none
  | [e] => some (.node none e.node .nil)
  | heap => (joinHeap heap.length heap).head?.map HufHeap.node

/-- `calc_lengths`. -/
def calcLengths : Trie UInt8 → Nat → (UInt8 → Nat) → UInt8 → Nat
  | .nil, _, lengths => lengths
  | .node (some s) _ _, depth, lengths =>
    Function.update lengths s (if depth > 0 then depth else 1)
  | .node none l r, depth, lengths =>
    calcLengths r (depth + 1) (calcLengths l (depth + 1) lengths)

/-! ### Canonical codes -/

/-- `sl_cmp`: by length, then by symbol. -/
def slLe (a b : UInt8 × Nat) : Prop := a.2 < b.2 ∨ (a.2 = b.2 ∧ a.1 ≤ b.1)

instance : DecidableRel slLe := fun _ _ => inferInstanceAs (Decidable (_ ∨ _))

/-- The symbols with a length, sorted. -/
def sortedSyms (lengths : UInt8 → Nat) : List (UInt8 × Nat) :=
  ((allBytes.filter fun s => lengths s > 0).map fun s => (s, lengths s)).insertionSort slLe

/-- An entry of the arrays `codes` and `code_lens`. -/
structure HufCode where
  sym : UInt8
  len : Nat
  code : UInt32

/-- The loop of `make_canonical`, which `mz_huf_decompress` repeats. -/
def assignCodes : UInt32 → Nat → List (UInt8 × Nat) → List HufCode
  | _, _, [] => []
  | code, prev_len, (sym, len) :: rest =>
    let code := code <<< UInt32.ofNat (len - prev_len)
    { sym := sym, len := len, code := code } :: assignCodes (code + 1) len rest

/-- `make_canonical`. -/
def makeCanonical (lengths : UInt8 → Nat) : List HufCode := assignCodes 0 0 (sortedSyms lengths)

/-- `code_lens`. -/
def codeLen (cs : List HufCode) (sym : UInt8) : Nat :=
  ((lookupKey HufCode.sym cs sym).map HufCode.len).getD 0

/-- `codes`. -/
def codeOf (cs : List HufCode) (sym : UInt8) : UInt32 :=
  ((lookupKey HufCode.sym cs sym).map HufCode.code).getD 0

/-! ### The bit writer -/

/-- `struct bit_writer`: the bytes that are full, and the one at `byte_pos`. -/
structure BitWriter where
  cap : Nat
  full : Bytes
  cur : UInt8
  bit_pos : Nat

/-- One turn of the loop of `bw_write_bits`. -/
def BitWriter.put (bw : BitWriter) (bit : Bool) : Except MzErr BitWriter :=
  if bw.full.length ≥ bw.cap then .error .stream
  else
    let cur := bw.cur ||| ((if bit then 1 else 0) <<< UInt8.ofNat (7 - bw.bit_pos))
    if bw.bit_pos + 1 ≥ 8 then
      .ok { bw with full := bw.full ++ [cur], cur := 0, bit_pos := 0 }
    else .ok { bw with cur := cur, bit_pos := bw.bit_pos + 1 }

/-- `bw_write_bits`: the low `nbits` bits, highest first. -/
def BitWriter.writeBits (bw : BitWriter) (code : UInt32) : Nat → Except MzErr BitWriter
  | 0 => .ok bw
  | n + 1 => do
      let bw ← bw.put ((code >>> UInt32.ofNat n) &&& 1 != 0)
      bw.writeBits code n

/-- The bytes used: `bw_bytes_used`. -/
def BitWriter.bytes (bw : BitWriter) : Bytes :=
  bw.full ++ (if bw.bit_pos > 0 then [bw.cur] else [])

/-! ### The coder -/

/-- The codes that `mz_huf_compress` uses; `none` where there is no symbol. -/
def hufCodes (input : Bytes) : Option (List HufCode) :=
  (buildTree input).map fun tree => makeCanonical (calcLengths tree 0 fun _ => 0)

/-- `mz_huf_compress` with room for `cap` bytes.  A tree is never a single leaf, so that its branch
    for one node is not taken. -/
def mzHufCompress (input : Bytes) (cap : Nat) : Except MzErr Bytes :=
  if input = [] then .error .param
  else
    match hufCodes input with
    | none => .error .data
    | some cs => do
        if 2 + 256 > cap then .error .stream
        else
          let header := [0x00, 0x01] ++ allBytes.map fun s => UInt8.ofNat (codeLen cs s)
          let bw ← input.foldlM (fun bw s => bw.writeBits (codeOf cs s) (codeLen cs s))
            { cap := cap - 258, full := [], cur := 0, bit_pos := 0 : BitWriter }
          let out := header ++ bw.bytes
          if out.length ≥ input.length then .error .data else .ok out

/-! ### The decoder -/

/-- `struct bit_reader`: the bytes that are not read yet, and the bits held. -/
structure BitReader where
  rest : Bytes
  hold : UInt32
  hold_bits : Nat

/-- `br_fill`: are there `n` bits, and the reader after it. -/
def brFill (n : Nat) : Bytes → UInt32 → Nat → Bool × BitReader
  | [], hold, hold_bits =>
    (decide (n ≤ hold_bits), { rest := [], hold := hold, hold_bits := hold_bits })
  | b :: rest, hold, hold_bits =>
    if n ≤ hold_bits then (true, { rest := b :: rest, hold := hold, hold_bits := hold_bits })
    else brFill n rest ((hold <<< 8) ||| b.toUInt32) (hold_bits + 8)

/-- `br_fill` of a reader. -/
def BitReader.fill (br : BitReader) (n : Nat) : Bool × BitReader :=
  brFill n br.rest br.hold br.hold_bits

/-- `br_peek`. -/
def BitReader.peek (br : BitReader) (n : Nat) : UInt32 :=
  br.hold >>> UInt32.ofNat (br.hold_bits - n)

/-- `br_consume`. -/
def BitReader.consume (br : BitReader) (n : Nat) : BitReader :=
  { br with
    hold := br.hold &&& (((1 : UInt32) <<< UInt32.ofNat (br.hold_bits - n)) - 1)
    hold_bits := br.hold_bits - n }

/-- `DECODE_TABLE_BITS`. -/
def DECODE_TABLE_BITS : Nat := 10

/-- `struct decode_entry`. -/
structure DecodeEntry where
  sym : UInt8
  len : Nat

/-- The entries that one symbol fills in `build_decode_table`. -/
def fillTable (c : HufCode) (table : Nat → DecodeEntry) : Nat → DecodeEntry :=
  (List.range (2 ^ (DECODE_TABLE_BITS - c.len))).foldl
    (fun table j =>
      let idx := ((c.code <<< UInt32.ofNat (DECODE_TABLE_BITS - c.len)) ||| UInt32.ofNat j).toNat
      if idx < 2 ^ DECODE_TABLE_BITS then
        Function.update table idx { sym := c.sym, len := c.len }
      else table) table

/-- `build_decode_table`: codes of up to ten bits.  The codes come sorted, so that sorting them
    again changes nothing. -/
def buildDecodeTable (cs : List HufCode) : Nat → DecodeEntry :=
  (cs.filter fun c => c.len > 0 ∧ c.len ≤ DECODE_TABLE_BITS).foldl
    (fun table c => fillTable c table) fun _ => { sym := 0, len := 0 }

/-- The loop of `mz_huf_decompress` that rebuilds the tree, which has room for 512 nodes. -/
def buildDecodeTree : List HufCode → Trie UInt8 → Except MzErr (Trie UInt8)
  | [], tree => .ok tree
  | c :: cs, tree =>
    let tree := tree.insert c.sym (bitsOf c.len c.code.toNat)
    if tree.size > 512 then .error .data else buildDecodeTree cs tree

/-- The bit by bit part of `decode_sym`. -/
def treeSym : Trie UInt8 → BitReader → Option (UInt8 × BitReader)
  | .nil, _ => none
  | .node (some s) _ _, br => some (s, br)
  | .node none l r, br =>
    match br.fill 1 with
    | (false, _) => none
    | (true, br) => if br.peek 1 = 0 then treeSym l (br.consume 1) else treeSym r (br.consume 1)

/-- `decode_sym`. -/
def decodeSym (table : Nat → DecodeEntry) (root : Trie UInt8) (br : BitReader) :
    Option (UInt8 × BitReader) :=
  let filled := br.fill DECODE_TABLE_BITS
  let entry := table (filled.2.peek DECODE_TABLE_BITS).toNat
  if filled.1 ∧ (filled.2.peek DECODE_TABLE_BITS).toNat < 2 ^ DECODE_TABLE_BITS ∧ entry.len > 0 then
    some (entry.sym, filled.2.consume entry.len)
  else treeSym root filled.2

/-- The loop of `mz_huf_decompress` with room for some more bytes. -/
def hufLoop (table : Nat → DecodeEntry) (root : Trie UInt8) : Nat → BitReader → Bytes
  | 0, _ => []
  | room + 1, br =>
    match decodeSym table root br with
    | none => []
    | some (sym, br) => sym :: hufLoop table root room br

/-- `code_lens` of `mz_huf_decompress`: longer lengths than 32 count as none. -/
def readLen (input : Bytes) (sym : UInt8) : Nat :=
  let cl := (input.getD (2 + sym.toNat) 0).toNat
  if cl ≤ 32 then cl else 0

/-- `mz_huf_decompress` with room for `outlen` bytes. -/
def mzHufDecompress (input : Bytes) (outlen : Nat) : Except MzErr Bytes := do
  if input.length < 2 + 256 then .error .data
  else if leNat (slice input 0 2) ≠ 256 then .error .data
  else
    let cs := makeCanonical (readLen input)
    let root ← buildDecodeTree cs (if cs = [] then .nil else .node none .nil .nil)
    .ok (hufLoop (buildDecodeTable cs) root outlen
      { rest := input.drop 258, hold := 0, hold_bits := 0 })

end MeuOS.Compress
