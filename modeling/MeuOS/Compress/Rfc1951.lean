import MeuOS.Lib.CanonicalCode

namespace MeuOS.Compress.Rfc1951

open MeuOS.Lib

/-!
# The DEFLATE format

RFC 1951 as a relation between a bit string and the bytes it stands for.  Where the RFC leaves
words of a code unused, or a length to two spellings, both are read here.  The bound `D` on the
number of code lengths that a header gives for distances is 32 in the RFC.

* `LengthRuns`, `Header` — the header of a dynamic block (3.2.7);
* `CopiedBack`, `Symbols` — the symbols of a block (3.2.3 and 3.2.5);
* `Block`, `Blocks`, `Deflates` — blocks, and whole streams.
-/

/-! ### Headers -/

/-- The order in which the lengths of the code length code stand. -/
def codeOrder : List Nat := [16, 17, 18, 0, 8, 7, 9, 6, 10, 5, 11, 4, 12, 3, 13, 2, 14, 1, 15]

/-- The code length code of the lengths `cls`. -/
def codeLengthCode (cls : List Nat) : CanonicalCode where
  n := 19
  len := fun s => cls.getD (codeOrder.idxOf s) 0

/-- `LengthRuns c total ls bits ls' rest`: the bits spell code lengths that continue `ls` to
`total` lengths `ls'`, and `rest` follows. -/
inductive LengthRuns (c : CanonicalCode) (total : Nat) :
    List Nat → List Bool → List Nat → List Bool → Prop
  | done {ls : List Nat} {rest : List Bool} (h : ls.length = total) : LengthRuns c total ls rest ls rest
  | length {ls ls' : List Nat} {w bits rest : List Bool} {s : Nat} (word : c.IsWord s w)
      (hs : s < 16) (room : ls.length < total)
      (next : LengthRuns c total (ls ++ [s]) bits ls' rest) :
      LengthRuns c total ls (w ++ bits) ls' rest
  | copy {ls ls' : List Nat} {w bits rest : List Bool} {v prev : Nat} (word : c.IsWord 16 w)
      (hv : v < 4) (hprev : ls.getLast? = some prev) (room : ls.length + (v + 3) ≤ total)
      (next : LengthRuns c total (ls ++ List.replicate (v + 3) prev) bits ls' rest) :
      LengthRuns c total ls (w ++ (lowBits 2 v ++ bits)) ls' rest
  | zeros {ls ls' : List Nat} {w bits rest : List Bool} {v : Nat} (word : c.IsWord 17 w)
      (hv : v < 8) (room : ls.length + (v + 3) ≤ total)
      (next : LengthRuns c total (ls ++ List.replicate (v + 3) 0) bits ls' rest) :
      LengthRuns c total ls (w ++ (lowBits 3 v ++ bits)) ls' rest
  | manyZeros {ls ls' : List Nat} {w bits rest : List Bool} {v : Nat} (word : c.IsWord 18 w)
      (hv : v < 128) (room : ls.length + (v + 11) ≤ total)
      (next : LengthRuns c total (ls ++ List.replicate (v + 11) 0) bits ls' rest) :
      LengthRuns c total ls (w ++ (lowBits 7 v ++ bits)) ls' rest

/-- The literal/length code of a header's lengths. -/
def litCode (hlit : Nat) (ls : List Nat) : CanonicalCode where
  n := hlit
  len := fun s => ls.getD s 0

/-- The distance code of a header's lengths. -/
def distCode (hlit hdist : Nat) (ls : List Nat) : CanonicalCode where
  n := hdist
  len := fun s => ls.getD (hlit + s) 0

/-- `Header D bits lit dist rest`: the bits are a header of a dynamic block with the codes `lit`
and `dist`, and `rest` follows. -/
inductive Header (D : Nat) :
    List Bool → CanonicalCode → CanonicalCode → List Bool → Prop
  | mk {hlit hdist : Nat} {cls ls : List Nat} {bits rest : List Bool}
      (lit_min : 257 ≤ hlit) (lit_max : hlit ≤ 286) (dist_min : 1 ≤ hdist) (dist_max : hdist ≤ D)
      (cls_min : 4 ≤ cls.length) (cls_max : cls.length ≤ 19) (cls_lt : ∀ l ∈ cls, l < 8)
      (cls_fits : (codeLengthCode cls).Fits)
      (runs : LengthRuns (codeLengthCode cls) (hlit + hdist) [] bits ls rest)
      (lit_fits : (litCode hlit ls).Fits) (dist_fits : (distCode hlit hdist ls).Fits) :
      Header D
        (lowBits 5 (hlit - 257) ++ (lowBits 5 (hdist - 1) ++ (lowBits 4 (cls.length - 4) ++
          (cls.flatMap (lowBits 3) ++ bits))))
        (litCode hlit ls) (distCode hlit hdist ls) rest

variable {D : Nat} {bits rest : List Bool} {lit dist : CanonicalCode} {out out' : Bytes}

theorem Header.dist_le (h : Header D bits lit dist rest) : dist.n ≤ D := by
  cases h with
  | mk _ _ _ dist_max => exact dist_max

/-- A header that is not one of a smaller bound has more distance lengths. -/
theorem Header.narrow (D' : Nat)
    (h : Header D bits lit dist rest) : Header D' bits lit dist rest ∨ D' < dist.n := by
  cases h with
  | @mk hlit hdist cls ls _ _ lit_min lit_max dist_min _ cls_min cls_max cls_lt cls_fits runs
      lit_fits dist_fits =>
    rcases Nat.lt_or_ge D' hdist with hlt | hge
    · exact Or.inr hlt
    · exact Or.inl (.mk lit_min lit_max dist_min hge cls_min cls_max cls_lt cls_fits runs
        lit_fits dist_fits)

/-! ### Symbols -/

/-- The extra bits of length symbol `257 + i`. -/
def lengthExtra (i : Nat) : Nat := if i < 8 ∨ i = 28 then 0 else i / 4 - 1

/-- The least length of length symbol `257 + i`: four symbols to each number of extra bits, and
258 for the last one. -/
def lengthBase (i : Nat) : Nat :=
  if i < 8 then i + 3 else if i = 28 then 258 else 3 + (4 + i % 4) * 2 ^ (i / 4 - 1)

/-- The extra bits of distance symbol `d`. -/
def distExtra (d : Nat) : Nat := d / 2 - 1

/-- The least distance of distance symbol `d`: two symbols to each number of extra bits. -/
def distBase (d : Nat) : Nat := if d < 4 then d + 1 else 1 + (2 + d % 2) * 2 ^ (d / 2 - 1)

/-- Each byte of `m` is the one that stands `dist` bytes before it when `m` follows `out`; it may
be one of `m` itself. -/
def CopiedBack (out : Bytes) (dist : Nat) (m : Bytes) : Prop :=
  ∀ i < m.length, (out ++ m)[out.length + i]? = (out ++ m)[out.length + i - dist]?

/-- `Symbols lit dist bits out rest out'`: the bits are the symbols of a block to its end, they
continue `out` to `out'`, and `rest` follows. -/
inductive Symbols (lit dist : CanonicalCode) : List Bool → Bytes → List Bool → Bytes → Prop
  | literal {s : Nat} {w bits rest : List Bool} {out out' : Bytes} (word : lit.IsWord s w)
      (hs : s < 256) (next : Symbols lit dist bits (out ++ [UInt8.ofNat s]) rest out') :
      Symbols lit dist (w ++ bits) out rest out'
  | endOfBlock {w rest : List Bool} {out : Bytes} (word : lit.IsWord 256 w) :
      Symbols lit dist (w ++ rest) out rest out
  | copy {i v d v' : Nat} {w w' bits rest : List Bool} {m out out' : Bytes}
      (word : lit.IsWord (257 + i) w) (hi : i < 29) (hv : v < 2 ^ lengthExtra i)
      (word' : dist.IsWord d w') (hd : d < 30) (hv' : v' < 2 ^ distExtra d)
      (length : m.length = lengthBase i + v) (back : distBase d + v' ≤ out.length)
      (repeats : CopiedBack out (distBase d + v') m)
      (next : Symbols lit dist bits (out ++ m) rest out') :
      Symbols lit dist
        (w ++ (lowBits (lengthExtra i) v ++ (w' ++ (lowBits (distExtra d) v' ++ bits)))) out rest
        out'

/-! ### Streams -/

/-- The literal/length code of a block with fixed codes. -/
def fixedLit : CanonicalCode where
  n := 288
  len := fun s => if s ≤ 143 then 8 else if s ≤ 255 then 9 else if s ≤ 279 then 7 else 8

/-- The distance code of a block with fixed codes. -/
def fixedDist : CanonicalCode where
  n := 32
  len := fun _ => 5

/-- `Block D final bits out rest out'`: the bits are a block, the last one when `final` is set, that
continues `out` to `out'`, and `rest` follows.  A stored block begins after up to seven bits of
padding, where the bits that follow are whole bytes. -/
inductive Block (D : Nat) : Bool → List Bool → Bytes → List Bool → Bytes → Prop
  | stored {final : Bool} {padding rest : List Bool} {data out : Bytes} (pad : padding.length < 8)
      (aligned : rest.length % 8 = 0) (hlen : data.length < 2 ^ 16) :
      Block D final
        (final :: (lowBits 2 0 ++ (padding ++ (lowBits 16 data.length ++
          (lowBits 16 (65535 - data.length) ++ (streamBits data ++ rest)))))) out rest (out ++ data)
  | fixed {final : Bool} {bits rest : List Bool} {out out' : Bytes}
      (symbols : Symbols fixedLit fixedDist bits out rest out') :
      Block D final (final :: (lowBits 2 1 ++ bits)) out rest out'
  | dynamic {final : Bool} {bits bits' rest : List Bool} {lit dist : CanonicalCode}
      {out out' : Bytes} (header : Header D bits lit dist bits')
      (symbols : Symbols lit dist bits' out rest out') :
      Block D final (final :: (lowBits 2 2 ++ bits)) out rest out'

/-- `Blocks D bits out out'`: the bits start with blocks, up to a last one, that continue `out` to
`out'`. -/
inductive Blocks (D : Nat) : List Bool → Bytes → Bytes → Prop
  | last {bits rest : List Bool} {out out' : Bytes} (block : Block D true bits out rest out') :
      Blocks D bits out out'
  | next {bits rest : List Bool} {out out' out'' : Bytes} (block : Block D false bits out rest out')
      (blocks : Blocks D rest out' out'') : Blocks D bits out out''

/-- The input is a stream that stands for `out`. -/
def Deflates (D : Nat) (input out : Bytes) : Prop := Blocks D (streamBits input) [] out

/-! ### Output only grows -/

theorem Symbols.length_le (h : Symbols lit dist bits out rest out') : out.length ≤ out'.length := by
  induction h with
  | literal _ _ _ ih =>
    rw [List.length_append] at ih
    omega
  | endOfBlock => exact le_rfl
  | copy _ _ _ _ _ _ _ _ _ _ ih =>
    rw [List.length_append] at ih
    omega

theorem Block.length_le {final : Bool}
    (h : Block D final bits out rest out') : out.length ≤ out'.length := by
  cases h with
  | stored =>
    rw [List.length_append]
    omega
  | fixed symbols => exact symbols.length_le
  | dynamic _ symbols => exact symbols.length_le

theorem Blocks.length_le (h : Blocks D bits out out') : out.length ≤ out'.length := by
  induction h with
  | last block => exact block.length_le
  | next block _ ih => exact block.length_le.trans ih

theorem Blocks.ne_nil (h : Blocks D bits out out') : bits ≠ [] := by
  cases h with
  | last block => cases block <;> exact List.cons_ne_nil _ _
  | next block => cases block <;> exact List.cons_ne_nil _ _

theorem Deflates.ne_nil {input : Bytes} (h : Deflates D input out) : input ≠ [] := by
  rintro rfl
  exact Blocks.ne_nil h rfl

end MeuOS.Compress.Rfc1951
