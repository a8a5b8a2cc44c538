import MeuOS.Lib.Bytes

namespace MeuOS.Sysroot

open MeuOS.Lib

/-!
# SHA-256 (`libmsys/sha256.c`)

`sha256` runs a context over the data: `sha256Update` fills a block of 64 bytes and transforms it
when it is full, `sha256Final` closes with the bit `1`, zeros and the length in bits.
-/

/-- The constants `K`. -/
def shaK : List UInt32 :=
  [0x428a2f98, 0x71374491, 0xb5c0fbcf, 0xe9b5dba5, 0x3956c25b, 0x59f111f1, 0x923f82a4, 0xab1c5ed5,
   0xd807aa98, 0x12835b01, 0x243185be, 0x550c7dc3, 0x72be5d74, 0x80deb1fe, 0x9bdc06a7, 0xc19bf174,
   0xe49b69c1, 0xefbe4786, 0x0fc19dc6, 0x240ca1cc, 0x2de92c6f, 0x4a7484aa, 0x5cb0a9dc, 0x76f988da,
   0x983e5152, 0xa831c66d, 0xb00327c8, 0xbf597fc7, 0xc6e00bf3, 0xd5a79147, 0x06ca6351, 0x14292967,
   0x27b70a85, 0x2e1b2138, 0x4d2c6dfc, 0x53380d13, 0x650a7354, 0x766a0abb, 0x81c2c92e, 0x92722c85,
   0xa2bfe8a1, 0xa81a664b, 0xc24b8b70, 0xc76c51a3, 0xd192e819, 0xd6990624, 0xf40e3585, 0x106aa070,
   0x19a4c116, 0x1e376c08, 0x2748774c, 0x34b0bcb5, 0x391c0cb3, 0x4ed8aa4a, 0x5b9cca4f, 0x682e6ff3,
   0x748f82ee, 0x78a5636f, 0x84c87814, 0x8cc70208, 0x90befffa, 0xa4506ceb, 0xbef9a3f7, 0xc67178f2]

/-- `RR32`. -/
def rr32 (x n : UInt32) : UInt32 := (x >>> n) ||| (x <<< (32 - n))

/-- `EP0`. -/
def ep0 (x : UInt32) : UInt32 := rr32 x 2 ^^^ rr32 x 13 ^^^ rr32 x 22

/-- `EP1`. -/
def ep1 (x : UInt32) : UInt32 := rr32 x 6 ^^^ rr32 x 11 ^^^ rr32 x 25

/-- `SIG0`. -/
def sig0 (x : UInt32) : UInt32 := rr32 x 7 ^^^ rr32 x 18 ^^^ (x >>> 3)

/-- `SIG1`. -/
def sig1 (x : UInt32) : UInt32 := rr32 x 17 ^^^ rr32 x 19 ^^^ (x >>> 10)

/-- The eight words of `state`. -/
structure ShaState where
  a : UInt32
  b : UInt32
  c : UInt32
  d : UInt32
  e : UInt32
  f : UInt32
  g : UInt32
  h : UInt32
  deriving DecidableEq, Repr

/-- The first 16 words of `W`. -/
def shaWords (block : Bytes) : List UInt32 :=
  (List.range 16).map fun i => UInt32.ofNat (beNat (slice block (4 * i) 4))

/-- The next word of `W`. -/
def shaExtend (W : List UInt32) (i : Nat) : List UInt32 :=
  W ++ [sig1 (W.getD (i - 2) 0) + W.getD (i - 7) 0 + sig0 (W.getD (i - 15) 0) + W.getD (i - 16) 0]

/-- One round. -/
def shaRound (s : ShaState) (kw : UInt32 × UInt32) : ShaState :=
  let T1 := s.h + ep1 s.e + ((s.e &&& s.f) ^^^ (~~~ s.e &&& s.g)) + kw.1 + kw.2
  let T2 := ep0 s.a + ((s.a &&& s.b) ^^^ (s.a &&& s.c) ^^^ (s.b &&& s.c))
  ⟨T1 + T2, s.a, s.b, s.c, s.d + T1, s.e, s.f, s.g⟩

/-- `sha256_transform`. -/
def sha256Transform (s : ShaState) (block : Bytes) : ShaState :=
  let W := (List.range' 16 48).foldl shaExtend (shaWords block)
  let t := (shaK.zip W).foldl shaRound s
  ⟨s.a + t.a, s.b + t.b, s.c + t.c, s.d + t.d, s.e + t.e, s.f + t.f, s.g + t.g, s.h + t.h⟩

/-- `struct sha256_ctx`; `buf` holds its first `buflen` bytes. -/
structure ShaCtx where
  bitcount : Nat
  state : ShaState
  buf : Bytes

/-- `sha256_init`. -/
def sha256Init : ShaCtx :=
  ⟨0, ⟨0x6a09e667, 0xbb67ae85, 0x3c6ef372, 0xa54ff53a, 0x510e527f, 0x9b05688c, 0x1f83d9ab,
    0x5be0cd19⟩, []⟩

/-- The loop of `sha256_update`, in at most `n` rounds. -/
def sha256Fill : Nat → ShaCtx → Bytes → ShaCtx
  | 0, ctx, _ => ctx
  | n + 1, ctx, p =>
    if p.isEmpty then ctx
    else
      let copy := min p.length (64 - ctx.buf.length)
      let buf := ctx.buf ++ p.take copy
      sha256Fill n (if buf.length = 64 then { ctx with state := sha256Transform ctx.state buf, buf := [] }
        else { ctx with buf := buf }) (p.drop copy)

/-- `sha256_update`; every round takes a byte. -/
def sha256Update (ctx : ShaCtx) (data : Bytes) : ShaCtx :=
  sha256Fill data.length { ctx with bitcount := (ctx.bitcount + data.length * 8) % 2 ^ 64 } data

/-- `sha256_final`. -/
def sha256Final (ctx : ShaCtx) : Bytes :=
  let buf := ctx.buf ++ [0x80]
  let (state, buf) :=
    if buf.length > 56 then
      (sha256Transform ctx.state (buf ++ List.replicate (64 - buf.length) 0), [])
    else (ctx.state, buf)
  let s := sha256Transform state
    (buf ++ List.replicate (56 - buf.length) 0 ++ beBytes 8 ctx.bitcount)
  [s.a, s.b, s.c, s.d, s.e, s.f, s.g, s.h].flatMap fun w => beBytes 4 w.toNat

/-- `sha256`. -/
def sha256 (data : Bytes) : Bytes := sha256Final (sha256Update sha256Init data)

theorem length_sha256 (data : Bytes) : (sha256 data).length = 32 := by
  simp [sha256, sha256Final]

/-- The digest of "abc". -/
example : sha256 [0x61, 0x62, 0x63] =
    beBytes 32 0xba7816bf8f01cfea414140de5dae2223b00361a396177a9cb410ff61f20015ad := by
  decide +kernel

end MeuOS.Sysroot
