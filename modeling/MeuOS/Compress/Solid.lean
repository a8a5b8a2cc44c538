import MeuOS.Compress.Lz77
import Mathlib.Logic.Relation

namespace MeuOS.Compress

open MeuOS.Lib List

/-!
# The solid codec (`mz_solid.c`)

A solid context takes one file after the other and writes a stream in the second LZ77
format for each.  `mz_solid_add` resets the hash chains, so a file is coded by itself.

The coder writes the offset of a match and the escape of a literal otherwise than the
decoder reads them (`matchToken_decodes`, `escapeToken_decodes`); `mzSolidAdd_decodes` says
for which files this does no harm.
-/

/-! ### The context -/

/-- `SOLID_MIN_MATCH`. -/
def SOLID_MIN_MATCH : Nat := 3

/-- `SOLID_MAX_MATCH`. -/
def SOLID_MAX_MATCH : Nat := 130

/-- `SOLID_MAX_OFFSET`. -/
def SOLID_MAX_OFFSET : Nat := 65535

/-- `struct mz_solid_ctx`, without the copy of the file in `win`, which is written and
    never read. -/
structure SolidCtx where
  chain : UInt16 → UInt16
  head : UInt16 → UInt16
  level : Int
  active : Bool

/-- `SOLID_HASH3` of the three bytes from `pos` on. -/
def solidHash3 (data : Bytes) (pos : Nat) : UInt16 :=
  ((data.getD pos 0).toUInt32 * 517 ^^^ (data.getD (pos + 1) 0).toUInt32 * 131
    ^^^ (data.getD (pos + 2) 0).toUInt32).toUInt16

/-- `chain_depth`: how many links of a chain are followed. -/
def chainDepth (level : Int) : Nat :=
  if level ≤ 1 then 64 else if level ≥ 9 then 4096 else (level * 128).toNat

/-- Put position `pos` at the head of the chain of its hash. -/
def SolidCtx.link (ctx : SolidCtx) (pos : Nat) (data : Bytes) : SolidCtx :=
  let h3 := solidHash3 data pos
  { ctx with
    chain := Function.update ctx.chain (UInt16.ofNat pos) (ctx.head h3)
    head := Function.update ctx.head h3 (UInt16.ofNat pos) }

/-- `insert`: positions with fewer than three bytes left are not linked. -/
def SolidCtx.insert (ctx : SolidCtx) (pos : Nat) (data : Bytes) : SolidCtx :=
  if pos + 2 ≥ data.length then ctx else ctx.link pos data

/-! ### Finding a match -/

/-- The two bytes from `pos` on as a 16-bit key. -/
def key2 (data : Bytes) (pos : Nat) : UInt16 :=
  (data.getD pos 0).toUInt16 ||| ((data.getD (pos + 1) 0).toUInt16 <<< 8)

/-- The loop that lengthens a match, from length `len` on; `fuel` bounds the length that
    is still possible. -/
def growMatch (data : Bytes) (idx pos : Nat) (ml : Int) : Nat → Nat → Nat
  | 0, len => len
  | fuel + 1, len =>
    if (len : Int) < ml ∧ data.getD (idx + len) 0 = data.getD (pos + len) 0 then
      growMatch data idx pos ml fuel (len + 1)
    else len

/-- The longest match that is looked for at `pos`: what is left of the data as an `int`,
    at most `SOLID_MAX_MATCH`. -/
def matchLimit (data : Bytes) (pos : Nat) : Int :=
  if cInt (data.length - pos) > SOLID_MAX_MATCH then SOLID_MAX_MATCH
  else cInt (data.length - pos)

/-- The length of the match of `idx` and `pos` once the first three bytes are taken to
    agree: the key is two bytes, the third is left to the hash. -/
def grownLength (data : Bytes) (idx pos : Nat) : Nat :=
  growMatch data idx pos (matchLimit data pos) (matchLimit data pos).toNat SOLID_MIN_MATCH

/-- The chain walk of `find_match`: `best` is the length and the offset of the best match
    so far. -/
def walkChain (ctx : SolidCtx) (pos : Nat) (data : Bytes) :
    Nat → UInt16 → Nat × Nat → Nat × Nat
  | 0, _, best => best
  | c + 1, idx, best =>
    if idx ≠ 0xFFFF ∧ pos > idx.toNat ∧ pos - idx.toNat ≤ SOLID_MAX_OFFSET then
      if key2 data idx.toNat = key2 data pos then
        if grownLength data idx.toNat pos > best.1 then
          if (grownLength data idx.toNat pos : Int) ≥ matchLimit data pos then
            (grownLength data idx.toNat pos, pos - idx.toNat)
          else
            walkChain ctx pos data c (ctx.chain idx)
              (grownLength data idx.toNat pos, pos - idx.toNat)
        else walkChain ctx pos data c (ctx.chain idx) best
      else walkChain ctx pos data c (ctx.chain idx) best
    else best

/-- `find_match`: length and offset of the best match at `pos`. -/
def findMatch (ctx : SolidCtx) (pos : Nat) (data : Bytes) : Option (Nat × Nat) :=
  if pos + 2 ≥ data.length then none
  else
    let best :=
      walkChain ctx pos data (chainDepth ctx.level) (ctx.head (solidHash3 data pos)) (0, 0)
    if best.1 ≥ SOLID_MIN_MATCH then some best else none

/-- `slide_and_insert`: move over `count` bytes and insert their positions. -/
def slideAndInsert (data : Bytes) : Nat → SolidCtx → Nat → SolidCtx × Nat
  | 0, ctx, ip => (ctx, ip)
  | count + 1, ctx, ip =>
    if ip < data.length then slideAndInsert data count (ctx.insert ip data) (ip + 1)
    else (ctx, ip)

/-! ### Writing a stream -/

/-- A match token: the offset shifted right by one over the first two bytes, its lowest
    bit on top of the length. -/
def matchToken (len off : Nat) : Bytes :=
  [ UInt8.ofNat (0x80 ||| ((off >>> 9) &&& 0x7F)),
    UInt8.ofNat ((off >>> 1) &&& 0xFF),
    UInt8.ofNat (((off &&& 1) <<< 7) ||| ((len - SOLID_MIN_MATCH) &&& 0x7F)) ]

/-- The token of a literal, escaped from `0x80` on. -/
def literalToken (b : UInt8) : Bytes := if b ≥ 0x80 then [0x81, b] else [b]

/-- What one turn of the loop writes at `ip`: the match it takes, or none for a literal,
    and the context after the look-ahead of the lazy levels. -/
def solidChoose (ctx : SolidCtx) (data : Bytes) (ip : Nat) : Option (Nat × Nat) × SolidCtx :=
  match findMatch ctx ip data with
  | none => (none, ctx)
  | some (len, off) =>
    -- the first byte of such a token would be the escape byte of a literal
    if off ≥ 0x200 ∧ off ≤ 0x3FF then (none, ctx)
    else if ctx.level ≥ 4 ∧ ip + 1 < data.length ∧ ip + 2 < data.length then
      let ctx := ctx.link ip data
      match findMatch ctx (ip + 1) data with
      | some (nextLen, _) => (if nextLen > len + 1 then none else some (len, off), ctx)
      | none => (some (len, off), ctx)
    else (some (len, off), ctx)

/-- One turn of the loop: the bytes written, the context and the position after it. -/
def solidStep (ctx : SolidCtx) (data : Bytes) (ip : Nat) : Bytes × SolidCtx × Nat :=
  match solidChoose ctx data ip with
  | (some (len, off), ctx) =>
    let len := if len > SOLID_MAX_MATCH then SOLID_MAX_MATCH else len
    (matchToken len off, slideAndInsert data len ctx ip)
  | (none, ctx) => (literalToken (data.getD ip 0), slideAndInsert data 1 ctx ip)

/-- The loop of `mz_solid_add`; every turn moves forward, so `data.length` turns are
    enough (`solidLoop_done`). -/
def solidLoop (data : Bytes) : Nat → SolidCtx → Nat → Bytes × SolidCtx
  | 0, ctx, _ => ([], ctx)
  | fuel + 1, ctx, ip =>
    if ip < data.length then
      let (written, ctx, ip) := solidStep ctx data ip
      let (rest, ctx) := solidLoop data fuel ctx ip
      (written ++ rest, ctx)
    else ([], ctx)

/-- The context `mz_solid_add` starts its loop with. -/
def SolidCtx.reset (ctx : SolidCtx) : SolidCtx :=
  { ctx with chain := fun _ => 0, head := fun _ => 0xFFFF }

/-- `mz_solid_start`. -/
def mzSolidStart (level : Int) : SolidCtx :=
  { chain := fun _ => 0
    head := fun _ => 0xFFFF
    level := if level < 1 then 1 else if level > 9 then 9 else level
    active := true }

/-- `mz_solid_add`: the stream written to `output` and the context after it. -/
def mzSolidAdd (ctx : SolidCtx) (data : Bytes) : Except MzErr (Bytes × SolidCtx) :=
  if !ctx.active then .error .param
  else
    let (tokens, ctx) := solidLoop data data.length ctx.reset 0
    -- header: magic and uncompressed size; the end marker is a match of offset 0
    .ok ([0x6D, 0x5A] ++ leBytes 4 data.length ++ tokens ++ [0x80, 0, 0], ctx)

/-- The streams of a sequence of calls on one context. -/
def mzSolidAddAll (ctx : SolidCtx) : List Bytes → Except MzErr (List Bytes)
  | [] => .ok []
  | data :: rest => do
    let (stream, ctx) ← mzSolidAdd ctx data
    let streams ← mzSolidAddAll ctx rest
    return stream :: streams

/-! ### What a match can be -/

/-- Length and offset of a match at `pos` that the token can hold. -/
def Fits (data : Bytes) (pos len off : Nat) : Prop :=
  SOLID_MIN_MATCH ≤ len ∧ len ≤ SOLID_MAX_MATCH ∧ pos + len ≤ data.length
    ∧ off ≤ SOLID_MAX_OFFSET

/-- The best match of a chain walk: none so far, or one that fits. -/
def BestFits (data : Bytes) (pos : Nat) (best : Nat × Nat) : Prop :=
  best.1 = 0 ∨ Fits data pos best.1 best.2

variable {data hist : Bytes} {pos len off ip : Nat} {ctx : SolidCtx} {P : Nat → Nat → Nat → Prop}
  {s : SolidCtx × Nat} {level : Int}

theorem Fits.best (h : Fits data pos len off) :
    BestFits data pos (len, off) := Or.inr h

theorem growMatch_le (data : Bytes) (idx pos : Nat) (ml : Int) (fuel len : Nat) :
    len ≤ growMatch data idx pos ml fuel len
      ∧ (growMatch data idx pos ml fuel len : Int) ≤ max (len : Int) ml := by
  induction fuel generalizing len with
  | zero => exact ⟨le_rfl, le_max_left _ _⟩
  | succ fuel ih =>
    unfold growMatch
    split
    · next h =>
      obtain ⟨hlo, hhi⟩ := ih (len + 1)
      refine ⟨by omega, hhi.trans ?_⟩
      rw [max_eq_right (by omega), max_eq_right (by omega)]
    · exact ⟨le_rfl, le_max_left _ _⟩

theorem matchLimit_le (data : Bytes) (pos : Nat) :
    matchLimit data pos ≤ SOLID_MAX_MATCH ∧ matchLimit data pos ≤ (data.length - pos : Nat) := by
  have hc : cInt (data.length - pos) ≤ (data.length - pos : Nat) := by
    unfold cInt
    rw [Int.bmod_def]
    split <;> omega
  unfold matchLimit
  split <;> omega

/-- A length between the shortest match and both bounds of `matchLimit` fits. -/
theorem fits_of_grown (hpos : pos + 2 < data.length) (hlo : SOLID_MIN_MATCH ≤ len)
    (hmax : (len : Int) ≤ max (SOLID_MIN_MATCH : Int) (SOLID_MAX_MATCH : Nat))
    (hend : (len : Int) ≤ max (SOLID_MIN_MATCH : Int) (data.length - pos : Nat))
    (hoff : off ≤ SOLID_MAX_OFFSET) : Fits data pos len off := by
  have hmin : SOLID_MIN_MATCH = 3 := rfl
  have hm : SOLID_MAX_MATCH = 130 := rfl
  rw [hmin, hm] at hmax
  rw [hmin] at hend
  refine ⟨hlo, ?_, ?_, hoff⟩
  · rw [hm]
    omega
  · omega

/-- The match grown at a position fits. -/
theorem grownLength_fits {idx : Nat} (hpos : pos + 2 < data.length)
    (hoff : off ≤ SOLID_MAX_OFFSET) : Fits data pos (grownLength data idx pos) off := by
  obtain ⟨hlo, hhi⟩ := growMatch_le data idx pos (matchLimit data pos)
    (matchLimit data pos).toNat SOLID_MIN_MATCH
  obtain ⟨hm1, hm2⟩ := matchLimit_le data pos
  exact fits_of_grown hpos hlo (hhi.trans (max_le_max_left _ hm1))
    (hhi.trans (max_le_max_left _ hm2)) hoff

theorem walkChain_fits (ctx : SolidCtx)
    (hpos : pos + 2 < data.length) (c : Nat) (idx : UInt16) (best : Nat × Nat)
    (hbest : BestFits data pos best) : BestFits data pos (walkChain ctx pos data c idx best) := by
  induction c generalizing idx best with
  | zero => exact hbest
  | succ c ih =>
    unfold walkChain
    split
    · next hidx =>
      split
      · -- the match grown at this position fits, whether it is the last one or not
        have hfit : Fits data pos (grownLength data idx.toNat pos) (pos - idx.toNat) :=
          grownLength_fits hpos hidx.2.2
        split
        · split
          · exact hfit.best
          · exact ih _ _ hfit.best
        · exact ih _ _ hbest
      · exact ih _ _ hbest
    · exact hbest

theorem findMatch_fits (h : findMatch ctx pos data = some (len, off)) : Fits data pos len off := by
  unfold findMatch at h
  split at h
  · cases h
  · next hpos =>
    dsimp only at h
    split at h
    · next hmin =>
      have hfit := walkChain_fits ctx (show pos + 2 < data.length by omega)
        (chainDepth ctx.level) (ctx.head (solidHash3 data pos)) (0, 0) (Or.inl rfl)
      rw [Option.some.inj h] at hmin hfit
      refine hfit.resolve_left fun hz => ?_
      simp only [SOLID_MIN_MATCH] at hmin
      omega
    · cases h

/-- The match a turn takes fits, and its first byte is no escape of a literal. -/
theorem solidChoose_fits (h : (solidChoose ctx data ip).1 = some (len, off)) :
    Fits data ip len off ∧ ¬ (off ≥ 0x200 ∧ off ≤ 0x3FF) := by
  unfold solidChoose at h
  split at h
  · cases h
  · next l o hf =>
    have hfit := findMatch_fits hf
    -- every branch takes the match found first or none
    have hsame : ¬ (o ≥ 0x200 ∧ o ≤ 0x3FF) ∧ (l, o) = (len, off) := by
      split at h
      · cases h
      · next hesc =>
        refine ⟨hesc, ?_⟩
        split at h
        · dsimp only at h
          split at h
          · dsimp only at h
            split at h
            · cases h
            · exact Option.some.inj h
          · exact Option.some.inj h
        · exact Option.some.inj h
    cases hsame.2
    exact ⟨hfit, hsame.1⟩

/-! ### Every turn moves forward and keeps the level -/

theorem slideAndInsert_spec (data : Bytes) (count : Nat) (ctx : SolidCtx) (ip : Nat)
    (h : ip ≤ data.length) :
    (slideAndInsert data count ctx ip).2 = min (ip + count) data.length
      ∧ (slideAndInsert data count ctx ip).1.level = ctx.level
      ∧ (slideAndInsert data count ctx ip).1.active = ctx.active := by
  induction count generalizing ctx ip with
  | zero => exact ⟨by rw [Nat.add_zero, Nat.min_eq_left h]; rfl, rfl, rfl⟩
  | succ count ih =>
    unfold slideAndInsert
    split
    · next hlt =>
      have hins : (ctx.insert ip data).level = ctx.level
          ∧ (ctx.insert ip data).active = ctx.active := by
        unfold SolidCtx.insert
        split <;> exact ⟨rfl, rfl⟩
      obtain ⟨h1, h2, h3⟩ := ih (ctx.insert ip data) (ip + 1) hlt
      exact ⟨by rw [h1]; congr 1; omega, h2.trans hins.1, h3.trans hins.2⟩
    · exact ⟨by dsimp only; omega, rfl, rfl⟩

theorem solidChoose_keeps (ctx : SolidCtx) (data : Bytes) (ip : Nat) :
    (solidChoose ctx data ip).2.level = ctx.level
      ∧ (solidChoose ctx data ip).2.active = ctx.active := by
  unfold solidChoose
  split
  · exact ⟨rfl, rfl⟩
  · split
    · exact ⟨rfl, rfl⟩
    · split
      · dsimp only
        split <;> exact ⟨rfl, rfl⟩
      · exact ⟨rfl, rfl⟩

/-- What a turn that takes a match writes. -/
theorem solidStep_match (h : (solidChoose ctx data ip).1 = some (len, off)) :
    (solidStep ctx data ip).1 = matchToken len off
      ∧ (solidStep ctx data ip).2.2 = ip + len := by
  obtain ⟨hmin, hmax, hend, _⟩ := (solidChoose_fits h).1
  have hpair : solidChoose ctx data ip = (some (len, off), (solidChoose ctx data ip).2) := by
    rw [← h]
  unfold solidStep
  rw [hpair]
  dsimp only
  rw [if_neg (by omega)]
  refine ⟨rfl, ?_⟩
  have hs := (slideAndInsert_spec data len (solidChoose ctx data ip).2 ip (by omega)).1
  rw [hs, Nat.min_eq_left hend]

/-- What a turn that takes no match writes. -/
theorem solidStep_literal (hip : ip < data.length) (h : (solidChoose ctx data ip).1 = none) :
    (solidStep ctx data ip).1 = literalToken (data.getD ip 0)
      ∧ (solidStep ctx data ip).2.2 = ip + 1 := by
  have hpair : solidChoose ctx data ip = (none, (solidChoose ctx data ip).2) := by rw [← h]
  unfold solidStep
  rw [hpair]
  refine ⟨rfl, ?_⟩
  have hs := (slideAndInsert_spec data 1 (solidChoose ctx data ip).2 ip hip.le).1
  rw [hs, Nat.min_eq_left hip]

theorem solidStep_keeps (ctx : SolidCtx) (hip : ip ≤ data.length) :
    (solidStep ctx data ip).2.1.level = ctx.level
      ∧ (solidStep ctx data ip).2.1.active = ctx.active := by
  obtain ⟨hl, ha⟩ := solidChoose_keeps ctx data ip
  have hs := fun n => slideAndInsert_spec data n (solidChoose ctx data ip).2 ip hip
  cases h : solidChoose ctx data ip with
  | mk choice after =>
    rw [h] at hl ha hs
    unfold solidStep
    rw [h]
    cases choice with
    | none => exact ⟨(hs _).2.1.trans hl, (hs _).2.2.trans ha⟩
    | some m => exact ⟨(hs _).2.1.trans hl, (hs _).2.2.trans ha⟩

/-! ### What the decoder makes of the tokens -/

/-- The offset the decoder reads from a match token for `off`: the coder shifts by one
    where the decoder does not. -/
def halvedOffset (off : Nat) : Nat := off / 2 + off % 2 * 32768

/-- The first offset whose token starts with the decoder's escape byte `0xFF`. -/
def FAR_OFFSET : Nat := 0xFE00

theorem matchToken_eq (hmin : SOLID_MIN_MATCH ≤ len)
    (hmax : len ≤ SOLID_MAX_MATCH) (hoff : off ≤ SOLID_MAX_OFFSET) :
    ∃ b0 b1 b2 : UInt8, matchToken len off = [b0, b1, b2]
      ∧ b0.toNat = 128 + off / 512 ∧ b1.toNat = off / 2 % 256
      ∧ b2.toNat = off % 2 * 128 + (len - 3) := by
  have hm : SOLID_MIN_MATCH = 3 := rfl
  have hM : SOLID_MAX_MATCH = 130 := rfl
  have hO : SOLID_MAX_OFFSET = 65535 := rfl
  have hhi : (off >>> 9) &&& 0x7F = off / 512 := by
    rw [show (0x7F : Nat) = 2 ^ 7 - 1 from rfl, Nat.and_two_pow_sub_one_eq_mod,
      Nat.shiftRight_eq_div_pow]
    omega
  have hmid : (off >>> 1) &&& 0xFF = off / 2 % 256 := by
    rw [show (0xFF : Nat) = 2 ^ 8 - 1 from rfl, Nat.and_two_pow_sub_one_eq_mod,
      Nat.shiftRight_eq_div_pow]
  have hlen : (len - SOLID_MIN_MATCH) &&& 0x7F = len - 3 := by
    rw [show (0x7F : Nat) = 2 ^ 7 - 1 from rfl, Nat.and_two_pow_sub_one_eq_mod, hm]
    omega
  have h0 : 0x80 ||| off / 512 = 128 + off / 512 := by
    have := Nat.shiftLeft_add_eq_or_of_lt (show off / 512 < 2 ^ 7 by omega) 1
    rw [show (0x80 : Nat) = 1 <<< 7 from rfl, ← this]
  have h2 : (off &&& 1) <<< 7 ||| (len - 3) = off % 2 * 128 + (len - 3) := by
    have := Nat.shiftLeft_add_eq_or_of_lt (show len - 3 < 2 ^ 7 by omega) (off % 2)
    rw [Nat.and_one_is_mod, ← this, Nat.shiftLeft_eq]
  refine ⟨_, _, _, rfl, ?_, ?_, ?_⟩
  · rw [hhi, h0, UInt8.toNat_ofNat_of_lt' (by show _ < 256; omega)]
  · rw [hmid, UInt8.toNat_ofNat_of_lt' (by show _ < 256; omega)]
  · rw [hlen, h2, UInt8.toNat_ofNat_of_lt' (by show _ < 256; omega)]

/-- A match token is read with its length and the halved offset, unless its first byte is
    the escape byte. -/
theorem matchToken_decodes {uncompsz : Nat} {rest : Bytes}
    (hlt : hist.length < uncompsz) (hmin : SOLID_MIN_MATCH ≤ len)
    (hmax : len ≤ SOLID_MAX_MATCH) (hoff : off < FAR_OFFSET) :
    decHist true uncompsz (matchToken len off ++ rest) hist
      = decHist true uncompsz rest (copyBack uncompsz (halvedOffset off) len hist) := by
  have hF : FAR_OFFSET = 65024 := rfl
  have hm : SOLID_MIN_MATCH = 3 := rfl
  have hM : SOLID_MAX_MATCH = 130 := rfl
  obtain ⟨b0, b1, b2, htok, h0, h1, h2⟩ :=
    matchToken_eq hmin hmax (show off ≤ 65535 by omega)
  have hofs : matchOffset true b0 b1 b2 = halvedOffset off := by
    rw [matchOffset_v2, h0, h1, h2, halvedOffset]
    omega
  have hlen : matchLength true b2 = len := by
    rw [matchLength_v2, h2]
    omega
  rw [htok, cons_append, cons_append, singleton_append,
    decHist_match hlt (by omega) (by omega), hofs, hlen]

/-- An escaped literal is read as a match token: the byte it adds is an old one. -/
theorem escapeToken_decodes {uncompsz : Nat} (b next : UInt8) (rest : Bytes)
    (hlt : hist.length < uncompsz) :
    ∃ d n, decHist true uncompsz (0x81 :: b :: next :: rest) hist
      = decHist true uncompsz rest (copyBack uncompsz d (n + 1) hist) := by
  refine ⟨matchOffset true 0x81 b next, matchLength true next - 1, ?_⟩
  rw [decHist_match hlt (by decide) (by decide), Nat.sub_add_cancel]
  rw [matchLength_v2]
  omega

/-! ### Files that survive -/

/-- One turn of the loop, between the states before and after it. -/
def SolidTurn (data : Bytes) (s s' : SolidCtx × Nat) : Prop :=
  s.2 < data.length ∧ s' = (solidStep s.1 data s.2).2

/-- Every match taken in a turn from `s` on satisfies `P` at its position. -/
def MatchesFrom (P : Nat → Nat → Nat → Prop) (data : Bytes) (s : SolidCtx × Nat) : Prop :=
  ∀ s', Relation.ReflTransGen (SolidTurn data) s s' → s'.2 < data.length →
    ∀ len off, (solidChoose s'.1 data s'.2).1 = some (len, off) → P s'.2 len off

/-- No match taken reaches `FAR_OFFSET` back. -/
def NearMatches (level : Int) (data : Bytes) : Prop :=
  MatchesFrom (fun _ _ off => off < FAR_OFFSET) data (mzSolidStart level, 0)

/-- The files the decoder gives back: shorter than `2 ^ 31` bytes, no byte that needs an
    escape, and every match taken is near and repeats at the halved offset as well. -/
def SolidOk (level : Int) (data : Bytes) : Prop :=
  data.length < 2 ^ 31 ∧ (∀ b ∈ data, b < 0x80)
    ∧ MatchesFrom (fun ip len off =>
        off < FAR_OFFSET ∧ Repeats data ip len (halvedOffset off)) data (mzSolidStart level, 0)

/-- `stream` is decoded, without an error and with its length as the returned number, to
    exactly `data`. -/
def Decodes (stream data : Bytes) : Prop :=
  mzDecompressLz77 stream = .ok ((data.length : Int), data)

theorem MatchesFrom.turn (h : MatchesFrom P data s) (hs : s.2 < data.length) :
    MatchesFrom P data (solidStep s.1 data s.2).2 :=
  fun s' hrun => h s' (Relation.ReflTransGen.head ⟨hs, rfl⟩ hrun)

theorem MatchesFrom.here (h : MatchesFrom P data s) (hs : s.2 < data.length)
    (hm : (solidChoose s.1 data s.2).1 = some (len, off)) : P s.2 len off :=
  h s .refl hs len off hm

theorem MatchesFrom.of_turn
    (hhere : ∀ len off, (solidChoose s.1 data s.2).1 = some (len, off) → P s.2 len off)
    (h : MatchesFrom P data (solidStep s.1 data s.2).2) : MatchesFrom P data s := by
  intro s' hrun hs'
  rcases Relation.ReflTransGen.cases_head hrun with rfl | ⟨t, ⟨_, rfl⟩, hrest⟩
  · exact hhere
  · exact h s' hrest hs'

theorem MatchesFrom.done {P : Nat → Nat → Nat → Prop} {data : Bytes} {s : SolidCtx × Nat}
    (hs : ¬ s.2 < data.length) : MatchesFrom P data s := by
  intro s' hrun hs'
  rcases Relation.ReflTransGen.cases_head hrun with rfl | ⟨t, ⟨hlt, _⟩, _⟩
  · exact absurd hs' hs
  · exact absurd hlt hs

theorem solidLoop_turn {fuel : Nat} (hip : ip < data.length) :
    (solidLoop data (fuel + 1) ctx ip).1
      = (solidStep ctx data ip).1
        ++ (solidLoop data fuel (solidStep ctx data ip).2.1 (solidStep ctx data ip).2.2).1 := by
  rw [solidLoop, if_pos hip]

/-! ### From the file to the decoder -/

/-- A file that survives is decoded from any turn of the loop on. -/
theorem solidLoop_sound (tail : Bytes) (h80 : ∀ b ∈ data, b < 0x80) (fuel : Nat)
    (ctx : SolidCtx) (ip : Nat) (hfuel : data.length ≤ ip + fuel)
    (hok : MatchesFrom (fun ip len off =>
      off < FAR_OFFSET ∧ Repeats data ip len (halvedOffset off)) data (ctx, ip)) :
    decHist true data.length ((solidLoop data fuel ctx ip).1 ++ tail) (data.take ip)
      = .ok data := by
  induction fuel generalizing ctx ip with
  | zero => rw [take_of_length_le (by omega), decHist_done (by omega)]
  | succ fuel ih =>
    by_cases hip : ip < data.length
    · have hlt : (data.take ip).length < data.length := by rw [length_take]; omega
      have hnext : MatchesFrom _ data
          ((solidStep ctx data ip).2.1, (solidStep ctx data ip).2.2) := hok.turn hip
      rw [solidLoop_turn hip, append_assoc]
      cases hm : (solidChoose ctx data ip).1 with
      | none =>
        obtain ⟨hw, hn⟩ := solidStep_literal hip hm
        have hb : data.getD ip 0 < 0x80 := by
          rw [getD_eq_getElem _ _ hip]
          exact h80 _ (getElem_mem hip)
        have htok : literalToken (data.getD ip 0) = [data.getD ip 0] :=
          if_neg (by rw [ge_iff_le, UInt8.not_le]; exact hb)
        rw [hw, htok, singleton_append, decHist_literal hlt hb,
          ← take_succ_getD data hip, ← hn]
        exact ih (solidStep ctx data ip).2.1 (solidStep ctx data ip).2.2 (by omega) hnext
      | some m =>
        obtain ⟨len, off⟩ := m
        obtain ⟨hw, hn⟩ := solidStep_match hm
        obtain ⟨hmin, hmax, hend, _⟩ := (solidChoose_fits hm).1
        obtain ⟨hnear, hrep⟩ := hok.here hip hm
        rw [hw, matchToken_decodes hlt hmin hmax hnear, copyBack_take hend hrep, ← hn]
        have hmin3 : SOLID_MIN_MATCH = 3 := rfl
        exact ih (solidStep ctx data ip).2.1 (solidStep ctx data ip).2.2 (by omega) hnext
    · rw [take_of_length_le (by omega), decHist_done (by omega)]

/-! ### From the decoder to the file -/

theorem back_lt (h : ∀ b ∈ hist, b < 0x80) (d : Nat) : back hist d < 0x80 := by
  unfold back
  split
  · by_cases hd : hist.length - d < hist.length
    · rw [getD_eq_getElem _ _ hd]
      exact h _ (getElem_mem hd)
    · rw [getD_eq_default _ _ (by omega)]
      decide
  · decide

/-- Bytes that repeat small ones are small. -/
theorem Repeats.small (h : Repeats data ip len off)
    (hend : ip + len ≤ data.length) (hprev : ∀ b ∈ data.take ip, b < 0x80) :
    ∀ b ∈ data.take (ip + len), b < 0x80 := by
  induction len generalizing ip with
  | zero => exact hprev
  | succ len ih =>
    obtain ⟨h0, hs⟩ := repeats_succ.mp h
    have hnext : ∀ b ∈ data.take (ip + 1), b < 0x80 := by
      rw [take_succ_getD data (by omega), h0]
      intro b hb
      rcases mem_append.mp hb with hb | hb
      · exact hprev b hb
      · rw [mem_singleton.mp hb]
        exact back_lt hprev _
    have := ih hs (by omega) hnext
    rwa [Nat.add_assoc, Nat.add_comm 1 len] at this

/-- The first byte of a copy that stays inside `data`. -/
theorem getD_of_copyBack {d n : Nat} (hip : ip < data.length)
    (h : copyBack data.length d (n + 1) (data.take ip) <+: data) :
    data.getD ip 0 = back (data.take ip) (ringDist MZ_WSIZE d) := by
  have hone : Repeats data ip 1 d := by
    refine repeats_of_copyBack (by omega) (List.IsPrefix.trans ?_ h)
    have hlt : (data.take ip).length < data.length := by rw [length_take]; omega
    unfold copyBack
    rw [if_pos hlt, if_pos hlt]
    exact prefix_copyBack _ _ n _
  exact hone 0 Nat.one_pos

/-- What is decoded to `data` comes from a file that survives. -/
theorem solidLoop_complete {tail : Bytes} (htail : tail ≠ []) (fuel : Nat)
    (ctx : SolidCtx) (ip : Nat) (hfuel : data.length ≤ ip + fuel)
    (hprev : ∀ b ∈ data.take ip, b < 0x80)
    (hnear : MatchesFrom (fun _ _ off => off < FAR_OFFSET) data (ctx, ip))
    (hdec : decHist true data.length ((solidLoop data fuel ctx ip).1 ++ tail) (data.take ip)
      = .ok data) :
    (∀ b ∈ data, b < 0x80) ∧ MatchesFrom (fun ip len off =>
      off < FAR_OFFSET ∧ Repeats data ip len (halvedOffset off)) data (ctx, ip) := by
  induction fuel generalizing ctx ip with
  | zero =>
    rw [take_of_length_le (by omega)] at hprev
    exact ⟨hprev, MatchesFrom.done (by dsimp only; omega)⟩
  | succ fuel ih =>
    by_cases hip : ip < data.length
    · have hlt : (data.take ip).length < data.length := by rw [length_take]; omega
      have hnext : MatchesFrom _ data
          ((solidStep ctx data ip).2.1, (solidStep ctx data ip).2.2) := hnear.turn hip
      rw [solidLoop_turn hip, append_assoc] at hdec
      cases hm : (solidChoose ctx data ip).1 with
      | none =>
        obtain ⟨hw, hn⟩ := solidStep_literal hip hm
        -- an escape would put an old, small byte in place of a large one
        have hb : data.getD ip 0 < 0x80 := by
          by_contra hbig
          have htok : literalToken (data.getD ip 0) = [0x81, data.getD ip 0] :=
            if_pos (UInt8.not_lt.mp hbig)
          obtain ⟨next, rest, hcons⟩ : ∃ next rest,
              (solidLoop data fuel (solidStep ctx data ip).2.1
                (solidStep ctx data ip).2.2).1 ++ tail = next :: rest :=
            exists_cons_of_ne_nil (by simp [htail])
          rw [hw, htok, hcons] at hdec
          obtain ⟨d, n, hesc⟩ := escapeToken_decodes (data.getD ip 0) next rest hlt
          rw [cons_append, singleton_append, hesc] at hdec
          have hold := getD_of_copyBack hip (prefix_decHist hdec)
          exact hbig (hold ▸ back_lt hprev _)
        have htok : literalToken (data.getD ip 0) = [data.getD ip 0] :=
          if_neg (by rw [ge_iff_le, UInt8.not_le]; exact hb)
        rw [hw, htok, singleton_append, decHist_literal hlt hb,
          ← take_succ_getD data hip, ← hn] at hdec
        obtain ⟨hsmall, hrest⟩ := ih (solidStep ctx data ip).2.1 (solidStep ctx data ip).2.2 (by omega) (by
          rw [hn, take_succ_getD data hip]
          intro b hb'
          rcases mem_append.mp hb' with hb' | hb'
          · exact hprev b hb'
          · exact mem_singleton.mp hb' ▸ hb) hnext hdec
        exact ⟨hsmall, MatchesFrom.of_turn (fun len off h => by rw [hm] at h; cases h) hrest⟩
      | some m =>
        obtain ⟨len, off⟩ := m
        obtain ⟨hw, hn⟩ := solidStep_match hm
        obtain ⟨hmin, hmax, hend, _⟩ := (solidChoose_fits hm).1
        have hfar := hnear.here hip hm
        rw [hw, matchToken_decodes hlt hmin hmax hfar] at hdec
        have hrep := repeats_of_copyBack hend (prefix_decHist hdec)
        rw [copyBack_take hend hrep, ← hn] at hdec
        have hmin3 : SOLID_MIN_MATCH = 3 := rfl
        obtain ⟨hsmall, hrest⟩ := ih (solidStep ctx data ip).2.1 (solidStep ctx data ip).2.2 (by omega)
          (by rw [hn]; exact hrep.small hend hprev) hnext hdec
        refine ⟨hsmall, MatchesFrom.of_turn (fun l o h => ?_) hrest⟩
        rw [hm] at h
        cases h
        exact ⟨hfar, hrep⟩
    · rw [take_of_length_le (by omega)] at hprev
      exact ⟨hprev, MatchesFrom.done hip⟩

/-! ### One stream, and all streams of a context -/

/-- The stream of one file, decoded. -/
theorem mzDecompressLz77_stream (data tokens tail : Bytes) :
    mzDecompressLz77 ([0x6D, 0x5A] ++ leBytes 4 data.length ++ tokens ++ tail)
      = (decHist true (data.length % 2 ^ 32) (tokens ++ tail) []).map
          fun r => (cInt r.length, r) := by
  have hsize : leNat [UInt8.ofNat data.length, UInt8.ofNat (data.length / 256),
      UInt8.ofNat (data.length / 256 / 256), UInt8.ofNat (data.length / 256 / 256 / 256)]
      = data.length % 2 ^ 32 := leNat_leBytes 4 data.length
  have hloop := decLoop_hist true (data.length % 2 ^ 32) (tokens ++ tail) DecSt.Windowed.init
  rw [show DecSt.init.out = [] from rfl] at hloop
  rw [← hloop, ← hsize]
  simp only [leBytes, cons_append, nil_append]
  rw [mzDecompressLz77, if_pos ⟨rfl, Or.inr rfl⟩, show ((0x6D : UInt8) == 0x6D) = true from rfl]
  cases decLoop true _ (tokens ++ tail) DecSt.init with
  | error e => rfl
  | ok s => rfl

/-- The stream a context of level `level` writes for `data`. -/
def solidStream (level : Int) (data : Bytes) : Bytes :=
  [0x6D, 0x5A] ++ leBytes 4 data.length
    ++ (solidLoop data data.length (mzSolidStart level) 0).1 ++ [0x80, 0, 0]

/-- The stream of a file is decoded, and no match is far, exactly when the file is one of
    those that survive. -/
theorem solidStream_decodes_iff (level : Int) (data : Bytes) :
    (NearMatches level data ∧ Decodes (solidStream level data) data) ↔ SolidOk level data := by
  unfold Decodes solidStream
  rw [mzDecompressLz77_stream]
  constructor
  · rintro ⟨hnear, hdec⟩
    cases hr : decHist true (data.length % 2 ^ 32)
        ((solidLoop data data.length (mzSolidStart level) 0).1 ++ [0x80, 0, 0]) [] with
    | error e => rw [hr] at hdec; cases hdec
    | ok r =>
      rw [hr] at hdec
      obtain ⟨hret, hbytes⟩ := Prod.mk.inj (Except.ok.inj hdec)
      subst hbytes
      have hlen := (cInt_eq_iff r.length).mp hret
      rw [Nat.mod_eq_of_lt (by omega)] at hr
      obtain ⟨hsmall, hok⟩ := solidLoop_complete (by decide) r.length (mzSolidStart level) 0
        (by omega) (by simp) hnear hr
      exact ⟨hlen, hsmall, hok⟩
  · rintro ⟨hlen, hsmall, hok⟩
    have hdec := solidLoop_sound [0x80, 0, 0] hsmall data.length
      (mzSolidStart level) 0 (by omega) hok
    refine ⟨fun s hrun hs len off hm => (hok s hrun hs len off hm).1, ?_⟩
    rw [take_zero] at hdec
    rw [Nat.mod_eq_of_lt (by omega), hdec]
    show Except.ok (cInt data.length, data) = _
    rw [(cInt_eq_iff _).mpr hlen]

theorem solidLoop_keeps (data : Bytes) (fuel : Nat) (ctx : SolidCtx) (ip : Nat)
    (hip : ip ≤ data.length) :
    (solidLoop data fuel ctx ip).2.level = ctx.level
      ∧ (solidLoop data fuel ctx ip).2.active = ctx.active := by
  induction fuel generalizing ctx ip with
  | zero => exact ⟨rfl, rfl⟩
  | succ fuel ih =>
    by_cases hlt : ip < data.length
    · have hnext : (solidStep ctx data ip).2.2 ≤ data.length := by
        cases hm : (solidChoose ctx data ip).1 with
        | none =>
          rw [(solidStep_literal hlt hm).2]
          omega
        | some m =>
          rw [(solidStep_match hm).2]
          exact (solidChoose_fits hm).1.2.2.1
      obtain ⟨hl, ha⟩ := solidStep_keeps ctx hip
      obtain ⟨hl', ha'⟩ := ih (solidStep ctx data ip).2.1 (solidStep ctx data ip).2.2 hnext
      rw [solidLoop, if_pos hlt]
      exact ⟨hl'.trans hl, ha'.trans ha⟩
    · rw [solidLoop, if_neg hlt]
      exact ⟨rfl, rfl⟩

/-- The context is active and has the level it was started with. -/
def SolidCtx.StartedAt (ctx : SolidCtx) (level : Int) : Prop :=
  ctx.level = (mzSolidStart level).level ∧ ctx.active = true

theorem SolidCtx.StartedAt.reset (h : ctx.StartedAt level) :
    ctx.reset = mzSolidStart level := by
  obtain ⟨hl, ha⟩ := h
  unfold SolidCtx.reset
  rw [hl, ha]
  rfl

/-- A call writes the stream of its file, whatever was added before. -/
theorem mzSolidAdd_eq (h : ctx.StartedAt level) (data : Bytes) :
    ∃ ctx', mzSolidAdd ctx data = .ok (solidStream level data, ctx') ∧ ctx'.StartedAt level := by
  refine ⟨(solidLoop data data.length (mzSolidStart level) 0).2, ?_, ?_⟩
  · unfold mzSolidAdd
    rw [h.2, h.reset]
    rfl
  · exact solidLoop_keeps data data.length (mzSolidStart level) 0 (Nat.zero_le _)

theorem mzSolidAddAll_eq (h : ctx.StartedAt level)
    (datas : List Bytes) : mzSolidAddAll ctx datas = .ok (datas.map (solidStream level)) := by
  induction datas generalizing ctx with
  | nil => rfl
  | cons data rest ih =>
    obtain ⟨ctx', hadd, hctx'⟩ := mzSolidAdd_eq h data
    unfold mzSolidAddAll
    rw [hadd]
    show (mzSolidAddAll ctx' rest >>= _) = _
    rw [ih hctx']
    rfl

/-- A run of one byte: the offset 1 is read as 32768, which lies before the start. -/
example : mzDecompressLz77 (solidStream 6 [97, 97, 97, 97, 97]) = .ok (5, [97, 0, 0, 0, 0]) := by
  decide +kernel

/-- **Round trip of the solid codec.**  All calls on a context succeed, and for each file
    on its own: no match is far and the stream is decoded to the file, if and only if the
    file is one of those that survive. -/
theorem mzSolidAdd_decodes (level : Int) (datas : List Bytes) :
    ∃ streams, mzSolidAddAll (mzSolidStart level) datas = .ok streams
      ∧ List.Forall₂ (fun data stream =>
          (NearMatches level data ∧ Decodes stream data) ↔ SolidOk level data)
        datas streams := by
  refine ⟨_, mzSolidAddAll_eq ⟨(rfl : _ = (mzSolidStart level).level), rfl⟩ datas, ?_⟩
  induction datas with
  | nil => exact .nil
  | cons data rest ih => exact .cons (solidStream_decodes_iff level data) ih

/-- The byte `0x80` is escaped as `81 80`; the decoder takes it for a match and gives a
    zero byte back. -/
theorem mzSolidAdd_escape_lost :
    ∃ stream, mzSolidAddAll (mzSolidStart 1) [[0x80]] = .ok [stream]
      ∧ mzDecompressLz77 stream = .ok (1, [0]) ∧ ¬ Decodes stream [0x80] :=
  ⟨[0x6D, 0x5A, 1, 0, 0, 0, 0x81, 0x80, 0x80, 0, 0], by decide +kernel, by decide +kernel, by
    unfold Decodes
    decide⟩

end MeuOS.Compress
