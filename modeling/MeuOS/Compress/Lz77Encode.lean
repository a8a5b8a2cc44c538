import MeuOS.Compress.Solid

namespace MeuOS.Compress

open MeuOS.Lib List

/-!
# The LZ77 coder (`mz_compress_lz77`)

The coder of `mz_lz77.c` looks for earlier occurrences of the next three bytes in hash chains,
takes the longest match that its level allows, and writes literals, escaped literals and match
tokens of the second format.

* `mzFind`, `mzTurn`, `mzCompressLz77` — the source's functions;
* `mzFind_genuine` — a match found repeats bytes of the data;
* `mzTurn_decodes` — the tokens of one turn decode to the bytes it moves over;
* `mzCompressLz77_decodes` — a compressed string is decoded, whatever follows it;
* `mzCompressLz77_roundtrip` — the coder never runs out of room, and its output is decoded.
-/

/-! ### Levels and state -/

/-- `struct mz_level_cfg`. -/
structure LevelCfg where
  chain_depth : Nat
  max_match : Nat
  max_dist : Nat
  use_lazy : Bool

/-- `mz_level_cfg`. -/
def mzLevelCfg (level : Int) : LevelCfg :=
  let cfgs : List LevelCfg :=
    [⟨4, 8, 4096, false⟩, ⟨4, 8, 4096, false⟩, ⟨16, 16, 4096, false⟩, ⟨64, 32, 4096, false⟩,
     ⟨128, 64, 16384, true⟩, ⟨256, 64, 16384, true⟩, ⟨512, 96, 16384, true⟩,
     ⟨1024, 130, 65535, true⟩, ⟨2048, 130, 65535, true⟩, ⟨4096, 130, 65535, true⟩]
  cfgs.getD (if level < 1 then 1 else if level > 9 then 9 else level.toNat) ⟨4, 8, 4096, false⟩

/-- `MZ_MAX_OFFSET_V2`. -/
def MZ_MAX_OFFSET_V2 : Nat := 65535

/-- `MZ_MAX_MATCH_V2`. -/
def MZ_MAX_MATCH_V2 : Nat := 130

/-- `struct mz_state`, without the window, which is written and never read.  Positions are
    `uint32_t`; `2 ^ 32 - 1` stands for no position. -/
structure MzState where
  chain : Nat → Nat
  head : Nat → Nat
  level : Int

/-- `mz_init`. -/
def MzState.init (level : Int) : MzState :=
  { chain := fun _ => 0
    head := fun _ => 2 ^ 32 - 1
    level := level }

/-- `MZ_HASH3` of the three bytes from `pos` on. -/
def mzHash3 (data : Bytes) (pos : Nat) : Nat :=
  ((data.getD pos 0).toNat * 517 ^^^ (data.getD (pos + 1) 0).toNat * 131
    ^^^ (data.getD (pos + 2) 0).toNat) % 65536

/-- Put a position at the head of the chain of its hash; `val` is the number stored. -/
def MzState.link (s : MzState) (data : Bytes) (pos val : Nat) : MzState :=
  { s with
    chain := Function.update s.chain (pos % MZ_WSIZE) (s.head (mzHash3 data pos))
    head := Function.update s.head (mzHash3 data pos) val }

/-- `mz_insert`: positions with fewer than three bytes left are not linked. -/
def MzState.insert (s : MzState) (data : Bytes) (pos : Nat) : MzState :=
  if pos + 2 ≥ data.length then s else s.link data pos (pos % 2 ^ 32)

/-- `slide_and_insert`: move over `count` bytes and insert their positions. -/
def mzSlide (data : Bytes) : Nat → MzState → Nat → MzState × Nat
  | 0, s, ip => (s, ip)
  | count + 1, s, ip =>
    if ip < data.length then mzSlide data count (s.insert data ip) (ip + 1) else (s, ip)

/-! ### Finding a match -/

/-- `key3`: the three bytes from `pos` on as a number. -/
def key3 (data : Bytes) (pos : Nat) : Nat :=
  (data.getD pos 0).toNat ||| ((data.getD (pos + 1) 0).toNat <<< 8)
    ||| ((data.getD (pos + 2) 0).toNat <<< 16)

/-- `ml`: what is left of the data as an `int`, at most the level's longest match. -/
def mzMatchLimit (cfg : LevelCfg) (data : Bytes) (pos : Nat) : Int :=
  min (cInt (data.length - pos)) (min cfg.max_match MZ_MAX_MATCH_V2 : Nat)

/-- The length of the match of `idx` and `pos` once the first three bytes agree. -/
def mzGrow (cfg : LevelCfg) (data : Bytes) (idx pos : Nat) : Nat :=
  growMatch data idx pos (mzMatchLimit cfg data pos) (mzMatchLimit cfg data pos).toNat
    MZ_MIN_MATCH

/-- The chain walk of `mz_find` for the second format: `best` is the length and the offset of the
    best match so far. -/
def mzWalk (s : MzState) (data : Bytes) (pos : Nat) : Nat → Nat → Nat × Nat → Nat × Nat
  | 0, _, best => best
  | c + 1, idx, best =>
    if idx ≠ 2 ^ 32 - 1 ∧ pos > idx
        ∧ pos - idx ≤ min (mzLevelCfg s.level).max_dist MZ_MAX_OFFSET_V2 then
      if key3 data idx = key3 data pos
          ∧ mzGrow (mzLevelCfg s.level) data idx pos > best.1 then
        if (mzGrow (mzLevelCfg s.level) data idx pos : Int)
            ≥ mzMatchLimit (mzLevelCfg s.level) data pos then
          (mzGrow (mzLevelCfg s.level) data idx pos, pos - idx)
        else
          mzWalk s data pos c (s.chain (idx % MZ_WSIZE))
            (mzGrow (mzLevelCfg s.level) data idx pos, pos - idx)
      else mzWalk s data pos c (s.chain (idx % MZ_WSIZE)) best
    else best

/-- `mz_find` for the second format: length and offset of the best match. -/
def mzFind (s : MzState) (data : Bytes) (pos : Nat) : Option (Nat × Nat) :=
  if pos + 2 ≥ data.length then none
  else
    let best := mzWalk s data pos (mzLevelCfg s.level).chain_depth
      (s.head (mzHash3 data pos)) (0, 0)
    if best.1 ≥ MZ_MIN_MATCH then some best else none

/-! ### Writing -/

/-- `write_literal`. -/
def literalV2 (b : UInt8) : Bytes := if b ≥ 0x80 then [0xFF, b] else [b]

/-- `write_match_v2`. -/
def matchV2 (offset length : Nat) : Bytes :=
  [ UInt8.ofNat (0x80 ||| (offset >>> 8)),
    UInt8.ofNat (offset &&& 0xFF),
    UInt8.ofNat ((((offset >>> 15) &&& 1) <<< 7) ||| ((length - MZ_MIN_MATCH) &&& 0x7F)) ]

/-- `count` literals, each inserted behind itself. -/
def literalRun (data : Bytes) : Nat → MzState → Nat → Bytes × MzState × Nat
  | 0, s, ip => ([], s, ip)
  | count + 1, s, ip =>
    if ip < data.length then
      let (rest, s', ip') := literalRun data count (mzSlide data 1 s ip).1 (ip + 1)
      (literalV2 (data.getD ip 0) ++ rest, s', ip')
    else ([], s, ip)

/-- The match that one turn of the loop of `mz_compress_lz77` takes at `ip`, or none for a
    literal, and the state after the look-ahead of the lazy levels, which stores the position in
    16 bits. -/
def mzChoose (s : MzState) (data : Bytes) (ip : Nat) : Option (Nat × Nat) × MzState :=
  match mzFind s data ip with
  | none => (none, s)
  | some (len, off) =>
    if (mzLevelCfg s.level).use_lazy ∧ ip + 1 < data.length ∧ ip + 2 < data.length then
      let s := s.link data ip (ip % 2 ^ 16)
      match mzFind s data (ip + 1) with
      | some (nextLen, _) => (if nextLen > len + 1 then none else some (len, off), s)
      | none => (some (len, off), s)
    else (some (len, off), s)

/-- The bytes of a match that are left to code. -/
def clampLength (data : Bytes) (ip len : Nat) : Nat :=
  min (min len MZ_MAX_MATCH_V2) (data.length - ip)

/-- One turn of the loop of `mz_compress_lz77`: what is written, the state and the position
    after it. -/
def mzTurn (s : MzState) (data : Bytes) (ip : Nat) : Bytes × MzState × Nat :=
  match mzChoose s data ip with
  | (none, s) => literalRun data 1 s ip
  | (some (len, off), s) =>
    -- the bound of this loop shrinks while it runs: half of what is left
    if clampLength data ip len < MZ_MIN_MATCH then
      literalRun data ((data.length - ip + 1) / 2) s ip
    else if off >>> 8 > 0x7E then literalRun data (clampLength data ip len) s ip
    else (matchV2 off (clampLength data ip len), mzSlide data (clampLength data ip len) s ip)

/-- The room that the turn at `ip` asks for before it writes. -/
def mzRoom (s : MzState) (data : Bytes) (ip : Nat) : Nat :=
  if (mzChoose s data ip).1.isSome then 3 else (literalV2 (data.getD ip 0)).length

/-- The loop of `mz_compress_lz77` with `out` written; every turn moves forward, so that
    `data.length` turns are enough. -/
def mzLoop (data : Bytes) : Nat → MzState → Nat → Bytes → Except MzErr Bytes
  | 0, _, _, out => .ok out
  | turns + 1, s, ip, out =>
    if ip < data.length then
      if out.length + mzRoom s data ip > data.length + data.length + 20 then .error .stream
      else
        mzLoop data turns (mzTurn s data ip).2.1 (mzTurn s data ip).2.2
          (out ++ (mzTurn s data ip).1)
    else .ok out

/-- `mz_compress_lz77`: the returned `int` and the bytes of `*result`. -/
def mzCompressLz77 (data : Bytes) (level : Int) : Except MzErr (Int × Bytes) :=
  if data = [] then .error .param
  else
    let state := MzState.init (if level < 1 then 1 else if level > 9 then 9 else level)
    match mzLoop data data.length state 0 ([0x6D, 0x5A] ++ leBytes 4 data.length) with
    | .error e => .error e
    | .ok out => .ok (cInt out.length, out)

/-! ### A match found is genuine -/

/-- The bytes at `pos` repeat those `off` places before, and a token can say so. -/
structure Genuine (data : Bytes) (pos len off : Nat) : Prop where
  least : MZ_MIN_MATCH ≤ len
  most : len ≤ MZ_MAX_MATCH_V2
  fits : pos + len ≤ data.length
  behind : 1 ≤ off
  inside : off ≤ pos
  near : off ≤ MZ_MAX_OFFSET_V2
  agree : ∀ k < len, data.getD (pos - off + k) 0 = data.getD (pos + k) 0

theorem cInt_le (n : Nat) : cInt n ≤ n := by
  unfold cInt
  rw [Int.bmod_def]
  split <;> omega

variable {data out : Bytes} {pos len off ip : Nat}

/-- Three equal keys are three equal bytes. -/
theorem key3_eq {i j : Nat} (h : key3 data i = key3 data j) :
    ∀ k < 3, data.getD (i + k) 0 = data.getD (j + k) 0 := by
  have hsum : ∀ n, key3 data n = (data.getD n 0).toNat + (data.getD (n + 1) 0).toNat * 256
      + (data.getD (n + 2) 0).toNat * 65536 := by
    intro n
    have h0 : (data.getD n 0).toNat < 2 ^ 8 := UInt8.toNat_lt _
    have h1 : (data.getD (n + 1) 0).toNat < 2 ^ 8 := UInt8.toNat_lt _
    unfold key3
    rw [Nat.or_comm (data.getD n 0).toNat, ← Nat.shiftLeft_add_eq_or_of_lt h0, Nat.or_comm,
      ← Nat.shiftLeft_add_eq_or_of_lt (by rw [Nat.shiftLeft_eq]; omega), Nat.shiftLeft_eq,
      Nat.shiftLeft_eq]
    omega
  rw [hsum, hsum] at h
  have hi0 := UInt8.toNat_lt (data.getD i 0)
  have hi1 := UInt8.toNat_lt (data.getD (i + 1) 0)
  have hj0 := UInt8.toNat_lt (data.getD j 0)
  have hj1 := UInt8.toNat_lt (data.getD (j + 1) 0)
  intro k hk
  apply UInt8.toNat_inj.mp
  -- the three bytes are the digits of the key
  obtain rfl | rfl | rfl : k = 0 ∨ k = 1 ∨ k = 2 := by omega
  · rw [Nat.add_zero, Nat.add_zero]
    omega
  · omega
  · omega

/-- As far as a match grows its bytes agree. -/
theorem growMatch_agree (data : Bytes) (idx pos : Nat) (ml : Int) (fuel len : Nat) :
    ∀ k, len ≤ k → k < growMatch data idx pos ml fuel len →
      data.getD (idx + k) 0 = data.getD (pos + k) 0 := by
  induction fuel generalizing len with
  | zero =>
    intro k hlo hhi
    unfold growMatch at hhi
    omega
  | succ fuel ih =>
    intro k hlo hhi
    unfold growMatch at hhi
    split at hhi
    · next h =>
      rcases Nat.eq_or_lt_of_le hlo with rfl | hlt
      · exact h.2
      · exact ih (len + 1) k hlt hhi
    · omega

/-- A match grown at an earlier position with the same key is genuine. -/
theorem mzGrow_genuine (cfg : LevelCfg) {idx : Nat}
    (hpos : pos + 2 < data.length) (hlt : idx < pos) (hnear : pos - idx ≤ MZ_MAX_OFFSET_V2)
    (hkey : key3 data idx = key3 data pos) :
    Genuine data pos (mzGrow cfg data idx pos) (pos - idx) := by
  have hbounds := growMatch_le data idx pos (mzMatchLimit cfg data pos)
    (mzMatchLimit cfg data pos).toNat MZ_MIN_MATCH
  have hagree := growMatch_agree data idx pos (mzMatchLimit cfg data pos)
    (mzMatchLimit cfg data pos).toNat MZ_MIN_MATCH
  have hleft : mzMatchLimit cfg data pos ≤ (data.length - pos : Nat) :=
    (min_le_left _ _).trans (cInt_le _)
  have hcap : mzMatchLimit cfg data pos ≤ (MZ_MAX_MATCH_V2 : Nat) :=
    (min_le_right _ _).trans (by exact_mod_cast Nat.min_le_right _ _)
  unfold mzGrow
  generalize growMatch data idx pos (mzMatchLimit cfg data pos)
    (mzMatchLimit cfg data pos).toNat MZ_MIN_MATCH = len at hbounds hagree ⊢
  generalize mzMatchLimit cfg data pos = ml at hbounds hleft hcap
  have h3 : MZ_MIN_MATCH = 3 := rfl
  have h130 : MZ_MAX_MATCH_V2 = 130 := rfl
  refine ⟨hbounds.1, by omega, by omega, by omega, by omega, hnear, fun k hk => ?_⟩
  rw [show pos - (pos - idx) = idx by omega]
  by_cases hsmall : k < 3
  · exact key3_eq hkey k hsmall
  · exact hagree k (by omega) hk

/-- The best match of a chain walk: none so far, or a genuine one. -/
def BestGenuine (data : Bytes) (pos : Nat) (best : Nat × Nat) : Prop :=
  best.1 = 0 ∨ Genuine data pos best.1 best.2

theorem Genuine.best (h : Genuine data pos len off) :
    BestGenuine data pos (len, off) := Or.inr h

theorem mzWalk_genuine (s : MzState) (hpos : pos + 2 < data.length)
    (c idx : Nat) (best : Nat × Nat) (hbest : BestGenuine data pos best) :
    BestGenuine data pos (mzWalk s data pos c idx best) := by
  induction c generalizing idx best with
  | zero => exact hbest
  | succ c ih =>
    unfold mzWalk
    split
    · next hidx =>
      split
      · next hcand =>
        have hgen := mzGrow_genuine (mzLevelCfg s.level) hpos hidx.2.1
          (hidx.2.2.trans (Nat.min_le_right _ _)) hcand.1
        split
        · exact hgen.best
        · exact ih _ _ hgen.best
      · exact ih _ _ hbest
    · exact hbest

/-- A match found is genuine. -/
theorem mzFind_genuine {s : MzState}
    (h : mzFind s data pos = some (len, off)) : Genuine data pos len off := by
  unfold mzFind at h
  split at h
  · cases h
  · next hpos =>
    dsimp only at h
    split at h
    · next hmin =>
      have hgen := mzWalk_genuine s (show pos + 2 < data.length by omega)
        (mzLevelCfg s.level).chain_depth (s.head (mzHash3 data pos)) (0, 0) (.inl rfl)
      rw [Option.some.inj h] at hmin hgen
      refine hgen.resolve_left fun hz => ?_
      simp only [MZ_MIN_MATCH] at hmin
      omega
    · cases h

/-- The match that a turn takes is genuine. -/
theorem mzChoose_genuine {s : MzState}
    (h : (mzChoose s data ip).1 = some (len, off)) : Genuine data ip len off := by
  unfold mzChoose at h
  split at h
  · cases h
  · next l o hfind =>
    -- every branch takes the match found first or none
    have hsame : (l, o) = (len, off) := by
      split at h
      · dsimp only at h
        split at h
        · dsimp only at h
          split at h
          · cases h
          · exact Option.some.inj h
        · exact Option.some.inj h
      · exact Option.some.inj h
    cases hsame
    exact mzFind_genuine hfind

/-- The decoder's window holds what a genuine match repeats. -/
theorem Genuine.repeats (h : Genuine data pos len off) :
    Repeats data pos len off := by
  intro i hi
  have hfits := h.fits
  have hback := h.inside
  have hpos := h.behind
  have hlen : (data.take (pos + i)).length = pos + i := by
    rw [length_take]
    omega
  have hring : ringDist MZ_WSIZE off = off := if_neg (by omega)
  unfold Lib.back
  rw [hring, hlen, if_pos (by omega), ← h.agree i hi,
    show pos + i - off = pos - off + i by omega]
  have hin : pos - off + i < (data.take (pos + i)).length := by omega
  rw [getD_eq_getElem _ _ hin, getElem_take, getD_eq_getElem]

/-! ### What the tokens decode to -/

/-- A literal, escaped or not, is read as its byte. -/
theorem literalV2_decodes {uncompsz : Nat} (b : UInt8) (rest : Bytes) {hist : Bytes}
    (hlt : hist.length < uncompsz) :
    decHist true uncompsz (literalV2 b ++ rest) hist
      = decHist true uncompsz rest (hist ++ [b]) := by
  unfold literalV2
  by_cases hb : b ≥ 0x80
  · rw [if_pos hb]
    exact decHist_escape hlt
  · rw [if_neg hb]
    exact decHist_literal hlt (UInt8.not_le.mp hb)

/-- The bytes of a match token whose offset fits. -/
theorem matchV2_eq (hoff : off >>> 8 ≤ 0x7E) (hmax : len ≤ MZ_MAX_MATCH_V2) :
    ∃ b0 b1 b2 : UInt8, matchV2 off len = [b0, b1, b2] ∧ b0.toNat = 128 + off / 256
      ∧ b1.toNat = off % 256 ∧ b2.toNat = len - 3 := by
  have h3 : MZ_MIN_MATCH = 3 := rfl
  have h130 : MZ_MAX_MATCH_V2 = 130 := rfl
  rw [Nat.shiftRight_eq_div_pow] at hoff
  have hhi : 0x80 ||| off >>> 8 = 128 + off / 256 := by
    rw [Nat.shiftRight_eq_div_pow, show (2 : Nat) ^ 8 = 256 from rfl]
    have := Nat.shiftLeft_add_eq_or_of_lt (show off / 256 < 2 ^ 7 by omega) 1
    rw [show (0x80 : Nat) = 1 <<< 7 from rfl, ← this]
  have hlo : off &&& 0xFF = off % 256 := Nat.and_two_pow_sub_one_eq_mod off 8
  -- an offset that fits has no bit 15
  have htop : (off >>> 15) &&& 1 = 0 := by
    rw [Nat.and_one_is_mod, Nat.shiftRight_eq_div_pow]
    omega
  have hlen : (len - MZ_MIN_MATCH) &&& 0x7F = len - 3 := by
    rw [show (0x7F : Nat) = 2 ^ 7 - 1 from rfl, Nat.and_two_pow_sub_one_eq_mod, h3]
    omega
  refine ⟨_, _, _, rfl, ?_, ?_, ?_⟩
  · rw [hhi, UInt8.toNat_ofNat_of_lt' (by show _ < 256; omega)]
  · rw [hlo, UInt8.toNat_ofNat_of_lt' (by show _ < 256; omega)]
  · rw [htop, hlen, Nat.zero_shiftLeft, Nat.zero_or,
      UInt8.toNat_ofNat_of_lt' (by show _ < 256; omega)]

/-- A match token is read with its offset and its length. -/
theorem matchV2_decodes {uncompsz : Nat} {rest hist : Bytes}
    (hlt : hist.length < uncompsz) (hoff : off >>> 8 ≤ 0x7E) (hmin : MZ_MIN_MATCH ≤ len)
    (hmax : len ≤ MZ_MAX_MATCH_V2) :
    decHist true uncompsz (matchV2 off len ++ rest) hist
      = decHist true uncompsz rest (copyBack uncompsz off len hist) := by
  have h3 : MZ_MIN_MATCH = 3 := rfl
  have h130 : MZ_MAX_MATCH_V2 = 130 := rfl
  obtain ⟨b0, b1, b2, htok, h0, h1, h2⟩ := matchV2_eq hoff hmax
  rw [Nat.shiftRight_eq_div_pow] at hoff
  have hofs : matchOffset true b0 b1 b2 = off := by
    rw [matchOffset_v2, h0, h1, h2]
    omega
  have hlen : matchLength true b2 = len := by
    rw [matchLength_v2, h2]
    omega
  rw [htok, cons_append, cons_append, singleton_append,
    decHist_match hlt (by omega) (by omega), hofs, hlen]

/-- What is written decodes to the bytes of `data` from `ip` to `ip'`. -/
def Covers (data written : Bytes) (ip ip' : Nat) : Prop :=
  ∀ rest, decHist true data.length (written ++ rest) (data.take ip)
    = decHist true data.length rest (data.take ip')

/-- Literals cover the bytes that they move over. -/
theorem literalRun_covers (data : Bytes) (count : Nat) (s : MzState) (hip : ip ≤ data.length) :
    Covers data (literalRun data count s ip).1 ip (literalRun data count s ip).2.2 ∧
      (literalRun data count s ip).2.2 = min (ip + count) data.length := by
  induction count generalizing s ip with
  | zero =>
    refine ⟨fun rest => rfl, ?_⟩
    rw [Nat.add_zero, Nat.min_eq_left hip]
    rfl
  | succ count ih =>
    unfold literalRun
    by_cases hlt : ip < data.length
    · obtain ⟨hcov, hend⟩ := ih (mzSlide data 1 s ip).1 hlt
      rw [if_pos hlt]
      refine ⟨fun rest => ?_, ?_⟩
      · dsimp only
        rw [append_assoc, literalV2_decodes, ← take_succ_getD data hlt]
        · exact hcov rest
        · rw [length_take]
          omega
      · dsimp only
        rw [hend]
        congr 1
        omega
    · rw [if_neg hlt]
      refine ⟨fun rest => rfl, ?_⟩
      dsimp only
      omega

/-- Moving over bytes ends at the last of them, or at the end. -/
theorem mzSlide_end (data : Bytes) (count : Nat) (s : MzState)
    (h : ip ≤ data.length) : (mzSlide data count s ip).2 = min (ip + count) data.length := by
  induction count generalizing s ip with
  | zero =>
    rw [Nat.add_zero, Nat.min_eq_left h]
    rfl
  | succ count ih =>
    unfold mzSlide
    by_cases hlt : ip < data.length
    · rw [if_pos hlt, ih (s.insert data ip) hlt]
      congr 1
      omega
    · rw [if_neg hlt]
      omega

/-- The tokens of one turn decode to the bytes it moves over, and it moves. -/
theorem mzTurn_covers (s : MzState) (hip : ip < data.length) :
    Covers data (mzTurn s data ip).1 ip (mzTurn s data ip).2.2 ∧
      ip < (mzTurn s data ip).2.2 ∧ (mzTurn s data ip).2.2 ≤ data.length := by
  have hrun : ∀ count s', 1 ≤ count →
      Covers data (literalRun data count s' ip).1 ip (literalRun data count s' ip).2.2 ∧
        ip < (literalRun data count s' ip).2.2 ∧
        (literalRun data count s' ip).2.2 ≤ data.length := by
    intro count s' hcount
    obtain ⟨hcov, hend⟩ := literalRun_covers data count s' hip.le
    exact ⟨hcov, by omega, by omega⟩
  unfold mzTurn
  rcases hchoose : mzChoose s data ip with ⟨_ | ⟨len, off⟩, s'⟩
  · exact hrun 1 s' le_rfl
  have hgen : Genuine data ip len off := mzChoose_genuine (congrArg Prod.fst hchoose)
  have hleast := hgen.least
  have hclamp : clampLength data ip len = len := by
    have hmost := hgen.most
    have hfits := hgen.fits
    unfold clampLength
    omega
  have h3 : MZ_MIN_MATCH = 3 := rfl
  dsimp only
  rw [hclamp, if_neg (by omega)]
  by_cases hfar : off >>> 8 > 0x7E
  · rw [if_pos hfar]
    exact hrun len s' (by omega)
  rw [if_neg hfar]
  rw [mzSlide_end data len s' hip.le, Nat.min_eq_left hgen.fits]
  refine ⟨fun rest => ?_, by omega, hgen.fits⟩
  have hlt : (data.take ip).length < data.length := by
    rw [length_take]
    omega
  rw [matchV2_decodes hlt (by omega) hgen.least hgen.most, copyBack_take hgen.fits hgen.repeats]

/-- The loop appends tokens that decode to the rest of the data, whatever follows them. -/
theorem mzLoop_covers (turns : Nat) (s : MzState) {out' : Bytes}
    (hip : ip ≤ data.length) (hturns : data.length ≤ ip + turns)
    (h : mzLoop data turns s ip out = .ok out') :
    ∃ tokens, out' = out ++ tokens ∧ Covers data tokens ip data.length := by
  induction turns generalizing s ip out with
  | zero =>
    cases h
    obtain rfl : ip = data.length := by omega
    exact ⟨[], (append_nil _).symm, fun rest => rfl⟩
  | succ turns ih =>
    unfold mzLoop at h
    by_cases hlt : ip < data.length
    · rw [if_pos hlt] at h
      split at h
      · cases h
      · obtain ⟨hcov, hmoves, hle⟩ := mzTurn_covers s hlt
        obtain ⟨tokens, hout, htokens⟩ := ih (mzTurn s data ip).2.1 hle (by omega) h
        refine ⟨(mzTurn s data ip).1 ++ tokens, ?_, fun rest => ?_⟩
        · rw [hout, append_assoc]
        · rw [append_assoc, hcov]
          exact htokens rest
    · rw [if_neg hlt] at h
      cases h
      obtain rfl : ip = data.length := by omega
      exact ⟨[], (append_nil _).symm, fun rest => rfl⟩

/-- What `mz_compress_lz77` writes: a header and tokens that decode to the data. -/
theorem mzCompressLz77_ok {level : Int} {r : Int} (h : mzCompressLz77 data level = .ok (r, out)) :
    data ≠ [] ∧ r = cInt out.length ∧ ∃ tokens,
      out = [0x6D, 0x5A] ++ leBytes 4 data.length ++ tokens ∧
        Covers data tokens 0 data.length := by
  unfold mzCompressLz77 at h
  by_cases hnil : data = []
  · rw [if_pos hnil] at h
    cases h
  rw [if_neg hnil] at h
  dsimp only at h
  split at h
  · cases h
  · next out' hloop =>
    obtain ⟨rfl, rfl⟩ := Prod.mk.inj (Except.ok.inj h)
    obtain ⟨tokens, hout, hcov⟩ :=
      mzLoop_covers data.length _ (Nat.zero_le _) (Nat.le_add_left _ _) hloop
    exact ⟨hnil, rfl, tokens, hout, hcov⟩

/-- A compressed string is decoded, whatever follows it. -/
theorem mzCompressLz77_decodes {level r : Int} (hlen : data.length < 2 ^ 32)
    (h : mzCompressLz77 data level = .ok (r, out)) (tail : Bytes) :
    mzDecompressLz77 (out ++ tail) = .ok (cInt data.length, data) := by
  obtain ⟨-, -, tokens, rfl, hcov⟩ := mzCompressLz77_ok h
  have hdec := hcov tail
  rw [take_zero, take_of_length_le le_rfl, decHist_done (lt_irrefl _)] at hdec
  rw [mzDecompressLz77_stream, Nat.mod_eq_of_lt hlen, hdec]
  rfl

/-! ### Data without repetitions -/

/-- No three bytes occur at two places. -/
def FreshTriples (data : Bytes) : Prop :=
  ∀ i j, i < j → j + 2 < data.length →
    ∃ k < 3, data.getD (i + k) 0 ≠ data.getD (j + k) 0

theorem FreshTriples.find_none (h : FreshTriples data) (s : MzState) (pos : Nat) :
    mzFind s data pos = none := by
  rcases hfind : mzFind s data pos with _ | ⟨len, off⟩
  · rfl
  have hgen := mzFind_genuine hfind
  have hleast : 3 ≤ len := hgen.least
  have hfits := hgen.fits
  have hbehind := hgen.behind
  have hinside := hgen.inside
  obtain ⟨k, hk, hne⟩ := h (pos - off) pos (by omega) (by omega)
  exact absurd (hgen.agree k (by omega)) hne

theorem length_literalV2_le (b : UInt8) : (literalV2 b).length ≤ 2 := by
  unfold literalV2
  split <;> simp

/-- The loop codes such data in literals. -/
theorem FreshTriples.loop (h : FreshTriples data) (turns : Nat) (s : MzState)
    (hip : ip ≤ data.length) (hturns : data.length ≤ ip + turns) (hout : out.length ≤ 6 + 2 * ip) :
    mzLoop data turns s ip out = .ok (out ++ (data.drop ip).flatMap literalV2) := by
  induction turns generalizing s ip out with
  | zero =>
    rw [show ip = data.length by omega, drop_length]
    simp [mzLoop]
  | succ turns ih =>
    unfold mzLoop
    by_cases hlt : ip < data.length
    · have hchoose : mzChoose s data ip = (none, s) := by
        unfold mzChoose
        rw [h.find_none]
      have hturn : mzTurn s data ip
          = (literalV2 (data.getD ip 0), (mzSlide data 1 s ip).1, ip + 1) := by
        unfold mzTurn
        rw [hchoose]
        simp [literalRun, hlt]
      have hroom : mzRoom s data ip = (literalV2 (data.getD ip 0)).length := by
        unfold mzRoom
        rw [hchoose]
        rfl
      have htwo := length_literalV2_le (data.getD ip 0)
      rw [if_pos hlt, hroom, if_neg (by omega), hturn]
      dsimp only
      rw [ih _ hlt (by omega) (by rw [length_append]; omega), append_assoc,
        drop_eq_getElem_cons hlt, flatMap_cons, getD_eq_getElem _ _ hlt]
    · rw [if_neg hlt, show ip = data.length by omega, drop_length]
      simp

/-- Such data is compressed to the header and its literals. -/
theorem mzCompressLz77_fresh (h : FreshTriples data) (hne : data ≠ []) (level : Int) :
    mzCompressLz77 data level
      = .ok (cInt (6 + (data.flatMap literalV2).length),
          [0x6D, 0x5A] ++ leBytes 4 data.length ++ data.flatMap literalV2) := by
  unfold mzCompressLz77
  rw [if_neg hne]
  dsimp only
  rw [h.loop data.length _ (Nat.zero_le _) (Nat.le_add_left _ _) (by simp), drop_zero]
  dsimp only
  rw [length_append]
  rfl

/-! ### Room in the output -/

/-- Literals take at most two bytes for each byte that they move over. -/
theorem length_literalRun_le (data : Bytes) (count : Nat) (s : MzState) (ip : Nat) :
    (literalRun data count s ip).1.length + 2 * ip ≤ 2 * (literalRun data count s ip).2.2 := by
  induction count generalizing s ip with
  | zero => simp [literalRun]
  | succ count ih =>
    unfold literalRun
    by_cases hlt : ip < data.length
    · have hrest := ih (mzSlide data 1 s ip).1 (ip + 1)
      have htwo := length_literalV2_le (data.getD ip 0)
      rw [if_pos hlt]
      generalize literalRun data count (mzSlide data 1 s ip).1 (ip + 1) = run at hrest ⊢
      show (literalV2 (data.getD ip 0) ++ run.1).length + 2 * ip ≤ 2 * run.2.2
      rw [length_append]
      omega
    · rw [if_neg hlt]
      simp

/-- So does a turn: a match token takes three bytes and stands for three or more. -/
theorem length_mzTurn_le (s : MzState) (hip : ip < data.length) :
    (mzTurn s data ip).1.length + 2 * ip ≤ 2 * (mzTurn s data ip).2.2 := by
  unfold mzTurn
  rcases mzChoose s data ip with ⟨_ | ⟨len, off⟩, s'⟩
  · exact length_literalRun_le data 1 s' ip
  dsimp only
  by_cases hshort : clampLength data ip len < MZ_MIN_MATCH
  · rw [if_pos hshort]
    exact length_literalRun_le data _ s' ip
  rw [if_neg hshort]
  by_cases hfar : off >>> 8 > 0x7E
  · rw [if_pos hfar]
    exact length_literalRun_le data _ s' ip
  · rw [if_neg hfar]
    have htoken : (matchV2 off (clampLength data ip len)).length = 3 := rfl
    have h3 : MZ_MIN_MATCH = 3 := rfl
    have hfits : clampLength data ip len ≤ data.length - ip := Nat.min_le_right _ _
    rw [htoken, mzSlide_end data _ s' hip.le]
    omega

theorem mzRoom_le (s : MzState) (data : Bytes) (ip : Nat) : mzRoom s data ip ≤ 3 := by
  unfold mzRoom
  have htwo := length_literalV2_le (data.getD ip 0)
  split <;> omega

/-- The output never outgrows six bytes and two for each byte read, whatever the chains hold, so
    that no turn is refused. -/
theorem mzLoop_room (turns : Nat) (s : MzState)
    (hip : ip ≤ data.length) (hout : out.length ≤ 6 + 2 * ip) :
    ∃ out', mzLoop data turns s ip out = .ok out' ∧ out'.length ≤ 6 + 2 * data.length := by
  induction turns generalizing s ip out with
  | zero => exact ⟨out, rfl, by omega⟩
  | succ turns ih =>
    unfold mzLoop
    by_cases hlt : ip < data.length
    · obtain ⟨-, -, hle⟩ := mzTurn_covers s hlt
      have hroom := mzRoom_le s data ip
      have hturn := length_mzTurn_le s hlt
      rw [if_pos hlt, if_neg (by omega)]
      apply ih _ hle
      rw [length_append]
      omega
    · rw [if_neg hlt]
      exact ⟨out, rfl, by omega⟩

/-- A loop that starts behind the header fills a buffer that is decoded. -/
theorem mzLoop_decodes (hlen : data.length < 2 ^ 31) (s : MzState) :
    ∃ out, mzLoop data data.length s 0 ([0x6D, 0x5A] ++ leBytes 4 data.length) = .ok out ∧
      out.length ≤ data.length + data.length + 20 ∧
      mzDecompressLz77 out = .ok ((data.length : Int), data) := by
  have hheader : ([0x6D, 0x5A] ++ leBytes 4 data.length).length ≤ 6 + 2 * 0 := by simp
  obtain ⟨out, hloop, hroom⟩ := mzLoop_room data.length s (Nat.zero_le data.length) hheader
  refine ⟨out, hloop, by omega, ?_⟩
  obtain ⟨tokens, rfl, hcov⟩ := mzLoop_covers data.length s (Nat.zero_le _)
    (Nat.le_add_left _ _) hloop
  have hdec := hcov []
  rw [take_zero, take_of_length_le le_rfl, decHist_done (lt_irrefl _)] at hdec
  rw [← append_nil (_ ++ tokens), mzDecompressLz77_stream, Nat.mod_eq_of_lt (hlen.trans (by decide)), hdec, ← (cInt_eq_iff _).mpr hlen]
  rfl

/-- What `mz_compress_lz77` writes fits its buffer and is decoded to the data, at every level;
    the same holds of its loop from any state of the hash chains. -/
theorem mzCompressLz77_roundtrip {data : Bytes} (hne : data ≠ []) (hlen : data.length < 2 ^ 31)
    (level : Int) :
    (∀ s : MzState, ∃ out,
      mzLoop data data.length s 0 ([0x6D, 0x5A] ++ leBytes 4 data.length) = .ok out ∧
        out.length ≤ data.length + data.length + 20 ∧
        mzDecompressLz77 out = .ok ((data.length : Int), data)) ∧
    ∃ out, mzCompressLz77 data level = .ok (cInt out.length, out) ∧
      out.length ≤ data.length + data.length + 20 ∧
      mzDecompressLz77 out = .ok ((data.length : Int), data) := by
  refine ⟨mzLoop_decodes hlen, ?_⟩
  obtain ⟨out, hloop, hroom, hdec⟩ :=
    mzLoop_decodes hlen (MzState.init (if level < 1 then 1 else if level > 9 then 9 else level))
  refine ⟨out, ?_, hroom, hdec⟩
  unfold mzCompressLz77
  rw [if_neg hne]
  dsimp only
  rw [hloop]

/-- Three bytes, the last of them escaped. -/
theorem mzCompressLz77_roundtrip_three :
    ∃ out, mzCompressLz77 [1, 2, 0xFE] 9 = .ok (cInt out.length, out) ∧ out.length ≤ 26 ∧
      mzDecompressLz77 out = .ok (3, [1, 2, 0xFE]) :=
  (mzCompressLz77_roundtrip (by decide) (by decide) 9).2

end MeuOS.Compress
