import MeuOS.Lib.RingBuffer

namespace MeuOS.Compress

open MeuOS.Lib List Bool

/-!
# The LZ77 stream decoder (`mz_lz77.c`)

`mz_decompress_lz77` reads the token stream of both the block codec and the solid codec:
a two-byte magic, the uncompressed size in four bytes, then literals, escaped literals
and matches into a 64 KiB window.

* `decLoop` — the loop of the source, with its window;
* `decHist` — the same loop over the bytes written so far, without a window;
* `decLoop_hist` — the first computes the second.
-/

/-! ### Results -/

/-- The error codes `MZ_ERR_*`. -/
inductive MzErr where
  | memory
  | data
  | param
  | stream
  | codec
  | crypt
  deriving DecidableEq, Repr

theorem bind_ok {ε α β : Type} {x : Except ε α} {f : α → Except ε β} {b : β}
    (h : (x >>= f) = .ok b) : ∃ a, x = .ok a ∧ f a = .ok b := by
  rcases x with e | a
  · cases h
  · exact ⟨a, rfl, h⟩

/-- The negative number that stands for an error code. -/
def MzErr.code : MzErr → Int
  | .memory => -1
  | .data => -2
  | .param => -3
  | .stream => -4
  | .codec => -5
  | .crypt => -6

/-- The conversion `(int)n` of a size. -/
def cInt (n : Nat) : Int := (n : Int).bmod (2 ^ 32)

/-- A size that fits an `int` is converted to itself, a larger one below `2 ^ 32` to a
    negative number. -/
theorem cInt_eq_iff (n : Nat) : cInt n = n ↔ n < 2 ^ 31 := by
  unfold cInt
  rw [Int.bmod_def]
  split <;> omega

/-! ### The decoder -/

/-- `MZ_WSIZE`, the size of the window. -/
def MZ_WSIZE : Nat := 65536

/-- `MZ_MIN_MATCH`, the length a match token of length field 0 stands for. -/
def MZ_MIN_MATCH : Nat := 3

/-- The local state of `mz_decompress_lz77`: the bytes written, the window and the
    write position in it. -/
structure DecSt where
  out : Bytes
  win : Nat → UInt8
  wp : Nat

/-- The state before the first token. -/
def DecSt.init : DecSt := { out := [], win := fun _ => 0, wp := 0 }

/-- `out[op++] = b; win[wp] = b; wp = (wp + 1) & MZ_WMASK`. -/
def DecSt.put (s : DecSt) (b : UInt8) : DecSt :=
  { out := s.out ++ [b]
    win := Function.update s.win s.wp b
    wp := (s.wp + 1) % MZ_WSIZE }

@[simp] theorem DecSt.put_out (s : DecSt) (b : UInt8) : (s.put b).out = s.out ++ [b] := rfl

/-- The copy loop of a match token: `length` bytes from `offset` back, up to the
    uncompressed size. -/
def copyMatch (uncompsz offset : Nat) : Nat → DecSt → DecSt
  | 0, s => s
  | length + 1, s =>
    if s.out.length < uncompsz then
      copyMatch uncompsz offset length
        (s.put (s.win ((s.wp + MZ_WSIZE - offset) % MZ_WSIZE)))
    else s

/-- The offset of a match token. -/
def matchOffset (isV2 : Bool) (b0 b1 b2 : UInt8) : Nat :=
  if isV2 then
    ((b0.toNat &&& 0x7F) <<< 8) ||| b1.toNat ||| (((b2.toNat >>> 7) &&& 1) <<< 15)
  else ((b0.toNat &&& 0x7F) <<< 8) ||| b1.toNat

/-- The length of a match token. -/
def matchLength (isV2 : Bool) (b2 : UInt8) : Nat :=
  if isV2 then (b2.toNat &&& 0x7F) + MZ_MIN_MATCH else b2.toNat + MZ_MIN_MATCH

/-- Does `b0` announce an escaped literal? -/
def isEscape (isV2 : Bool) (b0 : UInt8) : Bool :=
  (b0 == 0xFF && isV2) || (b0 == 0x80 && !isV2)

/-- The token loop.  The list is what is left of the input. -/
def decLoop (isV2 : Bool) (uncompsz : Nat) : Bytes → DecSt → Except MzErr DecSt
  | [], s => .ok s
  | b0 :: rest, s =>
    if s.out.length < uncompsz then
      if b0 < 0x80 then decLoop isV2 uncompsz rest (s.put b0)
      else if isEscape isV2 b0 then
        match rest with
        | [] => .error .data
        | val :: rest => decLoop isV2 uncompsz rest (s.put val)
      else
        match rest with
        | b1 :: b2 :: rest =>
          -- only the first format ends with an offset of zero
          if !isV2 && matchOffset isV2 b0 b1 b2 == 0 then .ok s
          else decLoop isV2 uncompsz rest
            (copyMatch uncompsz (matchOffset isV2 b0 b1 b2) (matchLength isV2 b2) s)
        | _ => .error .data
    else .ok s

/-- `mz_decompress_lz77`: the returned `int` and the bytes of `*result`.  Allocation
    succeeds. -/
def mzDecompressLz77 : Bytes → Except MzErr (Int × Bytes)
  | m0 :: m1 :: s0 :: s1 :: s2 :: s3 :: input =>
    if m1 = 0x5A ∧ (m0 = 0x4D ∨ m0 = 0x6D) then do
      let s ← decLoop (m0 == 0x6D) (leNat [s0, s1, s2, s3]) input .init
      return (cInt s.out.length, s.out)
    else .error .data
  | _ => .error .data

/-! ### Decoding without a window -/

/-- The bytes a match token of offset `offset` adds. -/
def copyBack (uncompsz offset : Nat) : Nat → Bytes → Bytes
  | 0, hist => hist
  | length + 1, hist =>
    if hist.length < uncompsz then
      copyBack uncompsz offset length (hist ++ [back hist (ringDist MZ_WSIZE offset)])
    else hist

/-- The token loop over the bytes written so far. -/
def decHist (isV2 : Bool) (uncompsz : Nat) : Bytes → Bytes → Except MzErr Bytes
  | [], hist => .ok hist
  | b0 :: rest, hist =>
    if hist.length < uncompsz then
      if b0 < 0x80 then decHist isV2 uncompsz rest (hist ++ [b0])
      else if isEscape isV2 b0 then
        match rest with
        | [] => .error .data
        | val :: rest => decHist isV2 uncompsz rest (hist ++ [val])
      else
        match rest with
        | b1 :: b2 :: rest =>
          if !isV2 && matchOffset isV2 b0 b1 b2 == 0 then .ok hist
          else decHist isV2 uncompsz rest
            (copyBack uncompsz (matchOffset isV2 b0 b1 b2) (matchLength isV2 b2) hist)
        | _ => .error .data
    else .ok hist

/-- The window of `s` holds the end of what `s` wrote. -/
def DecSt.Windowed (s : DecSt) : Prop := RingOf MZ_WSIZE s.win s.wp s.out

theorem DecSt.Windowed.init : DecSt.init.Windowed := RingOf.empty _

variable {s : DecSt} {offset uncompsz ip length : Nat} {isV2 : Bool} {hist rest data : Bytes}

theorem DecSt.Windowed.put (h : s.Windowed) (b : UInt8) : (s.put b).Windowed :=
  RingOf.push h (by decide) b

theorem matchOffset_lt (isV2 : Bool) (b0 b1 b2 : UInt8) :
    matchOffset isV2 b0 b1 b2 < MZ_WSIZE := by
  have h0 : (b0.toNat &&& 0x7F) <<< 8 < 2 ^ 15 := by
    have : b0.toNat &&& 0x7F < 2 ^ 7 := Nat.and_lt_two_pow _ (by decide)
    rw [Nat.shiftLeft_eq]
    omega
  have h1 : b1.toNat < 2 ^ 15 := by have := b1.toNat_lt; omega
  have h2 : ((b2.toNat >>> 7) &&& 1) <<< 15 < 2 ^ 16 := by
    have : (b2.toNat >>> 7) &&& 1 < 2 ^ 1 := Nat.and_lt_two_pow _ (by decide)
    rw [Nat.shiftLeft_eq]
    omega
  have h01 : (b0.toNat &&& 0x7F) <<< 8 ||| b1.toNat < 2 ^ 15 := Nat.or_lt_two_pow h0 h1
  show _ < 2 ^ 16
  unfold matchOffset
  split
  · exact Nat.or_lt_two_pow (by omega) h2
  · omega

/-- Copying through the window copies from the bytes written. -/
theorem copyMatch_spec (h : s.Windowed) (uncompsz : Nat) (ho : offset < MZ_WSIZE) (length : Nat) :
    (copyMatch uncompsz offset length s).Windowed ∧
      (copyMatch uncompsz offset length s).out = copyBack uncompsz offset length s.out := by
  induction length generalizing s with
  | zero => exact ⟨h, rfl⟩
  | succ length ih =>
    unfold copyMatch copyBack
    split
    · have hb := RingOf.read h (by decide) ho
      rw [hb]
      exact ih (h.put _)
    · exact ⟨h, rfl⟩

/-- The loop over the window computes the loop over the bytes written. -/
theorem decLoop_hist (isV2 : Bool) (uncompsz : Nat) (input : Bytes) (h : s.Windowed) :
    (decLoop isV2 uncompsz input s).map DecSt.out = decHist isV2 uncompsz input s.out := by
  induction input, s using decLoop.induct isV2 uncompsz with
  | case1 s => rfl
  | case2 b0 rest s hlt hlit ih =>
    rw [decLoop.eq_def, decHist.eq_def]
    simpa only [hlt, hlit, ↓reduceIte, DecSt.put_out] using ih (h.put b0)
  | case3 b0 s hlt hlit hesc =>
    simp only [decLoop, decHist, hlt, hlit, hesc, ↓reduceIte]
    rfl
  | case4 b0 s hlt hlit hesc val rest ih =>
    simpa only [decLoop, decHist, hlt, hlit, hesc, ↓reduceIte, DecSt.put_out]
      using ih (h.put val)
  | case5 b0 s hlt hlit hesc b1 b2 rest hend =>
    simp only [decLoop, decHist, hlt, hlit, hesc, hend, ↓reduceIte, false_eq_true]
    rfl
  | case6 b0 s hlt hlit hesc b1 b2 rest hend ih =>
    obtain ⟨hw, hout⟩ := copyMatch_spec h uncompsz (matchOffset_lt isV2 b0 b1 b2)
      (matchLength isV2 b2)
    have := ih hw
    rw [hout] at this
    simpa only [decLoop, decHist, hlt, hlit, hesc, hend, ↓reduceIte, false_eq_true]
      using this
  | case7 b0 rest s hlt hlit hesc hshort =>
    -- fewer than two bytes follow the first byte of a match token
    have hdec : decHist isV2 uncompsz (b0 :: rest) s.out = .error .data := by
      match rest, hshort with
      | [], _ => simp only [decHist, hlt, hlit, hesc, ↓reduceIte, false_eq_true]
      | [_], _ => simp only [decHist, hlt, hlit, hesc, ↓reduceIte, false_eq_true]
      | b1 :: b2 :: r, hs => exact absurd rfl (hs b1 b2 r)
    have hloop : decLoop isV2 uncompsz (b0 :: rest) s = .error .data := by
      match rest, hshort with
      | [], _ => simp only [decLoop, hlt, hlit, hesc, ↓reduceIte, false_eq_true]
      | [_], _ => simp only [decLoop, hlt, hlit, hesc, ↓reduceIte, false_eq_true]
      | b1 :: b2 :: r, hs => exact absurd rfl (hs b1 b2 r)
    rw [hdec, hloop]
    rfl
  | case8 b0 rest s hlt =>
    rw [decLoop.eq_def, decHist.eq_def]
    simp only [hlt, ↓reduceIte]
    rfl

/-! ### What tokens of the second format decode to -/

/-- The fields of a match token in arithmetic. -/
theorem matchOffset_v2 (b0 b1 b2 : UInt8) :
    matchOffset true b0 b1 b2
      = b0.toNat % 128 * 256 + b1.toNat + b2.toNat / 128 * 32768 := by
  have h0 : b0.toNat &&& 0x7F = b0.toNat % 128 := Nat.and_two_pow_sub_one_eq_mod _ 7
  have h2 : (b2.toNat >>> 7) &&& 1 = b2.toNat / 128 := by
    have hb : b2.toNat < 256 := b2.toNat_lt
    rw [Nat.and_one_is_mod, Nat.shiftRight_eq_div_pow]
    omega
  have h1 : b1.toNat < 2 ^ 8 := b1.toNat_lt
  unfold matchOffset
  rw [if_pos rfl, h0, h2, ← Nat.shiftLeft_add_eq_or_of_lt h1, Nat.or_comm,
    ← Nat.shiftLeft_add_eq_or_of_lt (by rw [Nat.shiftLeft_eq]; omega), Nat.shiftLeft_eq,
    Nat.shiftLeft_eq]
  omega

theorem matchLength_v2 (b2 : UInt8) : matchLength true b2 = b2.toNat % 128 + 3 := by
  unfold matchLength
  rw [if_pos rfl, show b2.toNat &&& 0x7F = b2.toNat % 128 from
    Nat.and_two_pow_sub_one_eq_mod _ 7]
  rfl

theorem prefix_copyBack (uncompsz offset length : Nat) (hist : Bytes) :
    hist <+: copyBack uncompsz offset length hist := by
  induction length generalizing hist with
  | zero => exact prefix_rfl
  | succ length ih =>
    unfold copyBack
    split
    · exact (prefix_append hist _).trans (ih _)
    · exact prefix_rfl

/-- Decoding only appends to what is written. -/
theorem prefix_decHist {input r : Bytes}
    (h : decHist isV2 uncompsz input hist = .ok r) : hist <+: r := by
  induction input, hist using decHist.induct isV2 uncompsz with
  | case1 hist => exact (Except.ok.inj h) ▸ prefix_rfl
  | case2 b0 rest hist hlt hlit ih =>
    rw [decHist.eq_def] at h
    simp only [hlt, hlit, ↓reduceIte] at h
    exact (prefix_append _ _).trans (ih h)
  | case3 b0 hist hlt hlit hesc =>
    simp only [decHist, hlt, hlit, hesc, ↓reduceIte] at h
    cases h
  | case4 b0 hist hlt hlit hesc val rest ih =>
    simp only [decHist, hlt, hlit, hesc, ↓reduceIte] at h
    exact (prefix_append _ _).trans (ih h)
  | case5 b0 hist hlt hlit hesc b1 b2 rest hend =>
    simp only [decHist, hlt, hlit, hesc, hend, ↓reduceIte, false_eq_true] at h
    exact (Except.ok.inj h) ▸ prefix_rfl
  | case6 b0 hist hlt hlit hesc b1 b2 rest hend ih =>
    simp only [decHist, hlt, hlit, hesc, hend, ↓reduceIte, false_eq_true] at h
    exact (prefix_copyBack _ _ _ _).trans (ih h)
  | case7 b0 rest hist hlt hlit hesc hshort =>
    match rest, hshort, h with
    | [], _, h =>
      simp only [decHist, hlt, hlit, hesc, ↓reduceIte, false_eq_true] at h
      cases h
    | [_], _, h =>
      simp only [decHist, hlt, hlit, hesc, ↓reduceIte, false_eq_true] at h
      cases h
    | b1 :: b2 :: r, hs, _ => exact absurd rfl (hs b1 b2 r)
  | case8 b0 rest hist hlt =>
    rw [decHist.eq_def] at h
    simp only [hlt, ↓reduceIte] at h
    exact (Except.ok.inj h) ▸ prefix_rfl

theorem decHist_literal {b : UInt8} (hlt : hist.length < uncompsz) (hb : b < 0x80) :
    decHist isV2 uncompsz (b :: rest) hist = decHist isV2 uncompsz rest (hist ++ [b]) := by
  rw [decHist.eq_def]
  simp only [hlt, hb, ↓reduceIte]

theorem decHist_escape {b : UInt8} (hlt : hist.length < uncompsz) :
    decHist true uncompsz (0xFF :: b :: rest) hist
      = decHist true uncompsz rest (hist ++ [b]) := by
  have hlit : ¬ (0xFF : UInt8) < 0x80 := by decide
  have hesc : isEscape true 0xFF = true := rfl
  simp only [decHist, hlt, hlit, hesc, ↓reduceIte]

/-- A match token of the second format. -/
theorem decHist_match {b0 b1 b2 : UInt8}
    (hlt : hist.length < uncompsz) (hlo : 0x80 ≤ b0.toNat) (hhi : b0.toNat < 0xFF) :
    decHist true uncompsz (b0 :: b1 :: b2 :: rest) hist
      = decHist true uncompsz rest
          (copyBack uncompsz (matchOffset true b0 b1 b2) (matchLength true b2) hist) := by
  have hlit : ¬ b0 < 0x80 := by rw [UInt8.lt_iff_toNat_lt]; show ¬ b0.toNat < 128; omega
  have hesc : isEscape true b0 = false := by
    have hne : b0 ≠ 0xFF := fun h => by rw [h] at hhi; exact absurd hhi (by decide)
    simp [isEscape, hne]
  simp only [decHist, hlt, hlit, hesc, ↓reduceIte, Bool.not_true, Bool.false_and,
    Bool.false_eq_true]

/-- Once all bytes are written the rest of the input is not looked at. -/
theorem decHist_done {input : Bytes}
    (h : ¬ hist.length < uncompsz) : decHist isV2 uncompsz input hist = .ok hist := by
  cases input with
  | nil => rfl
  | cons b0 rest =>
    rw [decHist.eq_def]
    simp only [h, ↓reduceIte]

/-! ### Copies that reproduce a string -/

/-- From `ip` on, `length` bytes of `data` repeat those `offset` places before. -/
def Repeats (data : Bytes) (ip length offset : Nat) : Prop :=
  ∀ i < length, data.getD (ip + i) 0
    = back (data.take (ip + i)) (ringDist MZ_WSIZE offset)

instance (data : Bytes) (ip length offset : Nat) : Decidable (Repeats data ip length offset) :=
  inferInstanceAs (Decidable (∀ i < length, _))

theorem take_succ_getD (data : Bytes) {i : Nat} (h : i < data.length) :
    data.take (i + 1) = data.take i ++ [data.getD i 0] := by
  rw [take_succ_eq_append_getElem h, getD_eq_getElem _ _ h]

theorem repeats_succ :
    Repeats data ip (length + 1) offset ↔
      data.getD ip 0 = back (data.take ip) (ringDist MZ_WSIZE offset)
        ∧ Repeats data (ip + 1) length offset := by
  constructor
  · intro h
    refine ⟨h 0 (Nat.succ_pos _), fun i hi => ?_⟩
    rw [Nat.add_assoc, Nat.add_comm 1 i]
    exact h (i + 1) (Nat.succ_lt_succ hi)
  · rintro ⟨h0, hs⟩ i hi
    cases i with
    | zero => exact h0
    | succ i =>
      rw [Nat.add_comm i 1, ← Nat.add_assoc]
      exact hs i (Nat.lt_of_succ_lt_succ hi)

/-- A copy continues `data` as long as the bytes repeat. -/
theorem copyBack_take (hlen : ip + length ≤ data.length) (h : Repeats data ip length offset) :
    copyBack data.length offset length (data.take ip) = data.take (ip + length) := by
  induction length generalizing ip with
  | zero => rfl
  | succ length ih =>
    obtain ⟨h0, hs⟩ := repeats_succ.mp h
    unfold copyBack
    rw [if_pos (by rw [length_take]; omega), ← h0, ← take_succ_getD data (by omega),
      ih (by omega) hs]
    congr 1
    omega

/-- A copy whose bytes stay inside `data` repeats bytes of `data`. -/
theorem repeats_of_copyBack (hlen : ip + length ≤ data.length)
    (h : copyBack data.length offset length (data.take ip) <+: data) :
    Repeats data ip length offset := by
  induction length generalizing ip with
  | zero => exact fun i hi => absurd hi (Nat.not_lt_zero i)
  | succ length ih =>
    unfold copyBack at h
    rw [if_pos (by rw [length_take]; omega)] at h
    have hpre := (prefix_copyBack _ _ _ _).trans h
    -- the first byte copied is the byte of `data` at its place
    have h0 : data.getD ip 0 = back (data.take ip) (ringDist MZ_WSIZE offset) := by
      rw [prefix_iff_eq_take, length_append, length_take,
        Nat.min_eq_left (by omega), length_singleton,
        take_succ_getD data (by omega)] at hpre
      exact (singleton_inj.mp (append_cancel_left hpre)).symm
    refine repeats_succ.mpr ⟨h0, ih (by omega) ?_⟩
    rwa [take_succ_getD data (by omega), h0]

end MeuOS.Compress
