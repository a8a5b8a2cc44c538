import MeuOS.Compress.HuffmanTree

namespace MeuOS.Compress

open MeuOS.Lib List Function UInt32

/-!
# Huffman coding: round trip

* `Coded` — canonical codes of at most 32 bits form a prefix code;
* `BitWriter.Holds` — the writer as the list of bits written;
* `BitReader.Pending` — the reader as the list of bits left;
* `decodeSym_word` — a code word at the front is read as its symbol, by the table of ten bits or
  by the tree;
* `HufAgree` — the code that both sides build, complete or of a single symbol;
* `mzHuf_reads` — the decoder gives back the input and, with more room, bytes made of the padding;
* `mzHuf_roundtrip_iff` — it does exactly where no counter overflows to zero.
-/

/-! ### Codes -/

/-- The code word of a symbol. -/
def hufWord (c : HufCode) : List Bool := bitsOf c.len c.code.toNat

theorem map_assignCodes (code : UInt32) (prev : Nat) (xs : List (UInt8 × Nat)) :
    (assignCodes code prev xs).map (fun c => (c.sym, c.len)) = xs := by
  induction xs generalizing code prev with
  | nil => rfl
  | cons x xs ih =>
    rw [assignCodes, map_cons, ih]

variable {code : UInt32} {n i cap : Nat} {bw bw' : BitWriter} {bits : List Bool} {br : BitReader}
  {c : HufCode} {cs : List HufCode} {input out : Bytes} {s a : UInt8}

theorem toNat_shiftLeft_of_lt (hn : n < 32)
    (h : code.toNat * 2 ^ n < 2 ^ 32) : (code <<< UInt32.ofNat n).toNat = code.toNat * 2 ^ n := by
  rw [UInt32.toNat_shiftLeft, UInt32.toNat_ofNat', Nat.mod_eq_of_lt (show n < 2 ^ 32 by omega),
    Nat.mod_eq_of_lt hn, Nat.shiftLeft_eq, Nat.mod_eq_of_lt h]

/-- The codes in 32 bits are the canonical numbers, while the Kraft sum is at most one. -/
theorem assignCodes_canonical {xs : List (UInt8 × Nat)} {prev : Nat}
    (hasc : Ascends prev 32 (xs.map Prod.snd)) (hpos : ∀ x ∈ xs, 0 < x.2)
    (hstart : prev = 0 → code = 0)
    (hkraft : code.toNat * 2 ^ (32 - prev) + kraftSum 32 (xs.map Prod.snd) ≤ 2 ^ 32) :
    (assignCodes code prev xs).map (fun c => (c.len, c.code.toNat))
      = (xs.map Prod.snd).zip (canonicalFrom code.toNat prev (xs.map Prod.snd)) := by
  induction xs generalizing code prev with
  | nil => rfl
  | cons x xs ih =>
    obtain ⟨sym, len⟩ := x
    rw [map_cons] at hasc hkraft ⊢
    dsimp only at hasc hkraft ⊢
    obtain ⟨hp, hM, hrest⟩ := hasc.cons
    have hlen : 0 < len := hpos (sym, len) mem_cons_self
    have hscale := scale_succ_eq code.toNat hp hM
    have hsum : kraftSum 32 (len :: xs.map Prod.snd)
        = 2 ^ (32 - len) + kraftSum 32 (xs.map Prod.snd) := by
      unfold kraftSum
      rw [map_cons, sum_cons]
    rw [hsum] at hkraft
    -- the new number fits its length
    have hfit : code.toNat * 2 ^ (len - prev) + 1 ≤ 2 ^ len := by
      have hle : (code.toNat * 2 ^ (len - prev) + 1) * 2 ^ (32 - len)
          ≤ 2 ^ len * 2 ^ (32 - len) := by
        rw [hscale, ← Nat.pow_add, Nat.add_sub_cancel' hM]
        omega
      exact Nat.le_of_mul_le_mul_right hle (Nat.two_pow_pos _)
    have hpow : 2 ^ len ≤ 2 ^ 32 := Nat.pow_le_pow_right (by decide) hM
    have hshift : (code <<< ofNat (len - prev)).toNat
        = code.toNat * 2 ^ (len - prev) := by
      by_cases hprev : prev = 0
      · rw [hstart hprev]
        simp
      · exact toNat_shiftLeft_of_lt (by omega) (by omega)
    rw [assignCodes, canonicalFrom, zip_cons_cons, map_cons, hshift]
    congr 1
    -- the number behind it wraps only where no length is left
    rcases xs with _ | ⟨y, ys⟩
    · rfl
    have hy : kraftSum 32 ((y :: ys).map Prod.snd)
        = 2 ^ (32 - y.2) + kraftSum 32 (ys.map Prod.snd) := by
      unfold kraftSum
      rw [map_cons, map_cons, sum_cons]
    have hnext : (code <<< ofNat (len - prev) + 1).toNat
        = code.toNat * 2 ^ (len - prev) + 1 := by
      have hypos := Nat.two_pow_pos (32 - y.2)
      have hlt : code.toNat * 2 ^ (len - prev) + 1 < 2 ^ len := by
        have hlt' : (code.toNat * 2 ^ (len - prev) + 1) * 2 ^ (32 - len)
            < 2 ^ len * 2 ^ (32 - len) := by
          rw [hscale, ← Nat.pow_add, Nat.add_sub_cancel' hM]
          omega
        exact Nat.lt_of_mul_lt_mul_right hlt'
      rw [UInt32.toNat_add, hshift, UInt32.toNat_one, Nat.mod_eq_of_lt (by omega)]
    rw [← hnext]
    apply ih hrest (fun z hz => hpos z (mem_cons_of_mem _ hz)) (fun hz => by omega)
    rw [hnext, hscale]
    omega

/-- Codes whose words form a prefix code, with lengths from 1 to 32 and numbers that fit. -/
structure Coded (cs : List HufCode) : Prop where
  free : PrefixFree (cs.map hufWord)
  pos : ∀ c ∈ cs, 0 < c.len
  short : ∀ c ∈ cs, c.len ≤ 32
  fits : ∀ c ∈ cs, c.code.toNat < 2 ^ c.len
  syms : (cs.map HufCode.sym).Nodup

/-- Lengths of at most 32 whose Kraft sum is at most one give a code. -/
theorem makeCanonical_coded {lengths : UInt8 → Nat} (hM : ∀ s, lengths s ≤ 32)
    (hkraft : kraftSum 32 ((sortedSyms lengths).map Prod.snd) ≤ 2 ^ 32) :
    Coded (makeCanonical lengths) := by
  have hasc := sortedSyms_ascends hM
  have hsyms := map_assignCodes 0 0 (sortedSyms lengths)
  have hpos : ∀ x ∈ sortedSyms lengths, 0 < x.2 := fun x hx => (mem_sortedSyms.mp hx).1
  have hkraft' : (0 : UInt32).toNat * 2 ^ (32 - 0) + kraftSum 32 ((sortedSyms lengths).map Prod.snd)
      ≤ 2 ^ 32 := by
    rw [UInt32.toNat_zero, Nat.zero_mul, Nat.zero_add]
    exact hkraft
  have hcanon := assignCodes_canonical hasc hpos (fun _ => rfl) hkraft'
  have hmem : ∀ c ∈ makeCanonical lengths, (c.sym, c.len) ∈ sortedSyms lengths := by
    intro c hc
    rw [← hsyms]
    exact mem_map.mpr ⟨c, hc, rfl⟩
  refine ⟨?_, fun c hc => hpos _ (hmem c hc), fun c hc => ?_, fun c hc => ?_, ?_⟩
  · have hwords : (makeCanonical lengths).map hufWord = codeWords
        (((makeCanonical lengths).map fun c => (c.len, c.code.toNat))) := by
      unfold codeWords
      rw [map_map]
      rfl
    rw [hwords]
    unfold makeCanonical
    rw [hcanon]
    exact canonical_prefixFree hasc hkraft'
  · have hlen : lengths c.sym = c.len := (mem_sortedSyms.mp (hmem c hc)).2
    exact hlen ▸ hM c.sym
  · apply canonicalFrom_lt hasc hkraft' (c.len, c.code.toNat)
    rw [← hcanon]
    exact mem_map.mpr ⟨c, hc, rfl⟩
  · have h := nodup_sortedSyms lengths
    rw [← hsyms, map_map] at h
    exact h

/-! ### The bit writer -/

/-- The writer has written `bits`: the bits of the full bytes and those at the top of the current
    one. -/
structure BitWriter.Holds (bw : BitWriter) (bits : List Bool) : Prop where
  pos : bw.bit_pos < 8
  written : ∃ top, bits = byteBits bw.full ++ top ∧ top.length = bw.bit_pos ∧
    bitsOf 8 bw.cur.toNat = top ++ replicate (8 - bw.bit_pos) false

/-- Setting the first bit behind the top. -/
theorem setBit_bits {cur : UInt8} {top : List Bool} {k : Nat} (hk : k < 8) (htop : top.length = k)
    (h : bitsOf 8 cur.toNat = top ++ replicate (8 - k) false) (bit : Bool) :
    bitsOf 8 (cur ||| ((if bit then 1 else 0) <<< UInt8.ofNat (7 - k))).toNat
      = (top ++ [bit]) ++ replicate (8 - (k + 1)) false := by
  have hshift : ((if bit then (1 : UInt8) else 0) <<< UInt8.ofNat (7 - k)).toNat
      = if bit then 2 ^ (7 - k) else 0 := by
    rcases bit with _ | _
    · simp
    · obtain rfl | rfl | rfl | rfl | rfl | rfl | rfl | rfl : k = 0 ∨ k = 1 ∨ k = 2 ∨ k = 3
        ∨ k = 4 ∨ k = 5 ∨ k = 6 ∨ k = 7 := by omega
      all_goals simp
  rw [UInt8.toNat_or, hshift]
  -- compare place by place
  apply ext_getElem
  · simp only [length_bitsOf, length_append, length_replicate, length_singleton]
    omega
  intro i hi hi'
  rw [length_bitsOf] at hi
  have hold : (bitsOf 8 cur.toNat)[i]? = some (cur.toNat.testBit (7 - i)) := by
    have hlt : i < (bitsOf 8 cur.toNat).length := by rwa [length_bitsOf]
    rw [getElem?_eq_getElem hlt, getElem_bitsOf]
  rw [h, getElem?_append] at hold
  rw [getElem_bitsOf, Nat.testBit_or, show 8 - 1 - i = 7 - i from rfl]
  have hbit : (if bit then 2 ^ (7 - k) else 0).testBit (7 - i) = (bit && decide (i = k)) := by
    rcases bit with _ | _
    · simp
    · simp only [if_true, Nat.testBit_two_pow, Bool.true_and]
      exact decide_eq_decide.mpr (by omega)
  rw [hbit]
  apply Option.some.inj
  rw [← getElem?_eq_getElem, getElem?_append, getElem?_append]
  simp only [length_append, length_singleton, htop] at hold ⊢
  obtain hlt | rfl | hgt := Nat.lt_trichotomy i k
  · rw [if_pos (by omega), if_pos hlt]
    rw [if_pos hlt] at hold
    rw [hold]
    simp [show i ≠ k by omega]
  · rw [if_pos (by omega), if_neg (lt_irrefl _)]
    rw [if_neg (lt_irrefl _), Nat.sub_self, getElem?_replicate, if_pos (by omega)] at hold
    rw [← Option.some.inj hold]
    simp
  · rw [if_neg (by omega), getElem?_replicate, if_pos (by omega)]
    rw [if_neg (by omega), getElem?_replicate, if_pos (by omega)] at hold
    rw [← Option.some.inj hold]
    simp [show i ≠ k by omega]

/-- Writing a bit appends it. -/
theorem BitWriter.Holds.put {bit : Bool}
    (h : bw.Holds bits) (hput : bw.put bit = .ok bw') : bw'.Holds (bits ++ [bit]) := by
  obtain ⟨hpos, top, rfl, htop, hcur⟩ := h
  have hset := setBit_bits hpos htop hcur bit
  unfold BitWriter.put at hput
  split at hput
  · cases hput
  by_cases hfull : bw.bit_pos + 1 ≥ 8
  · rw [if_pos hfull] at hput
    cases hput
    have hzero : bitsOf 8 0 = replicate 8 false := by decide
    refine ⟨Nat.zero_lt_succ _, [], ?_, rfl, hzero⟩
    rw [byteBits_append, byteBits_cons, hset, show 8 - (bw.bit_pos + 1) = 0 by omega,
      show byteBits [] = [] from rfl]
    simp
  · rw [if_neg hfull] at hput
    cases hput
    refine ⟨Nat.lt_of_not_le hfull, top ++ [bit], append_assoc _ _ _, ?_, hset⟩
    rw [length_append, htop]
    rfl

/-- A bit of a code is that of its number. -/
theorem code_bit (code : UInt32) (hn : n < 32) :
    ((code >>> ofNat n) &&& 1 != 0) = code.toNat.testBit n := by
  have hval : ((code >>> ofNat n) &&& 1).toNat = code.toNat / 2 ^ n % 2 := by
    rw [UInt32.toNat_and, UInt32.toNat_shiftRight, UInt32.toNat_ofNat',
      Nat.mod_eq_of_lt (show n < 2 ^ 32 by omega), Nat.mod_eq_of_lt hn, toNat_one,
      Nat.and_one_is_mod, Nat.shiftRight_eq_div_pow]
  rw [Nat.testBit_eq_decide_div_mod_eq, ← hval]
  by_cases hz : (code >>> ofNat n) &&& 1 = 0
  · rw [hz]
    rfl
  · have hone : ((code >>> ofNat n) &&& 1).toNat = 1 := by
      have hne : ((code >>> ofNat n) &&& 1).toNat ≠ 0 := fun h0 =>
        hz (UInt32.toNat_inj.mp h0)
      omega
    rw [hone]
    simpa using hz

/-- Writing a code appends its bits. -/
theorem BitWriter.Holds.writeBits
    (hn : n ≤ 32) (h : bw.Holds bits) (hwrite : bw.writeBits code n = .ok bw') :
    bw'.Holds (bits ++ bitsOf n code.toNat) := by
  induction n generalizing bw bits with
  | zero =>
    cases hwrite
    rwa [show bitsOf 0 code.toNat = [] from rfl, append_nil]
  | succ n ih =>
    unfold BitWriter.writeBits at hwrite
    obtain ⟨bw₁, hput, hrest⟩ := bind_ok hwrite
    have h₁ := h.put hput
    rw [code_bit code hn] at h₁
    have hall := ih (Nat.le_of_succ_le hn) h₁ hrest
    rwa [append_assoc] at hall

/-- The bits of the bytes used: what was written and less than eight zeros. -/
theorem BitWriter.Holds.bytes (h : bw.Holds bits) :
    ∃ k, byteBits bw.bytes = bits ++ replicate k false := by
  obtain ⟨hpos, top, rfl, htop, hcur⟩ := h
  unfold BitWriter.bytes
  by_cases hz : bw.bit_pos > 0
  · refine ⟨8 - bw.bit_pos, ?_⟩
    rw [if_pos hz, byteBits_append, byteBits_cons, hcur, append_assoc]
    rw [show byteBits [] = [] from rfl, append_nil, append_assoc]
  · obtain rfl : top = [] := length_eq_zero_iff.mp (by omega)
    refine ⟨0, ?_⟩
    rw [if_neg hz, append_nil, append_nil, replicate_zero, append_nil]

/-! ### The bit reader -/

/-- The reader still has `bits` to give: those it holds and those of the bytes not read. -/
structure BitReader.Pending (br : BitReader) (bits : List Bool) : Prop where
  few : br.hold_bits ≤ 17
  fits : br.hold.toNat < 2 ^ br.hold_bits
  left : bits = bitsOf br.hold_bits br.hold.toNat ++ byteBits br.rest

/-- A byte shifted into the bits held. -/
theorem hold_push {hold : UInt32} (hn : n ≤ 10) (h : hold.toNat < 2 ^ n) (b : UInt8) :
    ((hold <<< 8) ||| b.toUInt32).toNat = hold.toNat * 2 ^ 8 + b.toNat := by
  have hpow : 2 ^ n ≤ 2 ^ 10 := Nat.pow_le_pow_right (by decide) hn
  have hb : b.toNat < 2 ^ 8 := b.toNat_lt
  have hshift : (hold <<< 8).toNat = hold.toNat * 2 ^ 8 := by
    rw [UInt32.toNat_shiftLeft, show (8 : UInt32).toNat % 32 = 8 from rfl, Nat.shiftLeft_eq,
      Nat.mod_eq_of_lt (by omega)]
  rw [UInt32.toNat_or, hshift, UInt8.toNat_toUInt32, ← Nat.shiftLeft_eq,
    Nat.shiftLeft_add_eq_or_of_lt hb]

/-- Filling keeps the bits that are left, and fails only where they are too few. -/
theorem brFill_pending (hn : n ≤ 10) {rest : Bytes} {hold : UInt32} {hold_bits : Nat}
    (h : BitReader.Pending { rest := rest, hold := hold, hold_bits := hold_bits } bits) :
    (brFill n rest hold hold_bits).2.Pending bits ∧
      (brFill n rest hold hold_bits).1 = decide (n ≤ bits.length) ∧
      (n ≤ bits.length → n ≤ (brFill n rest hold hold_bits).2.hold_bits) := by
  induction rest generalizing hold hold_bits with
  | nil =>
    have hlen : bits.length = hold_bits := by
      rw [h.left]
      simp [byteBits]
    unfold brFill
    rw [hlen]
    exact ⟨h, rfl, id⟩
  | cons b rest ih =>
    obtain ⟨hfew, hfits, hleft⟩ := h
    unfold brFill
    by_cases henough : n ≤ hold_bits
    · have hlen : n ≤ bits.length := by
        rw [hleft, length_append, length_bitsOf]
        exact Nat.le_add_right_of_le henough
      rw [if_pos henough]
      exact ⟨⟨hfew, hfits, hleft⟩, (decide_eq_true hlen).symm, fun _ => henough⟩
    · dsimp only at hfew hfits hleft
      have hpush := hold_push (show hold_bits ≤ 10 by omega) hfits b
      have hb : b.toNat < 2 ^ 8 := b.toNat_lt
      rw [if_neg henough]
      apply ih
      refine ⟨by dsimp only; omega, ?_, ?_⟩
      · dsimp only
        rw [hpush, Nat.pow_add]
        have : (hold.toNat + 1) * 2 ^ 8 ≤ 2 ^ hold_bits * 2 ^ 8 := Nat.mul_le_mul_right _ hfits
        omega
      · -- the byte's bits move from the rest to those held
        have hlow : (hold.toNat * 2 ^ 8 + b.toNat) % 2 ^ 8 = b.toNat := by omega
        have hhigh : (hold.toNat * 2 ^ 8 + b.toNat) / 2 ^ 8 = hold.toNat := by omega
        rw [hleft, byteBits_cons, hpush, bitsOf_add, hhigh, ← bitsOf_mod 8 (_ + _), hlow,
          append_assoc]

theorem BitReader.Pending.init (rest : Bytes) :
    BitReader.Pending { rest := rest, hold := 0, hold_bits := 0 } (byteBits rest) :=
  ⟨Nat.zero_le _, Nat.one_pos, rfl⟩

/-- A look ahead sees the first bits. -/
theorem BitReader.Pending.peek (h : br.Pending bits) (hn : n ≤ br.hold_bits) :
    bitsOf n (br.peek n).toNat = bits.take n ∧ (br.peek n).toNat < 2 ^ n := by
  obtain ⟨hfew, hfits, rfl⟩ := h
  have hval : (br.peek n).toNat = br.hold.toNat / 2 ^ (br.hold_bits - n) := by
    unfold BitReader.peek
    rw [UInt32.toNat_shiftRight, UInt32.toNat_ofNat',
      Nat.mod_eq_of_lt (show br.hold_bits - n < 2 ^ 32 by omega),
      Nat.mod_eq_of_lt (show br.hold_bits - n < 32 by omega), Nat.shiftRight_eq_div_pow]
  rw [hval, take_append_of_le_length (by rw [length_bitsOf]; exact hn), take_bitsOf _ hn]
  refine ⟨rfl, ?_⟩
  rw [Nat.div_lt_iff_lt_mul (Nat.two_pow_pos _), ← Nat.pow_add, Nat.add_sub_cancel' hn]
  exact hfits

/-- Consuming drops the first bits. -/
theorem BitReader.Pending.consume (h : br.Pending bits) (hn : n ≤ br.hold_bits) :
    (br.consume n).Pending (bits.drop n) := by
  obtain ⟨hfew, hfits, rfl⟩ := h
  have hval : (br.consume n).hold.toNat = br.hold.toNat % 2 ^ (br.hold_bits - n) := by
    have hone : ((1 : UInt32) <<< ofNat (br.hold_bits - n)).toNat
        = 2 ^ (br.hold_bits - n) := by
      have hpow : 2 ^ (br.hold_bits - n) ≤ 2 ^ 17 := Nat.pow_le_pow_right (by decide) (by omega)
      have hone : ((1 : UInt32) <<< ofNat (br.hold_bits - n)).toNat
          = (1 : UInt32).toNat * 2 ^ (br.hold_bits - n) :=
        toNat_shiftLeft_of_lt (by omega) (by rw [toNat_one]; omega)
      rwa [toNat_one, Nat.one_mul] at hone
    unfold BitReader.consume
    rw [UInt32.toNat_and, UInt32.toNat_sub_of_le, hone, UInt32.toNat_one,
      Nat.and_two_pow_sub_one_eq_mod]
    rw [le_iff_toNat_le, hone, toNat_one]
    exact Nat.two_pow_pos _
  refine ⟨(Nat.sub_le _ _).trans hfew, ?_, ?_⟩
  · rw [hval]
    exact Nat.mod_lt _ (Nat.two_pow_pos _)
  · rw [hval]
    show _ = bitsOf (br.hold_bits - n) _ ++ byteBits br.rest
    rw [bitsOf_mod, drop_append_of_le_length (by rw [length_bitsOf]; exact hn),
      drop_bitsOf _ hn]

/-! ### The decode table -/

/-- The first ten bits are `i` and begin with the code word of `c`. -/
def HufCode.Matches (c : HufCode) (i : Nat) : Prop :=
  c.code.toNat = i / 2 ^ (DECODE_TABLE_BITS - c.len)

/-- The index that a turn of the loop of `build_decode_table` fills. -/
theorem table_index (hlen : c.len ≤ DECODE_TABLE_BITS)
    (hfits : c.code.toNat < 2 ^ c.len) {j : Nat} (hj : j < 2 ^ (DECODE_TABLE_BITS - c.len)) :
    ((c.code <<< UInt32.ofNat (DECODE_TABLE_BITS - c.len)) ||| UInt32.ofNat j).toNat
      = c.code.toNat * 2 ^ (DECODE_TABLE_BITS - c.len) + j := by
  have hten : DECODE_TABLE_BITS = 10 := rfl
  have hpow : 2 ^ (DECODE_TABLE_BITS - c.len) ≤ 2 ^ 10 :=
    Nat.pow_le_pow_right (by decide) (by omega)
  have hsmall : c.code.toNat * 2 ^ (DECODE_TABLE_BITS - c.len) < 2 ^ 10 := by
    have hmul := Nat.mul_lt_mul_of_pos_right hfits (Nat.two_pow_pos (DECODE_TABLE_BITS - c.len))
    rwa [← Nat.pow_add, Nat.add_sub_cancel' hlen, hten] at hmul
  rw [UInt32.toNat_or, toNat_shiftLeft_of_lt (by omega) (by omega), UInt32.toNat_ofNat',
    Nat.mod_eq_of_lt (show j < 2 ^ 32 by omega), ← Nat.shiftLeft_eq,
    Nat.shiftLeft_add_eq_or_of_lt hj]

/-- A symbol fills the entries that begin with its word. -/
theorem fillTable_at (hlen : c.len ≤ DECODE_TABLE_BITS)
    (hfits : c.code.toNat < 2 ^ c.len) (table : Nat → DecodeEntry)
    (hi : i < 2 ^ DECODE_TABLE_BITS) :
    (c.Matches i → fillTable c table i = { sym := c.sym, len := c.len }) ∧
      (¬ c.Matches i → fillTable c table i = table i) := by
  -- after `k` turns the first `k` entries of the word are filled
  have hturns : ∀ k ≤ 2 ^ (DECODE_TABLE_BITS - c.len),
      (range k).foldl
        (fun table j =>
          let idx := ((c.code <<< ofNat (DECODE_TABLE_BITS - c.len)) ||| ofNat j).toNat
          if idx < 2 ^ DECODE_TABLE_BITS then
            update table idx { sym := c.sym, len := c.len }
          else table) table i
        = if c.code.toNat * 2 ^ (DECODE_TABLE_BITS - c.len) ≤ i ∧
            i < c.code.toNat * 2 ^ (DECODE_TABLE_BITS - c.len) + k
          then { sym := c.sym, len := c.len } else table i := by
    intro k hk
    induction k with
    | zero =>
      rw [if_neg (by omega)]
      rfl
    | succ k ih =>
      rw [range_succ, foldl_append, foldl_cons, foldl_nil]
      rw [table_index hlen hfits hk]
      have ih := ih (Nat.le_of_succ_le hk)
      generalize hbase : c.code.toNat * 2 ^ (DECODE_TABLE_BITS - c.len) = base at ih ⊢
      by_cases hat : i = base + k
      · subst hat
        rw [if_pos hi, update_self, if_pos (by omega)]
      · split
        · rw [update_of_ne hat, ih]
          congr 1
          simp only [eq_iff_iff]
          omega
        · rw [ih]
          congr 1
          simp only [eq_iff_iff]
          omega
  have hmatch : c.Matches i ↔ c.code.toNat * 2 ^ (DECODE_TABLE_BITS - c.len) ≤ i ∧
      i < c.code.toNat * 2 ^ (DECODE_TABLE_BITS - c.len) + 2 ^ (DECODE_TABLE_BITS - c.len) := by
    unfold HufCode.Matches
    rw [eq_comm, Nat.div_eq_iff (Nat.two_pow_pos _)]
    have := Nat.two_pow_pos (DECODE_TABLE_BITS - c.len)
    omega
  have hall := hturns _ le_rfl
  unfold fillTable
  rw [hall]
  exact ⟨fun h => if_pos (hmatch.mp h), fun h => if_neg (mt hmatch.mpr h)⟩

/-- An entry that was made for a code, or by all codes that match, is the last word on it. -/
theorem fillTables_at (hlen : ∀ c ∈ cs, c.len ≤ DECODE_TABLE_BITS)
    (hfits : ∀ c ∈ cs, c.code.toNat < 2 ^ c.len) {table : Nat → DecodeEntry}
    (hi : i < 2 ^ DECODE_TABLE_BITS) {e : DecodeEntry}
    (hsame : ∀ c ∈ cs, c.Matches i → ({ sym := c.sym, len := c.len } : DecodeEntry) = e)
    (h : table i = e ∨ ∃ c ∈ cs, c.Matches i) :
    cs.foldl (fun table c => fillTable c table) table i = e := by
  induction cs generalizing table with
  | nil =>
    rcases h with h | ⟨c, hc, -⟩
    · exact h
    · cases hc
  | cons c cs ih =>
    rw [forall_mem_cons] at hlen hfits hsame
    obtain ⟨hfill, hkeep⟩ := fillTable_at hlen.1 hfits.1 table hi
    rw [foldl_cons]
    apply ih hlen.2 hfits.2 hsame.2
    by_cases hm : c.Matches i
    · exact .inl ((hfill hm).trans (hsame.1 hm))
    · rw [hkeep hm]
      rcases h with h | ⟨d, hd, hdm⟩
      · exact .inl h
      · rcases mem_cons.mp hd with rfl | hd
        · exact absurd hdm hm
        · exact .inr ⟨d, hd, hdm⟩

theorem HufCode.Matches.word_prefix (h : c.Matches i)
    (hlen : c.len ≤ DECODE_TABLE_BITS) : hufWord c <+: bitsOf DECODE_TABLE_BITS i := by
  unfold hufWord
  rw [h, ← take_bitsOf i hlen]
  exact take_prefix _ _

/-- Two words of a prefix code do not begin one string. -/
theorem Coded.unique (h : Coded cs) {d : HufCode} (hc : c ∈ cs) (hd : d ∈ cs)
    (hcp : hufWord c <+: bits) (hdp : hufWord d <+: bits) : c = d := by
  by_contra hne
  have hpair : cs.Pairwise fun a b => Apart (hufWord a) (hufWord b) := pairwise_map.mp h.free
  have : Std.Symm fun a b : HufCode => Apart (hufWord a) (hufWord b) := ⟨fun a b hab => hab.symm⟩
  have hapart := hpair.forall hc hd hne
  rcases prefix_or_prefix_of_prefix hcp hdp with hp | hp
  · exact hapart.1 hp
  · exact hapart.2 hp

/-- What the table says at ten bits: the code whose word they begin with, or nothing. -/
theorem Coded.table (h : Coded cs) (hi : i < 2 ^ DECODE_TABLE_BITS) :
    (∃ c ∈ cs, c.len ≤ DECODE_TABLE_BITS ∧ hufWord c <+: bitsOf DECODE_TABLE_BITS i ∧
      buildDecodeTable cs i = { sym := c.sym, len := c.len }) ∨
      (buildDecodeTable cs i).len = 0 := by
  have hshort : ∀ c ∈ cs.filter fun c => c.len > 0 ∧ c.len ≤ DECODE_TABLE_BITS,
      c ∈ cs ∧ c.len ≤ DECODE_TABLE_BITS := by
    intro c hc
    obtain ⟨hmem, hlen⟩ := mem_filter.mp hc
    exact ⟨hmem, (of_decide_eq_true hlen).2⟩
  have hfits : ∀ c ∈ cs.filter fun c => c.len > 0 ∧ c.len ≤ DECODE_TABLE_BITS,
      c.code.toNat < 2 ^ c.len := fun c hc => h.fits c (hshort c hc).1
  by_cases hex : ∃ c ∈ cs.filter fun c => c.len > 0 ∧ c.len ≤ DECODE_TABLE_BITS, c.Matches i
  · obtain ⟨c, hc, hm⟩ := hex
    have hword := hm.word_prefix (hshort c hc).2
    refine .inl ⟨c, (hshort c hc).1, (hshort c hc).2, hword, ?_⟩
    apply fillTables_at (fun d hd => (hshort d hd).2) hfits hi
    · intro d hd hdm
      rw [h.unique (hshort d hd).1 (hshort c hc).1 (hdm.word_prefix (hshort d hd).2) hword]
    · exact .inr ⟨c, hc, hm⟩
  · right
    have hnone : buildDecodeTable cs i = { sym := 0, len := 0 } := by
      apply fillTables_at (fun d hd => (hshort d hd).2) hfits hi
      · exact fun d hd hdm => absurd ⟨d, hd, hdm⟩ hex
      · exact .inl rfl
    rw [hnone]

/-! ### One symbol -/

/-- The walk bit by bit reads what the tree says. -/
theorem treeSym_walk {t : Trie UInt8} (h : br.Pending bits) :
    match t.walk bits with
    | none => treeSym t br = none
    | some (s, rest) => ∃ br', treeSym t br = some (s, br') ∧ br'.Pending rest := by
  induction t generalizing br bits with
  | nil => rfl
  | node o l r ihl ihr =>
    rcases o with _ | s
    · obtain ⟨hpend, hok, henough⟩ := brFill_pending (n := 1) (by decide) h
      unfold treeSym BitReader.fill
      rcases hfill : brFill 1 br.rest br.hold br.hold_bits with ⟨ok, br₁⟩
      rw [hfill] at hpend hok henough
      dsimp only at hpend hok henough
      rcases bits with _ | ⟨bit, bits⟩
      · obtain rfl : ok = false := hok
        rfl
      · obtain rfl : ok = true := hok
        have hone : 1 ≤ br₁.hold_bits := henough (Nat.le_add_left _ _)
        obtain ⟨hpeek, hlt⟩ := hpend.peek hone
        have hrest : (br₁.consume 1).Pending bits := hpend.consume hone
        have hbit : (br₁.peek 1).toNat.testBit 0 = bit := (cons.inj hpeek).1
        -- the bit that is seen decides the side
        rcases bit with _ | _
        · have hzero : br₁.peek 1 = 0 := by
            rw [Nat.testBit_zero, decide_eq_false_iff_not] at hbit
            apply UInt32.toNat_inj.mp
            rw [UInt32.toNat_zero]
            omega
          dsimp only
          rw [if_pos hzero]
          exact ihl hrest
        · have hzero : br₁.peek 1 ≠ 0 := by
            intro hz
            rw [hz] at hbit
            cases hbit
          dsimp only
          rw [if_neg hzero]
          exact ihr hrest
    · exact ⟨br, rfl, h⟩

/-- A symbol is read as the walk in the tree reads it, by the table or bit by bit. -/
theorem decodeSym_walk (hcs : Coded cs) {root : Trie UInt8}
    (hroot : root = Trie.ofCode .nil (cs.map fun c => (hufWord c, c.sym))) (h : br.Pending bits) :
    match root.walk bits with
    | none => decodeSym (buildDecodeTable cs) root br = none
    | some (s, rest) =>
      ∃ br', decodeSym (buildDecodeTable cs) root br = some (s, br') ∧ br'.Pending rest := by
  obtain ⟨hpend, hok, henough⟩ := brFill_pending (n := DECODE_TABLE_BITS) le_rfl h
  unfold decodeSym BitReader.fill
  rcases hfill : brFill DECODE_TABLE_BITS br.rest br.hold br.hold_bits with ⟨ok, br₁⟩
  rw [hfill] at hpend hok henough
  by_cases htable : ok = true ∧ (br₁.peek DECODE_TABLE_BITS).toNat < 2 ^ DECODE_TABLE_BITS ∧
      (buildDecodeTable cs (br₁.peek DECODE_TABLE_BITS).toNat).len > 0
  · simp only [if_pos htable]
    obtain ⟨rfl, hidx, hlen⟩ := htable
    have hten := henough (of_decide_eq_true hok.symm)
    obtain ⟨hpeek, -⟩ := hpend.peek hten
    obtain ⟨c, hc, hshort, hword, hentry⟩ | hzero := hcs.table hidx
    · rw [hpeek] at hword
      obtain ⟨rest, hrest⟩ := hword.trans ( take_prefix _ _)
      have hfree : PrefixFree ((cs.map fun c => (hufWord c, c.sym)).map Prod.fst) := by
        rw [map_map]
        exact hcs.free
      have hwalk := Trie.walk_of_code hfree (mem_map.mpr ⟨c, hc, rfl⟩) rest
      have hdrop := hpend.consume (hshort.trans hten)
      have hwordLen : (hufWord c).length = c.len := length_bitsOf _ _
      rw [← hrest, drop_left' hwordLen] at hdrop
      rw [hroot, ← hrest, hwalk, hentry]
      exact ⟨_, rfl, hdrop⟩
    · omega
  · simp only [if_neg htable]
    exact treeSym_walk hpend

/-! ### The stream of symbols -/

/-- The bits of the code of a symbol. -/
def symBits (cs : List HufCode) (s : UInt8) : List Bool := bitsOf (codeLen cs s) (codeOf cs s).toNat

theorem Coded.code_of_mem (h : Coded cs) (hc : c ∈ cs) :
    codeLen cs c.sym = c.len ∧ codeOf cs c.sym = c.code := by
  unfold codeLen codeOf
  rw [lookupKey_of_mem h.syms hc]
  exact ⟨rfl, rfl⟩

/-- Symbols are read in their order while there is room; behind them come symbols made of what
    follows. -/
theorem hufLoop_reads (hcs : Coded cs) {root : Trie UInt8}
    (hroot : root = Trie.ofCode .nil (cs.map fun c => (hufWord c, c.sym))) (pad : List Bool)
    (room : Nat) (hin : ∀ s ∈ input, s ∈ cs.map HufCode.sym)
    (h : br.Pending (input.flatMap (symBits cs) ++ pad)) :
    ∃ tail, hufLoop (buildDecodeTable cs) root room br = input.take room ++ tail ∧
      (room ≤ input.length → tail = []) := by
  induction room generalizing input br with
  | zero => exact ⟨[], rfl, fun _ => rfl⟩
  | succ room ih =>
    rcases input with _ | ⟨s, input⟩
    · exact ⟨_, rfl, fun hle => absurd hle (Nat.not_succ_le_zero room)⟩
    rw [forall_mem_cons] at hin
    obtain ⟨c, hc, rfl⟩ := mem_map.mp hin.1
    have hbits : symBits cs c.sym = hufWord c := by
      unfold symBits hufWord
      rw [(hcs.code_of_mem hc).1, (hcs.code_of_mem hc).2]
    rw [flatMap_cons, append_assoc, hbits] at h
    -- the walk along the word ends at the symbol
    have hfree : PrefixFree ((cs.map fun c => (hufWord c, c.sym)).map Prod.fst) := by
      rw [map_map]
      exact hcs.free
    have hwalk := Trie.walk_of_code hfree (mem_map.mpr ⟨c, hc, rfl⟩)
      (input.flatMap (symBits cs) ++ pad)
    have hread := decodeSym_walk hcs hroot h
    rw [hroot, hwalk] at hread
    obtain ⟨br', hdec, hpend⟩ := hread
    obtain ⟨tail, hloop, htail⟩ := ih hin.2 hpend
    refine ⟨tail, ?_, fun hle => htail (Nat.le_of_succ_le_succ hle)⟩
    unfold hufLoop
    rw [hroot, hdec]
    dsimp only
    rw [← hroot, hloop]
    rfl

/-- The loop of the coder writes the codes in order. -/
theorem BitWriter.Holds.writeAll (hshort : ∀ s, codeLen cs s ≤ 32) (h : bw.Holds bits)
    (hwrite : input.foldlM (fun bw s => bw.writeBits (codeOf cs s) (codeLen cs s)) bw = .ok bw') :
    bw'.Holds (bits ++ input.flatMap (symBits cs)) := by
  induction input generalizing bw bits with
  | nil =>
    cases hwrite
    rwa [flatMap_nil, append_nil]
  | cons s input ih =>
    rw [foldlM_cons] at hwrite
    obtain ⟨bw₁, hone, hrest⟩ := bind_ok hwrite
    have hall := ih (h.writeBits (hshort s) hone) hrest
    rwa [append_assoc] at hall

/-! ### The code that both sides build -/

/-- The code lengths of an input: the depths of its tree. -/
def hufLengths (input : Bytes) : UInt8 → Nat :=
  match buildTree input with
  | none => fun _ => 0
  | some tree => calcLengths tree 0 fun _ => 0

/-- The array of lengths holds the lengths. -/
theorem codeLen_makeCanonical (lengths : UInt8 → Nat) (s : UInt8) :
    codeLen (makeCanonical lengths) s = lengths s := by
  have hmap := map_assignCodes 0 0 (sortedSyms lengths)
  have hsyms : (makeCanonical lengths).map HufCode.sym = (sortedSyms lengths).map Prod.fst := by
    rw [← hmap, map_map]
    rfl
  have hmem : ∀ c ∈ makeCanonical lengths, 0 < c.len ∧ lengths c.sym = c.len := by
    intro c hc
    apply (mem_sortedSyms (x := (c.sym, c.len))).mp
    rw [← hmap]
    exact mem_map.mpr ⟨c, hc, rfl⟩
  unfold codeLen
  rcases hlook : lookupKey HufCode.sym (makeCanonical lengths) s with _ | c
  · rw [lookupKey_eq_none, hsyms] at hlook
    by_contra hne
    have hpos : 0 < lengths s := Nat.pos_of_ne_zero (Ne.symm hne)
    exact hlook (mem_map.mpr ⟨(s, lengths s), mem_sortedSyms.mpr ⟨hpos, rfl⟩, rfl⟩)
  · obtain ⟨rfl, hc⟩ := lookupKey_some hlook
    exact (hmem c hc).2.symm

/-- Two symbols: the code is complete. -/
theorem hufLengths_kraft {M : Nat}
    (htwo : 2 ≤ (allBytes.filter fun s => hufFreq input s > 0).length)
    (hshort : ∀ s, hufLengths input s ≤ M) :
    kraftSum M ((sortedSyms (hufLengths input)).map Prod.snd) = 2 ^ M ∧
      ∀ s, hufFreq input s > 0 → 0 < hufLengths input s := by
  obtain ⟨t, ht, hfull, hperm, hlen⟩ := buildTree_full htwo
  have hlengths : hufLengths input = calcLengths t 0 fun _ => 0 := by
    unfold hufLengths
    rw [ht]
  have hnodup : (treeSyms t).Nodup := hperm.nodup_iff.mpr (nodup_allBytes.filter _)
  have hleaves := sortedSyms_perm hfull hnodup hlen
  rw [← hlengths] at hleaves
  have hM : ∀ x ∈ leafList t 0, x.2 ≤ M := by
    intro x hx
    have hx' := mem_sortedSyms.mp (hleaves.mem_iff.mpr hx)
    exact hx'.2 ▸ hshort x.1
  refine ⟨?_, fun s hs => ?_⟩
  · have hsum : kraftSum M ((sortedSyms (hufLengths input)).map Prod.snd)
        = kraftSum M ((leafList t 0).map Prod.snd) := by
      unfold kraftSum
      exact ((hleaves.map _).map _).sum_nat
    rw [hsum]
    exact fullTree_kraft hfull hM
  · have hmem : s ∈ treeSyms t :=
      hperm.mem_iff.mpr (mem_filter.mpr ⟨mem_allBytes s, decide_eq_true hs⟩)
    rw [← map_fst_leafList t 0] at hmem
    obtain ⟨x, hx, rfl⟩ := mem_map.mp hmem
    have hx' := mem_sortedSyms.mp (hleaves.mem_iff.mpr hx)
    rw [hx'.2]
    exact hx'.1

/-! ### The decoder's tree -/

/-- The tree stays within its room where the whole code's tree does. -/
theorem buildDecodeTree_ok {t : Trie UInt8}
    (h : (t.ofCode (cs.map fun c => (hufWord c, c.sym))).size ≤ 512) :
    buildDecodeTree cs t = .ok (t.ofCode (cs.map fun c => (hufWord c, c.sym))) := by
  induction cs generalizing t with
  | nil => rfl
  | cons c cs ih =>
    have hfirst : (t.insert c.sym (hufWord c)).size ≤ 512 :=
      (Trie.size_ofCode_le _ (cs.map fun c => (hufWord c, c.sym))).trans h
    unfold buildDecodeTree
    rw [show bitsOf c.len c.code.toNat = hufWord c from rfl, if_neg (Nat.not_lt.mpr hfirst)]
    exact ih h

/-- The decoder's tree for a complete code. -/
theorem Coded.tree (h : Coded cs) (hkraft : kraftSum 32 (cs.map HufCode.len) = 2 ^ 32) :
    buildDecodeTree cs (if cs = [] then .nil else .node none .nil .nil)
      = .ok (Trie.ofCode .nil (cs.map fun c => (hufWord c, c.sym))) := by
  have hfree : PrefixFree ((cs.map fun c => (hufWord c, c.sym)).map Prod.fst) := by
    rw [map_map]
    exact h.free
  have hlens : (cs.map fun c => (hufWord c, c.sym)).map (fun x => x.1.length)
      = cs.map HufCode.len := by
    rw [map_map]
    exact map_congr_left fun c _ => length_bitsOf _ _
  have hsize : (Trie.ofCode .nil (cs.map fun c => (hufWord c, c.sym))).size ≤ 512 := by
    have hone := Trie.size_of_code hfree (M := 32)
      (by
        intro x hx
        obtain ⟨c, hc, rfl⟩ := mem_map.mp hx
        exact (length_bitsOf _ _).le.trans (h.short c hc))
      (hlens ▸ hkraft)
    -- there are no more codes than bytes
    have hcount : cs.length ≤ 256 := by
      have hsub : (cs.map HufCode.sym).length ≤ allBytes.length :=
        h.syms.length_le_of_subset fun s _ => mem_allBytes s
      rwa [length_map, length_allBytes] at hsub
    rw [length_map] at hone
    omega
  rcases cs with _ | ⟨c, cs⟩
  · rfl
  have hpos := h.pos c mem_cons_self
  obtain ⟨b, w, hw⟩ : ∃ b w, hufWord c = b :: w := by
    have hlen : (hufWord c).length = c.len := length_bitsOf _ _
    exact exists_cons_of_length_pos (hlen ▸ hpos)
  -- the root that is there already does not change the first insertion
  have hroot : (Trie.node none .nil .nil : Trie UInt8).insert c.sym (hufWord c)
      = Trie.nil.insert c.sym (hufWord c) := by
    rw [hw]
    rcases b with _ | _ <;> rfl
  have hsame : (Trie.node none .nil .nil : Trie UInt8).ofCode
        ((c :: cs).map fun c => (hufWord c, c.sym))
      = Trie.ofCode .nil ((c :: cs).map fun c => (hufWord c, c.sym)) := by
    unfold Trie.ofCode
    rw [map_cons, foldl_cons, foldl_cons, hroot]
  rw [if_neg (cons_ne_nil _ _), buildDecodeTree_ok (hsame ▸ hsize), hsame]

/-! ### The round trip -/

/-- The header tells the decoder the code lengths. -/
theorem readLen_header (hshort : ∀ s, codeLen cs s ≤ 32) (rest : Bytes) :
    readLen ([0x00, 0x01] ++ allBytes.map (fun s => UInt8.ofNat (codeLen cs s)) ++ rest)
      = codeLen cs := by
  funext s
  have hbyte : ([0x00, 0x01] ++ allBytes.map (fun s => UInt8.ofNat (codeLen cs s)) ++ rest).getD
      (2 + s.toNat) 0 = UInt8.ofNat (codeLen cs s) := by
    have hs : s.toNat < 256 := s.toNat_lt
    have hat : allBytes[s.toNat]? = some s := by
      unfold allBytes
      rw [getElem?_map, getElem?_range hs]
      exact congrArg some UInt8.ofNat_toNat
    rw [getD_eq_getElem?_getD, append_assoc,
      getElem?_append_right (by simp : [(0x00 : UInt8), 0x01].length ≤ 2 + s.toNat),
      show 2 + s.toNat - [(0x00 : UInt8), 0x01].length = s.toNat by simp,
      getElem?_append_left (by rw [length_map, length_allBytes]; exact hs),
      getElem?_map, hat]
    rfl
  have hle := hshort s
  unfold readLen
  rw [hbyte, UInt8.toNat_ofNat', Nat.mod_eq_of_lt (by omega)]
  exact if_pos hle

/-- The header: the number of lengths and the lengths. -/
def hufHeader (cs : List HufCode) : Bytes :=
  [0x00, 0x01] ++ allBytes.map fun s => UInt8.ofNat (codeLen cs s)

theorem length_hufHeader (cs : List HufCode) : (hufHeader cs).length = 258 := by
  unfold hufHeader
  rw [length_append, length_map, length_allBytes]
  rfl

/-- What the coder writes: the header, and the codes padded to full bytes. -/
theorem mzHufCompress_ok (h : mzHufCompress input cap = .ok out) (hcodes : hufCodes input = some cs)
    (hshort : ∀ s, codeLen cs s ≤ 32) :
    ∃ bytes k, out = hufHeader cs ++ bytes ∧
      byteBits bytes = input.flatMap (symBits cs) ++ replicate k false := by
  unfold mzHufCompress at h
  split at h
  · cases h
  rw [hcodes] at h
  dsimp only at h
  split at h
  · cases h
  obtain ⟨bw, hwrite, h⟩ := bind_ok h
  split at h
  · cases h
  have hinit : BitWriter.Holds { cap := cap - 258, full := [], cur := 0, bit_pos := 0 } [] :=
    ⟨Nat.zero_lt_succ _, [], rfl, rfl, show bitsOf 8 0 = replicate 8 false by decide⟩
  obtain ⟨k, hbytes⟩ := (hinit.writeAll hshort hwrite).bytes
  exact ⟨bw.bytes, k, (Except.ok.inj h).symm, hbytes⟩

/-- The decoder rebuilds a code from its header and reads on with it. -/
theorem mzHufDecompress_header {lengths : UInt8 → Nat}
    (hmake : cs = makeCanonical lengths) (hshort : ∀ s, codeLen cs s ≤ 32)
    (htree : buildDecodeTree cs (if cs = [] then .nil else .node none .nil .nil)
      = .ok (Trie.ofCode .nil (cs.map fun c => (hufWord c, c.sym)))) (bytes : Bytes) (room : Nat) :
    mzHufDecompress (hufHeader cs ++ bytes) room
      = .ok (hufLoop (buildDecodeTable cs) (Trie.ofCode .nil (cs.map fun c => (hufWord c, c.sym)))
          room { rest := bytes, hold := 0, hold_bits := 0 }) := by
  have hread : makeCanonical (readLen (hufHeader cs ++ bytes)) = cs := by
    have hlens : readLen (hufHeader cs ++ bytes) = lengths := by
      refine (readLen_header hshort bytes).trans (funext fun s => ?_)
      rw [hmake, codeLen_makeCanonical]
    rw [hlens, hmake]
  have hlong : ¬ (hufHeader cs ++ bytes).length < 2 + 256 := by
    rw [length_append, length_hufHeader]
    omega
  have hmagic : ¬ leNat (slice (hufHeader cs ++ bytes) 0 2) ≠ 256 := by
    have hslice : slice (hufHeader cs ++ bytes) 0 2 = [0x00, 0x01] := rfl
    rw [hslice]
    decide
  unfold mzHufDecompress
  rw [if_neg hlong, if_neg hmagic, hread]
  dsimp only
  rw [htree, drop_left' (length_hufHeader cs)]
  rfl

/-! ### The code of an input -/

/-- The symbols that get a code: those that occur, by a counter of 32 bits. -/
def countedSyms (input : Bytes) : Bytes := allBytes.filter fun s => hufFreq input s > 0

theorem mem_countedSyms :
    s ∈ countedSyms input ↔ hufFreq input s > 0 := by
  unfold countedSyms
  rw [mem_filter, decide_eq_true_eq]
  exact and_iff_right (mem_allBytes s)

/-- A symbol that occurs has no counter where its number of occurrences is a multiple of
    `2 ^ 32`. -/
theorem hufFreq_pos_iff :
    hufFreq input s > 0 ↔ ¬ 2 ^ 32 ∣ input.count s := by
  unfold hufFreq
  rw [gt_iff_lt, lt_iff_toNat_lt, toNat_ofNat', Nat.dvd_iff_mod_eq_zero]
  exact Nat.pos_iff_ne_zero

/-- The code that the coder uses for an input and that the decoder can rebuild. -/
structure HufAgree (input : Bytes) (cs : List HufCode) : Prop where
  codes : hufCodes input = some cs
  make : cs = makeCanonical (hufLengths input)
  coded : Coded cs
  tree : buildDecodeTree cs (if cs = [] then .nil else .node none .nil .nil)
    = .ok (Trie.ofCode .nil (cs.map fun c => (hufWord c, c.sym)))
  syms : ∀ s, s ∈ cs.map HufCode.sym ↔ hufFreq input s > 0

theorem HufAgree.short (h : HufAgree input cs)
    (hshort : ∀ s, hufLengths input s ≤ 32) (s : UInt8) : codeLen cs s ≤ 32 := by
  rw [h.make, codeLen_makeCanonical]
  exact hshort s

/-- Two symbols or more have a complete code. -/
theorem HufAgree.of_two (htwo : 2 ≤ (countedSyms input).length)
    (hshort : ∀ s, hufLengths input s ≤ 32) :
    HufAgree input (makeCanonical (hufLengths input)) := by
  obtain ⟨hkraft, hhas⟩ := hufLengths_kraft htwo hshort
  obtain ⟨t, ht, -, hperm, -⟩ := buildTree_full htwo
  have hlengths : hufLengths input = calcLengths t 0 fun _ => 0 := by
    unfold hufLengths
    rw [ht]
  have hmap := map_assignCodes 0 0 (sortedSyms (hufLengths input))
  have hcs : Coded (makeCanonical (hufLengths input)) := makeCanonical_coded hshort hkraft.le
  have hpairs : (makeCanonical (hufLengths input)).map (fun c => (c.sym, c.len))
      = sortedSyms (hufLengths input) := hmap
  refine ⟨?_, rfl, hcs, hcs.tree ?_, fun s => ?_⟩
  · unfold hufCodes
    rw [ht, hlengths]
    rfl
  · rw [← hkraft, ← hpairs, map_map]
    rfl
  · have hsyms : (makeCanonical (hufLengths input)).map HufCode.sym
        = (sortedSyms (hufLengths input)).map Prod.fst := by
      rw [← hpairs, map_map]
      rfl
    rw [hsyms, mem_map]
    constructor
    · rintro ⟨x, hx, rfl⟩
      -- a symbol that is not in the tree has no length
      by_contra hzero
      have hnot : x.1 ∉ treeSyms t := fun hmem =>
        hzero (of_decide_eq_true (mem_filter.mp (hperm.mem_iff.mp hmem)).2)
      obtain ⟨hpos, hlen⟩ := mem_sortedSyms.mp hx
      rw [hlengths, calcLengths_of_notMem hnot] at hlen
      omega
    · intro hs
      exact ⟨(s, hufLengths input s), mem_sortedSyms.mpr ⟨hhas s hs, rfl⟩, rfl⟩

/-- The list of the lengths of one symbol. -/
theorem sortedSyms_update (a : UInt8) (len : Nat) (hlen : 0 < len) :
    sortedSyms (update (fun _ => 0) a len) = [(a, len)] := by
  apply perm_singleton.mp
  apply (perm_ext_iff_of_nodup ((nodup_sortedSyms _).of_map _) (nodup_singleton _)).mpr
  intro x
  rw [mem_sortedSyms, mem_singleton]
  by_cases hx : x.1 = a
  · rw [hx, update_self]
    constructor
    · rintro ⟨-, hl⟩
      exact Prod.ext hx hl.symm
    · rintro rfl
      exact ⟨hlen, rfl⟩
  · rw [update_of_ne hx]
    constructor
    · rintro ⟨hpos, hl⟩
      omega
    · rintro rfl
      exact absurd rfl hx

/-- The tree of a single symbol has an empty right side. -/
theorem buildTree_one (hone : countedSyms input = [a]) :
    buildTree input = some (.node none (.node (some a) .nil .nil) .nil) := by
  obtain ⟨hsyms, hfull, hlen⟩ := leafHeap_spec input
  rw [show (allBytes.filter fun s => hufFreq input s > 0) = [a] from hone] at hsyms hlen
  obtain ⟨e, hheap⟩ := length_eq_one_iff.mp hlen
  rw [hheap] at hsyms hfull
  have hnode := hfull e mem_cons_self
  have htree : treeSyms e.node = [a] := by
    have hperm := perm_singleton.mp hsyms
    rwa [heapSyms, flatMap_cons, flatMap_nil, append_nil] at hperm
  have hleaf : e.node = .node (some a) .nil .nil := by
    rcases hshape : e.node with _ | ⟨_ | s, l, r⟩
    · rw [hshape] at htree
      cases htree
    · -- an inner node has symbols on both sides
      rw [hshape] at htree hnode
      have hlen := congrArg length htree
      rw [treeSyms, length_append, ← map_fst_leafList l 0, ← map_fst_leafList r 0,
        length_map, length_map, length_singleton] at hlen
      have hl := length_pos_iff.mpr (leafList_ne_nil hnode.1 0)
      have hr := length_pos_iff.mpr (leafList_ne_nil hnode.2 0)
      omega
    · rw [hshape] at htree hnode
      obtain ⟨rfl, rfl⟩ := hnode
      obtain rfl : s = a := singleton_inj.mp htree
      rfl
  unfold buildTree
  rw [hheap]
  dsimp only
  rw [hleaf]

theorem hufLengths_one (hone : countedSyms input = [a]) :
    hufLengths input = update (fun _ => 0) a 1 := by
  unfold hufLengths
  rw [buildTree_one hone]
  rfl

theorem hufLengths_one_le (hone : countedSyms input = [a])
    (s : UInt8) : hufLengths input s ≤ 32 := by
  rw [hufLengths_one hone]
  by_cases hs : s = a
  · rw [hs, update_self]
    decide
  · rw [update_of_ne hs]
    exact Nat.zero_le 32

/-- A single symbol has the one-bit code 0. -/
theorem HufAgree.of_one (hone : countedSyms input = [a]) :
    HufAgree input [{ sym := a, len := 1, code := 0 }] := by
  have hmake : [{ sym := a, len := 1, code := 0 }] = makeCanonical (hufLengths input) := by
    unfold makeCanonical
    rw [hufLengths_one hone, sortedSyms_update a 1 Nat.one_pos]
    rfl
  refine ⟨?_, hmake, ⟨?_, ?_, ?_, ?_, ?_⟩, ?_, fun s => ?_⟩
  · unfold hufLengths at hmake
    rw [buildTree_one hone] at hmake
    unfold hufCodes
    rw [buildTree_one hone, hmake]
    rfl
  · exact pairwise_singleton _ _
  · simp
  · simp
  · simp
  · simp
  · rw [if_neg (cons_ne_nil _ _)]
    have hword : hufWord { sym := a, len := 1, code := 0 } = [false] :=
      show bitsOf 1 (0 : UInt32).toNat = [false] by decide
    have hcode : ([({ sym := a, len := 1, code := 0 } : HufCode)].map fun c => (hufWord c, c.sym))
        = [([false], a)] := congrArg (fun w => [(w, a)]) hword
    have hsize : ((Trie.node none .nil .nil : Trie UInt8).ofCode
        ([({ sym := a, len := 1, code := 0 } : HufCode)].map fun c => (hufWord c, c.sym))).size
          ≤ 512 := by
      rw [hcode]
      exact show 2 ≤ 512 by decide
    have htree := buildDecodeTree_ok hsize
    rw [htree, hcode]
    rfl
  · rw [← mem_countedSyms, hone]
    rfl

/-- Where the coder has a code, both sides have the same. -/
theorem hufCodes_agree (h : hufCodes input = some cs)
    (hshort : ∀ s, hufLengths input s ≤ 32) : HufAgree input cs := by
  rcases hcount : countedSyms input with _ | ⟨a, _ | ⟨b, rest⟩⟩
  · -- no symbol is counted, so that there is no tree
    have hlen := (leafHeap_spec input).2.2
    rw [show (allBytes.filter fun s => hufFreq input s > 0) = [] from hcount] at hlen
    unfold hufCodes buildTree at h
    rw [length_eq_zero_iff.mp hlen] at h
    cases h
  · have hagree := HufAgree.of_one hcount
    rw [hagree.codes] at h
    exact Option.some.inj h ▸ hagree
  · have htwo : 2 ≤ (countedSyms input).length := by
      rw [hcount]
      simp
    have hagree := HufAgree.of_two htwo hshort
    rw [hagree.codes] at h
    exact Option.some.inj h ▸ hagree

/-! ### The round trip -/

/-- The symbols that the walk in the tree of a code can find. -/
theorem walk_sym {rest : List Bool}
    (h : (Trie.ofCode .nil (cs.map fun c => (hufWord c, c.sym))).walk bits = some (s, rest)) :
    s ∈ cs.map HufCode.sym := by
  obtain ⟨w, hw⟩ := Trie.symAt_of_walk h
  obtain ⟨x, hx, rfl⟩ := Trie.mem_of_symAt_ofCode hw
  obtain ⟨c, hc, rfl⟩ := mem_map.mp hx
  exact mem_map.mpr ⟨c, hc, rfl⟩

/-- The decoder's loop gives symbols that have a code. -/
theorem hufLoop_syms (hcs : Coded cs) (room : Nat) (h : br.Pending bits) :
    ∀ s ∈ hufLoop (buildDecodeTable cs)
      (Trie.ofCode .nil (cs.map fun c => (hufWord c, c.sym))) room br,
      s ∈ cs.map HufCode.sym := by
  induction room generalizing br bits with
  | zero =>
    intro s hs
    cases hs
  | succ room ih =>
    have hread := decodeSym_walk hcs rfl h
    unfold hufLoop
    rcases hwalk : (Trie.ofCode .nil (cs.map fun c => (hufWord c, c.sym))).walk bits with
      _ | ⟨s, rest⟩
    · rw [hwalk] at hread
      rw [hread]
      intro s hs
      cases hs
    · rw [hwalk] at hread
      obtain ⟨br', hdec, hpend⟩ := hread
      rw [hdec]
      rw [forall_mem_cons]
      exact ⟨walk_sym hwalk, ih hpend⟩

/-- What the coder writes and what the decoder makes of it. -/
theorem mzHuf_decodes (h : mzHufCompress input cap = .ok out)
    (hshort : ∀ s, hufLengths input s ≤ 32) :
    ∃ cs bytes k, HufAgree input cs ∧
      byteBits bytes = input.flatMap (symBits cs) ++ replicate k false ∧
      ∀ room, mzHufDecompress out room
        = .ok (hufLoop (buildDecodeTable cs)
            (Trie.ofCode .nil (cs.map fun c => (hufWord c, c.sym)))
            room { rest := bytes, hold := 0, hold_bits := 0 }) := by
  obtain ⟨cs, hcodes⟩ : ∃ cs, hufCodes input = some cs := by
    rcases hnone : hufCodes input with _ | cs
    · unfold mzHufCompress at h
      rw [hnone] at h
      split at h
      · cases h
      · cases h
    · exact ⟨cs, rfl⟩
  have hagree := hufCodes_agree hcodes hshort
  obtain ⟨bytes, k, rfl, hbytes⟩ := mzHufCompress_ok h hcodes (hagree.short hshort)
  exact ⟨cs, bytes, k, hagree, hbytes, fun room =>
    mzHufDecompress_header hagree.make (hagree.short hshort) hagree.tree bytes room⟩

/-- What `mz_huf_compress` writes for an input with code lengths of at most 32 is decoded to the
    input, cut at the room, where every symbol is counted; with more room other bytes follow. -/
theorem mzHuf_reads (h : mzHufCompress input cap = .ok out)
    (hcount : ∀ s ∈ input, hufFreq input s > 0) (hshort : ∀ s, hufLengths input s ≤ 32)
    (room : Nat) :
    ∃ tail, mzHufDecompress out room = .ok (input.take room ++ tail) ∧
      (room ≤ input.length → tail = []) := by
  obtain ⟨cs, bytes, k, hagree, hbytes, hdec⟩ := mzHuf_decodes h hshort
  have hpend := BitReader.Pending.init bytes
  rw [hbytes] at hpend
  have hsyms : ∀ s ∈ input, s ∈ cs.map HufCode.sym := fun s hs =>
    (hagree.syms s).mpr (hcount s hs)
  obtain ⟨tail, hloop, htail⟩ := hufLoop_reads hagree.coded rfl _ room hsyms hpend
  refine ⟨tail, ?_, htail⟩
  rw [hdec, hloop]

/-- A byte whose counter is zero is never given back. -/
theorem mzHuf_loses (h : mzHufCompress input cap = .ok out)
    (hshort : ∀ s, hufLengths input s ≤ 32) (hs : s ∈ input)
    (hzero : ¬ hufFreq input s > 0) (room : Nat) : mzHufDecompress out room ≠ .ok input := by
  obtain ⟨cs, bytes, k, hagree, -, hdec⟩ := mzHuf_decodes h hshort
  rw [hdec]
  intro heq
  have hmem := hufLoop_syms hagree.coded room (BitReader.Pending.init bytes) s
    (Except.ok.inj heq ▸ hs)
  exact hzero ((hagree.syms s).mp hmem)

/-- What `mz_huf_compress` writes for an input with code lengths of at most 32 is decoded to the
    input exactly where no byte occurs a multiple of `2 ^ 32` times. -/
theorem mzHuf_roundtrip_iff {input out : Bytes} {cap : Nat}
    (h : mzHufCompress input cap = .ok out) (hshort : ∀ s, hufLengths input s ≤ 32) :
    mzHufDecompress out input.length = .ok input ↔
      ∀ s ∈ input, ¬ 2 ^ 32 ∣ input.count s := by
  constructor
  · intro hdec s hs hdvd
    exact mzHuf_loses h hshort hs (fun hpos => hufFreq_pos_iff.mp hpos hdvd) _ hdec
  · intro hcount
    obtain ⟨tail, hdec, htail⟩ :=
      mzHuf_reads h (fun s hs => hufFreq_pos_iff.mpr (hcount s hs)) hshort input.length
    rw [hdec, htail le_rfl, append_nil, take_length]

/-! ### A counter that overflows -/

/-- Writing symbols without a code writes nothing. -/
theorem writeAll_uncoded {other : Bytes} (h : ∀ s ∈ other, codeLen cs s = 0)
    (letters : Bytes) (bw : BitWriter) :
    (other ++ letters).foldlM (fun bw s => bw.writeBits (codeOf cs s) (codeLen cs s)) bw
      = letters.foldlM (fun bw s => bw.writeBits (codeOf cs s) (codeLen cs s)) bw := by
  induction other with
  | nil => rfl
  | cons s other ih =>
    rw [cons_append, foldlM_cons, h s mem_cons_self]
    exact ih fun t ht => h t (mem_cons_of_mem _ ht)

set_option maxRecDepth 20000 in
theorem writeLetters :
    (((replicate 300 (98 : UInt8)).foldlM
      (fun (bw : BitWriter) s => bw.writeBits (codeOf [{ sym := 98, len := 1, code := 0 }] s)
        (codeLen [{ sym := 98, len := 1, code := 0 }] s))
      { cap := 1024 - 258, full := [], cur := 0, bit_pos := 0 }
        ).toOption.map fun bw => bw.bytes.length) = some 38 := by decide

/-- Bytes that are not counted and 300 letters b, the only symbol with a code, are compressed. -/
theorem mzHufCompress_letters {other letters : Bytes}
    (hone : countedSyms (other ++ letters) = [98]) (hother : ∀ s ∈ other, s ≠ 98)
    (hletters : letters = replicate 300 98) :
    ∃ out, mzHufCompress (other ++ letters) 1024 = .ok out := by
  have hagree := HufAgree.of_one hone
  have huncoded : ∀ s ∈ other, codeLen [{ sym := 98, len := 1, code := 0 }] s = 0 := by
    intro s hs
    rw [hagree.make, codeLen_makeCanonical, hufLengths_one hone,
      update_of_ne (hother s hs)]
  have hrun := writeLetters
  rw [← hletters] at hrun
  have hcount : letters.length = 300 := by
    rw [hletters]
    exact length_replicate
  clear hletters
  have hne : other ++ letters ≠ [] :=
    append_ne_nil_of_right_ne_nil _ (ne_nil_of_length_pos (by omega))
  rw [← writeAll_uncoded huncoded letters] at hrun
  unfold mzHufCompress
  rw [if_neg hne, hagree.codes]
  dsimp only
  rw [if_neg (by decide)]
  generalize (other ++ letters).foldlM
      (fun (bw : BitWriter) s => bw.writeBits (codeOf [{ sym := 98, len := 1, code := 0 }] s)
        (codeLen [{ sym := 98, len := 1, code := 0 }] s))
      { cap := 1024 - 258, full := [], cur := 0, bit_pos := 0 } = written at hrun ⊢
  rcases written with e | bw
  · cases hrun
  have hbytes : bw.bytes.length = 38 := Option.some.inj hrun
  have hlen : ¬ (hufHeader [{ sym := 98, len := 1, code := 0 }] ++ bw.bytes).length
      ≥ (other ++ letters).length := by
    rw [length_append, length_hufHeader, hbytes, length_append, hcount]
    omega
  exact ⟨_, if_neg hlen⟩

theorem countedSyms_of_freq {input : Bytes} (h : hufFreq input = fun s => if s = 98 then 300 else 0) :
    countedSyms input = [98] := by
  unfold countedSyms
  rw [h]
  decide

/-- 300 letters b are given back. -/
theorem mzHuf_roundtrip_letters :
    ∃ out, mzHufCompress (replicate 300 98) 1024 = .ok out ∧
      mzHufDecompress out 300 = .ok (replicate 300 98) := by
  have hone : countedSyms (replicate 300 98) = [98] := by
    apply countedSyms_of_freq
    funext s
    rw [hufFreq, count_replicate]
    by_cases hb : s = 98
    · rw [hb]
      rfl
    · rw [if_neg hb, if_neg (by simpa using Ne.symm hb)]
      rfl
  have hcomp := @mzHufCompress_letters [] _ (by rw [nil_append]; exact hone) (by simp) rfl
  rw [nil_append] at hcomp
  obtain ⟨out, hout⟩ := hcomp
  have hdec := (mzHuf_roundtrip_iff hout (hufLengths_one_le hone)).mpr fun s hs => by
    rw [eq_of_mem_replicate hs, count_replicate_self]
    decide
  rw [length_replicate] at hdec
  exact ⟨out, hout, hdec⟩

/-- `2 ^ 32` letters a and 300 letters b. -/
def overflowing : Bytes := replicate (2 ^ 32) 97 ++ replicate 300 98

theorem overflowing_counted : countedSyms overflowing = [98] := by
  apply countedSyms_of_freq
  funext s
  unfold hufFreq overflowing
  rw [count_append, count_replicate, count_replicate]
  by_cases ha : s = 97
  · rw [ha]
    rfl
  · by_cases hb : s = 98
    · rw [hb]
      rfl
    · rw [if_neg hb, if_neg (by simpa using Ne.symm ha), if_neg (by simpa using Ne.symm hb)]
      rfl

/-- The letters a, counted `2 ^ 32` times, get no code: the coder succeeds and nothing brings them
    back. -/
theorem mzHuf_counter_overflow :
    ∃ out, mzHufCompress overflowing 1024 = .ok out ∧ (∀ s, hufLengths overflowing s ≤ 32) ∧
      mzHufDecompress out overflowing.length ≠ .ok overflowing := by
  obtain ⟨out, hout⟩ : ∃ out, mzHufCompress overflowing 1024 = .ok out :=
    mzHufCompress_letters overflowing_counted
      (fun s hs => by rw [eq_of_mem_replicate hs]; decide) rfl
  have hshort := hufLengths_one_le overflowing_counted
  refine ⟨out, hout, hshort, ?_⟩
  have hmem : (97 : UInt8) ∈ overflowing :=
    mem_append_left _ (mem_replicate.mpr ⟨by decide, rfl⟩)
  apply mzHuf_loses hout hshort hmem
  rw [← mem_countedSyms, overflowing_counted]
  decide

end MeuOS.Compress
