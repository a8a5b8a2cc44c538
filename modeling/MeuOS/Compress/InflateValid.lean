import MeuOS.Compress.InflateBounds
import MeuOS.Compress.Rfc1951

namespace MeuOS.Compress.Inflate

open MeuOS.Lib Lib.Checked Function
open MeuOS.Compress.Rfc1951

/-!
# Valid DEFLATE streams

The decoder on a stream that stands for some bytes by RFC 1951: it returns them, unless a header
gives more than 30 lengths for distances, for which `dist_lengths` has no room, or the number of
bytes is negative as an `int`.

* `At` — a reader and the bits that are left to it;
* `huffBuild_table`, `huffDecode_at` — the table of a code, and one word read through it;
* `readCodeLengths_at`, `codeLengths_at` — the lengths of a header;
* `dynamicTables_at` — a header with room for its distance lengths, and one without;
* `decodeSymbols_at`, `inflateStored_at` — what a block stands for;
* `inflateBlock_at`, `inflateBlock_past` — one block, from its first bit on;
* `mzDeflateDecompress_valid` — whole streams.
-/

/-! ### Readers -/

/-- The bits that are left to a reader. -/
def BitReader.bits (br : BitReader) : List Bool :=
  (streamBits br.data).drop (8 * br.byte_pos + br.bit_pos)

/-- A reader of some data with some bits left. -/
structure At (br : BitReader) (data : Bytes) (bits : List Bool) : Prop where
  data : br.data = data
  inside : br.Inside
  bits : br.bits = bits

variable {br : BitReader} {data bs bs' : Bytes} {bits rest : List Bool} {turns i v n s D : Nat}
  {c lit dist : CanonicalCode} {ht lit_ht dist_ht : HuffTable} {cls : List Nat} {out : OutBuf}
  {final : Bool}

theorem At.left (h : At br data bits) :
    br.left = bits.length := by
  rw [← h.bits, BitReader.bits, List.length_drop, length_streamBits, BitReader.left]

theorem At.brInit (data : Bytes) : At (brInit data) data (streamBits data) :=
  ⟨rfl, brInit_inside data, rfl⟩

/-- The bits of a byte and those behind it. -/
theorem bits_eq (hbit : br.bit_pos < 8) (hbyte : br.byte_pos < br.data.length) :
    br.bits = lowBits (8 - br.bit_pos) (br.data[br.byte_pos].toNat / 2 ^ br.bit_pos)
      ++ streamBits (br.data.drop (br.byte_pos + 1)) := by
  have hsplit := lowBits_add br.bit_pos (8 - br.bit_pos) br.data[br.byte_pos].toNat
  rw [Nat.add_sub_cancel' (by omega)] at hsplit
  rw [BitReader.bits, ← List.drop_drop, drop_streamBits, List.drop_eq_getElem_cons hbyte,
    streamBits_cons, hsplit, List.append_assoc, List.drop_left' (length_lowBits _ _)]

/-- One bit. -/
theorem brBit_at {b : Bool} (h : At br data (b :: bits)) :
    ∃ br', brBit br = .ok (some b.toNat, br') ∧ At br' data bits := by
  have hleft := h.left
  obtain ⟨hbit, hpos⟩ := h.inside
  have hbyte : br.byte_pos < br.data.length := by
    rw [BitReader.left, List.length_cons] at hleft
    omega
  -- The bit is the one that the shifted byte ends with.
  have hvalue : (br.data[br.byte_pos].toNat >>> br.bit_pos) &&& 1 = b.toNat := by
    have hbits := h.bits
    rw [bits_eq hbit hbyte, show 8 - br.bit_pos = (7 - br.bit_pos) + 1 by omega, lowBits,
      List.cons_append] at hbits
    rw [← (List.cons.inj hbits).1, Nat.shiftRight_eq_div_pow, Nat.and_one_is_mod]
    rcases Nat.mod_two_eq_zero_or_one (br.data[br.byte_pos].toNat / 2 ^ br.bit_pos) with hm | hm <;>
      simp [hm]
  have hnext : (streamBits br.data).drop (8 * br.byte_pos + br.bit_pos + 1) = bits := by
    have hbits := h.bits
    rw [BitReader.bits] at hbits
    rw [← List.drop_drop, hbits]
    rfl
  have hsat := brBit_sat h.inside
  unfold brBit at hsat ⊢
  rw [if_neg (Nat.not_le.mpr hbyte)] at hsat ⊢
  have hget : br.byte br.byte_pos = .ok br.data[br.byte_pos].toNat := by
    unfold BitReader.byte
    rw [List.getElem?_eq_getElem hbyte]
  rw [hget, ok_bind] at hsat ⊢
  rw [hvalue] at hsat ⊢
  split at hsat
  · rename_i hcarry
    rw [if_pos hcarry]
    refine ⟨_, rfl, h.data, hsat.1.inside, ?_⟩
    rw [← hnext]
    unfold BitReader.bits
    dsimp only
    congr 1
    omega
  · rename_i hcarry
    rw [if_neg hcarry]
    exact ⟨_, rfl, h.data, hsat.1.inside, hnext⟩

/-- A number of bits, the least significant first, on top of those read before. -/
theorem brBitsLoop_at {val : Nat}
    (h : At br data (lowBits turns v ++ bits)) (hval : val < 2 ^ i) (hv : v < 2 ^ turns) :
    ∃ br', brBitsLoop turns i val br = .ok (val + v * 2 ^ i, br') ∧ At br' data bits := by
  induction turns generalizing i val v br with
  | zero =>
    obtain rfl : v = 0 := by omega
    rw [Nat.zero_mul]
    exact ⟨br, rfl, h⟩
  | succ turns ih =>
    rw [lowBits, List.cons_append] at h
    obtain ⟨br₁, hbit, h₁⟩ := brBit_at h
    have hb : (decide (v % 2 = 1)).toNat = v % 2 := by
      rcases Nat.mod_two_eq_zero_or_one v with hm | hm <;> simp [hm]
    have hor : val ||| (v % 2) <<< i = val + v % 2 * 2 ^ i := by
      rw [Nat.or_comm, ← Nat.shiftLeft_add_eq_or_of_lt hval, Nat.shiftLeft_eq, Nat.add_comm]
    have hval' : val + v % 2 * 2 ^ i < 2 ^ (i + 1) := by
      have hle : v % 2 * 2 ^ i ≤ 1 * 2 ^ i := Nat.mul_le_mul_right _ (by omega)
      rw [Nat.pow_succ]
      omega
    obtain ⟨br₂, hrest, h₂⟩ := ih h₁ hval' (by rw [Nat.pow_succ] at hv; omega)
    refine ⟨br₂, ?_, h₂⟩
    unfold brBitsLoop
    rw [hbit, ok_bind]
    dsimp only
    rw [hb, hor, hrest]
    have hsplit : v * 2 ^ i = v % 2 * 2 ^ i + v / 2 * 2 ^ (i + 1) := by
      rw [Nat.pow_succ, Nat.mul_comm (2 ^ i), ← Nat.mul_assoc, ← Nat.add_mul]
      congr 1
      omega
    rw [hsplit, Nat.add_assoc]

theorem brBits_at (h : At br data (lowBits n v ++ bits)) (hv : v < 2 ^ n) :
    ∃ br', brBits br n = .ok (v, br') ∧ At br' data bits := by
  have hloop := brBitsLoop_at h (show 0 < 2 ^ 0 by decide) hv
  rwa [Nat.pow_zero, Nat.mul_one, Nat.zero_add] at hloop

/-! ### Byte boundaries -/

/-- The padding before a byte boundary is passed over. -/
theorem brAlign_at {padding : List Bool}
    (hpad : padding.length < 8) (hbits : bits.length % 8 = 0) (h : At br data (padding ++ bits)) :
    At (brAlign br) data bits ∧ (brAlign br).bit_pos = 0 := by
  have hleft := h.left
  have hinside := (brAlign_after h.inside).inside
  obtain ⟨hbit, hpos⟩ := h.inside
  rw [BitReader.left, List.length_append] at hleft
  have hdrop : (streamBits br.data).drop (8 * br.byte_pos + br.bit_pos + padding.length)
      = bits := by
    have hall := h.bits
    unfold BitReader.bits at hall
    rw [← List.drop_drop, hall, List.drop_left]
  unfold brAlign at hinside ⊢
  split at hinside
  · rename_i hmiddle
    rw [if_pos hmiddle]
    refine ⟨⟨h.data, hinside, ?_⟩, rfl⟩
    rw [← hdrop]
    unfold BitReader.bits
    dsimp only
    congr 1
    omega
  · rename_i haligned
    rw [if_neg haligned]
    refine ⟨⟨h.data, hinside, ?_⟩, by omega⟩
    rw [← hdrop]
    unfold BitReader.bits
    congr 1
    omega

/-- A byte at a byte boundary. -/
theorem byte_at (h : At br data (lowBits 8 v ++ bits)) (hzero : br.bit_pos = 0) (hv : v < 2 ^ 8) :
    br.byte br.byte_pos = .ok v ∧ At { br with byte_pos := br.byte_pos + 1 } data bits := by
  have hleft := h.left
  rw [BitReader.left, List.length_append, length_lowBits] at hleft
  have hbyte : br.byte_pos < br.data.length := by omega
  have hall := h.bits
  rw [bits_eq (by omega) hbyte, hzero, Nat.pow_zero, Nat.div_one] at hall
  obtain ⟨hsame, hrest⟩ := List.append_inj hall (by rw [length_lowBits, length_lowBits])
  refine ⟨?_, h.data, ⟨hzero ▸ (by decide : 0 < 8), ?_⟩, ?_⟩
  · unfold BitReader.byte
    rw [List.getElem?_eq_getElem hbyte]
    exact congrArg ok (lowBits_inj (UInt8.toNat_lt _) hv hsame)
  · dsimp only
    omega
  · rw [← hrest, BitReader.bits]
    rw [hzero, Nat.add_zero, drop_streamBits]

/-- Whole bytes at a byte boundary. -/
theorem bytes_at (h : At br data (streamBits bs ++ bits)) (hzero : br.bit_pos = 0) :
    br.byte_pos + bs.length ≤ br.data.length ∧ (br.data.drop br.byte_pos).take bs.length = bs ∧
      At { br with byte_pos := br.byte_pos + bs.length } data bits := by
  have hleft := h.left
  obtain ⟨-, hpos⟩ := h.inside
  rw [BitReader.left, List.length_append, length_streamBits] at hleft
  have hle : br.byte_pos + bs.length ≤ br.data.length := by omega
  have hall := h.bits
  rw [BitReader.bits, hzero, Nat.add_zero, drop_streamBits,
    ← List.take_append_drop bs.length (br.data.drop br.byte_pos), streamBits_append] at hall
  obtain ⟨hsame, hrest⟩ := List.append_inj hall (by
    rw [length_streamBits, length_streamBits, List.length_take, List.length_drop]
    omega)
  refine ⟨hle, streamBits_inj hsame, h.data, ⟨hzero ▸ (by decide : 0 < 8), ?_⟩, ?_⟩
  · dsimp only
    omega
  · rw [← hrest, BitReader.bits]
    rw [hzero, Nat.add_zero, drop_streamBits, List.drop_drop]

theorem lowBits_bytes (n : Nat) (bits : List Bool) :
    lowBits 16 n ++ bits = lowBits 8 (n % 2 ^ 8) ++ (lowBits 8 (n / 2 ^ 8) ++ bits) := by
  rw [show 16 = 8 + 8 from rfl, lowBits_add, lowBits_mod, List.append_assoc]

theorem bytes_or (n : Nat) : n % 2 ^ 8 ||| (n / 2 ^ 8) <<< 8 = n := by
  have hor := Nat.shiftLeft_add_eq_or_of_lt (Nat.mod_lt n (Nat.two_pow_pos 8)) (n / 2 ^ 8)
  rw [Nat.or_comm, ← hor, Nat.shiftLeft_eq, Nat.mul_comm, Nat.div_add_mod]

/-! ### Tables -/

/-- The table of a code. -/
structure TableOf (ht : HuffTable) (c : CanonicalCode) : Prop where
  fits : c.Fits
  len_le : ∀ s < c.n, c.len s ≤ 15
  room : c.n ≤ 288
  counts : ∀ k < 16, cellAt ht.counts k = c.count k
  symbols : ∀ s < c.n, c.len s ≠ 0 → cellAt ht.symbols (symbolSlot c.count c.len s) = s

/-- A code that fits is not over-subscribed. -/
theorem codesLeft_ok {counts : Vector Nat 16}
    (hcounts : ∀ k < 16, cellAt counts k = c.count k) (hfits : c.Fits) :
    ∃ left, codesLeft counts = .ok (some left) := by
  obtain ⟨r, hr, -, hleft⟩ := @forUp_ok MzErr _
    (fun len r => 1 ≤ len ∧
      r = some ((2 ^ (len - 1) : Nat) - ((c.nextCode (len - 1) + c.count (len - 1) : Nat) : Int)))
    (fun len r => r.elim (.ok none) fun left => do
      let c ← fetchAt counts len
      if left * 2 - c < 0 then return none else return some (left * 2 - c))
    15 1 (some 1)
    (by
      rintro len _ _ hlen ⟨hpos, rfl⟩
      obtain ⟨k, rfl⟩ : ∃ k, len = k + 1 := ⟨len - 1, by omega⟩
      have hroom := hfits.count_le (k + 1)
      have hnext : c.nextCode (k + 1) = (c.nextCode k + c.count k) * 2 := rfl
      rw [Nat.pow_succ] at hroom
      rw [Option.elim_some, fetchAt_eq counts (show k + 1 < 16 by omega), ok_bind,
        hcounts (k + 1) (by omega), Nat.add_sub_cancel, if_neg (by omega)]
      refine ⟨_, rfl, by omega, ?_⟩
      rw [Nat.add_sub_cancel, Nat.pow_succ]
      congr 1
      omega)
    ⟨le_rfl, rfl⟩
  refine ⟨_, Eq.trans ?_ (hleft ▸ hr)⟩
  unfold codesLeft
  congr 1
  funext len left
  cases left <;> rfl

/-- The words of a code have room in a table. -/
theorem rangeStart_count_le (c : CanonicalCode) (m : Nat) : rangeStart c.count m ≤ c.n := by
  have hcount : c.count = update (tally c.len c.n) 0 0 := by
    ext k
    by_cases hk : k = 0
    · rw [hk, update_self, c.count_zero]
    · rw [update_of_ne hk, c.count_pos hk]
  rw [hcount]
  exact rangeStart_update_le c.len c.n m

theorem TableOf.good (h : TableOf ht c) : ht.Good := by
  refine ⟨h.counts 0 (by decide), ?_⟩
  have hsum : rangeStart (cellAt ht.counts) 16 = rangeStart c.count 16 :=
    Finset.sum_congr rfl fun k hk => h.counts k (Finset.mem_range.mp hk)
  rw [hsum]
  exact (rangeStart_count_le c 16).trans h.room

/-- `huff_build` builds the table of a code that fits. -/
theorem huffBuild_table {n : Nat} {lengths : Vector Nat n} {c : CanonicalCode} (hn : c.n ≤ n)
    (hroom : c.n ≤ 288) (hlen : ∀ s < c.n, cellAt lengths s = c.len s)
    (hle : ∀ s < c.n, c.len s ≤ 15) (hfits : c.Fits) :
    ∃ ht left, huffBuild lengths c.n = .ok (some (ht, left)) ∧ TableOf ht c := by
  have hle' : ∀ s < c.n, cellAt lengths s ≤ 15 := fun s hs => by rw [hlen s hs]; exact hle s hs
  obtain ⟨counts, hcount, hcounts⟩ := countLengths_ok hn hle'
  obtain ⟨counts', hstore, hcell⟩ := storeAt_eq (ε := MzErr) counts 0 (show 0 < 16 by decide)
  have hcounts' : cellAt counts' = c.count := by
    ext k
    rw [hcell, hcounts]
    by_cases hk : k = 0
    · rw [hk, update_self, c.count_zero]
    · rw [update_of_ne hk, c.count_pos hk, tally_congr hlen]
  obtain ⟨left, hleft⟩ := codesLeft_ok (fun k _ => congrFun hcounts' k) hfits
  obtain ⟨⟨offsets, off⟩, hoffsets, hoff⟩ := lengthOffsets_ok (congrFun hcounts' 0)
  have hsize : ∀ k, 1 ≤ k → c.count k = tally (cellAt lengths) c.n k := fun k hk => by
    rw [c.count_pos (Nat.ne_of_gt hk), tally_congr hlen]
  have hsum : rangeStart c.count 16 ≤ 288 := (rangeStart_count_le c 16).trans hroom
  rw [hcounts'] at hoff
  obtain ⟨⟨offsets', symbols⟩, hplace, hplaced⟩ :=
    placeSymbols_ok (Vector.replicate 288 0) hn hle' hsize hsum hoff
  refine ⟨{ counts := counts', symbols := symbols }, left, ?_, hfits, hle, hroom,
    fun k _ => congrFun hcounts' k, ?_⟩
  · unfold huffBuild
    rw [hcount, ok_bind]
    dsimp only
    rw [show ((0 : Nat) : Int) = 0 from rfl] at hstore
    rw [hstore, ok_bind, hleft, ok_bind]
    dsimp only
    rw [hoffsets, ok_bind]
    rw [hplace]
    rfl
  · intro s hs hused
    have hslot : symbolSlot c.count c.len s = symbolSlot c.count (cellAt lengths) s := by
      unfold symbolSlot
      rw [hlen s hs, tally_congr fun i (hi : i < s) => hlen i (hi.trans hs)]
    rw [hslot]
    exact hplaced s hs (by rwa [hlen s hs])

/-! ### Symbols -/

/-- One more bit of a number, from the most significant one on. -/
theorem next_bit (code m : Nat) :
    code / 2 ^ (m + 1) * 2 ||| (code.testBit m).toNat = code / 2 ^ m := by
  have hor := Nat.shiftLeft_add_eq_or_of_lt (i := 1) (Bool.toNat_lt (code.testBit m))
    (code / 2 ^ (m + 1))
  rw [Nat.shiftLeft_eq, Nat.pow_one] at hor
  rw [← hor, Nat.toNat_testBit, Nat.pow_succ, ← Nat.div_div_eq_div_mul]
  omega

/-- The rest of a word, of which `j` bits have been read. -/
theorem huffDecodeLoop_at (hht : TableOf ht c)
    (hs : s < c.n) (hused : c.len s ≠ 0) {m j : Nat} (hlen : j + (m + 1) = c.len s)
    (h : At br data (bitsOf (m + 1) (c.number s) ++ bits)) :
    ∃ br', huffDecodeLoop ht (15 - j) (j + 1) (c.number s / 2 ^ (m + 1) * 2) (c.nextCode (j + 1))
        (rangeStart c.count (j + 1)) br = .ok (some s, br') ∧ At br' data bits := by
  have hmax := hht.len_le s hs
  induction m generalizing j br with
  | zero =>
    have hlen : j + 1 = c.len s := hlen
    obtain ⟨br₁, hbit, h₁⟩ := brBit_at h
    obtain ⟨hlo, hhi⟩ := CanonicalCode.number_mem hs hused
    rw [← hlen] at hlo hhi
    -- The place of the number among those of its length is the slot of the symbol.
    have hslot : ((rangeStart c.count (j + 1) : Nat) : Int)
        + ((c.number s : Int) - (c.nextCode (j + 1) : Nat)) = (symbolSlot c.count c.len s : Nat) := by
      have hnumber : c.number s = c.nextCode (c.len s) + tally c.len s (c.len s) := rfl
      rw [← hlen] at hnumber
      rw [symbolSlot, ← hlen]
      omega
    have hroom : symbolSlot c.count c.len s < 288 := by
      have hlt := @slot_lt c.len c.count c.n 16 s hs (by omega) (c.count_pos hused)
      have hsum := rangeStart_count_le c 16
      have hmax' := hht.room
      rw [symbolSlot]
      omega
    refine ⟨br₁, ?_, h₁⟩
    rw [show 15 - j = (14 - j) + 1 by omega]
    unfold huffDecodeLoop
    rw [hbit, ok_bind]
    dsimp only
    rw [next_bit, Nat.pow_zero, Nat.div_one, fetchAt_eq ht.counts (show j + 1 < 16 by omega),
      ok_bind, hht.counts (j + 1) (by omega), if_pos (by omega), hslot,
      fetchAt_eq ht.symbols hroom, ok_bind, hht.symbols s hs hused]
    rfl
  | succ m ih =>
    obtain ⟨br₁, hbit, h₁⟩ := brBit_at h
    obtain ⟨br₂, hrest, h₂⟩ := ih (j := j + 1) (by omega) h₁
    -- The beginning of a longer word is not a word of this length.
    have hge := CanonicalCode.shift_ge (s := s) (j := j + 1) (c := c) (by omega)
    rw [show c.len s - (j + 1) = m + 1 by omega] at hge
    refine ⟨br₂, ?_, h₂⟩
    rw [show 15 - j = (15 - (j + 1)) + 1 by omega]
    unfold huffDecodeLoop
    rw [hbit, ok_bind]
    dsimp only
    rw [next_bit, fetchAt_eq ht.counts (show j + 1 < 16 by omega), ok_bind,
      hht.counts (j + 1) (by omega), if_neg (by omega), Nat.shiftLeft_eq, Nat.shiftLeft_eq,
      Nat.pow_one, ← rangeStart_succ]
    exact hrest

/-- One word. -/
theorem huffDecode_at (hht : TableOf ht c) {w : List Bool} (hw : c.IsWord s w)
    (h : At br data (w ++ bits)) :
    ∃ br', huffDecode br ht = .ok (some s, br') ∧ At br' data bits := by
  obtain ⟨hs, hused, rfl⟩ := hw
  obtain ⟨m, hm⟩ := Nat.exists_eq_succ_of_ne_zero hused
  have hfits := hht.fits s hs hused
  rw [hm] at h hfits
  have hloop := huffDecodeLoop_at hht hs hused (j := 0) (by omega) h
  rw [Nat.div_eq_of_lt hfits, Nat.zero_add, Nat.sub_zero, Nat.zero_mul, rangeStart_succ,
    c.count_zero] at hloop
  exact hloop

/-! ### Headers -/

theorem codeOrder_eq : ∀ i < 19, codeOrder[i]? = some (cellAt sCodeOrder i) ∧
    codeOrder.idxOf (cellAt sCodeOrder i) = i := by
  decide

/-- The place of a symbol in the order is its own. -/
theorem eq_of_idxOf (hi : i < 19) (h : codeOrder.idxOf s = i) :
    s = cellAt sCodeOrder i := by
  have hlt : codeOrder.idxOf s < codeOrder.length := by rw [h]; exact hi
  have hget := List.getElem_idxOf hlt
  have horder := (codeOrder_eq i hi).1
  subst h
  rw [List.getElem?_eq_getElem hlt, hget] at horder
  exact Option.some.inj horder

/-- The lengths of the code length code. -/
theorem readCodeLengths_at (hmax : cls.length ≤ 19) (hlt : ∀ l ∈ cls, l < 8)
    (h : At br data (cls.flatMap (lowBits 3) ++ bits)) :
    ∃ v br', readCodeLengths cls.length br = .ok (v, br') ∧ At br' data bits ∧
      ∀ s, cellAt v s = (codeLengthCode cls).len s := by
  obtain ⟨⟨v, br'⟩, hr, hat, hcell⟩ := @forUp_ok MzErr _
    (fun i (r : Vector Nat 19 × BitReader) =>
      At r.2 data ((cls.drop i).flatMap (lowBits 3) ++ bits) ∧
      ∀ s, cellAt r.1 s = (cls.take i).getD (codeOrder.idxOf s) 0)
    (fun i r => do
      let sym ← fetchAt sCodeOrder i
      let p ← brBits r.2 3
      return (← storeAt r.1 sym p.1, p.2)) cls.length 0 (Vector.replicate 19 0, br)
    (by
      rintro i ⟨v, br⟩ _ hi ⟨hat, hcell⟩
      rw [Nat.zero_add] at hi
      rw [List.drop_eq_getElem_cons hi, List.flatMap_cons, List.append_assoc] at hat
      obtain ⟨br₁, hbits, h₁⟩ := brBits_at hat (hlt _ (List.getElem_mem hi))
      obtain ⟨v', hstore, hcell'⟩ := storeAt_eq (ε := MzErr) v cls[i]
        (code_order i (show i < 19 by omega))
      rw [fetchAt_eq sCodeOrder (show i < 19 by omega), ok_bind, hbits, ok_bind]
      dsimp only
      rw [hstore, ok_bind]
      refine ⟨_, rfl, h₁, fun s => ?_⟩
      rw [hcell', List.getD_eq_getElem?_getD, List.getElem?_take]
      by_cases hs : s = cellAt sCodeOrder i
      · subst hs
        rw [update_self, (codeOrder_eq i (by omega)).2, if_pos (Nat.lt_succ_self i),
          List.getElem?_eq_getElem hi]
        rfl
      · have hne : codeOrder.idxOf s ≠ i := fun he => hs (eq_of_idxOf (by omega) he)
        rw [update_of_ne hs, hcell, List.getD_eq_getElem?_getD, List.getElem?_take]
        congr 1
        split_ifs <;> first | rfl | omega)
    ⟨h, fun s => by rw [cellAt_replicate_zero, List.take_zero]; rfl⟩
  rw [Nat.zero_add, List.drop_length] at hat
  rw [Nat.zero_add, List.take_length] at hcell
  exact ⟨v, br', hr, hat, hcell⟩

/-- The lengths that cells stand for. -/
def lengthsIn (cells : List (Option Nat)) : List Nat := cells.map fun c => c.getD 0

@[simp] theorem length_lengthsIn (cells : List (Option Nat)) :
    (lengthsIn cells).length = cells.length :=
  List.length_map _

theorem lengthAt_eq (cells : List (Option Nat)) (i : Nat) :
    lengthAt cells i = (lengthsIn cells).getD i 0 := by
  unfold lengthAt lengthsIn
  rw [List.getD_eq_getElem?_getD, List.getElem?_map]
  rcases cells[i]? with _ | _ | v <;> rfl

/-- The code lengths that a valid header spells. -/
theorem codeLengths_at (hht : TableOf ht c) {total : Nat}
    {ls ls' : List Nat} (h : LengthRuns c total ls bits ls' rest) {cells : List (Option Nat)}
    (hat : At br data bits) (hturns : bits.length < turns) (hcells : lengthsIn cells = ls) :
    ∃ cells' br', codeLengths ht total turns cells br = { cells := cells', rest := some br' } ∧
      At br' data rest ∧ lengthsIn cells' = ls' ∧ ls'.length = total := by
  induction h generalizing turns cells br with
  | done hlen =>
    obtain ⟨turns, rfl⟩ : ∃ t, turns = t + 1 := ⟨turns - 1, by omega⟩
    subst hcells
    rw [length_lengthsIn] at hlen
    refine ⟨cells, br, ?_, hat, rfl, by rw [length_lengthsIn, hlen]⟩
    unfold codeLengths
    rw [if_neg (by omega)]
  | @length ls ls' w bits rest s word hs room next ih =>
    obtain ⟨turns, rfl⟩ : ∃ t, turns = t + 1 := ⟨turns - 1, by omega⟩
    have hpos := word.pos
    subst hcells
    rw [length_lengthsIn] at room
    rw [List.length_append] at hturns
    obtain ⟨br₁, hdec, h₁⟩ := huffDecode_at hht word hat
    unfold codeLengths
    rw [if_pos room, hdec]
    dsimp only
    rw [if_pos hs]
    exact ih h₁ (by omega) (by simp [lengthsIn])
  | @copy ls ls' w bits rest v prev word hv hprev room next ih =>
    obtain ⟨turns, rfl⟩ : ∃ t, turns = t + 1 := ⟨turns - 1, by omega⟩
    have hpos := word.pos
    subst hcells
    rw [length_lengthsIn] at room
    rw [List.length_append, List.length_append] at hturns
    obtain ⟨br₁, hdec, h₁⟩ := huffDecode_at hht word hat
    obtain ⟨br₂, hbits, h₂⟩ := brBits_at h₁ hv
    have hne : cells.length ≠ 0 := by
      intro hzero
      rw [List.length_eq_zero_iff] at hzero
      rw [hzero] at hprev
      exact absurd hprev (by simp [lengthsIn])
    have hlast : lengthAt cells (cells.length - 1) = prev := by
      rw [lengthAt_eq, List.getD_eq_getElem?_getD, ← length_lengthsIn, ← List.getLast?_eq_getElem?,
        hprev]
      rfl
    unfold codeLengths
    rw [if_pos (by omega), hdec]
    dsimp only
    rw [if_neg (by decide), if_pos rfl, if_neg hne, hbits]
    dsimp only
    rw [Nat.min_eq_left (by omega), hlast]
    exact ih h₂ (by omega) (by simp [lengthsIn])
  | @zeros ls ls' w bits rest v word hv room next ih =>
    obtain ⟨turns, rfl⟩ : ∃ t, turns = t + 1 := ⟨turns - 1, by omega⟩
    have hpos := word.pos
    subst hcells
    rw [length_lengthsIn] at room
    rw [List.length_append, List.length_append] at hturns
    obtain ⟨br₁, hdec, h₁⟩ := huffDecode_at hht word hat
    obtain ⟨br₂, hbits, h₂⟩ := brBits_at h₁ hv
    unfold codeLengths
    rw [if_pos (by omega), hdec]
    dsimp only
    rw [if_neg (by decide), if_neg (by decide), if_pos rfl, hbits]
    dsimp only
    rw [if_neg (by omega)]
    exact ih h₂ (by omega) (by simp [lengthsIn])
  | @manyZeros ls ls' w bits rest v word hv room next ih =>
    obtain ⟨turns, rfl⟩ : ∃ t, turns = t + 1 := ⟨turns - 1, by omega⟩
    have hpos := word.pos
    subst hcells
    rw [length_lengthsIn] at room
    rw [List.length_append, List.length_append] at hturns
    obtain ⟨br₁, hdec, h₁⟩ := huffDecode_at hht word hat
    obtain ⟨br₂, hbits, h₂⟩ := brBits_at h₁ hv
    unfold codeLengths
    rw [if_pos (by omega), hdec]
    dsimp only
    rw [if_neg (by decide), if_neg (by decide), if_neg (by decide), if_pos rfl, hbits]
    dsimp only
    rw [if_neg (by omega)]
    exact ih h₂ (by omega) (by simp [lengthsIn])

theorem getD_lt (hlt : ∀ l ∈ cls, l < n) (hn : 0 < n) (i : Nat) :
    cls.getD i 0 < n := by
  rw [List.getD_eq_getElem?_getD]
  by_cases hi : i < cls.length
  · rw [List.getElem?_eq_getElem hi]
    exact hlt _ (List.getElem_mem hi)
  · rw [List.getElem?_eq_none (Nat.le_of_not_lt hi)]
    exact hn

/-- The first part of a header. -/
theorem dynamicHeader_at {hlit hdist : Nat} (hlit_min : 257 ≤ hlit)
    (hlit_max : hlit ≤ 286) (hdist_min : 1 ≤ hdist) (hdist_max : hdist ≤ 32)
    (hcls_min : 4 ≤ cls.length) (hcls_max : cls.length ≤ 19) (hlt : ∀ l ∈ cls, l < 8)
    (hfits : (codeLengthCode cls).Fits)
    (h : At br data (lowBits 5 (hlit - 257) ++ (lowBits 5 (hdist - 1) ++
      (lowBits 4 (cls.length - 4) ++ (cls.flatMap (lowBits 3) ++ bits))))) :
    ∃ code_ht br', dynamicHeader br = .ok (hlit, hdist, code_ht, br') ∧
      TableOf code_ht (codeLengthCode cls) ∧ At br' data bits := by
  obtain ⟨br₁, hone, h₁⟩ := brBits_at h (by omega)
  obtain ⟨br₂, htwo, h₂⟩ := brBits_at h₁ (by omega)
  obtain ⟨br₃, hthree, h₃⟩ := brBits_at h₂ (by omega)
  obtain ⟨v, br₄, hcls, h₄, hcell⟩ := readCodeLengths_at hcls_max hlt h₃
  obtain ⟨code_ht, left, hbuild, htable⟩ :=
    @huffBuild_table 19 v (codeLengthCode cls) le_rfl (by decide : 19 ≤ 288) (fun s _ => hcell s)
      (fun s _ => (getD_lt hlt (by decide) _).le.trans (by decide)) hfits
  refine ⟨code_ht, br₄, ?_, htable, h₄⟩
  unfold dynamicHeader
  rw [hone, ok_bind]
  dsimp only
  rw [htwo, ok_bind]
  rw [hthree, ok_bind]
  rw [Nat.sub_add_cancel hlit_min, Nat.sub_add_cancel hdist_min, Nat.sub_add_cancel hcls_min, hcls,
    ok_bind]
  rw [show (codeLengthCode cls).n = 19 from rfl] at hbuild
  rw [hbuild]
  rfl

/-- A header that gives at most 30 lengths for distances leads to the tables of its codes; any
other one is read past `dist_lengths`. -/
theorem dynamicTables_at (h : Header D bits lit dist rest) (hD : D ≤ 32) (hat : At br data bits) :
    (dist.n ≤ 30 → ∃ lit_ht dist_ht br', dynamicTables br = .ok (lit_ht, dist_ht, br') ∧
      TableOf lit_ht lit ∧ TableOf dist_ht dist ∧ At br' data rest) ∧
    (30 < dist.n → dynamicTables br = .fault) := by
  cases h with
  | @mk hlit hdist cls ls bits _ lit_min lit_max dist_min dist_max cls_min cls_max cls_lt cls_fits
      runs lit_fits dist_fits =>
    obtain ⟨code_ht, br₁, hheader, hcode, h₁⟩ := dynamicHeader_at lit_min lit_max dist_min
      (dist_max.trans hD) cls_min cls_max cls_lt cls_fits hat
    have hturns : bits.length < 8 * br₁.data.length + 1 := by
      rw [← h₁.left]
      exact left_lt br₁
    obtain ⟨cells, br₂, hcells, h₂, hls, htotal⟩ :=
      codeLengths_at hcode runs h₁ hturns (show lengthsIn [] = [] from rfl)
    have hhl : headerLengths hlit hdist code_ht br₁ = { cells := cells, rest := some br₂ } := hcells
    have hle : ∀ i, lengthAt cells i ≤ 15 := by
      intro i
      have := headerLengths_le hlit hdist code_ht br₁ i
      rwa [hhl] at this
    have hlen : ∀ i, lengthAt cells i = ls.getD i 0 := fun i => by rw [lengthAt_eq, hls]
    -- The literal code has room in any case.
    obtain ⟨lit_ht, left, hlit_build, hlit_table⟩ :=
      @huffBuild_table 288 (lengthsOf hlit cells).lit (litCode hlit ls) (show hlit ≤ 288 by omega)
        (show hlit ≤ 288 by omega)
        (fun s (hs : s < hlit) => by
          rw [cellAt_lit (by omega), if_pos hs]
          exact hlen s)
        (fun s _ => (hlen s).symm.trans_le (hle s)) lit_fits
    rw [show (litCode hlit ls).n = hlit from rfl] at hlit_build
    constructor
    · intro (hfew : hdist ≤ 30)
      have hpast : ¬ PastEnd hlit cells := by
        rintro ⟨c, hmem, -⟩
        have hcount : cells.length = hlit + hdist := by
          rw [← length_lengthsIn, hls, htotal]
        rw [List.drop_eq_nil_of_le (by omega)] at hmem
        exact absurd hmem List.not_mem_nil
      obtain ⟨dist_ht, left', hdist_build, hdist_table⟩ :=
        @huffBuild_table 30 (lengthsOf hlit cells).dist (distCode hlit hdist ls) hfew
          (show hdist ≤ 288 by omega)
          (fun s (hs : s < hdist) => by
            rw [cellAt_dist (by omega)]
            exact hlen (hlit + s))
          (fun s _ => (hlen (hlit + s)).symm.trans_le (hle _)) dist_fits
      rw [show (distCode hlit hdist ls).n = hdist from rfl] at hdist_build
      have hreads := @readLengths_header hlit hdist code_ht hcode.good (by omega) br₁ h₁.inside
      rw [hhl] at hreads
      refine ⟨lit_ht, dist_ht, br₂, ?_, hlit_table, hdist_table, h₂⟩
      unfold dynamicTables
      rw [hheader, ok_bind]
      dsimp only
      rw [hreads.read hpast br₂ rfl, ok_bind]
      rw [hlit_build, ok_bind]
      rw [hdist_build]
      rfl
    · intro (hmany : 30 < hdist)
      apply dynamicTables_overrun hat.inside
      refine ⟨hlit, hdist, code_ht, br₁, hheader, Or.inr ⟨hmany, ?_, (lit_ht, left), ?_⟩⟩
      · rw [hhl]
        rfl
      · rw [hhl]
        exact hlit_build

/-! ### The output -/

/-- A buffer with the bytes `bs`. -/
structure Holds (out : OutBuf) (bs : Bytes) : Prop where
  bytes : out.bytes = bs
  fits : out.Fits

theorem Holds.pos (h : Holds out bs) : out.pos = bs.length := by
  rw [← h.bytes, OutBuf.pos]

/-- A match, byte by byte. -/
theorem outputCopy_at {m : Bytes} {dist : Nat} (h : Holds out bs)
    (hpos : 1 ≤ dist) (hback : dist ≤ bs.length) (hroom : bs.length + m.length ≤ out.cap)
    (hrep : CopiedBack bs dist m) :
    ∃ o, outputCopy dist m.length out = .ok o ∧ Holds o (bs ++ m) := by
  obtain ⟨o, ho, hbytes, hcap⟩ := @forUp_ok MzErr _
    (fun i (o : OutBuf) => o.bytes = bs ++ m.take i ∧ o.cap = out.cap)
    (fun _ o => do
      let b ← o.back dist
      o.push b) m.length 0 out
    (by
      rintro i ⟨bytes, cap⟩ _ hi ⟨hbytes, hcap⟩
      rw [Nat.zero_add] at hi
      subst hbytes hcap
      have hlen : (bs ++ m.take i).length = bs.length + i := by
        rw [List.length_append, List.length_take, Nat.min_eq_left hi.le]
      -- The byte that is read has been written, and it is the next one of the match.
      have hread : (bs ++ m.take i)[bs.length + i - dist]? = some m[i] := by
        have htake : bs ++ m.take i = (bs ++ m).take (bs.length + i) := by
          rw [List.take_length_add_append]
        rw [htake, List.getElem?_take_of_lt (by omega), ← hrep i hi,
          List.getElem?_append_right (Nat.le_add_right _ _), Nat.add_sub_cancel_left,
          List.getElem?_eq_getElem hi]
      refine ⟨{ bytes := bs ++ m.take i ++ [m[i]], cap := out.cap }, ?_, ?_, rfl⟩
      · unfold OutBuf.back OutBuf.push OutBuf.pos
        dsimp only
        rw [hlen, if_pos ⟨by omega, by omega⟩, hread, ok_bind, if_pos (by omega)]
      · rw [List.append_assoc, List.take_concat_get' m i hi])
    ⟨by rw [List.take_zero, List.append_nil, h.bytes], rfl⟩
  rw [Nat.zero_add, List.take_length] at hbytes
  refine ⟨o, ho, hbytes, ?_, hcap ▸ h.fits.2⟩
  rw [OutBuf.pos, hbytes, hcap, List.length_append]
  exact hroom

theorem length_tables : ∀ i < 29,
    cellAt sLengthBase i = lengthBase i ∧ cellAt sLengthExtra i = lengthExtra i := by
  decide

theorem dist_tables : ∀ d < 30,
    cellAt sDistBase d = distBase d ∧ cellAt sDistExtra d = distExtra d := by
  decide

/-- One turn of the loop over the symbols. -/
theorem decodeSymbols_succ {grants : Nat → Bool} {sym : Nat} {br₁ : BitReader}
    (h : huffDecode br lit_ht = .ok (some sym, br₁)) :
    decodeSymbols grants lit_ht dist_ht (turns + 1) br out
      = if sym < 256 then
          out.reserveLiteral grants >>= fun out =>
            out.push (UInt8.ofNat sym) >>= decodeSymbols grants lit_ht dist_ht turns br₁
        else if sym = 256 then .ok (br₁, out)
        else
          inflateMatch grants dist_ht (sym - 257) br₁ out >>= fun r =>
            decodeSymbols grants lit_ht dist_ht turns r.1 r.2 := by
  have hone : decodeSymbols grants lit_ht dist_ht (turns + 1) br out
      = (huffDecode br lit_ht >>= _) := rfl
  rw [h, ok_bind] at hone
  dsimp only at hone
  rw [hone]
  split
  · rfl
  · split
    · rfl
    · rfl

section output

variable {grants : Nat → Bool} (hgrants : ∀ n, grants n = true → n ≤ 2 ^ 62) {N : Nat}
  (hmem : ∀ n ≤ 2 * N + 2 ^ 18, grants n = true)

include hgrants hmem

/-- Room for a piece of the output is granted. -/
theorem reserve_at {len : Nat} (h : Holds out bs) (hlen : len ≤ 65535) (hN : bs.length + len ≤ N) :
    ∃ o, out.reserve grants len = .ok o ∧ Holds o bs ∧ bs.length + len ≤ o.cap := by
  have hsat := reserve_sat hgrants h.fits hlen
  have hpos := h.pos
  have hok : ∃ c, out.reserve grants len = .ok { out with cap := c } := by
    unfold OutBuf.reserve OutBuf.grow
    split
    · rename_i hmore
      rw [if_pos (hmem _ ((Nat.mod_le _ _).trans (by omega)))]
      exact ⟨_, rfl⟩
    · exact ⟨out.cap, rfl⟩
  obtain ⟨c, hc⟩ := hok
  obtain ⟨hfits, -, hroom⟩ := hsat.of_ok hc
  exact ⟨_, hc, ⟨h.bytes, hfits⟩, hpos ▸ hroom⟩

/-- Room for a literal is granted. -/
theorem reserveLiteral_at (h : Holds out bs) (hN : bs.length ≤ N) :
    ∃ o, out.reserveLiteral grants = .ok o ∧ Holds o bs ∧ bs.length < o.cap := by
  have hsat := reserveLiteral_sat hgrants h.fits
  have hpos := h.pos
  have hok : ∃ c, out.reserveLiteral grants = .ok { out with cap := c } := by
    unfold OutBuf.reserveLiteral OutBuf.grow
    split
    · rename_i hmore
      rw [if_pos (hmem _ ((Nat.mod_le _ _).trans (by omega)))]
      exact ⟨_, rfl⟩
    · exact ⟨out.cap, rfl⟩
  obtain ⟨c, hc⟩ := hok
  obtain ⟨hfits, -, hroom⟩ := hsat.of_ok hc
  exact ⟨_, hc, ⟨h.bytes, hfits⟩, hpos ▸ hroom⟩

/-- A match, after the symbol of its length. -/
theorem inflateMatch_at (hdist : TableOf dist_ht dist) {d v' : Nat} {w' : List Bool} {m : Bytes}
    (hi : i < 29) (hv : v < 2 ^ lengthExtra i) (word' : dist.IsWord d w') (hd : d < 30)
    (hv' : v' < 2 ^ distExtra d) (length : m.length = lengthBase i + v)
    (back : distBase d + v' ≤ bs.length) (copied : CopiedBack bs (distBase d + v') m)
    (hN : (bs ++ m).length ≤ N)
    (h : At br data (lowBits (lengthExtra i) v ++ (w' ++ (lowBits (distExtra d) v' ++ bits))))
    (hout : Holds out bs) :
    ∃ br' o, inflateMatch grants dist_ht i br out = .ok (br', o) ∧ At br' data bits ∧
      Holds o (bs ++ m) := by
  obtain ⟨hlbase, hlextra⟩ := length_tables i hi
  obtain ⟨hdbase, hdextra⟩ := dist_tables d hd
  obtain ⟨br₁, hone, h₁⟩ := brBits_at h hv
  obtain ⟨br₂, htwo, h₂⟩ := huffDecode_at hdist word' h₁
  obtain ⟨br₃, hthree, h₃⟩ := brBits_at h₂ hv'
  have hlen : m.length ≤ 65535 := by
    have hmax := length_table i hi
    rw [hlbase, hlextra] at hmax
    have hv := hv.trans_le (Nat.pow_le_pow_right (by decide : 0 < 2) hmax.2)
    omega
  have hdpos : 1 ≤ distBase d := hdbase ▸ dist_table d hd
  rw [List.length_append] at hN
  obtain ⟨o₁, hreserve, hholds, hroom⟩ := reserve_at hgrants hmem hout hlen hN
  obtain ⟨o₂, hcopy, hholds₂⟩ := outputCopy_at hholds (by omega) back hroom copied
  refine ⟨br₃, o₂, ?_, h₃, hholds₂⟩
  unfold inflateMatch
  rw [if_neg (by omega), fetchAt_eq _ hi, ok_bind, fetchAt_eq _ hi, ok_bind,
    hlbase, hlextra, hone, ok_bind]
  dsimp only
  rw [htwo, ok_bind]
  dsimp only
  rw [if_neg (by omega), fetchAt_eq _ hd, ok_bind, fetchAt_eq _ hd, ok_bind,
    hdbase, hdextra, hthree, ok_bind]
  rw [hout.pos, if_neg (by omega), ← length, hreserve, ok_bind, hcopy]
  rfl

/-- The symbols of a block. -/
theorem decodeSymbols_at (hlit : TableOf lit_ht lit) (hdist : TableOf dist_ht dist)
    (hsyms : Symbols lit dist bits bs rest bs') (hN : bs'.length ≤ N) (h : At br data bits)
    (hturns : bits.length < turns) (hout : Holds out bs) :
    ∃ br' o, decodeSymbols grants lit_ht dist_ht turns br out = .ok (br', o) ∧
      At br' data rest ∧ Holds o bs' := by
  induction hsyms generalizing turns br out with
  | @literal s w bits rest bs bs' word hs next ih =>
    obtain ⟨turns, rfl⟩ : ∃ t, turns = t + 1 := ⟨turns - 1, by omega⟩
    have hpos := word.pos
    rw [List.length_append] at hturns
    have hgrow := next.length_le
    rw [List.length_append, List.length_singleton] at hgrow
    obtain ⟨br₁, hdec, h₁⟩ := huffDecode_at hlit word h
    obtain ⟨o₁, hreserve, hholds, hroom⟩ :=
      reserveLiteral_at hgrants hmem hout (show bs.length ≤ N by omega)
    have hpush := push_sat hholds.fits (b := UInt8.ofNat s) (by rwa [hholds.pos])
    unfold OutBuf.push at hpush
    rw [if_pos (by rwa [hholds.pos])] at hpush
    obtain ⟨br₂, o₂, hrest, h₂, hholds₂⟩ := ih hN h₁ (show bits.length < turns by omega)
      (show Holds { o₁ with bytes := o₁.bytes ++ [UInt8.ofNat s] } _ from
        ⟨by rw [hholds.bytes], hpush.1⟩)
    refine ⟨br₂, o₂, ?_, h₂, hholds₂⟩
    rw [decodeSymbols_succ hdec, if_pos hs, hreserve, ok_bind]
    unfold OutBuf.push
    rw [if_pos (by rwa [hholds.pos]), ok_bind]
    exact hrest
  | @endOfBlock w rest bs word =>
    obtain ⟨turns, rfl⟩ : ∃ t, turns = t + 1 := ⟨turns - 1, by omega⟩
    obtain ⟨br₁, hdec, h₁⟩ := huffDecode_at hlit word h
    refine ⟨br₁, out, ?_, h₁, hout⟩
    rw [decodeSymbols_succ hdec, if_neg (Nat.lt_irrefl 256), if_pos rfl]
  | @copy i v d v' w w' bits rest m bs bs' word hi hv word' hd hv' length back copied next ih =>
    obtain ⟨turns, rfl⟩ : ∃ t, turns = t + 1 := ⟨turns - 1, by omega⟩
    have hpos := word.pos
    simp only [List.length_append] at hturns
    obtain ⟨br₁, hdec, h₁⟩ := huffDecode_at hlit word h
    obtain ⟨br₂, o₁, hmatch, h₂, hholds⟩ := inflateMatch_at hgrants hmem hdist hi hv word' hd hv'
      length back copied (next.length_le.trans hN) h₁ hout
    obtain ⟨br₃, o₂, hrest, h₃, hholds₂⟩ := ih hN h₂ (show bits.length < turns by omega) hholds
    refine ⟨br₃, o₂, ?_, h₃, hholds₂⟩
    rw [decodeSymbols_succ hdec, if_neg (by omega), if_neg (by omega), Nat.add_sub_cancel_left,
      hmatch, ok_bind]
    exact hrest

/-- A stored block, after the type bits. -/
theorem inflateStored_at {more : Bytes}
    {padding : List Bool} (hpad : padding.length < 8) (haligned : rest.length % 8 = 0)
    (hlen : more.length < 2 ^ 16) (hN : (bs ++ more).length ≤ N)
    (h : At br data (padding ++ (lowBits 16 more.length ++ (lowBits 16 (65535 - more.length) ++
      (streamBits more ++ rest))))) (hout : Holds out bs) :
    ∃ br' o, inflateStored grants br out = .ok (br', o) ∧ At br' data rest ∧
      Holds o (bs ++ more) := by
  obtain ⟨h₀, hzero⟩ := brAlign_at hpad (by
    simp only [List.length_append, length_lowBits, length_streamBits]
    omega) h
  rw [lowBits_bytes, lowBits_bytes] at h₀
  obtain ⟨hd0, h₁⟩ := byte_at h₀ hzero (Nat.mod_lt _ (Nat.two_pow_pos 8))
  obtain ⟨hd1, h₂⟩ := byte_at h₁ hzero (by omega)
  obtain ⟨hd2, h₃⟩ := byte_at h₂ hzero (Nat.mod_lt _ (Nat.two_pow_pos 8))
  obtain ⟨hd3, h₄⟩ := byte_at h₃ hzero (by omega)
  obtain ⟨hinside, hcopy, h₅⟩ := bytes_at h₄ hzero
  rw [List.length_append] at hN
  obtain ⟨o, hreserve, hholds, hroom⟩ :=
    reserve_at hgrants hmem hout (show more.length ≤ 65535 by omega) hN
  refine ⟨_, { o with bytes := bs ++ more }, ?_, h₅, rfl, ?_, hholds.fits.2⟩
  · unfold inflateStored
    dsimp only at hd0 hd1 hd2 hd3 hinside hcopy ⊢
    unfold BitReader.byte at hd0 hd1 hd2 hd3 ⊢
    rw [if_neg (by omega), hd0, ok_bind, hd1, ok_bind, hd2, ok_bind, hd3,
      ok_bind, bytes_or, bytes_or, if_neg (fun hne => hne rfl), hreserve,
      ok_bind, if_neg (by omega)]
    unfold copyStored
    rw [if_pos ⟨hinside, by rw [hholds.pos]; exact hroom⟩, hholds.bytes, hcopy]
  · rw [OutBuf.pos, List.length_append]
    exact hroom

end output

/-! ### Blocks -/

/-- The distance code that the decoder uses for fixed codes; the two symbols it leaves out stand
for no distance. -/
def decoderDist : CanonicalCode where
  n := 30
  len := fun _ => 5

theorem count_of_five {k : Nat} (hk : k ≠ 5) :
    CanonicalCode.count { n := n, len := fun _ => 5 } k = 0 := by
  by_cases h0 : k = 0
  · rw [h0, CanonicalCode.count_zero]
  · rw [CanonicalCode.count_pos _ h0]
    exact tally_of_forall_ne fun _ _ => Ne.symm hk

theorem nextCode_of_five (n : Nat) :
    CanonicalCode.nextCode { n := n, len := fun _ => 5 } 5 = 0 :=
  CanonicalCode.nextCode_eq_zero fun _ hj => count_of_five (Nat.ne_of_lt hj)

theorem isWord_decoderDist {d : Nat} {w : List Bool} (hd : d < 30) (h : fixedDist.IsWord d w) :
    decoderDist.IsWord d w := by
  refine ⟨hd, (by decide : 5 ≠ 0), ?_⟩
  have hnumber : decoderDist.number d = fixedDist.number d := by
    unfold CanonicalCode.number
    exact congrArg (· + tally (fun _ => 5) d 5)
      ((nextCode_of_five 30).trans (nextCode_of_five 32).symm)
  rw [h.word, hnumber]
  rfl

theorem decoderDist_fits : decoderDist.Fits := by
  intro d (hd : d < 30) _
  have htally : tally (fun _ => 5) d 5 ≤ d := Nat.count_le _
  have hnext : decoderDist.number d = 0 + tally (fun _ => 5) d 5 :=
    congrArg (· + _) (nextCode_of_five 30)
  rw [hnext]
  show _ < 2 ^ 5
  omega

theorem count_fixedLit {k : Nat} (hk : k < 16) (h0 : k ≠ 0) : fixedLit.count k
    = cellAt #v[0, 0, 0, 0, 0, 0, 0, 24, 152, 112, 0, 0, 0, 0, 0, 0] k :=
  (fixedLit.count_pos h0).trans (tally_fixedLit k hk)

theorem nextCode_fixedLit_seven : fixedLit.nextCode 7 = 0 := by
  apply CanonicalCode.nextCode_eq_zero
  intro j hj
  by_cases h0 : j = 0
  · rw [h0, CanonicalCode.count_zero]
  · rw [count_fixedLit (by omega) h0]
    revert j
    decide

theorem nextCode_fixedLit_eight : fixedLit.nextCode 8 = 48 := by
  rw [CanonicalCode.nextCode, nextCode_fixedLit_seven, count_fixedLit (by decide) (by decide)]
  rfl

/-- The words of the fixed literal/length code: 24 of 7 bits, 152 of 8 bits and 112 of 9 bits. -/
theorem fixedLit_fits : fixedLit.Fits := by
  have h9 : fixedLit.nextCode 9 = 400 := by
    rw [CanonicalCode.nextCode, nextCode_fixedLit_eight, count_fixedLit (by decide) (by decide)]
    rfl
  intro s hs hused
  refine (CanonicalCode.number_mem hs hused).2.trans_le ?_
  have hlen : fixedLit.len s = 7 ∨ fixedLit.len s = 8 ∨ fixedLit.len s = 9 := by
    unfold fixedLit
    dsimp only
    split_ifs <;> simp
  rcases hlen with h | h | h
  · rw [h, nextCode_fixedLit_seven, count_fixedLit (by decide) (by decide)]
    decide
  · rw [h, nextCode_fixedLit_eight, count_fixedLit (by decide) (by decide)]
    decide
  · rw [h, h9, count_fixedLit (by decide) (by decide)]
    decide

/-- The words of the first 144 symbols of the fixed literal/length code. -/
theorem isWord_fixedLit_eight (hs : s ≤ 143) : fixedLit.IsWord s (bitsOf 8 (48 + s)) := by
  have hlen : ∀ i ≤ s, fixedLit.len i = 8 := fun i hi => if_pos (hi.trans hs)
  have htally : tally fixedLit.len s 8 = s :=
    Nat.count_iff_forall.mpr fun i hi => hlen i hi.le
  refine ⟨hs.trans_lt (by decide), ?_, ?_⟩
  · rw [hlen s le_rfl]
    decide
  · rw [CanonicalCode.number, hlen s le_rfl, nextCode_fixedLit_eight, htally]

/-- The words of the symbols 256 to 279. -/
theorem isWord_fixedLit_seven (hlo : 256 ≤ s) (hhi : s ≤ 279) :
    fixedLit.IsWord s (bitsOf 7 (s - 256)) := by
  have hlen : ∀ i, 256 ≤ i → i ≤ s → fixedLit.len i = 7 := by
    intro i hlo hi
    unfold fixedLit
    dsimp only
    rw [if_neg (by omega), if_neg (by omega), if_pos (by omega)]
  have htally : tally fixedLit.len s 7 = s - 256 := by
    have hnone : Nat.count (fun i => fixedLit.len i = 7) 256 = 0 := by
      apply Nat.count_iff_forall_not.mpr
      intro i hi
      unfold fixedLit
      dsimp only
      split_ifs <;> omega
    have hall : Nat.count (fun k => fixedLit.len (256 + k) = 7) (s - 256) = s - 256 :=
      Nat.count_iff_forall.mpr fun k hk => hlen _ (by omega) (by omega)
    obtain ⟨k, rfl⟩ := Nat.exists_eq_add_of_le hlo
    rw [tally, Nat.count_add, hnone, Nat.zero_add]
    rwa [Nat.add_sub_cancel_left] at hall ⊢
  refine ⟨hhi.trans_lt (by decide), ?_, ?_⟩
  · rw [hlen s hlo le_rfl]
    decide
  · rw [CanonicalCode.number, hlen s hlo le_rfl, nextCode_fixedLit_seven, htally, Nat.zero_add]

theorem isWord_fixedDist (hs : s < 32) : fixedDist.IsWord s (bitsOf 5 s) := by
  refine ⟨hs, (by decide : 5 ≠ 0), ?_⟩
  have htally : tally fixedDist.len s 5 = s := Nat.count_iff_forall.mpr fun _ _ => rfl
  have hnext : fixedDist.nextCode 5 = 0 := nextCode_of_five 32
  rw [CanonicalCode.number, show fixedDist.len s = 5 from rfl, hnext, htally, Nat.zero_add]

theorem tablesFor_eq {lit_lengths : Vector Nat 288} {dist_lengths : Vector Nat 30}
    {left left' : Int} (hlit : huffBuild lit_lengths 288 = .ok (some (lit_ht, left)))
    (hdist : huffBuild dist_lengths 30 = .ok (some (dist_ht, left'))) :
    tablesFor lit_lengths dist_lengths = .ok (lit_ht, dist_ht) := by
  unfold tablesFor
  rw [hlit, hdist]
  rfl

/-- The tables for fixed codes. -/
theorem fixedTables_at : ∃ lit_ht dist_ht, fixedTables = .ok (lit_ht, dist_ht) ∧
    TableOf lit_ht fixedLit ∧ TableOf dist_ht decoderDist := by
  have hlit_le : ∀ s, fixedLit.len s ≤ 15 := by
    intro s
    unfold fixedLit
    dsimp only
    split_ifs <;> decide
  obtain ⟨lit_ht, left, hlit, hlit_table⟩ := @huffBuild_table 288 fixedLitLengths fixedLit le_rfl
    le_rfl (fun s hs => cellAt_fixedLit hs) (fun s _ => hlit_le s) fixedLit_fits
  obtain ⟨dist_ht, left', hdist, hdist_table⟩ := @huffBuild_table 30 fixedDistLengths decoderDist
    le_rfl (by decide : 30 ≤ 288) (fun s hs => cellAt_fixedDist hs)
    (fun _ _ => (by decide : 5 ≤ 15)) decoderDist_fits
  exact ⟨lit_ht, dist_ht, tablesFor_eq hlit hdist, hlit_table, hdist_table⟩

/-- Symbols of a block with fixed codes, in the codes of the decoder. -/
theorem symbols_decoderDist (h : Symbols fixedLit fixedDist bits bs rest bs') :
    Symbols fixedLit decoderDist bits bs rest bs' := by
  induction h with
  | literal word hs _ ih => exact .literal word hs ih
  | endOfBlock word => exact .endOfBlock word
  | copy word hi hv word' hd hv' length back copied _ ih =>
    exact .copy word hi hv (isWord_decoderDist hd word') hd hv' length back copied ih

section output

variable {grants : Nat → Bool} (hgrants : ∀ n, grants n = true → n ≤ 2 ^ 62) {N : Nat}
  (hmem : ∀ n ≤ 2 * N + 2 ^ 18, grants n = true)

include hgrants hmem

/-- A block whose header, if it has one, gives at most 30 lengths for distances. -/
theorem inflateBlockWith_at {fixed : Run (HuffTable × HuffTable)} {fixed_lit fixed_dist : HuffTable}
    (hfixed : fixed = .ok (fixed_lit, fixed_dist)) (hlit : TableOf fixed_lit fixedLit)
    (hdist : TableOf fixed_dist decoderDist) (hblock : Block 30 final bits bs rest bs')
    (hN : bs'.length ≤ N) (h : At br data bits) (hout : Holds out bs) :
    ∃ br' o, inflateBlockWith fixed grants br out = .ok (final, br', o) ∧ At br' data rest ∧
      Holds o bs' := by
  have hfinal : decide (final.toNat = 1) = final := by cases final <;> rfl
  cases hblock with
  | stored pad aligned hlen =>
    obtain ⟨br₁, hbit, h₁⟩ := brBit_at h
    obtain ⟨br₂, htype, h₂⟩ := brBits_at h₁ (by decide)
    obtain ⟨br₃, o, hstored, h₃, hholds⟩ :=
      inflateStored_at hgrants hmem pad aligned hlen hN h₂ hout
    refine ⟨br₃, o, ?_, h₃, hholds⟩
    unfold inflateBlockWith
    rw [hbit, ok_bind]
    dsimp only
    rw [htype, ok_bind]
    rw [if_pos rfl, hstored, ok_bind]
    rw [hfinal]
    rfl
  | fixed symbols =>
    obtain ⟨br₁, hbit, h₁⟩ := brBit_at h
    obtain ⟨br₂, htype, h₂⟩ := brBits_at h₁ (by decide)
    obtain ⟨br₃, o, hdecode, h₃, hholds⟩ := decodeSymbols_at hgrants hmem hlit hdist
      (symbols_decoderDist symbols) hN h₂ (h₂.left ▸ left_lt br₂) hout
    refine ⟨br₃, o, ?_, h₃, hholds⟩
    unfold inflateBlockWith
    rw [hbit, ok_bind]
    dsimp only
    rw [htype, ok_bind]
    dsimp only
    rw [if_neg (by decide), if_pos rfl, hfixed, ok_bind]
    rw [hdecode, ok_bind]
    rw [hfinal]
    rfl
  | dynamic header symbols =>
    obtain ⟨br₁, hbit, h₁⟩ := brBit_at h
    obtain ⟨br₂, htype, h₂⟩ := brBits_at h₁ (by decide)
    obtain ⟨lit_ht, dist_ht, br₃, htables, hlit, hdist, h₃⟩ :=
      (dynamicTables_at header (by decide) h₂).1 header.dist_le
    obtain ⟨br₄, o, hdecode, h₄, hholds⟩ := decodeSymbols_at hgrants hmem hlit hdist
      symbols hN h₃ (h₃.left ▸ left_lt br₃) hout
    refine ⟨br₄, o, ?_, h₄, hholds⟩
    unfold inflateBlockWith
    rw [hbit, ok_bind]
    dsimp only
    rw [htype, ok_bind]
    dsimp only
    rw [if_neg (by decide), if_neg (by decide), if_pos rfl, htables, ok_bind]
    dsimp only
    rw [hdecode, ok_bind]
    dsimp only
    rw [hfinal]
    rfl

theorem inflateBlock_at (hblock : Block 30 final bits bs rest bs') (hN : bs'.length ≤ N)
    (h : At br data bits) (hout : Holds out bs) :
    ∃ br' o, inflateBlock grants br out = .ok (final, br', o) ∧ At br' data rest ∧
      Holds o bs' := by
  obtain ⟨lit_ht, dist_ht, htables, hlit, hdist⟩ := fixedTables_at
  exact inflateBlockWith_at hgrants hmem htables hlit hdist hblock hN h hout

omit hgrants hmem in
/-- A header with more than 30 lengths for distances is read past `dist_lengths`. -/
theorem inflateBlockWith_many (hD : D ≤ 32) (fixed : Run (HuffTable × HuffTable))
    (header : Header D bits lit dist rest) (hmany : 30 < dist.n) (out : OutBuf)
    (h : At br data (final :: (lowBits 2 2 ++ bits))) :
    inflateBlockWith fixed grants br out = .fault := by
  obtain ⟨br₁, hbit, h₁⟩ := brBit_at h
  obtain ⟨br₂, htype, h₂⟩ := brBits_at h₁ (by decide)
  unfold inflateBlockWith
  rw [hbit, ok_bind]
  dsimp only
  rw [htype, ok_bind]
  dsimp only
  rw [if_neg (by decide), if_neg (by decide), if_pos rfl,
    (dynamicTables_at header hD h₂).2 hmany, fault_bind]

omit hgrants hmem in
/-- A block is one of the others, or its header is read past `dist_lengths`. -/
theorem inflateBlockWith_past (hD : D ≤ 32) (fixed : Run (HuffTable × HuffTable))
    (hblock : Block D final bits bs rest bs') (out : OutBuf) (h : At br data bits) :
    Block 30 final bits bs rest bs' ∨ inflateBlockWith fixed grants br out = .fault := by
  cases hblock with
  | stored pad aligned hlen => exact Or.inl (.stored pad aligned hlen)
  | fixed symbols => exact Or.inl (.fixed symbols)
  | dynamic header symbols =>
    rcases header.narrow 30 with hnarrow | hmany
    · exact Or.inl (.dynamic hnarrow symbols)
    · exact Or.inr (inflateBlockWith_many hD fixed header hmany out h)

/-! ### Whole streams -/

/-- The blocks of a stream whose headers give at most 30 lengths for distances. -/
theorem inflateLoop_at (hblocks : Blocks 30 bits bs bs') (hN : bs'.length ≤ N)
    (h : At br data bits) (hturns : bits.length < turns) (hout : Holds out bs) :
    ∃ o, inflateLoop grants turns br out = .ok o ∧ o.bytes = bs' := by
  induction hblocks generalizing turns br out with
  | @last bits rest bs bs' block =>
    obtain ⟨turns, rfl⟩ : ∃ t, turns = t + 1 := ⟨turns - 1, by omega⟩
    obtain ⟨br₁, o, hblock, -, hholds⟩ := inflateBlock_at hgrants hmem block hN h hout
    refine ⟨o, ?_, hholds.bytes⟩
    unfold inflateLoop
    rw [hblock]
    rfl
  | @next bits rest bs bs' bs'' block blocks ih =>
    obtain ⟨turns, rfl⟩ : ∃ t, turns = t + 1 := ⟨turns - 1, by omega⟩
    obtain ⟨br₁, o, hblock, h₁, hholds⟩ :=
      inflateBlock_at hgrants hmem block (blocks.length_le.trans hN) h hout
    have hstep : BlockStep grants (br, out) (br₁, o) := hblock
    have hafter : br₁.left + 1 ≤ br.left :=
      (blockStep_good hgrants h.inside hout.fits hstep).1.left
    rw [h.left, h₁.left] at hafter
    obtain ⟨o', hrest, hbytes⟩ := ih hN h₁ (show rest.length < turns by omega) hholds
    refine ⟨o', ?_, hbytes⟩
    unfold inflateLoop
    rw [hblock, ok_bind]
    exact hrest

/-- The blocks of any other stream: one of the headers is read past `dist_lengths`. -/
theorem inflateLoop_past (hD : D ≤ 32) (hblocks : Blocks D bits bs bs') (hN : bs'.length ≤ N)
    (h : At br data bits) (hturns : bits.length < turns) (hout : Holds out bs) :
    Blocks 30 bits bs bs' ∨ inflateLoop grants turns br out = .fault := by
  induction hblocks generalizing turns br out with
  | @last bits rest bs bs' block =>
    obtain ⟨turns, rfl⟩ : ∃ t, turns = t + 1 := ⟨turns - 1, by omega⟩
    rcases inflateBlockWith_past hD fixedTables block out h with hblock | hfault
    · exact Or.inl (.last hblock)
    · right
      have hfault : inflateBlock grants br out = .fault := hfault
      unfold inflateLoop
      rw [hfault, fault_bind]
  | @next bits rest bs bs' bs'' block blocks ih =>
    obtain ⟨turns, rfl⟩ : ∃ t, turns = t + 1 := ⟨turns - 1, by omega⟩
    rcases inflateBlockWith_past hD fixedTables block out h with hblock | hfault
    · obtain ⟨br₁, o, hok, h₁, hholds⟩ :=
        inflateBlock_at hgrants hmem hblock (blocks.length_le.trans hN) h hout
      have hstep : BlockStep grants (br, out) (br₁, o) := hok
      have hafter : br₁.left + 1 ≤ br.left :=
        (blockStep_good hgrants h.inside hout.fits hstep).1.left
      rw [h.left, h₁.left] at hafter
      rcases ih hN h₁ (show rest.length < turns by omega) hholds with hrest | hrest
      · exact Or.inl (.next hblock hrest)
      · right
        unfold inflateLoop
        rw [hok, ok_bind]
        exact hrest
    · right
      have hfault : inflateBlock grants br out = .fault := hfault
      unfold inflateLoop
      rw [hfault, fault_bind]

end output

/-- The value that `mz_deflate_decompress` returns, with `*result`. -/
def mzDeflateDecompressResult (grants : Nat → Bool) (input : Bytes) : Run (Int × Bytes) := do
  let out ← mzDeflateDecompress grants input
  return (cInt out.length, out)

/-- The decoder succeeds and gives `out`. -/
def Succeeds (grants : Nat → Bool) (input out : Bytes) : Prop :=
  ∃ rc : Int, 0 ≤ rc ∧ mzDeflateDecompressResult grants input = .ok (rc, out)

theorem cInt_nonneg_iff : 0 ≤ cInt n ↔ n % 2 ^ 32 < 2 ^ 31 := by
  unfold cInt
  rw [Int.bmod_def]
  split <;> omega

section run

variable {grants : Nat → Bool} (hgrants : ∀ n, grants n = true → n ≤ 2 ^ 62)

include hgrants

/-- The decoder ends on every input. -/
theorem mzDeflateDecompress_ne_stuck (input : Bytes) :
    mzDeflateDecompress grants input ≠ .stuck := by
  by_cases hover : ∀ s, BlockStart grants input s → ¬ OverrunsAt s.1
  · exact (mzDeflateDecompress_sat hgrants hover).ne_stuck
  · simp only [not_forall, not_not] at hover
    obtain ⟨s, hs, hover⟩ := hover
    rw [mzDeflateDecompress_leaves hgrants hs hover]
    nofun

/-- A stream whose headers give at most 30 lengths for distances is decoded. -/
theorem mzDeflateDecompress_of_deflates {input out : Bytes}
    (hmem : ∀ n ≤ 4 * (input.length + out.length) + 2 ^ 18, grants n = true)
    (h : Deflates 30 input out) : mzDeflateDecompress grants input = .ok out := by
  have hcap : grants (firstCap input) = true := hmem _ ((Nat.mod_le _ _).trans (by omega))
  have hturns : (streamBits input).length < 8 * input.length + 1 := by
    rw [length_streamBits]
    omega
  have hholds : Holds (firstBlock input).2 [] := ⟨rfl, firstBlock_fits hgrants hcap⟩
  obtain ⟨o, hloop, hbytes⟩ := inflateLoop_at hgrants (fun n hn => hmem n (by omega)) h le_rfl
    (At.brInit input) hturns hholds
  have hloop : inflateLoop grants (8 * input.length + 1) (firstBlock input).1
    (firstBlock input).2 = .ok o := hloop
  rw [mzDeflateDecompress_eq h.ne_nil hcap, hloop, ok_bind, hbytes]

/-- On a stream that stands for `out` the decoder succeeds with `out` exactly when no header gives
more than 30 lengths for distances and the number of bytes is not negative as an `int`.  It ends
on every input. -/
theorem mzDeflateDecompress_valid :
    (∀ input out : Bytes, (∀ n ≤ 4 * (input.length + out.length) + 2 ^ 18, grants n = true) →
      Deflates 32 input out →
      (Succeeds grants input out ↔ Deflates 30 input out ∧ out.length % 2 ^ 32 < 2 ^ 31)) ∧
    ∀ input : Bytes, mzDeflateDecompress grants input ≠ .stuck := by
  refine ⟨fun input out hmem hvalid => ?_, mzDeflateDecompress_ne_stuck hgrants⟩
  have hcap : grants (firstCap input) = true :=
    hmem _ ((Nat.mod_le _ _).trans (by omega))
  have hmem' : ∀ n ≤ 2 * out.length + 2 ^ 18, grants n = true := fun n hn => hmem n (by omega)
  have hat := At.brInit input
  have hturns : (streamBits input).length < 8 * input.length + 1 := by
    rw [length_streamBits]
    omega
  have hholds : Holds (firstBlock input).2 [] := ⟨rfl, firstBlock_fits hgrants hcap⟩
  have hrun := mzDeflateDecompress_eq hvalid.ne_nil hcap
  constructor
  · rintro ⟨rc, hrc, hres⟩
    obtain ⟨out', hok, hres⟩ := bind_eq_ok hres
    obtain ⟨rfl, rfl⟩ := Prod.mk.inj (ok.inj hres)
    refine ⟨?_, cInt_nonneg_iff.mp hrc⟩
    rcases inflateLoop_past hgrants hmem' le_rfl hvalid le_rfl hat hturns hholds with hfew | hfault
    · exact hfew
    · have hfault : inflateLoop grants (8 * input.length + 1) (firstBlock input).1
        (firstBlock input).2 = .fault := hfault
      rw [hrun, hfault] at hok
      cases hok
  · rintro ⟨hfew, hsize⟩
    refine ⟨cInt out.length, cInt_nonneg_iff.mpr hsize, ?_⟩
    unfold mzDeflateDecompressResult
    rw [mzDeflateDecompress_of_deflates hgrants hmem hfew]
    rfl

end run

/-- A stored block of one byte. -/
theorem deflates_stored (D : Nat) : Deflates D [1, 1, 0, 254, 255, 97] [97] := by
  have hbits : streamBits [1, 1, 0, 254, 255, 97]
      = true :: (lowBits 2 0 ++ ([false, false, false, false, false] ++ (lowBits 16 1 ++
        (lowBits 16 (65535 - 1) ++ (streamBits [97] ++ []))))) := by
    decide
  unfold Deflates
  rw [hbits]
  have hblock := @Block.stored D true [false, false, false, false, false] [] [97] [] (by decide)
    (by decide) (by decide)
  exact .last hblock

theorem mzDeflateDecompress_valid_stored :
    Succeeds (fun n => n ≤ 2 ^ 62) [1, 1, 0, 254, 255, 97] [97] :=
  ((mzDeflateDecompress_valid (fun _ h => of_decide_eq_true h)).1 _ _
    (fun _ hn => decide_eq_true (hn.trans (by decide))) (deflates_stored 32)).mpr
    ⟨deflates_stored 30, by decide⟩

/-! ### Streams with a match -/

/-- A block with fixed codes: two letters a, a match that repeats them fourteen times, and a
letter b. -/
theorem deflates_match (D : Nat) :
    Deflates D [75, 76, 68, 5, 73, 0] (List.replicate 16 97 ++ [98]) := by
  have hbits : streamBits [75, 76, 68, 5, 73, 0]
      = true :: (lowBits 2 1 ++ (bitsOf 8 (48 + 97) ++ (bitsOf 8 (48 + 97) ++
        (bitsOf 7 (257 + 9 - 256) ++ (lowBits (lengthExtra 9) 1 ++ (bitsOf 5 0 ++
        (lowBits (distExtra 0) 0 ++ (bitsOf 8 (48 + 98) ++ (bitsOf 7 (256 - 256) ++
        [false]))))))))) := by
    decide
  unfold Deflates
  rw [hbits]
  refine @Blocks.last _ _ [false] _ _ (.fixed (.literal (isWord_fixedLit_eight (by decide))
    (by decide) (.literal (isWord_fixedLit_eight (by decide)) (by decide) ?_)))
  refine @Symbols.copy _ _ 9 1 0 0 _ _ _ _ (List.replicate 14 97) _ _
    (isWord_fixedLit_seven (by decide) (by decide)) (by decide) (by decide)
    (isWord_fixedDist (by decide)) (by decide) (by decide) (by decide) (by decide) ?_ ?_
  · unfold CopiedBack
    decide
  · exact .literal (isWord_fixedLit_eight (by decide)) (by decide)
      (.endOfBlock (isWord_fixedLit_seven (by decide) (by decide)))

/-- The lengths of a code length code with words for 1, 2 and 18. -/
def sampleCls : List Nat := [0, 0, 1, 0, 0, 0, 0, 0, 0, 0, 0, 0, 0, 0, 0, 2, 0, 2]

/-- Words for the symbols 97, 256 and 257, and for the distance symbols 0 and 1. -/
def sampleLengths : List Nat :=
  List.replicate 97 0 ++ [1] ++ List.replicate 138 0 ++ List.replicate 20 0 ++ [2] ++ [2] ++ [1]
    ++ [1]

set_option maxRecDepth 20000 in
/-- A header that spells these lengths and maybe some more. -/
theorem sampleRuns {total : Nat} (htotal : 260 ≤ total) {ls : List Nat}
    (h : LengthRuns (codeLengthCode sampleCls) total sampleLengths bits ls rest) :
    LengthRuns (codeLengthCode sampleCls) total []
      ([false] ++ (lowBits 7 86 ++ ([true, false] ++ ([false] ++ (lowBits 7 127 ++ ([false] ++
        (lowBits 7 9 ++ ([true, true] ++ ([true, true] ++ ([true, false] ++ ([true, false] ++
          bits))))))))))) ls rest := by
  have h1 : (codeLengthCode sampleCls).IsWord 1 [true, false] :=
    ⟨by decide, by decide, by decide⟩
  have h2 : (codeLengthCode sampleCls).IsWord 2 [true, true] :=
    ⟨by decide, by decide, by decide⟩
  have h18 : (codeLengthCode sampleCls).IsWord 18 [false] := ⟨by decide, by decide, by decide⟩
  have hls : sampleLengths = [] ++ List.replicate (86 + 11) 0 ++ [1] ++ List.replicate (127 + 11) 0
      ++ List.replicate (9 + 11) 0 ++ [2] ++ [2] ++ [1] ++ [1] := by
    decide
  have hroom : ∀ (ls : List Nat) (k : Nat), ls.length + k ≤ 260 → ls.length + k ≤ total :=
    fun ls k hle => hle.trans htotal
  have hone : ∀ ls : List Nat, ls.length < 260 → ls.length < total :=
    fun ls hlt => hlt.trans_le htotal
  rw [hls] at h
  refine .manyZeros h18 (by decide) (hroom _ _ (by decide)) ?_
  refine .length h1 (by decide) (hone _ (by decide)) ?_
  refine .manyZeros h18 (by decide) (hroom _ _ (by decide)) ?_
  refine .manyZeros h18 (by decide) (hroom _ _ (by decide)) ?_
  refine .length h2 (by decide) (hone _ (by decide)) ?_
  refine .length h2 (by decide) (hone _ (by decide)) ?_
  refine .length h1 (by decide) (hone _ (by decide)) ?_
  refine .length h1 (by decide) (hone _ (by decide)) ?_
  exact h

/-- A literal and a match that repeats it three times. -/
theorem sampleSymbols (h97 : lit.IsWord 97 [false])
    (h257 : lit.IsWord 257 [true, true]) (h256 : lit.IsWord 256 [true, false])
    (h0 : dist.IsWord 0 [false]) (rest : List Bool) :
    Symbols lit dist ([false] ++ ([true, true] ++ (lowBits 0 0 ++ ([false] ++ (lowBits 0 0 ++
      ([true, false] ++ rest)))))) [] rest [97, 97, 97, 97] := by
  refine .literal h97 (by decide) ?_
  refine @Symbols.copy _ _ 0 0 0 0 _ _ _ _ [97, 97, 97] _ _ h257 (by decide) (by decide) h0
    (by decide) (by decide) (by decide) (by decide) ?_ ?_
  · unfold CopiedBack
    decide
  · exact .endOfBlock h256

/-- Its lengths, with 32 of them for distances, of which the last 30 are zeros. -/
def sampleAll : List Nat := sampleLengths ++ List.replicate (19 + 11) 0

/-- The bits of the header that spells them. -/
def sampleHeaderBits (rest : List Bool) : List Bool :=
  lowBits 5 (258 - 257) ++ (lowBits 5 (32 - 1) ++ (lowBits 4 (sampleCls.length - 4) ++
    (sampleCls.flatMap (lowBits 3) ++ ([false] ++ (lowBits 7 86 ++ ([true, false] ++ ([false] ++
    (lowBits 7 127 ++ ([false] ++ (lowBits 7 9 ++ ([true, true] ++ ([true, true] ++
    ([true, false] ++ ([true, false] ++ ([false] ++ (lowBits 7 19 ++ rest))))))))))))))))

set_option maxRecDepth 20000 in
theorem sampleHeader (rest : List Bool) :
    Header 32 (sampleHeaderBits rest) (litCode 258 sampleAll) (distCode 258 32 sampleAll) rest := by
  have h18 : (codeLengthCode sampleCls).IsWord 18 [false] := ⟨by decide, by decide, by decide⟩
  refine .mk (by decide) (by decide) (by decide) (by decide) (by decide) (by decide) (by decide) ?_
    (sampleRuns (by decide) (.manyZeros h18 (by decide) ?_ (.done ?_))) ?_ ?_
  · unfold CanonicalCode.Fits
    decide
  · decide
  · decide
  · unfold CanonicalCode.Fits
    decide
  · unfold CanonicalCode.Fits
    decide

/-- The stream of such a block. -/
def sampleStream : Bytes := [13, 223, 129, 0, 0, 0, 0, 128, 32, 214, 252, 37, 190, 76, 44]

theorem sampleStream_bits : streamBits sampleStream
    = true :: (lowBits 2 2 ++ sampleHeaderBits ([false] ++ ([true, true] ++ (lowBits 0 0 ++
      ([false] ++ (lowBits 0 0 ++ ([true, false] ++ [false]))))))) := by
  decide

set_option maxRecDepth 20000 in
theorem deflates_sample_thirtyTwo : Deflates 32 sampleStream [97, 97, 97, 97] := by
  unfold Deflates
  rw [sampleStream_bits]
  refine .last (.dynamic (sampleHeader _) (sampleSymbols ?_ ?_ ?_ ?_ [false]))
  · exact ⟨by decide, by decide, by decide⟩
  · exact ⟨by decide, by decide, by decide⟩
  · exact ⟨by decide, by decide, by decide⟩
  · exact ⟨by decide, by decide, by decide⟩

/-- A valid stream on which the decoder leaves `dist_lengths`. -/
theorem mzDeflateDecompress_valid_thirtyTwo :
    ¬ ∀ input out : Bytes, Deflates 32 input out → Succeeds (fun n => n ≤ 2 ^ 62) input out := by
  intro h
  obtain ⟨rc, -, hres⟩ := h _ _ deflates_sample_thirtyTwo
  have hblock : inflateBlock (fun n => n ≤ 2 ^ 62) (firstBlock sampleStream).1
      (firstBlock sampleStream).2 = .fault :=
    inflateBlockWith_many le_rfl fixedTables (sampleHeader _) (by decide) _
      (sampleStream_bits ▸ At.brInit sampleStream)
  have hfault : mzDeflateDecompressResult (fun n => n ≤ 2 ^ 62) sampleStream = .fault := by
    rw [mzDeflateDecompressResult, mzDeflateDecompress_eq (by decide) (by decide), inflateLoop,
      hblock]
    rfl
  rw [hfault] at hres
  cases hres

end MeuOS.Compress.Inflate
