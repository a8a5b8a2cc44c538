import MeuOS.Compress.HuffmanRoundtrip
import MeuOS.Compress.Lz77Encode
import MeuOS.Compress.Tans

namespace MeuOS.Compress

open MeuOS.Lib List

/-!
# LZ77 with an entropy coder (`mz_combo.c`)

The pipeline compresses with LZ77 and then, from level 4 on, with Huffman codes or, from level 7
on, with tANS, where that makes the stream shorter.

* `mzCompressMeuos`, `mzDecompressMeuos` — the codec;
* `mzMeuos_roundtrip` — what is compressed is given back, where tANS is not picked;
* `mzDecompressMeuos_tans_lost` — 1024 bytes for which it is picked, and which are not given back.
-/

/-- `COMBO_TYPE_RAW`, `COMBO_TYPE_HUFF` and `COMBO_TYPE_TANS`. -/
inductive ComboType where
  | raw
  | huff
  | tans
  deriving DecidableEq, Repr

/-- The byte of a type. -/
def ComboType.byte : ComboType → UInt8
  | .raw => 0
  | .huff => 1
  | .tans => 2

/-- What an entropy coder made of a stream, where it is shorter. -/
def shorter (lz77 : Bytes) : Except MzErr Bytes → Option Bytes
  | .error _ => none
  | .ok out => if out.length < lz77.length then some out else none

/-- Step 2 of `mz_compress_meuos`: the type and the bytes behind it. -/
def comboEntropy (lz77 : Bytes) (lv : Int) : ComboType × Bytes :=
  let max_out := lz77.length + lz77.length / 4 + 4096
  if lv ≥ 7 then
    match shorter lz77 (mzTansCompress lz77 max_out) with
    | some out => (.tans, out)
    | none => (.raw, lz77)
  else if lv ≥ 4 then
    match shorter lz77 (mzHufCompress lz77 max_out) with
    | some out => (.huff, out)
    | none => (.raw, lz77)
  else (.raw, lz77)

/-- `mz_compress_meuos`: the returned `int` and the bytes of `*r`, none where it is not
    positive. -/
def mzCompressMeuos (data : Bytes) (lv : Int) : Except MzErr (Int × Bytes) := do
  let (rc, lz77) ← mzCompressLz77 data lv
  if rc ≤ 0 then .ok (rc, [])
  else
    let out := (comboEntropy lz77 lv).1.byte :: (comboEntropy lz77 lv).2
    .ok (cInt out.length, out)

/-- The room of the entropy decoders of `mz_decompress_meuos`. -/
def comboRoom (data : Bytes) : Nat := data.length * 4 + 4096

/-- Step 1 of `mz_decompress_meuos`; an error of an entropy decoder is `MZ_ERR_DATA`. -/
def comboStream (etype : UInt8) (data : Bytes) : Except MzErr Bytes :=
  if etype = ComboType.tans.byte then
    (mzTansDecompress data (comboRoom data)).mapError fun _ => .data
  else if etype = ComboType.huff.byte then
    (mzHufDecompress data (comboRoom data)).mapError fun _ => .data
  else if etype = ComboType.raw.byte then .ok data
  else .error .data

/-- `mz_decompress_meuos`: the returned `int` and the bytes of `*r`. -/
def mzDecompressMeuos : Bytes → Except MzErr (Int × Bytes)
  | [] => .error .param
  | etype :: data => do
      let lz77 ← comboStream etype data
      mzDecompressLz77 lz77

/-! ### Round trip -/

/-- The entropy layer gives the stream back: it is left as it is, or coded with Huffman codes of at
    most 32 bits whose counters do not overflow, in bytes for which the decoder makes enough
    room. -/
def ComboKeeps (lz77 : Bytes) (lv : Int) : Prop :=
  match comboEntropy lz77 lv with
  | (.raw, _) => True
  | (.huff, out) =>
    (∀ s, lz77.count s < 2 ^ 32) ∧ (∀ s, hufLengths lz77 s ≤ 32) ∧ lz77.length ≤ comboRoom out
  | (.tans, _) => False

/-- What the entropy layer of the coder picks. -/
theorem comboEntropy_cases (lz77 : Bytes) (lv : Int) :
    comboEntropy lz77 lv = (.raw, lz77) ∨
      (∃ out, comboEntropy lz77 lv = (.huff, out) ∧
        mzHufCompress lz77 (lz77.length + lz77.length / 4 + 4096) = .ok out) ∨
      ∃ out, comboEntropy lz77 lv = (.tans, out) := by
  unfold comboEntropy
  dsimp only
  split
  · split
    · exact .inr (.inr ⟨_, rfl⟩)
    · exact .inl rfl
  split
  · split
    · next out hout =>
      refine .inr (.inl ⟨out, rfl, ?_⟩)
      unfold shorter at hout
      split at hout
      · cases hout
      · next out' hcomp =>
        split at hout
        · exact hcomp.trans (congrArg Except.ok (Option.some.inj hout))
        · cases hout
    · exact .inl rfl
  · exact .inl rfl

/-- Where the entropy layer keeps the stream, what `mz_compress_meuos` returns is decompressed to
    the data. -/
theorem mzMeuos_roundtrip {data c : Bytes} {lv r : Int} (hlen : data.length < 2 ^ 31)
    (h : mzCompressMeuos data lv = .ok (r, c)) (hr : 0 < r)
    (hkeeps : ∀ rc lz77, mzCompressLz77 data lv = .ok (rc, lz77) → ComboKeeps lz77 lv) :
    mzDecompressMeuos c = .ok (cInt data.length, data) := by
  unfold mzCompressMeuos at h
  obtain ⟨⟨rc, lz77⟩, hlz, h⟩ := bind_ok h
  dsimp only at h
  split at h
  · next hrc =>
    cases h
    omega
  obtain ⟨-, rfl⟩ := Prod.mk.inj (Except.ok.inj h)
  have hkeep := hkeeps rc lz77 hlz
  have hdec := mzCompressLz77_decodes (hlen.trans (by decide)) hlz
  unfold ComboKeeps at hkeep
  unfold mzDecompressMeuos comboStream
  obtain hraw | ⟨out, hhuff, hcomp⟩ | ⟨out, htans⟩ := comboEntropy_cases lz77 lv
  · have hlz77 := hdec []
    rw [append_nil] at hlz77
    rw [hraw]
    exact hlz77
  · rw [hhuff] at hkeep ⊢
    obtain ⟨hcount, hshort, hroom⟩ := hkeep
    have hcounted : ∀ s ∈ lz77, hufFreq lz77 s > 0 := by
      intro s hs
      rw [hufFreq_pos_iff]
      exact Nat.not_dvd_of_pos_of_lt (count_pos_iff.mpr hs) (hcount s)
    obtain ⟨tail, hread, -⟩ := mzHuf_reads hcomp hcounted hshort (comboRoom out)
    rw [take_of_length_le hroom] at hread
    dsimp only
    rw [if_neg (by decide), if_pos rfl, hread]
    exact hdec tail
  · rw [htans] at hkeep
    exact hkeep.elim

/-- Three bytes are too few for the Huffman coder, and are given back. -/
theorem mzMeuos_roundtrip_short :
    ∃ r c, mzCompressMeuos [0x61, 0x62, 0x63] 5 = .ok (r, c) ∧
      mzDecompressMeuos c = .ok (3, [0x61, 0x62, 0x63]) := by
  have hfresh : FreshTriples [0x61, 0x62, 0x63] := by
    intro i j hij hj
    exact absurd hj (by rw [show [(0x61 : UInt8), 0x62, 0x63].length = 3 from rfl]; omega)
  have hlz : mzCompressLz77 [0x61, 0x62, 0x63] 5
      = .ok (9, [0x6D, 0x5A, 3, 0, 0, 0, 0x61, 0x62, 0x63]) := by
    have hlit : [(0x61 : UInt8), 0x62, 0x63].flatMap literalV2 = [0x61, 0x62, 0x63] := by decide
    have hnine : cInt (6 + [(0x61 : UInt8), 0x62, 0x63].length) = 9 :=
      (cInt_eq_iff 9).mpr (by decide)
    rw [mzCompressLz77_fresh hfresh (cons_ne_nil _ _) 5, hlit, hnine]
    rfl
  have hent : comboEntropy [0x6D, 0x5A, 3, 0, 0, 0, 0x61, 0x62, 0x63] 5
      = (.raw, [0x6D, 0x5A, 3, 0, 0, 0, 0x61, 0x62, 0x63]) := by decide +kernel
  have hcomp : mzCompressMeuos [0x61, 0x62, 0x63] 5
      = .ok (10, [0, 0x6D, 0x5A, 3, 0, 0, 0, 0x61, 0x62, 0x63]) := by
    unfold mzCompressMeuos
    rw [hlz]
    dsimp only [bind, Except.bind]
    rw [if_neg (by decide), hent]
    rfl
  have hkeeps : ∀ rc lz77, mzCompressLz77 [0x61, 0x62, 0x63] 5 = .ok (rc, lz77) →
      ComboKeeps lz77 5 := by
    intro rc lz77 hrun
    cases hlz.symm.trans hrun
    unfold ComboKeeps
    rw [hent]
    trivial
  have hdec := mzMeuos_roundtrip (by decide) hcomp (by decide) hkeeps
  have hthree : cInt [(0x61 : UInt8), 0x62, 0x63].length = 3 := (cInt_eq_iff 3).mpr (by decide)
  rw [hthree] at hdec
  exact ⟨_, _, hcomp, hdec⟩

/-! ### A stream that tANS does not give back -/

/-- `n` numbers of the recurrence `x (i + 3) = x (i + 1) + 7 * x i` modulo 11, moved up by 5. -/
def recurrence : Nat → Nat → Nat → Nat → Bytes
  | 0, _, _, _ => []
  | n + 1, a, b, c => UInt8.ofNat (5 + a) :: recurrence n b c ((b + 7 * a) % 11)

/-- A number for each three neighbours. -/
def tripleKeys : Bytes → List Nat
  | a :: b :: c :: rest =>
    (a.toNat + 16 * b.toNat + 256 * c.toNat) :: tripleKeys (b :: c :: rest)
  | _ => []

/-- Are the numbers distinct, and none of them in the set `seen`? -/
def distinctFrom : Nat → List Nat → Bool
  | _, [] => true
  | seen, k :: ks => !seen.testBit k && distinctFrom (seen ||| 1 <<< k) ks

theorem distinctFrom_nodup {seen : Nat} {ks : List Nat} (h : distinctFrom seen ks = true) :
    ks.Nodup ∧ ∀ k ∈ ks, seen.testBit k = false := by
  induction ks generalizing seen with
  | nil => exact ⟨nodup_nil, by simp⟩
  | cons k ks ih =>
    unfold distinctFrom at h
    obtain ⟨hk, hrest⟩ := Bool.and_eq_true_iff.mp h
    obtain ⟨hnodup, hall⟩ := ih hrest
    have hseen : ∀ j ∈ ks, seen.testBit j = false ∧ k ≠ j := by
      intro j hj
      have hbit := hall j hj
      rw [Nat.testBit_or, Bool.or_eq_false_iff, Nat.one_shiftLeft, Nat.testBit_two_pow,
        decide_eq_false_iff_not] at hbit
      exact hbit
    refine ⟨nodup_cons.mpr ⟨fun hmem => (hseen k hmem).2 rfl, hnodup⟩, fun j hj => ?_⟩
    rcases mem_cons.mp hj with rfl | hj
    · simpa using hk
    · exact (hseen j hj).1

theorem tripleKeys_get (data : Bytes) (i : Nat) (h : i + 2 < data.length) :
    (tripleKeys data)[i]? = some ((data.getD i 0).toNat + 16 * (data.getD (i + 1) 0).toNat
      + 256 * (data.getD (i + 2) 0).toNat) := by
  induction i generalizing data with
  | zero =>
    obtain _ | ⟨a, _ | ⟨b, _ | ⟨c, rest⟩⟩⟩ := data
    · simp at h
    · simp at h
    · simp at h
    · rfl
  | succ i ih =>
    obtain _ | ⟨a, _ | ⟨b, _ | ⟨c, rest⟩⟩⟩ := data
    · simp at h
    · simp at h
    · simp at h
    · rw [tripleKeys, getElem?_cons_succ, ih _ (by simpa using h)]
      rfl

/-- Distinct numbers mean distinct neighbours. -/
theorem freshTriples_of_distinct {data : Bytes} (h : distinctFrom 0 (tripleKeys data) = true) :
    FreshTriples data := by
  intro i j hij hj
  by_contra hsame
  push Not at hsame
  have hi := tripleKeys_get data i (by omega)
  have hj' := tripleKeys_get data j hj
  obtain ⟨hlt, -⟩ := List.getElem?_eq_some_iff.mp hi
  have h0 := hsame 0 (by decide)
  rw [Nat.add_zero, Nat.add_zero] at h0
  rw [h0, hsame 1 (by decide), hsame 2 (by decide), ← hj'] at hi
  have hsamePlace := (getElem?_inj hlt (distinctFrom_nodup h).1).mp hi
  omega

/-- No symbol has all the states, so that every state reads a bit. -/
theorem one_le_nb_bits {t : AnsTables} {norm : List Nat} (ht : buildTables norm = .ok t)
    (hlen : norm.length = 256) (hnb : ∀ n ∈ norm, 1 ≤ computeNb n) {s : Nat} (hs : s < ANS_L) :
    1 ≤ t.nb_bits.getD s 0 := by
  obtain ⟨hwalk, hsize⟩ := buildTables_walked ht hlen
  -- 11 is the inverse of the step
  have hs' : ansWalk (11 * s % ANS_L) = s := by
    unfold ansWalk
    rw [show ansStep = 163 from rfl]
    unfold ANS_L at hs ⊢
    omega
  have hj : 11 * s % ANS_L < (ansOrder norm).length := by
    rw [hsize]
    exact Nat.mod_lt _ (by decide)
  have hbits := (hwalk.taken (_, 11 * s % ANS_L)
    (mem_zipIdx_iff_getElem?.mpr (getElem?_eq_getElem hj))).2
  dsimp only at hbits
  rw [hs'] at hbits
  rw [hbits, getD_eq_getElem?_getD]
  rcases hsym : norm[(ansOrder norm)[11 * s % ANS_L]]? with _ | n
  · decide
  · exact hnb n (mem_of_getElem? hsym)

/-- The decoder fails on a stream whose symbols all read bits, if the bits are fewer than the bytes
    that it has room for. -/
theorem decode_of_count {lz77 : Bytes} {lv : Int} {norm : List Nat} {cap : Nat} {r : Nat × Nat}
    (hlv : 7 ≤ lv) (hnorm : normaliseFreqs (tansFreqs lz77) = .ok norm)
    (htab : ∃ t, buildTables norm = .ok t) (hlen : norm.length = 256)
    (hsmall : ∀ n ∈ norm, n < 2 ^ 16) (hnb : ∀ n ∈ norm, 1 ≤ computeNb n)
    (hcap : cap + 520 = lz77.length + lz77.length / 4 + 4096)
    (hr : lz77.reverse.foldlM (encodeBits (coderTable norm) cap) (0, ANS_L) = some r)
    (hroom : r.1 < cap * 8) (hshort : 520 + (r.1 + 7) / 8 < lz77.length) (hfew : r.1 ≤ 8192) :
    ∃ out, comboEntropy lz77 lv = (.tans, out) ∧ out.length < lz77.length ∧
      mzDecompressMeuos (ComboType.tans.byte :: out) = .error .data := by
  obtain ⟨t, ht⟩ := htab
  obtain ⟨out, hout, hsize⟩ := mzTansCompress_bits (ne_nil_of_length_pos (by omega)) hnorm ht hlen
    hr hroom
  rw [hcap] at hout
  rw [← hsize] at hshort
  -- the decoder builds the coder's table
  obtain ⟨norm', t', rest, hnorm', -, hhead⟩ := mzTansCompress_ok hout
  obtain rfl : norm' = norm := Except.ok.inj (hnorm'.symm.trans hnorm)
  have hread : readNorm out = norm' := hhead ▸ readNorm_header hlen hsmall rest
  have hmany : (out.length - 520) * 8 < comboRoom out := by
    unfold comboRoom
    omega
  obtain ⟨e, hdec⟩ := mzTansDecompress_short (by rw [hread]; exact ht)
    (fun s hs => one_le_nb_bits ht hlen hnb hs) hmany
  refine ⟨out, ?_, hshort, ?_⟩
  · unfold comboEntropy
    rw [if_pos hlv, hout]
    unfold shorter
    dsimp only
    rw [if_pos hshort]
  · unfold mzDecompressMeuos comboStream
    dsimp only
    rw [if_pos rfl, hdec]
    rfl

/-- The scaled frequencies of a stream with that recurrence. -/
def lostNorm : List Nat :=
  [4, 0, 0, 0, 2] ++ replicate 5 32 ++ replicate 5 16 ++ [8] ++ replicate 74 0 ++ [1]
    ++ replicate 18 0 ++ [1] ++ replicate 146 0

theorem buildTables_lost : ∃ t, buildTables lostNorm = .ok t := by
  unfold buildTables
  rw [if_neg (by simp [lostNorm, isPow2, ANS_L, -reduceReplicate]), if_neg (by simp [lostNorm, ANS_L, -reduceReplicate])]
  exact ⟨_, rfl⟩

set_option maxRecDepth 100000 in
theorem recurrence_runs :
    distinctFrom 0 (tripleKeys (recurrence 1024 0 0 1)) = true ∧
    (recurrence 1024 0 0 1).flatMap literalV2 = recurrence 1024 0 0 1 ∧
    (recurrence 1024 0 0 1).length = 1024 ∧
    (normaliseFreqs (tansFreqs ([0x6D, 0x5A] ++ leBytes 4 1024 ++ recurrence 1024 0 0 1))).toOption
      = some lostNorm ∧
    ([0x6D, 0x5A] ++ leBytes 4 1024 ++ recurrence 1024 0 0 1).reverse.foldlM
      (encodeBits (coderTable lostNorm) 4863) (0, ANS_L) = some (3758, 163) :=
  ⟨by decide +kernel, by decide +kernel, by decide +kernel, by decide +kernel, by decide +kernel⟩

/-- 1024 bytes that level 7 compresses to a positive number of bytes, which are not decoded. -/
theorem mzDecompressMeuos_tans_lost :
    ∃ r c, mzCompressMeuos (recurrence 1024 0 0 1) 7 = .ok (r, c) ∧ 0 < r ∧
      mzDecompressMeuos c = .error .data := by
  obtain ⟨hkeys, hlit, hlen, hnorm, hcount⟩ := recurrence_runs
  have hall : ([0x6D, 0x5A] ++ leBytes 4 1024 ++ recurrence 1024 0 0 1).length = 1030 := by
    rw [length_append, hlen]
    rfl
  have hlength : lostNorm.length = 256 := by simp [lostNorm, -reduceReplicate]
  have hsmall : ∀ n ∈ lostNorm, n < 2 ^ 16 := by simp [lostNorm, -reduceReplicate]
  have hnb : ∀ n ∈ lostNorm, 1 ≤ computeNb n := by
    simp [lostNorm, computeNb, nbLoop, ANS_L, -reduceReplicate]
  obtain ⟨out, hent, hshort, hdec⟩ := decode_of_count (le_refl 7) (ok_of_toOption hnorm)
    buildTables_lost hlength hsmall hnb (by rw [hall]) hcount (by decide) (by rw [hall]; decide)
    (by decide)
  have hcomp := mzCompressLz77_fresh (freshTriples_of_distinct hkeys) (ne_nil_of_length_pos (by omega)) 7
  rw [hlit, hlen] at hcomp
  generalize recurrence 1024 0 0 1 = data at *
  have hpos : ¬ cInt (6 + 1024) ≤ 0 := by decide
  have hout : (out.length + 1 : Nat) < 2 ^ 31 := by
    simp only [length_append, length_leBytes, hlen, length_cons, length_nil] at hshort
    omega
  refine ⟨cInt (out.length + 1), ComboType.tans.byte :: out, ?_, ?_, hdec⟩
  · unfold mzCompressMeuos
    rw [hcomp]
    dsimp only [bind, Except.bind]
    rw [if_neg hpos, hent]
    rfl
  · rw [(cInt_eq_iff _).mpr hout]
    omega

end MeuOS.Compress
