import MeuOS.Compress.Lz77

namespace MeuOS.Compress

open MeuOS.Lib List

/-!
# Streams that end early (`mz_lz77.c`)

The decoder stops where its input ends, whatever the header declares.

* `Tokens` — a stream of whole tokens, and the number of bytes they stand for;
* `decHist_short` — a run that writes less than declared has read whole tokens up to the end;
* `decHist_tokens` — such a stream is decoded without an error;
* `mzDecompressLz77_declared_iff` — when the decoder gives what the header declares or an error.
-/

/-! ### Whole tokens -/

/-- The stream is made of whole tokens, which stand for so many bytes. -/
inductive Tokens (isV2 : Bool) : Bytes → Nat → Prop where
  | nil : Tokens isV2 [] 0
  | literal {b : UInt8} {rest : Bytes} {n : Nat} (hb : b < 0x80) (h : Tokens isV2 rest n) :
      Tokens isV2 (b :: rest) (n + 1)
  | escape {b val : UInt8} {rest : Bytes} {n : Nat} (hb : ¬ b < 0x80) (hesc : isEscape isV2 b)
      (h : Tokens isV2 rest n) : Tokens isV2 (b :: val :: rest) (n + 1)
  | copy {b0 b1 b2 : UInt8} {rest : Bytes} {n : Nat} (hb : ¬ b0 < 0x80)
      (hesc : isEscape isV2 b0 = false) (h : Tokens isV2 rest n) :
      Tokens isV2 (b0 :: b1 :: b2 :: rest) (n + matchLength isV2 b2)

/-- The end marker of the first format is never met: its first byte would be the escape. -/
theorem matchOffset_ne_zero {b0 : UInt8} (b1 b2 : UInt8) (hb : ¬ b0 < 0x80)
    (hesc : isEscape false b0 = false) : matchOffset false b0 b1 b2 ≠ 0 := by
  have hne : b0 ≠ 0x80 := by
    rintro rfl
    cases hesc
  have hlt : b0.toNat < 256 := b0.toNat_lt
  have hge : 128 ≤ b0.toNat := by
    rw [UInt8.lt_iff_toNat_lt] at hb
    exact Nat.le_of_not_lt hb
  have hne' : b0.toNat ≠ 128 := fun h => hne (UInt8.toNat_inj.mp h)
  have hand : b0.toNat &&& 0x7F = b0.toNat % 128 := Nat.and_two_pow_sub_one_eq_mod _ 7
  unfold matchOffset
  rw [if_neg (by decide), hand, Nat.shiftLeft_eq]
  intro hzero
  have hle : b0.toNat % 128 * 2 ^ 8 ≤ 0 := hzero ▸ Nat.left_le_or
  omega

theorem end_unreached (isV2 : Bool) {b0 : UInt8} (b1 b2 : UInt8) (hb : ¬ b0 < 0x80)
    (hesc : isEscape isV2 b0 = false) : (!isV2 && matchOffset isV2 b0 b1 b2 == 0) = false := by
  cases isV2 with
  | true => rfl
  | false => simpa using matchOffset_ne_zero b1 b2 hb hesc

/-- A copy writes its length, up to the declared size. -/
theorem length_copyBack (uncompsz offset length : Nat) {hist : Bytes}
    (h : hist.length ≤ uncompsz) :
    (copyBack uncompsz offset length hist).length = min uncompsz (hist.length + length) := by
  induction length generalizing hist with
  | zero => simp [copyBack, h]
  | succ length ih =>
    unfold copyBack
    by_cases hlt : hist.length < uncompsz
    · rw [if_pos hlt, ih (by rw [length_append, length_singleton]; omega),
        length_append, length_singleton]
      congr 1
      omega
    · rw [if_neg hlt]
      omega

/-! ### Runs that write less -/

/-- A run writes no more than is declared, and if it writes less it has read whole tokens up to the
end of the input. -/
theorem decHist_short {isV2 : Bool} {uncompsz : Nat} {input hist r : Bytes}
    (hle : hist.length ≤ uncompsz) (h : decHist isV2 uncompsz input hist = .ok r) :
    r.length ≤ uncompsz ∧
      (r.length < uncompsz → ∃ n, Tokens isV2 input n ∧ r.length = hist.length + n) := by
  induction input, hist using decHist.induct isV2 uncompsz with
  | case1 hist =>
    cases h
    exact ⟨hle, fun _ => ⟨0, .nil, rfl⟩⟩
  | case2 b0 rest hist hlt hlit ih =>
    rw [decHist_literal hlt hlit] at h
    have hlen : (hist ++ [b0]).length = hist.length + 1 := by simp
    obtain ⟨hmax, hshort⟩ := ih (by omega) h
    refine ⟨hmax, fun hr => ?_⟩
    obtain ⟨n, htokens, hn⟩ := hshort hr
    exact ⟨n + 1, .literal hlit htokens, by omega⟩
  | case3 b0 hist hlt hlit hesc =>
    simp only [decHist, hlt, hlit, hesc, ↓reduceIte] at h
    cases h
  | case4 b0 hist hlt hlit hesc val rest ih =>
    simp only [decHist, hlt, hlit, hesc, ↓reduceIte] at h
    have hlen : (hist ++ [val]).length = hist.length + 1 := by simp
    obtain ⟨hmax, hshort⟩ := ih (by omega) h
    refine ⟨hmax, fun hr => ?_⟩
    obtain ⟨n, htokens, hn⟩ := hshort hr
    exact ⟨n + 1, .escape hlit hesc htokens, by omega⟩
  | case5 b0 hist hlt hlit hesc b1 b2 rest hend =>
    exact absurd hend (by rw [end_unreached isV2 b1 b2 hlit (by simpa using hesc)]; decide)
  | case6 b0 hist hlt hlit hesc b1 b2 rest hend ih =>
    simp only [decHist, hlt, hlit, hesc, hend, ↓reduceIte, Bool.false_eq_true] at h
    have hlen := length_copyBack uncompsz (matchOffset isV2 b0 b1 b2) (matchLength isV2 b2) hle
    obtain ⟨hmax, hshort⟩ := ih (by omega) h
    refine ⟨hmax, fun hr => ?_⟩
    obtain ⟨n, htokens, hn⟩ := hshort hr
    have hfit : hist.length + matchLength isV2 b2 ≤ uncompsz := by
      by_contra hover
      rw [Nat.min_eq_left (Nat.le_of_not_le hover)] at hlen
      omega
    rw [Nat.min_eq_right hfit] at hlen
    exact ⟨n + matchLength isV2 b2, .copy hlit (by simpa using hesc) htokens, by omega⟩
  | case7 b0 rest hist hlt hlit hesc hshort =>
    rcases rest with _ | ⟨b1, _ | ⟨b2, r⟩⟩
    · simp only [decHist, hlt, hlit, hesc, ↓reduceIte, Bool.false_eq_true] at h
      cases h
    · simp only [decHist, hlt, hlit, hesc, ↓reduceIte, Bool.false_eq_true] at h
      cases h
    · exact absurd rfl (hshort b1 b2 r)
  | case8 b0 rest hist hlt =>
    rw [decHist_done hlt] at h
    cases h
    exact ⟨hle, fun hr => absurd hr hlt⟩

/-- Whole tokens that stand for less than is declared are decoded without an error. -/
theorem decHist_tokens {isV2 : Bool} {uncompsz n : Nat} {input hist : Bytes}
    (htokens : Tokens isV2 input n) (hlt : hist.length + n < uncompsz) :
    ∃ r, decHist isV2 uncompsz input hist = .ok r ∧ r.length = hist.length + n := by
  induction htokens generalizing hist with
  | nil => exact ⟨hist, rfl, rfl⟩
  | @literal b rest n hb _ ih =>
    have hlen : (hist ++ [b]).length = hist.length + 1 := by simp
    obtain ⟨r, hr, hn⟩ := @ih (hist ++ [b]) (by omega)
    exact ⟨r, by rw [decHist_literal (by omega) hb, hr], by omega⟩
  | @escape b val rest n hb hesc _ ih =>
    have hlen : (hist ++ [val]).length = hist.length + 1 := by simp
    obtain ⟨r, hr, hn⟩ := @ih (hist ++ [val]) (by omega)
    refine ⟨r, ?_, by omega⟩
    simp only [decHist, show hist.length < uncompsz by omega, hb, hesc, ↓reduceIte, hr]
  | @copy b0 b1 b2 rest n hb hesc _ ih =>
    have hlen := length_copyBack uncompsz (matchOffset isV2 b0 b1 b2) (matchLength isV2 b2)
      (show hist.length ≤ uncompsz by omega)
    obtain ⟨r, hr, hn⟩ :=
      @ih (copyBack uncompsz (matchOffset isV2 b0 b1 b2) (matchLength isV2 b2) hist) (by omega)
    refine ⟨r, ?_, by omega⟩
    simp only [decHist, show hist.length < uncompsz by omega, hb, hesc,
      end_unreached isV2 b1 b2 hb hesc, ↓reduceIte, Bool.false_eq_true, hr]

/-! ### The decoder -/

/-- The number of bytes that a header declares. -/
def declaredSize (input : Bytes) : Nat := leNat (slice input 2 4)

/-- The decoder returns a negative number, or as many bytes as the header declares. -/
def GivesDeclared (input : Bytes) : Prop :=
  match mzDecompressLz77 input with
  | .error _ => True
  | .ok (rc, out) => rc < 0 ∨ (rc = declaredSize input ∧ out.length = declaredSize input)

/-- Behind the header there are whole tokens only, and they stand for fewer bytes than it declares,
and for fewer than `2 ^ 31`. -/
def EndsEarly (input : Bytes) : Prop :=
  (input.take 2 = [0x4D, 0x5A] ∨ input.take 2 = [0x6D, 0x5A]) ∧ 6 ≤ input.length ∧
    ∃ n, Tokens (input.head? == some 0x6D) (input.drop 6) n ∧ n < declaredSize input ∧ n < 2 ^ 31

theorem cInt_neg {n : Nat} (hlo : 2 ^ 31 ≤ n) (hhi : n < 2 ^ 32) : cInt n < 0 := by
  unfold cInt
  rw [Int.bmod_def]
  split <;> omega

/-- The decoder on an input with a header and a magic. -/
theorem mzDecompressLz77_header {m0 s0 s1 s2 s3 : UInt8} (body : Bytes)
    (hmagic : m0 = 0x4D ∨ m0 = 0x6D) :
    mzDecompressLz77 (m0 :: 0x5A :: s0 :: s1 :: s2 :: s3 :: body)
      = (decHist (m0 == 0x6D) (leNat [s0, s1, s2, s3]) body []).map
          fun out => (cInt out.length, out) := by
  have hhist := decLoop_hist (m0 == 0x6D) (leNat [s0, s1, s2, s3]) body DecSt.Windowed.init
  rw [show DecSt.init.out = [] from rfl] at hhist
  rw [← hhist]
  unfold mzDecompressLz77
  dsimp only
  rw [if_pos ⟨rfl, hmagic⟩]
  cases decLoop (m0 == 0x6D) (leNat [s0, s1, s2, s3]) body DecSt.init <;> rfl

/-- The decoder gives what the header declares, or an error, exactly for the inputs that do not end
early. -/
theorem mzDecompressLz77_declared_iff (input : Bytes) :
    GivesDeclared input ↔ ¬ EndsEarly input := by
  match input with
  | m0 :: m1 :: s0 :: s1 :: s2 :: s3 :: body =>
    by_cases hmagic : m1 = 0x5A ∧ (m0 = 0x4D ∨ m0 = 0x6D)
    · obtain ⟨rfl, hm0⟩ := hmagic
      have hdeclared : declaredSize (m0 :: 0x5A :: s0 :: s1 :: s2 :: s3 :: body)
          = leNat [s0, s1, s2, s3] := rfl
      have hearly : EndsEarly (m0 :: 0x5A :: s0 :: s1 :: s2 :: s3 :: body) ↔
          ∃ n, Tokens (m0 == 0x6D) body n ∧ n < leNat [s0, s1, s2, s3] ∧ n < 2 ^ 31 := by
        have hfirst : (some m0 == some (0x6D : UInt8)) = (m0 == 0x6D) := rfl
        rcases hm0 with rfl | rfl <;> simp [EndsEarly, hdeclared]
      have hsize : leNat [s0, s1, s2, s3] < 256 ^ 4 := leNat_lt [s0, s1, s2, s3]
      unfold GivesDeclared
      rw [hearly, mzDecompressLz77_header body hm0, hdeclared]
      generalize leNat [s0, s1, s2, s3] = declared at hsize ⊢
      cases hrun : decHist (m0 == 0x6D) declared body [] with
      | error e =>
        -- A stream of whole tokens has no error.
        refine ⟨fun _ => ?_, fun _ => trivial⟩
        rintro ⟨n, htokens, hn, -⟩
        obtain ⟨r, hr, -⟩ := decHist_tokens htokens (show ([] : Bytes).length + n < declared by
          rwa [length_nil, Nat.zero_add])
        rw [hrun] at hr
        cases hr
      | ok out =>
        obtain ⟨hle, hshort⟩ := decHist_short (Nat.zero_le _) hrun
        show cInt out.length < 0 ∨ (cInt out.length = declared ∧ out.length = declared) ↔ _
        constructor
        · rintro hgives ⟨n, htokens, hn, hsmall⟩
          obtain ⟨r, hr, hlen⟩ := decHist_tokens htokens (show ([] : Bytes).length + n < declared by
            rwa [length_nil, Nat.zero_add])
          obtain rfl : out = r := Except.ok.inj (hrun.symm.trans hr)
          rw [length_nil, Nat.zero_add] at hlen
          rcases hgives with hneg | ⟨-, heq⟩
          · rw [(cInt_eq_iff out.length).mpr (by omega)] at hneg
            omega
          · omega
        · intro hnot
          by_cases hlt : out.length < declared
          · obtain ⟨n, htokens, hlen⟩ := hshort hlt
            rw [length_nil, Nat.zero_add] at hlen
            have hbig : ¬ n < 2 ^ 31 := fun h => hnot ⟨n, htokens, by omega, h⟩
            left
            exact cInt_neg (by omega) (by omega)
          · have heq : out.length = declared := by omega
            by_cases hbig : out.length < 2 ^ 31
            · right
              exact ⟨by rw [(cInt_eq_iff out.length).mpr hbig, heq], heq⟩
            · left
              exact cInt_neg (by omega) (by omega)
    · have herror : mzDecompressLz77 (m0 :: m1 :: s0 :: s1 :: s2 :: s3 :: body) = .error .data := by
        unfold mzDecompressLz77
        dsimp only
        rw [if_neg hmagic]
      unfold GivesDeclared
      rw [herror]
      refine ⟨fun _ => ?_, fun _ => trivial⟩
      rintro ⟨h, -⟩
      simp only [take_succ_cons, take_zero, List.cons.injEq, and_true] at h
      rcases h with ⟨h0, h1⟩ | ⟨h0, h1⟩
      · exact hmagic ⟨h1, Or.inl h0⟩
      · exact hmagic ⟨h1, Or.inr h0⟩
  | [] | [_] | [_, _] | [_, _, _] | [_, _, _, _] | [_, _, _, _, _] =>
    refine ⟨fun _ => ?_, fun _ => trivial⟩
    rintro ⟨-, hlen, -⟩
    simp at hlen

/-- The header declares five bytes, one literal follows, and the decoder reports one byte. -/
theorem mzDecompressLz77_early :
    mzDecompressLz77 [0x6D, 0x5A, 5, 0, 0, 0, 0x61] = .ok (1, [0x61]) ∧
      ¬ GivesDeclared [0x6D, 0x5A, 5, 0, 0, 0, 0x61] := by
  have hrun : mzDecompressLz77 [0x6D, 0x5A, 5, 0, 0, 0, 0x61] = .ok (1, [0x61]) := by
    rw [mzDecompressLz77_header [0x61] (Or.inr rfl), decHist_literal (by decide) (by decide)]
    decide
  refine ⟨hrun, ?_⟩
  unfold GivesDeclared
  rw [hrun]
  decide

end MeuOS.Compress
