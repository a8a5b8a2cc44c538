import MeuOS.Compress.Chacha
import Mathlib.Data.Fintype.Basic
import Mathlib.Tactic.FinCases

namespace MeuOS.Compress

open MeuOS.Lib List

/-!
# The key stream of ChaCha20

The cipher as it is published: words of 32 bits, quarter rounds on four of sixteen of them, ten
double rounds for a block of the key stream.

* `quarterRound`, `innerBlock`, `keystreamBlock` — the block function;
* `chacha20Block_eq` — `chacha20_block` is the block function;
* `chachaLoop_blocks` — block `i` of the output is block `i` of the input with the key stream added;
* `mzChacha20_iff` — `mz_chacha20` is the cipher for the inputs on which it returns.
-/

/-! ### The block function -/

/-- The state of the cipher, sixteen words. -/
abbrev Words : Type := Fin 16 → BitVec 32

/-- One quarter round on four words. -/
def quarterRound (a b c d : BitVec 32) : BitVec 32 × BitVec 32 × BitVec 32 × BitVec 32 :=
  let a := a + b
  let d := (d ^^^ a).rotateLeft 16
  let c := c + d
  let b := (b ^^^ c).rotateLeft 12
  let a := a + b
  let d := (d ^^^ a).rotateLeft 8
  let c := c + d
  let b := (b ^^^ c).rotateLeft 7
  (a, b, c, d)

/-- The quarter round on the words `i`, `j`, `k` and `l` of the state. -/
def quarterRoundAt (x : Words) (i j k l : Fin 16) : Words :=
  let (a, b, c, d) := quarterRound (x i) (x j) (x k) (x l)
  fun n => if n = l then d else if n = k then c else if n = j then b else if n = i then a else x n

/-- The four columns, then the four diagonals. -/
def innerBlock (x : Words) : Words :=
  [((0 : Fin 16), (4 : Fin 16), (8 : Fin 16), (12 : Fin 16)), (1, 5, 9, 13), (2, 6, 10, 14),
    (3, 7, 11, 15), (0, 5, 10, 15), (1, 6, 11, 12), (2, 7, 8, 13), (3, 4, 9, 14)].foldl
    (fun x p => quarterRoundAt x p.1 p.2.1 p.2.2.1 p.2.2.2) x

/-- A word of a byte string, the least significant byte first. -/
def wordAt (bs : Bytes) (i : Nat) : BitVec 32 := BitVec.ofNat 32 (leNat (slice bs (4 * i) 4))

/-- The four constants: the letters of `expand 32-byte k`. -/
def sigma : Bytes :=
  [0x65, 0x78, 0x70, 0x61, 0x6e, 0x64, 0x20, 0x33, 0x32, 0x2d, 0x62, 0x79, 0x74, 0x65, 0x20, 0x6b]

/-- The first state of a block: constants, key, block counter, nonce. -/
def initialWords (key : Bytes) (counter : BitVec 32) (nonce : Bytes) : Words := fun n =>
  if n < 4 then wordAt sigma n
  else if n < 12 then wordAt key (n - 4)
  else if n = 12 then counter
  else wordAt nonce (n - 13)

/-- The words of a state, the least significant byte first. -/
def serialize (x : Words) : Bytes := (finRange 16).flatMap fun n => leBytes 4 (x n).toNat

/-- The block of the key stream for a counter. -/
def keystreamBlock (key : Bytes) (counter : BitVec 32) (nonce : Bytes) : Bytes :=
  let x := initialWords key counter nonce
  let y := innerBlock^[10] x
  serialize fun n => y n + x n

/-! ### The source's block function -/

/-- The words of the source's state. -/
def ChachaState.words (s : ChachaState) : Words := fun n => (s.get n).toBitVec

theorem rotl32_toBitVec (x : UInt32) {n : UInt32} (h : n = 16 ∨ n = 12 ∨ n = 8 ∨ n = 7) :
    (rotl32 x n).toBitVec = x.toBitVec.rotateLeft n.toNat := by
  rcases h with rfl | rfl | rfl | rfl <;> rfl

/-- One quarter round of the source. -/
theorem chachaQuarterRound_words (s : ChachaState) (i j k l : Fin 16) :
    (chachaQuarterRound s i j k l).words = quarterRoundAt s.words i j k l := by
  funext n
  have hindex : ∀ m : Fin 16, (m.val = n.val) = (n = m) := fun m =>
    propext ⟨fun h => Fin.ext h.symm, fun h => congrArg Fin.val h.symm⟩
  have hwords : ∀ (t : ChachaState) (m : Fin 16), t.words m = t[m].toBitVec := fun _ _ => rfl
  simp only [chachaQuarterRound, hwords, quarterRoundAt, quarterRound,
    Fin.getElem_fin, Vector.getElem_set, hindex, apply_ite UInt32.toBitVec, UInt32.toBitVec_add,
    UInt32.toBitVec_xor, rotl32_toBitVec _ (Or.inl rfl),
    rotl32_toBitVec _ (Or.inr (Or.inl rfl)), rotl32_toBitVec _ (Or.inr (Or.inr (Or.inl rfl))),
    rotl32_toBitVec _ (Or.inr (Or.inr (Or.inr rfl)))]
  rfl

theorem chachaDoubleRound_words (s : ChachaState) :
    (chachaDoubleRound s).words = innerBlock s.words := by
  unfold chachaDoubleRound innerBlock
  simp only [chachaQuarterRound_words, foldl_cons, foldl_nil]

/-- `chacha20_block` adds the state to what the ten double rounds make of it. -/
theorem chacha20Block_words (s : ChachaState) :
    chacha20Block s = serialize fun n => innerBlock^[10] s.words n + s.words n := by
  have hrounds : ∀ k, (chachaDoubleRound^[k] s).words = innerBlock^[k] s.words := by
    intro k
    induction k with
    | zero => rfl
    | succ k ih => rw [Function.iterate_succ_apply', Function.iterate_succ_apply',
        chachaDoubleRound_words, ih]
  rw [← hrounds]
  rfl

theorem chachaInit_words (key nonce : Bytes) (counter : Nat) :
    (chachaInit key nonce counter).words = initialWords key (BitVec.ofNat 32 counter) nonce := by
  funext n
  fin_cases n <;> rfl

theorem chachaNext_init (key nonce : Bytes) (counter : Nat) :
    chachaNext (chachaInit key nonce counter) = chachaInit key nonce (counter + 1) := by
  have hcounter : UInt32.ofNat (counter + 1) = UInt32.ofNat counter + 1 := UInt32.ofNat_add _ _
  unfold chachaInit
  rw [hcounter]
  rfl

theorem chacha20Block_eq (key nonce : Bytes) (counter : Nat) :
    chacha20Block (chachaInit key nonce counter)
      = keystreamBlock key (BitVec.ofNat 32 counter) nonce := by
  rw [chacha20Block_words, chachaInit_words]
  rfl

/-! ### The loop -/

theorem chachaRemain_of_lt {len : Nat} (h : len < 2 ^ 32) : chachaRemain len = min len 64 := by
  unfold chachaRemain
  rw [Nat.mod_eq_of_lt h]

/-- Below `2 ^ 32` bytes the loop ends, and each block of its output is that block of the input
with the key stream of its counter. -/
theorem chachaLoop_blocks (key nonce : Bytes) {turns counter : Nat} {input : Bytes}
    (hturns : input.length ≤ turns) (hlen : input.length < 2 ^ 32) :
    ∃ out, chachaLoop turns (chachaInit key nonce counter) input = some out ∧
      ∀ i, slice out (64 * i) 64
        = xorBytes (slice input (64 * i) 64)
            (keystreamBlock key (BitVec.ofNat 32 (counter + i)) nonce) := by
  induction turns generalizing counter input with
  | zero =>
    obtain rfl : input = [] := length_eq_zero_iff.mp (Nat.le_zero.mp hturns)
    exact ⟨[], rfl, fun i => by simp [slice, xorBytes]⟩
  | succ turns ih =>
    unfold chachaLoop
    by_cases hinput : input = []
    · subst hinput
      exact ⟨[], rfl, fun i => by simp [slice, xorBytes]⟩
    have hpos : 0 < input.length := length_pos_iff.mpr hinput
    have hremain := chachaRemain_of_lt hlen
    rw [if_neg hinput, if_neg (by rw [hremain]; omega), hremain, chachaNext_init]
    set r := min input.length 64 with hr
    obtain ⟨rest, hrest, hblocks⟩ :=
      @ih (counter + 1) (input.drop r) (by rw [length_drop]; omega)
        (by rw [length_drop]; omega)
    rw [hrest, chacha20Block_eq]
    refine ⟨_, rfl, fun i => ?_⟩
    -- The first block is the one of this turn, the others are those of the rest.
    set head := xorBytes (input.take r) (keystreamBlock key (BitVec.ofNat 32 counter) nonce) with
      hhead
    have hfit : (input.take r).length ≤ (keystreamBlock key (BitVec.ofNat 32 counter) nonce).length :=
      by
      rw [← chacha20Block_eq, length_chacha20Block, length_take]
      omega
    have hheadLen : head.length = r := by
      rw [hhead, length_xorBytes hfit, length_take]
      omega
    cases i with
    | zero =>
      have hrestLen : rest.length = input.length - r := by
        rw [(chachaLoop_involutive (by rw [length_drop]; omega) hrest).1, length_drop]
      have htake : (head ++ rest).take 64 = head := by
        rw [take_append, take_of_length_le (by omega)]
        by_cases hlong : input.length ≤ 64
        · rw [length_eq_zero_iff.mp (show rest.length = 0 by omega)]
          simp
        · rw [show 64 - head.length = 0 by omega, take_zero, append_nil]
      have hinputTake : input.take 64 = input.take r := by
        by_cases hlong : input.length ≤ 64
        · rw [take_of_length_le hlong, take_of_length_le (by omega)]
        · rw [show r = 64 by omega]
      show ((head ++ rest).drop (64 * 0)).take 64 = xorBytes ((input.drop (64 * 0)).take 64) _
      rw [Nat.mul_zero, drop_zero, drop_zero, htake, hinputTake]
      exact hhead
    | succ i =>
      rw [show counter + (i + 1) = counter + 1 + i by omega]
      have hnext := hblocks i
      by_cases hlong : input.length ≤ 64
      · -- Nothing is left behind the only block.
        have hout : slice (head ++ rest) (64 * (i + 1)) 64 = [] := by
          have hrestLen : rest.length = input.length - r := by
            rw [(chachaLoop_involutive (by rw [length_drop]; omega) hrest).1,
              length_drop]
          unfold slice
          rw [drop_eq_nil_of_le (by rw [length_append]; omega), take_nil]
        have hin : slice input (64 * (i + 1)) 64 = [] := by
          unfold slice
          rw [drop_eq_nil_of_le (by omega), take_nil]
        rw [hout, hin]
        rfl
      · have hblock : r = 64 := by omega
        have hout : slice (head ++ rest) (64 * (i + 1)) 64 = slice rest (64 * i) 64 := by
          rw [slice_append_right _ _ _ (by omega), show 64 * (i + 1) - head.length = 64 * i by omega]
        have hin : slice input (64 * (i + 1)) 64 = slice (input.drop r) (64 * i) 64 := by
          unfold slice
          rw [drop_drop, show r + 64 * i = 64 * (i + 1) by omega]
        rw [hout, hin, hnext]

/-- From `2 ^ 32` bytes on the loop does not end: at the latest in front of the last `2 ^ 32` bytes
`remain` is 0. -/
theorem chachaLoop_stuck {turns : Nat} {state : ChachaState} {input : Bytes}
    (hturns : input.length ≤ turns) (hlen : 2 ^ 32 ≤ input.length) :
    chachaLoop turns state input = none := by
  induction turns generalizing state input with
  | zero => omega
  | succ turns ih =>
    have hne : input ≠ [] := by
      rintro rfl
      cases hlen
    unfold chachaLoop
    rw [if_neg hne]
    by_cases hzero : chachaRemain input.length = 0
    · rw [if_pos hzero]
    · -- A turn takes no more than the part above a multiple of `2 ^ 32`.
      have hle : chachaRemain input.length ≤ input.length % 2 ^ 32 := Nat.min_le_left _ _
      rw [if_neg hzero, ih (by rw [length_drop]; omega) (by rw [length_drop]; omega)]

/-! ### The cipher -/

/-- `mz_chacha20` returns, adds the key stream, block `i` with the counter `counter + i` modulo
`2 ^ 32`, and undoes itself: this holds exactly for inputs of less than `2 ^ 32` bytes. -/
theorem mzChacha20_iff (key nonce : Bytes) (counter : Nat) (input : Bytes) :
    (∃ out, mzChacha20 key nonce counter input = some out ∧
        (∀ i, slice out (64 * i) 64
          = xorBytes (slice input (64 * i) 64)
              (keystreamBlock key (BitVec.ofNat 32 (counter + i)) nonce)) ∧
        mzChacha20 key nonce counter out = some input) ↔
      input.length < 2 ^ 32 := by
  constructor
  · rintro ⟨out, hout, -⟩
    by_contra hlen
    rw [mzChacha20, chachaLoop_stuck le_rfl (Nat.le_of_not_lt hlen)] at hout
    cases hout
  · intro hlen
    obtain ⟨out, hout, hblocks⟩ := chachaLoop_blocks key nonce le_rfl hlen
    exact ⟨out, hout, hblocks, mzChacha20_involutive hout⟩

/-- On `2 ^ 32` zero bytes the loop does not end. -/
theorem mzChacha20_stuck : mzChacha20 (replicate 32 0) (replicate 12 0) 0
    (replicate (2 ^ 32) 0) = none := by
  have hlen : (replicate (2 ^ 32) (0 : UInt8)).length = 2 ^ 32 := length_replicate
  exact chachaLoop_stuck le_rfl hlen.ge

end MeuOS.Compress
