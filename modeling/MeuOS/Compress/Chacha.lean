import MeuOS.Lib.Bytes
import Mathlib.Logic.Function.Iterate

namespace MeuOS.Compress

open MeuOS.Lib

/-!
# ChaCha20 (`mz_crypt.c`)

`mz_chacha20` adds a key stream to its input, 64 bytes at a time.

* `mzChacha20` — the cipher; `none` stands for a call that does not return;
* `mzChacha20_length` — the output is as long as the input;
* `mzChacha20_involutive` — a second call with the same key and nonce undoes the first.
-/

/-! ### The block function -/

/-- The sixteen words of the cipher's state. -/
abbrev ChachaState : Type := Vector UInt32 16

/-- `rotl32`. -/
def rotl32 (x n : UInt32) : UInt32 := (x <<< n) ||| (x >>> (32 - n))

/-- `load32_le` at an offset. -/
def load32le (bs : Bytes) (off : Nat) : UInt32 := UInt32.ofNat (leNat (slice bs off 4))

/-- `chacha_quarter_round` on four words of the state. -/
def chachaQuarterRound (x : ChachaState) (a b c d : Fin 16) : ChachaState :=
  let a₁ := x[a] + x[b]
  let d₁ := rotl32 (x[d] ^^^ a₁) 16
  let c₁ := x[c] + d₁
  let b₁ := rotl32 (x[b] ^^^ c₁) 12
  let a₂ := a₁ + b₁
  let d₂ := rotl32 (d₁ ^^^ a₂) 8
  let c₂ := c₁ + d₂
  let b₂ := rotl32 (b₁ ^^^ c₂) 7
  (((x.set a a₂).set b b₂).set c c₂).set d d₂

local instance sixteen_ne_zero : NeZero 16 := ⟨by decide⟩

/-- A column round and a diagonal round. -/
def chachaDoubleRound (x : ChachaState) : ChachaState :=
  let x := chachaQuarterRound x 0 4 8 12
  let x := chachaQuarterRound x 1 5 9 13
  let x := chachaQuarterRound x 2 6 10 14
  let x := chachaQuarterRound x 3 7 11 15
  let x := chachaQuarterRound x 0 5 10 15
  let x := chachaQuarterRound x 1 6 11 12
  let x := chachaQuarterRound x 2 7 8 13
  chachaQuarterRound x 3 4 9 14

/-- `chacha20_block`: 64 bytes of the key stream. -/
def chacha20Block (state : ChachaState) : Bytes :=
  let x := chachaDoubleRound^[10] state
  (List.finRange 16).flatMap fun i => leBytes 4 (x[i] + state[i]).toNat

/-- The state with which `mz_chacha20` starts. -/
def chachaInit (key nonce : Bytes) (counter : Nat) : ChachaState :=
  #v[0x61707865, 0x3320646e, 0x79622d32, 0x6b206574,
    load32le key 0, load32le key 4, load32le key 8, load32le key 12,
    load32le key 16, load32le key 20, load32le key 24, load32le key 28,
    UInt32.ofNat counter, load32le nonce 0, load32le nonce 4, load32le nonce 8]

/-- `state[12]++`. -/
def chachaNext (state : ChachaState) : ChachaState := state.set 12 (state[12] + 1)

/-- The exclusive or of two byte strings, as long as the shorter one. -/
def xorBytes (a b : Bytes) : Bytes := List.zipWith (· ^^^ ·) a b

/-- The number of bytes that one turn of the loop of `mz_chacha20` takes when `len` bytes are
    left: `remain` is a `uint32_t`. -/
def chachaRemain (len : Nat) : Nat := min (len % 2 ^ 32) 64

/-- The loop of `mz_chacha20`; the first argument bounds the turns.  Where `remain` is 0 with
    bytes left, the source stays at its position for ever. -/
def chachaLoop : Nat → ChachaState → Bytes → Option Bytes
  | 0, _, _ => some []
  | turns + 1, state, input =>
    if input = [] then some []
    else if chachaRemain input.length = 0 then none
    else
      match chachaLoop turns (chachaNext state)
          (input.drop (chachaRemain input.length)) with
      | none => none
      | some out =>
        some (xorBytes (input.take (chachaRemain input.length)) (chacha20Block state) ++ out)

/-- `mz_chacha20`: every turn takes a byte, so `input.length` turns are enough. -/
def mzChacha20 (key nonce : Bytes) (counter : Nat) (input : Bytes) : Option Bytes :=
  chachaLoop input.length (chachaInit key nonce counter) input

set_option maxRecDepth 20000 in
/-- The key stream of the zero key begins as in the published test vector. -/
example : mzChacha20 (List.replicate 32 0) (List.replicate 12 0) 0 [0, 0, 0, 0, 0, 0, 0, 0]
    = some [0x76, 0xb8, 0xe0, 0xad, 0xa0, 0xf1, 0x3d, 0x90] := by decide

/-! ### The second call undoes the first -/

@[simp] theorem length_chacha20Block (state : ChachaState) : (chacha20Block state).length = 64 := by
  unfold chacha20Block
  simp [List.length_flatMap]

theorem length_xorBytes {a b : Bytes} (h : a.length ≤ b.length) :
    (xorBytes a b).length = a.length := by
  unfold xorBytes
  rw [List.length_zipWith, Nat.min_eq_left h]

/-- Adding the same bytes twice changes nothing. -/
theorem xorBytes_involutive {a b : Bytes} (h : a.length ≤ b.length) :
    xorBytes (xorBytes a b) b = a := by
  induction a generalizing b with
  | nil => simp [xorBytes]
  | cons x a ih =>
    rcases b with _ | ⟨y, b⟩
    · simp at h
    · show ((x ^^^ y) ^^^ y) :: xorBytes (xorBytes a b) b = x :: a
      rw [ih (Nat.le_of_succ_le_succ h), UInt8.xor_assoc, UInt8.xor_self, UInt8.xor_zero]

/-- The loop keeps the length, and run on its output it gives back the input. -/
theorem chachaLoop_involutive {turns : Nat} {state : ChachaState} {input out : Bytes}
    (hturns : input.length ≤ turns) (h : chachaLoop turns state input = some out) :
    out.length = input.length ∧ chachaLoop turns state out = some input := by
  induction turns generalizing state input out with
  | zero =>
    have hnil : input = [] := List.length_eq_zero_iff.mp (Nat.le_zero.mp hturns)
    rw [← Option.some.inj h, hnil]
    exact ⟨rfl, rfl⟩
  | succ turns ih =>
    unfold chachaLoop at h
    by_cases hinput : input = []
    · rw [if_pos hinput] at h
      rw [← Option.some.inj h, hinput]
      exact ⟨rfl, rfl⟩
    rw [if_neg hinput] at h
    by_cases hremain : chachaRemain input.length = 0
    · rw [if_pos hremain] at h
      cases h
    rw [if_neg hremain] at h
    have hle : chachaRemain input.length ≤ 64 := Nat.min_le_right _ _
    have hlen : chachaRemain input.length ≤ input.length :=
      (Nat.min_le_left _ _).trans (Nat.mod_le _ _)
    set r := chachaRemain input.length with hr
    rcases hrest : chachaLoop turns (chachaNext state) (input.drop r) with _ | rest
    · rw [hrest] at h
      cases h
    rw [hrest] at h
    have hdrop : (input.drop r).length ≤ turns := by
      rw [List.length_drop]
      omega
    obtain ⟨hrestLen, hback⟩ := ih hdrop hrest
    have htake : (input.take r).length = r := by
      rw [List.length_take, Nat.min_eq_left hlen]
    have hfit : (input.take r).length ≤ (chacha20Block state).length := by
      rw [htake, length_chacha20Block]
      exact hle
    set head := xorBytes (input.take r) (chacha20Block state) with hhead
    have hheadLen : head.length = r := by rw [hhead, length_xorBytes hfit, htake]
    obtain rfl : head ++ rest = out := Option.some.inj h
    have hout : (head ++ rest).length = input.length := by
      rw [List.length_append, hheadLen, hrestLen, List.length_drop]
      omega
    refine ⟨hout, ?_⟩
    -- The second run takes the same number of bytes, which are those of the first block.
    have hne : head ++ rest ≠ [] := by
      intro hnil
      rw [hnil] at hout
      exact hinput (List.length_eq_zero_iff.mp hout.symm)
    rw [chachaLoop, if_neg hne, hout, ← hr, if_neg hremain, List.drop_left' hheadLen,
      List.take_left' hheadLen, hback]
    dsimp only
    rw [hhead, xorBytes_involutive hfit, List.take_append_drop]

theorem mzChacha20_length {key nonce input out : Bytes} {counter : Nat}
    (h : mzChacha20 key nonce counter input = some out) : out.length = input.length :=
  (chachaLoop_involutive le_rfl h).1

/-- A second call with the same key and nonce undoes the first. -/
theorem mzChacha20_involutive {key nonce input out : Bytes} {counter : Nat}
    (h : mzChacha20 key nonce counter input = some out) :
    mzChacha20 key nonce counter out = some input := by
  obtain ⟨hlen, hback⟩ := chachaLoop_involutive le_rfl h
  unfold mzChacha20
  rw [hlen]
  exact hback

end MeuOS.Compress
