import Mathlib.Data.UInt
import Mathlib.Tactic.Linarith
import Mathlib.Tactic.Ring

namespace MeuOS.Compress.Adler32

open List

/-!
# Adler-32 with deferred reduction

`mz_adler32` adds up to 5552 bytes in 32-bit registers before it reduces the two sums.

* `addByte_exact`    — within that many bytes from reduced sums no addition wraps around;
* `blocks_toNat`     — the blocks compute the sums that are reduced after every byte;
* `adler32_chunks`   — cutting the bytes into chunks changes nothing, and no run wraps around.
-/

/-- The two accumulators `s1` and `s2`. -/
@[ext] structure Sums where
  /-- The sum of the bytes. -/
  s1 : UInt32
  /-- The sum of the values of `s1`. -/
  s2 : UInt32
  deriving DecidableEq

/-- `MZ_ADLER_BASE`. -/
def base : UInt32 := 65521

/-- `MZ_ADLER_NMAX`: the bytes added before a reduction. -/
def nmax : Nat := 5552

/-- One turn of the inner loop. -/
def addByte (s : Sums) (b : UInt8) : Sums where
  s1 := s.s1 + b.toUInt32
  s2 := s.s2 + (s.s1 + b.toUInt32)

/-- The outer loop: add a block of at most `nmax` bytes, reduce both sums, go on. -/
def blocks (s : Sums) (data : List UInt8) : Sums :=
  if data.isEmpty then s
  else
    let t := (data.take nmax).foldl addByte s
    blocks ⟨t.s1 % base, t.s2 % base⟩ (data.drop nmax)
termination_by data.length
decreasing_by
  rw [List.isEmpty_iff] at *
  have := length_pos_of_ne_nil ‹_›
  simp only [length_drop, nmax]
  omega

/-- `(s2 << 16) | s1`. -/
def Sums.pack (s : Sums) : UInt32 := (s.s2 <<< 16) ||| s.s1

/-- The two halves that `mz_adler32_update` takes out of its state. -/
def unpack (adler : UInt32) : Sums := ⟨adler &&& 0xFFFF, (adler >>> 16) &&& 0xFFFF⟩

/-- `mz_adler32`. -/
def adler32 (data : List UInt8) : UInt32 := (blocks ⟨1, 0⟩ data).pack

/-- `mz_adler32_init`. -/
def init : UInt32 := 1

/-- `mz_adler32_update`. -/
def update (adler : UInt32) (data : List UInt8) : UInt32 := (blocks (unpack adler) data).pack

/-! ### The definition with a reduction after every byte -/

/-- One byte of the definition in RFC 1950: both sums are kept modulo 65521. -/
def rfcByte (s : Nat × Nat) (b : UInt8) : Nat × Nat :=
  ((s.1 + b.toNat) % 65521, (s.2 + (s.1 + b.toNat) % 65521) % 65521)

/-- The checksum of RFC 1950: `s2 * 65536 + s1`. -/
def rfcAdler32 (data : List UInt8) : Nat :=
  let s := data.foldl rfcByte (1, 0)
  s.2 * 65536 + s.1

/-! ### No addition of a block wraps around -/

/-- The sums as numbers. -/
def Sums.nats (s : Sums) : Nat × Nat := (s.s1.toNat, s.s2.toNat)

/-- Both sums are below the base, as after a reduction. -/
def Sums.Reduced (s : Sums) : Prop := s.s1.toNat < 65521 ∧ s.s2.toNat < 65521

/-- One turn of the inner loop on numbers without a bound. -/
def addExact (s : Nat × Nat) (b : UInt8) : Nat × Nat :=
  (s.1 + b.toNat, s.2 + (s.1 + b.toNat))

/-- The registers hold the exact sums as long as the worst case of the bytes still to come
    fits: each of `n` bytes adds at most 255 to the first sum and that sum to the second. -/
theorem foldl_addByte : ∀ (block : List UInt8) (s : Sums),
    s.s1.toNat + 255 * block.length < 2 ^ 32 →
    2 * (s.s2.toNat + block.length * s.s1.toNat) + 255 * (block.length * (block.length + 1)) <
      2 ^ 33 →
    (block.foldl addByte s).nats = block.foldl addExact s.nats
  | [], _, _, _ => rfl
  | b :: block, s, h₁, h₂ => by
    have hb : b.toNat ≤ 255 := by have := b.toNat_lt; omega
    simp only [length_cons] at h₁ h₂
    -- the first byte: its two additions stay below the bound of the whole block
    have hmul : (block.length + 1) * (s.s1.toNat + b.toNat) ≤
        (block.length + 1) * (s.s1.toNat + 255) := Nat.mul_le_mul_left _ (by omega)
    have h1 : (addByte s b).s1.toNat = s.s1.toNat + b.toNat := by
      simp only [addByte, UInt32.toNat_add, UInt8.toNat_toUInt32]
      omega
    have h2 : (addByte s b).s2.toNat = s.s2.toNat + (s.s1.toNat + b.toNat) := by
      have : (addByte s b).s2 = s.s2 + (addByte s b).s1 := rfl
      rw [this, UInt32.toNat_add, h1]
      exact Nat.mod_eq_of_lt (by nlinarith)
    rw [foldl_cons, foldl_cons,
      foldl_addByte block _ (by omega) (by rw [h1, h2]; nlinarith)]
    simp only [Sums.nats, addExact, h1, h2]

/-- Within a block that starts from reduced sums no addition wraps around. -/
theorem addByte_exact {s : Sums} (hs : s.Reduced) {block : List UInt8}
    (hlen : block.length ≤ nmax) :
    (block.foldl addByte s).nats = block.foldl addExact s.nats := by
  obtain ⟨h₁, h₂⟩ := hs
  have hmul : block.length * s.s1.toNat ≤ nmax * 65520 := Nat.mul_le_mul hlen (by omega)
  have hsq : block.length * (block.length + 1) ≤ nmax * (nmax + 1) :=
    Nat.mul_le_mul hlen (by omega)
  simp only [nmax] at hlen hmul hsq
  exact foldl_addByte block s (by omega) (by omega)

/-! ### The reduction may wait -/

/-- Reducing the exact sums once at the end gives the sums reduced after every byte. -/
theorem foldl_addExact_mod : ∀ (block : List UInt8) (s : Nat × Nat),
    ((block.foldl addExact s).1 % 65521, (block.foldl addExact s).2 % 65521) =
      block.foldl rfcByte (s.1 % 65521, s.2 % 65521)
  | [], _ => rfl
  | b :: block, s => by
    rw [foldl_cons, foldl_cons, foldl_addExact_mod block]
    simp only [addExact, rfcByte, Nat.mod_add_mod, Nat.add_mod_mod]

theorem reduced_mod (t : Sums) : (⟨t.s1 % base, t.s2 % base⟩ : Sums).Reduced :=
  ⟨Nat.mod_lt _ (by decide), Nat.mod_lt _ (by decide)⟩

/-- The blocks compute the sums reduced after every byte, and leave them reduced. -/
theorem blocks_toNat (data : List UInt8) {s : Sums} (hs : s.Reduced) :
    (blocks s data).nats = data.foldl rfcByte s.nats ∧ (blocks s data).Reduced := by
  fun_induction blocks s data with
  | case1 s data h => rw [List.isEmpty_iff.mp h]; exact ⟨rfl, hs⟩
  | case2 s data h t ih =>
    obtain ⟨ih, hred⟩ := ih (reduced_mod t)
    refine ⟨?_, hred⟩
    -- the block's reduced sums are the definition's after the block
    have hblock : (⟨t.s1 % base, t.s2 % base⟩ : Sums).nats =
        (data.take nmax).foldl rfcByte s.nats := by
      have hexact := addByte_exact hs (List.length_take_le nmax data)
      have hmod := foldl_addExact_mod (data.take nmax) s.nats
      rw [← hexact] at hmod
      have hs₁ : s.nats.1 % 65521 = s.nats.1 := Nat.mod_eq_of_lt hs.1
      have hs₂ : s.nats.2 % 65521 = s.nats.2 := Nat.mod_eq_of_lt hs.2
      rw [hs₁, hs₂] at hmod
      exact hmod
    rw [ih, hblock, ← List.foldl_append, List.take_append_drop]

/-! ### Chunks -/

/-- The packed sums as a number. -/
theorem pack_toNat {s : Sums} (hs : s.Reduced) :
    s.pack.toNat = s.nats.2 * 65536 + s.nats.1 := by
  obtain ⟨h₁, h₂⟩ := hs
  have hshift : (s.s2 <<< 16).toNat = 2 ^ 16 * s.s2.toNat := by
    rw [UInt32.toNat_shiftLeft, show (16 : UInt32).toNat % 32 = 16 from rfl, Nat.shiftLeft_eq,
      Nat.mul_comm]
    exact Nat.mod_eq_of_lt (by omega)
  rw [Sums.pack, UInt32.toNat_or, hshift, ← Nat.two_pow_add_eq_or_of_lt (by omega), Sums.nats,
    Nat.mul_comm]

/-- Taking a packed state apart gives its sums back. -/
theorem unpack_pack {s : Sums} (hs : s.Reduced) : unpack s.pack = s := by
  have hp := pack_toNat hs
  obtain ⟨h₁, h₂⟩ := hs
  have hmask (x : UInt32) : (x &&& 0xFFFF).toNat = x.toNat % 2 ^ 16 := by
    rw [UInt32.toNat_and]
    exact Nat.and_two_pow_sub_one_eq_mod _ 16
  have hhalf : (s.pack >>> 16).toNat = s.pack.toNat / 2 ^ 16 := by
    rw [UInt32.toNat_shiftRight, show (16 : UInt32).toNat % 32 = 16 from rfl,
      Nat.shiftRight_eq_div_pow]
  simp only [Sums.nats] at hp
  ext
  · rw [unpack, hmask, hp]
    omega
  · rw [unpack, hmask, hhalf, hp]
    omega

/-- Blocks after blocks are the blocks of all the bytes. -/
theorem blocks_append {s : Sums} (hs : s.Reduced) (a b : List UInt8) :
    blocks (blocks s a) b = blocks s (a ++ b) := by
  have ha := blocks_toNat a hs
  have h : (blocks (blocks s a) b).nats = (blocks s (a ++ b)).nats := by
    rw [(blocks_toNat b ha.2).1, ha.1, (blocks_toNat (a ++ b) hs).1, foldl_append]
  ext
  · exact congrArg Prod.fst h
  · exact congrArg Prod.snd h

theorem reduced_start : (⟨1, 0⟩ : Sums).Reduced := ⟨by decide, by decide⟩

/-- The state after the chunks packs the sums of all their bytes. -/
theorem foldl_update (chunks : List (List UInt8)) :
    chunks.foldl update init = (blocks ⟨1, 0⟩ chunks.flatten).pack := by
  induction chunks using reverseRecOn with
  | nil =>
    rw [List.flatten_nil, blocks]
    rfl
  | append_singleton chunks chunk ih =>
    rw [foldl_append, ih, foldl_cons, foldl_nil, update,
      unpack_pack (blocks_toNat _ reduced_start).2, blocks_append reduced_start,
      flatten_append, flatten_singleton]

/-- However the bytes are cut into chunks, updating from the initial state gives the checksum of
    the whole, which is the one of RFC 1950. At every point of every block of such a run, and
    so of `mz_adler32`, the registers hold the exact sums. -/
theorem adler32_chunks (chunks : List (List UInt8)) :
    chunks.foldl update init = adler32 chunks.flatten ∧
      (adler32 chunks.flatten).toNat = rfcAdler32 chunks.flatten ∧
      ∀ (chunk : List UInt8) (k j : Nat),
        let start := blocks (unpack (chunks.foldl update init)) (chunk.take (k * nmax))
        let block := ((chunk.drop (k * nmax)).take nmax).take j
        start.Reduced ∧ (block.foldl addByte start).nats = block.foldl addExact start.nats := by
  have hall := blocks_toNat chunks.flatten reduced_start
  refine ⟨foldl_update chunks, ?_, fun chunk k j => ?_⟩
  · rw [adler32, pack_toNat hall.2, hall.1]
    rfl
  · intro start block
    have hstart : start.Reduced := by
      refine (blocks_toNat _ ?_).2
      rw [foldl_update, unpack_pack hall.2]
      exact hall.2
    refine ⟨hstart, addByte_exact hstart ?_⟩
    exact (length_take_le' _ _).trans (length_take_le nmax _)

end MeuOS.Compress.Adler32
