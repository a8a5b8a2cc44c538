import MeuOS.Compress.InflateValid
import MeuOS.Lib.Runs

namespace MeuOS.Compress.Inflate

open MeuOS.Lib Lib.Checked
open MeuOS.Lib.Checked (Returns Both)

/-!
# Truncated DEFLATE streams

A run on a prefix of the input does what the run on the input does until it misses a bit.  The bits
that `br_bits` replaces by zeros are harmless: the reader is at its end then, every block has a
symbol or a stored byte still to come, and reading that fails.

* `Same`, `Spent` — two readers that are as far as each other, and a reader at its end;
* `huffDecode_follows`, `readLengths_follows`, `decodeSymbols_follows` — the parts of a block on a
  prefix;
* `inflateBlockWith_follows`, `inflateBlock_prefix` — a block on a prefix: the same block, or an error;
* `mzDeflateDecompress_truncated` — every proper prefix of the bytes consumed is an error.
-/

/-! ### Readers -/

/-- The second reader is as far in a prefix of the data as the first one is in the data. -/
structure Same (br br' : BitReader) : Prop where
  data : br'.data <+: br.data
  byte_pos : br'.byte_pos = br.byte_pos
  bit_pos : br'.bit_pos = br.bit_pos
  inside : br'.Inside

/-- A reader without a bit left. -/
def Spent (br : BitReader) : Prop := br.byte_pos = br.data.length ∧ br.bit_pos = 0

variable {br br' b : BitReader} {turns n m hlit turns' : Nat} {α : Type} {code_ht : HuffTable}
  {grants grants' : Nat → Bool} {out o : OutBuf}

theorem brBit_spent (h : Spent br) : brBit br = .ok (none, br) := by
  unfold brBit
  rw [if_pos h.1.ge]

theorem brBits_spent (h : Spent br) (n : Nat) : brBits br n = .ok (0, br) := by
  unfold brBits
  cases n with
  | zero => rfl
  | succ n =>
    unfold brBitsLoop
    rw [brBit_spent h]
    rfl

theorem huffDecode_spent (h : Spent br) (ht : HuffTable) :
    huffDecode br ht = .ok (none, br) := by
  unfold huffDecode huffDecodeLoop
  rw [brBit_spent h]
  rfl

theorem spent_of_le (h : br.Inside) (hle : br.data.length ≤ br.byte_pos) :
    Spent br := by
  obtain ⟨hbit, hpos⟩ := h
  constructor <;> omega

/-- The same value from readers that are as far as each other, or a value as `P` says from a reader
at its end. -/
def Follows {α : Type} (P : α → Prop) (r r' : α × BitReader) : Prop :=
  (r'.1 = r.1 ∧ Same r.2 r'.2) ∨ (P r'.1 ∧ Spent r'.2)

/-- Runs that go on behind two such readers. -/
theorem Follows.bind {α β γ : Type} {P : α → Prop} {x y : Run (α × BitReader)}
    {f : α × BitReader → Run β} {g : α × BitReader → Run γ} {R : β → γ → Prop}
    (hx : Both x y (Follows P)) (hsame : ∀ a b b', Same b b' → Both (f (a, b)) (g (a, b')) R)
    (hspent : ∀ a b, P a → Spent b → (g (a, b)).Returns fun r' => ∀ r, R r r') :
    Both (x >>= f) (y >>= g) R := by
  refine hx.bind ?_
  rintro ⟨a, b⟩ ⟨a', b'⟩ (⟨heq, h⟩ | ⟨ha, h⟩)
  · obtain rfl : a' = a := heq
    exact hsame a' b b' h
  · exact (hspent a' b' ha h).both

/-- One bit: the same one, or none. -/
theorem brBit_follows (h : Same br br') :
    Both (brBit br) (brBit br') (Follows (· = none)) := by
  by_cases hend : br'.byte_pos ≥ br'.data.length
  · have hspent := spent_of_le h.inside hend
    rw [brBit_spent hspent]
    exact (Returns.ok fun _ => Or.inr ⟨rfl, hspent⟩).both
  have hlt : br'.byte_pos < br'.data.length := Nat.lt_of_not_ge hend
  have hle := h.data.length_le
  have hpos := h.byte_pos
  have hbyte : br.byte br.byte_pos = br'.byte br'.byte_pos := by
    obtain ⟨t, ht⟩ := h.data
    unfold BitReader.byte
    rw [← hpos, ← ht, List.getElem?_append_left hlt]
  obtain ⟨hbit, hin⟩ := h.inside
  unfold brBit
  rw [if_neg (by omega), if_neg hend, hbyte]
  refine Both.same fun c => ?_
  rw [h.bit_pos, h.byte_pos] at *
  refine Both.ite (fun hcarry => Both.ok (Or.inl ⟨rfl, h.data, rfl, rfl, ?_⟩))
    fun hcarry => Both.ok (Or.inl ⟨rfl, h.data, rfl, rfl, ?_⟩)
  · constructor <;> dsimp only <;> omega
  · constructor <;> dsimp only <;> omega

/-- The loop of `br_bits`: the same number, or a reader at its end. -/
theorem brBitsLoop_follows {i val : Nat} (h : Same br br') :
    Both (brBitsLoop turns i val br) (brBitsLoop turns i val br') (Follows fun _ => True) := by
  induction turns generalizing i val br br' with
  | zero => exact Both.ok (Or.inl ⟨rfl, h⟩)
  | succ turns ih =>
    unfold brBitsLoop
    refine Follows.bind (brBit_follows h) (fun bit b b' hsame => ?_) fun bit b hbit hspent => ?_
    · cases bit with
      | none => exact Both.ok (Or.inl ⟨rfl, hsame⟩)
      | some c => exact ih hsame
    · subst hbit
      exact Returns.ok fun _ => Or.inr ⟨trivial, hspent⟩

theorem brBits_follows (h : Same br br') (n : Nat) :
    Both (brBits br n) (brBits br' n) (Follows fun _ => True) :=
  brBitsLoop_follows h

/-! ### Symbols -/

/-- One symbol: the same one, or none. -/
theorem huffDecodeLoop_follows {ht : HuffTable} {len code first index : Nat} (h : Same br br') :
    Both (huffDecodeLoop ht turns len code first index br)
      (huffDecodeLoop ht turns len code first index br') (Follows (· = none)) := by
  induction turns generalizing len code first index br br' with
  | zero => exact Both.ok (Or.inl ⟨rfl, h⟩)
  | succ turns ih =>
    unfold huffDecodeLoop
    refine Follows.bind (brBit_follows h) (fun bit b b' hsame => ?_) fun bit b hbit hspent => ?_
    · cases bit with
      | none => exact Both.ok (Or.inl ⟨rfl, hsame⟩)
      | some c =>
        refine Both.same fun count => Both.ite (fun _ => ?_) fun _ => ih hsame
        exact Both.same fun sym => Both.ok (Or.inl ⟨rfl, hsame⟩)
    · subst hbit
      exact Returns.ok fun _ => Or.inr ⟨rfl, hspent⟩

theorem huffDecode_follows (h : Same br br') (ht : HuffTable) :
    Both (huffDecode br ht) (huffDecode br' ht) (Follows (· = none)) :=
  huffDecodeLoop_follows h

/-! ### The header of a dynamic block -/

theorem readCodeLengths_spent (h : Spent br) (hclen : Nat) :
    (readCodeLengths hclen br).Returns fun r => Spent r.2 := by
  refine Returns.forUp (I := fun r : Vector Nat 19 × BitReader => Spent r.2) ?_ h
  rintro i ⟨a, b⟩ hb
  refine Returns.bind_any fun sym => ?_
  rw [brBits_spent hb, ok_bind]
  exact Returns.bind_any fun cl => Returns.ok hb

theorem readCodeLengths_follows (h : Same br br') (hclen : Nat) :
    Both (readCodeLengths hclen br) (readCodeLengths hclen br') (Follows fun _ => True) := by
  refine Both.forUp ?_ (Or.inl ⟨rfl, h⟩)
  rintro i ⟨a, b⟩ ⟨a', b'⟩ (⟨heq, hsame⟩ | ⟨-, hspent⟩)
  · obtain rfl : a' = a := heq
    refine Both.same fun sym => Follows.bind (brBits_follows hsame 3) (fun v b b' hsame => ?_)
      fun v b _ hspent => ?_
    · exact Both.same fun cl => Both.ok (Or.inl ⟨rfl, hsame⟩)
    · exact Returns.bind_any fun cl => Returns.ok fun _ => Or.inr ⟨trivial, hspent⟩
  · refine Returns.both (Returns.bind_any fun sym => ?_)
    rw [brBits_spent hspent, ok_bind]
    exact Returns.bind_any fun cl => Returns.ok fun _ => Or.inr ⟨trivial, hspent⟩

/-- A run that builds one table and then goes on. -/
theorem returns_huffBuild {lengths : Vector Nat n} {f : HuffTable → Run α}
    {Q : α → Prop} (hf : ∀ ht, (f ht).Returns Q) :
    (do
      match ← huffBuild lengths m with
      | none => .fail .data
      | some (ht, _) => f ht : Run α).Returns Q := by
  refine Returns.bind_any fun t => ?_
  match t with
  | none => exact Returns.fail
  | some (ht, _) => exact hf ht

theorem both_huffBuild {lengths : Vector Nat n} {β : Type} {f : HuffTable → Run α}
    {g : HuffTable → Run β} {R : α → β → Prop} (hf : ∀ ht, Both (f ht) (g ht) R) :
    Both (do
      match ← huffBuild lengths m with
      | none => .fail .data
      | some (ht, _) => f ht : Run α)
      (do
      match ← huffBuild lengths m with
      | none => .fail .data
      | some (ht, _) => g ht : Run β) R := by
  refine Both.same fun t => ?_
  match t with
  | none => exact Both.fail_left
  | some (ht, _) => exact hf ht

/-- What is left of the header for a reader at its end. -/
theorem headerEnd_spent (h : Spent br) (hlit hdist hclen : Nat) :
    (do
      let (code_lengths, br) ← readCodeLengths hclen br
      match ← huffBuild code_lengths 19 with
      | none => .fail .data
      | some (code_ht, _) => return (hlit, hdist, code_ht, br) :
        Run (Nat × Nat × HuffTable × BitReader)).Returns fun r => Spent r.2.2.2 :=
  (readCodeLengths_spent h hclen).bind fun _ hspent =>
    returns_huffBuild fun _ => Returns.ok hspent

theorem dynamicHeader_spent (h : Spent br) :
    (dynamicHeader br).Returns fun r => Spent r.2.2.2 := by
  unfold dynamicHeader
  simp only [brBits_spent h, ok_bind]
  exact headerEnd_spent h _ _ _

theorem dynamicHeader_follows (h : Same br br') :
    Both (dynamicHeader br) (dynamicHeader br') fun r r' =>
      (r'.1 = r.1 ∧ r'.2.1 = r.2.1 ∧ r'.2.2.1 = r.2.2.1 ∧ Same r.2.2.2 r'.2.2.2) ∨
        Spent r'.2.2.2 := by
  unfold dynamicHeader
  refine Follows.bind (brBits_follows h 5) (fun hlit b b' h => ?_) fun hlit b _ hspent => ?_
  · refine Follows.bind (brBits_follows h 5) (fun hdist b b' h => ?_) fun hdist b _ hspent => ?_
    · refine Follows.bind (brBits_follows h 4) (fun hclen b b' h => ?_) fun hclen b _ hspent => ?_
      · refine Follows.bind (readCodeLengths_follows h _) (fun cl b b' h => ?_)
          fun cl b _ hspent => ?_
        · exact both_huffBuild fun _ => Both.ok (Or.inl ⟨rfl, rfl, rfl, h⟩)
        · exact returns_huffBuild fun _ => Returns.ok fun _ => Or.inr hspent
      · exact (headerEnd_spent hspent _ _ _).mono fun _ hend _ => Or.inr hend
    · dsimp only
      rw [brBits_spent hspent, ok_bind]
      exact (headerEnd_spent hspent _ _ _).mono fun _ hend _ => Or.inr hend
  · dsimp only
    simp only [brBits_spent hspent, ok_bind]
    exact (headerEnd_spent hspent _ _ _).mono fun _ hend _ => Or.inr hend

/-- With lengths still to come, a reader at its end is an error. -/
theorem readLengths_spent {total pos : Nat} {ls : Lengths} (h : Spent br) :
    (readLengths code_ht hlit total turns pos ls br).Returns fun r => Spent r.2 := by
  cases turns with
  | zero => nofun
  | succ turns =>
    unfold readLengths
    split
    · rw [huffDecode_spent h]
      exact Returns.fail
    · exact Returns.ok h

/-- The lengths: the same ones, or a reader at its end. -/
theorem readLengths_follows {total pos : Nat} {ls : Lengths} (h : Same br br') :
    Both (readLengths code_ht hlit total turns pos ls br)
      (readLengths code_ht hlit total turns' pos ls br') (Follows fun _ => True) := by
  have hlate : ∀ {turns pos : Nat} {ls : Lengths} {b : BitReader}, Spent b →
      (readLengths code_ht hlit total turns pos ls b).Returns fun r' =>
        ∀ r, Follows (fun _ => True) r r' := fun hspent =>
    (readLengths_spent hspent).mono fun _ hend _ => Or.inr ⟨trivial, hend⟩
  induction turns generalizing turns' pos ls br br' with
  | zero => nofun
  | succ turns ih =>
    cases turns' with
    | zero => nofun
    | succ turns' =>
      unfold readLengths
      refine Both.ite (fun _ => ?_) fun _ => Both.ok (Or.inl ⟨rfl, h⟩)
      refine Follows.bind (huffDecode_follows h code_ht) (fun sym b b' h => ?_)
        fun sym b hsym _ => ?_
      swap
      · subst hsym
        exact Returns.fail
      cases sym with
      | none => exact Both.fail_left
      | some sym =>
        refine Both.ite (fun _ => Both.same fun ls => ih h) fun _ => Both.ite (fun _ => ?_) fun _ =>
          Both.ite (fun _ => ?_) fun _ => Both.ite (fun _ => ?_) fun _ => ih h
        · -- the last length again
          refine Both.ite (fun _ => Both.fail_left) fun _ => ?_
          refine Follows.bind (brBits_follows h 2) (fun rep b b' h => ?_) fun rep b _ hspent => ?_
          · exact Both.same fun prev => Both.same fun r => ih h
          · exact Returns.bind_any fun prev => Returns.bind_any fun r => hlate hspent
        · refine Follows.bind (brBits_follows h 3) (fun rep b b' h => ?_) fun rep b _ hspent => ?_
          · exact Both.ite (fun _ => Both.fail_left) fun _ => ih h
          · dsimp only
            split
            · exact Returns.fail
            · exact hlate hspent
        · refine Follows.bind (brBits_follows h 7) (fun rep b b' h => ?_) fun rep b _ hspent => ?_
          · exact Both.ite (fun _ => Both.fail_left) fun _ => ih h
          · dsimp only
            split
            · exact Returns.fail
            · exact hlate hspent

theorem dynamicTables_spent (h : Spent br) :
    (dynamicTables br).Returns fun r => Spent r.2.2 :=
  (dynamicHeader_spent h).bind fun _ h => (readLengths_spent h).bind fun _ h =>
    returns_huffBuild fun _ => returns_huffBuild fun _ => Returns.ok h

/-- The tables of a dynamic block: the same ones, or a reader at its end. -/
theorem dynamicTables_follows (h : Same br br') :
    Both (dynamicTables br) (dynamicTables br') fun r r' =>
      (r'.1 = r.1 ∧ r'.2.1 = r.2.1 ∧ Same r.2.2 r'.2.2) ∨ Spent r'.2.2 := by
  unfold dynamicTables
  refine (dynamicHeader_follows h).bind ?_
  rintro ⟨hlit, hdist, ht, b⟩ ⟨hlit', hdist', ht', b'⟩ (⟨h₁, h₂, h₃, h⟩ | hspent)
  · obtain ⟨rfl, rfl, rfl⟩ : hlit' = hlit ∧ hdist' = hdist ∧ ht' = ht := ⟨h₁, h₂, h₃⟩
    refine Follows.bind (readLengths_follows h) (fun ls b b' h => ?_) fun ls b _ hspent => ?_
    · exact both_huffBuild fun _ => both_huffBuild fun _ => Both.ok (Or.inl ⟨rfl, rfl, h⟩)
    · exact returns_huffBuild fun _ => returns_huffBuild fun _ =>
        Returns.ok fun _ => Or.inr hspent
  · refine Returns.both ((readLengths_spent hspent).bind fun _ h => ?_)
    exact returns_huffBuild fun _ => returns_huffBuild fun _ => Returns.ok fun _ => Or.inr h

/-- A run that has built one table. -/
theorem huffBuild_bind {lengths : Vector Nat n} {f : HuffTable → Run α} {r : α} (hx : (do
      match ← huffBuild lengths m with
      | none => .fail .data
      | some (ht, _) => f ht : Run α) = .ok r) :
    ∃ ht left, huffBuild lengths m = .ok (some (ht, left)) ∧ f ht = .ok r := by
  obtain ⟨t, ht, hx⟩ := bind_eq_ok hx
  match t with
  | some (table, left) => exact ⟨table, left, ht, hx⟩

/-- The steps of a run that gets to the tables of a dynamic block. -/
theorem dynamicTables_ok {r : HuffTable × HuffTable × BitReader} (hx : dynamicTables br = .ok r) :
    ∃ hlit hdist code_ht b ls left left',
      dynamicHeader br = .ok (hlit, hdist, code_ht, b) ∧
      readLengths code_ht hlit (hlit + hdist) (8 * b.data.length + 1) 0
        { lit := Vector.replicate 288 0, dist := Vector.replicate 30 0 } b = .ok (ls, r.2.2) ∧
      huffBuild ls.lit hlit = .ok (some (r.1, left)) ∧
      huffBuild ls.dist hdist = .ok (some (r.2.1, left')) := by
  unfold dynamicTables at hx
  obtain ⟨⟨hlit, hdist, code_ht, b⟩, hheader, hx⟩ := bind_eq_ok hx
  obtain ⟨⟨ls, b₁⟩, hread, hx⟩ := bind_eq_ok hx
  obtain ⟨lit_ht, left, hlit', hx⟩ := huffBuild_bind hx
  obtain ⟨dist_ht, left', hdist', hx⟩ := huffBuild_bind hx
  cases hx
  exact ⟨hlit, hdist, code_ht, b, ls, left, left', hheader, hread, hlit', hdist'⟩

/-! ### The output -/

theorem grow_bytes (grants : Nat → Bool) (out : OutBuf) (cap : Nat) :
    (out.grow grants cap).Returns fun o => o.bytes = out.bytes := by
  unfold OutBuf.grow
  split
  · exact Returns.ok rfl
  · exact Returns.fail

theorem reserve_bytes (grants : Nat → Bool) (out : OutBuf) (len : Nat) :
    (out.reserve grants len).Returns fun o => o.bytes = out.bytes := by
  unfold OutBuf.reserve
  split
  · exact grow_bytes _ _ _
  · exact Returns.ok rfl

theorem reserveLiteral_bytes (grants : Nat → Bool) (out : OutBuf) :
    (out.reserveLiteral grants).Returns fun o => o.bytes = out.bytes := by
  unfold OutBuf.reserveLiteral
  split
  · exact grow_bytes _ _ _
  · exact Returns.ok rfl

section blocks

variable {grants grants' : Nat → Bool} {br br' : BitReader} {out out' : OutBuf}

/-- The two outputs have the same bytes. -/
def SameBytes (o o' : OutBuf) : Prop := o'.bytes = o.bytes

theorem both_bytes {x : OutBuf → Run OutBuf} {x' : OutBuf → Run OutBuf}
    (hx : ∀ o, (x o).Returns fun o' => o'.bytes = o.bytes)
    (hx' : ∀ o, (x' o).Returns fun o' => o'.bytes = o.bytes) (h : SameBytes out out') :
    Both (x out) (x' out') SameBytes :=
  fun o o' ho ho' => (hx' out' o' ho').trans (h.trans (hx out o ho).symm)

theorem push_bytes (h : SameBytes out out') (b : UInt8) :
    Both (out.push b) (out'.push b) SameBytes := by
  have hpush : ∀ o : OutBuf, (o.push b).Returns fun o' => o'.bytes = o.bytes ++ [b] := by
    intro o
    unfold OutBuf.push
    split
    · exact Returns.ok rfl
    · nofun
  intro o o' ho ho'
  have h' : out'.bytes = out.bytes := h
  exact (hpush out' o' ho').trans (h' ▸ (hpush out o ho).symm)

theorem back_bytes (h : SameBytes out out') (dist : Nat) :
    Both (out.back dist) (out'.back dist) Eq := by
  have h' : out'.bytes = out.bytes := h
  have hback : ∀ o : OutBuf,
      (o.back dist).Returns fun b => o.bytes[o.bytes.length - dist]? = some b := by
    intro o
    unfold OutBuf.back OutBuf.pos
    split
    · split
      next b hget => exact Returns.ok hget
      next => nofun
    · nofun
  intro b b' hb hb'
  have hb' := hback out' b' hb'
  rw [h', hback out b hb] at hb'
  exact Option.some.inj hb'

theorem outputCopy_follows (h : SameBytes out out') (dist length : Nat) :
    Both (outputCopy dist length out) (outputCopy dist length out') SameBytes := by
  refine Both.forUp (fun i o o' ho => ?_) h
  refine (back_bytes ho dist).bind fun b b' hb => ?_
  exact hb ▸ push_bytes ho b

/-! ### Blocks -/

/-- As far in the input, with the same output. -/
def SameState (r r' : BitReader × OutBuf) : Prop := Same r.1 r'.1 ∧ SameBytes r.2 r'.2

/-- A match: the same one, or a reader at its end. -/
theorem inflateMatch_follows (h : Same br br') (hout : SameBytes out out') (dist_ht : HuffTable)
    (li : Nat) :
    Both (inflateMatch grants dist_ht li br out) (inflateMatch grants' dist_ht li br' out')
      fun r r' => SameState r r' ∨ Spent r'.1 := by
  have hpos : out'.pos = out.pos := congrArg List.length hout
  refine Both.ite (fun _ => Both.fail_left) fun _ => Both.same fun base => Both.same fun extra => ?_
  refine Follows.bind (brBits_follows h extra) (fun bits b b' h => ?_) fun bits b _ hspent => ?_
  swap
  · dsimp only
    rw [huffDecode_spent hspent]
    exact Returns.fail
  refine Follows.bind (huffDecode_follows h dist_ht) (fun dsym b b' h => ?_) fun dsym b hnone _ => ?_
  swap
  · subst hnone
    exact Returns.fail
  cases dsym with
  | none => exact Both.fail_left
  | some dsym =>
    refine Both.ite (fun _ => Both.fail_left) fun _ => Both.same fun base =>
      Both.same fun extra => ?_
    refine Follows.bind (brBits_follows h extra) (fun bits b b' h => ?_) fun bits b _ hspent => ?_
    · dsimp only
      rw [hpos]
      refine Both.ite (fun _ => Both.fail_left) fun _ => ?_
      refine (both_bytes (fun o => reserve_bytes grants o _) (fun o => reserve_bytes grants' o _)
        hout).bind fun o o' ho => ?_
      exact (outputCopy_follows ho _ _).bind fun o o' ho => Both.ok (Or.inl ⟨h, ho⟩)
    · dsimp only
      split
      · exact Returns.fail
      · exact Returns.bind_any fun o => Returns.bind_any fun o =>
          Returns.ok fun _ => Or.inr hspent

/-- With the end of the block still to come, a reader at its end is an error. -/
theorem decodeSymbols_spent (lit_ht dist_ht : HuffTable) (turns : Nat) (h : Spent br) :
    (decodeSymbols grants lit_ht dist_ht turns br out).Returns fun _ => False := by
  cases turns with
  | zero => nofun
  | succ turns =>
    refine (Returns.bind (P := fun r => r.1 = none) ?_ ?_ : Returns (huffDecode br lit_ht >>= _) _)
    · rw [huffDecode_spent h]
      exact Returns.ok rfl
    · rintro ⟨_, b⟩ rfl
      exact Returns.fail

/-- The symbols of a block on a prefix: the same ones, where there is no error. -/
theorem decodeSymbols_follows {lit_ht dist_ht : HuffTable} (h : Same br br')
    (hout : SameBytes out out') :
    Both (decodeSymbols grants lit_ht dist_ht turns br out)
      (decodeSymbols grants' lit_ht dist_ht turns' br' out') SameState := by
  induction turns generalizing turns' br br' out out' with
  | zero => nofun
  | succ turns ih =>
    cases turns' with
    | zero => nofun
    | succ turns' =>
      refine Follows.bind (huffDecode_follows h lit_ht) (fun sym b b' h => ?_)
        fun sym b hnone _ => ?_
      swap
      · subst hnone
        exact Returns.fail
      cases sym with
      | none => exact Both.fail_left
      | some sym =>
        dsimp only
        generalize sym - 257 = li
        refine Both.ite (fun _ => ?_) fun _ => Both.ite (fun _ => Both.ok ⟨h, hout⟩) fun _ => ?_
        · refine (both_bytes (reserveLiteral_bytes grants) (reserveLiteral_bytes grants')
            hout).bind fun o o' ho => ?_
          exact (push_bytes ho _).bind fun o o' ho => ih h ho
        · refine (inflateMatch_follows h hout dist_ht _).bind ?_
          rintro ⟨b, o⟩ ⟨b', o'⟩ (⟨h, ho⟩ | hspent)
          · exact ih h ho
          · exact ((decodeSymbols_spent lit_ht dist_ht turns' hspent).mono fun _ h => h.elim).both

theorem brAlign_same (h : Same br br') : Same (brAlign br) (brAlign br') := by
  have hinside := (brAlign_after h.inside).inside
  unfold brAlign at hinside ⊢
  rw [h.bit_pos] at hinside ⊢
  split
  · rename_i hpos
    rw [if_pos hpos] at hinside
    exact ⟨h.data, congrArg (· + 1) h.byte_pos, rfl, hinside⟩
  · exact h

/-- A byte of the prefix is that byte of the data. -/
theorem byte_same (h : Same br br') (i : Nat) : Both (br.byte i) (br'.byte i) Eq := by
  obtain ⟨t, ht⟩ := h.data
  unfold BitReader.byte
  cases hget : br'.data[i]? with
  | none => nofun
  | some c =>
    have hlt : i < br'.data.length := (List.getElem?_eq_some_iff.mp hget).1
    rw [← ht, List.getElem?_append_left hlt, hget]
    exact Both.ok rfl

/-- The bytes of a stored block on a prefix. -/
theorem copyStored_follows (len : Nat) (h : Same br br') (hbit : br'.bit_pos = 0)
    (hout : SameBytes out out') : Both (copyStored br out len) (copyStored br' out' len)
      SameState := by
  unfold copyStored
  split
  swap
  · nofun
  split
  swap
  · nofun
  rename_i hfit
  obtain ⟨t, ht⟩ := h.data
  refine Both.ok ⟨⟨h.data, congrArg (· + len) h.byte_pos, h.bit_pos, ?_⟩, ?_⟩
  · refine ⟨by simp [hbit], ?_⟩
    dsimp only
    omega
  · have hbytes : out'.bytes = out.bytes := hout
    unfold SameBytes
    rw [hbytes, h.byte_pos, ← ht, List.drop_append_of_le_length (by rw [← h.byte_pos]; omega),
      List.take_append_of_le_length (by rw [List.length_drop, ← h.byte_pos]; omega)]

theorem inflateStored_follows (h : Same br br') (hout : SameBytes out out') :
    Both (inflateStored grants br out) (inflateStored grants' br' out') SameState := by
  have hsame := brAlign_same h
  have hzero : (brAlign br').bit_pos = 0 := by
    unfold brAlign
    split
    · rfl
    · omega
  unfold inflateStored
  generalize brAlign br = b at hsame
  generalize brAlign br' = b' at hsame hzero
  dsimp only
  rw [← hsame.byte_pos]
  split
  · exact Both.fail_left
  split
  · exact Both.fail_right
  rename_i hroom
  refine (byte_same hsame _).bind fun d₀ _ h₀ => (byte_same hsame _).bind fun d₁ _ h₁ =>
    (byte_same hsame _).bind fun d₂ _ h₂ => (byte_same hsame _).bind fun d₃ _ h₃ => ?_
  subst h₀ h₁ h₂ h₃
  refine Both.ite (fun _ => Both.fail_left) fun _ => ?_
  refine (both_bytes (fun o => reserve_bytes grants o _) (fun o => reserve_bytes grants' o _)
    hout).bind fun o o' ho => ?_
  split
  · exact Both.fail_left
  split
  · exact Both.fail_right
  have hmoved : Same { b with byte_pos := b'.byte_pos + 4 }
      { b' with byte_pos := b'.byte_pos + 4 } :=
    { data := hsame.data
      byte_pos := rfl
      bit_pos := hsame.bit_pos
      inside := ⟨by simp [hzero], by dsimp only; omega⟩ }
  exact copyStored_follows _ hmoved hzero ho

/-- A reader at its end has no stored block. -/
theorem inflateStored_spent (h : Spent br) :
    (inflateStored grants br out).Returns fun _ => False := by
  have halign : brAlign br = br := by
    unfold brAlign
    rw [if_neg (by rw [h.2]; decide)]
  have hend : br.byte_pos = br.data.length := h.1
  unfold inflateStored
  rw [halign]
  rw [if_pos (by omega)]
  exact Returns.fail

/-- A block on a prefix is the same block, where there is no error. -/
theorem inflateBlockWith_follows (fixed : Run (HuffTable × HuffTable)) (h : Same br br')
    (hout : SameBytes out out') :
    Both (inflateBlockWith fixed grants br out) (inflateBlockWith fixed grants' br' out')
      fun r r' => r'.1 = r.1 ∧ SameState r.2 r'.2 := by
  have hnever : ∀ {x : Run (BitReader × OutBuf)} {bit : Nat}, (x.Returns fun _ => False) →
      (x >>= fun s => (.ok (decide (bit = 1), s) : Run (Bool × BitReader × OutBuf))).Returns
        fun r' => ∀ r : Bool × BitReader × OutBuf, r'.1 = r.1 ∧ SameState r.2 r'.2 :=
    fun hx => hx.bind fun _ h => h.elim
  have hthen : ∀ {x x' : Run (BitReader × OutBuf)} {bit : Nat}, Both x x' SameState →
      Both (x >>= fun s => (.ok (decide (bit = 1), s) : Run (Bool × BitReader × OutBuf)))
        (x' >>= fun s => .ok (decide (bit = 1), s))
        fun r r' => r'.1 = r.1 ∧ SameState r.2 r'.2 :=
    fun hx => hx.bind fun _ _ h => Both.ok ⟨rfl, h⟩
  unfold inflateBlockWith
  refine Follows.bind (brBit_follows h) (fun bit b b' h => ?_) fun bit b hnone _ => ?_
  swap
  · subst hnone
    exact Returns.fail
  cases bit with
  | none => exact Both.fail_left
  | some bit =>
    refine Follows.bind (brBits_follows h 2) (fun btype b b' h => ?_) fun btype b _ hspent => ?_
    · refine Both.ite (fun _ => hthen (inflateStored_follows h hout)) fun _ =>
        Both.ite (fun _ => Both.same fun tables => hthen (decodeSymbols_follows h hout)) fun _ =>
        Both.ite (fun _ => (dynamicTables_follows h).bind ?_) fun _ => Both.fail_left
      rintro ⟨lit_ht, dist_ht, b⟩ ⟨lit_ht', dist_ht', b'⟩ (⟨hlit, hdist, h⟩ | hspent)
      · obtain ⟨rfl, rfl⟩ : lit_ht' = lit_ht ∧ dist_ht' = dist_ht := ⟨hlit, hdist⟩
        exact hthen (decodeSymbols_follows h hout)
      · exact (hnever (decodeSymbols_spent _ _ _ hspent)).both
    · -- The block looks like a stored one, whose length is missing; nothing else can follow.
      dsimp only
      split
      · exact hnever (inflateStored_spent hspent)
      split
      · exact Returns.bind_any fun tables => hnever (decodeSymbols_spent _ _ _ hspent)
      split
      · exact (dynamicTables_spent hspent).bind fun r h =>
          hnever (decodeSymbols_spent _ _ _ h)
      · exact Returns.fail

end blocks

/-! ### No overrun on a prefix -/

theorem Same.inside_left (h : Same br br') : br.Inside := by
  obtain ⟨hbit, hpos⟩ := h.inside
  have hle := h.data.length_le
  rw [h.bit_pos] at hbit hpos
  rw [h.byte_pos] at hpos
  constructor <;> omega

/-- A reader at its end spells out no length. -/
theorem headerLengths_spent (h : Spent br) (hlit hdist : Nat) (ht : HuffTable) :
    (headerLengths hlit hdist ht br).cells = [] ∧
      (0 < hdist → (headerLengths hlit hdist ht br).rest = none) := by
  unfold headerLengths codeLengths
  rw [huffDecode_spent h]
  by_cases htotal : 0 < hlit + hdist
  · rw [if_pos (by exact htotal)]
    exact ⟨rfl, fun _ => rfl⟩
  · rw [if_neg (by exact htotal)]
    exact ⟨rfl, fun hpos => absurd hpos (by omega)⟩

/-- A header that announces at most 30 lengths for the distance code, or that ends with the
data, does not overrun. -/
theorem not_overruns_of_le_or_spent
    (hfew : ∀ hlit hdist code_ht b, dynamicHeader br = .ok (hlit, hdist, code_ht, b) →
      hdist ≤ 30 ∨ Spent b) : ¬ Overruns br := by
  intro hover
  obtain ⟨hlit, hdist, code_ht, b, hheader, hcase⟩ := hover
  rcases hfew _ _ _ _ hheader with hle | hspent
  · refine not_overruns_of_le ?_ ⟨hlit, hdist, code_ht, b, hheader, hcase⟩
    intro hlit' hdist' code_ht' b' hheader'
    obtain ⟨-, rfl, -, -⟩ := by simpa using ok.inj (hheader.symm.trans hheader')
    exact hle
  · obtain ⟨hcells, hrest⟩ := headerLengths_spent hspent hlit hdist code_ht
    rcases hcase with hpast | ⟨hmany, hsome, -⟩
    · rw [hcells] at hpast
      exact pastEnd_nil hlit hpast
    · rw [hrest (by omega)] at hsome
      exact nomatch hsome

/-- A dynamic block that has its tables announces at most 30 lengths for the distance code. -/
theorem hdist_le_of_dynamicTables {hdist : Nat}
    {r : HuffTable × HuffTable × BitReader} (h : br.Inside) (hx : dynamicTables br = .ok r)
    (hheader : dynamicHeader br = .ok (hlit, hdist, code_ht, b)) : hdist ≤ 30 := by
  by_contra hmany
  obtain ⟨hlit', hdist', code_ht', b', ls, left, left', hheader', hread, hlit_ht, -⟩ :=
    dynamicTables_ok hx
  obtain ⟨rfl, rfl, rfl, rfl⟩ := by simpa using ok.inj (hheader.symm.trans hheader')
  obtain ⟨-, hmax, -, hht, hafter⟩ := (dynamicHeader_sat h).of_ok hheader
  have hreads := @readLengths_header hlit hdist code_ht hht hmax b hafter.inside
  have hover : Overruns br := by
    refine ⟨hlit, hdist, code_ht, b, hheader, ?_⟩
    by_cases hpast : PastEnd hlit (headerLengths hlit hdist code_ht b).cells
    · exact Or.inl hpast
    right
    match hrest : (headerLengths hlit hdist code_ht b).rest with
    | none =>
      obtain ⟨e, he⟩ := hreads.rejected hpast hrest
      rw [he] at hread
      exact nomatch hread
    | some b'' =>
      have hls := hreads.read hpast b'' hrest
      obtain ⟨hls, -⟩ := Prod.mk.inj (ok.inj (hread.symm.trans hls))
      rw [← hls]
      exact ⟨by omega, rfl, _, hlit_ht⟩
  rw [dynamicTables_overrun h hover] at hx
  exact nomatch hx

/-- A block that is decoded does not overrun on a prefix either. -/
theorem not_overrunsAt_follows {fixed : Run (HuffTable × HuffTable)} {r : Bool × BitReader × OutBuf}
    (h : Same br br') (hx : inflateBlockWith fixed grants br out = .ok r) : ¬ OverrunsAt br' := by
  rintro ⟨bfinal', b₁', b₂', hbit', htype', hover⟩
  unfold inflateBlockWith at hx
  obtain ⟨⟨bfinal, b₁⟩, hbit, hx⟩ := bind_eq_ok hx
  rcases brBit_follows h _ _ hbit hbit' with ⟨heq, hsame₁⟩ | ⟨hnone, -⟩
  swap
  · exact nomatch hnone
  obtain rfl : some bfinal' = bfinal := heq
  obtain ⟨⟨btype, b₂⟩, htype, hx⟩ := bind_eq_ok hx
  rcases brBits_follows hsame₁ 2 _ _ htype htype' with ⟨heq, hsame₂⟩ | ⟨-, hspent⟩
  · obtain rfl : 2 = btype := heq
    dsimp only at hx
    rw [if_neg (by decide), if_neg (by decide), if_pos rfl] at hx
    obtain ⟨tables, htables, -⟩ := bind_eq_ok hx
    refine not_overruns_of_le_or_spent ?_ hover
    intro hlit' hdist' code_ht' b' hheader'
    obtain ⟨hlit, hdist, code_ht, b, ls, left, left', hheader, -⟩ := dynamicTables_ok htables
    rcases dynamicHeader_follows hsame₂ _ _ hheader hheader' with ⟨-, hdist, -⟩ | hspent
    · left
      rw [show hdist' = _ from hdist]
      exact hdist_le_of_dynamicTables hsame₂.inside_left htables hheader
    · exact Or.inr hspent
  · refine not_overruns_of_le_or_spent ?_ hover
    exact fun _ _ _ _ hheader => Or.inr (dynamicHeader_spent hspent _ hheader)

/-- A block on a prefix: the same block, or an error. -/
theorem inflateBlock_prefix (hgrants : ∀ n, grants' n = true → n ≤ 2 ^ 62) {out' : OutBuf}
    {done : Bool} (h : Same br br') (hout : out'.bytes = out.bytes) (hfits : out'.Fits)
    (hx : inflateBlock grants br out = .ok (done, b, o)) :
    (∃ e, inflateBlock grants' br' out' = .fail e) ∨
      ∃ b' o', inflateBlock grants' br' out' = .ok (done, b', o') ∧ Same b b' ∧
        o'.bytes = o.bytes ∧ After br' b' 1 ∧ o'.Fits := by
  have hover := not_overrunsAt_follows h hx
  rcases (inflateBlock_sat hgrants h.inside hfits hover).cases with
    ⟨⟨done', b', o'⟩, hx', hafter, hfits'⟩ | herror
  · obtain ⟨heq, hsame, hout'⟩ := inflateBlockWith_follows fixedTables h hout _ _ hx hx'
    obtain rfl : done' = done := heq
    exact Or.inr ⟨b', o', hx', hsame, hout', hafter, hfits'⟩
  · exact Or.inl herror

/-! ### Whole runs -/

/-- The loop over the blocks, with the reader behind the last one. -/
def inflateLoopEnd (grants : Nat → Bool) : Nat → BitReader → OutBuf → Run (BitReader × OutBuf)
  | 0, _, _ => .stuck
  | turns + 1, br, out => do
      let (done, br, out) ← inflateBlock grants br out
      if done then return (br, out) else inflateLoopEnd grants turns br out

theorem inflateLoop_eq_end (grants : Nat → Bool) (turns : Nat) (br : BitReader) (out : OutBuf) :
    inflateLoop grants turns br out
      = inflateLoopEnd grants turns br out >>= fun r => .ok r.2 := by
  induction turns generalizing br out with
  | zero => rfl
  | succ turns ih =>
    unfold inflateLoop inflateLoopEnd
    cases inflateBlock grants br out with
    | ok r =>
      obtain ⟨done, br₁, out₁⟩ := r
      cases done with
      | true => rfl
      | false => exact ih br₁ out₁
    | fail e => rfl
    | fault => rfl
    | stuck => rfl

/-- The bytes of which a bit or more has been read. -/
def BitReader.consumed (br : BitReader) : Nat := br.byte_pos + if br.bit_pos > 0 then 1 else 0

/-- The number of bytes `mz_deflate_decompress` consumes. -/
def mzDeflateConsumed (grants : Nat → Bool) (input : Bytes) : Run Nat := do
  let (br, _) ← inflateLoopEnd grants (8 * input.length + 1) (firstBlock input).1
    (firstBlock input).2
  return br.consumed

theorem BitReader.Inside.consumed_le (h : br.Inside) :
    br.consumed ≤ br.data.length := by
  obtain ⟨hbit, hpos⟩ := h
  unfold BitReader.consumed
  split <;> omega

/-- The blocks on a prefix: an error, or the same blocks. -/
theorem inflateLoop_prefix
    (hgrants : ∀ n, grants' n = true → n ≤ 2 ^ 62) {out' : OutBuf} (h : Same br br')
    (hout : out'.bytes = out.bytes) (hfits : out'.Fits) (hturns : br'.left < turns')
    (hx : inflateLoopEnd grants turns br out = .ok (b, o)) :
    (∃ e, inflateLoop grants' turns' br' out' = .fail e) ∨
      ∃ b', Same b b' ∧ b'.data = br'.data := by
  induction turns generalizing turns' br br' out out' with
  | zero => exact nomatch hx
  | succ turns ih =>
    cases turns' with
    | zero => exact absurd hturns (Nat.not_lt_zero _)
    | succ turns' =>
      unfold inflateLoopEnd at hx
      unfold inflateLoop
      obtain ⟨⟨done, b₁, o₁⟩, hblock, hx⟩ := bind_eq_ok hx
      rcases inflateBlock_prefix hgrants h hout hfits hblock with
        ⟨e, he⟩ | ⟨b₁', o₁', hblock', hsame, hout', hafter, hfits'⟩
      · left
        rw [he]
        exact ⟨e, rfl⟩
      rw [hblock', ok_bind]
      cases done with
      | true =>
        cases hx
        exact Or.inr ⟨b₁', hsame, hafter.data⟩
      | false =>
        have hleft := hafter.left
        have hturns' : b₁'.left < turns' := by omega
        rcases ih hsame hout' hfits' hturns' hx with herror | ⟨b', hsame', hdata⟩
        · exact Or.inl herror
        · exact Or.inr ⟨b', hsame', hdata.trans hafter.data⟩

theorem mzDeflateDecompress_nil (grants : Nat → Bool) :
    mzDeflateDecompress grants [] = .fail .data := rfl

/-- The decoder of a prefix ends with an error, or gets as far as the decoder of the whole. -/
theorem mzDeflateDecompress_prefix
    (hgrants : ∀ n, grants' n = true → n ≤ 2 ^ 62) {s p : Bytes} (hp : p <+: s)
    (hx : inflateLoopEnd grants (8 * s.length + 1) (firstBlock s).1 (firstBlock s).2
      = .ok (b, o)) :
    (∃ e, mzDeflateDecompress grants' p = .fail e) ∨ b.consumed ≤ p.length := by
  by_cases hnil : p = []
  · subst hnil
    exact Or.inl ⟨_, mzDeflateDecompress_nil grants'⟩
  by_cases hcap : grants' (firstCap p) = true
  swap
  · left
    unfold mzDeflateDecompress
    rw [if_neg (by rwa [List.length_eq_zero_iff])]
    exact ⟨.memory, if_neg hcap⟩
  have hsame : Same (firstBlock s).1 (firstBlock p).1 :=
    { data := hp
      byte_pos := rfl
      bit_pos := rfl
      inside := brInit_inside p }
  have hfits := firstBlock_fits hgrants hcap
  have hbytes : (firstBlock p).2.bytes = (firstBlock s).2.bytes := rfl
  have hturns : (firstBlock p).1.left < 8 * p.length + 1 := left_lt (brInit p)
  rw [mzDeflateDecompress_eq hnil hcap]
  rcases inflateLoop_prefix hgrants hsame hbytes hfits hturns hx with
    ⟨e, he⟩ | ⟨b', hsame', hdata⟩
  · left
    have he : inflateLoop grants' (8 * p.length + 1) (firstBlock p).1 (firstBlock p).2 = .fail e :=
      he
    exact ⟨e, by rw [he, fail_bind]⟩
  · right
    have hconsumed : b.consumed = b'.consumed := by
      unfold BitReader.consumed
      rw [hsame'.byte_pos, hsame'.bit_pos]
    have hdata : b'.data = p := hdata
    rw [hconsumed, ← hdata]
    exact hsame'.inside.consumed_le

/-- Truncation is always detected: where the decoder accepts a string and has consumed `k` bytes
of it, it rejects every shorter prefix. -/
theorem mzDeflateDecompress_truncated {grants grants' : Nat → Bool}
    (hgrants : ∀ n, grants' n = true → n ≤ 2 ^ 62) {s out : Bytes}
    (hok : mzDeflateDecompress grants s = .ok out) :
    ∃ k, mzDeflateConsumed grants s = .ok k ∧
      ∀ j < k, ∃ e, mzDeflateDecompress grants' (s.take j) = .fail e := by
  have hnil : s ≠ [] := by
    rintro rfl
    exact nomatch (mzDeflateDecompress_nil grants).symm.trans hok
  have hcap : grants (firstCap s) = true := by
    by_contra hcap
    unfold mzDeflateDecompress at hok
    rw [if_neg (by rwa [List.length_eq_zero_iff])] at hok
    exact nomatch (if_neg hcap).symm.trans hok
  rw [mzDeflateDecompress_eq hnil hcap, inflateLoop_eq_end] at hok
  obtain ⟨o, hloop, -⟩ := bind_eq_ok hok
  obtain ⟨⟨b, o⟩, hend, -⟩ := bind_eq_ok hloop
  refine ⟨b.consumed, ?_, ?_⟩
  · unfold mzDeflateConsumed
    rw [hend]
    rfl
  · intro j hj
    rcases mzDeflateDecompress_prefix hgrants (List.take_prefix j s) hend with herror | hle
    · exact herror
    · have hlen := List.length_take_le j s
      omega

/-- A block with fixed codes of six bytes, all of them consumed. -/
theorem mzDeflateDecompress_truncated_match :
    mzDeflateDecompress (fun n => n ≤ 2 ^ 62) [75, 76, 68, 5, 73, 0]
        = .ok (List.replicate 16 97 ++ [98]) ∧
      ∃ k, mzDeflateConsumed (fun n => n ≤ 2 ^ 62) [75, 76, 68, 5, 73, 0] = .ok k ∧
        ∀ j < k, ∃ e, mzDeflateDecompress (fun n => n ≤ 2 ^ 62)
          (([75, 76, 68, 5, 73, 0] : Bytes).take j) = .fail e := by
  have hok : mzDeflateDecompress (fun n => n ≤ 2 ^ 62) [75, 76, 68, 5, 73, 0]
      = .ok (List.replicate 16 97 ++ [98]) :=
    mzDeflateDecompress_of_deflates (fun _ h => of_decide_eq_true h)
      (fun _ hn => decide_eq_true (hn.trans (by decide))) (deflates_match 30)
  exact ⟨hok, mzDeflateDecompress_truncated (fun _ h => of_decide_eq_true h) hok⟩

end MeuOS.Compress.Inflate
