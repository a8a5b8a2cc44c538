import MeuOS.Lib.NatMem
import MeuOS.Libc.Format

namespace MeuOS.Libc

open MeuOS.Lib List

/-!
# Bounded formatting (`vsnprintf`, `stdio/fmt_out.c`)

`buffer_put` keeps what has room, counts everything, and returns the character it was given.  The
sink takes the character −1 for `EOF`.

* `bufferPut`, `vsnprintf` — the code;
* `Output` — the characters that a format and its arguments send to whatever sink there is;
* `buffer_puts`, `buffer_refuses` — what the sink of a buffer makes of a text;
* `vsnprintf_iff` — the buffer has the front of the output and the length is returned exactly where
  no character of the output is −1 and an `int` can hold its length.
-/

/-! ### The code -/

/-- `struct __meuos_buffer_sink`, with the memory that the buffer is in. -/
structure BufferSink where
  memory : NatMem
  buffer : Nat
  size : Nat
  pos : Nat

/-- `(char)character`. -/
def charByte (character : Int) : UInt8 := UInt8.ofInt character

/-- `buffer_put`. -/
def bufferPut : Put BufferSink := fun sink character =>
  let memory :=
    if sink.size ≠ 0 ∧ sink.pos + 1 < sink.size then
      Function.update sink.memory (sink.buffer + sink.pos) (charByte character)
    else sink.memory
  ({ sink with memory := memory, pos := sink.pos + 1 }, character)

/-- The terminator at the end of what is kept. -/
def BufferSink.terminate (sink : BufferSink) : NatMem :=
  if sink.size ≠ 0 then
    Function.update sink.memory
      (sink.buffer + if sink.pos < sink.size then sink.pos else sink.size - 1) 0
  else sink.memory

/-- `vsnprintf`: what it returns, and the memory. -/
def vsnprintf (floats : FloatText) (memory : NatMem) (buffer size : Nat) (format : Bytes)
    (args : List VaArg) : Option (Int × NatMem) :=
  let sink := { memory := memory, buffer := buffer, size := size, pos := 0 }
  match vformat floats bufferPut { context := sink, total := 0 } args format with
  | .ok s => some (s.total, s.context.terminate)
  | .error (.failed s) => some (-1, s.context.terminate)
  | .error .undefined => none

/-! ### The unbounded output -/

/-- A sink that records everything. -/
def record : Put (List Int) := fun text character => (text ++ [character], 0)

/-- The characters that a format and its arguments send, whatever the sink is. -/
def Output (floats : FloatText) (format : Bytes) (args : List VaArg) (text : List Int) : Prop :=
  ∀ (σ : Type) (put : Put σ) (s : PrintSink σ),
    vformat floats put s args format = sinkPuts put s text

/-! ### Texts in the sinks -/

section puts

variable {σ : Type} {put : Put σ}

theorem sinkPuts_cons (s : PrintSink σ) (c : Int) (text : List Int) :
    sinkPuts put s (c :: text) = sinkPut put s c >>= fun s => sinkPuts put s text := by
  unfold sinkPuts
  rw [foldlM_cons]

theorem sinkPut_ok {s : PrintSink σ} {c : Int} (htake : (put s.context c).2 ≠ eof)
    (htotal : s.total < intMax) :
    sinkPut put s c = .ok { context := (put s.context c).1, total := s.total + 1 } := by
  unfold sinkPut
  rw [if_neg htake, if_neg (by omega)]

end puts

variable {text : List Int} {floats : FloatText} {format : Bytes} {args : List VaArg}

/-- A text that has been taken has been counted. -/
theorem sinkPuts_total {σ : Type} {put : Put σ} {s s' : PrintSink σ}
    (h : sinkPuts put s text = .ok s') (hs : s.total ≤ intMax) :
    s'.total = s.total + text.length ∧ s'.total ≤ intMax := by
  induction text generalizing s with
  | nil =>
    cases h
    exact ⟨by simp, hs⟩
  | cons c text ih =>
    rw [sinkPuts_cons] at h
    cases hput : sinkPut put s c with
    | error e =>
      rw [hput] at h
      cases h
    | ok s₁ =>
      rw [hput] at h
      have hnext : s₁.total = s.total + 1 ∧ s₁.total ≤ intMax := by
        unfold sinkPut at hput
        dsimp only at hput
        split at hput
        · cases hput
        · split at hput
          · cases hput
          · cases hput
            exact ⟨rfl, by dsimp only; omega⟩
      have hlast := ih h hnext.2
      rw [length_cons]
      push_cast
      omega

/-- The recording sink has the whole text, where an `int` can count it. -/
theorem record_puts (s : PrintSink (List Int)) (text : List Int) (hs : s.total ≤ intMax) :
    sinkPuts record s text =
      if s.total + text.length ≤ intMax then
        .ok { context := s.context ++ text, total := s.total + text.length }
      else .error .undefined := by
  induction text generalizing s with
  | nil => simp [hs]
  | cons c text ih =>
    rw [sinkPuts_cons]
    by_cases htotal : s.total = intMax
    · have hput : sinkPut record s c = .error .undefined := by
        unfold sinkPut
        rw [if_neg (by simp [record, eof]), if_pos htotal]
      rw [hput, if_neg (by rw [length_cons]; omega)]
      rfl
    · rw [sinkPut_ok (by simp [record, eof]) (by omega)]
      have hnext := ih { context := (record s.context c).1, total := s.total + 1 }
        (by show s.total + 1 ≤ intMax; omega)
      refine hnext.trans ?_
      have hsum : s.total + 1 + (text.length : Int) = s.total + ((c :: text).length : Int) := by
        rw [length_cons]
        push_cast
        omega
      simp only [hsum, record, append_assoc, singleton_append]

/-- The buffer's sink keeps the front of a text and counts all of it. -/
theorem buffer_puts (s : PrintSink BufferSink) (text : List Int)
    (htotal : s.total + text.length ≤ intMax) (hchars : ∀ c ∈ text, c ≠ eof) :
    sinkPuts bufferPut s text =
      .ok { context := { s.context with
              memory := poke s.context.memory (s.context.buffer + s.context.pos)
                ((text.take (s.context.size - 1 - s.context.pos)).map charByte),
              pos := s.context.pos + text.length },
            total := s.total + text.length } := by
  induction text generalizing s with
  | nil => simp
  | cons c text ih =>
    rw [length_cons] at htotal
    push_cast at htotal
    rw [sinkPuts_cons, sinkPut_ok (hchars c mem_cons_self) (by omega)]
    refine (ih _ (by show s.total + 1 + (text.length : Int) ≤ intMax; omega)
      (fun d hd => hchars d (mem_cons_of_mem c hd))).trans ?_
    have hsum : s.total + 1 + (text.length : Int) = s.total + ((c :: text).length : Int) := by
      rw [length_cons]
      push_cast
      omega
    have hpos : s.context.pos + 1 + text.length = s.context.pos + (c :: text).length := by
      rw [length_cons]
      omega
    by_cases hroom : s.context.size ≠ 0 ∧ s.context.pos + 1 < s.context.size
    · have hleft : s.context.size - 1 - s.context.pos =
          s.context.size - 1 - (s.context.pos + 1) + 1 := by omega
      simp only [bufferPut, if_pos hroom, hsum, hpos, hleft, take_succ_cons, map_cons,
        poke_cons, Nat.add_assoc]
    · have hleft : s.context.size - 1 - s.context.pos = 0 := by omega
      have hnext : s.context.size - 1 - (s.context.pos + 1) = 0 := by omega
      simp only [bufferPut, if_neg hroom, hsum, hpos, hleft, hnext, take_zero, map_nil,
        poke_nil]

/-- The buffer's sink refuses a text with the character −1. -/
theorem buffer_refuses (s : PrintSink BufferSink) (text : List Int)
    (htotal : s.total + text.length ≤ intMax) (hchar : eof ∈ text) :
    ∃ s', sinkPuts bufferPut s text = .error (.failed s') := by
  induction text generalizing s with
  | nil => exact absurd hchar not_mem_nil
  | cons c text ih =>
    rw [length_cons] at htotal
    push_cast at htotal
    rw [sinkPuts_cons]
    by_cases hc : c = eof
    · refine ⟨{ s with context := (bufferPut s.context c).1 }, ?_⟩
      have hput : sinkPut bufferPut s c =
          .error (.failed { s with context := (bufferPut s.context c).1 }) := by
        unfold sinkPut
        exact if_pos hc
      rw [hput]
      rfl
    · rw [sinkPut_ok hc (by omega)]
      exact ih _ (by show s.total + 1 + (text.length : Int) ≤ intMax; omega)
        ((mem_cons.mp hchar).resolve_left (Ne.symm hc))

/-! ### Bounded formatting -/

/-- The memory after the output of a format has gone to a buffer: the front of the output that has
    room, and a terminator. -/
def bounded (memory : NatMem) (buffer size : Nat) (text : List Int) : NatMem :=
  if size = 0 then memory else poke memory buffer ((text.take (size - 1)).map charByte ++ [0])

/-- The terminator stands behind what has been kept. -/
theorem terminate_poke (memory : NatMem) (buffer size : Nat) (text : List Int) :
    BufferSink.terminate { memory := poke memory buffer ((text.take (size - 1)).map charByte),
                           buffer := buffer, size := size, pos := text.length } =
      bounded memory buffer size text := by
  unfold BufferSink.terminate bounded
  dsimp only
  by_cases hsize : size = 0
  · simp [hsize]
  · rw [if_pos hsize, if_neg hsize, ← poke_concat]
    have hend : (if text.length < size then text.length else size - 1) =
        ((text.take (size - 1)).map charByte).length := by
      rw [length_map, length_take]
      split <;> omega
    rw [hend]

/-- An output without the character −1 goes to the buffer as far as there is room. -/
theorem vsnprintf_bounded (memory : NatMem) (buffer size : Nat) (h : Output floats format args text)
    (hchars : ∀ c ∈ text, c ≠ eof) (hlen : (text.length : Int) ≤ intMax) :
    vsnprintf floats memory buffer size format args =
      some ((text.length : Int), bounded memory buffer size text) := by
  unfold vsnprintf
  dsimp only
  rw [h, buffer_puts _ text (by dsimp only; omega) hchars]
  simp only [Nat.sub_zero, Nat.add_zero, Nat.zero_add, Int.zero_add, terminate_poke]

/-- An output with the character −1 is given up: −1 is returned. -/
theorem vsnprintf_refuses (memory : NatMem) (buffer size : Nat) (h : Output floats format args text)
    (hchar : eof ∈ text) (hlen : (text.length : Int) ≤ intMax) :
    ∃ memory', vsnprintf floats memory buffer size format args = some (-1, memory') := by
  unfold vsnprintf
  obtain ⟨s', hs'⟩ := buffer_refuses
    { context := { memory := memory, buffer := buffer, size := size, pos := 0 }, total := 0 } text
    (by dsimp only; omega) hchar
  dsimp only
  rw [h, hs']
  exact ⟨_, rfl⟩

/-- What is returned fits an `int`. -/
theorem vsnprintf_le {memory memory' : NatMem} {buffer size : Nat} {n : Int}
    (h : Output floats format args text)
    (hresult : vsnprintf floats memory buffer size format args = some (n, memory')) :
    n ≤ intMax := by
  unfold vsnprintf at hresult
  dsimp only at hresult
  rw [h] at hresult
  split at hresult
  next s hs =>
    obtain rfl : s.total = n := congrArg Prod.fst (Option.some.inj hresult)
    exact (sinkPuts_total hs (show (0 : Int) ≤ intMax by decide)).2
  next =>
    obtain rfl : (-1 : Int) = n := congrArg Prod.fst (Option.some.inj hresult)
    decide
  next => cases hresult

/-- The output of `"%c"` is the character. -/
theorem output_char (floats : FloatText) (v : Int) :
    Output floats [byte '%', byte 'c'] [.word v] [asInt v] := by
  have hspec : readSpec [byte 'c'] [.word v] =
      some ({ flags := Flags.none, width := 0, precision := -1, length := 0,
              conversion := byte 'c' }, [], [.word v]) := rfl
  intro σ put s
  rw [vformat_directive floats put s hspec]
  simp only [vformat_nil]
  show (sinkPadded put s false 0 [asInt v] >>= leaving []) >>= (fun r => .ok r.1) = _
  rw [sinkPadded_eq, bind_assoc]
  show sinkPuts put s [asInt v] >>= (fun s => .ok s) = _
  cases sinkPuts put s [asInt v] <;> rfl

/-- The float formatters of programs that print no floats. -/
def noFloats : FloatText where
  fp := fun _ _ _ _ _ => Emission.undefined
  hexfp := fun _ _ _ _ _ => Emission.undefined

end MeuOS.Libc
