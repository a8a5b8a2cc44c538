import MeuOS.Lib.NatMem

namespace MeuOS.Libc

open MeuOS.Lib

/-!
# The allocator (`malloc.c`)

A first-fit allocator over `sbrk`.  Every block begins with a header of 32 bytes, and the headers
form a list in memory, the newest block first.  The lock of the source does nothing in a program
of one thread.

* `malloc`, `free`, `calloc`, `realloc` — the calls, on the bytes of a process;
* `Call`, `State.step` — a run of calls, with the blocks that the program holds.
-/

/-- `SIZE_MAX`. -/
def SIZE_MAX : Nat := 2 ^ 64 - 1

/-- A `size_t` as an `intptr_t`. -/
def intptr (n : Nat) : Int := (n : Int).bmod (2 ^ 64)

/-- The memory of the process, its break, and `allocation_head` (0 is the null pointer). -/
structure Proc where
  mem : NatMem
  brk : Nat
  head : Nat

/-! ### The break -/

/-- `sbrk`: the break moves as asked and the old one is returned, or the call fails.  It fails where
    the sum is not an address, and whenever the kernel does not grant it. -/
def sbrk (p : Proc) (increment : Int) (grant : Bool) : Option (Proc × Nat) :=
  if increment = 0 then some (p, p.brk)
  else if grant && 0 ≤ p.brk + increment && p.brk + increment < 2 ^ 63 then
    some ({ p with brk := (p.brk + increment).toNat }, p.brk)
  else none

/-! ### `struct allocation` -/

/-- `sizeof(struct allocation)`. -/
def ALLOCATION_SIZE : Nat := 32

/-- `block->size`. -/
def blockSize (m : NatMem) (block : Nat) : Nat := peek m block 8

/-- `block->available`, as a condition. -/
def blockAvailable (m : NatMem) (block : Nat) : Bool := peek m (block + 8) 4 != 0

/-- `block->next`. -/
def blockNext (m : NatMem) (block : Nat) : Nat := peek m (block + 24) 8

/-- `block->size = size`. -/
def setSize (m : NatMem) (block size : Nat) : NatMem := store m block 8 size

/-- `block->available = available`. -/
def setAvailable (m : NatMem) (block available : Nat) : NatMem := store m (block + 8) 4 available

/-- `block->next = next`. -/
def setNext (m : NatMem) (block next : Nat) : NatMem := store m (block + 24) 8 next

/-! ### The calls -/

/-- `aligned_size`. -/
def alignedSize (size : Nat) : Nat :=
  let size := if size = 0 then 1 else size
  if size > SIZE_MAX - (16 - 1) then 0 else (size + 16 - 1) / 16 * 16

/-- `find_available` from a block on; the first argument bounds the turns of its loop. -/
def findAvailable (m : NatMem) (size : Nat) : Nat → Nat → Nat
  | 0, _ => 0
  | turns + 1, block =>
    if block = 0 then 0
    else if blockAvailable m block && blockSize m block ≥ size then block
    else findAvailable m size turns (blockNext m block)

/-- `malloc`: the process after it and the pointer.  The list descends from the break, so that
    there are fewer blocks than addresses below it. -/
def malloc (p : Proc) (requested_size : Nat) (grant : Bool) : Proc × Nat :=
  let size := alignedSize requested_size
  if size = 0 ∨ size > SIZE_MAX - ALLOCATION_SIZE then (p, 0)
  else
    let block := findAvailable p.mem size p.brk p.head
    if block ≠ 0 then
      ({ p with mem := setAvailable p.mem block 0 }, block + ALLOCATION_SIZE)
    else
      match sbrk p (intptr (ALLOCATION_SIZE + size)) grant with
      | none => (p, 0)
      | some (p, block) =>
        ({ p with
            mem := setNext (setAvailable (setSize p.mem block size) block 0) block p.head
            head := block }, block + ALLOCATION_SIZE)

/-- `free`. -/
def free (p : Proc) (pointer : Nat) : Proc :=
  if pointer = 0 then p
  else { p with mem := setAvailable p.mem (pointer - ALLOCATION_SIZE) 1 }

/-- `calloc`. -/
def calloc (p : Proc) (count size : Nat) (grant : Bool) : Proc × Nat :=
  if size ≠ 0 ∧ count > SIZE_MAX / size then (p, 0)
  else
    let total := count * size % 2 ^ 64
    let (p, pointer) := malloc p total grant
    if pointer ≠ 0 then ({ p with mem := fillMem p.mem pointer 0 total }, pointer) else (p, 0)

/-- `realloc`. -/
def realloc (p : Proc) (pointer size : Nat) (grant : Bool) : Proc × Nat :=
  if pointer = 0 then malloc p size grant
  else if size = 0 then (free p pointer, 0)
  else
    let old_size := blockSize p.mem (pointer - ALLOCATION_SIZE)
    if size ≤ old_size then (p, pointer)
    else
      let (p, replacement) := malloc p size grant
      if replacement = 0 then (p, 0)
      else
        let mem := copyMem p.mem replacement pointer old_size
        ({ p with mem := setAvailable mem (pointer - ALLOCATION_SIZE) 1 }, replacement)

/-! ### Runs -/

/-- What a program does: it calls the allocator or stores a byte in a block that it holds. -/
inductive Call where
  | malloc (size : UInt64)
  | calloc (count size : UInt64)
  | realloc (pointer : Nat) (size : UInt64)
  | free (pointer : Nat)
  | store (pointer offset : Nat) (value : UInt8)

/-- A process, and the blocks that the program holds: their pointers, and the sizes it asked for
    last. -/
structure State where
  proc : Proc
  live : List (Nat × Nat)

/-- The program gives a block back. -/
def State.drop (live : List (Nat × Nat)) (pointer : Nat) : List (Nat × Nat) :=
  live.filter fun e => e.1 ≠ pointer

/-- The program holds a block that a call returned. -/
def State.hold (live : List (Nat × Nat)) (pointer size : Nat) : List (Nat × Nat) :=
  if pointer = 0 then live else (pointer, size) :: State.drop live pointer

/-- The state after a call, and what it returns; `grant` is the kernel's answer to `sbrk`. -/
def State.step (s : State) (c : Call) (grant : Bool) : State × Nat :=
  match c with
  | .malloc size =>
    let (p, r) := Libc.malloc s.proc size.toNat grant
    ({ proc := p, live := State.hold s.live r size.toNat }, r)
  | .calloc count size =>
    let (p, r) := Libc.calloc s.proc count.toNat size.toNat grant
    ({ proc := p, live := State.hold s.live r (count.toNat * size.toNat) }, r)
  | .realloc pointer size =>
    let (p, r) := Libc.realloc s.proc pointer size.toNat grant
    -- a failure leaves the old block; a size of 0 frees it
    let live := if r = 0 ∧ size ≠ 0 then s.live else State.drop s.live pointer
    ({ proc := p, live := State.hold live r size.toNat }, r)
  | .free pointer =>
    ({ proc := Libc.free s.proc pointer, live := State.drop s.live pointer }, 0)
  | .store pointer offset value =>
    ({ s with proc := { s.proc with mem := poke s.proc.mem (pointer + offset) [value] } }, 0)

/-- The program frees and reallocates only what it holds, and stores only in it. -/
def Call.Legal (live : List (Nat × Nat)) : Call → Prop
  | .malloc _ => True
  | .calloc _ _ => True
  | .realloc pointer _ => pointer = 0 ∨ pointer ∈ live.map Prod.fst
  | .free pointer => pointer = 0 ∨ pointer ∈ live.map Prod.fst
  | .store pointer offset _ => ∃ size, (pointer, size) ∈ live ∧ offset < size

end MeuOS.Libc
