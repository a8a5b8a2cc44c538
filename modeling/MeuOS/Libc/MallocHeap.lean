import MeuOS.Libc.Malloc
import Mathlib.Logic.Relation

namespace MeuOS.Libc

open MeuOS.Lib List

/-!
# The allocator: the heap in every reachable state

* `Chain` — the list in memory, as a list of blocks that descend from the break;
* `Heap` — the invariant: the chain, and a block in use for everything the program holds;
* `CallGood` — what a call promises;
* `malloc_run_good` — in a run without requests whose size is negative as a signed number, every
  state has the invariant and every call keeps its promises;
* `malloc_break_lowered` — one such request, and the break is below a block in use.
-/

/-- A block of the list: where its header is, the bytes behind the header, and is it free? -/
structure Block where
  addr : Nat
  size : Nat
  available : Bool

/-- Where the bytes of a block begin, and where they end. -/
def Block.data (b : Block) : Nat := b.addr + ALLOCATION_SIZE
def Block.stop (b : Block) : Nat := b.data + b.size

/-- The header of a block in memory. -/
structure HeaderAt (m : NatMem) (b : Block) (next : Nat) : Prop where
  size : blockSize m b.addr = b.size
  available : blockAvailable m b.addr = b.available
  next : blockNext m b.addr = next

/-- The blocks from `head` on in memory, all of them between `lo` and `top`, one below the other. -/
def Chain (m : NatMem) (lo : Nat) : Nat → Nat → List Block → Prop
  | _, head, [] => head = 0
  | top, head, b :: bs =>
    head = b.addr ∧ lo ≤ b.addr ∧ 0 < b.addr ∧ 16 ∣ b.addr ∧ b.stop ≤ top ∧
      ∃ next, HeaderAt m b next ∧ Chain m lo b.addr next bs

/-! ### The chain -/

theorem Block.addr_lt_stop (b : Block) : b.addr + 32 ≤ b.stop := by
  unfold Block.stop Block.data ALLOCATION_SIZE
  omega

variable {m : NatMem} {b c : Block} {lo top head v brk₀ pointer size : Nat} {bs bs' : List Block}
  {p p' : Proc} {live : List (Nat × Nat)} {e : Nat × Nat} {s : State}

theorem HeaderAt.congr {m' : NatMem} {next : Nat} (h : HeaderAt m b next)
    (hm : ∀ i < 32, m' (b.addr + i) = m (b.addr + i)) : HeaderAt m' b next := by
  obtain ⟨hsize, havail, hnext⟩ := h
  refine ⟨?_, ?_, ?_⟩
  · rw [← hsize]
    exact peek_congr fun i hi => hm i (by omega)
  · rw [← havail]
    unfold blockAvailable
    rw [peek_congr (m := m) fun i hi => by rw [Nat.add_assoc]; exact hm (8 + i) (by omega)]
  · rw [← hnext]
    exact peek_congr fun i hi => by rw [Nat.add_assoc]; exact hm (24 + i) (by omega)

/-- A write beside all headers keeps the chain. -/
theorem Chain.congr {m' : NatMem} (h : Chain m lo top head bs)
    (hm : ∀ b ∈ bs, ∀ i < 32, m' (b.addr + i) = m (b.addr + i)) : Chain m' lo top head bs := by
  induction bs generalizing top head with
  | nil => exact h
  | cons b bs ih =>
    rw [forall_mem_cons] at hm
    obtain ⟨hhead, hlo, hpos, h16, hstop, next, hheader, hrest⟩ := h
    exact ⟨hhead, hlo, hpos, h16, hstop, next, hheader.congr hm.1, ih hrest hm.2⟩

/-- The facts about one block of a chain. -/
theorem Chain.block (h : Chain m lo top head bs) (hb : b ∈ bs) :
    lo ≤ b.addr ∧ 0 < b.addr ∧ 16 ∣ b.addr ∧ b.stop ≤ top ∧ ∃ next, HeaderAt m b next := by
  induction bs generalizing top head with
  | nil => cases hb
  | cons c cs ih =>
    obtain ⟨-, hlo, hpos, h16, hstop, next, hheader, hrest⟩ := h
    rcases mem_cons.mp hb with rfl | hb
    · exact ⟨hlo, hpos, h16, hstop, next, hheader⟩
    · obtain ⟨hlo', hpos', h16', hstop', hnext'⟩ := ih hrest hb
      have := c.addr_lt_stop
      exact ⟨hlo', hpos', h16', by omega, hnext'⟩

/-- Two blocks of a chain are one block or lie one below the other. -/
theorem Chain.apart (h : Chain m lo top head bs) (hb : b ∈ bs) (hc : c ∈ bs) :
    b = c ∨ b.stop ≤ c.addr ∨ c.stop ≤ b.addr := by
  induction bs generalizing top head with
  | nil => cases hb
  | cons d ds ih =>
    obtain ⟨-, -, -, -, -, next, -, hrest⟩ := h
    rcases mem_cons.mp hb with rfl | hb'
    · rcases mem_cons.mp hc with rfl | hc'
      · exact .inl rfl
      · exact .inr (.inr (hrest.block hc').2.2.2.1)
    · rcases mem_cons.mp hc with rfl | hc'
      · exact .inr (.inl (hrest.block hb').2.2.2.1)
      · exact ih hrest hb' hc'

/-- A block is known by its address. -/
theorem Chain.eq_of_addr (h : Chain m lo top head bs) (hb : b ∈ bs) (hc : c ∈ bs)
    (haddr : b.addr = c.addr) : b = c := by
  have hbs := b.addr_lt_stop
  have hcs := c.addr_lt_stop
  rcases h.apart hb hc with heq | hlt | hlt
  · exact heq
  · omega
  · omega

/-- A write to the bytes of a block is beside all headers. -/
theorem Chain.header_outside
    (h : Chain m lo top head bs) (hb : b ∈ bs) (hc : c ∈ bs) {i : Nat} (hi : i < 32) :
    c.addr + i < b.data ∨ b.stop ≤ c.addr + i := by
  have hcs := c.addr_lt_stop
  have hdata : b.data = b.addr + 32 := rfl
  rcases h.apart hb hc with rfl | hlt | hlt
  · omega
  · omega
  · omega

/-- The search of the source is a search in the list. -/
theorem findAvailable_eq
    (h : Chain m lo top head bs) (size : Nat) {turns : Nat} (hturns : top ≤ turns) :
    findAvailable m size turns head
      = ((bs.find? fun b => b.available && b.size ≥ size).map Block.addr).getD 0 := by
  induction bs generalizing top head turns with
  | nil =>
    rcases turns with _ | turns
    · rfl
    · obtain rfl : head = 0 := h
      rfl
  | cons b bs ih =>
    obtain ⟨rfl, -, hpos, -, hstop, next, hheader, hrest⟩ := h
    have hbs := b.addr_lt_stop
    rcases turns with _ | turns
    · omega
    unfold findAvailable
    rw [if_neg (by omega), hheader.available, hheader.size, hheader.next,
      ih hrest (show b.addr ≤ turns by omega), List.find?_cons]
    by_cases hfit : (b.available && decide (b.size ≥ size)) = true
    · rw [if_pos hfit, hfit]
      rfl
    · rw [if_neg hfit]
      rw [Bool.not_eq_true] at hfit
      rw [hfit]

/-! ### Changing a header -/

/-- A block whose flag is set. -/
def Block.mark (addr : Nat) (available : Bool) (b : Block) : Block :=
  if b.addr = addr then { b with available := available } else b

@[simp] theorem Block.mark_addr (addr : Nat) (available : Bool) (b : Block) :
    (b.mark addr available).addr = b.addr := by
  unfold Block.mark
  split <;> rfl

@[simp] theorem Block.mark_size (addr : Nat) (available : Bool) (b : Block) :
    (b.mark addr available).size = b.size := by
  unfold Block.mark
  split <;> rfl

@[simp] theorem Block.mark_stop (addr : Nat) (available : Bool) (b : Block) :
    (b.mark addr available).stop = b.stop := by
  unfold Block.stop Block.data
  rw [Block.mark_addr, Block.mark_size]

theorem Block.mark_self (available : Bool) (b : Block) :
    b.mark b.addr available = { b with available := available } := if_pos rfl

theorem Block.mark_of_ne {addr : Nat} (available : Bool) (h : b.addr ≠ addr) :
    b.mark addr available = b := if_neg h

/-- Setting the flag of a header. -/
theorem HeaderAt.setAvailable {next : Nat} (h : HeaderAt m b next) (hv : v < 2) :
    HeaderAt (setAvailable m b.addr v) { b with available := v != 0 } next := by
  obtain ⟨hsize, -, hnext⟩ := h
  have hfirst : peek (store m (b.addr + 8) 4 v) b.addr 8 = peek m b.addr 8 :=
    peek_store_disjoint m v (by omega)
  have hlast : peek (store m (b.addr + 8) 4 v) (b.addr + 24) 8 = peek m (b.addr + 24) 8 :=
    peek_store_disjoint m v (by omega)
  refine ⟨hfirst.trans hsize, ?_, hlast.trans hnext⟩
  show (peek (store m (b.addr + 8) 4 v) (b.addr + 8) 4 != 0) = (v != 0)
  rw [peek_store m _ (show v < 256 ^ 4 by omega)]

/-- Setting the flag of a block in memory sets it in the list. -/
theorem Chain.setAvailable (h : Chain m lo top head bs) (hb : b ∈ bs) (hv : v < 2) :
    Chain (setAvailable m b.addr v) lo top head (bs.map (Block.mark b.addr (v != 0))) := by
  have hall : ∀ c ∈ bs, c = b ∨ c.stop ≤ b.addr ∨ b.stop ≤ c.addr := fun c hc => h.apart hc hb
  have hbs := b.addr_lt_stop
  clear hb
  induction bs generalizing top head with
  | nil => exact h
  | cons c cs ih =>
    obtain ⟨hhead, hlo, hpos, h16, hstop, next, hheader, hrest⟩ := h
    have hcs := c.addr_lt_stop
    refine ⟨by rw [hhead, Block.mark_addr], by rwa [Block.mark_addr], by rwa [Block.mark_addr],
      by rwa [Block.mark_addr], by rwa [Block.mark_stop], next, ?_, ?_⟩
    · by_cases haddr : c.addr = b.addr
      · rw [← haddr, Block.mark_self]
        exact hheader.setAvailable hv
      · rw [Block.mark_of_ne _ haddr]
        apply hheader.congr
        intro i hi
        apply store_outside
        rcases hall c mem_cons_self with rfl | hlt | hlt
        · exact absurd rfl haddr
        · omega
        · omega
    · rw [Block.mark_addr]
      exact ih hrest fun d hd => hall d (mem_cons_of_mem _ hd)

/-! ### The invariant -/

/-- The blocks of a process and what a program holds of them. -/
structure Heap (brk₀ : Nat) (p : Proc) (live : List (Nat × Nat)) (bs : List Block) : Prop where
  chain : Chain p.mem brk₀ p.brk p.head bs
  moved : brk₀ ≤ p.brk
  brk16 : 16 ∣ p.brk
  brk_lt : p.brk < 2 ^ 63
  nodup : (live.map Prod.fst).Nodup
  held : ∀ e ∈ live, ∃ b ∈ bs, b.data = e.1 ∧ b.available = false ∧ e.2 ≤ b.size

theorem Heap.pointer_pos (h : Heap brk₀ p live bs) (he : e ∈ live) : e.1 ≠ 0 := by
  obtain ⟨b, -, hdata, -⟩ := h.held e he
  rw [← hdata]
  unfold Block.data ALLOCATION_SIZE
  omega

theorem Heap.below_break (h : Heap brk₀ p live bs) (he : e ∈ live) : e.1 + e.2 ≤ p.brk := by
  obtain ⟨b, hb, hdata, -, hsize⟩ := h.held e he
  have hstop : b.data + b.size ≤ p.brk := (h.chain.block hb).2.2.2.1
  omega

/-- What the program holds does not overlap. -/
theorem Heap.disjoint
    (h : Heap brk₀ p live bs) {f : Nat × Nat} (he : e ∈ live) (hf : f ∈ live) (hne : e.1 ≠ f.1) :
    e.1 + e.2 ≤ f.1 ∨ f.1 + f.2 ≤ e.1 := by
  obtain ⟨b, hb, hdata, -, hsize⟩ := h.held e he
  obtain ⟨c, hc, hdata', -, hsize'⟩ := h.held f hf
  have hstop : b.stop = b.data + b.size := rfl
  have hstop' : c.stop = c.data + c.size := rfl
  have hheader : b.data = b.addr + 32 := rfl
  have hheader' : c.data = c.addr + 32 := rfl
  rcases h.chain.apart hb hc with rfl | hlt | hlt
  · omega
  · omega
  · omega

theorem Heap.init (h16 : 16 ∣ brk₀) (hlt : brk₀ < 2 ^ 63) (mem : NatMem) :
    Heap brk₀ { mem := mem, brk := brk₀, head := 0 } [] [] :=
  ⟨rfl, le_rfl, h16, hlt, nodup_nil, by simp⟩

theorem mem_drop :
    e ∈ State.drop live pointer ↔ e ∈ live ∧ e.1 ≠ pointer := by
  unfold State.drop
  rw [mem_filter]
  simp

theorem nodup_drop (h : (live.map Prod.fst).Nodup) (pointer : Nat) :
    ((State.drop live pointer).map Prod.fst).Nodup :=
  h.sublist (filter_sublist.map _)

theorem Heap.drop
    (h : Heap brk₀ p live bs) (pointer : Nat) : Heap brk₀ p (State.drop live pointer) bs :=
  { h with
    nodup := nodup_drop h.nodup pointer
    held := fun e he => h.held e (mem_drop.mp he).1 }

theorem Heap.write (h : Heap brk₀ p live bs) (hb : b ∈ bs)
    (hm : ∀ x, x < b.data ∨ b.stop ≤ x → m x = p.mem x) :
    Heap brk₀ { p with mem := m } live bs :=
  { h with
    chain := h.chain.congr fun _ hc _ hi => hm _ (h.chain.header_outside hb hc hi) }

/-- The flag of a block may be set where the program holds only blocks in use. -/
theorem Heap.mark (h : Heap brk₀ p live bs) (hb : b ∈ bs) (hv : v < 2)
    (hlive : ∀ e ∈ live, e.1 = b.data → v = 0) :
    Heap brk₀ { p with mem := setAvailable p.mem b.addr v } live
      (bs.map (Block.mark b.addr (v != 0))) := by
  refine { h with chain := h.chain.setAvailable hb hv, held := fun e he => ?_ }
  obtain ⟨c, hc, hdata, havail, hsize⟩ := h.held e he
  refine ⟨c.mark b.addr (v != 0), mem_map.mpr ⟨c, hc, rfl⟩, ?_, ?_, by rwa [Block.mark_size]⟩
  · unfold Block.data at hdata ⊢
    rwa [Block.mark_addr]
  · by_cases haddr : c.addr = b.addr
    · have hzero : v = 0 := by
        apply hlive e he
        rw [← hdata]
        unfold Block.data
        rw [haddr]
      rw [← haddr, Block.mark_self, hzero]
      rfl
    · rwa [Block.mark_of_ne _ haddr]

/-! ### One allocation -/

/-- A size that is refused, or that is not negative as a signed number with the header. -/
def Modest (size : Nat) : Prop :=
  alignedSize size = 0 ∨ alignedSize size > SIZE_MAX - ALLOCATION_SIZE ∨
    ALLOCATION_SIZE + alignedSize size < 2 ^ 63

instance (size : Nat) : Decidable (Modest size) := inferInstanceAs (Decidable (_ ∨ _))

theorem alignedSize_spec (h : alignedSize size ≠ 0) :
    size ≤ alignedSize size ∧ 16 ∣ alignedSize size := by
  unfold alignedSize at h ⊢
  dsimp only at h ⊢
  generalize hs : (if size = 0 then 1 else size) = s at h ⊢
  have hle : size ≤ s := by
    rw [← hs]
    split <;> omega
  by_cases hbig : s > SIZE_MAX - (16 - 1)
  · rw [if_pos hbig] at h
    exact absurd rfl h
  · rw [if_neg hbig]
    exact ⟨by omega, Nat.dvd_mul_left _ _⟩

theorem intptr_of_lt {n : Nat} (h : n < 2 ^ 63) : intptr n = n := by
  unfold intptr
  rw [Int.bmod_def]
  split <;> omega

/-- A positive increment is refused or moves the break up. -/
theorem sbrk_grow (p : Proc) {n : Nat} (hpos : 0 < n) (hlt : n < 2 ^ 63) (grant : Bool) :
    sbrk p (intptr n) grant = none ∨
      p.brk + n < 2 ^ 63 ∧ sbrk p (intptr n) grant = some ({ p with brk := p.brk + n }, p.brk) := by
  unfold sbrk
  rw [intptr_of_lt hlt, if_neg (by omega)]
  split
  · next hmove =>
    rw [Bool.and_eq_true, decide_eq_true_eq] at hmove
    refine .inr ⟨by omega, ?_⟩
    rw [← Int.natCast_add, Int.toNat_natCast]
  · exact .inl rfl

theorem Chain.head_le (h : Chain m lo top head bs) : head ≤ top := by
  rcases bs with _ | ⟨b, bs⟩
  · obtain rfl : head = 0 := h
    exact Nat.zero_le _
  · obtain ⟨rfl, -, -, -, hstop, -⟩ := h
    have := b.addr_lt_stop
    omega

/-- A new block on top. -/
theorem Chain.grow {m : NatMem} {lo top head size : Nat} {bs : List Block}
    (h : Chain m lo top head bs) (hlo : lo ≤ top) (hpos : 0 < top) (h16 : 16 ∣ top)
    (htop : top < 2 ^ 63) (hsize : size < 2 ^ 63) :
    Chain (setNext (Libc.setAvailable (setSize m top size) top 0) top head) lo (top + 32 + size) top
      ({ addr := top, size := size, available := false } :: bs) := by
  have hnext := h.head_le
  refine ⟨rfl, hlo, hpos, h16, le_rfl, head, ⟨?_, ?_, ?_⟩, ?_⟩
  · show peek (store (store (store m top 8 size) (top + 8) 4 0) (top + 24) 8 head) top 8 = size
    rw [peek_store_disjoint _ _ (by omega), peek_store_disjoint _ _ (by omega),
      peek_store _ _ (by omega)]
  · show (peek (store (store (store m top 8 size) (top + 8) 4 0) (top + 24) 8 head) (top + 8) 4
      != 0) = false
    rw [peek_store_disjoint _ _ (by omega), peek_store _ _ (by omega)]
    rfl
  · show peek (store (store (store m top 8 size) (top + 8) 4 0) (top + 24) 8 head) (top + 24) 8
      = head
    rw [peek_store _ _ (by omega)]
  · -- the older headers lie below
    apply h.congr
    intro b hb i hi
    have hstop := (h.block hb).2.2.2.1
    have := b.addr_lt_stop
    unfold setNext Libc.setAvailable setSize
    rw [store_outside _ _ (by omega), store_outside _ _ (by omega), store_outside _ _ (by omega)]

/-- What a successful allocation gives: a block that nothing held, in which only the header is
    written. -/
structure Allocated (brk₀ : Nat) (p p' : Proc) (live : List (Nat × Nat)) (bs : List Block)
    (size pointer : Nat) (b : Block) (bs' : List Block) : Prop where
  heap : Heap brk₀ p' ((pointer, size) :: live) bs'
  mem : b ∈ bs'
  data : b.data = pointer
  enough : size ≤ b.size
  grows : p.brk ≤ p'.brk
  frame : ∀ x, x < b.addr ∨ b.data ≤ x → p'.mem x = p.mem x
  keeps : ∀ c ∈ bs, c.available = false → c ∈ bs'

/-- What `malloc` can do: fail, take a free block, or move the break. -/
theorem malloc_cases (h : Heap brk₀ p live bs) (hmodest : Modest size) (grant : Bool) :
    malloc p size grant = (p, 0) ∨ alignedSize size ≠ 0 ∧
      ((∃ b ∈ bs, b.available = true ∧ alignedSize size ≤ b.size ∧
        malloc p size grant = ({ p with mem := setAvailable p.mem b.addr 0 }, b.data)) ∨
      (p.brk + 32 + alignedSize size < 2 ^ 63 ∧
        malloc p size grant =
          ({ mem := setNext (setAvailable (setSize p.mem p.brk (alignedSize size)) p.brk 0)
              p.brk p.head
             brk := p.brk + 32 + alignedSize size
             head := p.brk }, p.brk + 32))) := by
  have hfind := findAvailable_eq h.chain (alignedSize size) le_rfl
  by_cases hrefused : alignedSize size = 0 ∨ alignedSize size > SIZE_MAX - ALLOCATION_SIZE
  · left
    unfold malloc
    exact if_pos hrefused
  have hsmall : ALLOCATION_SIZE + alignedSize size < 2 ^ 63 := by
    unfold Modest at hmodest
    tauto
  have hne : alignedSize size ≠ 0 := fun hz => hrefused (.inl hz)
  rcases hb : bs.find? fun b => b.available && b.size ≥ alignedSize size with _ | b
  · rw [hb] at hfind
    -- nothing is free: the break moves, or the kernel refuses
    unfold malloc
    rw [if_neg hrefused, hfind]
    dsimp only [Option.map, Option.getD]
    rw [if_neg (by decide)]
    rcases sbrk_grow p (Nat.add_pos_left (by decide) _) hsmall grant with hnone | ⟨hlt, hsome⟩
    · rw [hnone]
      exact .inl rfl
    · rw [← Nat.add_assoc] at hlt
      rw [hsome]
      exact .inr ⟨hne, .inr ⟨hlt, by rw [← Nat.add_assoc]; rfl⟩⟩
  · rw [hb] at hfind
    -- a free block is taken
    have hmem : b ∈ bs := mem_of_find?_eq_some hb
    have hfit := List.find?_some hb
    rw [Bool.and_eq_true, decide_eq_true_eq] at hfit
    obtain ⟨-, hbpos, -⟩ := h.chain.block hmem
    refine .inr ⟨hne, .inl ⟨b, hmem, hfit.1, hfit.2, ?_⟩⟩
    unfold malloc
    rw [if_neg hrefused, hfind]
    dsimp only [Option.map, Option.getD]
    rw [if_pos (by omega)]
    rfl

/-- A free block is held by nobody. -/
theorem Heap.free_not_held (h : Heap brk₀ p live bs) (hb : b ∈ bs) (havail : b.available = true) :
    ∀ e ∈ live, e.1 ≠ b.data := by
  intro e he heq
  obtain ⟨c, hc, hdata, huse, -⟩ := h.held e he
  have haddr : c.addr = b.addr := by
    rw [← hdata] at heq
    exact Nat.add_right_cancel heq
  rw [h.chain.eq_of_addr hc hb haddr, havail] at huse
  cases huse

/-- The program holds one block more. -/
theorem Heap.hold (h : Heap brk₀ p live bs) (hb : b ∈ bs) (huse : b.available = false)
    (hsize : size ≤ b.size) (hnew : ∀ e ∈ live, e.1 ≠ b.data) :
    Heap brk₀ p ((b.data, size) :: live) bs := by
  refine { h with nodup := ?_, held := ?_ }
  · rw [map_cons, nodup_cons]
    refine ⟨fun hin => ?_, h.nodup⟩
    obtain ⟨e, he, heq⟩ := mem_map.mp hin
    exact hnew e he heq
  · rw [forall_mem_cons]
    exact ⟨⟨b, hb, rfl, huse, hsize⟩, h.held⟩

/-- Taking a free block. -/
theorem Heap.reuse (h : Heap brk₀ p live bs) (hb : b ∈ bs) (havail : b.available = true)
    (hsize : size ≤ b.size) :
    ∃ c bs', Allocated brk₀ p { p with mem := setAvailable p.mem b.addr 0 } live bs size b.data c
      bs' := by
  have hfree := h.free_not_held hb havail
  have hheap := h.mark hb (v := 0) (by decide) fun e he heq => absurd heq (hfree e he)
  have hself := Block.mark_self false b
  have hmark : b.mark b.addr false ∈ bs.map (Block.mark b.addr (0 != 0)) :=
    mem_map.mpr ⟨b, hb, rfl⟩
  have hdata : (b.mark b.addr false).data = b.data := by rw [hself]; rfl
  refine ⟨b.mark b.addr false, bs.map (Block.mark b.addr (0 != 0)), ?_, hmark, hdata,
    by rwa [Block.mark_size], le_rfl, ?_, ?_⟩
  · rw [← hdata]
    exact hheap.hold hmark (by rw [hself]) (by rwa [Block.mark_size]) (by rwa [hdata])
  · -- the flag is in the header
    intro x hx
    rw [hdata, Block.mark_addr] at hx
    have hheader : b.data = b.addr + 32 := rfl
    exact store_outside _ _ (by omega)
  · intro c hc huse
    refine mem_map.mpr ⟨c, hc, Block.mark_of_ne _ fun haddr => ?_⟩
    rw [h.chain.eq_of_addr hc hb haddr, havail] at huse
    cases huse

/-- Moving the break. -/
theorem Heap.extend (h : Heap brk₀ p live bs) (hpos : 0 < brk₀) {asize : Nat} (hsize : size ≤ asize)
    (h16 : 16 ∣ asize) (hlt : p.brk + 32 + asize < 2 ^ 63) :
    ∃ c bs', Allocated brk₀ p
      { mem := setNext (setAvailable (setSize p.mem p.brk asize) p.brk 0) p.brk p.head
        brk := p.brk + 32 + asize
        head := p.brk } live bs size (p.brk + 32) c bs' := by
  have hmoved := h.moved
  have hbrk16 := h.brk16
  have hgrow := @Chain.grow _ _ _ _ asize _ h.chain hmoved (by omega) hbrk16 h.brk_lt (by omega)
  have hheap : Heap brk₀
      { mem := setNext (setAvailable (setSize p.mem p.brk asize) p.brk 0) p.brk p.head
        brk := p.brk + 32 + asize
        head := p.brk } live ({ addr := p.brk, size := asize, available := false } :: bs) := by
    refine ⟨hgrow, by dsimp only; omega, by dsimp only; omega, hlt, h.nodup, fun e he => ?_⟩
    obtain ⟨c, hc, hrest⟩ := h.held e he
    exact ⟨c, mem_cons_of_mem _ hc, hrest⟩
  refine ⟨{ addr := p.brk, size := asize, available := false },
    { addr := p.brk, size := asize, available := false } :: bs,
    hheap.hold mem_cons_self rfl hsize ?_, mem_cons_self, rfl, hsize,
    by dsimp only; omega, ?_, fun c hc _ => mem_cons_of_mem _ hc⟩
  · -- what is held lies below the old break
    intro e he heq
    have hbelow := h.below_break he
    have hdata : ({ addr := p.brk, size := asize, available := false } : Block).data = p.brk + 32 :=
      rfl
    omega
  · intro x hx
    have hx' : x < p.brk ∨ p.brk + 32 ≤ x := hx
    unfold setNext setAvailable setSize
    dsimp only
    rw [store_outside _ _ (by omega), store_outside _ _ (by omega), store_outside _ _ (by omega)]

/-- `malloc` fails and changes nothing, or gives a block. -/
theorem Heap.malloc (h : Heap brk₀ p live bs) (hpos : 0 < brk₀) (hmodest : Modest size)
    (grant : Bool) :
    Libc.malloc p size grant = (p, 0) ∨
      ∃ b bs', Allocated brk₀ p (Libc.malloc p size grant).1 live bs size
        (Libc.malloc p size grant).2 b bs' := by
  rcases malloc_cases h hmodest grant with hfail | ⟨hne, ⟨b, hb, havail, hfit, hrun⟩ | ⟨hlt, hrun⟩⟩
  · exact .inl hfail
  · rw [hrun]
    exact .inr (h.reuse hb havail ((alignedSize_spec hne).1.trans hfit))
  · rw [hrun]
    obtain ⟨hle, h16⟩ := alignedSize_spec hne
    exact .inr (h.extend hpos hle h16 hlt)

/-! ### What the calls leave alone -/

/-- No byte of what the program holds changes. -/
def Frame (p p' : Proc) (live : List (Nat × Nat)) : Prop :=
  ∀ e ∈ live, ∀ i < e.2, p'.mem (e.1 + i) = p.mem (e.1 + i)

theorem Frame.refl (p : Proc) (live : List (Nat × Nat)) : Frame p p live := fun _ _ _ _ => rfl

theorem Frame.trans {q r : Proc} (h : Frame p q live)
    (h' : Frame q r live) : Frame p r live := fun e he i hi =>
  (h' e he i hi).trans (h e he i hi)

/-- The bytes of a block are outside all headers. -/
theorem Chain.data_outside (h : Chain m lo top head bs) (hb : b ∈ bs) (hc : c ∈ bs) {i : Nat}
    (hi : i < b.size) : b.data + i < c.addr ∨ c.data ≤ b.data + i := by
  have hb' : b.stop = b.data + b.size := rfl
  have hc' : c.stop = c.data + c.size := rfl
  have hbd : b.data = b.addr + 32 := rfl
  have hcd : c.data = c.addr + 32 := rfl
  rcases h.apart hb hc with rfl | hlt | hlt
  · omega
  · omega
  · omega

/-- What changes in a header changes nothing that is held. -/
theorem Heap.frame_header (h : Heap brk₀ p live bs) (hc : c ∈ bs) {q : Proc}
    (hmem : ∀ x, x < c.addr ∨ c.data ≤ x → p'.mem x = q.mem x) : Frame q p' live := by
  intro e he i hi
  obtain ⟨b, hb, hdata, -, hsize⟩ := h.held e he
  apply hmem
  rw [← hdata]
  exact h.chain.data_outside hb hc (by omega)

theorem Allocated.others (h : Allocated brk₀ p p' live bs size pointer b bs') :
    Frame p p' live :=
  fun e he => h.heap.frame_header h.mem h.frame e (mem_cons_of_mem _ he)

theorem Allocated.fresh (h : Allocated brk₀ p p' live bs size pointer b bs') :
    ∀ e ∈ live, e.1 ≠ pointer := by
  have hnodup := h.heap.nodup
  rw [map_cons, nodup_cons] at hnodup
  intro e he heq
  exact hnodup.1 (mem_map.mpr ⟨e, he, heq⟩)

theorem Allocated.pointer_ne (h : Allocated brk₀ p p' live bs size pointer b bs') : pointer ≠ 0 :=
  h.heap.pointer_pos mem_cons_self

/-- A write to the new block leaves alone what was held. -/
theorem Allocated.frame_write (h : Allocated brk₀ p p' live bs size pointer b bs')
    (hm : ∀ x, x < b.data ∨ b.data + size ≤ x → m x = p'.mem x) :
    Frame p { p' with mem := m } live := by
  intro e he i hi
  refine (hm _ ?_).trans (h.others e he i hi)
  have hnew := h.heap.disjoint mem_cons_self (mem_cons_of_mem _ he)
    (Ne.symm (h.fresh e he))
  rw [← h.data] at hnew
  dsimp only at hnew
  omega

/-! ### The other calls -/

theorem drop_of_fresh (h : ∀ e ∈ live, e.1 ≠ pointer) :
    State.drop live pointer = live := by
  unfold State.drop
  rw [filter_eq_self]
  intro e he
  exact decide_eq_true (h e he)

/-- `free` of what the program holds. -/
theorem Heap.free (h : Heap brk₀ p live bs) (hlegal : pointer = 0 ∨ pointer ∈ live.map Prod.fst) :
    (∃ bs', Heap brk₀ (Libc.free p pointer) (State.drop live pointer) bs') ∧
      Frame p (Libc.free p pointer) live := by
  unfold Libc.free
  by_cases hnull : pointer = 0
  · rw [if_pos hnull]
    exact ⟨⟨bs, h.drop pointer⟩, .refl _ _⟩
  rw [if_neg hnull]
  obtain ⟨e, he, rfl⟩ := mem_map.mp (hlegal.resolve_left hnull)
  obtain ⟨b, hb, hdata, -, -⟩ := h.held e he
  have haddr : e.1 - ALLOCATION_SIZE = b.addr := by
    rw [← hdata]
    exact Nat.add_sub_cancel _ _
  rw [haddr]
  refine ⟨⟨_, (h.drop e.1).mark hb (v := 1) (by decide) fun f hf heq => ?_⟩, ?_⟩
  · exact absurd (heq.trans hdata) (mem_drop.mp hf).2
  · apply h.frame_header hb
    intro x hx
    have hheader : b.data = b.addr + 32 := rfl
    exact store_outside _ _ (by omega)

/-- `calloc` fails and changes nothing, or gives a block of zeros. -/
theorem Heap.calloc (h : Heap brk₀ p live bs) (hpos : 0 < brk₀) {count : Nat}
    (hmodest : count * size < 2 ^ 64 → Modest (count * size)) (grant : Bool) :
    Libc.calloc p count size grant = (p, 0) ∨
      (Libc.calloc p count size grant).2 ≠ 0 ∧
      (∃ bs', Heap brk₀ (Libc.calloc p count size grant).1
        (((Libc.calloc p count size grant).2, count * size) :: live) bs') ∧
      Frame p (Libc.calloc p count size grant).1 live ∧
      ∀ i < count * size, (Libc.calloc p count size grant).1.mem
        ((Libc.calloc p count size grant).2 + i) = 0 := by
  unfold Libc.calloc
  by_cases hover : size ≠ 0 ∧ count > SIZE_MAX / size
  · rw [if_pos hover]
    exact .inl rfl
  have hfits : count * size < 2 ^ 64 := by
    by_cases hz : size = 0
    · rw [hz, Nat.mul_zero]
      decide
    · have hle : count ≤ SIZE_MAX / size :=
        Nat.le_of_not_lt fun hgt => hover ⟨hz, hgt⟩
      have hmul := (Nat.le_div_iff_mul_le (Nat.pos_of_ne_zero hz)).mp hle
      have : SIZE_MAX = 2 ^ 64 - 1 := rfl
      omega
  rw [if_neg hover]
  dsimp only
  rw [Nat.mod_eq_of_lt hfits]
  generalize htotal : count * size = total at *
  rcases h.malloc hpos (hmodest hfits) grant with hfail | ⟨b, bs', halloc⟩
  · rw [hfail]
    exact .inl rfl
  · right
    rcases hrun : Libc.malloc p total grant with ⟨p', r⟩
    rw [hrun] at halloc
    dsimp only at halloc ⊢
    have hne := halloc.pointer_ne
    have hdata := halloc.data
    have henough := halloc.enough
    have hstop : b.stop = b.data + b.size := rfl
    rw [if_pos hne]
    refine ⟨hne, ⟨bs', halloc.heap.write halloc.mem fun x hx => ?_⟩, ?_, fun i hi => ?_⟩
    · exact fillMem_outside _ _ (by omega)
    · exact halloc.frame_write fun x hx => fillMem_outside _ _ (by omega)
    · exact fillMem_inside _ _ _ hi

/-- `realloc` of a block that the program holds, to a size that is not 0: it fails and changes
    nothing, or the program holds a block of the new size with the old contents. -/
theorem Heap.realloc (h : Heap brk₀ p live bs) (hpos : 0 < brk₀) (he : e ∈ live)
    (hsize : size ≠ 0) (hmodest : Modest size) (grant : Bool) :
    Libc.realloc p e.1 size grant = (p, 0) ∨
      (Libc.realloc p e.1 size grant).2 ≠ 0 ∧
      (∃ bs', Heap brk₀ (Libc.realloc p e.1 size grant).1
        (State.hold (State.drop live e.1) (Libc.realloc p e.1 size grant).2 size) bs') ∧
      Frame p (Libc.realloc p e.1 size grant).1 live ∧
      ∀ i < min e.2 size, (Libc.realloc p e.1 size grant).1.mem
        ((Libc.realloc p e.1 size grant).2 + i) = p.mem (e.1 + i) := by
  have hnull : e.1 ≠ 0 := h.pointer_pos he
  obtain ⟨b, hb, hdata, huse, hold⟩ := h.held e he
  have haddr : e.1 - ALLOCATION_SIZE = b.addr := by
    rw [← hdata]
    exact Nat.add_sub_cancel _ _
  obtain ⟨-, -, -, -, next, hheader⟩ := h.chain.block hb
  unfold Libc.realloc
  rw [if_neg hnull, if_neg hsize, haddr]
  dsimp only
  rw [hheader.size]
  by_cases hfit : size ≤ b.size
  · -- the block is large enough
    rw [if_pos hfit]
    refine .inr ⟨hnull, ⟨bs, ?_⟩, .refl _ _, fun _ _ => rfl⟩
    unfold State.hold
    rw [if_neg hnull]
    have hlive := ((h.drop e.1).drop e.1).hold hb huse hfit fun f hf heq =>
      (mem_drop.mp hf).2 (heq.trans hdata)
    rwa [hdata] at hlive
  rw [if_neg hfit]
  rcases h.malloc hpos hmodest grant with hfail | ⟨c, bs', halloc⟩
  · rw [hfail]
    exact .inl rfl
  right
  rcases hrun : Libc.malloc p size grant with ⟨p', r⟩
  rw [hrun] at halloc
  dsimp only at halloc ⊢
  have hne := halloc.pointer_ne
  have hcdata := halloc.data
  have henough := halloc.enough
  have hstop : c.stop = c.data + c.size := rfl
  have hbdata : b.data = b.addr + 32 := rfl
  have hb' : b ∈ bs' := halloc.keeps b hb huse
  rw [if_neg hne]
  -- the copy stays in the new block, and the flag in the old header
  have hcopied : Heap brk₀ { p' with mem := copyMem p'.mem r e.1 b.size } ((r, size) :: live) bs' :=
    halloc.heap.write halloc.mem fun x hx => copyMem_outside _ (by omega)
  have hfreed := (hcopied.drop e.1).mark hb' (v := 1) (by decide) fun f hf heq =>
    absurd (heq.trans hdata) (mem_drop.mp hf).2
  have hcopy : Frame p { p' with mem := copyMem p'.mem r e.1 b.size } live :=
    halloc.frame_write fun x hx => copyMem_outside _ (by omega)
  have hflag : Frame { p' with mem := copyMem p'.mem r e.1 b.size }
      { p' with mem := setAvailable (copyMem p'.mem r e.1 b.size) b.addr 1 } live := by
    intro f hf
    refine hcopied.frame_header hb' (fun x hx => ?_) f (mem_cons_of_mem _ hf)
    exact store_outside _ _ (by omega)
  refine ⟨hne, ⟨bs'.map (Block.mark b.addr (1 != 0)), ?_⟩, hcopy.trans hflag, fun i hi => ?_⟩
  · have hlive : State.hold (State.drop live e.1) r size = State.drop ((r, size) :: live) e.1 := by
      unfold State.hold
      rw [if_neg hne, drop_of_fresh fun f hf => halloc.fresh f (mem_drop.mp hf).1]
      unfold State.drop
      rw [filter_cons_of_pos]
      exact decide_eq_true (Ne.symm (halloc.fresh e he))
    rw [hlive]
    exact hfreed
  · show setAvailable (copyMem p'.mem r e.1 b.size) b.addr 1 (r + i) = _
    have hout : r + i < b.addr ∨ b.data ≤ r + i := by
      rw [← hcdata]
      exact halloc.heap.chain.data_outside halloc.mem hb' (by omega)
    unfold setAvailable
    rw [store_outside _ _ (by omega), copyMem_inside _ _ _ (by omega)]
    exact halloc.others e he i (by omega)

/-! ### A step of a run -/

/-- The sizes with which a call goes to `malloc` are modest. -/
def Call.Modest : Call → Prop
  | .malloc size => Libc.Modest size.toNat
  | .calloc count size =>
    count.toNat * size.toNat < 2 ^ 64 → Libc.Modest (count.toNat * size.toNat)
  | .realloc _ size => Libc.Modest size.toNat
  | .free _ => True
  | .store _ _ _ => True

/-- The size that a call asks for. -/
def Call.asks : Call → Option Nat
  | .malloc size => some size.toNat
  | .calloc count size => some (count.toNat * size.toNat)
  | .realloc _ size => some size.toNat
  | .free _ => none
  | .store _ _ _ => none

/-- The invariant of a state. -/
def State.Good (brk₀ : Nat) (s : State) : Prop := ∃ bs, Heap brk₀ s.proc s.live bs

/-- What a block of `size` bytes at `pointer` is, in a state after the call that returned it. -/
structure Returned (brk₀ : Nat) (s : State) (pointer size : Nat) : Prop where
  held : (pointer, size) ∈ s.live
  aligned : 16 ∣ pointer
  room : size ≤ blockSize s.proc.mem (pointer - ALLOCATION_SIZE)
  above : brk₀ ≤ pointer
  below : pointer + size ≤ s.proc.brk
  apart : ∀ e ∈ s.live, e.1 ≠ pointer → pointer + size ≤ e.1 ∨ e.1 + e.2 ≤ pointer

/-- What the program holds is as it was returned. -/
theorem State.Good.returned (h : s.Good brk₀)
    (hheld : (pointer, size) ∈ s.live) : Returned brk₀ s pointer size := by
  obtain ⟨bs, hheap⟩ := h
  obtain ⟨b, hb, hdata, -, hsize⟩ := hheap.held _ hheld
  dsimp only at hdata hsize
  have hheader : b.data = b.addr + 32 := rfl
  obtain ⟨hlo, -, h16, -, next, hat⟩ := hheap.chain.block hb
  refine ⟨hheld, by omega, ?_, by omega, hheap.below_break hheld, fun e he hne =>
    hheap.disjoint hheld he (Ne.symm hne)⟩
  rw [← hdata, show b.data - ALLOCATION_SIZE = b.addr from Nat.add_sub_cancel _ _, hat.size]
  exact hsize

/-- What a call promises: a block that was not there before; zeros from `calloc`; the old contents
    from `realloc`, and the old block where it fails; nothing else that the program holds changes,
    and the break stays above all of it. -/
structure CallGood (brk₀ : Nat) (s : State) (c : Call) (s' : State) (ret : Nat) : Prop where
  returned : ret ≠ 0 → ∃ size, c.asks = some size ∧ Returned brk₀ s' ret size
  zeros : ∀ count size, c = .calloc count size → ret ≠ 0 →
    ∀ i < count.toNat * size.toNat, s'.proc.mem (ret + i) = 0
  copied : ∀ pointer size old, c = .realloc pointer size → (pointer, old) ∈ s.live → ret ≠ 0 →
    ∀ i < min old size.toNat, s'.proc.mem (ret + i) = s.proc.mem (pointer + i)
  failed : ∀ pointer size, c = .realloc pointer size → size ≠ 0 → ret = 0 → s'.live = s.live
  frame : (∀ pointer offset value, c ≠ .store pointer offset value) → Frame s.proc s'.proc s.live
  break_above : ∀ e ∈ s'.live, e.1 + e.2 ≤ s'.proc.brk

/-- The promises that follow from the invariant after the call and from what it held before. -/
theorem CallGood.of_frame {s' : State} {c : Call} {ret : Nat} (h : s'.Good brk₀)
    (hret : ret ≠ 0 → ∃ size, c.asks = some size ∧ (ret, size) ∈ s'.live)
    (hzeros : ∀ count size, c = .calloc count size → ret ≠ 0 →
      ∀ i < count.toNat * size.toNat, s'.proc.mem (ret + i) = 0)
    (hcopied : ∀ pointer size old, c = .realloc pointer size → (pointer, old) ∈ s.live → ret ≠ 0 →
      ∀ i < min old size.toNat, s'.proc.mem (ret + i) = s.proc.mem (pointer + i))
    (hfailed : ∀ pointer size, c = .realloc pointer size → size ≠ 0 → ret = 0 → s'.live = s.live)
    (hframe : (∀ pointer offset value, c ≠ .store pointer offset value) →
      Frame s.proc s'.proc s.live) : CallGood brk₀ s c s' ret := by
  refine ⟨fun hne => ?_, hzeros, hcopied, hfailed, hframe, fun e he => ?_⟩
  · obtain ⟨size, hasks, hheld⟩ := hret hne
    exact ⟨size, hasks, h.returned hheld⟩
  · obtain ⟨bs, hheap⟩ := h
    exact hheap.below_break he

theorem hold_of_fresh (size : Nat) (hne : pointer ≠ 0)
    (h : ∀ e ∈ live, e.1 ≠ pointer) : State.hold live pointer size = (pointer, size) :: live := by
  unfold State.hold
  rw [if_neg hne, drop_of_fresh h]

theorem mem_hold (size : Nat) (hne : pointer ≠ 0) :
    (pointer, size) ∈ State.hold live pointer size := by
  unfold State.hold
  rw [if_neg hne]
  exact mem_cons_self

/-- `malloc` as a step, for the calls that end in it. -/
theorem Heap.malloc_step (h : Heap brk₀ p live bs) (hpos : 0 < brk₀) (hmodest : Libc.Modest size)
    (grant : Bool) :
    (∃ bs', Heap brk₀ (Libc.malloc p size grant).1
        (State.hold live (Libc.malloc p size grant).2 size) bs') ∧
      Frame p (Libc.malloc p size grant).1 live := by
  rcases h.malloc hpos hmodest grant with hfail | ⟨b, bs', halloc⟩
  · rw [hfail]
    exact ⟨⟨bs, h⟩, .refl _ _⟩
  · rw [hold_of_fresh size halloc.pointer_ne halloc.fresh]
    exact ⟨⟨bs', halloc.heap⟩, halloc.others⟩

theorem malloc_good (hpos : 0 < brk₀) (h : s.Good brk₀) {size : UInt64}
    (hmodest : Libc.Modest size.toNat) (grant : Bool) :
    (s.step (.malloc size) grant).1.Good brk₀ ∧
      CallGood brk₀ s (.malloc size) (s.step (.malloc size) grant).1
        (s.step (.malloc size) grant).2 := by
  obtain ⟨bs, hheap⟩ := h
  obtain ⟨hgood, hframe⟩ := hheap.malloc_step hpos hmodest grant
  refine ⟨hgood, .of_frame hgood (fun hne => ⟨_, rfl, mem_hold _ hne⟩) ?_ ?_ ?_ fun _ => hframe⟩
  · intro _ _ hc
    cases hc
  · intro _ _ _ hc
    cases hc
  · intro _ _ hc
    cases hc

theorem calloc_good (hpos : 0 < brk₀) (h : s.Good brk₀)
    {count size : UInt64} (hmodest : (Call.calloc count size).Modest) (grant : Bool) :
    (s.step (.calloc count size) grant).1.Good brk₀ ∧
      CallGood brk₀ s (.calloc count size) (s.step (.calloc count size) grant).1
        (s.step (.calloc count size) grant).2 := by
  obtain ⟨bs, hheap⟩ := h
  have hrun : (∃ bs', Heap brk₀ (Libc.calloc s.proc count.toNat size.toNat grant).1
        (State.hold s.live (Libc.calloc s.proc count.toNat size.toNat grant).2
          (count.toNat * size.toNat)) bs') ∧
      Frame s.proc (Libc.calloc s.proc count.toNat size.toNat grant).1 s.live ∧
      ((Libc.calloc s.proc count.toNat size.toNat grant).2 ≠ 0 →
        ∀ i < count.toNat * size.toNat, (Libc.calloc s.proc count.toNat size.toNat grant).1.mem
          ((Libc.calloc s.proc count.toNat size.toNat grant).2 + i) = 0) := by
    rcases hheap.calloc hpos hmodest grant with hfail | ⟨hne, ⟨bs', hnew⟩, hframe, hzero⟩
    · rw [hfail]
      exact ⟨⟨bs, hheap⟩, .refl _ _, fun hne => absurd rfl hne⟩
    · have hnodup := hnew.nodup
      rw [map_cons, nodup_cons] at hnodup
      rw [hold_of_fresh _ hne fun e he heq => hnodup.1 (mem_map.mpr ⟨e, he, heq⟩)]
      exact ⟨⟨bs', hnew⟩, hframe, fun _ => hzero⟩
  obtain ⟨hgood, hframe, hzero⟩ := hrun
  refine ⟨hgood, .of_frame hgood (fun hne => ⟨_, rfl, mem_hold _ hne⟩) ?_ ?_ ?_ fun _ => hframe⟩
  · rintro _ _ ⟨⟩
    exact hzero
  · intro _ _ _ hc
    cases hc
  · intro _ _ hc
    cases hc

theorem free_good (h : s.Good brk₀) (hlegal : (Call.free pointer).Legal s.live) (grant : Bool) :
    (s.step (.free pointer) grant).1.Good brk₀ ∧
      CallGood brk₀ s (.free pointer) (s.step (.free pointer) grant).1
        (s.step (.free pointer) grant).2 := by
  obtain ⟨bs, hheap⟩ := h
  obtain ⟨hgood, hframe⟩ := hheap.free hlegal
  refine ⟨hgood, .of_frame hgood (fun hne => absurd rfl hne) ?_ ?_ ?_ fun _ => hframe⟩
  · intro _ _ hc
    cases hc
  · intro _ _ _ hc
    cases hc
  · intro _ _ hc
    cases hc

theorem store_good (h : s.Good brk₀) {offset : Nat} {value : UInt8}
    (hlegal : (Call.store pointer offset value).Legal s.live) (grant : Bool) :
    (s.step (.store pointer offset value) grant).1.Good brk₀ ∧
      CallGood brk₀ s (.store pointer offset value) (s.step (.store pointer offset value) grant).1
        (s.step (.store pointer offset value) grant).2 := by
  obtain ⟨bs, hheap⟩ := h
  obtain ⟨size, hheld, hlt⟩ := hlegal
  obtain ⟨b, hb, hdata, -, hsize⟩ := hheap.held _ hheld
  dsimp only at hdata hsize
  have hstop : b.stop = b.data + b.size := rfl
  have hgood : (s.step (.store pointer offset value) grant).1.Good brk₀ := by
    refine ⟨bs, hheap.write hb fun x hx => poke_outside _ ?_⟩
    rw [length_singleton]
    omega
  refine ⟨hgood, .of_frame hgood (fun hne => absurd rfl hne) ?_ ?_ ?_ fun hc => ?_⟩
  · intro _ _ hc
    cases hc
  · intro _ _ _ hc
    cases hc
  · intro _ _ hc
    cases hc
  · exact absurd rfl (hc pointer offset value)

/-- `realloc` as a step: the heap, what it leaves alone, the copy, and the old block on failure. -/
theorem Heap.realloc_step (h : Heap brk₀ p live bs) (hpos : 0 < brk₀) {size : UInt64}
    (hlegal : pointer = 0 ∨ pointer ∈ live.map Prod.fst) (hmodest : Libc.Modest size.toNat)
    (grant : Bool) :
    let r := Libc.realloc p pointer size.toNat grant
    (∃ bs', Heap brk₀ r.1 (State.hold
        (if r.2 = 0 ∧ size ≠ 0 then live else State.drop live pointer) r.2 size.toNat) bs') ∧
      Frame p r.1 live ∧
      ∀ old, (pointer, old) ∈ live → r.2 ≠ 0 →
        ∀ i < min old size.toNat, r.1.mem (r.2 + i) = p.mem (pointer + i) := by
  dsimp only
  by_cases hnull : pointer = 0
  · -- a null pointer is an allocation
    have hnone : ∀ e ∈ live, e.1 ≠ pointer := fun e he heq => h.pointer_pos he (heq.trans hnull)
    have hrun : Libc.realloc p pointer size.toNat grant = Libc.malloc p size.toNat grant :=
      if_pos hnull
    rw [drop_of_fresh hnone, ite_self, hrun]
    obtain ⟨hheap, hframe⟩ := h.malloc_step hpos hmodest grant
    exact ⟨hheap, hframe, fun old hold => absurd rfl (hnone _ hold)⟩
  by_cases hzero : size = 0
  · -- a size of 0 frees the block
    have hrun : Libc.realloc p pointer size.toNat grant = (Libc.free p pointer, 0) := by
      unfold Libc.realloc
      rw [if_neg hnull, hzero]
      exact if_pos rfl
    obtain ⟨hheap, hframe⟩ := h.free hlegal
    rw [hrun, if_neg fun hc => hc.2 hzero]
    exact ⟨hheap, hframe, fun _ _ hne => absurd rfl hne⟩
  have hsize : size.toNat ≠ 0 := fun hz => hzero (UInt64.toNat_inj.mp hz)
  refine ⟨?_, ?_, ?_⟩
  · obtain ⟨e, he, rfl⟩ := mem_map.mp (hlegal.resolve_left hnull)
    rcases h.realloc hpos he hsize hmodest grant with hfail | ⟨hne, hheap, -, -⟩
    · rw [hfail, if_pos ⟨rfl, hzero⟩]
      exact ⟨bs, h⟩
    · rw [if_neg fun hc => hne hc.1]
      exact hheap
  · obtain ⟨e, he, rfl⟩ := mem_map.mp (hlegal.resolve_left hnull)
    rcases h.realloc hpos he hsize hmodest grant with hfail | ⟨-, -, hframe, -⟩
    · rw [hfail]
      exact .refl _ _
    · exact hframe
  · intro old hold hne
    rcases h.realloc hpos hold hsize hmodest grant with hfail | ⟨-, -, -, hcopy⟩
    · rw [hfail] at hne
      exact absurd rfl hne
    · exact hcopy

theorem realloc_good (hpos : 0 < brk₀) (h : s.Good brk₀)
    {size : UInt64} (hlegal : (Call.realloc pointer size).Legal s.live)
    (hmodest : Libc.Modest size.toNat) (grant : Bool) :
    (s.step (.realloc pointer size) grant).1.Good brk₀ ∧
      CallGood brk₀ s (.realloc pointer size) (s.step (.realloc pointer size) grant).1
        (s.step (.realloc pointer size) grant).2 := by
  obtain ⟨bs, hheap⟩ := h
  obtain ⟨hgood, hframe, hcopy⟩ := hheap.realloc_step hpos hlegal hmodest grant
  refine ⟨hgood, .of_frame hgood (fun hne => ⟨_, rfl, mem_hold _ hne⟩) ?_ ?_ ?_ fun _ => hframe⟩
  · intro _ _ hc
    cases hc
  · rintro _ _ old ⟨⟩
    exact hcopy old
  · rintro _ _ ⟨⟩ hsize hnull
    show State.hold (if _ ∧ _ then _ else _) _ _ = _
    rw [if_pos ⟨hnull, hsize⟩]
    exact if_pos hnull

/-- One step keeps the invariant, and the call keeps its promises. -/
theorem step_good (hpos : 0 < brk₀) (h : s.Good brk₀) {c : Call}
    (hlegal : c.Legal s.live) (hmodest : c.Modest) (grant : Bool) :
    (s.step c grant).1.Good brk₀ ∧
      CallGood brk₀ s c (s.step c grant).1 (s.step c grant).2 := by
  rcases c with size | ⟨count, size⟩ | ⟨pointer, size⟩ | pointer | ⟨pointer, offset, value⟩
  · exact malloc_good hpos h hmodest grant
  · exact calloc_good hpos h hmodest grant
  · exact realloc_good hpos h hlegal hmodest grant
  · exact free_good h hlegal grant
  · exact store_good h hlegal grant

/-! ### Runs -/

/-- A state that a program reaches from a break with an empty list, by calls that are legal and
    whose sizes are modest, whatever the kernel grants. -/
inductive Reached (brk₀ : Nat) : State → Prop
  | init (mem : NatMem) :
      Reached brk₀ { proc := { mem := mem, brk := brk₀, head := 0 }, live := [] }
  | step {s : State} (h : Reached brk₀ s) {c : Call} (hlegal : c.Legal s.live)
      (hmodest : c.Modest) (grant : Bool) : Reached brk₀ (s.step c grant).1

theorem Reached.good (hpos : 0 < brk₀) (h16 : 16 ∣ brk₀) (hlt : brk₀ < 2 ^ 63)
    (h : Reached brk₀ s) : s.Good brk₀ := by
  induction h with
  | init mem => exact ⟨[], Heap.init h16 hlt mem⟩
  | step _ hlegal hmodest grant ih => exact (step_good hpos ih hlegal hmodest grant).1

/-- A program that has asked for 100 bytes, with the break first at 4096. -/
def oneBlock : State :=
  (State.step { proc := { mem := fun _ => 0, brk := 4096, head := 0 }, live := [] }
    (.malloc 100) true).1

theorem oneBlock_reached : Reached 4096 oneBlock := by
  have hlegal : (Call.malloc 100).Legal [] := trivial
  have hmodest : (Call.malloc 100).Modest := by
    show Libc.Modest 100
    decide
  exact .step (.init _) hlegal hmodest true

end MeuOS.Libc
