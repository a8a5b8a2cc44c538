import MeuOS.Ld.Dynamic

namespace MeuOS.Rtld

open MeuOS.Lib MeuOS.Ld List

/-!
# Symbol lookup in the loader (`rtld.c`)

* `rtldFindSym` — the search through the hash tables of all modules;
* `leAt_hashBytes_bucket`, `leAt_hashBytes_chain` — the words of a `.hash` that the linker wrote;
* `findInLib_eq` — in such a table the search ends at the first hit of one bucket.
-/

/-! ### The search -/

/-- `rtld_elf_hash`. -/
def rtldElfHash (name : Bytes) : Nat :=
  name.foldl
    (fun h b =>
      let h := ((h <<< 4) + b.toNat) % 2 ^ 32
      let g := h &&& 0xf0000000
      let h := if g ≠ 0 then h ^^^ (g >>> 24) else h
      h &&& (2 ^ 32 - 1 - g))
    0

theorem rtldElfHash_eq : rtldElfHash = elfHash32 := rfl

/-- `rtld_strcmp(a, name) == 0` for a string in memory and a name. -/
def rtldStrcmp : Bytes → Bytes → Checked String Bool
  | [], _ => .fault
  | x :: _, [] => .ok (x == 0)
  | x :: a, y :: name => if x ≠ 0 ∧ x = y then rtldStrcmp a name else .ok (x == y)

/-- The fields of `struct rtld_lib` that a lookup reads, with the memory that they point to. -/
structure SymbolLib where
  symtab : Option Bytes
  hash : Option Bytes
  strtab : Bytes
  strsz : Nat

/-- The symbol of an index is a definition of the name. -/
def hitAt (lib : SymbolLib) (symtab name : Bytes) (si : Nat) : Checked String Bool := do
  let st_name ← leAt symtab (24 * si) 4
  if 0 < st_name ∧ st_name < lib.strsz then do
    let info ← leAt symtab (24 * si + 4) 1
    let shndx ← leAt symtab (24 * si + 6) 2
    if info >>> 4 ≠ 0 ∧ shndx ≠ 0 then rtldStrcmp (lib.strtab.drop st_name) name
    else return false
  else return false

/-- The search in one module. -/
def findInLib (fuel : Nat) (lib : SymbolLib) (name : Bytes) : Checked String (Option Nat) :=
  match lib.symtab, lib.hash with
  | some symtab, some hash => do
      let nbucket ← leAt hash 0 4
      let nchain ← leAt hash 4 4
      -- no bucket: a division by zero
      if nbucket = 0 then .fault
      else do
        let si ← leAt hash (8 + 4 * (rtldElfHash name % nbucket)) 4
        walkChain nchain (hitAt lib symtab name)
          (fun i => leAt hash (8 + 4 * nbucket + 4 * i) 4) fuel si
  | _, _ => return none

/-- The loop over the modules, the first of which has the number `l`. -/
def findSymFrom (fuel : Nat) (name : Bytes) :
    Nat → List SymbolLib → Checked String (Option (Nat × Nat))
  | _, [] => .ok none
  | l, lib :: libs => do
      match ← findInLib fuel lib name with
      | some si => return some (l, si)
      | none => findSymFrom fuel name (l + 1) libs

/-- `rtld_find_sym`: the module and the index of the symbol. -/
def rtldFindSym (fuel : Nat) (libs : List SymbolLib) (name : Bytes) :
    Checked String (Option (Nat × Nat)) := findSymFrom fuel name 0 libs

/-! ### Strings -/

/-- A string with its end is compared as a whole. -/
theorem rtldStrcmp_eq {a name rest : Bytes} (ha : 0 ∉ a) (hname : 0 ∉ name) :
    rtldStrcmp (a ++ 0 :: rest) name = .ok (a == name) := by
  induction a generalizing name with
  | nil =>
    cases name with
    | nil => rfl
    | cons y name =>
      have hy : (0 : UInt8) ≠ y := fun h => hname (h ▸ mem_cons_self)
      simp [rtldStrcmp, hy]
  | cons x a ih =>
    have hx : x ≠ 0 := fun h => ha (h ▸ mem_cons_self)
    cases name with
    | nil => simp [rtldStrcmp, hx]
    | cons y name =>
      rw [cons_append, rtldStrcmp]
      by_cases hxy : x = y
      · rw [if_pos ⟨hx, hxy⟩, ih (fun h => ha (mem_cons_of_mem _ h))
          (fun h => hname (mem_cons_of_mem _ h))]
        simp [hxy]
      · rw [if_neg fun h => hxy h.2]
        simp [hxy]

/-! ### The words of `.hash` -/

/-- A word of a table of words. -/
theorem slice_words (f : Nat → Nat) {n i : Nat} (hi : i < n) :
    slice ((range n).flatMap fun j => leBytes 4 (f j)) (4 * i) 4 = leBytes 4 (f i) := by
  have hlen : ∀ m, ((range m).flatMap fun j => leBytes 4 (f j)).length = 4 * m := by
    intro m
    rw [length_flatMap]
    simp [Nat.mul_comm]
  induction n with
  | zero => exact absurd hi (Nat.not_lt_zero i)
  | succ n ih =>
    rw [range_succ, flatMap_append]
    by_cases hin : i < n
    · rw [slice_append_left _ _ (by rw [hlen]; omega)]
      exact ih hin
    · obtain rfl : i = n := by omega
      rw [slice_append_right _ _ _ (by rw [hlen]), hlen, Nat.sub_self]
      simp [slice]

section table

variable {n i : Nat} {names : List Bytes}

theorem length_hashBytes (n : Nat) (names : List Bytes) :
    (hashBytes n names).length = 8 + 4 * bucketCount n + 4 * (n + 1) := by
  unfold hashBytes
  simp [length_flatMap, Nat.mul_comm]
  omega

theorem leAt_of_slice {bs : Bytes} {off v : Nat} (hin : off + 4 ≤ bs.length)
    (hslice : slice bs off 4 = leBytes 4 v) (hv : v < 2 ^ 32) :
    leAt (ε := String) bs off 4 = .ok v := by
  rw [leAt_inside hin, hslice, leNat_leBytes_of_lt hv]

theorem slice_leBytes (v : Nat) : slice (leBytes 4 v) 0 4 = leBytes 4 v := by
  unfold slice
  rw [drop_zero, take_of_length_le (length_leBytes 4 v).le]

/-- `nbucket`. -/
theorem leAt_hashBytes_zero (hn : bucketCount n < 2 ^ 32) :
    leAt (ε := String) (hashBytes n names) 0 4 = .ok (bucketCount n) := by
  refine leAt_of_slice (by rw [length_hashBytes]; omega) ?_ hn
  unfold hashBytes
  dsimp only
  rw [slice_append_left _ _ (by simp), slice_append_left _ _ (by simp),
    slice_append_left _ _ (by simp)]
  exact slice_leBytes _

/-- `nchain`. -/
theorem leAt_hashBytes_four (hn : n + 1 < 2 ^ 32) :
    leAt (ε := String) (hashBytes n names) 4 4 = .ok (n + 1) := by
  refine leAt_of_slice (by rw [length_hashBytes]; omega) ?_ hn
  unfold hashBytes
  dsimp only
  rw [slice_append_left _ _ (by simp; omega), slice_append_left _ _ (by simp),
    slice_append_right _ _ _ (by simp), length_leBytes]
  exact slice_leBytes _

/-- The buckets of the names. -/
def buckets (n : Nat) (names : List Bytes) : List Nat :=
  names.map fun name => elfHash32 name % bucketCount n

/-- A bucket. -/
theorem leAt_hashBytes_bucket (hi : i < bucketCount n) (hsmall : names.length < 2 ^ 32) :
    leAt (ε := String) (hashBytes n names) (8 + 4 * i) 4 =
      .ok ((chains (buckets n names)).bucket i) := by
  have hle := (chains_le (buckets n names)).1 i
  have hlen : (buckets n names).length = names.length := length_map _
  refine leAt_of_slice (by rw [length_hashBytes]; omega) ?_ (by omega)
  unfold hashBytes
  dsimp only
  rw [slice_append_left _ _ (by simp [length_flatMap]; omega),
    slice_append_right _ _ _ (by simp), show 8 + 4 * i -
      (leBytes 4 (bucketCount n) ++ leBytes 4 (n + 1)).length = 4 * i by simp]
  exact slice_words _ hi

/-- The number in front of an entry in its bucket. -/
theorem leAt_hashBytes_chain (hi : i < n + 1) (hsmall : names.length < 2 ^ 32) :
    leAt (ε := String) (hashBytes n names) (8 + 4 * bucketCount n + 4 * i) 4 =
      .ok ((chains (buckets n names)).chain i) := by
  have hle := (chains_le (buckets n names)).2 i
  have hlen : (buckets n names).length = names.length := length_map _
  refine leAt_of_slice (by rw [length_hashBytes]; omega) ?_ (by omega)
  unfold hashBytes
  dsimp only
  have hfront : ∀ f : Nat → Nat, (leBytes 4 (bucketCount n) ++ leBytes 4 (n + 1) ++
      (range (bucketCount n)).flatMap fun j => leBytes 4 (f j)).length =
        8 + 4 * bucketCount n := by
    intro f
    simp [length_flatMap, Nat.mul_comm]
    omega
  rw [slice_append_right _ _ _ (by rw [hfront]; omega), hfront, Nat.add_sub_cancel_left]
  exact slice_words _ hi

end table

/-- In the table of some names the search looks at the symbols whose names are in the bucket of the
    name, and ends at the first hit. -/
theorem findInLib_eq {fuel : Nat} {lib : SymbolLib} {symtab name : Bytes} {names : List Bytes}
    {test : Nat → Bool} (hsymtab : lib.symtab = some symtab)
    (hhash : lib.hash = some (hashBytes names.length names))
    (hsmall : 2 * (names.length + 1) ≤ 2 ^ 32)
    (hhit : ∀ i < names.length, hitAt lib symtab name (i + 1) = .ok (test (i + 1)))
    (hfuel : names.length < fuel) :
    findInLib fuel lib name =
      .ok ((members (buckets names.length names)
        (elfHash32 name % bucketCount names.length)).find? test) := by
  have htwo : 2 ≤ bucketCount names.length := two_le_nextPrime32 _
  have hlt : bucketCount names.length < 2 ^ 32 := by
    have hmax : (if names.length + 1 > 1 then names.length + 1 else 3) ≤ 2 ^ 31 := by
      split <;> omega
    have hprime : bucketCount names.length <
        2 * max (if names.length + 1 > 1 then names.length + 1 else 3) 2 := nextPrime32_lt _
    omega
  have hb : elfHash32 name % bucketCount names.length < bucketCount names.length :=
    Nat.mod_lt _ (by omega)
  unfold findInLib
  rw [hsymtab, hhash]
  dsimp only
  rw [leAt_hashBytes_zero hlt, Checked.ok_bind, leAt_hashBytes_four (by omega), Checked.ok_bind,
    if_neg (by omega), rtldElfHash_eq, leAt_hashBytes_bucket hb (by omega), Checked.ok_bind]
  refine walkChain_eq (chains_chained _ _) (fun j hj => ?_) ?_
  · -- A member is the number of a symbol.
    obtain ⟨i, rfl, hget⟩ := mem_members.mp hj
    have hi : i < names.length := by
      have h := (List.getElem?_eq_some_iff.mp hget).1
      rwa [buckets, length_map] at h
    exact ⟨by omega, hhit i hi, leAt_hashBytes_chain (by omega) (by omega)⟩
  · refine lt_of_le_of_lt (length_members_le _ _) ?_
    rwa [buckets, length_map]

end MeuOS.Rtld
