import MeuOS.Lib.Cursor

namespace MeuOS.Ld

open MeuOS.Lib List

/-!
# Output groups of the linker (`link.c`)

Input sections of one name are gathered in one output group.  A `GroupTable` carries what
`get_group` and `append_group_data` keep: names are distinct, alignments are powers of two,
sizes fit 64 bits and nothing is placed yet.
-/

/-! ### 64-bit arithmetic -/

/-- Addition of two `uint64_t`. -/
def add64 (a b : Nat) : Nat := (a + b) % 2 ^ 64

/-- `align_up`. -/
def alignUp64 (value align : Nat) : Nat :=
  let mask := (align + (2 ^ 64 - 1)) % 2 ^ 64
  add64 value mask &&& (2 ^ 64 - 1 - mask)

theorem add64_eq {a b : Nat} (h : a + b < 2 ^ 64) : add64 a b = a + b := Nat.mod_eq_of_lt h

theorem add64_lt (a b : Nat) : add64 a b < 2 ^ 64 := Nat.mod_lt _ (by decide)

/-- Without an overflow `align_up` rounds up. -/
theorem alignUp64_eq {v k : Nat} (hk : k < 64) (h : v + 2 ^ k ≤ 2 ^ 64) :
    alignUp64 v (2 ^ k) = alignUp v (2 ^ k) := by
  have hpos : 0 < 2 ^ k := Nat.two_pow_pos k
  have hmask : (2 ^ k + (2 ^ 64 - 1)) % 2 ^ 64 = 2 ^ k - 1 := by
    rw [show 2 ^ k + (2 ^ 64 - 1) = (2 ^ k - 1) + 2 ^ 64 by omega, Nat.add_mod_right,
      Nat.mod_eq_of_lt (by omega)]
  unfold alignUp64
  rw [hmask]
  dsimp only
  rw [add64_eq (by omega), show 2 ^ 64 - 1 - (2 ^ k - 1) = 2 ^ 64 - 2 ^ k by omega,
    and_high_bits hk.le (by omega)]
  rfl

/-! ### Groups -/

/-- `MT_SHT_NOBITS`. -/
def SHT_NOBITS : Nat := 8

/-- `MT_SHF_ALLOC`. -/
def SHF_ALLOC : Nat := 2

/-- `struct ld_group`, without the data bytes, which layout does not read. -/
structure LdGroup where
  name : String
  type : Nat
  flags : Nat
  align : Nat
  size : Nat
  rank : Int
  file_offset : Nat := 0
  address : Nat := 0
  deriving DecidableEq, Repr

/-- The group takes no file space. -/
def LdGroup.nobits (g : LdGroup) : Bool := g.type == SHT_NOBITS

/-- The group is loaded. -/
def LdGroup.alloc (g : LdGroup) : Bool := g.flags &&& SHF_ALLOC != 0

/-- `strncmp(name, start, strlen(start)) == 0`. -/
def startsWith (start name : String) : Bool := start.toList.isPrefixOf name.toList

/-- `section_rank`. -/
def sectionRank (name : String) : Int :=
  if name == ".text" then 0
  else if startsWith ".text." name then 0
  else if name == ".plt" then 0
  else if name == ".rodata" then 1
  else if name == ".interp" then 1
  else if name == ".eh_frame" then 1
  else if name == ".note.gnu.build-id" then 1
  else if name == ".dynsym" then 1
  else if name == ".dynstr" then 1
  else if name == ".hash" then 1
  else if name == ".got" then 2
  else if name == ".dynamic" then 2
  else if name == ".data" || name == ".tdata" then 3
  else if startsWith ".data." name then 3
  else if name == ".init_array" then 3
  else if name == ".fini_array" then 3
  else if name == ".preinit_array" then 3
  else if name == ".bss" || name == ".tbss" then 4
  else if startsWith ".debug" name then 5
  else if startsWith ".note" name then 5
  else if startsWith ".comment" name then 5
  else 6

/-- `find_group`. -/
def findGroup (groups : List LdGroup) (name : String) : Option Nat :=
  groups.findIdx? (·.name == name)

/-! ### The group table -/

/-- What holds of a group before layout. -/
structure LdGroup.Fresh (g : LdGroup) : Prop where
  align_pow : ∃ k < 64, g.align = 2 ^ k
  size_lt : g.size < 2 ^ 64
  unplaced : g.file_offset = 0 ∧ g.address = 0

/-- The output groups before layout. -/
structure GroupTable where
  groups : List LdGroup
  nodup : (groups.map LdGroup.name).Nodup
  fresh : ∀ g ∈ groups, g.Fresh

/-- An input section: its alignment is a power of two. -/
structure Section where
  name : String
  type : Nat
  flags : Nat
  align : Nat
  size : Nat
  align_pow : ∃ k < 64, align = 2 ^ k
  size_lt : size < 2 ^ 64

/-- No output group yet. -/
def GroupTable.empty : GroupTable := ⟨[], .nil, fun _ h => by cases h⟩

/-- `get_group` for a name that has a group: the larger alignment is kept. -/
def raiseAlign (s : Section) (g : LdGroup) : LdGroup :=
  if g.name = s.name ∧ g.align < s.align then { g with align := s.align } else g

/-- `get_group` for a new name: an empty group. -/
def newGroup (s : Section) : LdGroup :=
  { name := s.name
    type := s.type
    flags := s.flags
    align := s.align
    size := 0
    rank := sectionRank s.name }

/-- `get_group`. -/
def GroupTable.getGroup (t : GroupTable) (s : Section) : GroupTable :=
  if h : s.name ∈ t.groups.map LdGroup.name then
    { groups := t.groups.map (raiseAlign s)
      nodup := by
        have hn : (t.groups.map (raiseAlign s)).map LdGroup.name
            = t.groups.map LdGroup.name := by
          rw [map_map]
          refine map_congr_left fun g _ => ?_
          show (raiseAlign s g).name = g.name
          unfold raiseAlign
          split <;> rfl
        rw [hn]
        exact t.nodup
      fresh := by
        intro g hg
        obtain ⟨g0, hg0, rfl⟩ := mem_map.mp hg
        have hf := t.fresh g0 hg0
        unfold raiseAlign
        split
        · exact ⟨s.align_pow, hf.size_lt, hf.unplaced⟩
        · exact hf }
  else
    { groups := t.groups ++ [newGroup s]
      nodup := by
        rw [map_append, nodup_append]
        refine ⟨t.nodup, by simp, fun a ha b hb hab => h ?_⟩
        rw [map_singleton, mem_singleton] at hb
        rw [hab, hb] at ha
        exact ha
      fresh := by
        intro g hg
        rcases mem_append.mp hg with hg | hg
        · exact t.fresh g hg
        · rw [mem_singleton.mp hg]
          exact ⟨s.align_pow, show 0 < 2 ^ 64 by decide, rfl, rfl⟩ }

/-- `append_group_data` on the group of the section: its size rounded up and the section
    behind it. -/
def grow (s : Section) (g : LdGroup) : LdGroup :=
  if g.name = s.name then { g with size := add64 (alignUp64 g.size s.align) s.size } else g

/-- `append_group_data`; a size that overflows is an error. -/
def GroupTable.append (t : GroupTable) (s : Section) : Option GroupTable :=
  if ∀ g ∈ t.groups, g.name = s.name → alignUp64 g.size s.align + s.size < 2 ^ 64 then
    some
      { groups := t.groups.map (grow s)
        nodup := by
          have hn : (t.groups.map (grow s)).map LdGroup.name = t.groups.map LdGroup.name := by
            rw [map_map]
            refine map_congr_left fun g _ => ?_
            show (grow s g).name = g.name
            unfold grow
            split <;> rfl
          rw [hn]
          exact t.nodup
        fresh := by
          intro g hg
          obtain ⟨g0, hg0, rfl⟩ := mem_map.mp hg
          have hf := t.fresh g0 hg0
          unfold grow
          split
          · exact ⟨hf.align_pow, add64_lt _ _, hf.unplaced⟩
          · exact hf }
  else none

/-- `collect_sections`. -/
def collectSections : List Section → GroupTable → Option GroupTable
  | [], t => some t
  | s :: ss, t => ((t.getGroup s).append s).bind (collectSections ss)

/-- One line of `apply_link_script`: the rank of the group of a name. -/
def GroupTable.setRank (t : GroupTable) (name : String) (rank : Int) : GroupTable :=
  { groups := t.groups.map fun g => if g.name = name then { g with rank := rank } else g
    nodup := by
      have hn : (t.groups.map fun g => if g.name = name then { g with rank := rank } else g).map
          LdGroup.name = t.groups.map LdGroup.name := by
        rw [map_map]
        refine map_congr_left fun g _ => ?_
        show (if g.name = name then { g with rank := rank } else g).name = g.name
        split <;> rfl
      rw [hn]
      exact t.nodup
    fresh := by
      intro g hg
      obtain ⟨g0, hg0, rfl⟩ := mem_map.mp hg
      have hf := t.fresh g0 hg0
      split
      · exact ⟨hf.align_pow, hf.size_lt, hf.unplaced⟩
      · exact hf }

/-- `apply_link_script` for the lines read. -/
def applyLinkScript (lines : List (String × Int)) (t : GroupTable) : GroupTable :=
  lines.foldl (fun t line => t.setRank line.1 line.2) t

end MeuOS.Ld
