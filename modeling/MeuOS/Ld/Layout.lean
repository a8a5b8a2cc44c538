import MeuOS.Ld.Group

namespace MeuOS.Ld

open MeuOS.Lib

/-!
# Section address layout (`layout.c`)

`layout_output` gives every output group a file offset and an address in four passes: the
loaded groups that take file space, the loaded groups that do not, the two TLS groups and
the rest.

* `passOver` — the loop over the groups that every pass runs;
* `layoutOutput` — the passes in order.
-/

/-- `LD_PAGE`. -/
def LD_PAGE : Nat := 0x1000

/-- `LD_BASE`. -/
def LD_BASE : Nat := 0x400000

/-- The groups and the current offset. -/
abbrev LayoutSt := List LdGroup × Nat

/-- Put a group at an offset of the file. -/
def LdGroup.setPos (base off : Nat) (g : LdGroup) : LdGroup :=
  { g with file_offset := off, address := add64 base off }

@[simp] theorem LdGroup.setPos_name (base off : Nat) (g : LdGroup) :
    (g.setPos base off).name = g.name := rfl

@[simp] theorem LdGroup.setPos_size (base off : Nat) (g : LdGroup) :
    (g.setPos base off).size = g.size := rfl

@[simp] theorem LdGroup.setPos_file_offset (base off : Nat) (g : LdGroup) :
    (g.setPos base off).file_offset = off := rfl

/-- `group->align ? group->align : 1`. -/
def LdGroup.alignOf (g : LdGroup) : Nat := if g.align = 0 then 1 else g.align

/-- One loop over the groups, from index `i` on: a group that is selected and no TLS group
    is put at the aligned offset; the offset moves behind it where `adv` says so. -/
def passOver (tls : Nat → Bool) (sel adv : LdGroup → Bool) (base : Nat) :
    Nat → Nat → List LdGroup → LayoutSt
  | _, offset, [] => ([], offset)
  | i, offset, g :: gs =>
    if sel g && !tls i then
      let off := alignUp64 offset g.alignOf
      let (rest, last) :=
        passOver tls sel adv base (i + 1) (if adv g then add64 off g.size else off) gs
      (g.setPos base off :: rest, last)
    else
      let (rest, last) := passOver tls sel adv base (i + 1) offset gs
      (g :: rest, last)

/-- The ranks of a pass, one loop over the groups for each. -/
def passRanks (tls : Nat → Bool) (sel : Int → LdGroup → Bool) (adv : LdGroup → Bool)
    (base : Nat) (ranks : List Int) (st : LayoutSt) : LayoutSt :=
  ranks.foldl (fun st rank => passOver tls (sel rank) adv base 0 st.2 st.1) st

/-- Pass 1 takes the groups of a rank that take file space. -/
def selLoaded (rank : Int) (g : LdGroup) : Bool := g.rank == rank && !g.nobits

/-- Pass 2 takes those that take none. -/
def selNobits (rank : Int) (g : LdGroup) : Bool := g.rank == rank && g.nobits

/-- Pass 3 takes the groups of a rank. -/
def selRest (rank : Int) (g : LdGroup) : Bool := g.rank == rank

/-- Advance past all groups that are not TLS, placed or not. -/
def pastGroups (tls : Nat → Bool) : Nat → List LdGroup → Nat → Nat
  | _, [], offset => offset
  | i, g :: gs, offset =>
    if tls i then pastGroups tls (i + 1) gs offset
    else
      pastGroups tls (i + 1) gs
        (if add64 g.file_offset g.size > offset then add64 g.file_offset g.size else offset)

/-- Put the group of index `k` at the aligned offset; the offset is behind it. -/
def placeAt (base k : Nat) (st : LayoutSt) : LayoutSt :=
  match st.1[k]? with
  | none => st
  | some g =>
    let off := alignUp64 st.2 g.alignOf
    (st.1.set k (g.setPos base off), add64 off g.size)

/-- The place of `.tdata`. -/
def layTdata (base : Nat) (tdata : Option Nat) (st : LayoutSt) : LayoutSt :=
  match tdata with
  | none => st
  | some k => placeAt base k st

/-- The place of `.tbss`: behind `.tdata`, without moving the offset, or at the offset. -/
def layTbss (base : Nat) (tdata tbss : Option Nat) (st : LayoutSt) : LayoutSt :=
  match tbss with
  | none => st
  | some k =>
    match tdata.bind (st.1[·]?) with
    | some td => ((placeAt base k (st.1, add64 td.file_offset td.size)).1, st.2)
    | none =>
      match st.1[k]? with
      | none => st
      | some g =>
        let off := alignUp64 st.2 g.alignOf
        (st.1.set k (g.setPos base off), if g.nobits then off else add64 off g.size)

/-- What `layout_output` leaves in the context. -/
structure LdLayout where
  groups : List LdGroup
  tls_tdata_size : Nat
  tls_size : Nat
  tls_align : Nat

/-- Sizes of the TLS block. -/
def tlsBlock (tdata tbss : Option LdGroup) : Nat × Nat × Nat :=
  if tdata.isNone && tbss.isNone then (0, 0, 1)
  else
    let tdataSize := (tdata.map LdGroup.size).getD 0
    let talign := (tdata.map LdGroup.align).getD 1
    let tbssSize := (tbss.map LdGroup.size).getD 0
    let tbssAlign := (tbss.map LdGroup.align).getD 1
    let talign := if tbss.isSome && tbssAlign > talign then tbssAlign else talign
    (tdataSize, alignUp64 (add64 (alignUp64 tdataSize tbssAlign) tbssSize) talign, talign)

/-- `is_tls_group`. -/
def isTlsGroup (tdata tbss : Option Nat) (i : Nat) : Bool := some i == tdata || some i == tbss

/-- `layout_output`. -/
def layoutOutput (shared : Bool) (groups : List LdGroup) : LdLayout :=
  let base := if shared then 0 else LD_BASE
  let tdata := findGroup groups ".tdata"
  let tbss := findGroup groups ".tbss"
  let tls := isTlsGroup tdata tbss
  let block := tlsBlock (tdata.bind (groups[·]?)) (tbss.bind (groups[·]?))
  -- pass 1; the writable ranks start on a new page
  let st := passRanks tls selLoaded (fun _ => true) base [0, 1] (groups, LD_PAGE)
  let st := passRanks tls selLoaded (fun _ => true) base [2, 3, 4]
    (st.1, alignUp64 st.2 LD_PAGE)
  -- pass 2 never advances the offset
  let st := passRanks tls selNobits (fun _ => false) base [2, 3, 4] st
  let st := (st.1, pastGroups tls 0 st.1 st.2)
  let st := layTdata base tdata st
  let st := layTbss base tdata tbss st
  -- pass 3
  let st := passRanks tls selRest (fun g => !g.nobits) base [5, 6] st
  { groups := st.1
    tls_tdata_size := block.1
    tls_size := block.2.1
    tls_align := block.2.2 }

end MeuOS.Ld
