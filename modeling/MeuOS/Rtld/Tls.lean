import MeuOS.Ld.Tls
import MeuOS.Ld.SymbolValue

namespace MeuOS.Rtld

open MeuOS.Lib MeuOS.Ld List

/-!
# Thread-local blocks in the loader (`rtld.c`)

`rtld_tls_setup` puts the TLS blocks of the modules below the thread pointer, the main
executable's next to it.

* `rtldTlsSetup` — the thread pointer and the block of every module;
* `tlsImages_spec` — a block stands above those of the modules behind it;
* `tpoff_agrees_iff` — when the linker's offset from the thread pointer leads to the variable;
* `tls_agree` — when the linker and the loader agree.
-/

/-! ### The loader -/

/-- The TLS fields of `struct rtld_lib`. -/
structure RtldLib where
  tls_vaddr : Nat
  tls_filesz : Nat
  tls_memsz : Nat
  tls_align : Nat

/-- The scan for `PT_TLS` in `rtld_load_lib`. -/
def loadTls (load_base : Nat) : Option Phdr → RtldLib
  | none => ⟨0, 0, 0, 0⟩
  | some p => ⟨add64 load_base p.vaddr, p.filesz, p.memsz, if p.align = 0 then 1 else p.align⟩

/-- The alignment that `rtld_tls_setup` rounds a block to. -/
def blockAlign (lib : RtldLib) : Nat := if lib.tls_align > 16 then lib.tls_align else 16

/-- The bytes that `rtld_tls_setup` takes for a block. -/
def blockSize (lib : RtldLib) : Nat := alignUp64 lib.tls_memsz (blockAlign lib)

/-- The bytes of all blocks. -/
def tlsTotal (libs : List RtldLib) : Nat :=
  libs.foldl (fun total lib => if lib.tls_memsz = 0 then total else add64 total (blockSize lib)) 0

/-- `rtld_alloc`: the new `heap_cur` and the pointer; `grant` is what the kernel says when the
    break has to move. -/
def rtldAlloc (heap_cur size : Nat) (grant : Bool) : Nat × Nat :=
  (add64 heap_cur (alignUp64 size 8), if grant then heap_cur else 0)

/-- The loop that lays the modules out from the top down; a module without TLS has no image. -/
def tlsImages : Nat → List RtldLib → List Nat
  | _, [] => []
  | cursor, lib :: libs =>
    if lib.tls_memsz = 0 then 0 :: tlsImages cursor libs
    else sub64 cursor (blockSize lib) :: tlsImages (sub64 cursor (blockSize lib)) libs

/-- What `rtld_tls_setup` leaves: the thread pointer and the `tls_image` of every module. -/
structure TlsSetup where
  tls_tp : Nat
  images : List Nat
  deriving DecidableEq

/-- `rtld_tls_setup`; there is no thread pointer without TLS or without memory. -/
def rtldTlsSetup (heap_cur : Nat) (grant : Bool) (libs : List RtldLib) : Option TlsSetup :=
  let total := tlsTotal libs
  if total = 0 then none
  else
    let area := (rtldAlloc heap_cur (add64 total 16) grant).2
    if area = 0 then none
    else some { tls_tp := add64 area total, images := tlsImages (add64 area total) libs }

/-- The address for a `R_X86_64_DTPOFF64` relocation: `rtld_apply_rela` stores the sum of the
    symbol's value and the addend, `__tls_get_addr` adds it to the module's image. -/
def tlsGetAddr (image value addend : Nat) : Nat := add64 image (add64 value addend)

/-- Sign extension of a field of 32 bits. -/
def signExtend32 (field : Nat) : Nat :=
  if field < 2 ^ 31 then field else field + (2 ^ 64 - 2 ^ 32)

/-- A 64-bit value that its low 32 bits determine by sign extension. -/
def Fits32 (x : Nat) : Prop := x < 2 ^ 31 ∨ 2 ^ 64 - 2 ^ 31 ≤ x

instance (x : Nat) : Decidable (Fits32 x) := inferInstanceAs (Decidable (_ ∨ _))

/-! ### Rounding -/

/-- `align_up` is rounding up, in 64 bits. -/
theorem alignUp64_mod (v : Nat) {k : Nat} (hk : k < 64) :
    alignUp64 v (2 ^ k) = alignUp v (2 ^ k) % 2 ^ 64 := by
  have hpos : 0 < 2 ^ k := Nat.two_pow_pos k
  have hpow : 2 ^ k ≤ 2 ^ 64 := Nat.pow_le_pow_right (by decide) hk.le
  have hmask : (2 ^ k + (2 ^ 64 - 1)) % 2 ^ 64 = 2 ^ k - 1 := by
    rw [show 2 ^ k + (2 ^ 64 - 1) = (2 ^ k - 1) + 2 ^ 64 by omega, Nat.add_mod_right,
      Nat.mod_eq_of_lt (by omega)]
  unfold alignUp64 alignUp
  rw [hmask]
  dsimp only
  rw [show 2 ^ 64 - 1 - (2 ^ k - 1) = 2 ^ 64 - 2 ^ k by omega, and_high_bits hk.le (add64_lt _ _)]
  unfold add64
  -- the bits above `k` of the remainder are those of the sum
  generalize v + (2 ^ k - 1) = n
  have hsplit : 2 ^ 64 = 2 ^ k * 2 ^ (64 - k) := (pow_mul_pow_sub 2 hk.le).symm
  rw [hsplit, Nat.mod_mul_right_div_self, Nat.mul_comm (n / 2 ^ k), Nat.mul_mod_mul_left,
    Nat.mul_comm]

theorem dvd_alignUp64 (v : Nat) {k : Nat} (hk : k < 64) : 2 ^ k ∣ alignUp64 v (2 ^ k) := by
  rw [alignUp64_mod v hk]
  exact (Nat.dvd_mod_iff (Nat.pow_dvd_pow 2 hk.le)).mpr (dvd_alignUp _ _)

/-- A multiple of the alignment is not rounded. -/
theorem alignUp64_of_dvd {v k : Nat} (hk : k < 64) (hv : v < 2 ^ 64) (h : 2 ^ k ∣ v) :
    alignUp64 v (2 ^ k) = v := by
  obtain ⟨c, rfl⟩ := h
  have hpos : 0 < 2 ^ k := Nat.two_pow_pos k
  rw [alignUp64_mod _ hk]
  unfold alignUp
  rw [Nat.mul_add_div hpos, Nat.div_eq_of_lt (by omega), Nat.add_zero, Nat.mul_comm c,
    Nat.mod_eq_of_lt hv]

/-- A block that is no multiple of 16 bytes grows by less than 16. -/
theorem alignUp64_sixteen {v : Nat} (h : ¬ 16 ∣ v) :
    ∃ d, 0 < d ∧ d < 16 ∧ alignUp64 v 16 = (v + d) % 2 ^ 64 := by
  have hround := alignUp64_mod v (show 4 < 64 by decide)
  have hlt := alignUp_lt v (show 0 < 2 ^ 4 by decide)
  have hle := le_alignUp v (show 0 < 2 ^ 4 by decide)
  have hdvd := dvd_alignUp v (2 ^ 4)
  have hsixteen : (2 : Nat) ^ 4 = 16 := rfl
  rw [hsixteen] at hround hlt hle hdvd
  refine ⟨alignUp v 16 - v, ?_, by omega, ?_⟩
  · -- a multiple of 16 is not the size itself
    rcases Nat.lt_or_ge v (alignUp v 16) with hgt | hge
    · omega
    · rw [show alignUp v 16 = v by omega] at hdvd
      exact absurd hdvd h
  · rw [hround, show v + (alignUp v 16 - v) = alignUp v 16 by omega]

/-! ### The blocks -/

/-- The bytes of a module's block. -/
def liveSize (lib : RtldLib) : Nat := if lib.tls_memsz = 0 then 0 else blockSize lib

/-- The bytes of the blocks of some modules. -/
def liveSizes (libs : List RtldLib) : Nat := (libs.map liveSize).sum

theorem tlsTotal_eq (libs : List RtldLib) : tlsTotal libs = liveSizes libs % 2 ^ 64 := by
  have hgen : ∀ (libs : List RtldLib) (acc : Nat), acc < 2 ^ 64 →
      libs.foldl (fun total lib => if lib.tls_memsz = 0 then total
        else add64 total (blockSize lib)) acc = (acc + liveSizes libs) % 2 ^ 64 := by
    intro libs
    induction libs with
    | nil => intro acc hacc; exact (Nat.mod_eq_of_lt hacc).symm
    | cons lib libs ih =>
      intro acc hacc
      rw [foldl_cons]
      have hcons : liveSizes (lib :: libs) = liveSize lib + liveSizes libs := sum_cons
      rw [hcons]
      unfold liveSize
      split
      · rw [ih acc hacc, Nat.zero_add]
      · rw [ih _ (add64_lt _ _)]
        unfold add64
        rw [Nat.mod_add_mod, Nat.add_assoc]
  have h := hgen libs 0 (by decide)
  rw [Nat.zero_add] at h
  exact h

theorem sub64_lt (a b : Nat) : sub64 a b < 2 ^ 64 := Nat.mod_lt _ (by decide)

theorem sub64_add {a b : Nat} (hb : b ≤ 2 ^ 64) : (sub64 a b + b) % 2 ^ 64 = a % 2 ^ 64 := by
  unfold sub64
  omega

theorem blockSize_lt (lib : RtldLib) : blockSize lib < 2 ^ 64 := by
  unfold blockSize alignUp64
  exact Nat.lt_of_le_of_lt Nat.and_le_left (add64_lt _ _)

/-- The cursor is a block and those before it above the block's image. -/
theorem tlsImages_spec {libs : List RtldLib} (cursor : Nat) {k : Nat} {lib : RtldLib}
    (hk : libs[k]? = some lib) (hlive : lib.tls_memsz ≠ 0) :
    ∃ image, (tlsImages cursor libs)[k]? = some image ∧ image < 2 ^ 64 ∧
      (image + liveSizes (libs.take (k + 1))) % 2 ^ 64 = cursor % 2 ^ 64 := by
  induction libs generalizing cursor k with
  | nil => cases hk
  | cons l libs ih =>
    have hcons : ∀ ls, liveSizes (l :: ls) = liveSize l + liveSizes ls := fun _ => sum_cons
    rcases k with _ | k
    · have hnil : liveSizes [] = 0 := rfl
      rw [getElem?_cons_zero, Option.some.injEq] at hk
      subst hk
      refine ⟨sub64 cursor (blockSize l), ?_, sub64_lt _ _, ?_⟩
      · unfold tlsImages
        rw [if_neg hlive, getElem?_cons_zero]
      · rw [take_succ_cons, take_zero, hcons, hnil, Nat.add_zero]
        unfold liveSize
        rw [if_neg hlive]
        exact sub64_add (blockSize_lt l).le
    · rw [getElem?_cons_succ] at hk
      rw [take_succ_cons, hcons]
      unfold tlsImages liveSize
      split
      · obtain ⟨image, hget, hlt, hsum⟩ := ih cursor hk
        refine ⟨image, hget, hlt, ?_⟩
        rw [Nat.zero_add]
        exact hsum
      · obtain ⟨image, hget, hlt, hsum⟩ := ih (sub64 cursor (blockSize l)) hk
        refine ⟨image, hget, hlt, ?_⟩
        -- the cursor moved down by the block of the first module
        have hback := sub64_add (a := cursor) (blockSize_lt l).le
        generalize sub64 cursor (blockSize l) = c at hsum hback
        generalize liveSizes (libs.take (k + 1)) = n at hsum ⊢
        generalize blockSize l = s at hback ⊢
        omega

/-- Without an overflow of the address space, the image is the start of the area and the blocks of
    the modules behind. -/
theorem rtldTlsSetup_image {heap_cur : Nat} {grant : Bool} {libs : List RtldLib} {setup : TlsSetup}
    (h : rtldTlsSetup heap_cur grant libs = some setup) {k : Nat} {lib : RtldLib}
    (hk : libs[k]? = some lib) (hlive : lib.tls_memsz ≠ 0) :
    ∃ image, setup.images[k]? = some image ∧
      image = (heap_cur + liveSizes (libs.drop (k + 1))) % 2 ^ 64 ∧
      (k = 0 → image = sub64 setup.tls_tp (blockSize lib)) := by
  unfold rtldTlsSetup at h
  dsimp only at h
  split at h
  · cases h
  · split at h
    · cases h
    · rename_i harea
      have hgrant : (rtldAlloc heap_cur (add64 (tlsTotal libs) 16) grant).2 = heap_cur := by
        unfold rtldAlloc at harea ⊢
        dsimp only at harea ⊢
        split
        · rfl
        · rename_i hno
          rw [if_neg hno] at harea
          exact absurd rfl harea
      rw [hgrant] at h
      rw [← Option.some.inj h]
      dsimp only
      obtain ⟨image, hget, hlt, hsum⟩ := tlsImages_spec (add64 heap_cur (tlsTotal libs)) hk hlive
      refine ⟨image, hget, ?_, ?_⟩
      · -- all blocks are those up to this module and those behind it
        have hall : liveSizes libs
            = liveSizes (libs.take (k + 1)) + liveSizes (libs.drop (k + 1)) := by
          unfold liveSizes
          rw [← sum_append, ← map_append, take_append_drop]
        unfold add64 at hsum
        rw [tlsTotal_eq, hall] at hsum
        generalize liveSizes (libs.take (k + 1)) = a at hsum
        generalize liveSizes (libs.drop (k + 1)) = b at hsum ⊢
        omega
      · rintro rfl
        rcases libs with _ | ⟨l, libs⟩
        · cases hk
        · rw [getElem?_cons_zero, Option.some.injEq] at hk
          subst hk
          unfold tlsImages at hget
          rw [if_neg hlive, getElem?_cons_zero] at hget
          exact (Option.some.inj hget).symm

/-! ### Linked modules -/

/-- A module that was linked, and where the loader has put it. -/
structure TlsModule where
  shared : Bool
  table : GroupTable
  load_base : Nat

/-- What layout left for the TLS code. -/
def TlsModule.tls (m : TlsModule) : TlsContext := layoutTls m.shared m.table.groups

/-- The module as the loader has read it. -/
def TlsModule.lib (m : TlsModule) : RtldLib := loadTls m.load_base (ptTls m.tls)

theorem align_pow_of_find (t : GroupTable) (name : String) {g : LdGroup}
    (h : (findGroup t.groups name).bind (t.groups[·]?) = some g) : ∃ j < 64, g.align = 2 ^ j := by
  obtain ⟨k, -, hk⟩ := Option.bind_eq_some_iff.mp h
  exact (t.fresh g (mem_of_getElem? hk)).align_pow

/-- The block has the alignment of one of its groups, and a size that is a multiple of it. -/
theorem tlsBlock_spec {tdata tbss : Option LdGroup}
    (hdata : ∀ g, tdata = some g → ∃ j < 64, g.align = 2 ^ j)
    (hbss : ∀ g, tbss = some g → ∃ j < 64, g.align = 2 ^ j) :
    (∃ j < 64, (tlsBlock tdata tbss).2.2 = 2 ^ j) ∧
      (tlsBlock tdata tbss).2.2 ∣ (tlsBlock tdata tbss).2.1 ∧
      (tlsBlock tdata tbss).2.1 < 2 ^ 64 := by
  have hone : ∃ j < 64, 1 = 2 ^ j := ⟨0, by decide, rfl⟩
  unfold tlsBlock
  split
  · exact ⟨hone, dvd_zero _, by decide⟩
  · dsimp only
    have hd : ∃ j < 64, (tdata.map LdGroup.align).getD 1 = 2 ^ j := by
      rcases tdata with _ | g
      · exact hone
      · exact hdata g rfl
    have hb : ∃ j < 64, (tbss.map LdGroup.align).getD 1 = 2 ^ j := by
      rcases tbss with _ | g
      · exact hone
      · exact hbss g rfl
    have halign : ∃ j < 64, (if (tbss.isSome && (tbss.map LdGroup.align).getD 1
        > (tdata.map LdGroup.align).getD 1) then (tbss.map LdGroup.align).getD 1
        else (tdata.map LdGroup.align).getD 1) = 2 ^ j := by
      split
      · exact hb
      · exact hd
    refine ⟨halign, ?_, ?_⟩
    · obtain ⟨j, hj, hjeq⟩ := halign
      rw [hjeq]
      exact dvd_alignUp64 _ hj
    · unfold alignUp64
      exact Nat.lt_of_le_of_lt Nat.and_le_left (add64_lt _ _)

theorem TlsModule.block_spec (m : TlsModule) :
    (∃ j < 64, m.tls.tls_align = 2 ^ j) ∧ m.tls.tls_align ∣ m.tls.tls_size ∧
      m.tls.tls_size < 2 ^ 64 :=
  tlsBlock_spec (fun _ h => align_pow_of_find m.table ".tdata" h)
    (fun _ h => align_pow_of_find m.table ".tbss" h)

/-- The loader reads the size and the alignment that the linker has computed. -/
theorem TlsModule.lib_eq (m : TlsModule) (h : m.tls.tls_size ≠ 0) :
    m.lib.tls_memsz = m.tls.tls_size ∧ m.lib.tls_align = m.tls.tls_align := by
  obtain ⟨⟨j, -, hj⟩, -, -⟩ := m.block_spec
  have hpos : m.tls.tls_align ≠ 0 := by
    rw [hj]
    exact (Nat.two_pow_pos j).ne'
  unfold TlsModule.lib ptTls
  rw [if_neg h]
  exact ⟨rfl, if_neg hpos⟩

/-! ### Offsets from the thread pointer -/

theorem signExtend32_spec {field : Nat} (h : field < 2 ^ 32) :
    signExtend32 field < 2 ^ 64 ∧ signExtend32 field % 2 ^ 32 = field := by
  unfold signExtend32
  split <;> omega

theorem signExtend32_eq_iff {x : Nat} (h : x < 2 ^ 64) :
    signExtend32 (x % 2 ^ 32) = x ↔ Fits32 x := by
  unfold signExtend32 Fits32
  split <;> omega

/-- A block whose size is a multiple of 16 and of its alignment is not rounded by the loader. -/
theorem blockSize_exact {size j : Nat} (hj : j < 64) (hdvd : 2 ^ j ∣ size) (hlt : size < 2 ^ 64)
    (h16 : 16 ∣ size) : alignUp64 size (if 2 ^ j > 16 then 2 ^ j else 16) = size := by
  have hsixteen : 16 = 2 ^ 4 := by decide
  split
  · exact alignUp64_of_dvd hj hlt hdvd
  · rw [hsixteen] at h16 ⊢
    exact alignUp64_of_dvd (by decide) hlt h16

theorem sixteen_dvd {size j : Nat} (hdvd : 2 ^ j ∣ size) (h : 2 ^ j > 16) : 16 ∣ size := by
  have hj : 4 ≤ j := by
    by_contra hlt
    have hle : 2 ^ j ≤ 2 ^ 4 := Nat.pow_le_pow_right (by decide) (by omega)
    omega
  exact (Nat.pow_dvd_pow 2 hj).trans hdvd

/-- The offset from the thread pointer leads to the variable exactly when the loader does not
    round the block and the offset fits the field. -/
theorem tpoff_agrees_iff {size off addend tp j : Nat} (hj : j < 64) (hdvd : 2 ^ j ∣ size)
    (hlt : size < 2 ^ 64) :
    add64 tp (signExtend32 (add64 (sub64 off size) addend % 2 ^ 32))
        = add64 (add64 (sub64 tp (alignUp64 size (if 2 ^ j > 16 then 2 ^ j else 16))) off) addend ↔
      16 ∣ size ∧ Fits32 (add64 (sub64 off size) addend) := by
  have hx : add64 (sub64 off size) addend < 2 ^ 64 := add64_lt _ _
  obtain ⟨hslt, hsmod⟩ := signExtend32_spec
    (Nat.mod_lt (add64 (sub64 off size) addend) (show 0 < 2 ^ 32 by decide))
  by_cases h16 : 16 ∣ size
  · rw [blockSize_exact hj hdvd hlt h16, ← signExtend32_eq_iff hx]
    have hdef : add64 (sub64 off size) addend
        = ((off + (2 ^ 64 - size)) % 2 ^ 64 + addend) % 2 ^ 64 := rfl
    generalize add64 (sub64 off size) addend = x at hx hslt hsmod hdef ⊢
    generalize signExtend32 (x % 2 ^ 32) = s at hslt hsmod ⊢
    unfold add64 sub64
    constructor
    · exact fun h => ⟨h16, by omega⟩
    · rintro ⟨-, rfl⟩
      omega
  · -- the image is less than 16 bytes lower than the linker takes it to be
    have hsmall : ¬ 2 ^ j > 16 := fun h => h16 (sixteen_dvd hdvd h)
    obtain ⟨d, hpos, hd, hround⟩ := alignUp64_sixteen h16
    rw [if_neg hsmall, hround]
    constructor
    · intro h
      exfalso
      have hdef : add64 (sub64 off size) addend
          = ((off + (2 ^ 64 - size)) % 2 ^ 64 + addend) % 2 ^ 64 := rfl
      generalize add64 (sub64 off size) addend = x at hx hslt hsmod hdef h
      generalize signExtend32 (x % 2 ^ 32) = s at hslt hsmod h
      unfold add64 sub64 at h
      omega
    · exact fun h => absurd h.1 h16

/-! ### Agreement -/

/-- The name of a group that layout looks up. -/
theorem TlsModule.name_of_find (m : TlsModule) {name : String} {k : Nat}
    (h : findGroup m.table.groups name = some k) :
    ∃ g, m.tls.groups[k]? = some g ∧ g.name = name := by
  obtain ⟨g, hg, hname⟩ := (findGroup_eq_some m.table.nodup).mp h
  have hmap := layoutOutput_map LdGroup.name (fun _ _ _ => rfl) m.shared m.table.groups
  have hk : (m.tls.groups.map LdGroup.name)[k]? = some g.name := by
    rw [show m.tls.groups.map LdGroup.name = m.table.groups.map LdGroup.name from hmap,
      getElem?_map, hg]
    rfl
  rw [getElem?_map] at hk
  obtain ⟨g', hg', hname'⟩ := Option.map_eq_some_iff.mp hk
  exact ⟨g', hg', hname'.trans hname⟩

/-- A variable of the block is exported with its offset in its group. -/
theorem TlsModule.dynsymValue_eq (m : TlsModule) {g : LdGlobal} {pos : Nat}
    (hdef : g.defined = true) (hpos : m.tls.position g.group g.offset = some pos) :
    dynsymValue m.tls.groups (dynsymType m.tls.groups g) g = g.offset := by
  obtain ⟨⟨k, hk⟩, hcases⟩ := position_cases hpos
  have htype : dynsymType m.tls.groups g = STT_TLS := by
    unfold dynsymType
    rcases hcases with ⟨hgroup, -⟩ | ⟨-, hgroup, -⟩
    · obtain ⟨group, hfind, hname⟩ := m.name_of_find (hgroup.symm.trans hk)
      rw [hk, Option.bind_some, hfind]
      dsimp only
      rw [hname]
      decide
    · obtain ⟨group, hfind, hname⟩ := m.name_of_find (hgroup.symm.trans hk)
      rw [hk, Option.bind_some, hfind]
      dsimp only
      rw [hname]
      decide
  unfold dynsymValue
  rw [htype, hk, hdef]
  rfl

/-- The address for a dynamic symbol is that of the variable exactly when the variable is in
    `.tdata` or nothing stands before `.tbss`. -/
theorem TlsModule.dtpoff_agrees_iff (m : TlsModule) {g : LdGlobal} {pos : Nat}
    (hpos : m.tls.position g.group g.offset = some pos) (image addend : Nat) :
    tlsGetAddr image g.offset addend = add64 (add64 image pos) addend ↔
      g.group = m.tls.tls_tdata_group ∨ tbssBase m.tls = 0 := by
  unfold tlsGetAddr
  obtain ⟨-, ⟨hgroup, rfl⟩ | ⟨hgroup, hb, group, hfind, rfl⟩⟩ := position_cases hpos
  · refine iff_of_true ?_ (Or.inl hgroup)
    unfold add64
    omega
  · have hbase : tbssBase m.tls = alignUp64 m.tls.tls_tdata_size group.align :=
      tbssBase_eq m.shared m.table hfind
    have hlt : tbssBase m.tls < 2 ^ 64 := by
      rw [hbase]
      unfold alignUp64
      exact Nat.lt_of_le_of_lt Nat.and_le_left (add64_lt _ _)
    rw [or_iff_right hgroup, ← hbase]
    generalize tbssBase m.tls = base at hlt ⊢
    unfold add64
    omega

/-- The linker and the loader about the module `k`, whose block is at `image`; the blocks of the
    modules behind it take `behind` bytes. -/
structure AgreesWhen (heap_cur behind : Nat) (setup : TlsSetup) (k : Nat) (m : TlsModule)
    (image : Nat) : Prop where
  /-- the block -/
  image_eq : setup.images[k]? = some image
  /-- the block has the alignment of the module exactly when what stands below it has -/
  aligned : m.tls.tls_align ∣ image ↔ m.tls.tls_align ∣ heap_cur + behind
  /-- the address that the loader computes from a dynamic symbol -/
  dtpoff : ∀ (g : LdGlobal) (pos addend : Nat), g.defined = true →
    m.tls.position g.group g.offset = some pos →
      (tlsGetAddr image (dynsymValue m.tls.groups (dynsymType m.tls.groups g) g) addend
          = add64 (add64 image pos) addend ↔
        g.group = m.tls.tls_tdata_group ∨ tbssBase m.tls = 0)
  /-- the address that the linker's local-exec field leads to, in the main executable -/
  tpoff : k = 0 → ∀ (ctx : LdContext) (o : LdObject) (index off pos addend : Nat)
    (place : Option Nat × Nat), symbolTlsOffset ctx m.tls o index = .ok off →
      variablePlace ctx o index = some place → m.tls.position place.1 place.2 = some pos →
        (add64 setup.tls_tp (signExtend32 (tpoff32Field m.tls off addend))
            = add64 (add64 image pos) addend ↔
          16 ∣ m.tls.tls_size ∧ Fits32 (add64 (sub64 pos m.tls.tls_size) addend))

/-- When the linker and the loader agree on the thread-local variables of a module. -/
theorem tls_agree {heap_cur : Nat} {grant : Bool} {modules : List TlsModule} {setup : TlsSetup}
    (hsetup : rtldTlsSetup heap_cur grant (modules.map TlsModule.lib) = some setup) {k : Nat}
    {m : TlsModule} (hk : modules[k]? = some m) (hlive : m.tls.tls_size ≠ 0) :
    ∃ image, AgreesWhen heap_cur (liveSizes ((modules.map TlsModule.lib).drop (k + 1))) setup k m
      image := by
  obtain ⟨hmemsz, halign⟩ := m.lib_eq hlive
  obtain ⟨⟨j, hj, hpow⟩, hdvd, hlt⟩ := m.block_spec
  have hlib : (modules.map TlsModule.lib)[k]? = some m.lib := by
    rw [getElem?_map, hk]
    rfl
  obtain ⟨image, hget, himage, hmain⟩ := rtldTlsSetup_image hsetup hlib (hmemsz ▸ hlive)
  refine ⟨image, hget, ?_, fun g pos addend hdef hpos => ?_, ?_⟩
  · rw [himage, hpow, Nat.dvd_mod_iff (Nat.pow_dvd_pow 2 hj.le)]
  · rw [m.dynsymValue_eq hdef hpos]
    exact m.dtpoff_agrees_iff hpos image addend
  · intro hzero ctx o index off pos addend place hoff hplace hpos
    obtain rfl := symbolTlsOffset_position m.shared m.table hoff hplace hpos
    have hblock : blockSize m.lib
        = alignUp64 m.tls.tls_size (if 2 ^ j > 16 then 2 ^ j else 16) := by
      unfold blockSize blockAlign
      rw [hmemsz, halign, hpow]
    rw [hmain hzero, hblock]
    unfold tpoff32Field
    exact tpoff_agrees_iff hj (hpow ▸ hdvd) hlt

/-- A main executable whose TLS block is a `.tdata` of some size, aligned to 4 bytes. -/
def threadX (size : Nat) (h : size < 2 ^ 64) : TlsModule where
  shared := false
  table :=
    { groups := [{ name := ".tdata", type := 1, flags := 0x403, align := 4, size := size, rank := 3 }]
      nodup := nodup_singleton _
      fresh := by
        intro g hg
        rw [mem_singleton.mp hg]
        exact ⟨⟨2, by decide, rfl⟩, h, rfl, rfl⟩ }
  load_base := 0

/-- A block of 16 bytes. -/
theorem tls_agree_sixteen :
    ∃ image, AgreesWhen 4096 (liveSizes []) ⟨4112, [4096]⟩ 0 (threadX 16 (by decide)) image := by
  have hsetup : rtldTlsSetup 4096 true ([threadX 16 (by decide)].map TlsModule.lib)
      = some ⟨4112, [4096]⟩ := by decide
  have hk : [threadX 16 (by decide)][0]? = some (threadX 16 (by decide)) := rfl
  exact tls_agree hsetup hk (by decide)

/-- A block of 4 bytes with the variable `x`: the loader puts it 16 bytes below the thread pointer,
    the linker's offset is 4. -/
theorem tpoff_misses_block :
    rtldTlsSetup 4096 true [(threadX 4 (by decide)).lib] = some ⟨4112, [4096]⟩ ∧
      symbolTlsOffset (xLink wantedX rfl [dataX 0x11 0]) (threadX 4 (by decide)).tls (dataX 0x11 0) 1
        = .ok 0 ∧
      variablePlace (xLink wantedX rfl [dataX 0x11 0]) (dataX 0x11 0) 1 = some (some 0, 0) ∧
      (threadX 4 (by decide)).tls.position (some 0) 0 = some 0 ∧
      add64 4112 (signExtend32 (tpoff32Field (threadX 4 (by decide)).tls 0 0)) = 4108 := by
  decide

end MeuOS.Rtld
