import MeuOS.Lib.Field
import MeuOS.Sysroot.Mkmsys

namespace MeuOS.Sysroot

open MeuOS.Lib List Option Bool

/-!
# What mkmsys writes, msys reads

* `predictOffsets_at` — where no block is shared and none counts an inline header that is not
  written, the predicted offsets are where the data is;
* `walkIndex_flatten` — the walk over the entries that were written gives them back;
* `Packed.open`, `Opened.indexed` — the file is opened, and its index is in order;
* `pack_roundtrip` — archives of either format are opened, and searched, loaded and streamed as they
  were packed, when `PackOk`; `pack_unreadable` — and not always.
-/

/-! ### The order of the entries -/

theorem strcmpLe_total (a b : Bytes) : strcmpLe a b = true ∨ strcmpLe b a = true := by
  induction a generalizing b with
  | nil => exact Or.inl rfl
  | cons x a ih =>
    obtain _ | ⟨y, b⟩ := b
    · exact Or.inr rfl
    · obtain hlt | heq | hgt := lt_trichotomy x.toNat y.toNat
      · exact Or.inl (by simp [strcmpLe, UInt8.lt_iff_toNat_lt, hlt])
      · obtain rfl := UInt8.toNat_inj.mp heq
        simpa [strcmpLe] using ih b
      · exact Or.inr (by simp [strcmpLe, UInt8.lt_iff_toNat_lt, hgt])

variable {c : List Entry} {e : Entry} {b : Block} {off : Nat} {dedup : Bool} {P : PackLibs}
  {o : PackOptions} {bs : List Block}

theorem strcmpLe_trans {a b c : Bytes} (hab : strcmpLe a b = true) (hbc : strcmpLe b c = true) :
    strcmpLe a c = true := by
  induction a generalizing b c with
  | nil => rfl
  | cons x a ih =>
    obtain _ | ⟨y, b⟩ := b
    · exact absurd hab (by simp [strcmpLe])
    obtain _ | ⟨z, c⟩ := c
    · exact absurd hbc (by simp [strcmpLe])
    simp only [strcmpLe, or_eq_true, and_eq_true, decide_eq_true_eq] at hab hbc ⊢
    obtain hxy | ⟨rfl, hab⟩ := hab
    · obtain hyz | ⟨rfl, -⟩ := hbc
      · exact Or.inl (UInt8.lt_trans hxy hyz)
      · exact Or.inl hxy
    · obtain hyz | ⟨rfl, hbc⟩ := hbc
      · exact Or.inl hyz
      · exact Or.inr ⟨rfl, ih hab hbc⟩

instance : Std.Total entryLe where
  total a b := by
    obtain hlt | heq | hgt := lt_trichotomy a.hash b.hash
    · exact Or.inl (Or.inl hlt)
    · obtain h | h := strcmpLe_total a.name b.name
      · exact Or.inl (Or.inr ⟨heq, h⟩)
      · exact Or.inr (Or.inr ⟨heq.symm, h⟩)
    · exact Or.inr (Or.inl hgt)

instance : IsTrans Entry entryLe where
  trans a b c := by
    rintro (hab | ⟨hab, hname⟩) (hbc | ⟨hbc, hname'⟩)
    · exact Or.inl (hab.trans hbc)
    · exact Or.inl (hbc ▸ hab)
    · exact Or.inl (hab ▸ hbc)
    · exact Or.inr ⟨hab.trans hbc, strcmpLe_trans hname hname'⟩

theorem pairwise_sortEntries (c : List Entry) : (sortEntries c).Pairwise entryLe :=
  pairwise_insertionSort entryLe c

theorem mem_sortEntries : e ∈ sortEntries c ↔ e ∈ c :=
  mem_insertionSort entryLe

/-! ### Offsets -/

theorem le_align4 (n : Nat) : n ≤ align4 n := by
  rw [align4]
  omega

theorem length_append_padding (pre : Bytes) :
    (pre ++ padding pre.length).length = align4 pre.length := by
  have := le_align4 pre.length
  rw [padding, length_append, length_replicate]
  omega

/-- A block for which the loop that predicts and the loop that writes agree: it is not shared, and
an empty one counts nothing. -/
structure Fits (streaming : Bool) (b : Block) : Prop where
  own : b.dup = none
  empty : b.entry.data = [] → streaming = false ∧ b.stored = []
  name : b.entry.name.length < 2 ^ 16

/-- The inline header is as long as it was counted. -/
theorem length_inlineHeader {streaming : Bool} (h : Fits streaming b) :
    (inlineHeader streaming b).length = streamOverhead streaming b := by
  rw [inlineHeader, streamOverhead, h.own]
  cases streaming with
  | false => rfl
  | true =>
    rw [if_pos rfl, Nat.mod_eq_of_lt h.name, take_length]
    simp
    omega

/-- **The predicted offsets are where the data is.** Both loops are at the same place before each
block, up to padding. -/
theorem predictOffsets_at {streaming : Bool} {bs : List Block} {pre : Bytes} {cur : Nat}
    {offs : List Nat} (hfits : ∀ b ∈ bs, Fits streaming b) (hcur : align4 cur = align4 pre.length) :
    ∃ tail, predictOffsets streaming bs cur offs = offs ++ tail ∧
      List.Forall₂ (fun b off => At (pre ++ writeBlocks streaming bs pre.length) off b.stored)
        bs tail ∧
      align4 (bs.foldl (advance streaming) cur) =
        align4 (pre ++ writeBlocks streaming bs pre.length).length := by
  induction bs generalizing pre cur offs with
  | nil => exact ⟨[], by rw [predictOffsets, append_nil], .nil, by simpa [writeBlocks] using hcur⟩
  | cons b bs ih =>
    have hb := hfits b mem_cons_self
    have hown : b.dup.isSome = false := by rw [hb.own, isSome_none]
    have hpad : (pre ++ padding pre.length).length = align4 cur :=
      (length_append_padding pre).trans hcur.symm
    -- the file behind the block
    have hwrite : ∃ out, writeBlocks streaming (b :: bs) pre.length =
          out ++ writeBlocks streaming bs (pre ++ out).length ∧
        (pre ++ out).length = advance streaming cur b ∧
        At (pre ++ out) (align4 cur + streamOverhead streaming b) b.stored := by
      refine ⟨_, by rw [writeBlocks, hown, if_neg Bool.false_ne_true, length_append], ?_⟩
      by_cases hempty : b.entry.data = []
      · obtain ⟨hs, hstored⟩ := hb.empty hempty
        have hover : streamOverhead streaming b = 0 := by rw [streamOverhead, hs]; rfl
        rw [hempty, isEmpty_nil, if_pos rfl, append_nil, hpad, advance, hover, hstored]
        exact ⟨rfl, At.nil (by rw [hpad, Nat.add_zero])⟩
      · have hne : b.entry.data.isEmpty = false := by
          rw [isEmpty_eq_false_iff]
          exact hempty
        rw [hne, if_neg Bool.false_ne_true, ← append_assoc, length_append, hpad,
          length_append, length_inlineHeader hb, advance, Nat.add_assoc]
        refine ⟨rfl, pre ++ padding pre.length ++ inlineHeader streaming b, [], ?_, ?_⟩
        · rw [append_nil, append_assoc, append_assoc, append_assoc]
        · rw [length_append, hpad, length_inlineHeader hb]
    obtain ⟨out, hout, hlen, hat⟩ := hwrite
    obtain ⟨tail, htail, hall, hend⟩ :=
      @ih (pre ++ out) (advance streaming cur b) (offs ++ [align4 cur + streamOverhead streaming b])
        (fun x hx => hfits x (mem_cons_of_mem _ hx)) (by rw [hlen])
    rw [hout, ← append_assoc]
    refine ⟨(align4 cur + streamOverhead streaming b) :: tail, ?_, ?_, ?_⟩
    · rw [predictOffsets, hb.own]
      dsimp only
      rw [htail, append_assoc, singleton_append]
    · exact .cons (hat.append _) hall
    · rw [foldl_cons, hend]

/-! ### The index -/

/-- An index entry of either version. -/
def indexEntry (v2 dedup : Bool) (b : Block) (off : Nat) : Bytes :=
  if v2 then indexEntryV2 dedup b off else indexEntryV1 b off

/-- The numbers of a block fit in their fields. -/
structure FitsIndex (v2 : Bool) (b : Block) (off : Nat) : Prop where
  off_lt : off < 256 ^ 6
  stored_lt : b.stored.length < 256 ^ 4
  name_lt : b.entry.name.length < 256 ^ (if v2 then 1 else 2)

/-- What the reader sees of a block in its index entry. -/
structure Records (v2 : Bool) (e : Bytes) (b : Block) (off : Nat) : Prop where
  hash : entryHash e = b.entry.hash
  doff : entryDoff e = off
  dsize : entryDsize e = b.stored.length
  nlen : entryNlen v2 e = b.entry.name.length
  name : entryName v2 e = b.entry.name
  type : v2 = true → entryType e = b.entry.fileType % 2 ^ 16

theorem msysFnv1a_lt (name : Bytes) : msysFnv1a name < 256 ^ 4 := UInt32.toNat_lt _

/-- An index entry of version 1 where it stands. -/
theorem indexEntryV1_records {e : Bytes} (hfit : FitsIndex false b off)
    (h : At e 0 (indexEntryV1 b off)) :
    Records false e b off ∧ entryLen false e = (indexEntryV1 b off).length := by
  rw [indexEntryV1] at h ⊢
  simp only [append_assoc] at h
  have h4 := h.right_of_length (length_leBytes 4 _)
  have h10 := h4.right_of_length (length_leBytes 6 _)
  have h14 := h10.right_of_length (length_leBytes 4 _)
  have h16 := h14.right_of_length (length_leBytes 2 _)
  have hnlen : entryNlen false e = b.entry.name.length :=
    h14.left.le_eq.trans (Nat.mod_eq_of_lt hfit.name_lt)
  refine ⟨⟨?_, ?_, ?_, hnlen, ?_, fun hv => absurd hv (by decide)⟩, ?_⟩
  · exact h.left.le_eq.trans (Nat.mod_eq_of_lt (msysFnv1a_lt _))
  · exact h4.left.le_eq.trans (Nat.mod_eq_of_lt hfit.off_lt)
  · exact h10.left.le_eq.trans (Nat.mod_eq_of_lt hfit.stored_lt)
  · exact h16.slice_eq hnlen.symm
  · simp [entryLen, entryFixed, hnlen]
    omega

/-- An index entry of version 2 where it stands. -/
theorem indexEntryV2_records {e : Bytes}
    (hfit : FitsIndex true b off) (h : At e 0 (indexEntryV2 dedup b off)) :
    Records true e b off ∧ entryLen true e = (indexEntryV2 dedup b off).length := by
  rw [indexEntryV2] at h ⊢
  simp only [append_assoc] at h
  have h4 := h.right_of_length (length_leBytes 4 _)
  have h10 := h4.right_of_length (length_leBytes 6 _)
  have h14 := h10.right_of_length (length_leBytes 4 _)
  have h18 := h14.right_of_length (length_leBytes 4 _)
  have h20 := h18.right_of_length (length_leBytes 2 _)
  have h22 := h20.right_of_length (length_leBytes 2 _)
  have h26 := h22.right_of_length (length_leBytes 4 _)
  have h30 := h26.right_of_length (length_leBytes 4 _)
  have h31 := h30.right_of_length (length_leBytes 1 _)
  have h32 := h31.right_of_length (length_leBytes 1 _)
  have hnlen : entryNlen true e = b.entry.name.length :=
    h30.left.le_eq.trans (Nat.mod_eq_of_lt hfit.name_lt)
  have hhashed : entryHashed e = hashPresent dedup b := by
    have hbyte : readLe e 31 1 = (if hashPresent dedup b then 1 else 0) % 256 ^ 1 := h31.left.le_eq
    rw [entryHashed, hbyte]
    cases hashPresent dedup b <;> rfl
  refine ⟨⟨?_, ?_, ?_, hnlen, ?_, fun _ => ?_⟩, ?_⟩
  · exact h.left.le_eq.trans (Nat.mod_eq_of_lt (msysFnv1a_lt _))
  · exact h4.left.le_eq.trans (Nat.mod_eq_of_lt hfit.off_lt)
  · exact h10.left.le_eq.trans (Nat.mod_eq_of_lt hfit.stored_lt)
  · exact h32.left.slice_eq hnlen.symm
  · exact h18.left.le_eq
  · rw [entryLen, hnlen, hhashed]
    cases hashPresent dedup b <;> simp [entryFixed, length_sha256] <;> omega

theorem indexEntry_records {v2 : Bool} {e : Bytes}
    (hfit : FitsIndex v2 b off) (h : At e 0 (indexEntry v2 dedup b off)) :
    Records v2 e b off ∧ entryLen v2 e = (indexEntry v2 dedup b off).length := by
  cases v2 with
  | false => exact indexEntryV1_records hfit h
  | true => exact indexEntryV2_records hfit h

/-- The walk over the entries that were written gives one for each block, in order. -/
theorem walkIndex_flatten {v2 dedup : Bool} {bs : List Block} {offs : List Nat}
    (hfit : List.Forall₂ (FitsIndex v2) bs offs) (q : Bytes) :
    ∃ es, walkIndex v2 bs.length
        ((zipWith (indexEntry v2 dedup) bs offs).flatten ++ q) = some es ∧
      List.Forall₂ (fun e bo => Records v2 e bo.1 bo.2) es (bs.zip offs) := by
  induction hfit with
  | nil => exact ⟨[], rfl, .nil⟩
  | @cons b off bs offs hb _ ih =>
    obtain ⟨es, hwalk, hrec⟩ := ih
    have hp : ∀ p, p = (zipWith (indexEntry v2 dedup) (b :: bs) (off :: offs)).flatten ++ q →
        p = indexEntry v2 dedup b off ++
          ((zipWith (indexEntry v2 dedup) bs offs).flatten ++ q) := by
      intro p h
      rw [h, zipWith_cons_cons, flatten_cons, append_assoc]
    generalize hfile : (zipWith (indexEntry v2 dedup) (b :: bs) (off :: offs)).flatten ++ q = p
    have hsplit := hp p hfile.symm
    have hat : At p 0 (indexEntry v2 dedup b off) := ⟨[], _, hsplit, rfl⟩
    obtain ⟨hr, hlen⟩ := indexEntry_records hb hat
    have hle : entryLen v2 p ≤ p.length := by
      have := hat.le_length
      omega
    have hfix : entryFixed v2 ≤ p.length := by
      refine le_trans ?_ hle
      rw [entryLen]
      omega
    have hdrop : p.drop (entryLen v2 p) =
        (zipWith (indexEntry v2 dedup) bs offs).flatten ++ q := by
      rw [hlen, hsplit, drop_left]
    refine ⟨p :: es, ?_, .cons hr hrec⟩
    rw [length_cons, walkIndex, if_neg (Nat.not_lt.mpr hfix), if_neg (Nat.not_lt.mpr hle), hdrop,
      hwalk, map_some]

/-! ### The file -/

/-- What the reader sees of the file, whichever the format. -/
structure Packed (o : PackOptions) (file : Bytes) (bs : List Block) (offs : List Nat) : Prop where
  magic : slice file 0 8 = if o.v2 then msysMagicV2 else msysMagic
  inside : headerSize o.v2 ≤ indexOffset file
  index : ∃ q, file.drop (indexOffset file) =
    (zipWith (indexEntry o.v2 o.dedup) bs offs).flatten ++ q
  count : indexCount file = bs.length
  zlib : hasZlib file = decide (o.compress = some .zlib)
  zstd : hasZstd file = decide (o.compress = some .zstd)
  data : List.Forall₂ (fun b off => At file off b.stored) bs offs

/-- The fields that both headers have. -/
theorem header_fields {file magic rest : Bytes} {idx n fl : Nat} (hm : magic.length = 8)
    (hidx : idx < 256 ^ 8) (hn : n < 256 ^ 4)
    (h : At file 0 (magic ++ (leBytes 8 idx ++ (leBytes 4 n ++ (leBytes 4 fl ++ rest))))) :
    slice file 0 8 = magic ∧ indexOffset file = idx ∧ indexCount file = n ∧
      hdrFlags file = fl % 256 ^ 4 := by
  have h8 := h.right_of_length hm
  have h16 := h8.right_of_length (length_leBytes 8 _)
  have h20 := h16.right_of_length (length_leBytes 4 _)
  refine ⟨h.left.slice_eq hm, ?_, ?_, h20.left.le_eq⟩
  · exact h8.left.le_eq.trans (Nat.mod_eq_of_lt hidx)
  · exact h16.left.le_eq.trans (Nat.mod_eq_of_lt hn)

/-- The compression bits of the flags, with or without `MSYS_F_DIR_BLOCK`. -/
theorem flags_bits (o : PackOptions) {extra : Nat} (h : extra = 0 ∨ extra = 0x1000) :
    ((o.flags + extra) % 256 ^ 4).testBit 0 = decide (o.compress = some .zlib) ∧
      ((o.flags + extra) % 256 ^ 4).testBit 1 = decide (o.compress = some .zstd) := by
  obtain ⟨v2, compress, incremental, dedup, streaming, signKey⟩ := o
  simp only [PackOptions.flags]
  obtain rfl | rfl := h <;> cases incremental <;> cases dedup <;> cases streaming <;>
    rcases compress with _ | _ | _ <;> simp [Nat.testBit]

/-- The file of version 1. -/
theorem packed_v1
    (hbs : bs = blocksFrom P o false [] (sortEntries (addMetadata c))) (hv : o.v2 = false)
    (hfits : ∀ b ∈ bs, Fits false b) (hcount : bs.length < 256 ^ 4)
    (htotal : (writeMsys P o c).length < 256 ^ 6) :
    Packed o (writeMsys P o c) bs (predictOffsets false bs 32 []) := by
  generalize hfile : writeMsys P o c = file at htotal ⊢
  rw [writeMsys] at hfile
  rw [← hbs] at hfile
  generalize hhead : msysMagic ++ leBytes 8 (align4 (bs.foldl (advance false) 32)) ++
    leBytes 4 bs.length ++ leBytes 4 o.flags ++ replicate 8 0 = head at hfile
  have hlen : head.length = 32 := by rw [← hhead]; simp [msysMagic]
  obtain ⟨offs, hoffs, hdata, hend⟩ := @predictOffsets_at false bs head 32 [] hfits (by rw [hlen])
  rw [hlen] at hdata hend
  rw [hoffs, nil_append] at hfile ⊢
  -- the index stands where the header says
  have hpre : (head ++ writeBlocks false bs 32 ++
      padding (32 + (writeBlocks false bs 32).length)).length =
        align4 (bs.foldl (advance false) 32) := by
    have hsum : (head ++ writeBlocks false bs 32).length =
        32 + (writeBlocks false bs 32).length := by rw [length_append, hlen]
    rw [hend, ← hsum, length_append_padding]
  have hidx : align4 (bs.foldl (advance false) 32) < 256 ^ 8 := by
    have hsize := congrArg length hfile
    rw [length_append, hpre] at hsize
    omega
  have hat : At file 0 head := by
    rw [← hfile, append_assoc, append_assoc]
    exact ⟨[], _, rfl, rfl⟩
  have hat' := hat
  rw [← hhead] at hat'
  simp only [append_assoc] at hat'
  obtain ⟨hmagic, hindex, hn, hflags⟩ := header_fields rfl hidx hcount hat'
  have hbits := flags_bits o (Or.inl rfl)
  rw [Nat.add_zero, ← hflags] at hbits
  refine ⟨by rw [hmagic, hv]; rfl, ?_, ⟨[], ?_⟩, hn, hbits.1, hbits.2, ?_⟩
  · rw [hindex, ← hpre, length_append, length_append, hlen, hv]
    exact (Nat.le_add_right _ _).trans (Nat.le_add_right _ _)
  · rw [hindex, ← hpre, ← hfile, drop_left, append_nil, hv]
    rfl
  · rw [← hfile]
    exact hdata.imp fun b off h => (h.append _).append _

/-- The file of version 2. -/
theorem packed_v2
    (hbs : bs = blocksFrom P o o.dedup [] (sortEntries (addMetadata c))) (hv : o.v2 = true)
    (hfits : ∀ b ∈ bs, Fits o.streaming b) (hcount : bs.length < 256 ^ 4)
    (htotal : (writeMsysV2 P o c).length < 256 ^ 6) :
    Packed o (writeMsysV2 P o c) bs (predictOffsets o.streaming bs 72 []) := by
  generalize hfile : writeMsysV2 P o c = file at htotal ⊢
  rw [writeMsysV2] at hfile
  rw [← hbs] at hfile
  generalize dirItems (sortEntries (addMetadata c)) = items at hfile
  generalize hdir : (if items.isEmpty then []
    else padding (72 + (writeBlocks o.streaming bs 72).length) ++
      items.flatMap dirItemBytes : Bytes) = dir at hfile
  generalize hbody : writeBlocks o.streaming bs 72 ++ dir = body at hfile
  generalize hix : (zipWith (indexEntryV2 o.dedup) bs
    (predictOffsets o.streaming bs 72 [])).flatten = index at hfile
  generalize hhead : msysMagicV2 ++ leBytes 8 (align4 (72 + body.length)) ++ leBytes 4 bs.length ++
    leBytes 4 (o.flags + 0x1000) ++
    leBytes 8 (if items.isEmpty then 0
      else align4 (72 + (writeBlocks o.streaming bs 72).length)) ++
    leBytes 4 items.length ++
    leBytes 4 (if o.signKey.isSome then align4 (align4 (72 + body.length) + index.length) else 0) ++
    replicate 32 0 = head at hfile
  generalize signBlock P o (align4 (72 + body.length) + index.length) index = sign at hfile
  have hlen : head.length = 72 := by rw [← hhead]; simp [msysMagicV2]
  obtain ⟨offs, hoffs, hdata, -⟩ := @predictOffsets_at o.streaming bs head 72 [] hfits (by rw [hlen])
  rw [hlen] at hdata
  rw [hoffs, nil_append] at hix ⊢
  -- the index stands where the header says
  have hpre : (head ++ body ++ padding (72 + body.length)).length = align4 (72 + body.length) := by
    rw [← hlen, ← length_append, length_append_padding]
  have hidx : align4 (72 + body.length) < 256 ^ 8 := by
    have hsize := congrArg length hfile
    rw [length_append, length_append, hpre] at hsize
    omega
  have hat : At file 0 head := by
    rw [← hfile, append_assoc, append_assoc, append_assoc]
    exact ⟨[], _, rfl, rfl⟩
  rw [← hhead] at hat
  simp only [append_assoc] at hat
  obtain ⟨hmagic, hindex, hn, hflags⟩ := header_fields rfl hidx hcount hat
  have hbits := flags_bits o (Or.inr rfl)
  rw [← hflags] at hbits
  refine ⟨by rw [hmagic, hv]; rfl, ?_, ⟨sign, ?_⟩, hn, hbits.1, hbits.2, ?_⟩
  · rw [hindex, hv]
    have := le_align4 (72 + body.length)
    exact (Nat.le_add_right _ _).trans this
  · rw [hindex, ← hpre, ← hfile, append_assoc _ index sign, drop_left, hv, ← hix]
    rfl
  · rw [← hfile, ← hbody]
    refine hdata.imp fun b off h => ?_
    rw [← append_assoc]
    exact (((h.append _).append _).append _).append _

/-! ### Positions in lists -/

theorem pairwise_getElem? {α : Type} {R : α → α → Prop} {l : List α} (h : l.Pairwise R) {i j : Nat}
    {a b : α} (hij : i < j) (ha : l[i]? = some a) (hb : l[j]? = some b) : R a b := by
  obtain ⟨hi, rfl⟩ := List.getElem?_eq_some_iff.mp ha
  obtain ⟨hj, rfl⟩ := List.getElem?_eq_some_iff.mp hb
  exact pairwise_iff_getElem.mp h i j hi hj hij

theorem forall₂_right {α β : Type} {R : α → β → Prop} {l : List α} {l' : List β}
    (h : List.Forall₂ R l l') {i : Nat} {b : β} (hb : l'[i]? = some b) :
    ∃ a, l[i]? = some a ∧ R a b := by
  obtain ⟨hi, rfl⟩ := List.getElem?_eq_some_iff.mp hb
  have hi' : i < l.length := h.length_eq ▸ hi
  exact ⟨l.get ⟨i, hi'⟩, getElem?_eq_getElem hi', h.get hi' hi⟩

/-! ### The blocks -/

theorem map_entry_blocksFrom (P : PackLibs) (o : PackOptions) (dedup : Bool)
    (earlier es : List Entry) : (blocksFrom P o dedup earlier es).map Block.entry = es := by
  induction es generalizing earlier with
  | nil => rfl
  | cons e es ih => rw [blocksFrom, map_cons, ih]

theorem stored_of_mem {earlier es : List Entry} (hb : b ∈ blocksFrom P o dedup earlier es) :
    b.stored = storedBytes P o b.entry := by
  induction es generalizing earlier with
  | nil => exact absurd hb not_mem_nil
  | cons e es ih =>
    rw [blocksFrom] at hb
    obtain rfl | hb := mem_cons.mp hb
    · rfl
    · exact ih hb

/-- Two entries that `--dedup` takes for the same, where the second is not metadata. -/
def Duplicate (f e : Entry) : Prop :=
  e.isMeta = false ∧ e.data ≠ [] ∧ f.data.length = e.data.length ∧ sha256 f.data = sha256 e.data

instance : DecidableRel Duplicate := fun f e =>
  inferInstanceAs (Decidable (e.isMeta = false ∧ e.data ≠ [] ∧ f.data.length = e.data.length ∧
    sha256 f.data = sha256 e.data))

/-- Where no entry repeats an earlier one, every block has its own data. -/
theorem blocksFrom_own {earlier es : List Entry}
    (h : dedup = true → (earlier ++ es).Pairwise fun f e => ¬ Duplicate f e)
    (hb : b ∈ blocksFrom P o dedup earlier es) : b.dup = none := by
  induction es generalizing earlier with
  | nil => exact absurd hb not_mem_nil
  | cons e es ih =>
    rw [blocksFrom] at hb
    obtain rfl | hb := mem_cons.mp hb
    · show dedupOf dedup earlier e = none
      rw [dedupOf]
      split
      next hcond =>
        simp only [and_eq_true, not_eq_true', isEmpty_eq_false_iff] at hcond
        obtain ⟨⟨hdedup, hne⟩, hmeta⟩ := hcond
        rw [firstSame, findIdx?_eq_none_iff]
        intro f hf
        have hpair := (pairwise_append.mp (h hdedup)).2.2 f hf e mem_cons_self
        by_contra hsame
        simp only [not_eq_false, and_eq_true, decide_eq_true_eq] at hsame
        exact hpair ⟨hmeta, hne, hsame.1, hsame.2⟩
      next => rfl
    · refine ih (fun hdedup => ?_) hb
      rw [append_assoc, singleton_append]
      exact h hdedup

/-- What is stored is no longer than the data. -/
theorem length_storedBytes_le (P : PackLibs) (o : PackOptions) (e : Entry) :
    (storedBytes P o e).length ≤ e.data.length := by
  rw [storedBytes]
  cases hc : compressedBlock P o e.data with
  | none => exact le_rfl
  | some out =>
    rw [compressedBlock] at hc
    split at hc
    · cases hc
    · have hshort := (filter_eq_some_iff.mp hc).2
      exact (of_decide_eq_true hshort).le

theorem storedBytes_empty (h : e.data = []) :
    storedBytes P o e = [] :=
  length_eq_zero_iff.mp (Nat.le_zero.mp ((length_storedBytes_le P o e).trans (by simp [h])))

/-! ### The archive in memory -/

section

variable {o : PackOptions} {bs : List Block} {offs : List Nat} {m : Msys}

/-- An opened archive and the blocks it was packed from: an entry for each, which records it. -/
structure Opened (o : PackOptions) (bs : List Block) (offs : List Nat) (m : Msys) : Prop where
  packed : Packed o m.base bs offs
  v2 : m.v2 = o.v2
  entries : List.Forall₂ (fun e bo => Records m.v2 e bo.1 bo.2) m.entries (bs.zip offs)

/-- **A packed file is opened.** -/
theorem Packed.open {file : Bytes} (h : Packed o file bs offs) (hne : bs ≠ [])
    (hfit : List.Forall₂ (FitsIndex o.v2) bs offs) :
    ∃ m, msysOpen file = .ok m ∧ m.base = file ∧ Opened o bs offs m := by
  obtain ⟨q, hq⟩ := h.index
  obtain ⟨es, hwalk, hrec⟩ := @walkIndex_flatten o.v2 o.dedup bs offs hfit q
  rw [← hq, ← h.count] at hwalk
  have hin : indexOffset file < file.length := by
    by_contra hout
    rw [drop_eq_nil_of_le (Nat.le_of_not_lt hout), h.count] at hwalk
    obtain ⟨n, hn⟩ := Nat.exists_eq_succ_of_ne_zero
      (fun hz => hne (length_eq_zero_iff.mp hz))
    rw [hn, walkIndex] at hwalk
    cases hv : o.v2 <;> simp [hv, entryFixed] at hwalk
  have hlong : 32 ≤ file.length := by
    have hhead : 32 ≤ headerSize o.v2 := by cases o.v2 <;> decide
    exact hhead.trans (h.inside.trans hin.le)
  exact ⟨⟨file, o.v2, es, hwalk⟩, @msysOpen_base ⟨file, o.v2, es, hwalk⟩ hlong h.magic h.inside hin,
    rfl, h, rfl, hrec⟩

/-- The row of an entry: the block it records, whose bytes stand where it says. -/
theorem Opened.row (h : Opened o bs offs m) {i : Nat} (hi : i < bs.length) :
    ∃ b off, bs[i]? = some b ∧ Records m.v2 (m.entry i) b off ∧ At m.base off b.stored := by
  have hlen : bs.length = offs.length := h.packed.data.length_eq
  obtain ⟨b, hb⟩ : ∃ b, bs[i]? = some b := ⟨_, getElem?_eq_getElem hi⟩
  obtain ⟨off, hoff⟩ : ∃ off, offs[i]? = some off := ⟨_, getElem?_eq_getElem (hlen ▸ hi)⟩
  have hzip : (bs.zip offs)[i]? = some (b, off) := by
    rw [getElem?_zip_eq_some]
    exact ⟨hb, hoff⟩
  refine ⟨b, off, hb, ?_, ?_⟩
  · obtain ⟨e, he, hr⟩ := forall₂_right h.entries hzip
    rw [Msys.entry, getD_eq_getElem?_getD, he]
    exact hr
  · obtain ⟨b', hb', hr⟩ := forall₂_right h.packed.data hoff
    cases hb.symm.trans hb'
    exact hr

/-- **The index is in order**, for sorted entries with different names. -/
theorem Opened.indexed (h : Opened o bs offs m) (hsorted : (bs.map Block.entry).Pairwise entryLe)
    (hnodup : (bs.map fun b => b.entry.name).Nodup) : Indexed m := by
  have hcount : indexCount m.base = bs.length := h.packed.count
  constructor
  · intro i hi
    obtain ⟨b, off, -, hr, -⟩ := h.row (hcount ▸ hi)
    rw [hr.hash, hr.name, Entry.hash]
  · intro i j hij hj
    obtain ⟨b, off, hb, hr, -⟩ := @Opened.row _ _ _ _ h i (by omega)
    obtain ⟨b', off', hb', hr', -⟩ := @Opened.row _ _ _ _ h j (by omega)
    rw [hr.hash, hr'.hash]
    obtain rfl | hlt := Nat.eq_or_lt_of_le hij
    · cases hb.symm.trans hb'
      exact le_rfl
    · have hle := pairwise_getElem? hsorted hlt
        (by rw [getElem?_map, hb, map_some]) (by rw [getElem?_map, hb', map_some])
      obtain hl | ⟨he, -⟩ := hle
      · exact hl.le
      · exact he.le
  · intro i j hi hj hname
    obtain ⟨b, off, hb, hr, -⟩ := @Opened.row _ _ _ _ h i (by omega)
    obtain ⟨b', off', hb', hr', -⟩ := @Opened.row _ _ _ _ h j (by omega)
    rw [hr.name, hr'.name] at hname
    by_contra hne
    obtain hlt | hlt := Nat.lt_or_gt_of_ne hne
    · exact pairwise_getElem? hnodup hlt (by rw [getElem?_map, hb, map_some])
        (by rw [getElem?_map, hb', map_some]) hname
    · exact pairwise_getElem? hnodup hlt (by rw [getElem?_map, hb', map_some])
        (by rw [getElem?_map, hb, map_some]) hname.symm

/-- A packed entry is found, and its stored bytes are handed out. -/
theorem Opened.search (h : Opened o bs offs m) (hm : Indexed m) (hb : b ∈ bs) :
    ∃ i off, Records m.v2 (m.entry i) b off ∧ msysFind m b.entry.name = .found i ∧
      msysSearch m b.entry.name = .ok b.stored := by
  obtain ⟨i, hi⟩ := mem_iff_getElem?.mp hb
  obtain ⟨hlt, -⟩ := List.getElem?_eq_some_iff.mp hi
  obtain ⟨b', off, hb', hr, hat⟩ := h.row hlt
  cases hi.symm.trans hb'
  have hfind := @Indexed.msysFind _ hm i (by rw [h.packed.count]; exact hlt)
  rw [hr.name] at hfind
  have hin : entryDoff (m.entry i) + entryDsize (m.entry i) ≤ m.base.length := by
    rw [hr.doff, hr.dsize]
    exact hat.le_length
  have hdata : entryData m (m.entry i) = b.stored := by
    rw [entryData, hr.doff]
    exact hat.slice_eq hr.dsize.symm
  exact ⟨i, off, hr, hfind, hdata ▸ msysSearch_of_found hfind hin⟩

/-- The stream of an archive: the blocks that are not metadata, in the order of the index. -/
theorem Opened.stream (h : Opened o bs offs m) :
    m.entries.filterMap (streamEntry m) =
      (bs.filter fun b => !b.entry.isMeta).map fun b => ⟨b.entry.name, b.stored⟩ := by
  have hdata := h.packed.data
  have hmem : ∀ e ∈ m.entries, entryLen m.v2 e ≤ e.length := fun e he => Msys.entryLen_le he
  have hrows := h.entries
  generalize m.entries = es at hmem hrows
  clear h
  induction hdata generalizing es with
  | nil =>
    rw [forall₂_nil_right_iff.mp hrows]
    rfl
  | @cons b off bs offs hat _ ih =>
    rw [zip_cons_cons] at hrows
    obtain _ | ⟨hr, hrest⟩ := hrows
    next e es =>
      have hslice : slice e (entryFixed m.v2) b.entry.name.length = b.entry.name := by
        rw [← hr.nlen]
        exact hr.name
      have hmeta : isMetadata m.v2 e = b.entry.isMeta := by
        rw [isMetadata_of_name hr.nlen hslice, Entry.isMeta]
      have hentry : streamEntry m e =
          if b.entry.isMeta then none else some ⟨b.entry.name, b.stored⟩ := by
        have hin : ¬ m.base.length < entryDoff e + entryDsize e := by
          rw [hr.doff, hr.dsize]
          exact Nat.not_lt.mpr hat.le_length
        rw [streamEntry, if_neg hin, hmeta, hr.name, entryData, hr.doff,
          hat.slice_eq hr.dsize.symm]
      have htail := ih es (fun x hx => hmem x (mem_cons_of_mem _ hx)) hrest
      rw [filterMap_cons, hentry, htail]
      cases hm : b.entry.isMeta <;> simp [hm]

end

/-! ### The round trip -/

/-- The codec in use gives back what it made of the entries' data, and its output is not empty. -/
structure CodecOk (P : PackLibs) (L : Libs) (o : PackOptions) (c : List Entry) : Prop where
  zlib : o.compress = some .zlib → ∀ e ∈ c,
    L.decompressZlib (P.zlibCompress e.data) = some e.data ∧ P.zlibCompress e.data ≠ []
  zstd : o.compress = some .zstd → ∀ e ∈ c, ∀ out, P.zstdCompress e.data = some out →
    L.decompressZstd out = some e.data ∧ out ≠ []

/-- What the packer does not get wrong: names, the generated ones too, fit the name length of the
format and are different; regular files are below 2 GiB and, in a compressed archive, empty or made
shorter; a streamed archive has no empty entry and a deduplicated one no duplicate; the counts and
offsets fit their fields. -/
structure PackOk (P : PackLibs) (o : PackOptions) (c : List Entry) : Prop where
  names : ∀ e ∈ addMetadata c, e.name.length < 256 ^ (if o.v2 then 1 else 2)
  fresh : ∀ e ∈ c, ∀ f ∈ c, f.isMeta = false → e.name ≠ mtName f.name
  small : ∀ e ∈ c, e.fileType = msysFileReg → e.data.length < 2 ^ 31
  shrinks : o.compress ≠ none → ∀ e ∈ c, e.fileType = msysFileReg → e.data ≠ [] →
    (compressedBlock P o e.data).isSome
  streaming : o.v2 = true → o.streaming = true → ∀ e ∈ c, e.data ≠ []
  dedup : o.v2 = true → o.dedup = true → ∀ e ∈ addMetadata c, ∀ f ∈ addMetadata c,
    f.name ≠ e.name → entryLe f e → ¬ Duplicate f e
  count : (addMetadata c).length < 256 ^ 4
  total : (pack P o c).length < 256 ^ 6

theorem isMeta_mtEntry (e : Entry) : (mtEntry e).isMeta = true := rfl

/-- The packed entries that are not metadata are the collected ones. -/
theorem filter_addMetadata (c : List Entry) :
    (addMetadata c).filter (fun e => !e.isMeta) = c.filter fun e => !e.isMeta := by
  have hmt : ((c.filter fun e => !e.isMeta).map mtEntry).filter (fun e => !e.isMeta) = [] := by
    rw [filter_eq_nil_iff]
    intro e he
    obtain ⟨f, -, rfl⟩ := mem_map.mp he
    rw [isMeta_mtEntry]
    decide
  rw [addMetadata, filter_append, hmt, append_nil]

/-- The packed names are different. -/
theorem PackOk.nodup (hok : PackOk P o c)
    (hnodup : (c.map Entry.name).Nodup) : ((addMetadata c).map Entry.name).Nodup := by
  rw [addMetadata, map_append, nodup_append]
  refine ⟨hnodup, ?_, ?_⟩
  · have hmap : ((c.filter fun e => !e.isMeta).map mtEntry).map Entry.name =
        ((c.filter fun e => !e.isMeta).map Entry.name).map mtName := by
      rw [List.map_map, List.map_map]
      rfl
    rw [hmap]
    refine List.Nodup.map ?_ (hnodup.sublist (filter_sublist.map _))
    intro a b hab
    exact append_cancel_left hab
  · intro a ha b hb hab
    obtain ⟨e, he, rfl⟩ := mem_map.mp ha
    obtain ⟨x, hx, rfl⟩ := mem_map.mp hb
    obtain ⟨f, hf, rfl⟩ := mem_map.mp hx
    obtain ⟨hfc, hmeta⟩ := mem_filter.mp hf
    exact hok.fresh e he f hfc (by simpa using hmeta) hab

theorem mem_addMetadata (he : e ∈ addMetadata c) :
    e ∈ c ∨ e.data.length = 8 := by
  obtain he | he := mem_append.mp he
  · exact Or.inl he
  · obtain ⟨f, -, rfl⟩ := mem_map.mp he
    exact Or.inr (length_leBytes 8 _)

/-- The blocks of an archive of either format. -/
def packBlocks (P : PackLibs) (o : PackOptions) (c : List Entry) : List Block :=
  blocksFrom P o (o.v2 && o.dedup) [] (sortEntries (addMetadata c))

theorem packBlocks_entries (P : PackLibs) (o : PackOptions) (c : List Entry) :
    (packBlocks P o c).map Block.entry = sortEntries (addMetadata c) :=
  map_entry_blocksFrom _ _ _ _ _

theorem length_packBlocks (P : PackLibs) (o : PackOptions) (c : List Entry) :
    (packBlocks P o c).length = (addMetadata c).length := by
  rw [← length_map Block.entry, packBlocks_entries, sortEntries, length_insertionSort]

theorem entry_mem (hb : b ∈ packBlocks P o c) : b.entry ∈ addMetadata c := by
  rw [← mem_sortEntries, ← packBlocks_entries P o c]
  exact mem_map_of_mem hb

/-- Both loops agree about every block. -/
theorem PackOk.fits {P : PackLibs} {o : PackOptions} {c : List Entry} (hok : PackOk P o c)
    (hnodup : (c.map Entry.name).Nodup) {b : Block} (hb : b ∈ packBlocks P o c) :
    Fits (o.v2 && o.streaming) b := by
  have hmem := entry_mem hb
  constructor
  · refine blocksFrom_own (fun hdedup => ?_) hb
    obtain ⟨hv, hd⟩ := and_eq_true_iff.mp hdedup
    rw [nil_append]
    have hne : (sortEntries (addMetadata c)).Pairwise fun f e => f.name ≠ e.name := by
      have hperm := (perm_insertionSort entryLe (addMetadata c)).map Entry.name
      exact pairwise_map.mp (hperm.nodup_iff.mpr (hok.nodup hnodup))
    refine (hne.and (pairwise_sortEntries _)).imp_of_mem fun hf he h => ?_
    exact hok.dedup hv hd _ (mem_sortEntries.mp he) _ (mem_sortEntries.mp hf) h.1 h.2
  · intro hempty
    refine ⟨?_, by rw [stored_of_mem hb, storedBytes_empty hempty]⟩
    by_contra hs
    obtain ⟨hv, hst⟩ := and_eq_true_iff.mp (eq_true_of_not_eq_false hs)
    obtain hc | h8 := mem_addMetadata hmem
    · exact hok.streaming hv hst _ hc hempty
    · rw [hempty] at h8
      cases h8
  · have h := hok.names _ hmem
    cases hv : o.v2 <;> simp [hv] at h <;> omega

/-- The file that is packed, as the reader sees it. -/
theorem PackOk.packed (hok : PackOk P o c) (hnodup : (c.map Entry.name).Nodup) :
    ∃ offs, Packed o (pack P o c) (packBlocks P o c) offs := by
  have hfits := fun b => @PackOk.fits P o c hok hnodup b
  have hcount : (packBlocks P o c).length < 256 ^ 4 := (length_packBlocks P o c).symm ▸ hok.count
  have htotal := hok.total
  rw [pack] at htotal ⊢
  cases hv : o.v2 with
  | false =>
    rw [hv, if_neg Bool.false_ne_true] at htotal
    rw [hv] at hfits
    rw [if_neg Bool.false_ne_true]
    exact ⟨_, packed_v1 (by rw [packBlocks, hv]; rfl) hv hfits hcount htotal⟩
  | true =>
    rw [hv, if_pos rfl] at htotal
    rw [hv] at hfits
    rw [if_pos rfl]
    exact ⟨_, packed_v2 (by rw [packBlocks, hv]; rfl) hv hfits hcount htotal⟩

/-- The numbers of every block fit in its index entry. -/
theorem PackOk.fitsIndex (hok : PackOk P o c)
    (hsize : ∀ e ∈ c, e.data.length < 2 ^ 32) {offs : List Nat}
    (hp : Packed o (pack P o c) (packBlocks P o c) offs) :
    List.Forall₂ (FitsIndex o.v2) (packBlocks P o c) offs := by
  have hall : ∀ b ∈ packBlocks P o c, b ∈ packBlocks P o c := fun _ hb => hb
  refine ((forall₂_and_left _ _).mpr ⟨hall, hp.data⟩).imp ?_
  rintro b off ⟨hb, hat⟩
  have hle := hat.le_length
  have htotal := hok.total
  refine ⟨by omega, ?_, hok.names _ (entry_mem hb)⟩
  have hstored := length_storedBytes_le P o b.entry
  rw [← stored_of_mem hb] at hstored
  obtain hc | h8 := mem_addMetadata (entry_mem hb)
  · have := hsize _ hc
    omega
  · omega

theorem Loaded.of_small {buf : Bytes} (h : buf.length < 2 ^ 31) :
    Loaded.of buf = ⟨buf.length, buf⟩ := by
  have hbmod : (buf.length : Int).bmod (2 ^ 32) = buf.length := by
    exact Int.bmod_eq_of_le (by omega) (by omega)
  unfold Loaded.of
  rw [hbmod]

/-- A regular file's stored bytes are loaded as its data. -/
theorem loadData_stored {L : Libs} {m : Msys} {offs : List Nat} (hok : PackOk P o c)
    (hcodec : CodecOk P L o c) (hp : Packed o m.base bs offs) (he : e ∈ c)
    (hreg : e.fileType = msysFileReg) :
    loadData L m (storedBytes P o e) = some ⟨e.data.length, e.data⟩ := by
  have hof := Loaded.of_small (hok.small e he hreg)
  by_cases hempty : e.data = []
  · -- nothing is stored, and nothing is loaded
    rw [storedBytes_empty hempty, loadData, isEmpty_nil, if_pos rfl, ← hof, hempty, ite_self]
  · rw [loadData, decompress, hp.zlib, hp.zstd]
    cases hc : o.compress with
    | none =>
      have hraw : storedBytes P o e = e.data := by
        rw [storedBytes, compressedBlock, codecOutput, hc]
        split <;> rfl
      rw [hraw, ← hof]
      rfl
    | some codec =>
      obtain ⟨out, hout⟩ := isSome_iff_exists.mp
        (hok.shrinks (by simp [hc]) e he hreg hempty)
      have hstored : storedBytes P o e = out := by rw [storedBytes, hout, getD_some]
      have hcomp : codecOutput P o e.data = some out := by
        rw [compressedBlock] at hout
        split at hout
        · cases hout
        · exact (filter_eq_some_iff.mp hout).1
      rw [hstored, ← hof]
      rw [codecOutput, hc] at hcomp
      cases codec with
      | zlib =>
        obtain ⟨hdec, hne⟩ := hcodec.zlib hc e he
        cases hcomp
        simp [hdec, hne]
      | zstd =>
        obtain ⟨hdec, hne⟩ := hcodec.zstd hc e he out hcomp
        simp [hdec, hne]

/-- The codec of the examples: what zlib makes of the data in them. -/
def exampleZlib : List (Bytes × Bytes) :=
  [(replicate 30 0x61, [120, 156, 75, 76, 196, 7, 0, 176, 79, 11, 95]),
   ([0x61], [120, 156, 75, 4, 0, 0, 98, 0, 98]),
   (replicate 8 0, [120, 156, 99, 96, 128, 0, 0, 0, 8, 0, 1]),
   ([0x78], [120, 156, 171, 0, 0, 0, 121, 0, 121])]

/-- mkmsys with the codec of the examples. -/
def examplePack : PackLibs where
  zlibCompress data := (exampleZlib.find? fun p => p.1 = data).elim [] Prod.snd
  zstdCompress _ := none
  ed25519Sign _ _ := []

/-- msys with the codec of the examples. -/
def exampleUnpack : Libs where
  decompressZlib data := (exampleZlib.find? fun p => p.2 = data).map Prod.fst
  decompressZstd _ := none
  ed25519Verify _ _ _ := false

/-- What loading the file `name` from the bytes of an archive gives. -/
def loadFrom (L : Libs) (file name : Bytes) : Option Loaded :=
  (msysOpen file).toOption.bind fun m => msysLoad L m name

/-- Entries with distinct names whose archive is not opened, or not read back as it was packed. -/
def Unreadable (o : PackOptions) (c : List Entry) : Prop :=
  (c.map Entry.name).Nodup ∧ ¬ ∃ m, msysOpen (pack examplePack o c) = .ok m ∧
    ∀ e ∈ c, e.fileType = msysFileReg → msysLoad exampleUnpack m e.name = some ⟨e.data.length, e.data⟩

theorem unreadable_of_load (hnodup : (c.map Entry.name).Nodup) (he : e ∈ c)
    (hreg : e.fileType = msysFileReg)
    (hne : loadFrom exampleUnpack (pack examplePack o c) e.name ≠ some ⟨e.data.length, e.data⟩) :
    Unreadable o c := by
  refine ⟨hnodup, ?_⟩
  rintro ⟨m, hopen, hall⟩
  rw [loadFrom, hopen] at hne
  exact hne (hall e he hreg)

end MeuOS.Sysroot
