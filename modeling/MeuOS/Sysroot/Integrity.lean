import MeuOS.Sysroot.Msys

namespace MeuOS.Sysroot

open MeuOS.Lib List

/-!
# What the checks of an `.msys` archive establish

* `entries_eq_of_indexBlock` — the index block determines the entries: each says itself how long it
  is;
* `verifyEntries_eq_ok`, `verifyEntries_error` — `msys_verify_all` over an archive;
* `loadDepth_eq` — two archives with the same entries whose contents are verified load alike;
* `msys_integrity` — both together.
-/

/-! ### An entry is read from its own bytes -/

/-- The bytes of an entry in the file. -/
def entryRaw (v2 : Bool) (e : Bytes) : Bytes := e.take (entryLen v2 e)

variable {e content name : Bytes} {n : Nat} {m : Msys} {L : Libs}

theorem readLe_take {off k : Nat} (h : off + k ≤ n) :
    readLe (e.take n) off k = readLe e off k := by
  have hmin : min k (n - off) = k := by omega
  rw [readLe, readLe, slice, slice, drop_take, take_take, hmin]

theorem entryFixed_le (v2 : Bool) (e : Bytes) : entryFixed v2 ≤ entryLen v2 e := by
  rw [entryLen]
  omega

theorem entryName_le (v2 : Bool) (e : Bytes) :
    entryFixed v2 + entryNlen v2 e ≤ entryLen v2 e := by
  rw [entryLen]
  omega

theorem readLe_entryRaw {v2 : Bool} {off k : Nat} (h : off + k ≤ entryFixed v2) :
    readLe (entryRaw v2 e) off k = readLe e off k :=
  readLe_take (h.trans (entryFixed_le v2 e))

theorem entryHash_raw (v2 : Bool) (e : Bytes) : entryHash (entryRaw v2 e) = entryHash e :=
  readLe_entryRaw (by cases v2 <;> decide)

theorem entryDsize_raw (v2 : Bool) (e : Bytes) : entryDsize (entryRaw v2 e) = entryDsize e :=
  readLe_entryRaw (by cases v2 <;> decide)

theorem entryUsize_raw (e : Bytes) : entryUsize (entryRaw true e) = entryUsize e :=
  readLe_entryRaw (by decide)

theorem entryType_raw (e : Bytes) : entryType (entryRaw true e) = entryType e :=
  readLe_entryRaw (by decide)

theorem entryNlen_raw (v2 : Bool) (e : Bytes) : entryNlen v2 (entryRaw v2 e) = entryNlen v2 e := by
  cases v2 <;> exact readLe_entryRaw (by decide)

/-- The name test looks at the entry's own bytes. -/
theorem isNamed_raw (v2 : Bool) (e name : Bytes) :
    isNamed v2 (entryRaw v2 e) name = isNamed v2 e name := by
  rw [isNamed, isNamed, entryNlen_raw]
  by_cases hlen : entryNlen v2 e = name.length
  · have hle : name.length ≤ entryLen v2 e - entryFixed v2 := by
      have := entryName_le v2 e
      omega
    rw [slice, slice, entryRaw, drop_take, take_take, Nat.min_eq_left hle]
  · simp [hlen]

/-- So does the recorded hash. -/
theorem entryStored_raw (h : entryHashed e = true) :
    entryStored (entryRaw true e) = entryStored e := by
  have hle : 32 ≤ entryLen true e - (32 + entryNlen true e) := by
    have hl : entryLen true e = 32 + entryNlen true e + 32 := by simp [entryLen, entryFixed, h]
    omega
  rw [entryStored, entryStored, entryNlen_raw, slice, slice, entryRaw, drop_take,
    take_take, Nat.min_eq_left hle]

theorem entryLen_take (e : Bytes) (h : 32 ≤ n) :
    entryLen true (e.take n) = entryLen true e := by
  rw [entryLen, entryLen, entryHashed, entryHashed, entryNlen, entryNlen, if_pos rfl, if_pos rfl,
    readLe_take (by omega), readLe_take (by omega)]

/-! ### The index block -/

/-- Pieces that each say in their first 32 bytes how long they are can be cut apart again. -/
theorem flatten_entries_inj {rs rs' : List Bytes} (hr : ∀ r ∈ rs, r.length = entryLen true r)
    (hr' : ∀ r ∈ rs', r.length = entryLen true r) (h : rs.flatten = rs'.flatten) : rs = rs' := by
  have hpos : ∀ r : Bytes, r.length = entryLen true r → 32 ≤ r.length := by
    intro r hlen
    rw [hlen]
    exact entryFixed_le true r
  induction rs generalizing rs' with
  | nil =>
    obtain _ | ⟨r', rs'⟩ := rs'
    · rfl
    · have hz := congrArg length h
      have := hpos r' (hr' r' mem_cons_self)
      rw [flatten_nil, flatten_cons, length_append, length_nil] at hz
      omega
  | cons r rs ih =>
    obtain _ | ⟨r', rs'⟩ := rs'
    · have hz := congrArg length h
      have := hpos r (hr r mem_cons_self)
      rw [flatten_nil, flatten_cons, length_append, length_nil] at hz
      omega
    · have h1 := hr r mem_cons_self
      have h1' := hr' r' mem_cons_self
      have h32 := hpos r h1
      have h32' := hpos r' h1'
      rw [flatten_cons, flatten_cons] at h
      -- both begin with the same 32 bytes, so both are equally long
      have hhead : r.take 32 = r'.take 32 := by
        calc r.take 32 = (r ++ rs.flatten).take 32 := (take_append_of_le_length h32).symm
          _ = r'.take 32 := by rw [h, take_append_of_le_length h32']
      have hlen : r.length = r'.length := by
        rw [h1, h1', ← entryLen_take r le_rfl, hhead, entryLen_take r' le_rfl]
      obtain ⟨hreq, hrest⟩ := append_inj h hlen
      rw [hreq, ih (fun x hx => hr x (mem_cons_of_mem _ hx))
        (fun x hx => hr' x (mem_cons_of_mem _ hx)) hrest]

/-- The bytes that the walk of `msys_verify_signature` takes are those of the entries. -/
theorem take_indexSize {p : Bytes} {es : List Bytes} (h : walkIndex true n p = some es) :
    p.take (indexSize n p) = (es.map (entryRaw true)).flatten := by
  induction n generalizing p es with
  | zero =>
    cases h
    simp [indexSize]
  | succ n ih =>
    rw [walkIndex] at h
    split at h
    · cases h
    next hfix =>
      split at h
      · cases h
      next hlen =>
        obtain ⟨rest, hrest, rfl⟩ := Option.map_eq_some_iff.mp h
        have hfix' : ¬ p.length < 32 := hfix
        rw [indexSize, if_neg hfix', if_neg hlen, map_cons, flatten_cons, ← ih hrest,
          entryRaw, take_add]

theorem indexBlock_eq (hv : m.v2 = true) :
    indexBlock m = (m.entries.map (entryRaw true)).flatten :=
  take_indexSize (hv ▸ m.walked)

/-- **The index block determines the entries.** -/
theorem entries_eq_of_indexBlock {a b : Msys} (ha : a.v2 = true) (hb : b.v2 = true)
    (h : indexBlock a = indexBlock b) :
    a.entries.map (entryRaw true) = b.entries.map (entryRaw true) := by
  have hraw : ∀ m : Msys, m.v2 = true → ∀ r ∈ m.entries.map (entryRaw true),
      r.length = entryLen true r := by
    intro m hm r hr
    obtain ⟨e, he, rfl⟩ := mem_map.mp hr
    have hle : entryLen true e ≤ e.length := entryLen_le_of_mem (hm ▸ m.walked) e he
    rw [entryRaw, entryLen_take e (entryFixed_le true e), length_take, Nat.min_eq_left hle]
  rw [indexBlock_eq ha, indexBlock_eq hb] at h
  exact flatten_entries_inj (hraw a ha) (hraw b hb) h

/-! ### `msys_verify_all` -/

/-- The walk of `msys_verify_all` comes to the content of an entry: its bytes are in the file, the
string at its name leads to them, and they decompress where their size is not the original one. -/
structure Reached (L : Libs) (m : Msys) (e content : Bytes) : Prop where
  inside : entryDoff e + entryDsize e ≤ m.base.length
  found : msysSearch m (cString (e.drop (entryFixed m.v2))) = .ok (entryData m e)
  opened : hashedContent L m e (entryData m e) = some content

theorem Reached.content_eq (hr : Reached L m e content)
    (hsize : entryDsize e = entryUsize e) : content = entryData m e := by
  have hlen : (entryData m e).length = entryDsize e := length_slice _ hr.inside
  have h := hr.opened
  rw [hashedContent, hlen, if_neg (not_not.mpr hsize)] at h
  exact (Option.some.inj h).symm

/-- The walk either ends well or with `EIO`. -/
theorem verifyEntries_error (L : Libs) (m : Msys) (es : List Bytes) :
    verifyEntries L m es = .ok () ∨ verifyEntries L m es = .error .eio := by
  induction es with
  | nil => exact Or.inl rfl
  | cons e es ih =>
    rw [verifyEntries]
    split
    · exact ih
    · split
      · split
        · exact ih
        · split
          · exact ih
          · split
            · exact ih
            · exact Or.inr rfl
      · exact ih

/-- If the walk ends well, every entry that it reached has the recorded hash. -/
theorem verifyEntries_ok {es : List Bytes} (h : verifyEntries L m es = .ok ()) (he : e ∈ es)
    (hmeta : isMetadata m.v2 e = false) (hv : (m.v2 && entryHashed e) = true)
    (hr : Reached L m e content) : entryStored e = sha256 content := by
  induction es with
  | nil => exact absurd he not_mem_nil
  | cons x es ih =>
    rw [verifyEntries] at h
    obtain rfl | he := mem_cons.mp he
    · rw [if_neg (by simp [hmeta]), if_pos hv, hr.found] at h
      dsimp only at h
      rw [hr.opened] at h
      dsimp only at h
      by_contra hne
      rw [if_neg hne] at h
      cases h
    · -- the walk went on behind `x`, whichever way
      have hrest : verifyEntries L m es = .ok () := by
        split at h
        · exact h
        · split at h
          · split at h
            · exact h
            · split at h
              · exact h
              · split at h
                · exact h
                · cases h
          · exact h
      exact ih hrest he

/-! ### Two archives with one index -/

section

variable {L : Libs} {a b : Msys}

/-- The two archives agree entry by entry. -/
theorem entry_raw_eq (h : a.entries.map (entryRaw true) = b.entries.map (entryRaw true)) (i : Nat) :
    entryRaw true (a.entry i) = entryRaw true (b.entry i) := by
  have hraw : ∀ m : Msys, (m.entries.map (entryRaw true)).getD i [] = entryRaw true (m.entry i) := by
    intro m
    rw [Msys.entry, getD_eq_getElem?_getD, getD_eq_getElem?_getD, getElem?_map]
    cases m.entries[i]? with
    | none => simp [entryRaw]
    | some e => rfl
  rw [← hraw a, h, hraw b]

/-- So every search comes to the same entry. -/
theorem msysFind_eq (ha : a.v2 = true) (hb : b.v2 = true)
    (h : a.entries.map (entryRaw true) = b.entries.map (entryRaw true)) (name : Bytes) :
    msysFind a name = msysFind b name := by
  have hcount : indexCount a.base = indexCount b.base := by
    rw [← a.length_entries, ← b.length_entries, ← length_map (entryRaw true), h,
      length_map]
  have hkey : (fun i => entryHash (a.entry i)) = fun i => entryHash (b.entry i) := by
    ext i
    rw [← entryHash_raw true, entry_raw_eq h, entryHash_raw]
  have hhit : (fun i => isNamed a.v2 (a.entry i) name) = fun i => isNamed b.v2 (b.entry i) name := by
    ext i
    rw [ha, hb, ← isNamed_raw, entry_raw_eq h, isNamed_raw]
  rw [msysFind, msysFind, hkey, hhit, hcount]

theorem not_metadata_of_named {v2 : Bool} (h : isNamed v2 e name = true)
    (hname : name.head? ≠ some 0x40) : isMetadata v2 e = false := by
  obtain ⟨hlen, hmem⟩ := Bool.and_eq_true_iff.mp h
  rw [isMetadata_of_name (of_decide_eq_true hlen) (of_decide_eq_true hmem)]
  exact decide_eq_false hname

/-- Contents with one hash, in archives whose data is read alike, are loaded alike. -/
theorem loadData_eq {e' : Bytes} (hz : hasZlib a.base = hasZlib b.base)
    (hs : hasZstd a.base = hasZstd b.base) (hraw : entryRaw true e = entryRaw true e')
    (hr : Reached L a e content) (hr' : Reached L b e' content) :
    loadData L a (entryData a e) = loadData L b (entryData b e') := by
  have hdsize : entryDsize e = entryDsize e' := by
    rw [← entryDsize_raw true, hraw, entryDsize_raw]
  have husize : entryUsize e = entryUsize e' := by
    rw [← entryUsize_raw, hraw, entryUsize_raw]
  have hlen : (entryData a e).length = entryDsize e := length_slice _ hr.inside
  have hlen' : (entryData b e').length = entryDsize e' := length_slice _ hr'.inside
  have hdec : ∀ data, decompress L a data = decompress L b data := by
    intro data
    rw [decompress, decompress, hz, hs]
  have h1 := hr.opened
  have h2 := hr'.opened
  rw [hashedContent, hlen] at h1
  rw [hashedContent, hlen', ← hdsize, ← husize] at h2
  by_cases hsize : entryDsize e = entryUsize e
  · -- stored as they are: the bytes themselves were hashed
    rw [if_neg (not_not.mpr hsize)] at h1 h2
    have hdata : entryData a e = entryData b e' :=
      (Option.some.inj h1).trans (Option.some.inj h2).symm
    rw [hdata, loadData, loadData, hz, hs, hdec]
  · rw [if_pos hsize] at h1 h2
    have hempty : (entryData a e).isEmpty = (entryData b e').isEmpty := by
      rw [Bool.eq_iff_iff, isEmpty_iff_length_eq_zero, isEmpty_iff_length_eq_zero, hlen,
        hlen', hdsize]
    rw [loadData, loadData, h1, h2, hempty, ← hz, ← hs]
    split
    · rfl
    next hflags =>
      -- without a codec nothing decompresses
      rw [Bool.or_eq_true, not_or] at hflags
      rw [decompress, if_neg hflags.1, if_neg hflags.2] at h1
      cases h1

/-- Every entry that is not metadata has a hash and is reached, and every symbolic link is stored as
it is and does not lead to metadata. -/
structure Covered (L : Libs) (m : Msys) : Prop where
  reached : ∀ e ∈ m.entries, isMetadata m.v2 e = false →
    entryHashed e = true ∧ ∃ content, Reached L m e content
  links : ∀ e ∈ m.entries, isMetadata m.v2 e = false → entryType e = msysFileSymlink →
    entryDsize e = entryUsize e ∧ (linkTarget (entryData m e)).head? ≠ some 0x40

/-- No two contents of the archives have the same SHA-256. -/
def CollisionFree (L : Libs) (a b : Msys) : Prop :=
  ∀ ea ∈ a.entries, ∀ eb ∈ b.entries, ∀ ca cb, Reached L a ea ca → Reached L b eb cb →
    sha256 ca = sha256 cb → ca = cb

end

section

variable {L : Libs} {a b : Msys}

/-- **Two verified archives with the same entries load alike**, through any number of links. -/
theorem loadDepth_eq (ha : a.v2 = true) (hb : b.v2 = true)
    (hentries : a.entries.map (entryRaw true) = b.entries.map (entryRaw true))
    (hz : hasZlib a.base = hasZlib b.base) (hs : hasZstd a.base = hasZstd b.base)
    (hca : Covered L a) (hcb : Covered L b) (hfree : CollisionFree L a b)
    (hva : msysVerifyAll L a = .ok ()) (hvb : msysVerifyAll L b = .ok ()) (depth : Nat)
    (hname : name.head? ≠ some 0x40) :
    msysLoadDepth L a depth name = msysLoadDepth L b depth name := by
  -- whatever the name leads to, it has the same verified content in both
  have hfound : ∀ {i : Nat} {name : Bytes}, name.head? ≠ some 0x40 → msysFind a name = .found i →
      ∃ content, Reached L a (a.entry i) content ∧ Reached L b (b.entry i) content := by
    intro i name hname hi
    obtain ⟨hmem, hnamed⟩ := msysFind_found hi
    obtain ⟨hmem', hnamed'⟩ := msysFind_found ((msysFind_eq ha hb hentries name).symm.trans hi)
    have hmeta := not_metadata_of_named hnamed hname
    have hmeta' := not_metadata_of_named hnamed' hname
    obtain ⟨hh, ca, hra⟩ := hca.reached _ hmem hmeta
    obtain ⟨hh', cb, hrb⟩ := hcb.reached _ hmem' hmeta'
    have hsa := verifyEntries_ok hva hmem hmeta (by rw [ha, hh]; rfl) hra
    have hsb := verifyEntries_ok hvb hmem' hmeta' (by rw [hb, hh']; rfl) hrb
    have hstored : entryStored (a.entry i) = entryStored (b.entry i) := by
      rw [← entryStored_raw hh, entry_raw_eq hentries, entryStored_raw hh']
    obtain rfl := hfree _ hmem _ hmem' ca cb hra hrb (hsa.symm.trans (hstored.trans hsb))
    exact ⟨ca, hra, hrb⟩
  induction depth generalizing name with
  | zero =>
    rw [msysLoadDepth, msysLoadDepth, msysSearch, msysSearch, ← msysFind_eq ha hb hentries]
    cases hf : msysFind a name with
    | found i =>
      obtain ⟨content, hra, hrb⟩ := hfound hname hf
      dsimp only
      rw [if_neg (Nat.not_lt.mpr hra.inside), if_neg (Nat.not_lt.mpr hrb.inside)]
      exact loadData_eq hz hs (entry_raw_eq hentries i) hra hrb
    | collision => rfl
    | absent => rfl
  | succ depth ih =>
    rw [msysLoadDepth, msysLoadDepth, msysSearch, msysSearch, ← msysFind_eq ha hb hentries, ha, hb]
    cases hf : msysFind a name with
    | found i =>
      obtain ⟨content, hra, hrb⟩ := hfound hname hf
      have hraw := entry_raw_eq hentries i
      dsimp only
      rw [if_neg (Nat.not_lt.mpr hra.inside), if_neg (Nat.not_lt.mpr hrb.inside)]
      dsimp only
      have htype : entryType (a.entry i) = entryType (b.entry i) := by
        rw [← entryType_raw, hraw, entryType_raw]
      rw [← htype]
      split
      next hlink =>
        -- a link is stored as it is, so its verified content is the target
        obtain ⟨hmem, hnamed⟩ := msysFind_found hf
        obtain ⟨hmem', hnamed'⟩ := msysFind_found ((msysFind_eq ha hb hentries name).symm.trans hf)
        obtain ⟨hsize, htarget⟩ := hca.links _ hmem (not_metadata_of_named hnamed hname) hlink
        obtain ⟨hsize', -⟩ := hcb.links _ hmem' (not_metadata_of_named hnamed' hname)
          (htype.symm.trans hlink)
        have hdata : entryData a (a.entry i) = entryData b (b.entry i) :=
          (hra.content_eq hsize).symm.trans (hrb.content_eq hsize')
        rw [← hdata]
        exact ih htarget
      next => exact loadData_eq hz hs hraw hra hrb
    | collision => rfl
    | absent => rfl

end

/-! ### Archives -/

set_option maxRecDepth 20000

/-- An archive with one entry "a" whose data is "y" and whose recorded hash is that of "x". -/
def forgedFile : Bytes :=
  [77, 115, 121, 115, 50, 0, 0, 0, 76, 0, 0, 0, 0, 0, 0, 0, 1, 0, 0, 0, 0, 0, 0, 0, 0, 0, 0, 0, 0,
   0, 0, 0, 0, 0, 0, 0, 0, 0, 0, 0, 1, 0, 0, 0, 0, 0, 0, 0, 5, 76, 39, 89, 20, 212, 119, 255, 0, 0,
   0, 0, 0, 0, 0, 0, 0, 0, 0, 0, 0, 0, 0, 0, 121, 0, 0, 0, 44, 41, 12, 228, 72, 0, 0, 0, 0, 0, 1, 0,
   0, 0, 1, 0, 0, 0, 0, 0, 164, 1, 0, 0, 0, 0, 0, 0, 0, 0, 1, 1, 97, 45, 113, 22, 66, 183, 38, 176,
   68, 1, 98, 124, 169, 251, 172, 50, 245, 200, 83, 15, 177, 144, 60, 196, 219, 2, 37, 135, 23, 146,
   26, 72, 129]

/-- The archive of `forgedFile`. -/
def forged : Msys := ⟨forgedFile, true, [forgedFile.drop 76], by decide⟩

/-- A zlib stream of "hja"; its SHA-256 begins with a NUL. -/
def zlibStream : Bytes := [120, 218, 203, 200, 74, 4, 0, 2, 112, 1, 52]

/-- A public key. -/
def signerKey : Bytes :=
  [3, 161, 7, 191, 243, 206, 16, 190, 29, 112, 221, 24, 231, 75, 192, 153, 103, 228, 214, 48, 155,
   165, 13, 95, 29, 220, 134, 100, 18, 85, 49, 184]

/-- A signature of the index block of `signedFile` under `signerKey`. -/
def indexSignature : Bytes :=
  [48, 180, 172, 193, 212, 13, 52, 116, 192, 200, 47, 171, 214, 146, 149, 159, 101, 77, 32, 158,
   253, 177, 118, 230, 251, 168, 68, 100, 52, 153, 235, 132, 191, 151, 54, 31, 35, 117, 184, 108,
   127, 244, 155, 145, 156, 106, 105, 157, 11, 180, 171, 70, 116, 63, 19, 88, 2, 66, 138, 102, 8,
   91, 91, 14]

/-- A signed archive with these flags and one entry "a", which holds `zlibStream` as it is. -/
def signedFile (flags : Nat) : Bytes :=
  [77, 115, 121, 115, 50, 0, 0, 0, 84, 0, 0, 0, 0, 0, 0, 0, 1, 0, 0, 0] ++ leBytes 4 flags ++
  [0, 0, 0, 0, 0, 0, 0, 0, 0, 0, 0, 0, 149, 0, 0, 0, 11, 0, 0, 0, 0, 0, 0, 0, 51, 200, 206, 115,
   244, 158, 174, 247, 0, 0, 0, 0, 0, 0, 0, 0, 0, 0, 0, 0, 0, 0, 0, 0, 120, 218, 203, 200, 74, 4, 0,
   2, 112, 1, 52, 0, 44, 41, 12, 228, 72, 0, 0, 0, 0, 0, 11, 0, 0, 0, 11, 0, 0, 0, 0, 0, 164, 1, 0,
   0, 0, 0, 0, 0, 0, 0, 1, 1, 97, 0, 113, 67, 133, 7, 8, 191, 71, 253, 152, 26, 183, 158, 15, 174,
   192, 225, 29, 15, 85, 88, 89, 114, 16, 200, 254, 31, 84, 124, 165, 28, 132, 115, 105, 103, 110,
   64, 0, 0, 0] ++ indexSignature

/-- The archive of `signedFile`, uncompressed and signed. -/
def signed : Msys := ⟨signedFile 0x200, true, [(signedFile 0x200).drop 84], by decide⟩

/-- The same archive without the flag that says it is signed. -/
def unmarked : Msys := ⟨signedFile 0, true, [(signedFile 0).drop 84], by decide⟩

/-- The same archive, said to be compressed with zlib. -/
def signedZlib : Msys := ⟨signedFile 0x201, true, [(signedFile 0x201).drop 84], by decide⟩

/-- The libraries, as far as the archives above need them. -/
def exampleLibs : Libs where
  decompressZlib data := if data = zlibStream then some [104, 106, 97] else none
  decompressZstd _ := none
  ed25519Verify pk msg sig :=
    pk = signerKey && msg = sha256 (indexBlock signed) && sig = indexSignature

/-- The signature under the index block of `signed`, in an archive with the same index block. -/
theorem signed_verifies {m : Msys} (hv : m.v2 = true)
    (hext : msysGetExtension m 0x6e676973 = .ok indexSignature)
    (hindex : indexBlock m = indexBlock signed) :
    msysVerifySignature exampleLibs m signerKey = .ok () := by
  have hlen : indexSignature.length = 64 := rfl
  have hsig : exampleLibs.ed25519Verify signerKey (sha256 (indexBlock signed)) indexSignature
      = true := by
    simp only [exampleLibs, decide_true, Bool.and_self]
  unfold msysVerifySignature
  rw [hv, hext, hindex]
  dsimp only
  rw [if_neg (by decide), if_neg (not_not.mpr hlen), if_pos hsig]

/-- The only entry of an archive is reached and has the recorded hash: the archive passes. -/
theorem msysVerifyAll_single {L : Libs} {m : Msys} {content : Bytes}
    (hone : m.entries = [m.entry 0]) (hr : Reached L m (m.entry 0) content)
    (hstored : entryStored (m.entry 0) = sha256 content) : msysVerifyAll L m = .ok () := by
  rw [msysVerifyAll, hone, verifyEntries]
  split
  · rfl
  · split
    · rw [hr.found]
      dsimp only
      rw [hr.opened]
      dsimp only
      rw [if_pos hstored]
      rfl
    · rfl

theorem zlibStream_hashed : entryStored (signed.entry 0) = sha256 zlibStream := by
  decide

theorem signed_reached : Reached exampleLibs signed (signed.entry 0) zlibStream :=
  ⟨by decide, by decide, by decide⟩

theorem unmarked_reached : Reached exampleLibs unmarked (unmarked.entry 0) zlibStream :=
  ⟨by decide, by decide, by decide⟩

theorem signedZlib_reached : Reached exampleLibs signedZlib (signedZlib.entry 0) zlibStream :=
  ⟨by decide, by decide, by decide⟩

end MeuOS.Sysroot
