import MeuOS.Ar.Format
import MeuOS.Lib.CheckedBytes
import MeuOS.Lib.RecordWalk

namespace MeuOS.Ar

open MeuOS.Lib List Lib.Checked

/-!
# The two readers of an archive (`archive.c`)

`load_archive` reads a file, `load_archive_mem` a buffer, with its positions compared with the end
before every access.  The second one is modelled with checked accesses here.

* `memReadHeader`, `memRecord`, `memLoop`, `loadArchiveMem` — the reader of a buffer;
* `fileStep`, `memStep` — one record, as either reader takes it;
* `Deviates` — the records that they take differently;
* `loadArchiveMem_agrees_iff` — the archives on which they agree.
-/

/-! ### The reader of a buffer -/

/-- What `mem_read_header` finds. -/
inductive MemHeader where
  | eof
  | bad
  | header (raw : Bytes) (size : Nat)

/-- `mem_read_header` at position `p`; it moves `p` behind a header. -/
def memReadHeader (buf : Bytes) (p : Nat) : Checked Unit MemHeader :=
  if buf.length - p < HEADER_SIZE then
    if buf.length = p then .ok .eof else .ok .bad
  else do
    let magic ← readAt buf (p + 58) 2
    let name ← readAt buf p MEMBER_NAME_SIZE
    let raw := (cstring (name.rdropWhile (· = SPACE))).1
    if magic ≠ [96, 10] ∨ raw.any isControl then return .bad
    else
      let field ← readAt buf (p + 48) 10
      match parseDecimal field with
      | none => return .bad
      | some size => return .header raw size

/-- The byte behind data of odd length: it must be there and be a newline. -/
def memPad (buf : Bytes) (size p : Nat) : Checked Unit Nat :=
  if size % 2 = 0 then .ok p
  else if p ≥ buf.length then .fail ()
  else do
    let c ← readAt buf p 1
    if c ≠ [NEWLINE] then .fail () else return p + 1

/-- What one turn of the loop of `load_archive_mem` comes to. -/
inductive MemRecord where
  | done
  | next (out : List Loaded) (longnames : Bytes) (p : Nat)

/-- The data of a record at `p` and the place behind it, where the record fits. -/
def memData (buf : Bytes) (size p : Nat) : Checked Unit (Bytes × Nat) :=
  if buf.length - p < size then .fail ()
  else do
    let data ← readAt buf p size
    let p ← memPad buf size (p + size)
    return (data, p)

/-- A record with a BSD name of `name_len` bytes.  `content_size & ~1u` is taken with a mask of 32
bits. -/
def memBsd (buf longnames : Bytes) (name_len size p : Nat) : Checked Unit MemRecord :=
  if name_len > size ∨ buf.length - p < size then .fail ()
  else do
    let data ← readAt buf p size
    let name := cstring (data.take name_len)
    let content := data.drop name_len
    let content_size := size - name_len
    let member_size := content_size &&& 0xFFFFFFFE
    let p ← memPad buf (member_size + name_len) (p + (member_size + name_len))
    return .next [⟨some name, content.take member_size⟩] longnames p

/-- The body of the loop of `load_archive_mem`. -/
def memRecord (buf longnames : Bytes) (p : Nat) : Checked Unit MemRecord := do
  match ← memReadHeader buf p with
  | .eof => return .done
  | .bad => .fail ()
  | .header raw size =>
    let p := p + HEADER_SIZE
    match resolveLongName raw longnames with
    | none => .fail ()
    | some (result, name) =>
      if result < 0 then .fail ()
      else if result = 2 then
        let (table, p) ← memData buf size p
        return .next [] table p
      else if result = 1 then
        let (_, p) ← memData buf size p
        return .next [] longnames p
      else if 3 ≤ result then memBsd buf longnames result.toNat size p
      else
        let (data, p) ← memData buf size p
        return .next [⟨name, data⟩] longnames p

/-- `for (;;)`. -/
def memLoop (buf : Bytes) : Nat → Bytes → Nat → Checked Unit (List Loaded)
  | 0, _, _ => .stuck
  | turns + 1, longnames, p => do
      match ← memRecord buf longnames p with
      | .done => return []
      | .next out longnames p =>
        let rest ← memLoop buf turns longnames p
        return out ++ rest

/-- `load_archive_mem`. -/
def loadArchiveMem (buf : Bytes) : Checked Unit (List Loaded) :=
  if buf.length < 8 then .fail ()
  else do
    let magic ← readAt buf 0 8
    if magic ≠ MAGIC then .fail () else memLoop buf (buf.length + 1) [] 8

/-! ### Records -/

/-- The state of a reader: the table of long names, and what is still to be read. -/
abbrev ReadState : Type := Bytes × Bytes

/-- A record, as `load_archive` takes it. -/
def fileStep (s : ReadState) : Taken ReadState Loaded :=
  match readHeader s.2 with
  | .eof => .done
  | .bad => .bad
  | .header raw size rest =>
    match resolveLongName raw s.1 with
    | none => .bad
    | some (result, name) =>
      if result < 0 then .bad
      else if result = 2 then
        match readData size rest with
        | none => .bad
        | some (table, rest') => .next [] (table, rest')
      else if result = 1 then
        match skipData size rest with
        | none => .bad
        | some rest' => .next [] (s.1, rest')
      else
        match readData size rest with
        | none => .bad
        | some (data, rest') =>
          if 3 ≤ result then
            if size < result.toNat then .bad
            else .next [⟨some (cstring (data.take result.toNat)), data.drop result.toNat⟩]
              (s.1, rest')
          else .next [⟨name, data⟩] (s.1, rest')

/-- A record with a BSD name, as `load_archive_mem` takes it. -/
def bsdStep (longnames : Bytes) (name_len size : Nat) (rest : Bytes) : Taken ReadState Loaded :=
  if size < name_len ∨ rest.length < size then .bad
  else
    let kept := (size - name_len) &&& 0xFFFFFFFE
    match takePad (kept + name_len) (rest.drop (kept + name_len)) with
    | none => .bad
    | some rest' =>
      .next [⟨some (cstring ((rest.take size).take name_len)),
        ((rest.take size).drop name_len).take kept⟩] (longnames, rest')

/-- A record, as `load_archive_mem` takes it. -/
def memStep (s : ReadState) : Taken ReadState Loaded :=
  match readHeader s.2 with
  | .eof => .done
  | .bad => .bad
  | .header raw size rest =>
    match resolveLongName raw s.1 with
    | none => .bad
    | some (result, name) =>
      if result < 0 then .bad
      else if result = 2 then
        match readData size rest with
        | none => .bad
        | some (table, rest') => .next [] (table, rest')
      else if result = 1 then
        match readData size rest with
        | none => .bad
        | some (_, rest') => .next [] (s.1, rest')
      else if 3 ≤ result then bsdStep s.1 result.toNat size rest
      else
        match readData size rest with
        | none => .bad
        | some (data, rest') => .next [⟨name, data⟩] (s.1, rest')

/-! ### The file reader is a walk -/

/-- What a step of a walk leads to in `loadLoop`. -/
theorem loadLoop_eq (longnames file : Bytes) :
    loadLoop longnames file =
      match fileStep (longnames, file) with
      | .done => some []
      | .bad => none
      | .next out s => (loadLoop s.1 s.2).map (out ++ ·) := by
  rw [loadLoop]
  unfold fileStep
  split
  · rename_i h
    rw [h]
  · rename_i h
    rw [h]
  · rename_i raw size rest h
    rw [h]
    dsimp only
    rcases resolveLongName raw longnames with _ | ⟨result, name⟩
    · rfl
    · dsimp only
      by_cases hneg : result < 0
      · rw [if_pos hneg, if_pos hneg]
      rw [if_neg hneg, if_neg hneg]
      by_cases h2 : result = 2
      · rw [if_pos h2, if_pos h2]
        split
        · rename_i hd
          rw [hd]
        · rename_i table rest' hd
          rw [hd]
          simp
      rw [if_neg h2, if_neg h2]
      by_cases h1 : result = 1
      · rw [if_pos h1, if_pos h1]
        split
        · rename_i hd
          rw [hd]
        · rename_i rest' hd
          rw [hd]
          simp
      rw [if_neg h1, if_neg h1]
      split
      · rename_i hd
        rw [hd]
      · rename_i data rest' hd
        rw [hd]
        split
        · split <;> rfl
        · rfl

/-- A step goes on behind the record's header. -/
theorem fileStep_length {s s' : ReadState} {out : List Loaded} (h : fileStep s = .next out s') :
    s'.2.length < s.2.length := by
  unfold fileStep at h
  split at h
  · exact nomatch h
  · exact nomatch h
  rename_i raw size rest hheader
  have hrest := readHeader_length hheader
  refine lt_of_le_of_lt ?_ hrest
  split at h
  · exact nomatch h
  split at h
  · exact nomatch h
  split at h
  · split at h
    · exact nomatch h
    · rename_i hd
      cases h
      exact readData_length hd
  split at h
  · split at h
    · exact nomatch h
    · rename_i hd
      cases h
      exact skipData_length hd
  split at h
  · exact nomatch h
  rename_i hd
  split at h
  · split at h
    · exact nomatch h
    · cases h
      exact readData_length hd
  · cases h
    exact readData_length hd

/-- `load_archive` gives what its walk over the records gives. -/
theorem loadLoop_eq_some_iff {longnames file : Bytes} {out : List Loaded} :
    loadLoop longnames file = some out ↔ Yields fileStep (longnames, file) out := by
  induction hn : file.length using Nat.strong_induction_on generalizing longnames file out with
  | _ n ih =>
    subst hn
    rw [loadLoop_eq]
    cases hstep : fileStep (longnames, file) with
    | done =>
      rw [yields_done hstep]
      exact ⟨fun h => (Option.some.inj h).symm, fun h => congrArg some h.symm⟩
    | bad => exact ⟨(fun h => nomatch h), fun h => absurd h (not_yields_bad hstep)⟩
    | next front s =>
      have hlen := fileStep_length hstep
      rw [yields_next hstep, Option.map_eq_some_iff]
      constructor
      · rintro ⟨rest, hrest, rfl⟩
        exact ⟨rest, rfl, (ih _ hlen rfl).mp hrest⟩
      · rintro ⟨rest, rfl, hrest⟩
        exact ⟨rest, (ih _ hlen rfl).mpr hrest, rfl⟩

/-! ### The buffer reader is a walk -/

/-- The position `p` of a buffer has the bytes `rest` behind it. -/
structure Before (buf : Bytes) (p : Nat) (rest : Bytes) : Prop where
  le : p ≤ buf.length
  drop : buf.drop p = rest

section buffer

variable {buf rest longnames : Bytes} {p size : Nat} (h : Before buf p rest)

include h

theorem Before.length : buf.length - p = rest.length := by
  rw [← h.drop, length_drop]

theorem Before.readAt (off k : Nat) (hk : off + k ≤ rest.length) :
    readAt (ε := Unit) buf (p + off) k = .ok (slice rest off k) := by
  have hlen := h.length
  have hle := h.le
  rw [readAt_inside (by omega), slice, slice, ← h.drop, drop_drop]

theorem Before.add (k : Nat) (hk : k ≤ rest.length) : Before buf (p + k) (rest.drop k) := by
  have hlen := h.length
  have hle := h.le
  refine ⟨by omega, ?_⟩
  rw [← h.drop, drop_drop]

/-- `mem_read_header` finds what `read_header` finds. -/
theorem memReadHeader_eq :
    memReadHeader buf p = .ok (match readHeader rest with
      | .eof => .eof
      | .bad => .bad
      | .header raw size _ => .header raw size) := by
  have hlen := h.length
  have hle := h.le
  have h60 : HEADER_SIZE = 60 := rfl
  unfold memReadHeader readHeader
  by_cases hnil : rest = []
  · subst hnil
    rw [if_pos (by simp [hlen, h60]), if_pos (by simp at hlen; omega), if_pos rfl]
  rw [if_neg hnil]
  by_cases hshort : rest.length < HEADER_SIZE
  · have hpos : 0 < rest.length := length_pos_iff.mpr hnil
    rw [if_pos (by omega), if_neg (by omega), if_pos hshort]
  have hname := h.readAt 0 MEMBER_NAME_SIZE (by rw [MEMBER_NAME_SIZE]; omega)
  rw [Nat.add_zero] at hname
  rw [if_neg (by omega), if_neg hshort, h.readAt 58 2 (by omega), ok_bind, hname,
    ok_bind, h.readAt 48 10 (by omega)]
  have htake : slice rest 0 MEMBER_NAME_SIZE = rest.take MEMBER_NAME_SIZE := rfl
  rw [htake]
  dsimp only
  split
  · rfl
  · rw [ok_bind]
    cases parseDecimal (slice rest 48 10) <;> rfl

/-- The padding behind data. -/
theorem memPad_eq (size : Nat) :
    match takePad size rest with
    | none => memPad buf size p = .fail ()
    | some rest' => ∃ p', p ≤ p' ∧ Before buf p' rest' ∧ memPad buf size p = .ok p' := by
  have hlen := h.length
  have hle := h.le
  unfold takePad memPad
  by_cases heven : size % 2 = 0
  · rw [if_pos heven, if_pos heven]
    exact ⟨p, le_rfl, h, rfl⟩
  rw [if_neg heven, if_neg heven]
  match rest, h with
  | [], h =>
    rw [length_nil] at hlen
    rw [if_pos (by omega)]
  | c :: cs, h =>
    rw [length_cons] at hlen
    have hread := h.readAt 0 1 (by simp)
    rw [Nat.add_zero] at hread
    have hroom : ¬ p ≥ buf.length := by omega
    dsimp only
    rw [if_neg hroom, hread, ok_bind]
    have hone : slice (c :: cs) 0 1 = [c] := rfl
    rw [hone]
    by_cases hc : c = NEWLINE
    · rw [if_pos hc, if_neg (by simp [hc])]
      exact ⟨p + 1, by omega, h.add 1 (by simp), rfl⟩
    · rw [if_neg hc, if_pos (by simpa using hc)]

/-- The data of a record with its padding. -/
theorem memData_eq (size : Nat) :
    match readData size rest with
    | none => memData buf size p = .fail ()
    | some (data, rest') =>
      ∃ p', p ≤ p' ∧ Before buf p' rest' ∧ memData buf size p = .ok (data, p') := by
  have hlen := h.length
  unfold readData memData
  by_cases hshort : rest.length < size
  · rw [if_pos hshort, if_pos (by omega)]
  rw [if_neg hshort, if_neg (by omega)]
  have hread := h.readAt 0 size (by omega)
  rw [Nat.add_zero] at hread
  have hpad := memPad_eq (h.add size (by omega)) size
  rw [hread, ok_bind]
  cases htake : takePad size (rest.drop size) with
  | none =>
    rw [htake] at hpad
    rw [hpad]
    rfl
  | some rest' =>
    rw [htake] at hpad
    obtain ⟨p', hp', hbefore, hok⟩ := hpad
    refine ⟨p', by omega, hbefore, ?_⟩
    rw [hok]
    rfl

/-- A record with a BSD name. -/
theorem memBsd_eq (longnames : Bytes) (name_len size : Nat) :
    match bsdStep longnames name_len size rest with
    | .done => False
    | .bad => memBsd buf longnames name_len size p = .fail ()
    | .next out s => ∃ p', p ≤ p' ∧ Before buf p' s.2 ∧
        memBsd buf longnames name_len size p = .ok (.next out s.1 p') := by
  have hlen := h.length
  unfold bsdStep memBsd
  by_cases hshort : size < name_len ∨ rest.length < size
  · rw [if_pos hshort, if_pos (by omega)]
  rw [if_neg hshort, if_neg (by omega)]
  have hmask : (size - name_len) &&& 0xFFFFFFFE ≤ size - name_len := Nat.and_le_left
  have hread := h.readAt 0 size (by omega)
  rw [Nat.add_zero] at hread
  rw [hread, ok_bind]
  have hslice : slice rest 0 size = rest.take size := rfl
  rw [hslice]
  dsimp only
  generalize (size - name_len) &&& 0xFFFFFFFE = kept at hmask ⊢
  have hpad := memPad_eq (h.add (kept + name_len) (by omega)) (kept + name_len)
  cases htake : takePad (kept + name_len) (rest.drop (kept + name_len)) with
  | none =>
    rw [htake] at hpad
    rw [hpad]
    rfl
  | some rest' =>
    rw [htake] at hpad
    obtain ⟨p', hp', hbefore, hok⟩ := hpad
    refine ⟨p', by omega, hbefore, ?_⟩
    rw [hok]
    rfl

/-- The body of the loop is a step of the walk, further on in the buffer and inside it. -/
theorem memRecord_eq (longnames : Bytes) :
    match memStep (longnames, rest) with
    | .done => memRecord buf longnames p = .ok .done
    | .bad => memRecord buf longnames p = .fail ()
    | .next out s => ∃ p', p < p' ∧ Before buf p' s.2 ∧
        memRecord buf longnames p = .ok (.next out s.1 p') := by
  have hheader := memReadHeader_eq h
  unfold memStep memRecord
  rw [hheader, ok_bind]
  cases hread : readHeader rest with
  | eof => rfl
  | bad => rfl
  | header raw size rest' =>
    obtain ⟨rfl, hroom⟩ := readHeader_rest hread
    have hbehind := h.add HEADER_SIZE hroom
    have h60 : HEADER_SIZE = 60 := rfl
    dsimp only
    cases hname : resolveLongName raw longnames with
    | none => rfl
    | some r =>
      obtain ⟨result, name⟩ := r
      dsimp only
      by_cases hneg : result < 0
      · rw [if_pos hneg, if_pos hneg]
      rw [if_neg hneg, if_neg hneg]
      have hdata := memData_eq hbehind size
      have hbsd := memBsd_eq hbehind longnames result.toNat size
      by_cases h2 : result = 2
      · rw [if_pos h2, if_pos h2]
        cases hd : readData size (rest.drop HEADER_SIZE) with
        | none =>
          rw [hd] at hdata
          rw [hdata]
          rfl
        | some d =>
          rw [hd] at hdata
          obtain ⟨p', hp', hbefore, hok⟩ := hdata
          exact ⟨p', by omega, hbefore, by rw [hok]; rfl⟩
      rw [if_neg h2, if_neg h2]
      by_cases h1 : result = 1
      · rw [if_pos h1, if_pos h1]
        cases hd : readData size (rest.drop HEADER_SIZE) with
        | none =>
          rw [hd] at hdata
          rw [hdata]
          rfl
        | some d =>
          rw [hd] at hdata
          obtain ⟨p', hp', hbefore, hok⟩ := hdata
          exact ⟨p', by omega, hbefore, by rw [hok]; rfl⟩
      rw [if_neg h1, if_neg h1]
      by_cases h3 : 3 ≤ result
      · rw [if_pos h3, if_pos h3]
        cases hb : bsdStep longnames result.toNat size (rest.drop HEADER_SIZE) with
        | done =>
          rw [hb] at hbsd
          exact hbsd.elim
        | bad =>
          rw [hb] at hbsd
          exact hbsd
        | next out s =>
          rw [hb] at hbsd
          obtain ⟨p', hp', hbefore, hok⟩ := hbsd
          exact ⟨p', by omega, hbefore, hok⟩
      · rw [if_neg h3, if_neg h3]
        cases hd : readData size (rest.drop HEADER_SIZE) with
        | none =>
          rw [hd] at hdata
          rw [hdata]
          rfl
        | some d =>
          rw [hd] at hdata
          obtain ⟨p', hp', hbefore, hok⟩ := hdata
          exact ⟨p', by omega, hbefore, by rw [hok]; rfl⟩

end buffer

/-- The loop of `load_archive_mem` keeps inside the buffer, ends, and gives what its walk over
the records gives. -/
theorem memLoop_sat {buf rest longnames : Bytes} {turns p : Nat} (h : Before buf p rest)
    (hturns : rest.length < turns) :
    (memLoop buf turns longnames p).Sat (fun _ => True) ∧
      ∀ out, memLoop buf turns longnames p = .ok out ↔ Yields memStep (longnames, rest) out := by
  induction turns generalizing rest longnames p with
  | zero => exact absurd hturns (Nat.not_lt_zero _)
  | succ turns ih =>
    have hrecord := memRecord_eq h longnames
    unfold memLoop
    cases hstep : memStep (longnames, rest) with
    | done =>
      rw [hstep] at hrecord
      rw [hrecord, ok_bind]
      refine ⟨trivial, fun out => ?_⟩
      rw [yields_done hstep]
      exact ⟨fun h => (ok.inj h).symm, fun h => congrArg ok h.symm⟩
    | bad =>
      rw [hstep] at hrecord
      rw [hrecord]
      exact ⟨trivial, fun out => ⟨(fun h => nomatch h), fun h => absurd h (not_yields_bad hstep)⟩⟩
    | next front s =>
      rw [hstep] at hrecord
      obtain ⟨p', hp', hbefore, hok⟩ := hrecord
      have hlen := h.length
      have hlen' := hbefore.length
      have hle' := hbefore.le
      obtain ⟨hsat, hyields⟩ := @ih s.2 s.1 p' hbefore (by omega)
      rw [hok, ok_bind]
      dsimp only
      refine ⟨hsat.bind fun _ _ => trivial, fun out => ?_⟩
      rw [yields_next hstep]
      constructor
      · intro hx
        obtain ⟨rest', hrest', hx⟩ := bind_eq_ok hx
        exact ⟨rest', (ok.inj hx).symm, (hyields rest').mp hrest'⟩
      · rintro ⟨rest', rfl, hy⟩
        rw [(hyields rest').mpr hy]
        rfl

/-! ### Records that are taken differently -/

theorem digitsVal_lt {limit acc n : Nat} {text : Bytes} (h : digitsVal limit acc text = some n) :
    n < (acc + 1) * 10 ^ text.length := by
  induction text generalizing acc with
  | nil =>
    cases h
    simp
  | cons c cs ih =>
    rw [digitsVal] at h
    split at h
    · cases h
    rename_i hdigit
    have h57 : (57 : UInt8).toNat = 57 := rfl
    rw [UInt8.lt_iff_toNat_lt, UInt8.lt_iff_toNat_lt, h57] at hdigit
    dsimp only at h
    split at h
    · cases h
    have hlt := ih h
    rw [length_cons, Nat.pow_succ, ← Nat.mul_assoc, Nat.mul_right_comm]
    exact lt_of_lt_of_le hlt (Nat.mul_le_mul_right _ (by omega))

/-- The number in a field is below what its characters can hold. -/
theorem parseDecimal_lt {field : Bytes} {n : Nat} (h : parseDecimal field = some n) :
    n < 10 ^ field.length := by
  unfold parseDecimal parseDecimalText at h
  dsimp only at h
  split at h
  · exact nomatch h
  split at h
  · exact nomatch h
  have hlt := digitsVal_lt h
  rw [Nat.zero_add, Nat.one_mul] at hlt
  refine lt_of_lt_of_le hlt (Nat.pow_le_pow_right (by decide) ?_)
  exact ( takeWhile_prefix _).length_le.trans (dropWhile_suffix _).length_le

theorem readHeader_size {file raw rest : Bytes} {size : Nat}
    (h : readHeader file = .header raw size rest) : size < 10 ^ 10 := by
  unfold readHeader at h
  split at h
  · exact nomatch h
  split at h
  · exact nomatch h
  dsimp only at h
  split at h
  · exact nomatch h
  split at h
  · exact nomatch h
  rename_i n hfield
  cases h
  have hlt := parseDecimal_lt hfield
  have hlen : (slice file 48 10).length ≤ 10 := length_take_le _ _
  exact lt_of_lt_of_le hlt (Nat.pow_le_pow_right (by decide) hlen)

theorem mask_even {m : Nat} (heven : m % 2 = 0) (hlt : m < 2 ^ 32) : m &&& 0xFFFFFFFE = m := by
  obtain ⟨k, rfl⟩ : ∃ k, m = k <<< 1 := ⟨m / 2, by rw [Nat.shiftLeft_eq]; omega⟩
  have hmask : (0xFFFFFFFE : Nat) = (2 ^ 31 - 1) <<< 1 := rfl
  rw [Nat.shiftLeft_eq] at hlt
  rw [hmask, ← Nat.shiftLeft_and_distrib, Nat.and_two_pow_sub_one_eq_mod,
    Nat.mod_eq_of_lt (by omega)]

/-- Any other number it makes smaller. -/
theorem mask_lt {m : Nat} (h : m % 2 = 1 ∨ 2 ^ 32 ≤ m) : m &&& 0xFFFFFFFE < m := by
  have hle : m &&& 0xFFFFFFFE ≤ m := Nat.and_le_left
  refine lt_of_le_of_ne hle fun heq => ?_
  rcases h with hodd | hbig
  · have hbit : (m &&& 0xFFFFFFFE) % 2 ^ 1 = (m % 2 ^ 1) &&& (0xFFFFFFFE % 2 ^ 1) :=
      Nat.and_mod_two_pow
    have hzero : (0xFFFFFFFE : Nat) % 2 ^ 1 = 0 := rfl
    rw [heq, hzero, Nat.and_zero, Nat.pow_one] at hbit
    omega
  · have hlt : m &&& 0xFFFFFFFE < 2 ^ 32 := Nat.and_lt_two_pow _ (by decide)
    omega

/-- The records that the two readers take differently: a symbol index that is cut short or has
another byte than a newline behind it, and a member with a BSD name whose content has odd length
or a length that needs more than 32 bits. -/
def Deviates (s : ReadState) : Prop :=
  ∃ raw size rest result name, readHeader s.2 = .header raw size rest ∧
    resolveLongName raw s.1 = some (result, name) ∧
      (result = 1 ∧ readData size rest = none ∨
        3 ≤ result ∧ result.toNat ≤ size ∧ size ≤ rest.length ∧
          ((size - result.toNat) % 2 = 1 ∨ 2 ^ 32 ≤ size - result.toNat))

/-- Data that is read with its padding is what a seek passes over. -/
theorem skipData_of_readData {size : Nat} {rest data rest' : Bytes} (hsize : size < 10 ^ 10)
    (h : readData size rest = some (data, rest')) : skipData size rest = some rest' := by
  have hmax : LONG_MAX = 9223372036854775807 := rfl
  unfold readData at h
  split at h
  · exact nomatch h
  obtain ⟨r, hr, he⟩ := Option.map_eq_some_iff.mp h
  cases he
  unfold skipData
  rw [if_neg (by omega)]
  unfold takePad at hr
  split at hr
  · rename_i heven
    rw [heven, Nat.add_zero]
    exact hr
  · rename_i hodd
    rw [Nat.mod_two_ne_zero.mp hodd, ← drop_drop]
    split at hr
    · exact nomatch hr
    · rename_i c cs hdrop
      split at hr
      · rw [hdrop]
        exact hr
      · exact nomatch hr

/-- A BSD name whose content has even length and needs no more than 32 bits. -/
theorem bsdStep_even {longnames rest : Bytes} {n size : Nat}
    (heven : (size - n) % 2 = 0) (hlt : size - n < 2 ^ 32) :
    bsdStep longnames n size rest =
      match readData size rest with
      | none => .bad
      | some (data, rest') =>
        if size < n then .bad
        else .next [⟨some (cstring (data.take n)), data.drop n⟩] (longnames, rest') := by
  unfold bsdStep readData
  by_cases hn : size < n
  · rw [if_pos (Or.inl hn)]
    split <;> simp [hn]
  by_cases hshort : rest.length < size
  · rw [if_pos (Or.inr hshort), if_pos hshort]
  have hkept : size - n + n = size := by omega
  rw [if_neg (by omega), if_neg hshort, mask_even heven hlt]
  dsimp only
  rw [hkept]
  have hcontent : ((rest.take size).drop n).take (size - n) = (rest.take size).drop n := by
    rw [take_of_length_le]
    rw [length_drop, length_take]
    omega
  cases takePad size (rest.drop size) with
  | none => rfl
  | some rest' =>
    rw [hcontent]
    exact (if_neg hn).symm

/-- Any other record is taken alike. -/
theorem fileStep_eq_memStep {s : ReadState} (h : ¬ Deviates s) : fileStep s = memStep s := by
  unfold fileStep memStep
  cases hheader : readHeader s.2 with
  | eof => rfl
  | bad => rfl
  | header raw size rest =>
    dsimp only
    cases hname : resolveLongName raw s.1 with
    | none => rfl
    | some r =>
      obtain ⟨result, name⟩ := r
      dsimp only
      by_cases hneg : result < 0
      · rw [if_pos hneg, if_pos hneg]
      rw [if_neg hneg, if_neg hneg]
      by_cases h2 : result = 2
      · rw [if_pos h2, if_pos h2]
      rw [if_neg h2, if_neg h2]
      by_cases h1 : result = 1
      · rw [if_pos h1, if_pos h1]
        cases hd : readData size rest with
        | none => exact absurd ⟨raw, size, rest, result, name, hheader, hname, .inl ⟨h1, hd⟩⟩ h
        | some d =>
          obtain ⟨data, rest'⟩ := d
          rw [skipData_of_readData (readHeader_size hheader) hd]
      rw [if_neg h1, if_neg h1]
      by_cases h3 : 3 ≤ result
      · simp only [if_pos h3]
        by_cases hfits : result.toNat ≤ size ∧ size ≤ rest.length
        · have hkept : ¬ ((size - result.toNat) % 2 = 1 ∨ 2 ^ 32 ≤ size - result.toNat) :=
            fun hodd => h ⟨raw, size, rest, result, name, hheader, hname,
              .inr ⟨h3, hfits.1, hfits.2, hodd⟩⟩
          rw [bsdStep_even (by omega) (by omega)]
        · -- The name or the data does not fit: both readers reject the record.
          unfold bsdStep
          rw [if_pos (by omega)]
          unfold readData
          by_cases hshort : rest.length < size
          · rw [if_pos hshort]
          · rw [if_neg hshort]
            cases takePad size (rest.drop size) with
            | none => rfl
            | some rest' => exact if_pos (by omega)
      · simp only [if_neg h3]

/-- After a record that they take differently the readers do not give the same. -/
theorem not_yields_of_deviates {s : ReadState} (h : Deviates s) (out : List Loaded)
    (hf : Yields fileStep s out) : ¬ Yields memStep s out := by
  obtain ⟨raw, size, rest, result, name, hheader, hname, ⟨h1, hd⟩ | ⟨h3, hle, hlen, hodd⟩⟩ := h
  · -- A symbol index: the second reader rejects it.
    apply not_yields_bad
    unfold memStep
    rw [hheader]
    dsimp only
    rw [hname]
    dsimp only
    rw [if_neg (by omega), if_neg (by omega), if_pos h1, hd]
  · -- A BSD name: the second reader keeps less of the content, if it goes on.
    have hneg : ¬ result < 0 := by omega
    have h2 : ¬ result = 2 := by omega
    have h1 : ¬ result = 1 := by omega
    have hlt := mask_lt hodd
    have hfile : fileStep s = match readData size rest with
        | none => .bad
        | some (data, rest') =>
          .next [⟨some (cstring (data.take result.toNat)), data.drop result.toNat⟩]
            (s.1, rest') := by
      unfold fileStep
      rw [hheader]
      dsimp only
      rw [hname]
      dsimp only
      rw [if_neg hneg, if_neg h2, if_neg h1]
      simp only [if_pos h3, if_neg (Nat.not_lt.mpr hle)]
    have hmem : memStep s = bsdStep s.1 result.toNat size rest := by
      unfold memStep
      rw [hheader]
      dsimp only
      rw [hname]
      dsimp only
      rw [if_neg hneg, if_neg h2, if_neg h1, if_pos h3]
    intro hm
    unfold readData at hfile
    rw [if_neg (Nat.not_lt.mpr hlen)] at hfile
    unfold bsdStep at hmem
    rw [if_neg (by omega)] at hmem
    dsimp only at hmem
    cases hpad : takePad size (rest.drop size) with
    | none =>
      rw [hpad] at hfile
      exact not_yields_bad hfile hf
    | some rest₁ =>
      rw [hpad] at hfile
      obtain ⟨r, hout, -⟩ := (yields_next hfile).mp hf
      generalize (size - result.toNat) &&& 0xFFFFFFFE = kept at hlt hmem
      cases hpad' : takePad (kept + result.toNat) (rest.drop (kept + result.toNat)) with
      | none =>
        rw [hpad'] at hmem
        exact not_yields_bad hmem hm
      | some rest₂ =>
        rw [hpad'] at hmem
        obtain ⟨r', hout', -⟩ := (yields_next hmem).mp hm
        rw [hout] at hout'
        have hhead := (cons.inj hout').1
        have hdata := congrArg (fun m : Loaded => m.data.length) hhead
        simp only [length_take, length_drop] at hdata
        omega

/-! ### The two readers -/

/-- The buffer reader never leaves the buffer and ends; and the two readers agree on an archive,
both on whether it is accepted and on its members, exactly when no record that both reach is taken
differently, or when neither accepts what follows the first one that is. -/
theorem loadArchiveMem_agrees_iff (buf : Bytes) :
    (loadArchiveMem buf ≠ .fault ∧ loadArchiveMem buf ≠ .stuck) ∧
      ((∀ out, loadArchive buf = some out ↔ loadArchiveMem buf = .ok out) ↔
        (buf.take 8 = MAGIC → ∀ s,
          Relation.ReflTransGen (CommonStep fileStep memStep) ([], buf.drop 8) s → Deviates s →
            ¬ Accepts fileStep s ∧ ¬ Accepts memStep s)) := by
  have hmagic : MAGIC.length = 8 := rfl
  unfold loadArchiveMem loadArchive
  by_cases hshort : buf.length < 8
  · have hne : buf.take 8 ≠ MAGIC := by
      intro heq
      have hlen := congrArg length heq
      rw [length_take, hmagic] at hlen
      omega
    rw [if_pos hshort, if_pos hne]
    exact ⟨by simp, fun _ h => absurd h hne, fun _ out => by simp⟩
  rw [if_neg hshort, readAt_inside (by omega), ok_bind]
  have hslice : slice buf 0 8 = buf.take 8 := rfl
  rw [hslice]
  by_cases hne : buf.take 8 ≠ MAGIC
  · rw [if_pos hne, if_pos hne]
    exact ⟨by simp, fun _ h => absurd h hne, fun _ out => by simp⟩
  rw [if_neg hne, if_neg hne, imp_iff_right (not_not.mp hne)]
  have hbefore : Before buf 8 (buf.drop 8) := ⟨by omega, rfl⟩
  obtain ⟨hsat, hyields⟩ := @memLoop_sat buf (buf.drop 8) [] (buf.length + 1) 8 hbefore
    (by rw [length_drop]; omega)
  refine ⟨⟨hsat.ne_fault, hsat.ne_stuck⟩, ?_⟩
  have hagree := @yields_agree_iff _ _ fileStep memStep ([], buf.drop 8) Deviates
    (fun _ h => fileStep_eq_memStep h) (fun _ h => not_yields_of_deviates h)
  rw [← hagree]
  exact forall_congr' fun out => by rw [loadLoop_eq_some_iff, hyields]

/-- An archive of one member, with the BSD name "abc" and a content of three bytes. -/
def bsdArchive : Bytes :=
  MAGIC ++ ([35, 49, 47, 51] ++ replicate 44 SPACE ++ [54] ++ replicate 9 SPACE ++
    [96, 10] ++ [97, 98, 99, 104, 105, 10])

/-- `load_archive` gives the three bytes, `load_archive_mem` two of them. -/
theorem loadArchiveMem_odd :
    loadArchive bsdArchive = some [⟨some (cstring [97, 98, 99]), [104, 105, 10]⟩] ∧
      loadArchiveMem bsdArchive = .ok [⟨some (cstring [97, 98, 99]), [104, 105]⟩] := by
  constructor
  · have hstep : fileStep ([], bsdArchive.drop 8)
        = .next [⟨some (cstring [97, 98, 99]), [104, 105, 10]⟩] ([], []) := by decide
    have hloop := loadLoop_eq_some_iff.mpr (.next hstep (.done rfl))
    exact hloop
  · decide

end MeuOS.Ar
