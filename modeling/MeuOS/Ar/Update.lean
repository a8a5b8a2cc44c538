import MeuOS.Ar.Roundtrip

namespace MeuOS.Ar

open MeuOS.Lib List Option

/-!
# Updating an archive (`mt_ar_update`)

* `readFileBlob`, `addMember`, `mtArUpdate` — the code;
* `Run` — a sequence of successful calls, the first of which creates the archive;
* `expected` — the members that the calls ought to leave;
* `Plain` — the names that the format carries;
* `run_loadArchive_iff` — the archive holds the expected members exactly when all their names are
  plain.
-/

/-! ### The code -/

/-- `member_basename`: what follows the last slash, unless it is empty, `.` or `..`. -/
def memberBasename (path : CString) : Option CString :=
  let base := path.1.rtakeWhile (· ≠ SLASH)
  if base = [] ∨ base = [46] ∨ base = [46, 46] then none else some (cstring base)

/-- `read_file_blob`; `files` gives the contents of the files that can be read. -/
def readFileBlob (files : CString → Option Bytes) (path : CString) : Option Blob :=
  (memberBasename path).bind fun name => (files path).map fun data => ⟨name, data⟩

/-- Replace the first member of that name. -/
def replaceFirst (b : Blob) : List Blob → List Blob
  | [] => []
  | x :: xs => if x.name = b.name then b :: xs else x :: replaceFirst b xs

/-- `MT_AR_UPDATE_REPLACE` and `MT_AR_UPDATE_APPEND`. -/
structure Flags where
  replace : Bool
  append : Bool
  deriving DecidableEq

/-- The loop body of `mt_ar_update` for a member that was read. -/
def addMember (flags : Flags) (collection : List Blob) (b : Blob) : List Blob :=
  if flags.replace = true ∧ collection.any (fun x => x.name = b.name) then replaceFirst b collection
  else collection ++ [b]

/-- A loaded member; a null name is read by the writer, which then does not return. -/
def Loaded.blob (l : Loaded) : Option Blob := l.name.map fun name => ⟨name, l.data⟩

section

variable (collectBlobSymbols : Bytes → Option (List CString))

/-- `prepare_archive` and `write_archive`. -/
def storeArchive (collection : List Blob) : Option Bytes :=
  (prepareArchive collectBlobSymbols collection).bind (writeArchive collection)

/-- The members of the archive as it stands; there are none where no file exists. -/
def oldMembers : Option Bytes → Option (List Blob)
  | none => some []
  | some file => (loadArchive file).bind (·.mapM Loaded.blob)

/-- `mt_ar_update`: the archive's new contents, when the call succeeds. -/
def mtArUpdate (files : CString → Option Bytes) (archive : Option Bytes) (members : List CString)
    (flags : Flags) : Option Bytes :=
  if flags.replace = false ∧ flags.append = false then none
  else
    (oldMembers archive).bind fun old =>
      (members.mapM (readFileBlob files)).bind fun inputs =>
        storeArchive collectBlobSymbols (inputs.foldl (addMember flags) old)

/-! ### Runs -/

/-- A call: the files as they are then, the members' paths and the flags. -/
structure Call where
  files : CString → Option Bytes
  members : List CString
  flags : Flags

/-- Successful calls, one after the other, and the archive they leave. -/
inductive Run : List Call → Bytes → Prop
  | first {c : Call} {file : Bytes} :
      mtArUpdate collectBlobSymbols c.files none c.members c.flags = some file → Run [c] file
  | next {cs : List Call} {c : Call} {old file : Bytes} : Run cs old →
      mtArUpdate collectBlobSymbols c.files (some old) c.members c.flags = some file →
      Run (cs ++ [c]) file

end

/-- The members that a call reads. -/
def Call.inputs (c : Call) : List Blob := c.members.filterMap (readFileBlob c.files)

/-- The members that calls ought to leave: under REPLACE the first of the same name is replaced
    in its place, everything else is appended in order. -/
def expected (cs : List Call) : List Blob :=
  cs.foldl (fun bs c => c.inputs.foldl (addMember c.flags) bs) []

/-- A name that the format carries. -/
structure Plain (name : CString) : Prop where
  notBsd : name.1 ≠ [35, 49]
  short : name.1.length ≤ MEMBER_NAME_MAX → name.1.any isControl = false
  long : MEMBER_NAME_MAX < name.1.length → NEWLINE ∉ name.1

/-! ### Names -/

theorem isControl_newline : isControl NEWLINE = true := by decide

variable {b x : Blob} {bs : List Blob} {flags : Flags} {file : Bytes}

theorem Plain.not_newline {name : CString} (h : Plain name) : NEWLINE ∉ name.1 := by
  intro hn
  rcases Nat.lt_or_ge MEMBER_NAME_MAX name.1.length with hl | hl
  · exact h.long hl hn
  · have hany := any_eq_false.mp (h.short hl) NEWLINE hn
    exact hany isControl_newline

theorem takeWhile_newline {s : Bytes} (h : NEWLINE ∉ s) : s.takeWhile (· ≠ NEWLINE) = s := by
  apply takeWhile_eq_self_iff.mpr
  intro c hc
  apply decide_eq_true
  rintro rfl
  exact h hc

theorem cstring_self (name : CString) : cstring name.1 = name := Subtype.ext (cstring_eq name.2)

/-- A member with a plain name is read back. -/
theorem readBack_plain (hf : FileName b.name) (h : Plain b.name) :
    readBack b = some b := by
  unfold readBack
  split
  next hs =>
    have hany := h.short hs
    rw [if_neg]
    rintro (hb | hc)
    · exact h.notBsd hb
    · rw [hany] at hc
      cases hc
  next hl =>
    rw [takeWhile_newline (h.long (Nat.lt_of_not_le hl)), if_neg hf.ne_nil, cstring_self]

/-- What is read back has no newline in its name and is a file's name. -/
theorem readBack_some {b' : Blob} (hf : FileName b.name) (h : readBack b = some b') :
    NEWLINE ∉ b'.name.1 ∧ FileName b'.name := by
  unfold readBack at h
  split at h
  · split at h
    · simp at h
    next hnot =>
      cases h
      refine ⟨fun hn => (not_or.mp hnot).2 ?_, hf⟩
      exact any_eq_true.mpr ⟨NEWLINE, hn, isControl_newline⟩
  · dsimp only at h
    split at h
    · simp at h
    next hne =>
      cases h
      have hsub := takeWhile_sublist (l := b.name.1) (fun c => decide (c ≠ NEWLINE))
      have hname : (cstring (b.name.1.takeWhile (· ≠ NEWLINE))).1 =
          b.name.1.takeWhile (· ≠ NEWLINE) := cstring_eq fun h0 => b.name.2 (hsub.subset h0)
      rw [hname]
      refine ⟨fun hn => ?_, ⟨by rw [hname]; exact hne, by
        rw [hname]; exact fun hs => hf.noslash (hsub.subset hs)⟩⟩
      simpa using mem_takeWhile_imp hn

/-- Without a newline in its name a member is read back as it is, and then its name is plain. -/
theorem readBack_not_newline {b' : Blob} (hn : NEWLINE ∉ b.name.1) (h : readBack b = some b') :
    b' = b ∧ Plain b.name := by
  unfold readBack at h
  split at h
  next hs =>
    split at h
    · simp at h
    next hnot =>
      cases h
      rw [not_or, Bool.not_eq_true] at hnot
      exact ⟨rfl, hnot.1, fun _ => hnot.2, fun hl => absurd hs (Nat.not_le.mpr hl)⟩
  next hl =>
    dsimp only at h
    rw [takeWhile_newline hn, cstring_self] at h
    split at h
    · simp at h
    · cases h
      refine ⟨rfl, fun hb => ?_, fun hs => absurd hs hl, fun _ => hn⟩
      rw [hb] at hl
      exact hl (by decide)

/-! ### Collections -/

theorem mapM_readBack_plain (hf : ∀ b ∈ bs, FileName b.name)
    (h : ∀ b ∈ bs, Plain b.name) : bs.mapM readBack = some bs := by
  induction bs with
  | nil => rfl
  | cons b bs ih =>
    rw [mapM_cons, readBack_plain (hf b mem_cons_self) (h b mem_cons_self),
      ih (fun x hx => hf x (mem_cons_of_mem _ hx))
        (fun x hx => h x (mem_cons_of_mem _ hx))]
    rfl

/-- A property of whatever is read back. -/
theorem mapM_readBack_all {P Q : Blob → Prop} (hstep : ∀ b b', P b → readBack b = some b' → Q b')
    {bs' : List Blob} (hp : ∀ b ∈ bs, P b) (h : bs.mapM readBack = some bs') :
    ∀ b ∈ bs', Q b := by
  induction bs generalizing bs' with
  | nil =>
    cases h
    simp
  | cons b bs ih =>
    rw [mapM_cons] at h
    simp only [bind_eq_bind, bind_eq_some_iff] at h
    obtain ⟨b1, hb1, bs1, hbs1, he⟩ := h
    cases he
    intro x hx
    rcases mem_cons.mp hx with rfl | hx
    · exact hstep b _ (hp b mem_cons_self) hb1
    · exact ih (fun y hy => hp y (mem_cons_of_mem _ hy)) hbs1 x hx

/-- Without newlines, a collection that is read back at all is read back as it is. -/
theorem mapM_readBack_not_newline {bs' : List Blob} (hn : ∀ b ∈ bs, NEWLINE ∉ b.name.1)
    (h : bs.mapM readBack = some bs') : bs' = bs ∧ ∀ b ∈ bs, Plain b.name := by
  induction bs generalizing bs' with
  | nil =>
    cases h
    simp
  | cons b bs ih =>
    rw [mapM_cons] at h
    simp only [bind_eq_bind, bind_eq_some_iff] at h
    obtain ⟨b1, hb1, bs1, hbs1, he⟩ := h
    cases he
    obtain ⟨rfl, hplain⟩ := readBack_not_newline (hn b mem_cons_self) hb1
    obtain ⟨rfl, hall⟩ := ih (fun y hy => hn y (mem_cons_of_mem _ hy)) hbs1
    refine ⟨rfl, fun x hx => ?_⟩
    rcases mem_cons.mp hx with rfl | hx
    · exact hplain
    · exact hall x hx

theorem mem_replaceFirst (h : x ∈ replaceFirst b bs) :
    x = b ∨ x ∈ bs := by
  induction bs with
  | nil => simp [replaceFirst] at h
  | cons y ys ih =>
    unfold replaceFirst at h
    split at h
    · rcases mem_cons.mp h with rfl | h
      · exact Or.inl rfl
      · exact Or.inr (mem_cons_of_mem _ h)
    · rcases mem_cons.mp h with rfl | h
      · exact Or.inr mem_cons_self
      · exact (ih h).imp id (mem_cons_of_mem _)

/-- The names in a collection: replacing keeps them, appending adds one. -/
theorem name_mem_replaceFirst (h : x ∈ bs) :
    ∃ y ∈ replaceFirst b bs, y.name = x.name := by
  induction bs with
  | nil => simp at h
  | cons y ys ih =>
    unfold replaceFirst
    split
    next he =>
      rcases mem_cons.mp h with rfl | h
      · exact ⟨b, mem_cons_self, he.symm⟩
      · exact ⟨x, mem_cons_of_mem _ h, rfl⟩
    next =>
      rcases mem_cons.mp h with rfl | h
      · exact ⟨x, mem_cons_self, rfl⟩
      · obtain ⟨z, hz, hn⟩ := ih h
        exact ⟨z, mem_cons_of_mem _ hz, hn⟩

theorem mem_addMember (h : x ∈ addMember flags bs b) : x ∈ bs ∨ x = b := by
  unfold addMember at h
  split at h
  · exact (mem_replaceFirst h).symm
  · simpa using h

theorem name_mem_addMember {flags : Flags} {bs : List Blob} {b x : Blob} (h : x ∈ bs) :
    ∃ y ∈ addMember flags bs b, y.name = x.name := by
  unfold addMember
  split
  · exact name_mem_replaceFirst h
  · exact ⟨x, mem_append_left _ h, rfl⟩

/-- The member that is added is there afterwards. -/
theorem added_mem : b ∈ addMember flags bs b := by
  unfold addMember
  split
  next h =>
    obtain ⟨x, hx, hn⟩ := any_eq_true.mp h.2
    have hn : x.name = b.name := of_decide_eq_true hn
    clear h
    induction bs with
    | nil => simp at hx
    | cons y ys ih =>
      unfold replaceFirst
      split
      · exact mem_cons_self
      next hy =>
        rcases mem_cons.mp hx with rfl | hx
        · exact absurd hn hy
        · exact mem_cons_of_mem _ (ih hx)
  next => simp

theorem mem_addMembers {inputs : List Blob}
    (h : x ∈ inputs.foldl (addMember flags) bs) : x ∈ bs ∨ x ∈ inputs := by
  induction inputs generalizing bs with
  | nil => exact Or.inl h
  | cons b inputs ih =>
    rcases ih h with h | h
    · exact (mem_addMember h).imp id fun he => mem_cons.mpr (Or.inl he)
    · exact Or.inr (mem_cons_of_mem _ h)

/-- No name that was there or was given is lost. -/
theorem name_mem_addMembers {flags : Flags} {inputs bs : List Blob} {x : Blob}
    (h : x ∈ bs ∨ x ∈ inputs) : ∃ y ∈ inputs.foldl (addMember flags) bs, y.name = x.name := by
  induction inputs generalizing bs x with
  | nil => exact ⟨x, h.resolve_right (by simp), rfl⟩
  | cons b inputs ih =>
    rcases h with h | h
    · obtain ⟨y, hy, hn⟩ := @name_mem_addMember flags bs b x h
      obtain ⟨z, hz, hz'⟩ := ih (Or.inl hy)
      exact ⟨z, hz, hz'.trans hn⟩
    · rcases mem_cons.mp h with rfl | h
      · exact ih (Or.inl added_mem)
      · exact ih (Or.inr h)

/-! ### Calls -/

theorem memberBasename_fileName {path name : CString} (h : memberBasename path = some name) :
    FileName name := by
  unfold memberBasename at h
  rw [ite_none_left_eq_some] at h
  obtain ⟨hne, he⟩ := h
  cases he
  have hsub := (rtakeWhile_suffix (fun c => decide (c ≠ SLASH)) path.1).subset
  have hname := cstring_eq (s := path.1.rtakeWhile (· ≠ SLASH)) fun h0 => path.2 (hsub h0)
  refine ⟨?_, ?_⟩
  · rw [hname]
    exact fun h0 => hne (Or.inl h0)
  · rw [hname]
    intro hs
    simpa using mem_rtakeWhile_imp hs

theorem Call.inputs_fileName (c : Call) : ∀ b ∈ c.inputs, FileName b.name := by
  intro b hb
  obtain ⟨path, -, hp⟩ := mem_filterMap.mp hb
  obtain ⟨name, hname, hp⟩ := bind_eq_some_iff.mp hp
  obtain ⟨data, -, rfl⟩ := map_eq_some_iff.mp hp
  exact memberBasename_fileName hname

theorem mapM_filterMap {α β : Type} {f : α → Option β} {xs : List α} {ys : List β}
    (h : xs.mapM f = some ys) : xs.filterMap f = ys := by
  induction xs generalizing ys with
  | nil => exact Option.some.inj h
  | cons x xs ih =>
    rw [mapM_cons] at h
    simp only [bind_eq_bind, bind_eq_some_iff] at h
    obtain ⟨y, hy, ys', hys, he⟩ := h
    cases he
    rw [filterMap_cons_some hy, ih hys]

theorem mapM_blob (bs : List Blob) : (bs.map Blob.loaded).mapM Loaded.blob = some bs := by
  induction bs with
  | nil => rfl
  | cons b bs ih =>
    rw [map_cons, mapM_cons, ih]
    rfl

theorem loaded_injective : Function.Injective Blob.loaded := by
  rintro ⟨n, d⟩ ⟨n', d'⟩ h
  simpa [Blob.loaded] using h

variable {collect : Bytes → Option (List CString)}

/-- A successful call, over the members that the archive held. -/
theorem mtArUpdate_some {c : Call} {archive : Option Bytes}
    (h : mtArUpdate collect c.files archive c.members c.flags = some file) :
    ∃ old, oldMembers archive = some old ∧
      storeArchive collect (c.inputs.foldl (addMember c.flags) old) = some file := by
  unfold mtArUpdate at h
  rw [ite_none_left_eq_some] at h
  obtain ⟨old, hold, h⟩ := bind_eq_some_iff.mp h.2
  obtain ⟨inputs, hin, h⟩ := bind_eq_some_iff.mp h
  refine ⟨old, hold, ?_⟩
  have : c.inputs = inputs := mapM_filterMap hin
  rw [this]
  exact h

theorem loadArchive_store (hf : ∀ b ∈ bs, FileName b.name)
    (h : storeArchive collect bs = some file) :
    loadArchive file = (bs.mapM readBack).map (·.map Blob.loaded) := by
  obtain ⟨layout, hl, hw⟩ := bind_eq_some_iff.mp h
  exact loadArchive_writeArchive hf hl hw

theorem expected_append (cs : List Call) (c : Call) :
    expected (cs ++ [c]) = c.inputs.foldl (addMember c.flags) (expected cs) := by
  unfold expected
  rw [foldl_append]
  rfl

/-- What a run leaves: the file stores some collection.  While no newline has been in a name, that
    collection is the expected one and every earlier name in it was read back. -/
theorem run_invariant {cs : List Call} (h : Run collect cs file) :
    ∃ bs, storeArchive collect bs = some file ∧ (∀ b ∈ bs, FileName b.name) ∧
      ((∀ b ∈ expected cs, NEWLINE ∉ b.name.1) → bs = expected cs) ∧
      ((∀ b ∈ expected cs, Plain b.name) → bs = expected cs) := by
  induction h with
  | @first c file hc =>
    obtain ⟨old, hold, hs⟩ := mtArUpdate_some hc
    cases hold
    refine ⟨_, hs, fun b hb => ?_, fun _ => rfl, fun _ => rfl⟩
    exact c.inputs_fileName b ((mem_addMembers hb).resolve_left (by simp))
  | @next cs c old file _ hc ih =>
    obtain ⟨bs, hstore, hfile, hnl, -⟩ := ih
    obtain ⟨old', hold, hs⟩ := mtArUpdate_some hc
    obtain ⟨loaded, hload, hblob⟩ := bind_eq_some_iff.mp hold
    rw [loadArchive_store hfile hstore] at hload
    obtain ⟨back, hback, rfl⟩ := map_eq_some_iff.mp hload
    obtain rfl := Option.some.inj ((mapM_blob back).symm.trans hblob)
    have hnewline : (∀ b ∈ expected (cs ++ [c]), NEWLINE ∉ b.name.1) →
        c.inputs.foldl (addMember c.flags) back = expected (cs ++ [c]) := by
      intro h
      rw [expected_append] at h ⊢
      -- names persist, so the earlier ones hold no newline either
      have hprev : ∀ b ∈ expected cs, NEWLINE ∉ b.name.1 := by
        intro b hb
        obtain ⟨y, hy, hn⟩ := @name_mem_addMembers c.flags c.inputs _ b (Or.inl hb)
        rw [← hn]
        exact h y hy
      have hbs := hnl hprev
      rw [hbs] at hback
      rw [(mapM_readBack_not_newline hprev hback).1]
    refine ⟨_, hs, fun b hb => ?_, hnewline, fun h => hnewline fun b hb => (h b hb).not_newline⟩
    rcases mem_addMembers hb with hb | hb
    · exact mapM_readBack_all (fun b b' hf hr => (readBack_some hf hr).2) hfile hback b hb
    · exact c.inputs_fileName b hb

/-- After any successful calls the archive holds the expected members, in order and byte for byte,
    exactly when every one of their names is plain. -/
theorem run_loadArchive_iff {cs : List Call} {file : Bytes} (h : Run collect cs file) :
    loadArchive file = some ((expected cs).map Blob.loaded) ↔
      ∀ b ∈ expected cs, Plain b.name := by
  obtain ⟨bs, hstore, hfile, hnl, hplain⟩ := run_invariant h
  rw [loadArchive_store hfile hstore]
  constructor
  · intro hload
    obtain ⟨back, hback, he⟩ := map_eq_some_iff.mp hload
    obtain rfl := map_injective_iff.mpr loaded_injective he
    -- nothing that is read back has a newline in its name
    have hnone := mapM_readBack_all (P := fun b => FileName b.name)
      (fun b b' hf hr => (readBack_some hf hr).1) hfile hback
    have hbs := hnl hnone
    rw [hbs] at hback
    exact (mapM_readBack_not_newline hnone hback).2
  · intro h
    have hbs := hplain h
    rw [hbs] at hfile ⊢
    rw [mapM_readBack_plain hfile h]
    rfl

/-! ### One call -/

/-- `ar r` of one file that holds a single byte. -/
def storeOne (name : CString) : Call :=
  { files := fun _ => some [120], members := [name], flags := ⟨true, false⟩ }

theorem zero_notMem_nameA : (0 : UInt8) ∉ ([97] : Bytes) := by decide

/-- The file `a`. -/
def nameA : CString := ⟨[97], zero_notMem_nameA⟩

/-- The file `#1`. -/
def nameHashOne : CString := ⟨[35, 49], by decide⟩

/-- No file contributes symbols. -/
def noSymbols : Bytes → Option (List CString) := fun _ => some []

theorem run_storeOne {name : CString}
    (h : (mtArUpdate noSymbols (storeOne name).files none [name] ⟨true, false⟩).isSome = true) :
    ∃ file, Run noSymbols [storeOne name] file := by
  obtain ⟨file, hfile⟩ := isSome_iff_exists.mp h
  exact ⟨file, Run.first hfile⟩

/-- An archive with the member `a`. -/
theorem run_loadArchive_a :
    ∃ file, Run noSymbols [storeOne nameA] file ∧
      loadArchive file = some [⟨some nameA, [120]⟩] := by
  obtain ⟨file, hrun⟩ := @run_storeOne nameA (by decide)
  refine ⟨file, hrun, ?_⟩
  have hexp : expected [storeOne nameA] = [⟨nameA, [120]⟩] := by decide
  have hplain : Plain nameA := ⟨by decide, fun _ => by decide, fun h => absurd h (by decide)⟩
  have h := (run_loadArchive_iff hrun).mpr (by rw [hexp]; simpa using hplain)
  rw [hexp] at h
  exact h

/-- The archive with the member `#1` is not readable: its header looks like that of a BSD name. -/
theorem hashOne_not_readable :
    ∃ file, Run noSymbols [storeOne nameHashOne] file ∧ loadArchive file = none ∧
      loadArchive file ≠ some ((expected [storeOne nameHashOne]).map Blob.loaded) := by
  obtain ⟨file, hrun⟩ := @run_storeOne nameHashOne (by decide)
  have hexp : expected [storeOne nameHashOne] = [⟨nameHashOne, [120]⟩] := by decide
  obtain ⟨bs, hstore, hfile, hnl, -⟩ := run_invariant hrun
  have hbs : bs = [⟨nameHashOne, [120]⟩] := by
    rw [← hexp]
    apply hnl
    rw [hexp]
    decide
  have hnone : loadArchive file = none := by
    rw [loadArchive_store hfile hstore, hbs]
    decide
  exact ⟨file, hrun, hnone, by rw [hnone]; simp⟩

end MeuOS.Ar
