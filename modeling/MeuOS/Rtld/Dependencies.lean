import MeuOS.Lib.Runs
import MeuOS.Lib.Bytes
import Mathlib.Logic.Relation
import Mathlib.Data.List.Induction

namespace MeuOS.Rtld

open MeuOS.Lib List Lib.Checked

/-!
# Loading and initialising libraries (`rtld.c`)

Libraries name the libraries that they need.  The loader follows these names depth first, and takes
a name for one that it has loaded if a loaded library has that name: its `DT_SONAME`, or else the
path that it was found under.

* `loadNeeded`, `rtldMain`, `rtldDlopen`, `run` — the code;
* `loadNeeded_ends` — loading ends;
* `idealRun` — the same walk, given up where it would load a file again;
* `Loads` — every file is loaded once, and the constructors run once and in order;
* `loads_iff` — the graphs for which that is so.
-/

/-! ### The code -/

def RTLD_MAX_LIBS : Nat := 64

/-- `sizeof(libpath)`. -/
def LIBPATH_SIZE : Nat := 512

/-- What the dynamic section of a library tells: its `DT_SONAME` and its `DT_NEEDED` names. -/
structure LibFile where
  soname : Option Bytes
  needed : List Bytes

/-- The files: the library behind a path, if there is one that can be loaded, and what the main
    executable needs. -/
structure World where
  needed : List Bytes
  opens : Bytes → Option Nat
  lib : Nat → LibFile

/-- `struct rtld_lib`; the main executable is no library file. -/
structure Loaded where
  name : Bytes
  file : Option Nat
  deriving Repr, DecidableEq

/-- `(main executable)`. -/
def mainLib : Loaded where
  name := "(main executable)".toUTF8.toList
  file := none

/-- `/lib/`. -/
def libDir : Bytes := [0x2f, 0x6c, 0x69, 0x62, 0x2f]

/-- A loaded library has the name. -/
def known (libs : List Loaded) (name : Bytes) : Bool := libs.any fun l => l.name = name

/-- `rtld_load_lib`: the library, which becomes the last one. -/
def rtldLoadLib (W : World) (libs : List Loaded) (path : Bytes) : Option Loaded :=
  if libs.length ≥ RTLD_MAX_LIBS then none
  else (W.opens path).map fun f => { name := (W.lib f).soname.getD path, file := some f }

/-- `rtld_load_lib` with the name, and then with the name under `/lib`, whose path is built in a
    buffer. -/
def rtldLoadNamed (W : World) (libs : List Loaded) (soname : Bytes) :
    Checked Unit (Option Loaded) :=
  match rtldLoadLib W libs soname with
  | some l => .ok (some l)
  | none =>
    if LIBPATH_SIZE < libDir.length + soname.length + 1 then .fault
    else .ok (rtldLoadLib W libs (libDir ++ soname))

/-- The names that a loaded library needs. -/
def World.neededBy (W : World) (l : Loaded) : List Bytes :=
  match l.file with
  | none => W.needed
  | some f => (W.lib f).needed

/-- One turn of the loop of `rtld_load_needed`; `next` is the call for the library loaded. -/
def loadOne (W : World) (next : List Bytes → List Loaded → Checked Unit (List Loaded))
    (libs : List Loaded) (soname : Bytes) : Checked Unit (List Loaded) :=
  if known libs soname then .ok libs
  else do
    match ← rtldLoadNamed W libs soname with
    | none => .ok libs
    | some l => next (W.neededBy l) (libs ++ [l])

/-- `rtld_load_needed`, with calls nested at most `fuel` deep. -/
def loadNeeded (W : World) : Nat → List Bytes → List Loaded → Checked Unit (List Loaded)
  | 0 => fun _ _ => .stuck
  | fuel + 1 => fun needed libs => needed.foldlM (loadOne W (loadNeeded W fuel)) libs

/-- The libraries, and the indices of those initialised, in the order of the `rtld_init_lib`
    calls. -/
structure RtldState where
  libs : List Loaded
  inits : List Nat
  deriving Repr, DecidableEq

/-- `rtld_main`: the main executable is initialised first, and then the libraries. -/
def rtldMain (W : World) : Checked Unit RtldState := do
  let libs ← loadNeeded W RTLD_MAX_LIBS W.needed [mainLib]
  .ok { libs := libs, inits := range libs.length }

/-- `rtld_dlopen`. -/
def rtldDlopen (W : World) (st : RtldState) (name : Bytes) : Checked Unit RtldState :=
  if name = [] ∨ known st.libs name then .ok st
  else
    match rtldLoadLib W st.libs name with
    | none => .ok st
    | some l => do
        let libs ← loadNeeded W RTLD_MAX_LIBS (W.neededBy l) (st.libs ++ [l])
        .ok { libs := libs, inits := st.inits ++ [st.libs.length] }

/-- A start, and calls of `rtld_dlopen`. -/
def run (W : World) (names : List Bytes) : Checked Unit RtldState := do
  let st ← rtldMain W
  names.foldlM (rtldDlopen W) st

/-! ### Loading ends -/

variable {W : World} {libs : List Loaded} {l : Loaded} {f : Nat} {st : RtldState} {name : Bytes}
  {names : List Bytes}

theorem rtldLoadLib_eq_some {path : Bytes} (h : rtldLoadLib W libs path = some l) :
    libs.length < RTLD_MAX_LIBS ∧ ∃ f, W.opens path = some f ∧ l.file = some f := by
  unfold rtldLoadLib at h
  split at h
  · simp at h
  next hlt =>
    obtain ⟨f, hf, rfl⟩ := Option.map_eq_some_iff.mp h
    exact ⟨Nat.lt_of_not_le hlt, f, hf, rfl⟩

/-- A library that has been loaded. -/
theorem rtldLoadNamed_ends (W : World) (libs : List Loaded) (soname : Bytes) :
    (rtldLoadNamed W libs soname).Ends fun found =>
      ∀ l, found = some l → libs.length < RTLD_MAX_LIBS := by
  unfold rtldLoadNamed
  split
  next l hl => exact Checked.Ends.ok fun _ _ => (rtldLoadLib_eq_some hl).1
  next =>
    split
    · exact Checked.Ends.fault
    · exact Checked.Ends.ok fun l hl => (rtldLoadLib_eq_some hl).1

/-- The libraries become more, and fit the table. -/
def Grows (libs libs' : List Loaded) : Prop :=
  libs <+: libs' ∧ libs'.length ≤ RTLD_MAX_LIBS

/-- The room for nested calls. -/
def Room (libs : List Loaded) (fuel : Nat) : Prop :=
  libs.length ≤ RTLD_MAX_LIBS ∧ RTLD_MAX_LIBS < libs.length + fuel

theorem Room.grow {libs libs' : List Loaded} {fuel : Nat} (hroom : Room libs fuel)
    (h : Grows libs libs') : Room libs' fuel :=
  ⟨h.2, hroom.2.trans_le (Nat.add_le_add_right h.1.length_le fuel)⟩

theorem Room.next {libs : List Loaded} {fuel : Nat} (hroom : Room libs (fuel + 1))
    (hlt : libs.length < RTLD_MAX_LIBS) (l : Loaded) : Room (libs ++ [l]) fuel := by
  unfold Room at hroom ⊢
  rw [length_append, length_singleton]
  omega

/-- One turn, when the nested call ends. -/
theorem loadOne_ends {fuel : Nat} {next : List Bytes → List Loaded → Checked Unit (List Loaded)}
    (hnext : ∀ needed libs, Room libs fuel → (next needed libs).Ends (Grows libs))
    (hroom : Room libs (fuel + 1)) (soname : Bytes) :
    (loadOne W next libs soname).Ends (Grows libs) := by
  have hgrows : Grows libs libs := ⟨prefix_rfl, hroom.1⟩
  unfold loadOne
  split
  · exact Checked.Ends.ok hgrows
  · refine (rtldLoadNamed_ends W libs soname).bind fun found hfound => ?_
    match found with
    | none => exact Checked.Ends.ok hgrows
    | some l =>
      refine (hnext (W.neededBy l) (libs ++ [l]) (hroom.next (hfound l rfl) l)).mono
        fun libs' h => ?_
      exact ⟨(prefix_append _ _).trans h.1, h.2⟩

/-- **Loading ends**: every nested call has used up a place of the table. -/
theorem loadNeeded_ends (W : World) (fuel : Nat) (needed : List Bytes) (libs : List Loaded)
    (hroom : Room libs fuel) : (loadNeeded W fuel needed libs).Ends (Grows libs) := by
  induction fuel generalizing needed libs with
  | zero =>
    unfold Room at hroom
    omega
  | succ fuel ih =>
    refine Checked.Ends.foldlM needed (fun libs₁ soname hgrows => ?_)
      ⟨prefix_rfl, hroom.1⟩
    refine (loadOne_ends ih (hroom.grow hgrows) soname).mono fun libs₂ h₂ => ?_
    exact ⟨hgrows.1.trans h₂.1, h₂.2⟩

/-! ### The walk by files -/

/-- Every library file is loaded at most once. -/
def Once (libs : List Loaded) : Prop := (libs.filterMap Loaded.file).Nodup

theorem Once.of_prefix {libs' : List Loaded} (h : Once libs') (hp : libs <+: libs') :
    Once libs :=
  List.Nodup.sublist (hp.sublist.filterMap _) h

/-- One turn of the walk, which is given up where a name that is not known leads to a file that has
    been visited. -/
def idealOne (W : World) (next : List Bytes → List Loaded → Option (List Loaded))
    (libs : List Loaded) (soname : Bytes) : Option (List Loaded) :=
  if known libs soname then some libs
  else
    match rtldLoadNamed W libs soname with
    | .ok none => some libs
    | .ok (some l) =>
      if libs.any fun u => u.file = l.file then none else next (W.neededBy l) (libs ++ [l])
    | _ => none

/-- The walk along `DT_NEEDED` names. -/
def idealNeeded (W : World) : Nat → List Bytes → List Loaded → Option (List Loaded)
  | 0 => fun _ _ => none
  | fuel + 1 => fun needed libs => needed.foldlM (idealOne W (idealNeeded W fuel)) libs

/-- The walk from a name that is opened later. -/
def idealDlopen (W : World) (libs : List Loaded) (name : Bytes) : Option (List Loaded) :=
  if name = [] ∨ known libs name then some libs
  else
    match rtldLoadLib W libs name with
    | none => some libs
    | some l =>
      if libs.any fun u => u.file = l.file then none
      else idealNeeded W RTLD_MAX_LIBS (W.neededBy l) (libs ++ [l])

/-- The walk from the main executable, and then from the names opened. -/
def idealRun (W : World) (names : List Bytes) : Option (List Loaded) := do
  let libs ← idealNeeded W RTLD_MAX_LIBS W.needed [mainLib]
  names.foldlM (idealDlopen W) libs

/-- From libraries loaded once, the loader `y` follows the walk `x`, or loads a file again. -/
structure Follows (x : Option (List Loaded)) (y : Checked Unit (List Loaded)) : Prop where
  found : ∀ libs, x = some libs → y = .ok libs ∧ Once libs
  lost : x = none → ∀ libs, y = .ok libs → ¬ Once libs

theorem Follows.refl (h : Once libs) : Follows (some libs) (.ok libs) where
  found _ hl := Option.some.inj hl ▸ ⟨rfl, h⟩
  lost := nofun

/-- A library whose file has been visited. -/
theorem not_once_of_visited (hl : l.file = some f)
    (h : (libs.any fun u => u.file = l.file) = true) : ¬ Once (libs ++ [l]) := by
  obtain ⟨u, hu, hfile⟩ := any_eq_true.mp h
  have hmem : f ∈ libs.filterMap Loaded.file :=
    mem_filterMap.mpr ⟨u, hu, (of_decide_eq_true hfile).trans hl⟩
  unfold Once
  rw [filterMap_append, nodup_append]
  rintro ⟨-, -, hne⟩
  exact hne f hmem f (by simp [hl]) rfl

theorem once_of_not_visited (hl : l.file = some f)
    (h : ¬ (libs.any fun u => u.file = l.file) = true) (honce : Once libs) :
    Once (libs ++ [l]) := by
  unfold Once
  rw [filterMap_append, nodup_append]
  refine ⟨honce, by simp [hl], fun a ha b hb hab => h ?_⟩
  obtain ⟨u, hu, hua⟩ := mem_filterMap.mp ha
  have hbf : b = f := by simpa [hl] using hb
  exact any_eq_true.mpr ⟨u, hu, decide_eq_true (by rw [hua, hl, hab, hbf])⟩

theorem Follows.again (hl : l.file = some f)
    (h : (libs.any fun u => u.file = l.file) = true) {y : Checked Unit (List Loaded)}
    (hy : y.Ends (Grows (libs ++ [l]))) : Follows none y where
  found := nofun
  lost _ libs' hlibs' honce :=
    not_once_of_visited hl h (honce.of_prefix (hy.2 libs' hlibs').1)

theorem rtldLoadNamed_file {soname : Bytes}
    (h : rtldLoadNamed W libs soname = .ok (some l)) : ∃ f, l.file = some f := by
  unfold rtldLoadNamed at h
  split at h
  next l' hl' =>
    obtain rfl : l' = l := Option.some.inj (ok.inj h)
    obtain ⟨-, f, -, hf⟩ := rtldLoadLib_eq_some hl'
    exact ⟨f, hf⟩
  next =>
    split at h
    · cases h
    · obtain ⟨-, f, -, hf⟩ := rtldLoadLib_eq_some (ok.inj h)
      exact ⟨f, hf⟩

/-- One after the other. -/
theorem Follows.bind {x : Option (List Loaded)} {y : Checked Unit (List Loaded)}
    {f : List Loaded → Option (List Loaded)} {g : List Loaded → Checked Unit (List Loaded)}
    (h : Follows x y) (hf : ∀ libs, y = .ok libs → Once libs → Follows (f libs) (g libs))
    (hg : ∀ libs, y = .ok libs → (g libs).Ends (Grows libs)) : Follows (x >>= f) (y >>= g) where
  found libs' h' := by
    obtain ⟨libs, hx, hlibs'⟩ := Option.bind_eq_some_iff.mp h'
    obtain ⟨hy, honce⟩ := h.found libs hx
    obtain ⟨hgy, honce'⟩ := (hf libs hy honce).found libs' hlibs'
    rw [hy]
    exact ⟨hgy, honce'⟩
  lost hnone libs' hlibs' honce' := by
    obtain ⟨libs, hy, hgy⟩ := bind_eq_ok hlibs'
    have honce := honce'.of_prefix ((hg libs hy).2 libs' hgy).1
    cases hx : x with
    | none => exact h.lost hx libs hy honce
    | some libs₁ =>
      have hy' := (h.found libs₁ hx).1
      cases hy.symm.trans hy'
      rw [hx] at hnone
      exact (hf libs hy honce).lost hnone libs' hgy honce'

/-- **The loader follows the walk.** -/
theorem follows_needed (W : World) (fuel : Nat) (needed : List Bytes) (libs : List Loaded)
    (hroom : Room libs fuel) (honce : Once libs) :
    Follows (idealNeeded W fuel needed libs) (loadNeeded W fuel needed libs) := by
  induction fuel generalizing needed libs with
  | zero =>
    unfold Room at hroom
    omega
  | succ fuel ih =>
    unfold idealNeeded loadNeeded
    induction needed generalizing libs with
    | nil => exact Follows.refl honce
    | cons soname needed ihn =>
      rw [foldlM_cons, foldlM_cons]
      have hends := loadOne_ends (W := W) (loadNeeded_ends W fuel) hroom soname
      refine Follows.bind ?_ (fun libs' hlibs' honce' => ?_) (fun libs' hlibs' => ?_)
      · -- one name
        unfold idealOne loadOne
        split
        · exact Follows.refl honce
        · match hfound : rtldLoadNamed W libs soname with
          | .ok none => exact Follows.refl honce
          | .ok (some l) =>
            obtain ⟨f, hl⟩ := rtldLoadNamed_file hfound
            have hlt := (rtldLoadNamed_ends W libs soname).2 _ hfound l rfl
            have hroom' := hroom.next hlt l
            dsimp only
            split
            next hvisited =>
              exact Follows.again hl hvisited (loadNeeded_ends W fuel _ _ hroom')
            next hvisited =>
              exact ih _ _ hroom' (once_of_not_visited hl hvisited honce)
          | .fail e => exact ⟨nofun, nofun⟩
          | .fault => exact ⟨nofun, nofun⟩
          | .stuck => exact ⟨nofun, nofun⟩
      · exact ihn libs' (hroom.grow (hends.2 libs' hlibs')) honce'
      · exact loadNeeded_ends W (fuel + 1) needed libs' (hroom.grow (hends.2 libs' hlibs'))

/-! ### A run -/

/-- The state `st` of a run, next to the walk. -/
structure Agrees (libs : Option (List Loaded)) (st : RtldState) : Prop where
  room : 0 < st.libs.length ∧ st.libs.length ≤ RTLD_MAX_LIBS
  found : ∀ l, libs = some l → st.libs = l ∧ Once l
  lost : libs = none → ¬ Once st.libs

theorem room_of_pos (hpos : 0 < libs.length)
    (hle : libs.length ≤ RTLD_MAX_LIBS) : Room libs RTLD_MAX_LIBS := by
  unfold Room
  omega

theorem rtldMain_ends (W : World) :
    (rtldMain W).Ends fun st => Agrees (idealNeeded W RTLD_MAX_LIBS W.needed [mainLib]) st ∧
      st.inits = range st.libs.length := by
  have hroom : Room [mainLib] RTLD_MAX_LIBS := by
    unfold Room
    decide
  have hends := loadNeeded_ends W RTLD_MAX_LIBS W.needed [mainLib] hroom
  have hfollows := follows_needed W RTLD_MAX_LIBS W.needed [mainLib] hroom
    (by simp [Once, mainLib])
  refine Checked.Ends.bind (P := fun libs =>
    loadNeeded W RTLD_MAX_LIBS W.needed [mainLib] = .ok libs) ⟨hends.1, fun _ h => h⟩
    fun libs hlibs => ?_
  have hgrows := hends.2 libs hlibs
  refine Checked.Ends.ok ⟨⟨⟨hgrows.1.length_le, hgrows.2⟩, fun l hl => ?_, fun hnone => ?_⟩, rfl⟩
  · obtain ⟨hok, honce⟩ := hfollows.found l hl
    exact ⟨ok.inj (hlibs.symm.trans hok), honce⟩
  · exact hfollows.lost hnone libs hlibs

/-- What a call of `rtld_dlopen` does: nothing, or it loads a library, and others behind it, and
    initialises the library. -/
theorem rtldDlopen_ends (W : World) (st : RtldState) (name : Bytes) :
    (rtldDlopen W st name).Ends fun st' => st' = st ∨ Grows st.libs st'.libs ∧
      st.libs.length < st'.libs.length ∧ st'.inits = st.inits ++ [st.libs.length] := by
  unfold rtldDlopen
  split
  · exact Checked.Ends.ok (Or.inl rfl)
  · match hload : rtldLoadLib W st.libs name with
    | none => exact Checked.Ends.ok (Or.inl rfl)
    | some l =>
      have hlt := (rtldLoadLib_eq_some hload).1
      have hroom : Room (st.libs ++ [l]) RTLD_MAX_LIBS := by
        refine room_of_pos (by simp) ?_
        rw [length_append]
        exact hlt
      refine (loadNeeded_ends W RTLD_MAX_LIBS _ _ hroom).bind fun libs hlibs => ?_
      refine Checked.Ends.ok (Or.inr ⟨?_, ?_, rfl⟩)
      · exact ⟨(prefix_append _ _).trans hlibs.1, hlibs.2⟩
      · have hlen := hlibs.1.length_le
        rw [length_append] at hlen
        exact hlen

/-- The libraries after a call of `rtld_dlopen`. -/
def dlopenLibs (W : World) (st : RtldState) (name : Bytes) : Checked Unit (List Loaded) := do
  let st ← rtldDlopen W st name
  .ok st.libs

/-- A call of `rtld_dlopen` follows the walk. -/
theorem follows_dlopen (W : World) (st : RtldState) (name : Bytes) (honce : Once st.libs) :
    Follows (idealDlopen W st.libs name) (dlopenLibs W st name) := by
  unfold idealDlopen dlopenLibs rtldDlopen
  split
  · exact Follows.refl honce
  · match hload : rtldLoadLib W st.libs name with
    | none => exact Follows.refl honce
    | some l =>
      obtain ⟨hlt, f, -, hl⟩ := rtldLoadLib_eq_some hload
      have hroom : Room (st.libs ++ [l]) RTLD_MAX_LIBS := by
        refine room_of_pos (by simp) ?_
        rw [length_append]
        exact hlt
      have hneeded := loadNeeded_ends W RTLD_MAX_LIBS (W.neededBy l) _ hroom
      have hlibs : ∀ y : Checked Unit (List Loaded),
          ((y >>= fun libs => ok (RtldState.mk libs (st.inits ++ [st.libs.length]))) >>=
            fun st => ok st.libs) = y := by
        intro y
        cases y <;> rfl
      dsimp only
      rw [hlibs]
      split
      next hvisited => exact Follows.again hl hvisited hneeded
      next hvisited =>
        exact follows_needed W RTLD_MAX_LIBS (W.neededBy l) _ hroom
          (once_of_not_visited hl hvisited honce)

/-- A call of `rtld_dlopen` next to the walk. -/
theorem rtldDlopen_agrees {libs : Option (List Loaded)} (h : Agrees libs st) :
    (rtldDlopen W st name).Ends (Agrees (libs >>= fun l => idealDlopen W l name)) := by
  have hends := rtldDlopen_ends W st name
  refine ⟨hends.1, fun st' hst' => ?_⟩
  have hgrows : st.libs <+: st'.libs ∧ st'.libs.length ≤ RTLD_MAX_LIBS := by
    rcases hends.2 st' hst' with rfl | ⟨hg, -, -⟩
    · exact ⟨prefix_rfl, h.room.2⟩
    · exact hg
  have hroom' : 0 < st'.libs.length ∧ st'.libs.length ≤ RTLD_MAX_LIBS :=
    ⟨h.room.1.trans_le hgrows.1.length_le, hgrows.2⟩
  cases libs with
  | none => exact ⟨hroom', nofun, fun _ honce => h.lost rfl (honce.of_prefix hgrows.1)⟩
  | some l =>
    obtain ⟨rfl, honce⟩ := h.found l rfl
    have hfollows := follows_dlopen W st name honce
    have hlibs' : dlopenLibs W st name = .ok st'.libs := by
      unfold dlopenLibs
      rw [hst']
      rfl
    refine ⟨hroom', fun l hl => ?_, fun hnone => hfollows.lost hnone _ hlibs'⟩
    obtain ⟨hok, honce'⟩ := hfollows.found l hl
    exact ⟨ok.inj (hlibs'.symm.trans hok), honce'⟩

/-! ### What ought to be -/

/-- The file that a name is found in, directly or under `/lib`. -/
def World.find (W : World) (name : Bytes) : Option Nat :=
  (W.opens name).or (W.opens (libDir ++ name))

/-- A library needs another. -/
def World.DependsOn (W : World) (f g : Nat) : Prop :=
  ∃ name ∈ (W.lib f).needed, W.find name = some g

/-- No library needs itself, directly or through others. -/
def World.Acyclic (W : World) : Prop := ∀ f, ¬ Relation.TransGen W.DependsOn f f

/-- The constructors of every library have run once, after those of the libraries it needs. -/
structure Initialised (W : World) (st : RtldState) : Prop where
  once : ∀ i < st.libs.length, st.inits.count i = 1
  order : ∀ i j f g : Nat, (st.libs[i]?).bind Loaded.file = some f →
    (st.libs[j]?).bind Loaded.file = some g → W.DependsOn f g →
      st.inits.idxOf j < st.inits.idxOf i

/-- A start and the calls of `rtld_dlopen` come to an end, every library file has been loaded at
    most once, and for a graph without cycles the constructors have run as they should. -/
def Loads (W : World) (names : List Bytes) : Prop :=
  ∃ st, run W names = .ok st ∧ Once st.libs ∧ (W.Acyclic → Initialised W st)

/-- No library needs one at or behind its own place. -/
def Forward (W : World) (libs : List Loaded) : Prop :=
  ∀ i j f g : Nat, (libs[i]?).bind Loaded.file = some f → (libs[j]?).bind Loaded.file = some g →
    W.DependsOn f g → j < i

/-- Every name that is opened leads to one new library at most. -/
def Alone (W : World) (names : List Bytes) : Prop :=
  ∀ before name after libs libs', names = before ++ name :: after →
    idealRun W before = some libs → idealRun W (before ++ [name]) = some libs' →
      libs'.length ≤ libs.length + 1

/-- The walk along the names is not given up; and for a graph without cycles it comes to every
    library behind those that it needs, with one new library at most for each name opened. -/
def Orderly (W : World) (names : List Bytes) : Prop :=
  ∃ libs, idealRun W names = some libs ∧ (W.Acyclic → Alone W names ∧ Forward W libs)

/-! ### When it is so -/

theorem idealRun_concat (W : World) (names : List Bytes) (name : Bytes) :
    idealRun W (names ++ [name]) =
      idealRun W names >>= fun libs => idealDlopen W libs name := by
  unfold idealRun
  simp only [foldlM_append, foldlM_cons, foldlM_nil, bind_assoc, bind_pure]

theorem run_concat (W : World) (names : List Bytes) (name : Bytes) :
    run W (names ++ [name]) = run W names >>= fun st => rtldDlopen W st name := by
  unfold run
  match rtldMain W with
  | .ok st =>
    simp only [ok_bind, foldlM_append, foldlM_cons, foldlM_nil]
    match names.foldlM (rtldDlopen W) st with
    | .ok st' =>
      simp only [ok_bind]
      match rtldDlopen W st' name with
      | .ok _ => rfl
      | .fail _ => rfl
      | .fault => rfl
      | .stuck => rfl
    | .fail _ => rfl
    | .fault => rfl
    | .stuck => rfl
  | .fail _ => rfl
  | .fault => rfl
  | .stuck => rfl

/-- A run next to the walk. -/
theorem run_agrees (W : World) (names : List Bytes) :
    (run W names).Ends (Agrees (idealRun W names)) := by
  induction names using reverseRecOn with
  | nil =>
    have h := (rtldMain_ends W).mono fun st h => h.1
    refine h.bind fun st hst => Checked.Ends.ok ?_
    unfold idealRun
    simpa using hst
  | append_singleton names name ih =>
    rw [run_concat, idealRun_concat]
    exact ih.bind fun st hst => rtldDlopen_agrees hst

/-- A walk that is not given up is a run. -/
theorem run_ok (h : idealRun W names = some libs) : ∃ st, run W names = .ok st := by
  induction names using reverseRecOn generalizing libs with
  | nil =>
    have hideal : idealNeeded W RTLD_MAX_LIBS W.needed [mainLib] = some libs := by
      unfold idealRun at h
      simpa using h
    have hfollows := follows_needed W RTLD_MAX_LIBS W.needed [mainLib]
      (by unfold Room; decide) (by simp [Once, mainLib])
    refine ⟨{ libs := libs, inits := range libs.length }, ?_⟩
    unfold run rtldMain
    rw [(hfollows.found libs hideal).1]
    rfl
  | append_singleton names name ih =>
    rw [idealRun_concat] at h
    obtain ⟨libs₀, h₀, hname⟩ := Option.bind_eq_some_iff.mp h
    obtain ⟨st₀, hst₀⟩ := ih h₀
    obtain ⟨rfl, honce⟩ := ((run_agrees W names).2 st₀ hst₀).found libs₀ h₀
    obtain ⟨hok, -⟩ := (follows_dlopen W st₀ name honce).found libs hname
    obtain ⟨st, hst, -⟩ := bind_eq_ok hok
    exact ⟨st, by rw [run_concat, hst₀]; exact hst⟩

/-- The indices that have been initialised. -/
structure Inits (W : World) (names : List Bytes) (st : RtldState) : Prop where
  bound : ∀ i ∈ st.inits, i < st.libs.length
  alone : Alone W names → st.inits = range st.libs.length
  counted : (∀ i < st.libs.length, st.inits.count i = 1) → Alone W names

theorem Alone.of_concat (h : Alone W (names ++ [name])) : Alone W names := by
  intro before n after libs libs' hnames hlibs hlibs'
  exact h before n (after ++ [name]) libs libs' (by simp [hnames]) hlibs hlibs'

/-- One more name. -/
theorem alone_concat {libs' : List Loaded}
    (h : Alone W names) (hlibs : idealRun W names = some libs)
    (hlibs' : idealRun W (names ++ [name]) = some libs') (hle : libs'.length ≤ libs.length + 1) :
    Alone W (names ++ [name]) := by
  intro before n after l l' hnames hl hl'
  rcases eq_nil_or_concat after with rfl | ⟨after, m, rfl⟩
  · obtain ⟨rfl, hn⟩ := append_inj' hnames rfl
    obtain rfl : name = n := by simpa using hn
    cases hlibs.symm.trans hl
    cases hlibs'.symm.trans hl'
    exact hle
  · rw [concat_eq_append, ← cons_append, ← append_assoc] at hnames
    obtain ⟨hnames', -⟩ := append_inj' hnames rfl
    exact h before n after l l' hnames' hl hl'

/-- The indices of a run. -/
theorem run_inits
    (hlibs : idealRun W names = some libs) (hst : run W names = .ok st) : Inits W names st := by
  induction names using reverseRecOn generalizing libs st with
  | nil =>
    obtain ⟨st₀, h₀, hok⟩ := bind_eq_ok hst
    obtain rfl := ok.inj hok
    have hinits := ((rtldMain_ends W).2 st₀ h₀).2
    refine ⟨fun i hi => ?_, fun _ => hinits, fun _ before n after l l' hnames => ?_⟩
    · rw [hinits] at hi
      exact mem_range.mp hi
    · simp at hnames
  | append_singleton names name ih =>
    rw [idealRun_concat] at hlibs
    obtain ⟨libs₀, hlibs₀, hname⟩ := Option.bind_eq_some_iff.mp hlibs
    rw [run_concat] at hst
    obtain ⟨st₀, hst₀, hdlopen⟩ := bind_eq_ok hst
    have hinits := ih hlibs₀ hst₀
    have hagrees₀ := ((run_agrees W names).2 st₀ hst₀).found libs₀ hlibs₀
    have hlibs' : idealRun W (names ++ [name]) = some libs := by
      rw [idealRun_concat]
      exact hlibs
    have hagrees := ((run_agrees W (names ++ [name])).2 st (by rw [run_concat]; exact hst)).found
      libs hlibs'
    have hlast : ∀ h : Alone W (names ++ [name]), st.libs.length ≤ st₀.libs.length + 1 := by
      intro h
      rw [hagrees.1, hagrees₀.1]
      exact h names name [] libs₀ libs rfl hlibs₀ hlibs'
    have hmore : st.libs.length ≤ st₀.libs.length + 1 → Alone W names →
        Alone W (names ++ [name]) := by
      intro hle h
      rw [hagrees.1, hagrees₀.1] at hle
      exact alone_concat h hlibs₀ hlibs' hle
    rcases (rtldDlopen_ends W st₀ name).2 st hdlopen with rfl | ⟨hgrows, hlt, happ⟩
    · -- nothing has been loaded
      exact ⟨hinits.bound, fun h => hinits.alone h.of_concat,
        fun h => hmore (Nat.le_succ _) (hinits.counted h)⟩
    · have hnew : st₀.libs.length ∉ st₀.inits := fun h =>
        Nat.lt_irrefl _ (hinits.bound _ h)
      refine ⟨fun i hi => ?_, fun h => ?_, fun h => ?_⟩
      · rw [happ, mem_append, mem_singleton] at hi
        rcases hi with hi | rfl
        · exact (hinits.bound i hi).trans hlt
        · exact hlt
      · have hlen : st.libs.length = st₀.libs.length + 1 := Nat.le_antisymm (hlast h) hlt
        rw [happ, hinits.alone h.of_concat, hlen, range_succ]
      · refine hmore ?_ (hinits.counted fun i hi => ?_)
        · -- a library behind the one opened is never initialised
          by_contra hle
          have hcount := h (st₀.libs.length + 1) (by omega)
          rw [happ, count_append, count_eq_zero.mpr, count_singleton] at hcount
          · simp at hcount
          · exact fun hmem => absurd (hinits.bound _ hmem) (by omega)
        · have hcount := h i (hi.trans hlt)
          rw [happ, count_append, count_singleton] at hcount
          have hne : ¬ (st₀.libs.length == i) = true := by
            simpa using (Nat.ne_of_lt hi).symm
          rw [if_neg hne] at hcount
          exact hcount

/-- Initialised in the order of loading. -/
theorem initialised_range (h : st.inits = range st.libs.length) :
    Initialised W st ↔ Forward W st.libs := by
  have hidx : ∀ i f : Nat, (st.libs[i]?).bind Loaded.file = some f →
      st.inits.idxOf i = i := by
    intro i f hi
    obtain ⟨l, hl, -⟩ := Option.bind_eq_some_iff.mp hi
    have hlt := (List.getElem?_eq_some_iff.mp hl).1
    have hidx := (@List.nodup_range st.libs.length).idxOf_getElem i (by simpa using hlt)
    rwa [getElem_range, ← h] at hidx
  constructor
  · intro hinit i j f g hf hg hdep
    have horder := hinit.order i j f g hf hg hdep
    rwa [hidx i f hf, hidx j g hg] at horder
  · intro hforward
    refine ⟨fun i hi => ?_, fun i j f g hf hg hdep => ?_⟩
    · rw [h]
      exact count_eq_one_of_mem nodup_range (mem_range.mpr hi)
    · rw [hidx i f hf, hidx j g hg]
      exact hforward i j f g hf hg hdep

/-- Loading ends in every graph, with cycles or without; and the libraries are loaded once and
    initialised as they should be exactly when the walk by files is orderly. -/
theorem loads_iff (W : World) (names : List Bytes) :
    run W names ≠ .stuck ∧ (Loads W names ↔ Orderly W names) := by
  have hends := run_agrees W names
  refine ⟨hends.1, ?_⟩
  constructor
  · rintro ⟨st, hst, honce, hinit⟩
    have hagrees := hends.2 st hst
    cases hlibs : idealRun W names with
    | none => exact absurd honce (hagrees.lost hlibs)
    | some libs =>
      have hinits := run_inits hlibs hst
      refine ⟨libs, hlibs, fun hacyclic => ?_⟩
      have hin := hinit hacyclic
      have halone := hinits.counted hin.once
      rw [← (hagrees.found libs hlibs).1]
      exact ⟨halone, (initialised_range (hinits.alone halone)).mp hin⟩
  · rintro ⟨libs, hlibs, horderly⟩
    obtain ⟨st, hst⟩ := run_ok hlibs
    obtain ⟨hsame, honce⟩ := (hends.2 st hst).found libs hlibs
    have hinits := run_inits hlibs hst
    refine ⟨st, hst, hsame ▸ honce, fun hacyclic => ?_⟩
    obtain ⟨halone, hforward⟩ := horderly hacyclic
    exact (initialised_range (hinits.alone halone)).mpr (hsame ▸ hforward)

/-- The main executable needs `a`, and `a` needs `b`. -/
def chain : World where
  needed := [[0x61]]
  opens path := if path = [0x61] then some 0 else if path = [0x62] then some 1 else none
  lib f :=
    if f = 0 then { soname := some [0x61], needed := [[0x62]] }
    else { soname := some [0x62], needed := [] }

theorem chain_acyclic : chain.Acyclic := by
  have hlt : ∀ f g, chain.DependsOn f g → f < g := by
    rintro f g ⟨name, hname, hfind⟩
    by_cases hf : f = 0
    · subst hf
      obtain rfl : name = [0x62] := by simpa [chain] using hname
      obtain rfl : 1 = g := Option.some.inj hfind
      exact Nat.zero_lt_one
    · simp [chain, hf] at hname
  have hpath : ∀ f g, Relation.TransGen chain.DependsOn f g → f < g := by
    intro f g h
    induction h with
    | single h => exact hlt _ _ h
    | tail _ h ih => exact ih.trans (hlt _ _ h)
  exact fun f hcycle => Nat.lt_irrefl f (hpath f f hcycle)

/-- The constructors of `a` run before those of `b`. -/
theorem not_loads_chain : chain.Acyclic ∧ ¬ Loads chain [] := by
  refine ⟨chain_acyclic, ?_⟩
  rintro ⟨st, hst, -, hinit⟩
  have hrun : (run chain []).toOption = some
      { libs := [mainLib, { name := [0x61], file := some 0 }, { name := [0x62], file := some 1 }]
        inits := [0, 1, 2] } := by
    decide +kernel
  rw [eq_ok_of_toOption hrun] at hst
  cases hst
  have horder := (hinit chain_acyclic).order 1 2 0 1 rfl rfl
    ⟨[0x62], by simp [chain], rfl⟩
  exact absurd horder (by decide)

end MeuOS.Rtld
