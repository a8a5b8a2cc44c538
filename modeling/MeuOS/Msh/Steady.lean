import MeuOS.Msh.Eval

namespace MeuOS.Msh

open Lib

/-!
# What commands leave alone

Words, redirections and programs have no part in the flow of control: they do not touch the flags.

* `OnFlags` — a reading of the state that depends on these flags alone;
* `keeps_applyRedirects`, `keeps_runSimpleCmd`, `keeps_findFunction` and others — what leaves such a
  reading as it is.
-/

variable {ω : Type} {host : Host ω} {α β : Type} {p : Shell ω → β}

/-- `p` reads nothing of the machine, the tables and `set -e`. -/
def OnFlags (p : Shell ω → β) : Prop :=
  ∀ s m commands bodies functions errexit,
    p { s with
        toMachine := m, commands := commands, bodies := bodies, functions := functions,
        errexit := errexit } = p s

open Process (Keeps)

theorem Quiet.keeps (hp : OnFlags p) {x : Process (Shell ω) α} (hx : Quiet x) : Keeps p x := by
  intro s
  obtain ⟨a, env, world, h⟩ := hx s
  rw [h]
  exact hp _ _ _ _ _ _

/-! ### Redirections -/

theorem keeps_dup (hp : OnFlags p) (fd : Nat) : Keeps p (dup fd : Process (Shell ω) _) := by
  intro s
  unfold dup
  rw [Process.step_apply]
  dsimp only
  split
  · exact hp _ _ _ _ _ _
  · rfl

theorem keeps_dup2 (hp : OnFlags p) (fd target : Nat) :
    Keeps p (dup2 fd target : Process (Shell ω) _) := by
  intro s
  unfold dup2
  rw [Process.step_apply]
  dsimp only
  split
  · exact hp _ _ _ _ _ _
  · rfl

theorem keeps_closeFd (hp : OnFlags p) (fd : Nat) : Keeps p (closeFd fd : Process (Shell ω) _) :=
  fun _ => hp _ _ _ _ _ _

theorem keeps_newFd (hp : OnFlags p) (d : Nat) : Keeps p (newFd d : Process (Shell ω) _) :=
  fun _ => hp _ _ _ _ _ _

theorem keeps_openTarget (hp : OnFlags p) (mode : OpenMode) (target : Word) :
    Keeps p (openTarget host mode target) := by
  refine Keeps.bind (fun _ => hp _ _ _ _ _ _) fun opened => ?_
  split
  · exact (keeps_newFd hp _).bind fun _ => Keeps.pure _
  · exact Keeps.pure _

theorem keeps_openPipe (hp : OnFlags p) : Keeps p (openPipe host) := by
  refine Keeps.bind (fun _ => hp _ _ _ _ _ _) fun opened => ?_
  split
  · exact (keeps_newFd hp _).bind fun _ => (keeps_newFd hp _).bind fun _ => Keeps.pure _
  · exact Keeps.pure _

theorem keeps_writeFd (hp : OnFlags p) (fd : Nat) (content : Bytes) :
    Keeps p (writeFd host fd content) := by
  intro s
  unfold writeFd
  rw [Process.modify_apply]
  dsimp only
  split
  · rfl
  · exact hp _ _ _ _ _ _

theorem keeps_textPipe (hp : OnFlags p) {content : Process (Shell ω) Bytes}
    (hcontent : Keeps p content) : Keeps p (textPipe host content) := by
  refine (keeps_openPipe hp).bind fun ends => ?_
  split
  · exact Keeps.pure _
  · exact hcontent.bind fun _ => (keeps_writeFd hp _ _).bind fun _ =>
      (keeps_closeFd hp _).bind fun _ => Keeps.pure _

theorem keeps_redirectFd (hp : OnFlags p) (node index : Nat) (r : Redirect) :
    Keeps p (redirectFd host node index r) := by
  refine ((quiet_expandString _).keeps hp).bind fun target => ?_
  split
  · exact ((quiet_expandString _).keeps hp).bind fun text => keeps_textPipe hp (Keeps.pure _)
  · refine (keeps_textPipe hp ?_).bind fun fd => ?_
    · split
      · exact (quiet_expandString _).keeps hp
      · exact Keeps.pure _
    · split
      · exact Keeps.pure _
      · exact Keeps.bind (fun _ => hp _ _ _ _ _ _) fun _ => Keeps.pure _
  · exact Keeps.pure _
  · exact keeps_openTarget hp _ _
  · exact keeps_openTarget hp _ _
  · exact keeps_openTarget hp _ _
  all_goals
    unfold dupTarget
    split
    · exact Keeps.pure _
    · exact keeps_dup hp _

theorem keeps_applyRedirects (hp : OnFlags p) (node index : Nat) (redir : List Redirect)
    (saved : Saved) : Keeps p (applyRedirects host node index redir saved) := by
  induction redir generalizing index saved with
  | nil => exact Keeps.pure _
  | cons r rest ih =>
    refine Keeps.bind ((keeps_redirectFd hp node index r).bind fun fd => ?_) fun saved' => ?_
    · split
      · exact Keeps.pure _
      · refine Keeps.bind ?_ fun saved' => (keeps_dup2 hp _ _).bind fun _ =>
          (keeps_closeFd hp _).bind fun _ => Keeps.pure _
        unfold save
        split
        · exact Keeps.pure _
        · exact (keeps_dup hp _).bind fun _ => Keeps.pure _
    · split
      · exact Keeps.pure _
      · exact ih _ _

theorem keeps_restoreFd (hp : OnFlags p) (copy : Option Nat) (stream : Stream) :
    Keeps p (restoreFd copy stream : Process (Shell ω) _) := by
  unfold restoreFd
  split
  · exact Keeps.pure _
  · exact (keeps_dup2 hp _ _).bind fun _ => keeps_closeFd hp _

/-! ### Commands -/

/-- A command leaves what its builtin leaves. -/
theorem keeps_runSimpleCmd (hp : OnFlags p)
    (hbuiltin : ∀ name args, Keeps p (runBuiltin host name args)) (node : Nat) :
    Keeps p (runSimpleCmd host node) := by
  refine Keeps.get.bind fun s => ?_
  dsimp only
  split
  · exact Keeps.pure _
  refine ((quiet_expandArgv _).keeps hp).bind fun argv =>
    (keeps_applyRedirects hp _ _ _ _).bind fun saved => ?_
  split
  · exact Keeps.pure _
  refine Keeps.bind ?_ fun rc => (keeps_restoreFd hp _ _).bind fun _ =>
    (keeps_restoreFd hp _ _).bind fun _ => Keeps.pure _
  unfold runWords
  split
  · split
    · exact hbuiltin _ _
    · exact fun _ => hp _ _ _ _ _ _
  · exact fun _ => hp _ _ _ _ _ _

/-! ### The evaluator's own steps -/

theorem keeps_assign (hp : OnFlags p) (text : Word) : Keeps p (assign host text) := by
  unfold assign
  split
  · split
    · exact fun _ => hp _ _ _ _ _ _
    · exact ((quiet_expandString _).keeps hp).bind fun v => fun _ => hp _ _ _ _ _ _
  · exact Keeps.pure _

theorem keeps_substituteAlias (hp : OnFlags p) (node : Nat) :
    Keeps p (substituteAlias host node) := by
  intro s
  unfold substituteAlias
  rw [Process.modify_apply]
  dsimp only
  split
  · split
    · exact hp _ _ _ _ _ _
    · rfl
  · rfl

theorem keeps_findFunction (hp : OnFlags p) (node : Nat) : Keeps p (findFunction host node) := by
  refine Keeps.get.bind fun s => ?_
  split
  · exact Keeps.pure _
  · exact ((quiet_expandArgv _).keeps hp).bind fun argv => Keeps.get.bind fun s => Keeps.pure _

theorem keeps_exitOnError (rc : Int) : Keeps p (exitOnError rc : Process (Shell ω) Int) := by
  refine Keeps.get.bind fun s => ?_
  split
  · exact fun _ => rfl
  · exact Keeps.pure _

theorem keeps_runBackground (hp : OnFlags p) (t : Tree) : Keeps p (runBackground host t) := by
  intro s
  unfold runBackground
  rw [Process.step_apply]
  dsimp only
  split
  · exact hp _ _ _ _ _ _
  · rfl

theorem keeps_runPipeline (hp : OnFlags p) (t : Tree) : Keeps p (runPipeline host t) :=
  fun _ => hp _ _ _ _ _ _

theorem keeps_defineFunction (hp : OnFlags p) (name : Word) (node : Nat) :
    Keeps p (defineFunction name node : Process (Shell ω) Int) :=
  fun _ => hp _ _ _ _ _ _

end MeuOS.Msh
