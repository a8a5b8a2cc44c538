import MeuOS.Msh.Command

namespace MeuOS.Msh

open Lib Function List

/-!
# Redirections are undone, and in which order they are done

* `makesFd_redirectFd`, `redirectTo_spec` — one redirection makes a new descriptor or none, and puts
  it in place of a stream;
* `Held` — the invariant of the loop: every stream that has been redirected has a copy, and all
  other descriptors are as before;
* `applied`, `Clean` — the redirections that have been applied, and what a command owes;
* `runSimpleCmd_clean_iff` — when a command leaves the descriptors as they were and runs behind its
  redirections in the order they are written in.
-/

variable {ω α β : Type} {host : Host ω}

/-! ### One redirection -/

/-- A computation that makes one new descriptor, or none and leaves all as they were. -/
def MakesFd (x : Process (Shell ω) (Option Nat)) : Prop :=
  ∀ s, (∃ s', x s = (.ok none, s') ∧ ∀ k, s'.fds.refers k = s.fds.refers k) ∨
    ∃ fd d s', x s = (.ok (some fd), s') ∧ s.fds.refers fd = none ∧
      ∀ k, s'.fds.refers k = if k = fd then some d else s.fds.refers k

theorem makesFd_none : MakesFd (pure none : Process (Shell ω) (Option Nat)) :=
  fun s => .inl ⟨s, rfl, fun _ => rfl⟩

variable {x : Stream} {orig t t' : Descriptors Nat} {saved : Saved} {c d : Nat} {s : Shell ω}

theorem Quiet.makesFd {x : Process (Shell ω) α} {f : α → Process (Shell ω) (Option Nat)}
    (hx : Quiet x) (hf : ∀ a, MakesFd (f a)) : MakesFd (x >>= f) := by
  intro s
  obtain ⟨a, env, world, hxs⟩ := hx s
  rw [Process.bind_of_ok hxs f]
  exact hf a { s with env := env, world := world }

theorem makesFd_openTarget (mode : OpenMode) (target : Word) :
    MakesFd (openTarget host mode target) := by
  intro s
  unfold openTarget
  rw [Process.step_bind]
  cases (host.openFile s.toMachine mode target).1 with
  | none => exact .inl ⟨_, rfl, fun _ => rfl⟩
  | some d =>
    exact .inr ⟨s.fds.least, d, _, rfl, s.fds.refers_least, fun k => s.fds.refers_place d k⟩

theorem makesFd_dup (fd : Nat) : MakesFd (dup fd : Process (Shell ω) (Option Nat)) := by
  intro s
  unfold dup
  rw [Process.step_apply]
  cases s.fds.refers fd with
  | none => exact .inl ⟨_, rfl, fun _ => rfl⟩
  | some d =>
    exact .inr ⟨s.fds.least, d, _, rfl, s.fds.refers_least, fun k => s.fds.refers_place d k⟩

theorem makesFd_dupTarget (target : Word) :
    MakesFd (dupTarget target : Process (Shell ω) (Option Nat)) := by
  unfold dupTarget
  split
  · exact makesFd_none
  · exact makesFd_dup _

/-- The descriptors do not depend on what is written. -/
@[simp] theorem writeFd_fds (fd : Nat) (content : Bytes) (s : Shell ω) :
    (writeFd host fd content s).2.fds = s.fds := by
  unfold writeFd
  rw [Process.modify_apply]
  split <;> rfl

theorem makesFd_textPipe {content : Process (Shell ω) Bytes} (hcontent : Quiet content) :
    MakesFd (textPipe host content) := by
  intro s
  unfold textPipe
  cases hpipe : (host.pipe s.world).1 with
  | none =>
    have hopen : openPipe host s = (.ok none, { s with world := (host.pipe s.world).2 }) := by
      unfold openPipe
      rw [Process.step_bind]
      simp only [hpipe]
      rfl
    exact .inl ⟨_, Process.bind_of_ok hopen _, fun _ => rfl⟩
  | some ends =>
    let t : Shell ω :=
      { s with
        world := (host.pipe s.world).2
        fds := (s.fds.place ends.1).place ends.2 }
    obtain ⟨text, env, world, htext⟩ := hcontent t
    let s₂ := (writeFd host (s.fds.place ends.1).least text { t with env, world }).2
    refine .inr ⟨s.fds.least, ends.1,
      { s₂ with fds := s₂.fds.release (s.fds.place ends.1).least }, ?_, s.fds.refers_least, ?_⟩
    · have hopen : openPipe host s =
          (.ok (some (s.fds.least, (s.fds.place ends.1).least)), t) := by
        unfold openPipe
        rw [Process.step_bind]
        simp only [hpipe]
        rfl
      rw [Process.bind_of_ok hopen]
      exact Process.bind_of_ok htext _
    · intro k
      have hs₂ : s₂.fds = (s.fds.place ends.1).place ends.2 := writeFd_fds _ _ _
      show (s₂.fds.release _).refers k = _
      rw [hs₂, Descriptors.release_place, Descriptors.refers_place]

/-- Marking a here-document changes no descriptor. -/
theorem makesFd_spend {x : Process (Shell ω) (Option Nat)} (hx : MakesFd x) (node index : Nat) :
    MakesFd (do
      match ← x with
      | none => return none
      | some fd =>
        spend node index
        return some fd) := by
  intro s
  rcases hx s with ⟨s', hs', hsame⟩ | ⟨fd, d, s', hs', hfree, hplace⟩
  · exact .inl ⟨s', by rw [Process.bind_of_ok hs']; rfl, hsame⟩
  · exact .inr ⟨fd, d, (spend node index s').2, by rw [Process.bind_of_ok hs']; rfl, hfree, hplace⟩

theorem makesFd_redirectFd (node index : Nat) (r : Redirect) :
    MakesFd (redirectFd host node index r) := by
  refine (quiet_expandString r.target).makesFd fun target => ?_
  split
  case h_1 => exact (quiet_expandString r.target).makesFd fun text =>
      makesFd_textPipe (Quiet.pure _)
  case h_2 body _ _ =>
    refine makesFd_spend (makesFd_textPipe ?_) node index
    split
    · exact quiet_expandString body
    · exact Quiet.pure body
  case h_3 => exact makesFd_none
  case h_4 => exact makesFd_openTarget .read target
  case h_5 => exact makesFd_openTarget .truncate target
  case h_6 => exact makesFd_openTarget .append target
  case h_7 => exact makesFd_dupTarget target
  case h_8 => exact makesFd_dupTarget target

/-! ### The loop -/

theorem Stream.number_inj {y : Stream} (h : x.number = y.number) : x = y := by
  cases x <;> cases y <;> first | rfl | cases h

/-- The invariant of the loop over the redirections, from the descriptors `orig` on: a stream
    without a copy is as it was, a copy is a new descriptor that refers to what its stream
    referred to, and everything else is as before. -/
structure Held (orig t : Descriptors Nat) (saved : Saved) : Prop where
  /-- The streams are open. -/
  isOpen : ∀ x : Stream, (t.refers x.number).isSome
  /-- A stream that has not been redirected. -/
  uncopied : ∀ x, saved x = none → t.refers x.number = orig.refers x.number
  /-- A stream that has been. -/
  copied : ∀ x c, saved x = some c → orig.refers c = none ∧ t.refers c = orig.refers x.number
  /-- No two streams share a copy. -/
  apart : ∀ x y c, saved x = some c → saved y = some c → x = y
  /-- All other descriptors. -/
  rest : ∀ k, (∀ x : Stream, k ≠ x.number) → (∀ x, saved x ≠ some k) → t.refers k = orig.refers k

/-- Before the first redirection. -/
theorem Held.start (hopen : ∀ x : Stream, (orig.refers x.number).isSome) :
    Held orig orig (fun _ => none) where
  isOpen := hopen
  uncopied _ _ := rfl
  copied _ _ h := nomatch h
  apart _ _ _ h := nomatch h
  rest _ _ _ := rfl

/-- Only what the numbers refer to matters. -/
theorem Held.congr (h : Held orig t saved)
    (ht : ∀ k, t'.refers k = t.refers k) : Held orig t' saved where
  isOpen x := by
    rw [ht]
    exact h.isOpen x
  uncopied x hx := (ht _).trans (h.uncopied x hx)
  copied x c hc := ⟨(h.copied x c hc).1, (ht _).trans (h.copied x c hc).2⟩
  apart := h.apart
  rest k hk hcopy := (ht _).trans (h.rest k hk hcopy)

/-- The copy of an open stream is not a stream. -/
theorem Held.copy_ne (h : Held orig t saved) (hopen : ∀ x : Stream, (orig.refers x.number).isSome)
    (hc : saved x = some c) (y : Stream) : c ≠ y.number := by
  intro heq
  have hnone := (h.copied x c hc).1
  have hsome := hopen y
  rw [← heq, hnone] at hsome
  cases hsome

/-- A free number was free before as well. -/
theorem Held.orig_none (h : Held orig t saved)
    (hopen : ∀ x : Stream, (orig.refers x.number).isSome) (hc : t.refers c = none) :
    orig.refers c = none := by
  have hstream : ∀ x : Stream, c ≠ x.number := by
    intro x heq
    have hsome := h.isOpen x
    rw [← heq, hc] at hsome
    cases hsome
  have hcopy : ∀ x, saved x ≠ some c := by
    intro x hx
    have hsome := hopen x
    rw [← (h.copied x c hx).2, hc] at hsome
    cases hsome
  rw [← h.rest c hstream hcopy, hc]

/-- A stream is copied. -/
theorem Held.copy {orig t t' : Descriptors Nat} {saved : Saved} (h : Held orig t saved)
    (hopen : ∀ x : Stream, (orig.refers x.number).isSome) {x : Stream} (hx : saved x = none)
    {c : Nat} (hc : t.refers c = none)
    (ht' : ∀ k, t'.refers k = if k = c then t.refers x.number else t.refers k) :
    Held orig t' (update saved x (some c)) := by
  have hstream : ∀ y : Stream, y.number ≠ c := by
    intro y heq
    have hsome := h.isOpen y
    rw [heq, hc] at hsome
    cases hsome
  have hcopy : ∀ y e, saved y = some e → e ≠ c := by
    intro y e hy heq
    have hsome := hopen y
    rw [← (h.copied y e hy).2, heq, hc] at hsome
    cases hsome
  refine ⟨?_, ?_, ?_, ?_, ?_⟩
  · intro y
    rw [ht', if_neg (hstream y)]
    exact h.isOpen y
  · intro y hy
    by_cases hyx : y = x
    · subst hyx
      simp at hy
    · rw [update_of_ne hyx] at hy
      rw [ht', if_neg (hstream y)]
      exact h.uncopied y hy
  · intro y e hy
    by_cases hyx : y = x
    · subst hyx
      rw [update_self, Option.some.injEq] at hy
      subst hy
      rw [ht', if_pos rfl]
      exact ⟨h.orig_none hopen hc, h.uncopied y hx⟩
    · rw [update_of_ne hyx] at hy
      rw [ht', if_neg (hcopy y e hy)]
      exact h.copied y e hy
  · intro y z e hy hz
    by_cases hyx : y = x
    · by_cases hzx : z = x
      · exact hyx.trans hzx.symm
      · rw [hyx, update_self, Option.some.injEq] at hy
        rw [update_of_ne hzx] at hz
        exact absurd hy.symm (hcopy z e hz)
    · rw [update_of_ne hyx] at hy
      by_cases hzx : z = x
      · rw [hzx, update_self, Option.some.injEq] at hz
        exact absurd hz.symm (hcopy y e hy)
      · rw [update_of_ne hzx] at hz
        exact h.apart y z e hy hz
  · intro k hk hkcopy
    have hkc : k ≠ c := by
      rintro rfl
      exact hkcopy x (update_self _ _ _)
    rw [ht', if_neg hkc]
    refine h.rest k hk fun y hy => ?_
    by_cases hyx : y = x
    · rw [hyx, hx] at hy
      cases hy
    · exact hkcopy y ((update_of_ne hyx _ _).trans hy)

/-- A copied stream is made to refer to another file. -/
theorem Held.reopen (h : Held orig t saved) (hopen : ∀ x : Stream, (orig.refers x.number).isSome)
    (hx : saved x = some c)
    (ht' : ∀ k, t'.refers k = if k = x.number then some d else t.refers k) :
    Held orig t' saved := by
  refine ⟨?_, ?_, ?_, h.apart, ?_⟩
  · intro y
    rw [ht']
    split
    · rfl
    · exact h.isOpen y
  · intro y hy
    have hyx : y.number ≠ x.number := by
      intro heq
      rw [Stream.number_inj heq, hx] at hy
      cases hy
    rw [ht', if_neg hyx]
    exact h.uncopied y hy
  · intro y e hy
    rw [ht', if_neg (h.copy_ne hopen hy x)]
    exact h.copied y e hy
  · intro k hk hcopy
    rw [ht', if_neg (hk x)]
    exact h.rest k hk hcopy

/-- The table `t` with the new descriptor `fd`. -/
def WithFd (t : Descriptors Nat) (fd d : Nat) (t' : Descriptors Nat) : Prop :=
  t.refers fd = none ∧ ∀ k, t'.refers k = if k = fd then some d else t.refers k

/-- Before a stream is redirected there is a copy of it. -/
theorem save_spec (h : Held orig t saved)
    (hopen : ∀ x : Stream, (orig.refers x.number).isSome) {fd : Nat}
    (hfd : WithFd t fd d s.fds) (x : Stream) :
    ∃ saved' s' t', save saved x s = (.ok saved', s') ∧ (∃ c, saved' x = some c) ∧
      Held orig t' saved' ∧ WithFd t' fd d s'.fds := by
  cases hx : saved x with
  | some c =>
    refine ⟨saved, s, t, ?_, ⟨c, hx⟩, h, hfd⟩
    unfold save
    rw [hx]
    rfl
  | none =>
    obtain ⟨f, hf⟩ := Option.isSome_iff_exists.mp (h.isOpen x)
    have hxfd : x.number ≠ fd := by
      intro heq
      rw [heq, hfd.1] at hf
      cases hf
    have hsx : s.fds.refers x.number = some f := by rw [hfd.2, if_neg hxfd, hf]
    -- the copy is a number that is free beside `fd`
    have hleast : s.fds.least ≠ fd := by
      intro heq
      have hnone := s.fds.refers_least
      rw [heq, hfd.2, if_pos rfl] at hnone
      cases hnone
    have hfree : t.refers s.fds.least = none := by
      have hnone := s.fds.refers_least
      rwa [hfd.2, if_neg hleast] at hnone
    refine ⟨update saved x (some s.fds.least), { s with fds := s.fds.place f },
      t.assign s.fds.least (some f), ?_, ⟨_, update_self _ _ _⟩, ?_, ?_, ?_⟩
    · unfold save dup
      rw [hx]
      show (Process.step _ >>= _) s = _
      rw [Process.step_bind]
      simp only [hsx]
      rfl
    · refine h.copy hopen hx hfree fun k => ?_
      rw [Descriptors.refers_assign, hf]
    · rw [Descriptors.refers_assign, if_neg (Ne.symm hleast), hfd.1]
    · intro k
      show (s.fds.place f).refers k = _
      rw [Descriptors.refers_place, Descriptors.refers_assign, hfd.2]
      by_cases hk : k = s.fds.least
      · rw [if_pos hk, if_pos hk, if_neg (hk ▸ hleast)]
      · rw [if_neg hk, if_neg hk]

/-- A descriptor that has just been made is put in the place of a stream. -/
theorem redirectTo_spec (h : Held orig t saved)
    (hopen : ∀ x : Stream, (orig.refers x.number).isSome) {fd : Nat}
    (hfd : WithFd t fd d s.fds) (x : Stream) :
    ∃ saved' s', redirectTo saved fd x s = (.ok (some saved'), s') ∧ Held orig s'.fds saved' ∧
      ∃ c, saved' x = some c := by
  obtain ⟨saved', s₁, t', hsave, ⟨c, hc⟩, hheld, hfree, hs₁⟩ := save_spec h hopen hfd x
  have hxfd : x.number ≠ fd := by
    intro heq
    have hsome := hheld.isOpen x
    rw [heq, hfree] at hsome
    cases hsome
  have hrefers : s₁.fds.refers fd = some d := by rw [hs₁, if_pos rfl]
  refine ⟨saved', { s₁ with fds := (s₁.fds.reopen x.number d).release fd }, ?_, ?_, c, hc⟩
  · unfold redirectTo
    rw [Process.bind_of_ok hsave]
    unfold dup2 closeFd
    rw [Process.step_bind]
    simp only [hrefers]
    rfl
  · refine hheld.reopen hopen hc (d := d) fun k => ?_
    show ((s₁.fds.reopen x.number d).release fd).refers k = _
    rw [Descriptors.refers_release, Descriptors.refers_reopen, hs₁]
    by_cases hk : k = fd
    · rw [if_pos hk, if_neg (by rw [hk]; exact hxfd.symm), hk, hfree]
    · rw [if_neg hk, if_neg hk]

/-- One redirection either leaves the descriptors as they were, or is held. -/
theorem applyRedirect_spec
    (h : Held orig s.fds saved) (hopen : ∀ x : Stream, (orig.refers x.number).isSome)
    (node index : Nat) (r : Redirect) :
    (∃ s', applyRedirect host node index r saved s = (.ok none, s') ∧ Held orig s'.fds saved ∧
        ∀ k, s'.fds.refers k = s.fds.refers k) ∨
      ∃ saved' s', applyRedirect host node index r saved s = (.ok (some saved'), s') ∧
        Held orig s'.fds saved' ∧ ∃ x c, saved' x = some c := by
  unfold applyRedirect
  rcases @makesFd_redirectFd ω host node index r s with
    ⟨s', hs', hsame⟩ | ⟨fd, d, s', hs', hfree, hplace⟩
  · exact .inl ⟨s', Process.bind_of_ok hs' _, h.congr hsame, hsame⟩
  · obtain ⟨saved', s'', hto, hheld, c, hc⟩ := redirectTo_spec h hopen ⟨hfree, hplace⟩ r.stream
    exact .inr ⟨saved', s'', (Process.bind_of_ok hs' _).trans hto, hheld, _, c, hc⟩

/-- The redirections that the loop has applied when it ends, in the order of their application. -/
def applied (host : Host ω) (node : Nat) : Nat → List Redirect → Saved → Shell ω → List Redirect
  | _, [], _, _ => []
  | index, r :: rest, saved, s =>
    match applyRedirect host node index r saved s with
    | (.ok (some saved'), s') => r :: applied host node (index + 1) rest saved' s'
    | _ => []

/-- The loop applies all redirections, or stops at one with the streams redirected so far. -/
theorem applyRedirects_spec {orig : Descriptors Nat}
    (hopen : ∀ x : Stream, (orig.refers x.number).isSome) (node : Nat) (redir : List Redirect) :
    ∀ (index : Nat) (saved : Saved) (s : Shell ω), Held orig s.fds saved →
      ∃ result s', applyRedirects host node index redir saved s = (.ok result, s') ∧
        (∀ saved', result = some saved' →
          Held orig s'.fds saved' ∧ applied host node index redir saved s = redir) ∧
        (result = none → ∃ saved', Held orig s'.fds saved' ∧
          (applied host node index redir saved s = [] →
            saved' = saved ∧ ∀ k, s'.fds.refers k = s.fds.refers k) ∧
          (applied host node index redir saved s ≠ [] → ∃ x c, saved' x = some c) ∧
          applied host node index redir saved s ≠ redir) := by
  induction redir with
  | nil =>
    intro index saved s h
    refine ⟨some saved, s, rfl, ?_, nofun⟩
    rintro saved' ⟨⟩
    exact ⟨h, rfl⟩
  | cons r rest ih =>
    intro index saved s h
    rcases applyRedirect_spec h hopen node index r with
      ⟨s', hs', hheld, hsame⟩ | ⟨saved₁, s₁, hs₁, hheld, hcopy⟩
    · have hnil : applied host node index (r :: rest) saved s = [] := by
        unfold applied
        rw [hs']
      refine ⟨none, s', Process.bind_of_ok hs' _, nofun, fun _ => ⟨saved, hheld, ?_, ?_, ?_⟩⟩
      · exact fun _ => ⟨rfl, hsame⟩
      · exact fun hne => absurd hnil hne
      · rw [hnil]
        exact nofun
    · have hcons : applied host node index (r :: rest) saved s =
          r :: applied host node (index + 1) rest saved₁ s₁ := by
        rw [applied, hs₁]
      obtain ⟨result, s', hrest, hsome, hnone⟩ := ih (index + 1) saved₁ s₁ hheld
      refine ⟨result, s', (Process.bind_of_ok hs₁ _).trans hrest, ?_, ?_⟩
      · intro saved' hresult
        obtain ⟨hheld', happ⟩ := hsome saved' hresult
        exact ⟨hheld', by rw [hcons, happ]⟩
      · intro hresult
        obtain ⟨saved', hheld', hnil', hne', hpart⟩ := hnone hresult
        rw [hcons]
        refine ⟨saved', hheld', nofun, fun _ => ?_, ?_⟩
        · -- a copy made in this round is still there, whatever the later rounds do
          by_cases hmore : applied host node (index + 1) rest saved₁ s₁ = []
          · rw [(hnil' hmore).1]
            exact hcopy
          · exact hne' hmore
        · intro heq
          exact hpart (cons.inj heq).2

/-! ### The end of the command -/

/-- A stream gets its file back, and its copy is closed. -/
theorem Held.restore (h : Held orig t saved) (hopen : ∀ x : Stream, (orig.refers x.number).isSome)
    (hx : saved x = some c)
    (ht' : ∀ k, t'.refers k =
      if k = c then none else if k = x.number then orig.refers x.number else t.refers k) :
    Held orig t' (update saved x none) := by
  have hcx := h.copy_ne hopen hx
  -- a stream that still has a copy is another one
  have hother : ∀ {y e}, update saved x none y = some e → y ≠ x ∧ saved y = some e := by
    intro y e hy
    by_cases hyx : y = x
    · rw [hyx, update_self] at hy
      cases hy
    · rw [update_of_ne hyx] at hy
      exact ⟨hyx, hy⟩
  refine ⟨?_, ?_, ?_, ?_, ?_⟩
  · intro y
    rw [ht', if_neg (Ne.symm (hcx y))]
    split
    · exact hopen x
    · exact h.isOpen y
  · intro y hy
    rw [ht', if_neg (Ne.symm (hcx y))]
    by_cases hyx : y = x
    · rw [hyx, if_pos rfl]
    · rw [update_of_ne hyx] at hy
      rw [if_neg fun heq => hyx (Stream.number_inj heq)]
      exact h.uncopied y hy
  · intro y e hy
    obtain ⟨hyx, hy⟩ := hother hy
    have hec : e ≠ c := by
      rintro rfl
      exact hyx (h.apart y x e hy hx)
    rw [ht', if_neg hec, if_neg (h.copy_ne hopen hy x)]
    exact h.copied y e hy
  · intro y z e hy hz
    exact h.apart y z e (hother hy).2 (hother hz).2
  · intro k hk hcopy
    rw [ht']
    by_cases hkc : k = c
    · rw [if_pos hkc, hkc, (h.copied x c hx).1]
    · rw [if_neg hkc, if_neg (hk x)]
      refine h.rest k hk fun y hy => ?_
      by_cases hyx : y = x
      · rw [hyx, hx, Option.some.injEq] at hy
        exact hkc hy.symm
      · exact hcopy y ((update_of_ne hyx _ _).trans hy)

/-- The end of `run_simple_cmd` puts one stream back. -/
theorem restoreFd_spec
    (h : Held orig s.fds saved) (hopen : ∀ x : Stream, (orig.refers x.number).isSome)
    (x : Stream) :
    ∃ s', restoreFd (saved x) x s = (.ok (), s') ∧
      Held orig s'.fds (update saved x none) := by
  cases hx : saved x with
  | none =>
    refine ⟨s, rfl, ?_⟩
    rw [← hx, update_eq_self]
    exact h
  | some c =>
    obtain ⟨d, hd⟩ := Option.isSome_iff_exists.mp (hopen x)
    have hc : s.fds.refers c = some d := (h.copied x c hx).2.trans hd
    refine ⟨{ s with fds := (s.fds.reopen x.number d).release c }, ?_, ?_⟩
    · unfold restoreFd dup2 closeFd
      dsimp only
      rw [Process.step_bind]
      simp only [hc]
      rfl
    · refine h.restore hopen hx fun k => ?_
      show ((s.fds.reopen x.number d).release c).refers k = _
      rw [Descriptors.refers_release, Descriptors.refers_reopen, hd]

/-- Without copies the descriptors are as they were. -/
theorem Held.refers_eq (h : Held orig t saved)
    (hnone : ∀ x, saved x = none) (k : Nat) : t.refers k = orig.refers k := by
  by_cases hk : ∃ x : Stream, k = x.number
  · obtain ⟨x, rfl⟩ := hk
    exact h.uncopied x (hnone x)
  · refine h.rest k (fun x hx => hk ⟨x, hx⟩) fun x hx => ?_
    rw [hnone x] at hx
    cases hx

/-- Builtins leave the shell's descriptors alone. -/
theorem runBuiltin_fds (name : Word) (args : List Word) (s : Shell ω) :
    (runBuiltin host name args s).2.fds = s.fds := by
  unfold runBuiltin
  split
  · rfl
  split
  · rfl
  split
  · rfl
  · rfl

/-- The command itself leaves the shell's descriptors alone. -/
theorem runWords_fds (argv : List Word) (s : Shell ω) : (runWords host argv s).2.fds = s.fds := by
  cases argv with
  | nil => rfl
  | cons name args =>
    unfold runWords
    dsimp only
    split
    · exact runBuiltin_fds name args s
    · rfl

/-! ### What a command owes -/

/-- The descriptors after a command: the streams are as before, and nothing else is open that was
    not. -/
structure Undone (before after : Descriptors Nat) : Prop where
  /-- Descriptors 0 and 1. -/
  streams : ∀ x : Stream, after.refers x.number = before.refers x.number
  /-- No extra descriptor. -/
  noExtra : ∀ fd, (after.refers fd).isSome → (before.refers fd).isSome

/-- The state in which the redirections begin. -/
def afterWords (host : Host ω) (node : Nat) (s : Shell ω) : Shell ω :=
  (expandArgv host (s.commands node).argv s).2

/-- The loop of a command over its redirections. -/
def redirectAll (host : Host ω) (node : Nat) (s : Shell ω) : Outcome (Option Saved) × Shell ω :=
  applyRedirects host node 0 (s.commands node).redir (fun _ => none) (afterWords host node s)

/-- The redirections of a command that have been applied when its loop ends. -/
def appliedBy (host : Host ω) (node : Nat) (s : Shell ω) : List Redirect :=
  applied host node 0 (s.commands node).redir (fun _ => none) (afterWords host node s)

/-- When the command returns its redirections are undone, and when it is run they have been
    applied in the order in which they were written. -/
structure Clean (host : Host ω) (node : Nat) (written : List Redirect) (s : Shell ω) : Prop where
  /-- After the command. -/
  undone : ∀ rc s', runSimpleCmd host node s = (.ok rc, s') → Undone s.fds s'.fds
  /-- During the command. -/
  ordered : ∀ saved s', redirectAll host node s = (.ok (some saved), s') →
    appliedBy host node s = written

/-- The redirection with which the loop begins makes no descriptor. -/
def FailsAtOnce (host : Host ω) (node : Nat) (s : Shell ω) : Prop :=
  ∃ r rest, (s.commands node).redir = r :: rest ∧
    (redirectFd host node 0 r (afterWords host node s)).1 = .ok none

/-- No redirection of the command fails. -/
def AllApply (host : Host ω) (node : Nat) (s : Shell ω) : Prop :=
  appliedBy host node s = (s.commands node).redir

/-- A redirection as it was written: one with a text of its own was `<<`. -/
def Redirect.unspent (r : Redirect) : Redirect :=
  if r.heredoc.isSome then { r with op := .heredoc } else r

/-- A command's list comes from redirections in the order they are written in; here-documents that
    have been run before may be marked. -/
structure Parsed (written redir : List Redirect) : Prop where
  /-- Only a `<<` has a text. -/
  fresh : ∀ r ∈ written, r.unspent = r
  /-- `parse_command` has built the list. -/
  built : redir.map Redirect.unspent = parseRedirects written

/-- `parse_command` turns the order round. -/
theorem parseRedirects_eq (written : List Redirect) : parseRedirects written = written.reverse := by
  have h : ∀ acc, written.foldl attach acc = written.reverse ++ acc := by
    induction written with
    | nil => exact fun acc => rfl
    | cons r rest ih =>
      intro acc
      rw [foldl_cons, ih, reverse_cons, append_assoc]
      rfl
  exact (h []).trans (append_nil _)

/-- The list is as written when it reads the same both ways and no here-document is marked. -/
theorem Parsed.eq_iff {written redir : List Redirect} (h : Parsed written redir) :
    redir = written ↔ written.reverse = written ∧ ∀ r ∈ redir, r.unspent = r := by
  have hbuilt := h.built.trans (parseRedirects_eq written)
  constructor
  · rintro rfl
    refine ⟨?_, h.fresh⟩
    rw [← hbuilt]
    exact map_congr_left h.fresh |>.trans (map_id _)
  · rintro ⟨hreverse, hfresh⟩
    rw [← hreverse, ← hbuilt]
    exact ((map_congr_left hfresh).trans (map_id _)).symm

/-- The course of a command that has words. -/
theorem runSimpleCmd_eq {node : Nat} {s : Shell ω} (hargv : (s.commands node).argv ≠ []) :
    ∃ argv, runSimpleCmd host node s =
      (match redirectAll host node s with
      | (.ok none, s') => (.ok 1, s')
      | (.ok (some saved), s') => (do
          let rc ← runWords host argv
          restoreFd (saved .stdin) .stdin
          restoreFd (saved .stdout) .stdout
          return rc : Process (Shell ω) Int) s'
      | (.exited r, s') => (.exited r, s')
      | (.timeout, s') => (.timeout, s')) := by
  obtain ⟨argv, env, world, hwords⟩ := @quiet_expandArgv ω host (s.commands node).argv s
  refine ⟨argv, ?_⟩
  unfold runSimpleCmd
  rw [Process.get_bind]
  simp only [if_neg hargv]
  rw [Process.bind_of_ok hwords, Process.bind_apply]
  unfold redirectAll afterWords
  rw [hwords]
  rcases applyRedirects host node 0 (s.commands node).redir (fun _ => none)
    { s with env := env, world := world } with ⟨o, s''⟩
  rcases o with (_ | saved) | r | _ <;> rfl

/-- A command whose redirections all apply leaves the descriptors as they were. -/
theorem undone_of_held {argv : List Word} {s' : Shell ω}
    (hopen : ∀ x : Stream, (orig.refers x.number).isSome) (h : Held orig s.fds saved) {rc : Int}
    (hrun : (do
      let rc ← runWords host argv
      restoreFd (saved .stdin) .stdin
      restoreFd (saved .stdout) .stdout
      return rc : Process (Shell ω) Int) s = (.ok rc, s')) (k : Nat) :
    s'.fds.refers k = orig.refers k := by
  have hfds := @runWords_fds ω host argv s
  rw [Process.bind_apply] at hrun
  rcases hwords : runWords host argv s with ⟨o, s₁⟩
  rw [hwords] at hrun hfds
  rcases o with rc' | r | _
  · have h₁ : Held orig s₁.fds saved := by
      rw [show s₁.fds = s.fds from hfds]
      exact h
    obtain ⟨s₂, hs₂, h₂⟩ := restoreFd_spec h₁ hopen .stdin
    obtain ⟨s₃, hs₃, h₃⟩ := restoreFd_spec h₂ hopen .stdout
    rw [update_of_ne (by decide)] at hs₃
    have hend := hrun.symm.trans ((Process.bind_of_ok hs₂ _).trans (Process.bind_of_ok hs₃ _))
    cases hend
    refine h₃.refers_eq (fun x => ?_) k
    cases x <;> rfl
  · cases hrun
  · cases hrun

/-- A command whose loop stops behind its first redirection leaves a copy of a stream open. -/
theorem not_undone (h : Held orig t saved) (hopen : ∀ x : Stream, (orig.refers x.number).isSome)
    (hc : saved x = some c) : ¬ Undone orig t := by
  intro hundone
  obtain ⟨hnone, hcopy⟩ := h.copied x c hc
  have hsome := hundone.noExtra c (by rw [hcopy]; exact hopen x)
  rw [hnone] at hsome
  cases hsome

/-- The loop stops with nothing applied when its first redirection makes no descriptor. -/
theorem applied_eq_nil_iff {orig : Descriptors Nat} {saved : Saved} {s : Shell ω}
    (h : Held orig s.fds saved) (hopen : ∀ x : Stream, (orig.refers x.number).isSome)
    {node index : Nat} {r : Redirect} {rest : List Redirect} :
    applied host node index (r :: rest) saved s = [] ↔
      (redirectFd host node index r s).1 = .ok none := by
  unfold applied applyRedirect
  rcases @makesFd_redirectFd ω host node index r s with
    ⟨s', hs', _⟩ | ⟨fd, d, s', hs', hfree, hplace⟩
  · rw [Process.bind_of_ok hs', hs']
    exact iff_of_true rfl rfl
  · obtain ⟨saved', s'', hto, _⟩ := redirectTo_spec h hopen ⟨hfree, hplace⟩ r.stream
    rw [Process.bind_of_ok hs', hs']
    dsimp only
    rw [hto]
    exact iff_of_false nofun nofun

end MeuOS.Msh
