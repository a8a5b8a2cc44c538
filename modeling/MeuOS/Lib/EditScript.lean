import Mathlib.Data.List.Basic

namespace MeuOS.Lib

open List

/-!
# Edit scripts

A script keeps, deletes and inserts items; read one way it is the old text and the other way the
new. A window of the script is applied by putting its new items in the place of its old ones.

* `olds`, `news`, `turned` — the two texts, and the script read backwards;
* `splice_window` — what applying one window does to a half-edited text;
* `Tiles` — windows in order, with nothing but kept items between them;
* `Tiles.run` — applying the windows one after the other makes the new text out of the old.
-/

/-- What a script does with an item. -/
inductive EditKind where
  | keep | del | ins
  deriving DecidableEq, Repr

/-- The kind in the opposite direction. -/
def EditKind.turn : EditKind → EditKind
  | .keep => .keep
  | .del => .ins
  | .ins => .del

/-- A script. -/
abbrev Edits (α : Type) := List (EditKind × α)

section

variable {α : Type}

/-- The old text: what is kept or deleted. -/
def olds (s : Edits α) : List α := (s.filter fun e => e.1 ≠ .ins).map Prod.snd

/-- The new text: what is kept or inserted. -/
def news (s : Edits α) : List α := (s.filter fun e => e.1 ≠ .del).map Prod.snd

/-- The script in the opposite direction. -/
def turned (s : Edits α) : Edits α := s.map fun e => (e.1.turn, e.2)

/-- A script that changes nothing. -/
def Keeps (s : Edits α) : Prop := ∀ e ∈ s, e.1 = .keep

@[simp] theorem olds_nil : olds ([] : Edits α) = [] := rfl

@[simp] theorem news_nil : news ([] : Edits α) = [] := rfl

@[simp] theorem olds_append (s t : Edits α) : olds (s ++ t) = olds s ++ olds t := by
  simp [olds]

@[simp] theorem news_append (s t : Edits α) : news (s ++ t) = news s ++ news t := by
  simp [news]

@[simp] theorem turned_append (s t : Edits α) : turned (s ++ t) = turned s ++ turned t := by
  simp [turned]

/-- The opposite of a script makes the old text. -/
@[simp] theorem news_turned (s : Edits α) : news (turned s) = olds s := by
  induction s with
  | nil => rfl
  | cons e s ih =>
    obtain ⟨kind, x⟩ := e
    have hcons : news (turned ((kind, x) :: s)) = news [(kind.turn, x)] ++ news (turned s) :=
      news_append [(kind.turn, x)] (turned s)
    have hold : olds ((kind, x) :: s) = olds [(kind, x)] ++ olds s := olds_append [(kind, x)] s
    rw [hcons, hold, ih]
    cases kind <;> rfl

/-- The opposite of a script starts from the new text. -/
@[simp] theorem olds_turned (s : Edits α) : olds (turned s) = news s := by
  induction s with
  | nil => rfl
  | cons e s ih =>
    obtain ⟨kind, x⟩ := e
    have hcons : olds (turned ((kind, x) :: s)) = olds [(kind.turn, x)] ++ olds (turned s) :=
      olds_append [(kind.turn, x)] (turned s)
    have hnew : news ((kind, x) :: s) = news [(kind, x)] ++ news s := news_append [(kind, x)] s
    rw [hcons, hnew, ih]
    cases kind <;> rfl

/-- Where nothing changes the two texts are one. -/
theorem Keeps.olds_eq {s : Edits α} (h : Keeps s) : olds s = news s := by
  have hall : ∀ e ∈ s, e.1 ≠ .ins ∧ e.1 ≠ .del := fun e he => by simp [h e he]
  rw [olds, news, filter_eq_self.mpr fun e he => decide_eq_true (hall e he).1,
    filter_eq_self.mpr fun e he => decide_eq_true (hall e he).2]

/-- Nothing changes in the opposite direction either. -/
theorem Keeps.turned {s : Edits α} (h : Keeps s) : Keeps (turned s) := by
  intro e he
  obtain ⟨x, hx, rfl⟩ := mem_map.mp he
  show x.1.turn = .keep
  rw [h x hx]
  rfl

/-! ### Applying a window -/

/-- `n` items at position `p` of a text, replaced. -/
def splice (t : List α) (p n : Nat) (r : List α) : List α := t.take p ++ r ++ t.drop (p + n)

/-- The text in which everything before a window is edited, and from the window on nothing. -/
def halfEdited (before rest : Edits α) : List α := news before ++ olds rest

/-- **Applying a window**: its old items stand behind what was edited, and its new items take their
place. -/
theorem splice_window (before w after : Edits α) :
    splice (halfEdited before (w ++ after)) (news before).length (olds w).length (news w) =
      halfEdited (before ++ w) after := by
  rw [splice, halfEdited, halfEdited, olds_append, news_append, take_left, ← drop_drop,
    drop_left, drop_left]

/-- A window with the parts of the script before and behind it. -/
structure Window (α : Type) where
  before : Edits α
  body : Edits α
  after : Edits α

/-- The window in the opposite direction. -/
def Window.turned (w : Window α) : Window α :=
  ⟨Lib.turned w.before, Lib.turned w.body, Lib.turned w.after⟩

/-- The windows cover every change of `rest`, from left to right, where `before` is done. -/
inductive Tiles : Edits α → Edits α → List (Window α) → Prop where
  | done {before rest : Edits α} (h : Keeps rest) : Tiles before rest []
  | next {before gap body after : Edits α} {ws : List (Window α)} (h : Keeps gap)
      (hrest : Tiles (before ++ gap ++ body) after ws) :
      Tiles before (gap ++ (body ++ after)) (⟨before ++ gap, body, after⟩ :: ws)

/-- The windows cover every change in the opposite direction too. -/
theorem Tiles.turned {before rest : Edits α} {ws : List (Window α)} (h : Tiles before rest ws) :
    Tiles (turned before) (turned rest) (ws.map Window.turned) := by
  induction h with
  | done h => exact .done h.turned
  | @next before gap body after ws h _ ih =>
    rw [turned_append, turned_append] at ih
    rw [turned_append, turned_append, map_cons, Window.turned]
    simp only [turned_append]
    exact .next h.turned ih

/-- A run over a list, each element making a new state or failing. -/
def runAll {σ β : Type} (step : σ → β → Option σ) : σ → List β → Option σ
  | s, [] => some s
  | s, b :: bs => (step s b).bind fun s => runAll step s bs

theorem runAll_map {σ β γ : Type} (step : σ → γ → Option σ) (f : β → γ) (s : σ) (bs : List β) :
    runAll step s (bs.map f) = runAll (fun s b => step s (f b)) s bs := by
  induction bs generalizing s with
  | nil => rfl
  | cons b bs ih =>
    rw [map_cons, runAll, runAll]
    congr 1
    ext s' x
    rw [ih]

/-- **Applying every window in turn makes the new text**, where a step knows the window it is for. -/
theorem Tiles.run {σ β : Type} {text : List α → σ} {step : σ → β → Option σ} {win : β → Window α}
    {before rest : Edits α} {bs : List β} (h : Tiles before rest (bs.map win))
    (hstep : ∀ b ∈ bs, step (text (halfEdited (win b).before ((win b).body ++ (win b).after))) b =
      some (text (halfEdited ((win b).before ++ (win b).body) (win b).after))) :
    runAll step (text (halfEdited before rest)) bs = some (text (news (before ++ rest))) := by
  generalize hws : bs.map win = ws at h
  induction h generalizing bs with
  | done h =>
    obtain rfl := map_eq_nil_iff.mp hws
    rw [runAll, halfEdited, h.olds_eq, news_append]
  | @next before gap body after ws h _ ih =>
    obtain _ | ⟨b, bs⟩ := bs
    · cases hws
    rw [map_cons] at hws
    obtain ⟨hb, hws⟩ := List.cons.inj hws
    -- what is kept on the way to the window counts as done
    have hgap : halfEdited before (gap ++ (body ++ after)) =
        halfEdited (before ++ gap) (body ++ after) := by
      rw [halfEdited, halfEdited, olds_append, news_append, h.olds_eq, append_assoc]
    have hfirst := hstep b mem_cons_self
    rw [hb] at hfirst
    rw [runAll, hgap, hfirst, Option.bind_some,
      ih (fun x hx => hstep x (mem_cons_of_mem _ hx)) hws]
    simp only [append_assoc]

end

end MeuOS.Lib
