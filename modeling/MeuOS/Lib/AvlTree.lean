import Mathlib.Data.Nat.Fib.Basic
import Mathlib.Data.List.Sort

namespace MeuOS.Lib

/-!
# Height-balanced search trees

Binary trees whose nodes store a key, a value and their height, and the contexts in which a subtree
of one stands.

* `HTree`, `HTree.inorder`, `HTree.Avl` — trees, their entries in order, and balance;
* `HTree.Avl.fib_le` — a balanced tree of height `h` has at least `fib (h + 2) - 1` nodes;
* `Frame`, `plugAll` — the way from the root down to a subtree;
* `plugAll_avl` — a subtree may be exchanged for another of the same height.
-/

/-- A binary tree with a stored height in each node. -/
inductive HTree (κ α : Type*) where
  | nil
  | node (key : κ) (val : α) (ht : Nat) (left right : HTree κ α)
  deriving DecidableEq, Repr

namespace HTree

variable {κ α : Type*}

/-- The height that the root stores. -/
def height : HTree κ α → Nat
  | nil => 0
  | node _ _ ht _ _ => ht

/-- The number of nodes. -/
def size : HTree κ α → Nat
  | nil => 0
  | node _ _ _ l r => size l + size r + 1

/-- The entries from left to right. -/
def inorder : HTree κ α → List (κ × α)
  | nil => []
  | node key val _ l r => inorder l ++ (key, val) :: inorder r

/-- The stored heights are right, and those of the children of a node differ by one at most. -/
def Avl : HTree κ α → Prop
  | nil => True
  | node _ _ ht l r =>
    Avl l ∧ Avl r ∧ ht = max (height l) (height r) + 1 ∧ height l ≤ height r + 1 ∧
      height r ≤ height l + 1

@[simp] theorem height_nil : (nil : HTree κ α).height = 0 := rfl

@[simp] theorem height_node (key : κ) (val : α) (ht : Nat) (l r : HTree κ α) :
    (node key val ht l r).height = ht := rfl

@[simp] theorem inorder_nil : (nil : HTree κ α).inorder = [] := rfl

@[simp] theorem inorder_node (key : κ) (val : α) (ht : Nat) (l r : HTree κ α) :
    (node key val ht l r).inorder = l.inorder ++ (key, val) :: r.inorder := rfl

theorem length_inorder (t : HTree κ α) : t.inorder.length = t.size := by
  induction t with
  | nil => rfl
  | node key val ht l r ihl ihr =>
    rw [inorder_node, List.length_append, List.length_cons, ihl, ihr]
    rfl

/-- A balanced tree has at least as many nodes as a Fibonacci tree of its height. -/
theorem Avl.fib_le {t : HTree κ α} (h : t.Avl) : Nat.fib (t.height + 2) ≤ t.size + 1 := by
  induction t with
  | nil => exact le_rfl
  | node key val ht l r ihl ihr =>
    obtain ⟨hl, hr, rfl, hlr, hrl⟩ := h
    have hl' := ihl hl
    have hr' := ihr hr
    have hsum : ∀ n, Nat.fib (n + 3) = Nat.fib (n + 1) + Nat.fib (n + 2) :=
      fun n => Nat.fib_add_two
    show Nat.fib (max l.height r.height + 3) ≤ l.size + r.size + 1 + 1
    rw [hsum]
    -- one side has the greater height, the other one less at most
    rcases Nat.le_total l.height r.height with hle | hle
    · have hmono : Nat.fib (r.height + 1) ≤ Nat.fib (l.height + 2) :=
        Nat.fib_mono (by omega)
      rw [Nat.max_eq_right hle]
      omega
    · have hmono : Nat.fib (l.height + 1) ≤ Nat.fib (r.height + 2) :=
        Nat.fib_mono (by omega)
      rw [Nat.max_eq_left hle]
      omega

end HTree

/-! ### Contexts -/

/-- A node without one of its children; `dir` tells which one, `true` for the right one. -/
structure Frame (κ α : Type*) where
  dir : Bool
  key : κ
  val : α
  ht : Nat
  sibling : HTree κ α

variable {κ α : Type*}

/-- Put the child back. -/
def Frame.plug (f : Frame κ α) (t : HTree κ α) : HTree κ α :=
  match f.dir with
  | false => .node f.key f.val f.ht t f.sibling
  | true => .node f.key f.val f.ht f.sibling t

/-- Put a subtree back into all the nodes above it, the lowest one first. -/
def plugAll : List (Frame κ α) → HTree κ α → HTree κ α
  | [], t => t
  | f :: fs, t => plugAll fs (f.plug t)

/-- The entries on the left of the hole. -/
def entriesBefore : List (Frame κ α) → List (κ × α)
  | [] => []
  | f :: fs =>
    entriesBefore fs ++ (match f.dir with
      | false => []
      | true => f.sibling.inorder ++ [(f.key, f.val)])

/-- The entries on the right of the hole. -/
def entriesAfter : List (Frame κ α) → List (κ × α)
  | [] => []
  | f :: fs =>
    (match f.dir with
      | false => (f.key, f.val) :: f.sibling.inorder
      | true => []) ++ entriesAfter fs

@[simp] theorem Frame.height_plug (f : Frame κ α) (t : HTree κ α) : (f.plug t).height = f.ht := by
  unfold Frame.plug
  split <;> rfl

/-- The entries of a subtree stand between those of its context. -/
theorem inorder_plugAll (fs : List (Frame κ α)) (t : HTree κ α) :
    (plugAll fs t).inorder = entriesBefore fs ++ (t.inorder ++ entriesAfter fs) := by
  induction fs generalizing t with
  | nil => simp [plugAll, entriesBefore, entriesAfter]
  | cons f fs ih =>
    obtain ⟨dir, key, val, ht, sibling⟩ := f
    rw [plugAll, ih]
    rcases dir with _ | _ <;> simp [Frame.plug, entriesBefore, entriesAfter]

variable {t s : HTree κ α} {fs : List (Frame κ α)}

/-- A node that loses a balanced child for another one of the same height stays balanced. -/
theorem Frame.plug_avl {f : Frame κ α} (h : (f.plug s).Avl) (ht : t.Avl)
    (heq : t.height = s.height) : (f.plug t).Avl := by
  obtain ⟨dir, key, val, fht, sibling⟩ := f
  rcases dir with _ | _
  · obtain ⟨-, hsib, hht, hlr, hrl⟩ := h
    exact ⟨ht, hsib, heq ▸ hht, heq ▸ hlr, heq ▸ hrl⟩
  · obtain ⟨hsib, -, hht, hlr, hrl⟩ := h
    exact ⟨hsib, ht, heq ▸ hht, heq ▸ hlr, heq ▸ hrl⟩

theorem Frame.avl_of_plug {f : Frame κ α} (h : (f.plug s).Avl) :
    s.Avl ∧ f.sibling.Avl ∧ f.ht = max s.height f.sibling.height + 1 ∧
      s.height ≤ f.sibling.height + 1 ∧ f.sibling.height ≤ s.height + 1 := by
  obtain ⟨dir, key, val, fht, sibling⟩ := f
  rcases dir with _ | _
  · exact h
  · obtain ⟨hsib, hs, hht, hlr, hrl⟩ := h
    exact ⟨hs, hsib, Nat.max_comm _ _ ▸ hht, hrl, hlr⟩

/-- The nodes on the way down to a subtree of a balanced tree are balanced. -/
theorem avl_of_plugAll (h : (plugAll fs t).Avl) :
    t.Avl := by
  induction fs generalizing t with
  | nil => exact h
  | cons f fs ih => exact (Frame.avl_of_plug (ih h)).1

/-- A subtree may be exchanged for another of the same height. -/
theorem plugAll_avl (h : (plugAll fs s).Avl)
    (ht : t.Avl) (heq : t.height = s.height) : (plugAll fs t).Avl := by
  induction fs generalizing s t with
  | nil => exact ht
  | cons f fs ih =>
    apply ih h
    · exact Frame.plug_avl (avl_of_plugAll (t := f.plug s) h) ht heq
    · rw [Frame.height_plug, Frame.height_plug]

/-- The way down to a subtree is not longer than the tree is high. -/
theorem length_plugAll_le (h : (plugAll fs t).Avl) :
    fs.length + t.height ≤ (plugAll fs t).height := by
  induction fs generalizing t with
  | nil => exact (Nat.zero_add _).le
  | cons f fs ih =>
    have hrest := ih h
    obtain ⟨-, -, hht, -, -⟩ := Frame.avl_of_plug (avl_of_plugAll (t := f.plug t) h)
    rw [Frame.height_plug] at hrest
    rw [List.length_cons]
    show _ ≤ (plugAll fs (f.plug t)).height
    omega

end MeuOS.Lib
