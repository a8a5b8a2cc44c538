import MeuOS.Lib.AvlTree

namespace MeuOS.Mcc

open MeuOS.Lib List

/-!
# Balanced trees (`parse/tree.c`)

`treeinsert` keeps the case constants of a `switch` in a tree whose nodes store their height.  It
remembers the way down in an array of fixed size and rebalances upwards until a height stays.

* `rot`, `balance`, `treeinsert` — the source's functions;
* `balance_spec` — what one turn of the loop upwards does to a subtree;
* `treeinsert_spec` — the tree stays balanced and gets the new entry at its place;
* `treeinsert_room` — the array is long enough.
-/

/-- `struct treenode` with what follows it. -/
abbrev TreeNode (β : Type) := HTree Nat β

namespace TreeNode

variable {β : Type}

/-- `t->child[dir]`. -/
def child (t : TreeNode β) (dir : Bool) : TreeNode β :=
  match t, dir with
  | .nil, _ => .nil
  | .node _ _ _ l _, false => l
  | .node _ _ _ _ r, true => r

/-- `t->child[dir] = c`. -/
def setChild (t : TreeNode β) (dir : Bool) (c : TreeNode β) : TreeNode β :=
  match t, dir with
  | .nil, _ => .nil
  | .node key val ht _ r, false => .node key val ht c r
  | .node key val ht l _, true => .node key val ht l c

/-- `t->height = h`. -/
def setHeight (t : TreeNode β) (h : Nat) : TreeNode β :=
  match t with
  | .nil => .nil
  | .node key val _ l r => .node key val h l r

end TreeNode

variable {β : Type}

/-! ### Insertion -/

/-- `rot`: the tree that `*p` points to afterwards, and the change of height. -/
def rot (x : TreeNode β) (dir : Bool) : TreeNode β × Int :=
  let y := x.child dir
  let z := y.child (!dir)
  let hz := z.height
  if hz > (y.child dir).height then
    let x' := (x.setChild dir (z.child (!dir))).setHeight hz
    let y' := (y.setChild (!dir) (z.child dir)).setHeight hz
    let z' := ((z.setChild (!dir) x').setChild dir y').setHeight (hz + 1)
    (z', (z'.height : Int) - x.height)
  else
    let x' := (x.setChild dir z).setHeight (hz + 1)
    let y' := (y.setChild (!dir) x').setHeight (hz + 2)
    (y', (y'.height : Int) - x.height)

/-- `balance`: the tree that `*p` points to afterwards, and the change of height. -/
def balance (n : TreeNode β) : TreeNode β × Int :=
  let h0 := (n.child false).height
  let h1 := (n.child true).height
  if h0 ≤ h1 + 1 ∧ h1 ≤ h0 + 1 then
    let h := if h0 < h1 then h1 + 1 else h0 + 1
    (n.setHeight h, (h : Int) - n.height)
  else rot n (h0 < h1)

/-- `MAXH`, for pointers of some bytes. -/
def MAXH (ptr : Nat) : Nat := ptr * 8 * 3 / 2

/-- The loop of `treeinsert` down to a key: the nodes passed, the lowest one first, and the node
    found. -/
def treefind (key : Nat) : TreeNode β → List (Frame Nat β) → List (Frame Nat β) × TreeNode β
  | .nil, a => (a, .nil)
  | .node k val ht l r, a =>
    if key = k then (a, .node k val ht l r)
    else if key > k then treefind key r (⟨true, k, val, ht, l⟩ :: a)
    else treefind key l (⟨false, k, val, ht, r⟩ :: a)

/-- The loop of `treeinsert` upwards; it ends where a height stays. -/
def rebalance : List (Frame Nat β) → TreeNode β → TreeNode β
  | [], t => t
  | f :: a, t =>
    if (balance (f.plug t)).2 ≠ 0 then rebalance a (balance (f.plug t)).1
    else plugAll a (balance (f.plug t)).1

/-- Writing behind the end of the array `a`. -/
inductive TreeErr where
  | overrun
  deriving DecidableEq, Repr

/-- `treeinsert`, with what the caller puts behind the node: the tree, and whether the node is new.
    The array holds the address of the root and one for each node passed. -/
def treeinsert (ptr : Nat) (root : TreeNode β) (key : Nat) (val : β) :
    Except TreeErr (TreeNode β × Bool) :=
  let way := treefind key root []
  if way.1.length + 1 > MAXH ptr then .error .overrun
  else
    match way.2 with
    | .node .. => .ok (root, false)
    | .nil => .ok (rebalance way.1 (.node key val 1 .nil .nil), true)

/-! ### One turn upwards -/

/-- What `rot` and `balance` do: a balanced tree with the same entries whose height is that of the
    higher child or one more. -/
structure Rebalanced (n : TreeNode β) (h0 h1 : Nat) (r : TreeNode β × Int) : Prop where
  avl : r.1.Avl
  inorder : r.1.inorder = n.inorder
  low : max h0 h1 ≤ r.1.height
  high : r.1.height ≤ max h0 h1 + 1
  near : h0 ≤ h1 + 1 → h1 ≤ h0 + 1 → r.1.height = max h0 h1 + 1
  change : r.2 = (r.1.height : Int) - n.height

/-- The two shapes that `rot` makes when the left side is too deep. -/
theorem rot_false_eq (key ky : Nat) (val vy : β) (ht hy : Nat) (d z r : TreeNode β) :
    rot (.node key val ht (.node ky vy hy d z) r) false
      = if z.height > d.height then
          match z with
          | .nil => (.nil, 0 - (ht : Int))
          | .node kz vz hz b c =>
            (.node kz vz (hz + 1) (.node ky vy hz d b) (.node key val hz c r),
              ((hz + 1 : Nat) : Int) - ht)
        else
          (.node ky vy (z.height + 2) d (.node key val (z.height + 1) z r),
            ((z.height + 2 : Nat) : Int) - ht) := by
  rcases z with _ | ⟨kz, vz, hz, b, c⟩
  · rfl
  · rfl

/-- And those when the right side is. -/
theorem rot_true_eq (key ky : Nat) (val vy : β) (ht hy : Nat) (l z d : TreeNode β) :
    rot (.node key val ht l (.node ky vy hy z d)) true
      = if z.height > d.height then
          match z with
          | .nil => (.nil, 0 - (ht : Int))
          | .node kz vz hz b c =>
            (.node kz vz (hz + 1) (.node key val hz l b) (.node ky vy hz c d),
              ((hz + 1 : Nat) : Int) - ht)
        else
          (.node ky vy (z.height + 2) (.node key val (z.height + 1) l z) d,
            ((z.height + 2 : Nat) : Int) - ht) := by
  rcases z with _ | ⟨kz, vz, hz, b, c⟩
  · rfl
  · rfl

variable {key ht : Nat} {val : β} {l r t : TreeNode β}

theorem rot_false (hl : l.Avl) (hr : r.Avl) (hdeep : l.height = r.height + 2) :
    Rebalanced (.node key val ht l r) l.height r.height (rot (.node key val ht l r) false) := by
  rcases l with _ | ⟨ky, vy, hy, d, z⟩
  · cases hdeep
  obtain ⟨hd, hz, hyeq, hdz, hzd⟩ := hl
  replace hdeep : hy = r.height + 2 := hdeep
  rw [rot_false_eq, HTree.height_node]
  by_cases hdouble : z.height > d.height
  · rw [if_pos hdouble]
    rcases z with _ | ⟨kz, vz, hz', b, c⟩
    · exact absurd hdouble (Nat.not_lt_zero _)
    obtain ⟨hb, hc, hzeq, hbc, hcb⟩ := hz
    replace hdouble : hz' > d.height := hdouble
    replace hzd : hz' ≤ d.height + 1 := hzd
    replace hyeq : hy = max d.height hz' + 1 := hyeq
    exact
      { avl := ⟨⟨hd, hb, by omega, by omega, by omega⟩, ⟨hc, hr, by omega, by omega, by omega⟩,
          show hz' + 1 = max hz' hz' + 1 by omega, Nat.le_succ _, Nat.le_succ _⟩
        inorder := by simp
        low := show max hy r.height ≤ hz' + 1 by omega
        high := show hz' + 1 ≤ max hy r.height + 1 by omega
        near := fun h h' => absurd hdeep (by omega)
        change := rfl }
  · rw [if_neg hdouble]
    exact
      { avl := ⟨hd, ⟨hz, hr, by omega, by omega, by omega⟩,
          show z.height + 2 = max d.height (z.height + 1) + 1 by omega,
          show d.height ≤ z.height + 1 + 1 by omega, show z.height + 1 ≤ d.height + 1 by omega⟩
        inorder := by simp
        low := show max hy r.height ≤ z.height + 2 by omega
        high := show z.height + 2 ≤ max hy r.height + 1 by omega
        near := fun h h' => absurd hdeep (by omega)
        change := rfl }

theorem rot_true (hl : l.Avl) (hr : r.Avl) (hdeep : r.height = l.height + 2) :
    Rebalanced (.node key val ht l r) l.height r.height (rot (.node key val ht l r) true) := by
  rcases r with _ | ⟨ky, vy, hy, z, d⟩
  · cases hdeep
  obtain ⟨hz, hd, hyeq, hzd, hdz⟩ := hr
  replace hdeep : hy = l.height + 2 := hdeep
  rw [rot_true_eq, HTree.height_node]
  by_cases hdouble : z.height > d.height
  · rw [if_pos hdouble]
    rcases z with _ | ⟨kz, vz, hz', b, c⟩
    · exact absurd hdouble (Nat.not_lt_zero _)
    obtain ⟨hb, hc, hzeq, hbc, hcb⟩ := hz
    replace hdouble : hz' > d.height := hdouble
    replace hzd : hz' ≤ d.height + 1 := hzd
    replace hyeq : hy = max hz' d.height + 1 := hyeq
    exact
      { avl := ⟨⟨hl, hb, by omega, by omega, by omega⟩, ⟨hc, hd, by omega, by omega, by omega⟩,
          show hz' + 1 = max hz' hz' + 1 by omega, Nat.le_succ _, Nat.le_succ _⟩
        inorder := by simp
        low := show max l.height hy ≤ hz' + 1 by omega
        high := show hz' + 1 ≤ max l.height hy + 1 by omega
        near := fun h h' => absurd hdeep (by omega)
        change := rfl }
  · rw [if_neg hdouble]
    exact
      { avl := ⟨⟨hl, hz, by omega, by omega, by omega⟩, hd,
          show z.height + 2 = max (z.height + 1) d.height + 1 by omega,
          show z.height + 1 ≤ d.height + 1 by omega, show d.height ≤ z.height + 1 + 1 by omega⟩
        inorder := by simp
        low := show max l.height hy ≤ z.height + 2 by omega
        high := show z.height + 2 ≤ max l.height hy + 1 by omega
        near := fun h h' => absurd hdeep (by omega)
        change := rfl }

/-- One turn of the loop upwards, where the heights of the children differ by two at most. -/
theorem balance_spec (hl : l.Avl) (hr : r.Avl)
    (hlr : l.height ≤ r.height + 2) (hrl : r.height ≤ l.height + 2) :
    Rebalanced (.node key val ht l r) l.height r.height (balance (.node key val ht l r)) := by
  have hbalance : balance (.node key val ht l r)
      = if l.height ≤ r.height + 1 ∧ r.height ≤ l.height + 1 then
          let h := if l.height < r.height then r.height + 1 else l.height + 1
          (.node key val h l r, (h : Int) - ht)
        else rot (.node key val ht l r) (l.height < r.height) := rfl
  rw [hbalance]
  by_cases hnear : l.height ≤ r.height + 1 ∧ r.height ≤ l.height + 1
  · have hheight : (if l.height < r.height then r.height + 1 else l.height + 1)
        = max l.height r.height + 1 := by
      split <;> omega
    rw [if_pos hnear, hheight]
    exact ⟨⟨hl, hr, rfl, hnear.1, hnear.2⟩, rfl, Nat.le_succ _, le_rfl, fun _ _ => rfl, rfl⟩
  · rw [if_neg hnear]
    by_cases hdir : l.height < r.height
    · rw [decide_eq_true hdir]
      exact rot_true hl hr (by omega)
    · rw [decide_eq_false hdir]
      exact rot_false hl hr (by omega)

/-! ### The loop upwards -/

/-- A turn above a subtree that has grown by one. -/
theorem balance_plug {f : Frame Nat β} {s : TreeNode β} (hold : (f.plug s).Avl) (ht : t.Avl)
    (hgrown : t.height = s.height + 1) :
    (balance (f.plug t)).1.Avl ∧ (balance (f.plug t)).1.inorder = (f.plug t).inorder ∧
      ((balance (f.plug t)).2 = 0 ∧ (balance (f.plug t)).1.height = f.ht ∨
        (balance (f.plug t)).2 ≠ 0 ∧ (balance (f.plug t)).1.height = f.ht + 1) := by
  obtain ⟨-, hsib, hht, hlow, hhigh⟩ := Frame.avl_of_plug hold
  obtain ⟨h0, h1, hmax, hbal, hlo, hhi⟩ : ∃ h0 h1, max h0 h1 = max t.height f.sibling.height ∧
      Rebalanced (f.plug t) h0 h1 (balance (f.plug t)) ∧
      (h0 ≤ h1 + 1 ∧ h1 ≤ h0 + 1 ∨ max h0 h1 = t.height ∧ t.height = f.sibling.height + 2) ∧
      True := by
    obtain ⟨dir, key, val, fht, sibling⟩ := f
    rcases dir with _ | _
    · refine ⟨t.height, sibling.height, rfl, ?_, ?_, trivial⟩
      · exact balance_spec ht hsib (by dsimp only at *; omega) (by dsimp only at *; omega)
      · dsimp only at *
        omega
    · refine ⟨sibling.height, t.height, Nat.max_comm _ _, ?_, ?_, trivial⟩
      · exact balance_spec hsib ht (by dsimp only at *; omega) (by dsimp only at *; omega)
      · dsimp only at *
        omega
  refine ⟨hbal.avl, hbal.inorder, ?_⟩
  have hchange := hbal.change
  have hl := hbal.low
  have hh := hbal.high
  have hnear := hbal.near
  rw [Frame.height_plug] at hchange
  -- the height is the old one or one more
  have hsame : (balance (f.plug t)).1.height = f.ht ∨
      (balance (f.plug t)).1.height = f.ht + 1 := by
    rcases hlo with hlo | hlo
    · have := hnear hlo.1 hlo.2
      omega
    · omega
  omega

/-- The loop upwards puts a subtree that has grown by one into a balanced tree. -/
theorem rebalance_spec {a : List (Frame Nat β)} {s : TreeNode β} (hold : (plugAll a s).Avl)
    (ht : t.Avl) (hgrown : t.height = s.height + 1) :
    (rebalance a t).Avl ∧ (rebalance a t).inorder = (plugAll a t).inorder := by
  induction a generalizing s t with
  | nil => exact ⟨ht, rfl⟩
  | cons f a ih =>
    have hframe : (f.plug s).Avl := avl_of_plugAll hold
    obtain ⟨havl, horder, hheight⟩ := balance_plug hframe ht hgrown
    unfold rebalance
    have hsame : (plugAll a (balance (f.plug t)).1).inorder = (plugAll (f :: a) t).inorder := by
      show _ = (plugAll a (f.plug t)).inorder
      rw [inorder_plugAll, inorder_plugAll, horder]
    rcases hheight with ⟨hzero, hht⟩ | ⟨hne, hht⟩
    · rw [if_neg (not_not_intro hzero)]
      refine ⟨plugAll_avl hold havl ?_, hsame⟩
      rw [hht, Frame.height_plug]
    · rw [if_pos hne, ← hsame]
      exact ih hold havl (by rw [hht, Frame.height_plug])

/-! ### Insertion -/

/-- Keys ascend from left to right; no key occurs twice. -/
def Ordered (t : TreeNode β) : Prop := (t.inorder.map Prod.fst).Pairwise (· < ·)

/-- The way down to a key leaves the tree as it is. -/
theorem plugAll_treefind (key : Nat) (t : TreeNode β) (a : List (Frame Nat β)) :
    plugAll (treefind key t a).1 (treefind key t a).2 = plugAll a t := by
  induction t generalizing a with
  | nil => rfl
  | node k val ht l r ihl ihr =>
    unfold treefind
    split
    · rfl
    split
    · exact ihr _
    · exact ihl _

/-- It ends at the key or at the place for it. -/
theorem treefind_spec {key : Nat} {t : TreeNode β} {a : List (Frame Nat β)}
    (hbefore : ∀ x ∈ entriesBefore a, x.1 < key) (hafter : ∀ x ∈ entriesAfter a, key < x.1)
    (hord : Ordered (plugAll a t)) :
    ((treefind key t a).2 = .nil ∧ (∀ x ∈ entriesBefore (treefind key t a).1, x.1 < key) ∧
      ∀ x ∈ entriesAfter (treefind key t a).1, key < x.1) ∨
    ∃ val ht l r, (treefind key t a).2 = .node key val ht l r := by
  induction t generalizing a with
  | nil => exact .inl ⟨rfl, hbefore, hafter⟩
  | node k val ht l r ihl ihr =>
    -- the entries of the two sides are apart
    have hsides : (∀ x ∈ l.inorder, x.1 < k) ∧ ∀ x ∈ r.inorder, k < x.1 := by
      unfold Ordered at hord
      rw [inorder_plugAll, HTree.inorder_node, map_append, pairwise_append,
        map_append, pairwise_append, map_append, pairwise_append,
        map_cons, pairwise_cons] at hord
      obtain ⟨-, ⟨⟨-, ⟨hroot, -⟩, hlr⟩, -, -⟩, -⟩ := hord
      refine ⟨fun x hx => ?_, fun x hx => ?_⟩
      · exact hlr x.1 (mem_map.mpr ⟨x, hx, rfl⟩) k mem_cons_self
      · exact hroot x.1 (mem_map.mpr ⟨x, hx, rfl⟩)
    unfold treefind
    split
    · next heq =>
      subst heq
      exact .inr ⟨val, ht, l, r, rfl⟩
    split
    · next hgt =>
      apply ihr (a := ⟨true, k, val, ht, l⟩ :: a) _ (by simpa [entriesAfter] using hafter) hord
      intro x hx
      rcases mem_append.mp hx with hx | hx
      · exact hbefore x hx
      · rcases mem_append.mp hx with hx | hx
        · exact (hsides.1 x hx).trans hgt
        · obtain rfl := mem_singleton.mp hx
          exact hgt
    · next hne hle =>
      apply ihl (a := ⟨false, k, val, ht, r⟩ :: a) (by simpa [entriesBefore] using hbefore) _ hord
      intro x hx
      rcases mem_append.mp hx with hx | hx
      · rcases mem_cons.mp hx with rfl | hx
        · show key < k
          omega
        · have hlt := hsides.2 x hx
          omega
      · exact hafter x hx

/-- The array has room for the way down in a balanced tree with up to `2 ^ 64` nodes, with
    pointers of eight bytes, and with up to `2 ^ 32` nodes, with pointers of four. -/
theorem treeinsert_room (havl : t.Avl) {ptr : Nat}
    (hsize : ptr = 8 ∧ t.size ≤ 2 ^ 64 ∨ ptr = 4 ∧ t.size ≤ 2 ^ 32) (key : Nat) :
    ¬ (treefind key t []).1.length + 1 > MAXH ptr := by
  have hway := plugAll_treefind key t []
  have hlen : (treefind key t []).1.length + (treefind key t []).2.height
      ≤ (plugAll (treefind key t []).1 (treefind key t []).2).height :=
    length_plugAll_le (by rw [hway]; exact havl)
  rw [hway] at hlen
  replace hlen : (treefind key t []).1.length + (treefind key t []).2.height ≤ t.height := hlen
  have hfib := havl.fib_le
  rcases hsize with ⟨rfl, hlt⟩ | ⟨rfl, hlt⟩
  · have hheight : t.height < 92 := by
      by_contra hge
      have hmono : Nat.fib 94 ≤ Nat.fib (t.height + 2) := Nat.fib_mono (by omega)
      have hnum : Nat.fib 94 = 19740274219868223167 := by decide
      omega
    have hmax : MAXH 8 = 96 := rfl
    omega
  · have hheight : t.height < 46 := by
      by_contra hge
      have hmono : Nat.fib 48 ≤ Nat.fib (t.height + 2) := Nat.fib_mono (by omega)
      have hnum : Nat.fib 48 = 4807526976 := by decide
      omega
    have hmax : MAXH 4 = 48 := rfl
    omega

/-- The keys of a tree. -/
def treeKeys (t : TreeNode β) : List Nat := t.inorder.map Prod.fst

/-- `treeinsert` leaves a tree that has the key alone; otherwise the new entry gets its place in the
    order, and the tree stays balanced. -/
theorem treeinsert_spec (havl : t.Avl) (hord : Ordered t) {ptr : Nat}
    (hsize : ptr = 8 ∧ t.size ≤ 2 ^ 64 ∨ ptr = 4 ∧ t.size ≤ 2 ^ 32) (key : Nat) (val : β) :
    (key ∈ treeKeys t ∧ treeinsert ptr t key val = .ok (t, false)) ∨
      (key ∉ treeKeys t ∧ ∃ t' before after, treeinsert ptr t key val = .ok (t', true) ∧
        t'.Avl ∧ Ordered t' ∧ t.inorder = before ++ after ∧
          t'.inorder = before ++ (key, val) :: after) := by
  have hroom := treeinsert_room havl hsize key
  have hway := plugAll_treefind key t []
  unfold treeinsert
  dsimp only
  rw [if_neg hroom]
  obtain ⟨hnil, hbefore, hafter⟩ | ⟨v, ht, l, r, hfound⟩ :=
    @treefind_spec β key t [] (fun x hx => by cases hx) (fun x hx => by cases hx) hord
  · right
    rw [hnil] at hway ⊢
    generalize (treefind key t []).1 = a at hway hbefore hafter ⊢
    have horder : t.inorder = entriesBefore a ++ entriesAfter a := by
      rw [show t = plugAll a .nil from hway.symm, inorder_plugAll]
      rfl
    have hold : (plugAll a (.nil : TreeNode β)).Avl := by
      rw [hway]
      exact havl
    have hleaf : (.node key val 1 .nil .nil : TreeNode β).Avl :=
      ⟨trivial, trivial, rfl, Nat.zero_le _, Nat.zero_le _⟩
    obtain ⟨havl', hnew⟩ := rebalance_spec hold hleaf rfl
    rw [inorder_plugAll] at hnew
    refine ⟨?_, _, entriesBefore a, entriesAfter a, rfl, havl', ?_, horder, hnew⟩
    · unfold treeKeys
      rw [horder, mem_map]
      rintro ⟨x, hx, rfl⟩
      rcases mem_append.mp hx with hx | hx
      · exact lt_irrefl _ (hbefore x hx)
      · exact lt_irrefl _ (hafter x hx)
    · -- the new key stands between the others
      unfold Ordered at hord ⊢
      rw [horder, map_append, pairwise_append] at hord
      rw [hnew, map_append, pairwise_append]
      refine ⟨hord.1, ?_, ?_⟩
      · refine pairwise_cons.mpr ⟨fun k hk => ?_, hord.2.1⟩
        obtain ⟨x, hx, rfl⟩ := mem_map.mp hk
        exact hafter x hx
      · intro k hk k' hk'
        rcases mem_cons.mp hk' with rfl | hk'
        · obtain ⟨x, hx, rfl⟩ := mem_map.mp hk
          exact hbefore x hx
        · exact hord.2.2 k hk k' hk'
  · left
    rw [hfound] at hway ⊢
    refine ⟨?_, rfl⟩
    unfold treeKeys
    rw [show t = plugAll _ _ from hway.symm, inorder_plugAll]
    simp

end MeuOS.Mcc
