import Mathlib.Order.Nat

namespace MeuOS.Lib

/-!
# Lookup in a table ordered by a hash

Positions `0 … n - 1` carry a key; several may share one. A lookup bisects for some position with
the key it wants, goes back to the first of the run and then forward to the first hit.

* `hashSearch_found` — what is found is a hit inside the table, under the wanted key;
* `hashSearch_of_sorted` — in a sorted table the only hit is found.
-/

/-- What a lookup comes back with: a position, a run of the key without a hit, or no such key. -/
inductive Lookup where
  | found (i : Nat)
  | collision
  | absent
  deriving DecidableEq, Repr

section

variable (key : Nat → Nat) (hit : Nat → Bool) (t : Nat)

/-- Going back from a position while the one before has key `t`, and not below `lo`. -/
def scanBack (lo : Nat) : Nat → Nat
  | 0 => 0
  | s + 1 => if lo < s + 1 ∧ key s = t then scanBack lo s else s + 1

/-- The first hit of the run with key `t`, from `s` on, among `k` positions. -/
def scanForward : Nat → Nat → Option Nat
  | 0, _ => none
  | k + 1, s =>
    if key s = t then
      if hit s then some s else scanForward k (s + 1)
    else none

/-- The bisection of `lo … hi - 1` in a table of `n` positions, in at most `k` rounds. -/
def hashSearch (n : Nat) : Nat → Nat → Nat → Lookup
  | 0, _, _ => .absent
  | k + 1, lo, hi =>
    if lo < hi then
      let mid := lo + (hi - lo) / 2
      if key mid < t then hashSearch n k (mid + 1) hi
      else if t < key mid then hashSearch n k lo mid
      else
        let s := scanBack key t lo mid
        match scanForward key hit t (n - s) s with
        | some i => .found i
        | none => .collision
    else .absent

variable {key hit t}

/-! ### The two scans -/

/-- Going back never goes forward. -/
theorem scanBack_le (lo s : Nat) : scanBack key t lo s ≤ s := by
  induction s with
  | zero => exact le_rfl
  | succ s ih =>
    rw [scanBack]
    split
    · exact Nat.le_succ_of_le ih
    · exact le_rfl

variable {lo s i j k : Nat}

/-- Whatever was passed on the way back has the key. -/
theorem key_of_scanBack_le (hlo : scanBack key t lo s ≤ i) (hi : i < s) :
    key i = t := by
  induction s with
  | zero => exact absurd hi (Nat.not_lt_zero i)
  | succ s ih =>
    rw [scanBack] at hlo
    split at hlo
    next hs =>
      obtain rfl | hlt := Nat.eq_or_lt_of_le (Nat.lt_succ_iff.mp hi)
      · exact hs.2
      · exact ih hlo hlt
    next => omega

/-- A position from `lo` on is reached on the way back when the run comes that far. -/
theorem scanBack_le_of_run (hlo : lo ≤ j) (hj : j ≤ s)
    (hrun : ∀ i, j ≤ i → i < s → key i = t) : scanBack key t lo s ≤ j := by
  induction s with
  | zero => exact Nat.zero_le j
  | succ s ih =>
    obtain rfl | hlt := Nat.eq_or_lt_of_le hj
    · exact scanBack_le lo (s + 1)
    · rw [scanBack, if_pos ⟨by omega, hrun s (by omega) (Nat.lt_succ_self s)⟩]
      exact ih (by omega) fun i h1 h2 => hrun i h1 (by omega)

/-- What the way forward stops at. -/
theorem scanForward_some (h : scanForward key hit t k s = some i) :
    s ≤ i ∧ i < s + k ∧ key i = t ∧ hit i = true := by
  induction k generalizing s with
  | zero => exact absurd h (by simp [scanForward])
  | succ k ih =>
    rw [scanForward] at h
    split at h
    next hkey =>
      split at h
      next hhit =>
        cases h
        exact ⟨le_rfl, by omega, hkey, hhit⟩
      next =>
        obtain ⟨h1, h2, h3⟩ := ih h
        exact ⟨by omega, by omega, h3⟩
    next => cases h

/-- The way forward comes to the only hit of the run. -/
theorem scanForward_of_run (hs : s ≤ j) (hj : j < s + k)
    (hrun : ∀ i, s ≤ i → i ≤ j → key i = t) (hhit : hit j = true)
    (honly : ∀ i, i < s + k → key i = t → hit i = true → i = j) :
    scanForward key hit t k s = some j := by
  induction k generalizing s with
  | zero => omega
  | succ k ih =>
    rw [scanForward, if_pos (hrun s le_rfl hs)]
    by_cases hit_s : hit s = true
    · rw [if_pos hit_s, honly s (by omega) (hrun s le_rfl hs) hit_s]
    · rw [if_neg hit_s]
      have hne : s ≠ j := by
        intro he
        exact hit_s (he ▸ hhit)
      exact ih (by omega) (by omega) (fun i h1 h2 => hrun i (by omega) h2)
        fun i h1 => honly i (by omega)

/-! ### The lookup -/

/-- What is found is a hit inside the table, under the wanted key. -/
theorem hashSearch_found {n hi : Nat} (hn : hi ≤ n)
    (h : hashSearch key hit t n k lo hi = .found i) : i < n ∧ key i = t ∧ hit i = true := by
  induction k generalizing lo hi with
  | zero => exact absurd h (by simp [hashSearch])
  | succ k ih =>
    rw [hashSearch] at h
    split at h
    next hlt =>
      dsimp only at h
      have hmid : lo + (hi - lo) / 2 < hi := by omega
      split at h
      · exact ih hn h
      · split at h
        · exact ih (by omega) h
        · split at h
          next j hj =>
            cases h
            have hback : scanBack key t lo (lo + (hi - lo) / 2) ≤ lo + (hi - lo) / 2 :=
              scanBack_le lo _
            obtain ⟨h1, h2, h3⟩ := scanForward_some hj
            exact ⟨by omega, h3⟩
          next => cases h
    next => cases h

/-- In a sorted table the only hit is found. The bisection keeps it between `lo` and `hi`, and a
round makes that range smaller. -/
theorem hashSearch_of_sorted {n : Nat} (hj : j < n)
    (hsorted : ∀ a b, a ≤ b → b < n → key a ≤ key b) (hkey : key j = t) (hhit : hit j = true)
    (honly : ∀ i, i < n → key i = t → hit i = true → i = j) {hi : Nat} (hn : hi ≤ n)
    (hlo : lo ≤ j) (hhi : j < hi) (hk : hi - lo ≤ k) :
    hashSearch key hit t n k lo hi = .found j := by
  induction k generalizing lo hi with
  | zero => omega
  | succ k ih =>
    have hmid : lo + (hi - lo) / 2 < hi := by omega
    rw [hashSearch, if_pos (by omega)]
    dsimp only
    split
    next hbelow =>
      -- the hit lies right of an entry with a smaller key
      have hgt : lo + (hi - lo) / 2 < j := by
        by_contra hle
        have := hsorted j (lo + (hi - lo) / 2) (by omega) (by omega)
        omega
      exact ih hn (by omega) hhi (by omega)
    next hbelow =>
      split
      next habove =>
        have hlt : j < lo + (hi - lo) / 2 := by
          by_contra hle
          have := hsorted (lo + (hi - lo) / 2) j (by omega) hj
          omega
        exact ih (by omega) hlo hlt (by omega)
      next habove =>
        have hmidkey : key (lo + (hi - lo) / 2) = t := by omega
        -- everything between the middle and the hit has the key too
        have hrun : ∀ i, min j (lo + (hi - lo) / 2) ≤ i → i ≤ max j (lo + (hi - lo) / 2) →
            key i = t := by
          intro i h1 h2
          have hup : key i ≤ t := by
            obtain hle | hle := le_total j (lo + (hi - lo) / 2)
            · exact hmidkey ▸ hsorted i _ (by omega) (by omega)
            · exact hkey ▸ hsorted i j (by omega) hj
          have hdown : t ≤ key i := by
            obtain hle | hle := le_total j (lo + (hi - lo) / 2)
            · exact hkey ▸ hsorted j i (by omega) (by omega)
            · exact hmidkey ▸ hsorted _ i (by omega) (by omega)
          omega
        have hback : scanBack key t lo (lo + (hi - lo) / 2) ≤ lo + (hi - lo) / 2 :=
          scanBack_le lo _
        have hle : scanBack key t lo (lo + (hi - lo) / 2) ≤ j := by
          obtain hjm | hjm := le_total j (lo + (hi - lo) / 2)
          · exact scanBack_le_of_run hlo hjm fun i h1 h2 => hrun i (by omega) (by omega)
          · omega
        rw [scanForward_of_run (j := j) hle (by omega) _ hhit
          fun i h1 => honly i (by omega)]
        intro i h1 h2
        obtain hi_lt | hi_ge := Nat.lt_or_ge i (lo + (hi - lo) / 2)
        · exact key_of_scanBack_le h1 hi_lt
        · exact hrun i (by omega) (by omega)

end

end MeuOS.Lib
