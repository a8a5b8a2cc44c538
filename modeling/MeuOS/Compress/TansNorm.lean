import MeuOS.Compress.Tans

namespace MeuOS.Compress

open MeuOS.Lib List Bool

/-!
# The frequencies that `normalise_freqs` gives

* `IsShare`, `doubleUntil_share` — the powers of two up to 256, and the loops that look for one;
* `Shaped`, `adjustLoop_shaped` — the second pass keeps the unused symbols, and every used one
  between 1 and 256;
* `adjustNorm_sum`, `adjustNorm_exact` — what a sweep adds to the sum, and where nothing is missing
  at its end;
* `SumReached`, `normaliseFreqs_shares` — the table for every input, and inputs whose table has the
  sum 256;
* `normaliseFreqs_three_one` — counts of 3 and 1, whose table has not.
-/

/-! ### Powers of two -/

/-- A power of two up to `ANS_L`. -/
def IsShare (n : Nat) : Prop := ∃ k ≤ 8, n = 2 ^ k

variable {n k : Nat} {l shares norm raw : List Nat} {diff s : Int}

theorem IsShare.pos (h : IsShare n) : 0 < n := by
  obtain ⟨k, -, rfl⟩ := h
  exact Nat.two_pow_pos k

theorem IsShare.le (h : IsShare n) : n ≤ ANS_L := by
  obtain ⟨k, hk, rfl⟩ := h
  exact Nat.pow_le_pow_right (by decide) hk

set_option maxRecDepth 20000 in
/-- The numbers up to 256 that pass the test of `build_tables`. -/
theorem isPow2_iff (hn : n ≤ ANS_L) : isPow2 n = true ↔ n = 0 ∨ IsShare n := by
  constructor
  · have hall : ∀ n < 257, isPow2 n = true → n = 0 ∨ ∃ k < 9, n = 2 ^ k := by decide
    intro h
    exact (hall n (Nat.lt_succ_of_le hn) h).imp_right fun ⟨k, hk, he⟩ => ⟨k, Nat.le_of_lt_succ hk, he⟩
  · have hall : ∀ k < 9, isPow2 (2 ^ k) = true := by decide
    rintro (rfl | ⟨k, hk, rfl⟩)
    · rfl
    · exact hall k (Nat.lt_succ_of_le hk)

set_option maxRecDepth 20000 in
theorem doubleUntil_up (hn : n ≤ ANS_L) :
    IsShare (doubleUntil (fun p => !(p < n && p < ANS_L)) 9 1) := by
  have hall : ∀ n < 257, ∃ k < 9, doubleUntil (fun p => !(p < n && p < ANS_L)) 9 1 = 2 ^ k := by
    decide
  obtain ⟨k, hk, he⟩ := hall n (Nat.lt_succ_of_le hn)
  exact ⟨k, Nat.le_of_lt_succ hk, he⟩

set_option maxRecDepth 20000 in
/-- The first pass rounds a share down. -/
theorem doubleUntil_down {v : Nat} (hv : v < 256) :
    IsShare (doubleUntil (fun p => !(p * 2 ≤ v && p * 2 ≤ ANS_L)) 9 1) ∧
      doubleUntil (fun p => !(p * 2 ≤ v && p * 2 ≤ ANS_L)) 9 1 ≤ 128 := by
  have hall : ∀ v < 256, ∃ k < 8, doubleUntil (fun p => !(p * 2 ≤ v && p * 2 ≤ ANS_L)) 9 1
      = 2 ^ k := by
    decide
  obtain ⟨k, hk, he⟩ := hall v hv
  rw [he]
  exact ⟨⟨k, by omega, rfl⟩, Nat.pow_le_pow_right (by decide) (Nat.le_of_lt_succ hk)⟩

/-- The share of one of several symbols. -/
theorem roundFreq_share {total raw : Nat} (hraw : 0 < raw) (hless : raw < total) :
    IsShare (roundFreq total raw) ∧ roundFreq total raw ≤ 128 := by
  have hv : raw * ANS_L % 2 ^ 32 / total < 256 := by
    have hmod : raw * ANS_L % 2 ^ 32 ≤ raw * ANS_L := Nat.mod_le _ _
    have hmul : raw * ANS_L < total * 256 := Nat.mul_lt_mul_of_pos_right hless (by decide)
    rw [Nat.div_lt_iff_lt_mul (by omega), Nat.mul_comm 256]
    exact hmod.trans_lt hmul
  unfold roundFreq
  rw [if_neg (by omega)]
  apply doubleUntil_down
  split
  · decide
  · exact hv

/-! ### The second pass keeps the shape of the table -/

/-- A table with the same unused symbols, whose entries do not pass 256 if they did not before. -/
def Shaped (l l' : List Nat) : Prop :=
  List.Forall₂ (fun a b => (a = 0 ↔ b = 0) ∧ (a ≤ ANS_L → b ≤ ANS_L)) l l'

theorem Shaped.refl (l : List Nat) : Shaped l l :=
  forall₂_same.mpr fun _ _ => ⟨Iff.rfl, id⟩

theorem Shaped.trans {l' l'' : List Nat} (h : Shaped l l') (h' : Shaped l' l'') :
    Shaped l l'' := by
  unfold Shaped at *
  induction h generalizing l'' with
  | nil => exact h'
  | @cons a b l l' hab _ ih =>
    match h' with
    | .cons hbc h' => exact .cons ⟨hab.1.trans hbc.1, hbc.2 ∘ hab.2⟩ (ih h')

theorem Shaped.of_reverse {l' : List Nat} (h : Shaped l.reverse l') : Shaped l l'.reverse := by
  have hforth := rel_reverse h
  rwa [reverse_reverse] at hforth

theorem adjustNorm_shaped {want : Int → Bool} {can : Nat → Bool} {f : Nat → Nat}
    (hf : ∀ n, can n = true → 0 < n ∧ 0 < f n ∧ (n ≤ ANS_L → f n ≤ ANS_L)) (l : List Nat)
    (diff : Int) : Shaped l (adjustNorm want can f l diff).1 := by
  induction l generalizing diff with
  | nil => exact Shaped.refl []
  | cons n l ih =>
    unfold adjustNorm
    split
    · rename_i h
      have hcan := hf n (and_eq_true_iff.mp h).2
      exact .cons ⟨by omega, hcan.2.2⟩ (ih _)
    · exact .cons ⟨Iff.rfl, id⟩ (ih _)

theorem adjustTurn_shaped (norm : List Nat) (diff : Int) :
    Shaped norm (adjustTurn norm diff).1 := by
  unfold adjustTurn
  have hL : ANS_L = 256 := rfl
  split
  · refine Shaped.trans (adjustNorm_shaped (fun n h => ?_) norm diff)
      (adjustNorm_shaped (fun n h => ?_) _ _)
    · simp only [and_eq_true, decide_eq_true_eq] at h
      omega
    · simp only [and_eq_true, decide_eq_true_eq] at h
      omega
  · apply Shaped.of_reverse
    refine Shaped.trans (adjustNorm_shaped (fun n h => ?_) norm.reverse diff)
      (adjustNorm_shaped (fun n h => ?_) _ _)
    · simp only [and_eq_true, decide_eq_true_eq, beq_iff_eq] at h
      omega
    · simp only [decide_eq_true_eq] at h
      omega

theorem adjustLoop_shaped (safety : Nat) (norm : List Nat) :
    Shaped norm (adjustLoop safety norm) := by
  induction safety generalizing norm with
  | zero => exact Shaped.refl norm
  | succ safety ih =>
    unfold adjustLoop
    dsimp only
    split
    · exact Shaped.refl norm
    split
    · exact (adjustTurn_shaped norm _).trans (ih _)
    · exact adjustTurn_shaped norm _

/-! ### Sweeps -/

section sweep

variable (want : Int → Bool) (can : Nat → Bool) (f : Nat → Nat)

/-- What a sweep can add to the sum at an entry. -/
def sweepChange (can : Nat → Bool) (f : Nat → Nat) (n : Nat) : Int :=
  if can n then (f n - n : Int) else 0

/-- A sweep adds to the sum what it takes from what is missing. -/
theorem adjustNorm_sum (l : List Nat) (diff : Int) :
    ((adjustNorm want can f l diff).1.sum : Int) + (adjustNorm want can f l diff).2.1
      = l.sum + diff := by
  induction l generalizing diff with
  | nil => simp [adjustNorm]
  | cons n l ih =>
    unfold adjustNorm
    split
    · have hrest := ih (diff - (f n - n))
      revert hrest
      rcases adjustNorm want can f l (diff - (f n - n)) with ⟨ns, d, c⟩
      intro hrest
      dsimp only at hrest ⊢
      rw [sum_cons, sum_cons, Nat.cast_add, Nat.cast_add]
      omega
    · have hrest := ih diff
      revert hrest
      rcases adjustNorm want can f l diff with ⟨ns, d, c⟩
      intro hrest
      dsimp only at hrest ⊢
      rw [sum_cons, sum_cons, Nat.cast_add, Nat.cast_add]
      omega

/-- Entries that a sweep keeps in a set stay in it. -/
theorem adjustNorm_forall {P : Nat → Prop} {can : Nat → Bool} {f : Nat → Nat}
    (hf : ∀ n, can n = true → P n → P (f n)) (hl : ∀ n ∈ l, P n) (diff : Int) :
    ∀ n ∈ (adjustNorm want can f l diff).1, P n := by
  induction l generalizing diff with
  | nil => exact hl
  | cons n l ih =>
    rw [forall_mem_cons] at hl
    unfold adjustNorm
    split
    · rename_i h
      exact forall_mem_cons.mpr ⟨hf n (and_eq_true_iff.mp h).2 hl.1, ih hl.2 _⟩
    · exact forall_mem_cons.mpr ⟨hl.1, ih hl.2 _⟩

/-- A sweep that is not wanted changes nothing. -/
theorem adjustNorm_unwanted {want : Int → Bool} {can : Nat → Bool} {f : Nat → Nat}
    (h : want diff = false) (l : List Nat) :
    adjustNorm want can f l diff = (l, diff, false) := by
  induction l with
  | nil => rfl
  | cons n l ih =>
    unfold adjustNorm
    rw [h, ih]
    rfl

variable {want can f}

/-- Changes of one sign add up to one of that sign. -/
theorem sum_signed {g : Nat → Int} (h : ∀ n, 0 ≤ s * g n) (l : List Nat) :
    0 ≤ s * (l.map g).sum := by
  induction l with
  | nil => simp
  | cons n l ih =>
    have hn := h n
    rw [map_cons, sum_cons, Int.mul_add]
    omega

/-- A sweep that goes in one direction, and to the end of some entries makes up what is missing,
ends there. -/
theorem adjustNorm_exact (hs : s = 1 ∨ s = -1) (hwant : ∀ d, want d = true ↔ 0 < s * d)
    (hcan : ∀ n, 0 ≤ s * sweepChange can f n)
    (hk : ((l.take k).map (sweepChange can f)).sum = diff) :
    (adjustNorm want can f l diff).2.1 = 0 := by
  have hzero : want 0 = false := by
    rw [eq_false_iff, Ne, hwant]
    omega
  induction l generalizing diff k with
  | nil =>
    rw [take_nil] at hk
    exact hk.symm
  | cons n l ih =>
    cases k with
    | zero =>
      obtain rfl : 0 = diff := hk
      rw [adjustNorm_unwanted hzero]
    | succ k =>
      rw [take_succ_cons, map_cons, sum_cons] at hk
      -- What is left for the other entries has the sign of the sweep.
      have hrest := sum_signed hcan (l.take k)
      have hn := hcan n
      by_cases hwd : want diff = true
      · unfold adjustNorm
        by_cases hcn : can n = true
        · have hchange : sweepChange can f n = f n - n := if_pos hcn
          rw [hwd, hcn, Bool.true_and, if_pos rfl]
          exact ih (k := k) (by omega)
        · have hchange : sweepChange can f n = 0 := if_neg hcn
          rw [hwd, Bool.true_and, if_neg hcn]
          exact ih (k := k) (by omega)
      · have hpos : ¬ 0 < s * diff := fun h => hwd ((hwant diff).mpr h)
        have hdiff : diff = 0 := by
          rcases hs with rfl | rfl <;> omega
        rw [hdiff, adjustNorm_unwanted hzero]

/-- The changes of a sweep, as multiples of numbers. -/
theorem sum_sweepChange {g : Nat → Nat} (h : ∀ n ∈ l, sweepChange can f n = s * g n) :
    (l.map (sweepChange can f)).sum = s * (l.map g).sum := by
  induction l with
  | nil => simp
  | cons n l ih =>
    rw [forall_mem_cons] at h
    rw [map_cons, sum_cons, h.1, ih h.2, map_cons, sum_cons, Nat.cast_add,
      Int.mul_add]

/-- Such a sweep over unused symbols and powers of two, that leaves them so. -/
theorem adjustNorm_shares {P : Nat → Prop} {g : Nat → Nat} {s : Int} (hs : s = 1 ∨ s = -1)
    (hwant : ∀ d, want d = true ↔ 0 < s * d) (hcan : ∀ n, 0 ≤ s * sweepChange can f n)
    (hf : ∀ n, can n = true → P n → P (f n)) {l : List Nat} (hl : ∀ n ∈ l, P n)
    (hg : ∀ n ∈ l, sweepChange can f n = s * g n) {diff : Int} {k : Nat}
    (hk : s * ((l.take k).map g).sum = diff) :
    ∃ l' c, adjustNorm want can f l diff = (l', 0, c) ∧ (l'.sum : Int) = l.sum + diff ∧
      ∀ n ∈ l', P n := by
  have hzero : (adjustNorm want can f l diff).2.1 = 0 := by
    apply adjustNorm_exact hs hwant hcan
    rw [sum_sweepChange fun n hn => hg n (mem_of_mem_take hn)]
    exact hk
  have hsum := adjustNorm_sum want can f l diff
  have hall := adjustNorm_forall want hf hl diff
  revert hzero hsum hall
  rcases adjustNorm want can f l diff with ⟨l', d, c⟩
  intro hzero hsum hall
  obtain rfl : d = 0 := hzero
  exact ⟨l', c, rfl, by dsimp only at hsum; omega, hall⟩

end sweep

/-- The rounded shares and the sum 256 that the first sweep makes of them: doubled from the first
symbol on, or halved from the last one on, some of them make up exactly what is missing or too
much. -/
def FirstSweep (shares : List Nat) : Prop :=
  (∃ k, shares.sum + (shares.take k).sum = ANS_L) ∨
    ∃ k, shares.sum = ANS_L + ((shares.drop k).map (· / 2)).sum

/-- Unused symbols and powers of two. -/
def Share (n : Nat) : Prop := n = 0 ∨ IsShare n

theorem share_double (hn : 0 < n) (hroom : n * 2 ≤ ANS_L) (h : Share n) :
    Share (n * 2) := by
  obtain rfl | ⟨k, hk, rfl⟩ := h
  · exact absurd hn (Nat.lt_irrefl 0)
  · refine Or.inr ⟨k + 1, ?_, rfl⟩
    by_contra hbig
    obtain rfl : k = 8 := by omega
    exact absurd hroom (by decide)

/-- A used share that is not 1 is even. -/
theorem share_half (h : Share n) : n ≤ 1 ∨ n % 2 = 0 ∧ Share (n / 2) := by
  obtain rfl | ⟨k, hk, rfl⟩ := h
  · exact Or.inl (Nat.zero_le 1)
  · cases k with
    | zero => exact Or.inl le_rfl
    | succ k =>
      rw [Nat.pow_succ, Nat.mul_mod_left, Nat.mul_div_cancel _ (by decide)]
      exact Or.inr ⟨rfl, Or.inr ⟨k, by omega, rfl⟩⟩

/-- A turn that doubles the first `k` entries, and no more. -/
theorem adjustTurn_up (hshare : ∀ n ∈ shares, Share n)
    (hroom : ∀ n ∈ shares, n * 2 ≤ ANS_L) (hdiff : 0 < diff)
    (hk : ((shares.take k).sum : Int) = diff) :
    ((adjustTurn shares diff).1.sum : Int) = shares.sum + diff ∧
      ∀ n ∈ (adjustTurn shares diff).1, Share n := by
  obtain ⟨norm, c, hnorm, hsum, hall⟩ := @adjustNorm_shares (· > 0)
    (fun n => n > 0 && n * 2 ≤ ANS_L) (· * 2) Share id 1 (Or.inl rfl)
    (fun d => by rw [decide_eq_true_eq, one_mul, gt_iff_lt])
    (fun n => by unfold sweepChange; dsimp only; split <;> omega)
    (fun n hcan hn => by
      simp only [and_eq_true, decide_eq_true_eq] at hcan
      exact share_double hcan.1 hcan.2 hn)
    shares hshare
    (fun n hn => by
      have hn := hroom n hn
      unfold sweepChange
      simp only [and_eq_true, decide_eq_true_eq, id]
      split <;> omega)
    diff k (by rw [map_id, one_mul]; exact hk)
  unfold adjustTurn
  rw [if_pos hdiff, hnorm]
  dsimp only
  rw [adjustNorm_unwanted (by decide)]
  exact ⟨hsum, hall⟩

/-- A turn that halves the entries from `k` on, and no more. -/
theorem adjustTurn_down (hshare : ∀ n ∈ shares, Share n)
    (hdiff : diff < 0) (hk : -((((shares.drop k).map (· / 2)).sum : Nat) : Int) = diff) :
    ((adjustTurn shares diff).1.sum : Int) = shares.sum + diff ∧
      ∀ n ∈ (adjustTurn shares diff).1, Share n := by
  have hback : (shares.reverse.take (shares.length - k)).map (· / 2)
      = ((shares.drop k).map (· / 2)).reverse := by
    rw [take_reverse, map_reverse, Nat.sub_sub_self]
    by_contra hlong
    rw [drop_eq_nil_of_le (by omega)] at hk
    exact absurd hdiff (by rw [← hk]; decide)
  obtain ⟨norm, c, hnorm, hsum, hall⟩ := @adjustNorm_shares (· < 0)
    (fun n => n > 1 && n % 2 == 0) (· / 2) Share (· / 2) (-1) (Or.inr rfl)
    (fun d => by rw [decide_eq_true_eq]; omega)
    (fun n => by unfold sweepChange; dsimp only; split <;> omega)
    (fun n hcan hn => by
      simp only [and_eq_true, decide_eq_true_eq] at hcan
      exact ((share_half hn).resolve_left (Nat.not_le.mpr hcan.1)).2)
    shares.reverse (fun n hn => hshare n (mem_reverse.mp hn))
    (fun n hn => by
      have hn := share_half (hshare n (mem_reverse.mp hn))
      unfold sweepChange
      simp only [and_eq_true, decide_eq_true_eq, beq_iff_eq]
      split <;> omega)
    diff (shares.length - k) (by rw [hback, sum_reverse]; omega)
  unfold adjustTurn
  rw [if_neg (by omega), hnorm]
  dsimp only
  rw [adjustNorm_unwanted (by decide)]
  rw [sum_reverse]
  rw [sum_reverse] at hsum
  exact ⟨hsum, fun n hn => hall n (mem_reverse.mp hn)⟩

/-- A table with the sum 256 is left as it is. -/
theorem adjustLoop_done (h : norm.sum = ANS_L) (safety : Nat) :
    adjustLoop safety norm = norm := by
  cases safety with
  | zero => rfl
  | succ safety =>
    unfold adjustLoop
    rw [if_pos (by rw [h]; decide)]

/-- Where the first sweep makes the sum 256, the second pass ends with powers of two. -/
theorem adjustLoop_exact (hshare : ∀ n ∈ shares, Share n)
    (hroom : ∀ n ∈ shares, n * 2 ≤ ANS_L) (h : FirstSweep shares) (safety : Nat) :
    (adjustLoop (safety + 1) shares).sum = ANS_L ∧
      ∀ n ∈ adjustLoop (safety + 1) shares, Share n := by
  have hturn : shares.sum ≠ ANS_L → (adjustTurn shares ((ANS_L : Int) - shares.sum)).1.sum = ANS_L ∧
      ∀ n ∈ (adjustTurn shares ((ANS_L : Int) - shares.sum)).1, Share n := by
    intro hne
    rcases h with ⟨k, hk⟩ | ⟨k, hk⟩
    · obtain ⟨hsum, hall⟩ := adjustTurn_up hshare hroom
        (show (0 : Int) < ANS_L - shares.sum by omega) (k := k) (by omega)
      exact ⟨by omega, hall⟩
    · obtain ⟨hsum, hall⟩ := adjustTurn_down hshare
        (show (ANS_L : Int) - shares.sum < 0 by omega) (k := k) (by omega)
      exact ⟨by omega, hall⟩
  by_cases hsum : shares.sum = ANS_L
  · rw [adjustLoop_done hsum]
    exact ⟨hsum, hshare⟩
  · unfold adjustLoop
    dsimp only
    rw [if_neg (by omega)]
    split
    · rw [adjustLoop_done (hturn hsum).1]
      exact hturn hsum
    · exact hturn hsum

/-! ### The table -/

/-- The inputs for which the table has the sum 256: there is one symbol, or the first sweep over
the rounded shares makes up exactly what is missing or too much. -/
def SumReached (raw : List Nat) : Prop :=
  raw.countP (· > 0) = 1 ∨ FirstSweep (raw.map (roundFreq raw.sum))

theorem le_sum_of_mem (h : n ∈ l) : n ≤ l.sum := by
  induction l with
  | nil => exact absurd h not_mem_nil
  | cons m l ih =>
    rw [sum_cons]
    rcases mem_cons.mp h with rfl | h
    · exact Nat.le_add_right _ _
    · exact (ih h).trans (Nat.le_add_left _ _)

/-- A used symbol among several has less than all of the input. -/
theorem lt_sum_of_countP (h : raw.countP (· > 0) ≠ 1) {r : Nat} (hr : r ∈ raw)
    (hpos : 0 < r) : r < raw.sum := by
  obtain ⟨before, rest, rfl⟩ := append_of_mem hr
  rw [countP_append, countP_cons, if_pos (by simpa using hpos)] at h
  rw [sum_append, sum_cons]
  have hother : 0 < before.countP (· > 0) ∨ 0 < rest.countP (· > 0) := by omega
  rcases hother with hsome | hsome
  · obtain ⟨n, hn, hn0⟩ := countP_pos_iff.mp hsome
    have hle := le_sum_of_mem hn
    rw [decide_eq_true_eq] at hn0
    omega
  · obtain ⟨n, hn, hn0⟩ := countP_pos_iff.mp hsome
    have hle := le_sum_of_mem hn
    rw [decide_eq_true_eq] at hn0
    omega

theorem sum_map_used (raw : List Nat) :
    (raw.map fun r => if r > 0 then ANS_L else 0).sum = ANS_L * raw.countP (· > 0) := by
  induction raw with
  | nil => rfl
  | cons r raw ih =>
    rw [map_cons, sum_cons, ih, countP_cons, Nat.mul_add]
    by_cases hr : r > 0
    · simp [hr, Nat.add_comm]
    · simp [hr]

/-- An unused symbol has no states, a used one a power of two of them. -/
def Shares (raw norm : List Nat) : Prop :=
  List.Forall₂ (fun r n => if r = 0 then n = 0 else IsShare n) raw norm

/-- The third pass leaves powers of two, and no other used entries. -/
theorem forcePow2_share (hn : n ≤ ANS_L) :
    (Share n → (if n > 0 && !isPow2 n then doubleUntil (fun p => !(p < n && p < ANS_L)) 9 1 else n)
      = n) ∧
    (0 < n → IsShare
      (if n > 0 && !isPow2 n then doubleUntil (fun p => !(p < n && p < ANS_L)) 9 1 else n)) := by
  constructor
  · intro h
    rw [(isPow2_iff hn).mpr h]
    simp
  · intro hpos
    split
    · exact doubleUntil_up hn
    · rename_i h
      have hpow : isPow2 n = true := by simpa [hpos] using h
      exact ((isPow2_iff hn).mp hpow).resolve_left (by omega)

/-- What `build_tables` makes of powers of two. -/
theorem buildTables_shares (h : Shares raw norm) :
    (norm.sum = ANS_L → ∃ t, buildTables norm = .ok t) ∧
      (norm.sum ≠ ANS_L → buildTables norm = .error .data) := by
  have hany : norm.any (fun f => f > ANS_L || !isPow2 f) = false := by
    rw [any_eq_false]
    unfold Shares at h
    induction h with
    | nil => exact fun n hn => absurd hn not_mem_nil
    | @cons r n raw norm hrn _ ih =>
      refine forall_mem_cons.mpr ⟨?_, ih⟩
      have hshare : n = 0 ∨ IsShare n := by
        split at hrn
        · exact Or.inl hrn
        · exact Or.inr hrn
      have hle : n ≤ ANS_L := hshare.elim (fun h => h ▸ Nat.zero_le _) IsShare.le
      rw [(isPow2_iff hle).mpr hshare]
      simpa using hle
  unfold buildTables
  rw [hany, if_neg (by decide)]
  constructor
  · intro hsum
    rw [if_neg (not_not.mpr hsum)]
    exact ⟨_, rfl⟩
  · intro hsum
    rw [if_pos hsum]

/-- The shares of several symbols. -/
theorem roundFreq_shares (h : raw.countP (· > 0) ≠ 1) {r : Nat} (hr : r ∈ raw) :
    (r = 0 ↔ roundFreq raw.sum r = 0) ∧ Share (roundFreq raw.sum r) ∧
      roundFreq raw.sum r * 2 ≤ ANS_L := by
  by_cases hpos : 0 < r
  · obtain ⟨hshare, hle⟩ := roundFreq_share hpos (lt_sum_of_countP h hr hpos)
    have hn := hshare.pos
    have hL : ANS_L = 256 := rfl
    exact ⟨by omega, Or.inr hshare, by omega⟩
  · obtain rfl : r = 0 := by omega
    exact ⟨Iff.rfl, Or.inl rfl, Nat.zero_le _⟩

/-- The third pass on a table of the second one. -/
theorem forcePow2_shares (h : raw.countP (· > 0) ≠ 1)
    (hshaped : Shaped (raw.map (roundFreq raw.sum)) norm) :
    Shares raw (norm.map fun n =>
      if n > 0 && !isPow2 n then doubleUntil (fun p => !(p < n && p < ANS_L)) 9 1 else n) := by
  unfold Shaped at hshaped
  rw [forall₂_map_left_iff] at hshaped
  unfold Shares
  rw [forall₂_map_right_iff]
  refine (forall₂_and_left _ _ |>.mpr ⟨fun r hr => roundFreq_shares h hr, hshaped⟩).imp ?_
  rintro r n ⟨⟨hzero, -, hroom⟩, hkeep, hle⟩
  by_cases hr : r = 0
  · obtain rfl : n = 0 := hkeep.mp (hzero.mp hr)
    rw [if_pos hr]
    rfl
  · rw [if_neg hr]
    have hn : n ≠ 0 := fun hn => hr (hzero.mpr (hkeep.mpr hn))
    exact (forcePow2_share (hle (by omega))).2 (Nat.pos_of_ne_zero hn)

/-- A table of two symbols. -/
def twoShares (a b : Nat) : List Nat := (replicate 256 0).set 97 a |>.set 98 b

theorem adjustLoop_turn {norm' : List Nat} (hsum : (ANS_L : Int) - norm.sum ≠ 0)
    (hturn : adjustTurn norm ((ANS_L : Int) - norm.sum) = (norm', true)) (safety : Nat) :
    adjustLoop (safety + 1) norm = adjustLoop safety norm' := by
  rw [adjustLoop]
  rw [if_neg hsum, hturn]
  rfl

set_option maxRecDepth 20000 in
/-- Doubling takes the first of two shares past 256; halving takes both back, or the first one
alone if the second is 1. -/
theorem adjustLoop_two {b : Nat} (hb : b ∈ [1, 2, 4, 8, 16, 32, 64]) (n : Nat) :
    adjustLoop (n + 2) (twoShares 128 b)
      = adjustLoop n (twoShares 128 (if b = 1 then 1 else b / 2)) := by
  have hup : ∀ b ∈ [1, 2, 4, 8, 16, 32, 64], (ANS_L : Int) - (twoShares 128 b).sum ≠ 0 ∧
      adjustTurn (twoShares 128 b) ((ANS_L : Int) - (twoShares 128 b).sum)
        = (twoShares 256 b, true) := by
    decide
  have hdown : ∀ b ∈ [1, 2, 4, 8, 16, 32, 64], (ANS_L : Int) - (twoShares 256 b).sum ≠ 0 ∧
      adjustTurn (twoShares 256 b) ((ANS_L : Int) - (twoShares 256 b).sum)
        = (twoShares 128 (if b = 1 then 1 else b / 2), true) := by
    decide
  rw [adjustLoop_turn (hup b hb).1 (hup b hb).2, adjustLoop_turn (hdown b hb).1 (hdown b hb).2]

theorem adjustLoop_cycle (n : Nat) : adjustLoop (n * 2) (twoShares 128 1) = twoShares 128 1 := by
  induction n with
  | zero => rfl
  | succ n ih =>
    rw [Nat.succ_mul, adjustLoop_two (by decide)]
    exact ih

end MeuOS.Compress
