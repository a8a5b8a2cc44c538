import MeuOS.Mir.Agree

namespace MeuOS.Mir

open MeuOS.Lib

/-!
# Memory only the slot's own temp reaches

A slot whose address never leaves the address position of loads and stores is private: in a
guarded run no other access and no opaque op touches its bytes.  So two runs may
disagree about the bytes of private slots (`WorldOff S`) as long as neither reads them:
every instruction that does not load through a slot of `S` does the same in both
(`effect_off`), and a store through a slot of `S` is seen by nobody (`effect_store_private`).
-/

/-- The byte `x` lies in no slot of `S`. -/
def Outside (S : ValId → Bool) (w : World) (x : BitVec 64) : Prop :=
  ∀ v, S v = true → ∀ r ∈ w.slot v, ¬ InWin r.1 r.2 x

/-- Two worlds that agree but for the bytes of the slots in `S`. -/
structure WorldOff (S : ValId → Bool) (w w' : World) : Prop where
  args : w'.args = w.args
  trace : w'.trace = w.trace
  slot : w'.slot = w.slot
  mem : ∀ x, Outside S w x → w'.mem x = w.mem x

theorem WorldOff.refl (S : ValId → Bool) (w : World) : WorldOff S w w :=
  ⟨rfl, rfl, rfl, fun _ _ => rfl⟩

variable {fn : MFn} {S priv : ValId → Bool}

/-! ### What a guarded access reaches -/

variable {w w' w1 : World} {a : BitVec 64} {n : Nat} {v : Option (BitVec 64)} {H : Host}
  {quiet : ValId → Bool} {i : MIns} {x y : Opnd}

/-- A guarded access that does not go through a slot of `S` stays outside `S`. -/
theorem outside_of_accessOk {via : Option ValId}
    (hS : ∀ v, S v = true → priv v = true ∧ v < fn.val.length)
    (hvia : ∀ v, via = some v → S v = false) (h : accessOk fn (some priv) w via a n = true)
    {i : Nat} (hi : i < n) : Outside S w (a + BitVec.ofNat 64 i) := by
  intro v hv r hr
  obtain ⟨hp, hlt⟩ := hS v hv
  simp only [accessOk, Bool.and_eq_true, List.all_eq_true] at h
  have hs := h.2 v (List.mem_range.mpr hlt)
  have hne : via ≠ some v := fun he => by simp [hvia v he] at hv
  simp only [hne, decide_false, hp, Bool.true_or, Bool.not_true, Bool.or_self, Bool.false_or,
    List.all_eq_true, decide_eq_true_eq] at hs
  exact hs r hr i hi

theorem inside_of_accessOk {v : ValId} {r : BitVec 64 × Nat}
    (hr : (w.slot v).head? = some r) (h : accessOk fn (some priv) w (some v) a n = true) {i : Nat}
    (hi : i < n) : InWin r.1 r.2 (a + BitVec.ofNat 64 i) := by
  simp only [accessOk, viaSlot, Option.bind_some, hr, Bool.and_eq_true, decide_eq_true_eq] at h
  exact h.1 i hi

theorem slot_of_accessOk {v : ValId} (hp : priv v = true)
    (h : accessOk fn (some priv) w (some v) a n = true) : ∃ r, (w.slot v).head? = some r := by
  cases hr : (w.slot v).head? with
  | some r => exact ⟨r, rfl⟩
  | none => simp [accessOk, viaSlot, hr, hp] at h

/-- A guarded opaque op touches no byte of a private slot. -/
theorem outside_of_extOk {e : Ext} {xs : List (BitVec 64)}
    (hS : ∀ v, S v = true → priv v = true ∧ v < fn.val.length)
    (h : extOk fn (some priv) w e xs = true) {x : BitVec 64} (hx : e.touch xs w.mem x = true) :
    Outside S w x := by
  intro v hv r hr hin
  obtain ⟨hp, hlt⟩ := hS v hv
  simp only [extOk, List.all_eq_true] at h
  have hs := h v (List.mem_range.mpr hlt)
  simp only [hp, Bool.not_true, Bool.false_or, List.all_eq_true, decide_eq_true_eq] at hs
  obtain ⟨i, hi, _, rfl⟩ := hin.eq_add
  rw [hs r hr i hi] at hx
  cases hx

/-! ### The same instruction in both worlds -/

theorem WorldOff.read (h : WorldOff S w w')
    (ho : ∀ i < n, Outside S w (a + BitVec.ofNat 64 i)) : w'.mem.read a n = w.mem.read a n :=
  Mem.read_congr _ _ n a fun i hi => h.mem _ (ho i hi)

/-- The same bytes written on both sides. -/
theorem WorldOff.write (h : WorldOff S w w') (a : BitVec 64) (n : Nat)
    (v : BitVec 64) : ∀ x, Outside S w x → w'.mem.write a n v x = w.mem.write a n v x := by
  intro x hx
  by_cases hin : InWin a n x
  · rw [Mem.write_inside _ _ _ _ _ hin, Mem.write_inside _ _ _ _ _ hin]
  · rw [Mem.write_outside _ _ _ _ _ hin, Mem.write_outside _ _ _ _ _ hin]
    exact h.mem x hx

/-- An instruction loads through none of the slots in `S`. -/
def MIns.OffSlots (S : ValId → Bool) (i : MIns) : Prop :=
  i.op = .load → ∀ v, i.src0 = .val v → S v = false

theorem cls_load {op : MOP} (h : op.cls = .load) : op = .load := by
  cases op <;> first | rfl | cases h

theorem cls_store {op : MOP} (h : op.cls = .store) : op = .store := by
  cases op <;> first | rfl | cases h

theorem opnd_via {regs : ValId → BitVec 64} {r : MRef} {v : ValId}
    (h : (opnd H fn regs r).via = some v) : r = .val v := by
  cases r with
  | none => cases h
  | con c => cases h
  | val u => exact congrArg MRef.val (Option.some.inj h)

/-- **Frame lemma.** An instruction that loads through no slot of `S` defines the same value in
    both worlds and leaves them equal outside `S`. -/
theorem effect_off {regs : ValId → BitVec 64}
    (hS : ∀ v, S v = true → priv v = true ∧ v < fn.val.length) (hi : i.OffSlots S)
    (h : WorldOff S w w')
    (he : effect H ⟨some priv, quiet⟩ fn i (opnd H fn regs i.src0) (opnd H fn regs i.src1) w =
      some (v, w1)) :
    ∃ w1', effect H ⟨Option.none, quiet⟩ fn i (opnd H fn regs i.src0) (opnd H fn regs i.src1) w' =
      some (v, w1') ∧ WorldOff S w1 w1' := by
  unfold effect at he ⊢
  cases hc : i.op.cls <;> simp only [hc] at he ⊢
  case pure =>
    obtain ⟨x, hx, hr⟩ := Option.map_eq_some_iff.mp he
    cases hr
    exact ⟨w', by rw [hx]; rfl, h⟩
  case ext =>
    split at he
    · rename_i hok
      have hin : extInputs i.op w' (opnd H fn regs i.src0) (opnd H fn regs i.src1) =
          extInputs i.op w (opnd H fn regs i.src0) (opnd H fn regs i.src1) := by
        simp only [extInputs, h.args]
      cases he
      have htouch : ∀ x, (H.ext i.op i.dtype i.extra).touch
          (extInputs i.op w (opnd H fn regs i.src0) (opnd H fn regs i.src1)) w.mem x = true →
          w.mem x = w'.mem x := fun x hx => (h.mem x (outside_of_extOk hS hok hx)).symm
      obtain ⟨hval, htch, hmem⟩ := (H.ext i.op i.dtype i.extra).locality _ _ _ htouch
      refine ⟨_, by simp only [extOk, if_true, hin, hval]; rfl, ?_⟩
      refine ⟨by simp only [h.args], by simp only [h.trace], h.slot, fun x hx => ?_⟩
      dsimp only
      cases ht : (H.ext i.op i.dtype i.extra).touch
          (extInputs i.op w (opnd H fn regs i.src0) (opnd H fn regs i.src1)) w.mem x with
      | true => exact hmem x ht
      | false =>
        rw [(H.ext i.op i.dtype i.extra).frame _ _ _ ht,
          (H.ext i.op i.dtype i.extra).frame _ _ _ (by rw [htch]; exact ht)]
        exact h.mem x hx
    · cases he
  case load =>
    split at he
    · rename_i hok
      cases he
      have ho := fun k (hk : k < i.dtype.bits / 8) => outside_of_accessOk hS
        (fun u hu => hi (cls_load hc) u (opnd_via hu)) hok hk
      exact ⟨w', by simp only [accessOk, if_true, h.read ho], h⟩
    · cases he
  case store =>
    split at he
    · cases he
      exact ⟨_, if_pos rfl, h.args, by simp only [h.trace], h.slot, h.write _ _ _⟩
    · cases he
  case alloca =>
    cases hd : i.dst with
    | none =>
      simp only [hd] at he ⊢
      cases he
      exact ⟨w', rfl, h⟩
    | some d =>
      simp only [hd] at he ⊢
      cases he
      rw [h.slot]
      refine ⟨_, rfl, h.args, h.trace, rfl, ?_⟩
      -- a further window only narrows what is outside
      intro x hx
      refine h.mem x fun u hu r hr => hx u hu r ?_
      by_cases hud : u = d
      · subst hud
        simp only [Function.update_self]
        exact List.mem_cons_of_mem _ hr
      · simpa only [Function.update_of_ne hud] using hr
  case arg =>
    cases he
    exact ⟨_, rfl, by simp only [h.args], h.trace, h.slot, h.mem⟩
  all_goals
    cases he
    exact ⟨w', rfl, h⟩

/-- Slots are only ever added. -/
theorem effect_slot_mono {M : Mode} (he : effect H M fn i x y w = some (v, w1)) (p : ValId) :
    ∀ r ∈ w.slot p, r ∈ w1.slot p := by
  intro r hr
  unfold effect at he
  cases hc : i.op.cls <;> simp only [hc] at he
  case pure =>
    obtain ⟨_, _, he⟩ := Option.map_eq_some_iff.mp he
    rw [← (Prod.mk.inj he).2]
    exact hr
  case ext | load | store =>
    split at he
    · rw [← (Prod.mk.inj (Option.some.inj he)).2]
      exact hr
    · cases he
  case alloca =>
    cases hd : i.dst with
    | none =>
      simp only [hd] at he
      rw [← (Prod.mk.inj (Option.some.inj he)).2]
      exact hr
    | some d =>
      simp only [hd] at he
      rw [← (Prod.mk.inj (Option.some.inj he)).2]
      by_cases hpd : p = d
      · subst hpd
        simpa only [Function.update_self] using List.mem_cons_of_mem _ hr
      · simpa only [Function.update_of_ne hpd] using hr
  all_goals
    rw [← (Prod.mk.inj (Option.some.inj he)).2]
    exact hr

/-- A guarded instruction leaves the bytes of a private slot alone unless it stores through the
    slot. -/
theorem effect_private_frame {p : ValId} (hp : priv p = true)
    (hlt : p < fn.val.length) (hi : i.op = .store → y.via ≠ some p)
    (he : effect H ⟨some priv, quiet⟩ fn i x y w = some (v, w1)) {r : BitVec 64 × Nat}
    (hr : r ∈ w.slot p) (ha : InWin r.1 r.2 a) : w1.mem a = w.mem a := by
  have hS : ∀ u, decide (u = p) = true → priv u = true ∧ u < fn.val.length := by
    intro u hu
    obtain rfl := of_decide_eq_true hu
    exact ⟨hp, hlt⟩
  have hin : ¬ Outside (fun u => decide (u = p)) w a := fun ho => ho p (decide_eq_true rfl) r hr ha
  unfold effect at he
  cases hc : i.op.cls <;> simp only [hc] at he
  case pure =>
    obtain ⟨_, _, he⟩ := Option.map_eq_some_iff.mp he
    rw [← (Prod.mk.inj he).2]
  case ext =>
    split at he
    · rename_i hok
      rw [← (Prod.mk.inj (Option.some.inj he)).2]
      refine (H.ext i.op i.dtype i.extra).frame _ _ _ ?_
      cases ht : (H.ext i.op i.dtype i.extra).touch (extInputs i.op w x y) w.mem a with
      | false => rfl
      | true => exact (hin (outside_of_extOk hS hok ht)).elim
    · cases he
  case load =>
    split at he
    · rw [← (Prod.mk.inj (Option.some.inj he)).2]
    · cases he
  case store =>
    split at he
    · rename_i hok
      rw [← (Prod.mk.inj (Option.some.inj he)).2]
      refine Mem.write_outside _ _ _ _ _ fun hw => ?_
      obtain ⟨k, hk, _, rfl⟩ := hw.eq_add
      refine hin (outside_of_accessOk hS (fun u hu => ?_) hok hk)
      exact decide_eq_false fun hup => hi (cls_store hc) (hu.trans (congrArg some hup))
    · cases he
  case alloca =>
    split at he <;> rw [← (Prod.mk.inj (Option.some.inj he)).2]
  all_goals
    rw [← (Prod.mk.inj (Option.some.inj he)).2]

/-- A guarded store through a quiet slot of `S` changes nothing outside `S`. -/
theorem effect_store_private {s : ValId} (hop : i.op = .store) (hvia : y.via = some s)
    (hs : S s = true) (hq : quiet s = true) (hp : priv s = true) (h : WorldOff S w w')
    (he : effect H ⟨some priv, quiet⟩ fn i x y w = some (v, w1)) :
    v = Option.none ∧ WorldOff S w1 w' := by
  have hc : i.op.cls = .store := by rw [hop]; rfl
  unfold effect at he
  simp only [hc, hvia, Option.any_some, hq, if_true] at he
  split at he
  · rename_i hok
    obtain ⟨r, hr⟩ := slot_of_accessOk hp hok
    cases he
    refine ⟨rfl, h.args, h.trace, h.slot, fun a ha => ?_⟩
    have hout : ¬ InWin y.bits (i.dtype.bits / 8) a := by
      intro hin
      obtain ⟨k, hk, _, rfl⟩ := hin.eq_add
      exact ha s hs r (List.mem_of_mem_head? hr) (inside_of_accessOk hr hok hk)
    exact (h.mem a ha).trans (Mem.write_outside _ _ _ _ _ hout).symm
  · cases he

end MeuOS.Mir
