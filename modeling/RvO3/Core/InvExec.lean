import RvO3.Core.InvSquash

/-!
# The back-end invariant under execution

Writeback, address-generation completions, issue and the clock edge of the units. Each
moves one sequence number between containers, or finishes it.
-/

set_option autoImplicit false

namespace RvO3

open OoOCore

/-! ## Lists of units -/

section Units

variable {r : Ring RobEntry} {us : List FuUnit} {i : Nat} {u : FuUnit} {f : FuUnit → FuUnit}

theorem mem_modify {v : FuUnit} (h : v ∈ us.modify i f) (hu : us[i]? = some u) :
    v = f u ∨ v ∈ us := by
  obtain ⟨k, hk, rfl⟩ := List.mem_iff_getElem.mp h
  rw [List.getElem_modify]
  split
  · rename_i hik
    subst hik
    left
    obtain ⟨_, hu'⟩ := List.getElem?_eq_some_iff.mp hu
    rw [hu']
  · exact Or.inr (List.getElem_mem _)

/-- A unit may be replaced by one that is well formed and whose operations name live entries with
matching destinations. -/
theorem UnitsOk.modify (h : UnitsOk r us) (hu : us[i]? = some u) (hwf : (f u).Wf)
    (hn : ∀ op ∈ (f u).ops, OpNames r op ∧ (r.e op.robIdx).isMem = false) :
    UnitsOk r (us.modify i f) := by
  refine ⟨?_, ?_⟩
  · intro v hv
    rcases mem_modify hv hu with rfl | hv
    · exact hwf
    · exact h.wf v hv
  · intro v hv
    rcases mem_modify hv hu with rfl | hv
    · exact hn
    · exact h.names v hv

theorem AgusOk.modify {q : LSQ} (h : AgusOk r q us) (hu : us[i]? = some u) (hwf : (f u).Wf)
    (hn : ∀ op ∈ (f u).ops, OpNames r op ∧ LsqNames q op.robIdx op.lsqIdx) :
    AgusOk r q (us.modify i f) := by
  refine ⟨?_, ?_⟩
  · intro v hv
    rcases mem_modify hv hu with rfl | hv
    · exact hwf
    · exact h.wf v hv
  · intro v hv
    rcases mem_modify hv hu with rfl | hv
    · exact hn
    · exact h.names v hv

/-- Dropping the output of a unit takes its label out. -/
theorem unitsHeld_dropOut (hu : us[i]? = some u) (hv : u.out.valid = true) :
    unitsHeld (us.modify i FuUnit.dropOut) + {u.out.seq} = unitsHeld us := by
  have hm : unitsHeld (us.modify i FuUnit.dropOut) + opSeqs u.ops =
      unitsHeld us + opSeqs u.dropOut.ops :=
    bag_modify FuUnit.dropOut (fun u => opSeqs u.ops) hu
  have hops : opSeqs u.ops = {u.out.seq} + opSeqs u.dropOut.ops := by
    unfold opSeqs
    rw [Multiset.coe_eq_coe.mpr ((FuUnit.ops_dropOut hv).map FuOp.seq)]
    rfl
  rw [hops, ← add_assoc] at hm
  exact add_right_cancel hm

/-- Accepting an op puts its label in. -/
theorem unitsHeld_accept {op : FuOp} (hu : us[i]? = some u) (hwf : u.Wf)
    (hc : u.canAccept = true) (hv : op.valid = true) :
    unitsHeld (us.modify i fun u => u.accept op) = unitsHeld us + {op.seq} := by
  have hm : unitsHeld (us.modify i fun u => u.accept op) + opSeqs u.ops =
      unitsHeld us + opSeqs (u.accept op).ops :=
    bag_modify (fun u : FuUnit => u.accept op) (fun u => opSeqs u.ops) hu
  have hops : opSeqs (u.accept op).ops = {op.seq} + opSeqs u.ops := by
    unfold opSeqs
    rw [Multiset.coe_eq_coe.mpr ((FuUnit.ops_accept hwf hc hv).map FuOp.seq)]
    rfl
  rw [hops, ← add_assoc] at hm
  exact add_right_cancel hm

theorem out_mem_ops (hv : u.out.valid = true) : u.out ∈ u.ops :=
  (FuUnit.ops_dropOut hv).mem_iff.mpr List.mem_cons_self

theorem mem_ops_of_dropOut (hv : u.out.valid = true) {op : FuOp} (h : op ∈ u.dropOut.ops) :
    op ∈ u.ops := (FuUnit.ops_dropOut hv).mem_iff.mpr (List.mem_cons_of_mem _ h)

end Units

/-! ## Writeback -/

section Writeback

variable {M : Type} {c : OoOCore M}

/-- A nonempty list has a smallest element. -/
theorem exists_least {α : Type} (f : α → Nat) {l : List α} (h : l ≠ []) :
    ∃ x ∈ l, ∀ y ∈ l, f x ≤ f y := by
  induction l with
  | nil => exact absurd rfl h
  | cons a l ih =>
      cases l with
      | nil => exact ⟨a, List.mem_cons_self, by simp⟩
      | cons b l =>
          obtain ⟨x, hx, hmin⟩ := ih (by simp)
          by_cases hax : f a ≤ f x
          · refine ⟨a, List.mem_cons_self, ?_⟩
            intro y hy
            rcases List.mem_cons.mp hy with rfl | hy
            · exact Nat.le_refl _
            · exact Nat.le_trans hax (hmin y hy)
          · refine ⟨x, List.mem_cons_of_mem _ hx, ?_⟩
            intro y hy
            rcases List.mem_cons.mp hy with rfl | hy
            · omega
            · exact hmin y hy

/-- The winner exists and is the oldest. -/
theorem oldestReady_spec (h : c.wbReady ≠ []) :
    ∃ slot, c.wbReady[c.oldestReady]? = some slot ∧
      ∀ t ∈ c.wbReady, (c.outAt slot).seq ≤ (c.outAt t).seq := by
  obtain ⟨s, hs, hmin⟩ := exists_least (fun s => (c.outAt s).seq) h
  have hlt : c.oldestReady < c.wbReady.length := by
    apply List.findIdx_lt_length_of_exists
    refine ⟨s, hs, ?_⟩
    rw [List.all_eq_true]
    intro t ht
    exact decide_eq_true (hmin t ht)
  refine ⟨c.wbReady[c.oldestReady], List.getElem?_eq_getElem hlt, ?_⟩
  have hp := @List.findIdx_getElem _ _ c.wbReady hlt
  rw [List.all_eq_true] at hp
  intro t ht
  exact of_decide_eq_true (hp t ht)

/-- A waiting result: the op in a filled output slot, for a live entry. -/
structure ResultOk (c : OoOCore M) (slot : OutSlot) : Prop where
  valid : (c.outAt slot).valid = true
  names : OpNames c.rob (c.outAt slot)
  notDone : (c.rob.e (c.outAt slot).robIdx).done = false
  /-- A load's LSQ entry has been reported. -/
  lsq : ∀ j ∈ c.lsq.ring.slots, lsqRob c.lsq j = (c.outAt slot).robIdx →
    (c.lsq.at' j).isStore = false ∧ (c.lsq.at' j).reported = true

/-- The unit behind a filled output slot. -/
theorem getElem?_of_out_valid {us : List FuUnit} {i : Nat}
    (h : (us[i]?.getD default).out.valid = true) : ∃ u, us[i]? = some u ∧ u.out.valid = true := by
  cases hu : us[i]? with
  | none =>
      rw [hu] at h
      cases h
  | some u =>
      rw [hu] at h
      exact ⟨u, rfl, h⟩

theorem getElem?_of_valid {outs : List FuOp} {j : Nat} (h : (outs[j]?.getD {}).valid = true) :
    ∃ op, outs[j]? = some op ∧ op.valid = true := by
  cases hu : outs[j]? with
  | none =>
      rw [hu] at h
      cases h
  | some u =>
      rw [hu] at h
      exact ⟨u, rfl, h⟩

/-- What one container holds is unfinished. -/
theorem BackOk.unfinished_of_mem (h : BackOk c) {op : FuOp} (hn : OpNames c.rob op)
    (hm : op.seq ∈ heldBy c.lsq c.iq c.units c.agus c.loadOuts) :
    (c.rob.e op.robIdx).done = false := by
  rw [show heldBy c.lsq c.iq c.units c.agus c.loadOuts = unfinished c.rob from h.held,
    ← hn.seq] at hm
  exact (h.rob.mem_unfinished_iff hn.live).mp hm

theorem mem_unitsHeld {us : List FuUnit} {u : FuUnit} {op : FuOp} (hu : u ∈ us)
    (hop : op ∈ u.ops) : op.seq ∈ unitsHeld us :=
  mem_bag.mpr ⟨u, hu, Multiset.mem_coe.mpr (List.mem_map_of_mem hop)⟩

theorem mem_outsHeld {outs : List FuOp} {op : FuOp} (h : op ∈ outs) (hv : op.valid = true) :
    op.seq ∈ outsHeld outs :=
  mem_bag.mpr ⟨op, h, by rw [hv]; exact Multiset.mem_singleton_self _⟩

/-- A slot that waits for writeback holds a valid result of a live entry that is not done; a load's
has been reported. -/
theorem BackOk.waiting (h : BackOk c) {slot : OutSlot} (hs : slot ∈ c.wbReady) :
    ResultOk c slot := by
  cases slot with
  -- a result in a unit's output: its operation is no memory operation, so the LSQ has no entry
  | unit i =>
      obtain ⟨u, hu, hv⟩ := getElem?_of_out_valid ((h.ready.mem_unit i).mp hs)
      have hout : c.outAt (.unit i) = u.out := by
        show (c.units[i]?.getD default).out = _
        rw [hu]
        rfl
      have hmem := List.mem_of_getElem? hu
      obtain ⟨h1, h2⟩ := h.units.names u hmem u.out (out_mem_ops hv)
      refine ⟨?_, ?_, ?_, ?_⟩
      · rw [hout]
        exact hv
      · rw [hout]
        exact h1
      · rw [hout]
        apply h.unfinished_of_mem h1
        have := mem_unitsHeld hmem (out_mem_ops hv)
        simp only [heldBy, Multiset.mem_add]
        tauto
      · intro j hj hrob
        rw [hout] at hrob
        have := (h.lsq.rob_mem hj).2
        rw [hrob, h2] at this
        cases this
  -- a load's result was reported by the one entry that names it
  | load n =>
      obtain ⟨op, hop, hv⟩ := getElem?_of_valid ((h.ready.mem_load n).mp hs)
      have hout : c.outAt (.load n) = op := by
        show c.loadOuts[n]?.getD {} = _
        rw [hop]
        rfl
      have hmem := List.mem_of_getElem? hop
      have hn := h.loads op hmem hv
      refine ⟨?_, ?_, ?_, ?_⟩
      · rw [hout]
        exact hv
      · rw [hout]
        exact hn.names
      · rw [hout]
        apply h.unfinished_of_mem hn.names
        have := mem_outsHeld hmem hv
        simp only [heldBy, Multiset.mem_add]
        tauto
      · intro j hj hrob
        rw [hout] at hrob
        obtain ⟨i, hi, hri, hrep, -⟩ := hn.lsq
        have hij : j = i := h.lsq.rob_inj h.rob.wf hj hi (hrob.trans hri.symm)
        subst hij
        refine ⟨?_, hrep⟩
        have hag := h.lsq.agrees j hj
        rw [hag.isStore, hrob]
        exact isStore_of_isLoad hn.load

/-- Removing the winner from the waiting list. -/
theorem swapRemove_perm {l : List OutSlot} {i : Nat} {s : OutSlot} (h : l[i]? = some s) :
    l.Perm (s :: swapRemove l i) := by
  unfold swapRemove
  cases hl : l.getLast? with
  | none =>
      rw [List.getLast?_eq_none_iff] at hl
      subst hl
      simp at h
  | some x => exact perm_overwrite h hl

/-- The waiting list after the winner left it. -/
structure Removed (slot : OutSlot) (l l' : List OutSlot) : Prop where
  nodup : l'.Nodup
  mem : ∀ s, s ∈ l' ↔ s ≠ slot ∧ s ∈ l

/-- `swapRemove` takes exactly one slot out of a list without repetition; the order of the others
may change. -/
theorem removed_swapRemove {l : List OutSlot} {i : Nat} {s : OutSlot} (hl : l.Nodup)
    (h : l[i]? = some s) : Removed s l (swapRemove l i) := by
  have hp := swapRemove_perm h
  obtain ⟨h1, h2⟩ := List.nodup_cons.mp (hp.nodup hl)
  refine ⟨h2, fun t => ?_⟩
  rw [hp.mem_iff, List.mem_cons]
  constructor
  · intro ht
    exact ⟨fun he => h1 (he ▸ ht), Or.inr ht⟩
  · rintro ⟨hne, ht⟩
    exact ht.resolve_left hne

/-- Emptying a unit's output and taking its slot out of `wbReady` keeps the two in step. -/
theorem ReadyOk.drop_unit {us : List FuUnit} {outs : List FuOp} {l l' : List OutSlot} {i : Nat}
    (h : ReadyOk us outs l) (hr : Removed (.unit i) l l') :
    ReadyOk (us.modify i FuUnit.dropOut) outs l' := by
  refine ⟨hr.nodup, ?_, ?_⟩
  · intro k
    rw [hr.mem, h.mem_unit, List.getElem?_modify]
    by_cases hik : i = k
    · subst hik
      cases hu : us[i]? with
      | none => simp [show (default : FuUnit).out.valid = false from rfl]
      | some u => simp [FuOp.invalidate]
    · cases hu : us[k]? with
      | none => simp [hik, Ne.symm hik]
      | some u => simp [hik, Ne.symm hik]
  · intro j
    rw [hr.mem, h.mem_load]
    simp

/-- Emptying a load output and taking its slot out of `wbReady` keeps the two in step. -/
theorem ReadyOk.drop_load {us : List FuUnit} {outs : List FuOp} {l l' : List OutSlot} {i : Nat}
    (h : ReadyOk us outs l) (hr : Removed (.load i) l l') :
    ReadyOk us (outs.modify i FuOp.invalidate) l' := by
  refine ⟨hr.nodup, ?_, ?_⟩
  · intro j
    rw [hr.mem, h.mem_unit]
    simp
  · intro k
    rw [hr.mem, h.mem_load, List.getElem?_modify]
    by_cases hik : i = k
    · subst hik
      cases hu : outs[i]? with
      | none => simp
      | some u => simp [FuOp.invalidate]
    · cases hu : outs[k]? with
      | none => simp [hik, Ne.symm hik]
      | some u => simp [hik, Ne.symm hik]

/-- Wakeup changes no entry and no occupancy. -/
theorem IqOk.wakeup {r : Ring RobEntry} {q : LSQ} {iq : IssueQueue} (h : IqOk r q iq) (p : Nat) :
    IqOk r q (iq.wakeup p) := ⟨h.wf.wakeup p, h.robSize, h.names⟩

/-- Waking the waiters of a register keeps the issue queue's invariant. -/
theorem IqOk.writeReg (h : IqOk c.rob c.lsq c.iq) (op : FuOp) :
    IqOk c.rob c.lsq (c.writeReg op).iq := by
  unfold OoOCore.writeReg
  dsimp only
  split
  · exact h.wakeup _
  · exact h

theorem iqHeld_writeReg (op : FuOp) : iqHeld (c.writeReg op).iq = iqHeld c.iq := by
  unfold OoOCore.writeReg
  dsimp only
  split <;> rfl

theorem resolve_static (e : RobEntry) (op : FuOp) : (resolve e op).static = e.static := rfl

theorem resolve_done (e : RobEntry) (op : FuOp) : (resolve e op).done = true := rfl

/-- A label that the units and the unfinished entries lose together. -/
theorem Held.drop_units {r r' : Ring RobEntry} {q : LSQ} {iq : IssueQueue}
    {us us' agus : List FuUnit} {outs : List FuOp} (h : Held r q iq us agus outs)
    {s : Multiset Nat} (hu : unitsHeld us' + s = unitsHeld us)
    (hr : unfinished r' + s = unfinished r) : Held r' q iq us' agus outs := by
  unfold Held heldBy at h ⊢
  rw [← hu, ← hr] at h
  apply add_right_cancel (b := s)
  rw [← h]
  abel

theorem Held.drop_outs {r r' : Ring RobEntry} {q : LSQ} {iq : IssueQueue}
    {us agus : List FuUnit} {outs outs' : List FuOp} (h : Held r q iq us agus outs)
    {s : Multiset Nat} (hu : outsHeld outs' + s = outsHeld outs)
    (hr : unfinished r' + s = unfinished r) : Held r' q iq us agus outs' := by
  unfold Held heldBy at h ⊢
  rw [← hu, ← hr] at h
  apply add_right_cancel (b := s)
  rw [← h]
  abel

theorem Held.iq_congr {r : Ring RobEntry} {q : LSQ} {iq iq' : IssueQueue}
    {us agus : List FuUnit} {outs : List FuOp} (h : Held r q iq us agus outs)
    (hiq : iqHeld iq' = iqHeld iq) : Held r q iq' us agus outs := by
  unfold Held heldBy at h ⊢
  rw [hiq]
  exact h

/-- Dropping a load output takes its label out. -/
theorem outsHeld_invalidate {outs : List FuOp} {j : Nat} {op : FuOp} (h : outs[j]? = some op)
    (hv : op.valid = true) : outsHeld (outs.modify j FuOp.invalidate) + {op.seq} = outsHeld outs := by
  have hm := bag_modify FuOp.invalidate (fun op : FuOp => single op.valid op.seq) h
  rw [hv] at hm
  simpa [FuOp.invalidate, outsHeld] using hm

/-- The parts of the invariant that writing a result keeps before its slot empties. -/
structure Completed (c c₁ : OoOCore M) (slot : OutSlot) : Prop where
  same : SameStatic c.rob c₁.rob
  rob : RobOk c₁.rob c₁.seqCtr
  lsq : LsqOk c₁.rob c₁.lsq
  iq : IqOk c₁.rob c₁.lsq c₁.iq
  iqHeld : iqHeld c₁.iq = iqHeld c.iq
  unfinished : unfinished c₁.rob + {(c.outAt slot).seq} = unfinished c.rob
  removed : Removed slot c.wbReady c₁.wbReady
  frame : c₁ = { c with
    rob := c₁.rob, iq := c₁.iq, prf := c₁.prf, wbReady := c₁.wbReady, log := c₁.log }

/-- What a write back leaves of the machine before its slot is emptied: one entry done, its register
written, and everything else as it was. -/
theorem BackOk.completed (h : BackOk c) {slot : OutSlot} {i : Nat}
    (hs : c.wbReady[i]? = some slot) : Completed c (c.complete i (c.outAt slot)) slot := by
  have hw := h.waiting (List.mem_of_getElem? hs)
  generalize hop : c.outAt slot = op at hw
  have hst : (resolve (c.rob.e op.robIdx) op).static = (c.rob.e op.robIdx).static :=
    resolve_static _ _
  have hn : OpNames c.rob op := hop ▸ hw.names
  have hnd : (c.rob.e op.robIdx).done = false := hop ▸ hw.notDone
  have hlsq := h.lsq.set hst fun j hj hri _ => by
    obtain ⟨h1, h2⟩ := hw.lsq j hj (by rw [hop]; exact hri)
    exact ⟨fun hstore => absurd hstore (by simp [h1]), fun _ => h2⟩
  have hun := unfinished_set h.rob.wf (e := resolve (c.rob.e op.robIdx) op) hn.live rfl
  rw [hnd, resolve_done, hn.seq] at hun
  simp only [Bool.not_false, Bool.not_true, single_true, single_false, add_zero] at hun
  exact {
    same := SameStatic.set hst
    rob := h.rob.set hst fun _ => rfl
    lsq := hlsq
    iq := (h.iq.writeReg op).same (SameStatic.set hst)
    iqHeld := iqHeld_writeReg op
    unfinished := by rw [hop]; exact hun
    removed := removed_swapRemove h.ready.nodup hs
    frame := rfl }

/-- After a write back, emptying the unit's output restores the back end's invariant. -/
theorem BackOk.dropUnit {c₁ : OoOCore M} {n : Nat} (h : BackOk c)
    (hmem : OutSlot.unit n ∈ c.wbReady) (hc : Completed c c₁ (.unit n)) :
    BackOk (c₁.dropOut (.unit n)) := by
  obtain ⟨u, hu, hv⟩ := getElem?_of_out_valid ((h.ready.mem_unit n).mp hmem)
  have hout : c.outAt (.unit n) = u.out := by
    show (c.units[n]?.getD default).out = _
    rw [hu]
    rfl
  have hdrop := unitsHeld_dropOut hu hv
  rw [← hout] at hdrop
  have hmu := List.mem_of_getElem? hu
  have hunits := (h.units.same hc.same).modify hu ((h.units.wf u hmu).dropOut) fun op hop =>
    (h.units.same hc.same).names u hmu op (mem_ops_of_dropOut hv hop)
  have hheld := (h.held.drop_units hdrop hc.unfinished).iq_congr hc.iqHeld
  have hfu : c₁.units = c.units := (congrArg OoOCore.units hc.frame :)
  have hfa : c₁.agus = c.agus := (congrArg OoOCore.agus hc.frame :)
  have hfl : c₁.loadOuts = c.loadOuts := (congrArg OoOCore.loadOuts hc.frame :)
  have hfq : c₁.lsq = c.lsq := (congrArg OoOCore.lsq hc.frame :)
  refine ⟨hc.rob, hc.lsq, hc.iq, ?_, ?_, ?_, ?_, ?_⟩
  · show UnitsOk c₁.rob (c₁.units.modify n FuUnit.dropOut)
    rw [hfu]
    exact hunits
  · show AgusOk c₁.rob c₁.lsq c₁.agus
    rw [hfa, hfq]
    exact h.agus.same hc.same
  · show LoadsOk c₁.rob c₁.lsq c₁.loadOuts
    rw [hfl, hfq]
    exact h.loads.same hc.same
  · show ReadyOk (c₁.units.modify n FuUnit.dropOut) c₁.loadOuts c₁.wbReady
    rw [hfu, hfl]
    exact h.ready.drop_unit hc.removed
  · show Held c₁.rob c₁.lsq c₁.iq (c₁.units.modify n FuUnit.dropOut) c₁.agus c₁.loadOuts
    rw [hfu, hfl, hfa, hfq]
    exact hheld

/-- After a write back, emptying the load output restores the back end's invariant. -/
theorem BackOk.dropLoad {c₁ : OoOCore M} {n : Nat} (h : BackOk c)
    (hmem : OutSlot.load n ∈ c.wbReady) (hc : Completed c c₁ (.load n)) :
    BackOk (c₁.dropOut (.load n)) := by
  obtain ⟨op, hop, hv⟩ := getElem?_of_valid ((h.ready.mem_load n).mp hmem)
  have hout : c.outAt (.load n) = op := by
    show c.loadOuts[n]?.getD {} = _
    rw [hop]
    rfl
  have hdrop := outsHeld_invalidate hop hv
  rw [← hout] at hdrop
  have hheld := (h.held.drop_outs hdrop hc.unfinished).iq_congr hc.iqHeld
  -- completing has touched neither the units nor the LSQ
  have hfu : c₁.units = c.units := (congrArg OoOCore.units hc.frame :)
  have hfa : c₁.agus = c.agus := (congrArg OoOCore.agus hc.frame :)
  have hfl : c₁.loadOuts = c.loadOuts := (congrArg OoOCore.loadOuts hc.frame :)
  have hfq : c₁.lsq = c.lsq := (congrArg OoOCore.lsq hc.frame :)
  refine ⟨hc.rob, hc.lsq, hc.iq, ?_, ?_, ?_, ?_, ?_⟩
  · show UnitsOk c₁.rob c₁.units
    rw [hfu]
    exact h.units.same hc.same
  · show AgusOk c₁.rob c₁.lsq c₁.agus
    rw [hfa, hfq]
    exact h.agus.same hc.same
  · show LoadsOk c₁.rob c₁.lsq (c₁.loadOuts.modify n FuOp.invalidate)
    rw [hfl, hfq]
    intro x hx
    obtain ⟨k, hk, rfl⟩ := List.mem_iff_getElem.mp hx
    rw [List.getElem_modify]
    split
    · exact nofun
    · exact (h.loads.same hc.same) _ (List.getElem_mem _)
  · show ReadyOk c₁.units (c₁.loadOuts.modify n FuOp.invalidate) c₁.wbReady
    rw [hfu, hfl]
    exact h.ready.drop_load hc.removed
  · show Held c₁.rob c₁.lsq c₁.iq c₁.units c₁.agus (c₁.loadOuts.modify n FuOp.invalidate)
    rw [hfu, hfl, hfa, hfq]
    exact hheld

/-- One result written back keeps the back end's invariant, from a unit or from a load. -/
theorem BackOk.finishResult (h : BackOk c) {slot : OutSlot} {i : Nat}
    (hs : c.wbReady[i]? = some slot) :
    BackOk ((c.complete i (c.outAt slot)).dropOut slot) := by
  have hc := h.completed hs
  have hmem := List.mem_of_getElem? hs
  cases slot with
  | unit n => exact h.dropUnit hmem hc
  | load n => exact h.dropLoad hmem hc

/-- What one writeback does: the oldest result is written, and a mispredict recovers. -/
theorem writebackOne_cases (hne : c.wbReady ≠ []) :
    ∃ slot, c.wbReady[c.oldestReady]? = some slot ∧
      ((c.writebackOne = ((c.complete c.oldestReady (c.outAt slot)).dropOut slot, false) ∧
          ((resolve (c.rob.e (c.outAt slot).robIdx) (c.outAt slot)).isBranch = false ∨
            (resolve (c.rob.e (c.outAt slot).robIdx) (c.outAt slot)).mispredicted = false)) ∨
        (c.writebackOne = ((c.complete c.oldestReady (c.outAt slot)).mispredict slot
            (c.outAt slot) (resolve (c.rob.e (c.outAt slot).robIdx) (c.outAt slot)), true) ∧
          (resolve (c.rob.e (c.outAt slot).robIdx) (c.outAt slot)).isBranch = true ∧
          (resolve (c.rob.e (c.outAt slot).robIdx) (c.outAt slot)).mispredicted = true)) := by
  obtain ⟨slot, hs, -⟩ := oldestReady_spec hne
  refine ⟨slot, hs, ?_⟩
  unfold OoOCore.writebackOne
  simp only [hs, Option.getD_some]
  split
  · rename_i hc
    rw [Bool.and_eq_true] at hc
    exact Or.inr ⟨rfl, hc.1, hc.2⟩
  · rename_i hc
    rw [Bool.and_eq_true] at hc
    refine Or.inl ⟨rfl, ?_⟩
    by_cases hb : (resolve (c.rob.e (c.outAt slot).robIdx) (c.outAt slot)).isBranch = true
    · right
      simpa using fun hm => hc ⟨hb, hm⟩
    · left
      simpa using hb

end Writeback

/-! ## Address generation -/

section Drain

variable {M : Type} {c : OoOCore M}

/-- The selected unit has an output. -/
theorem readyAgu_spec {i : Nat} (h : c.readyAgu = some i) :
    ∃ u, c.agus[i]? = some u ∧ u.out.valid = true := by
  have hvalid : ∀ j, c.readyAgu = some j → (c.agus[j]?.getD default).out.valid = true := by
    unfold OoOCore.readyAgu
    refine List.foldlRecOn
      (motive := fun best => ∀ j : Nat, best = some j → (c.agus[j]?.getD default).out.valid = true) _ _ ?_ ?_
    · intro j hj
      cases hj
    · intro best hbest a _ k hk
      cases best with
      | none =>
          dsimp only at hk
          split at hk
          · rename_i hv
            cases hk
            exact hv
          · cases hk
      | some b =>
          dsimp only at hk
          split at hk
          · rename_i hv
            cases hk
            exact hv.1
          · exact hbest k hk
  exact getElem?_of_out_valid (hvalid i h)

theorem LsqEntry.Local.unresolved {le : LsqEntry} (hl : le.Local) (ha : le.addrValid = false) :
    le.issued = false ∧ le.done = false := by
  constructor
  · cases h : le.issued with
    | false => rfl
    | true => rw [hl.load_issued h] at ha; cases ha
  · cases h : le.done with
    | false => rfl
    | true => rw [hl.load_done h] at ha; cases ha

/-- An unresolved entry holds nothing, and a resolved one holds its instruction unless it
is a store with its data. -/
theorem holds_resolved {le : LsqEntry} (hl : le.Local) (ha : le.addrValid = false) (addr : Word)
    (size : Nat) : le.holds = false ∧
      ({ le with addr := addr, size := size, addrValid := true } : LsqEntry).holds =
        !(le.isStore && le.dataReady) := by
  obtain ⟨hi, hd⟩ := hl.unresolved ha
  constructor
  · simp [LsqEntry.holds, LsqEntry.isCandidate, LsqEntry.isPending, LsqEntry.isUnreported, ha, hi,
      hd]
  · cases le.isStore <;>
      simp [LsqEntry.holds, LsqEntry.isCandidate, LsqEntry.isPending, LsqEntry.isUnreported,
        LsqEntry.isWaiting, hi, hd]

/-- A label leaves the address-generation units: it stays in the LSQ or finishes. -/
theorem Held.drain {r r' : Ring RobEntry} {q q' : LSQ} {iq : IssueQueue}
    {us agus agus' : List FuUnit} {outs : List FuOp} (h : Held r q iq us agus outs)
    {s t : Multiset Nat} (ha : unitsHeld agus' + s = unitsHeld agus) (hq : lsqHeld q' = lsqHeld q + t)
    (hr : unfinished r' + s = unfinished r + t) : Held r' q' iq us agus' outs := by
  unfold Held heldBy at h ⊢
  apply add_right_cancel (b := s)
  rw [hr, hq, ← h, ← ha]
  abel

/-- The drained label is nowhere else. -/
theorem BackOk.drained_unique (h : BackOk c) {agus' : List FuUnit} {s : Nat}
    (ha : unitsHeld agus' + {s} = unitsHeld c.agus) :
    s ∉ iqHeld c.iq ∧ s ∉ unitsHeld agus' := by
  have hheld : heldBy c.lsq c.iq c.units c.agus c.loadOuts = unfinished c.rob := h.held
  have hnd := unfinished_nodup h.rob
  rw [← hheld] at hnd
  have hcount := Multiset.nodup_iff_count_le_one.mp hnd s
  unfold heldBy at hcount
  rw [← ha] at hcount
  simp only [Multiset.count_add, Multiset.count_singleton_self] at hcount
  constructor
  · intro hm
    have := Multiset.one_le_count_iff_mem.mpr hm
    omega
  · intro hm
    have := Multiset.one_le_count_iff_mem.mpr hm
    omega

theorem fillAddress_ring (q : LSQ) (op : FuOp) :
    (fillAddress q op).ring = q.ring.set op.lsqIdx
      { q.at' op.lsqIdx with
        addr := op.value, size := accessSize (q.at' op.lsqIdx).op, addrValid := true } := by
  unfold fillAddress LSQ.resolveAddress
  dsimp only
  split <;> simp [LSQ.setEntry, LSQ.at', Ring.set]

variable [MemPorts Nat M]

/-- The op an address-generation unit delivers, and what it names. -/
structure Delivered (c : OoOCore M) (i : Nat) (op : FuOp) : Prop where
  unit : ∃ u, c.agus[i]? = some u ∧ u.out = op ∧ u.out.valid = true
  names : OpNames c.rob op
  lsq : LsqNames c.lsq op.robIdx op.lsqIdx
  notDone : (c.rob.e op.robIdx).done = false
  held : unitsHeld (c.agus.modify i FuUnit.dropOut) + {op.seq} = unitsHeld c.agus

omit [MemPorts Nat M] in
/-- The address at the output of an address unit is for a live ROB entry that is not done and for
its LSQ entry, and its number is held by that unit. -/
theorem BackOk.delivered (h : BackOk c) {i : Nat} (hi : c.readyAgu = some i) :
    Delivered c i (c.agus[i]?.getD default).out := by
  obtain ⟨u, hu, hv⟩ := readyAgu_spec hi
  have hout : (c.agus[i]?.getD default).out = u.out := by
    rw [hu]
    rfl
  rw [hout]
  have hmu := List.mem_of_getElem? hu
  obtain ⟨h1, h2⟩ := h.agus.names u hmu u.out (out_mem_ops hv)
  refine ⟨⟨u, hu, rfl, hv⟩, h1, h2, ?_, unitsHeld_dropOut hu hv⟩
  apply h.unfinished_of_mem h1
  have := mem_unitsHeld hmu (out_mem_ops hv)
  simp only [heldBy, Multiset.mem_add]
  tauto

omit [MemPorts Nat M] in
/-- No waiting or executing op names the slot of the op being delivered. -/
theorem BackOk.slot_unique (h : BackOk c) {i : Nat} {op : FuOp} (hd : Delivered c i op) :
    (∀ s, c.iq.occupied s = true → (c.rob.e s).isMem = true →
      (c.iq.e s).lsqIdx ≠ op.lsqIdx) ∧
    (∀ v ∈ c.agus.modify i FuUnit.dropOut, ∀ x ∈ v.ops, x.lsqIdx ≠ op.lsqIdx) := by
  obtain ⟨hiq, hag⟩ := h.drained_unique hd.held
  constructor
  · intro s ho hm he
    have hn := h.iq.names s ho
    have hl := hn.lsq hm
    have hs : s = op.robIdx := by rw [← hl.robIdx, he, hd.lsq.robIdx]
    apply hiq
    rw [← hd.names.seq, ← hs, ← hn.seq]
    refine mem_tally.mpr ⟨s, List.mem_range.mpr (h.iq.wf.occ_lt s ho), ho, rfl⟩
  · intro v hv x hx he
    obtain ⟨u, hu, rfl, huv⟩ := hd.unit
    have hmem : ∃ w ∈ c.agus, x ∈ w.ops := by
      rcases mem_modify hv hu with rfl | hv'
      · exact ⟨u, List.mem_of_getElem? hu, mem_ops_of_dropOut huv hx⟩
      · exact ⟨v, hv', hx⟩
    obtain ⟨w, hw, hxw⟩ := hmem
    obtain ⟨h1, h2⟩ := h.agus.names w hw x hxw
    have hs : x.robIdx = u.out.robIdx := by rw [← h2.robIdx, he, hd.lsq.robIdx]
    apply hag
    rw [← hd.names.seq, ← hs, h1.seq]
    exact mem_unitsHeld hv hx

theorem fillOne_eq (c : OoOCore M) (i : Nat) :
    c.fillOne i = { c with
      agus := c.agus.modify i FuUnit.dropOut
      lsq := fillAddress c.lsq (c.agus[i]?.getD default).out
      log := c.log ++ [.drain (c.agus[i]?.getD default).out.seq]
      rob := c.rob.set (c.agus[i]?.getD default).out.robIdx
        (addressed (c.rob.e (c.agus[i]?.getD default).out.robIdx)
          ((fillAddress c.lsq (c.agus[i]?.getD default).out).at'
            (c.agus[i]?.getD default).out.lsqIdx) (MemPorts.memSize c.msys)) } := rfl

/-- Giving one address to the LSQ keeps the back end's invariant: the operation leaves the address
unit, and its entry is held by the LSQ from then on. -/
theorem BackOk.fillOne (h : BackOk c) {i : Nat} (hi : c.readyAgu = some i) :
    BackOk (c.fillOne i) := by
  have hd := h.delivered hi
  rw [fillOne_eq]
  generalize (c.agus[i]?.getD default).out = op at hd
  -- no waiter and no other unit is on its way to the same entry
  obtain ⟨hiqu, hagu⟩ := h.slot_unique hd
  have hj := hd.lsq.live
  have hrob := hd.lsq.robIdx
  have ha := hd.lsq.unresolved
  have hag := h.lsq.agrees _ hj
  have hfl := h.lsq.flags _ hj
  have hring := fillAddress_ring c.lsq op
  have hwf : (fillAddress c.lsq op).Wf := h.lsq.wf.resolve hj ha
    (fun _ => hfl.unresolved ha) _ _
  -- whether the entry holds the instruction before and after its address is known
  obtain ⟨hold, hnew⟩ := holds_resolved hfl ha op.value (accessSize (c.lsq.at' op.lsqIdx).op)
  have hmove := lsqHeld_change h.lsq.wf hj hring rfl
  rw [hold, hnew, single_false, add_zero, hag.seq, hrob,
    show (c.rob.e op.robIdx).seq = op.seq from hd.names.seq] at hmove
  have hself := lsqAt_self hring
  generalize fillAddress c.lsq op = q' at hring hwf hmove hself ⊢
  have hst : (addressed (c.rob.e op.robIdx) (q'.at' op.lsqIdx)
      (MemPorts.memSize c.msys)).static = (c.rob.e op.robIdx).static := rfl
  -- a store is done when its data was there first; a load never is yet
  have hdone : (addressed (c.rob.e op.robIdx) (q'.at' op.lsqIdx)
      (MemPorts.memSize c.msys)).done =
        ((c.lsq.at' op.lsqIdx).isStore && (c.lsq.at' op.lsqIdx).dataReady) := by
    rw [hself]
    show (if _ then true else (c.rob.e op.robIdx).done) = _
    rw [hd.notDone]
    cases (c.lsq.at' op.lsqIdx).isStore && (c.lsq.at' op.lsqIdx).dataReady <;> rfl
  -- so the number leaves the unfinished ones exactly when the LSQ lets it go
  have hun := unfinished_set h.rob.wf (e := addressed (c.rob.e op.robIdx) (q'.at' op.lsqIdx)
    (MemPorts.memSize c.msys)) hd.names.live rfl
  rw [hd.notDone, hdone, hd.names.seq] at hun
  simp only [Bool.not_false, single_true] at hun
  have hlsq := h.lsq.change hring hwf rfl (by
      rw [hrob] at hag ⊢
      exact { hag with store_done := fun _ hdn => absurd hdn (by simp [hd.notDone]) })
    { store := hfl.store
      load_issued := fun _ => rfl
      load_done := fun _ => rfl
      load_reported := hfl.load_reported }
  have hslots : q'.ring.slots = c.lsq.ring.slots := by rw [hring, Ring.slots_set]
  have hrobq : lsqRob q' = lsqRob c.lsq := lsqRob_change hring rfl
  obtain ⟨u, hu, hout, huv⟩ := hd.unit
  exact {
    rob := h.rob.set hst fun hdn => absurd hdn (by simp [hd.notDone])
    lsq := hlsq.set hst fun j hj' hri hdn => by
      rw [hslots] at hj'
      rw [hrobq] at hri
      have hjj : j = op.lsqIdx := h.lsq.rob_inj h.rob.wf hj' hj (hri.trans hrob.symm)
      subst hjj
      rw [hdone, Bool.and_eq_true] at hdn
      rw [hself]
      exact ⟨fun _ => ⟨rfl, hdn.2⟩, fun hl => absurd hdn.1 (by simpa using hl)⟩
    iq := (h.iq.change hring rfl fun s ho hm he => absurd he (hiqu s ho hm)).same
      (SameStatic.set hst)
    units := h.units.same (SameStatic.set hst)
    agus := by
      have hdropped : AgusOk c.rob c.lsq (c.agus.modify i FuUnit.dropOut) :=
        h.agus.modify hu ((h.agus.wf u (List.mem_of_getElem? hu)).dropOut) fun x hx =>
          h.agus.names u (List.mem_of_getElem? hu) x (mem_ops_of_dropOut huv hx)
      exact (hdropped.change hring rfl fun v hv x hx he => absurd he (hagu v hv x hx)).same
        (SameStatic.set hst)
    loads := (h.loads.change hring rfl fun hr => ⟨hr, rfl⟩).same (SameStatic.set hst)
    ready := h.ready
    held := h.held.drain hd.held hmove hun }

end Drain

/-! ## Issue -/

section Issue

variable {M : Type} {c : OoOCore M}

theorem IqOk.release {r : Ring RobEntry} {q : LSQ} {iq : IssueQueue} (h : IqOk r q iq)
    (slot : Nat) : IqOk r q (iq.release slot) := by
  refine ⟨h.wf.release slot, h.robSize, ?_⟩
  intro s ho
  have ho' : (if s = slot then false else iq.occupied s) = true := by
    rw [← SlotSet.reset_apply]
    exact ho
  split at ho'
  · cases ho'
  · rename_i hne
    have he : (iq.release slot).e s = iq.e s := Function.update_of_ne hne _ _
    rw [he]
    exact h.names s ho'

/-- Releasing an occupied slot takes its label out. -/
theorem iqHeld_release {iq : IssueQueue} (h : iq.Wf) {slot : Nat} (ho : iq.occupied slot = true) :
    iqHeld (iq.release slot) + {(iq.e slot).seq} = iqHeld iq := by
  have hmem := List.mem_range.mpr (h.occ_lt slot ho)
  have := tally_change List.nodup_range hmem (p := iq.occupied)
    (q := (iq.release slot).occupied) (f := fun s => (iq.e s).seq)
    (g := fun s => ((iq.release slot).e s).seq) ?_
  · have hrel : (iq.release slot).occupied slot = false := by simp [IssueQueue.release]
    rw [ho, hrel, single_true, single_false, add_zero] at this
    exact this
  · intro s _ hne
    constructor
    · simp [IssueQueue.release, hne]
    · simp [IssueQueue.release, hne]

/-- The units' outputs decide `ReadyOk`. -/
theorem ReadyOk.congr_units {us us' : List FuUnit} {outs : List FuOp} {l : List OutSlot}
    (h : ReadyOk us outs l)
    (hout : ∀ i : Nat, (us'[i]?.getD default).out = (us[i]?.getD default).out) :
    ReadyOk us' outs l :=
  ⟨h.nodup, fun i => by rw [h.mem_unit, hout], h.mem_load⟩

/-- A label moves from the issue queue to a unit. -/
theorem Held.iq_to_units {r : Ring RobEntry} {q : LSQ} {iq iq' : IssueQueue}
    {us us' agus : List FuUnit} {outs : List FuOp} (h : Held r q iq us agus outs)
    {s : Multiset Nat} (hi : iqHeld iq' + s = iqHeld iq) (hu : unitsHeld us' = unitsHeld us + s) :
    Held r q iq' us' agus outs := by
  unfold Held heldBy at h ⊢
  rw [hu, ← h, ← hi]
  abel

theorem Held.iq_to_agus {r : Ring RobEntry} {q : LSQ} {iq iq' : IssueQueue}
    {us agus agus' : List FuUnit} {outs : List FuOp} (h : Held r q iq us agus outs)
    {s : Multiset Nat} (hi : iqHeld iq' + s = iqHeld iq)
    (hu : unitsHeld agus' = unitsHeld agus + s) : Held r q iq' us agus' outs := by
  unfold Held heldBy at h ⊢
  rw [hu, ← h, ← hi]
  abel

/-- The op an issuing entry becomes names the entry. -/
theorem BackOk.issueOp_names (h : BackOk c) {slot : Nat} (ho : c.iq.occupied slot = true) :
    (c.issueOp (c.iq.e slot)).valid = true ∧ (c.issueOp (c.iq.e slot)).seq = (c.iq.e slot).seq ∧
      (c.issueOp (c.iq.e slot)).robIdx = slot ∧
      (c.issueOp (c.iq.e slot)).lsqIdx = (c.iq.e slot).lsqIdx ∧
      OpNames c.rob (c.issueOp (c.iq.e slot)) := by
  have hn := h.iq.names slot ho
  have hr : (c.issueOp (c.iq.e slot)).robIdx = slot := hn.robIdx
  refine ⟨rfl, rfl, hr, rfl, ?_, ?_, rfl⟩
  · rw [hr]
    exact hn.live
  · rw [hr]
    exact hn.seq.symm

theorem isMem_eq_kind {e : RobEntry} (h : e.Consistent) :
    e.isMem = decide (fuKindOf e.ins.op = .LSU) := by
  rw [h.isMem]
  have := fuKindOf_eq_LSU_iff e.ins.op
  unfold isMemOp
  by_cases hk : fuKindOf e.ins.op = .LSU
  · rw [this.mp hk, decide_eq_true hk]
  · rw [decide_eq_false hk]
    simpa using fun hh => hk (this.mpr hh)

theorem issueTo_wb (c : OoOCore M) (slot i : Nat) :
    c.issueTo slot (.wb i) = { c with
      units := c.units.modify i fun u => u.accept (c.issueOp (c.iq.e slot))
      iq := c.iq.release slot
      log := c.log ++ [.issue (c.iq.e slot).seq (c.prf.val (c.iq.e slot).ps1)
        (c.prf.val (c.iq.e slot).ps2)] } := rfl

theorem issueTo_agu (c : OoOCore M) (slot i : Nat) :
    c.issueTo slot (.agu i) = { c with
      agus := c.agus.modify i fun u => u.accept (c.issueOp (c.iq.e slot))
      iq := c.iq.release slot
      log := c.log ++ [.issue (c.iq.e slot).seq (c.prf.val (c.iq.e slot).ps1)
        (c.prf.val (c.iq.e slot).ps2)] } := rfl

/-- Issuing a ready instruction to a unit that serves its kind and can accept it keeps the back
end's invariant: the operation leaves the queue and enters the pipeline. -/
theorem BackOk.issueTo (h : BackOk c) {slot : Nat} {u : UnitRef}
    (hr : c.iq.ready slot = true) (hs : u.serves c (c.iq.e slot).unit)
    (hc : (c.unitAt u).canAccept = true) : BackOk (c.issueTo slot u) := by
  have ho := ((h.iq.wf.ready_iff slot).mp hr).1
  obtain ⟨hv, hseq, hidx, hlsq, hnames⟩ := h.issueOp_names ho
  have hn := h.iq.names slot ho
  have hrel := iqHeld_release h.iq.wf ho
  have hkind := isMem_eq_kind (h.rob.consistent _ hn.live)
  rw [← hseq] at hrel
  cases u with
  | wb i =>
      rw [issueTo_wb]
      -- from here on only what the operation names matters
      generalize c.issueOp (c.iq.e slot) = op at hv hseq hidx hlsq hnames hrel ⊢
      obtain ⟨h1, -, hi⟩ := hs
      have hu : c.units[i]? = some c.units[i] := List.getElem?_eq_getElem hi
      generalize hw : c.units[i] = v at hu
      have hc' : v.canAccept = true := by
        have : c.unitAt (.wb i) = v := by
          show c.units[i]?.getD default = _
          rw [hu]
          rfl
        rw [this] at hc
        exact hc
      have hwf := h.units.wf v (List.mem_of_getElem? hu)
      refine { h with iq := h.iq.release slot, units := ?_, ready := ?_, held := ?_ }
      · apply h.units.modify hu (hwf.accept hc' hv)
        intro x hx
        rcases List.mem_cons.mp ((FuUnit.ops_accept hwf hc' hv).mem_iff.mp hx) with rfl | hx
        · refine ⟨hnames, ?_⟩
          rw [hidx, hkind]
          rw [hn.unit] at h1
          exact decide_eq_false h1
        · exact h.units.names v (List.mem_of_getElem? hu) x hx
      · apply h.ready.congr_units
        intro k
        show ((c.units.modify i _)[k]?.getD default).out = _
        rw [List.getElem?_modify]
        by_cases hik : i = k
        · subst hik
          rw [hu]
          simp
        · cases c.units[k]? with
          | none => rfl
          | some w => simp [hik]
      · exact h.held.iq_to_units hrel (unitsHeld_accept hu hwf hc' hv)
  | agu i =>
      rw [issueTo_agu]
      generalize c.issueOp (c.iq.e slot) = op at hv hseq hidx hlsq hnames hrel ⊢
      obtain ⟨h1, hi⟩ := hs
      have hu : c.agus[i]? = some c.agus[i] := List.getElem?_eq_getElem hi
      generalize hw : c.agus[i] = v at hu
      have hc' : v.canAccept = true := by
        have : c.unitAt (.agu i) = v := by
          show c.agus[i]?.getD default = _
          rw [hu]
          rfl
        rw [this] at hc
        exact hc
      have hwf := h.agus.wf v (List.mem_of_getElem? hu)
      -- an operation for an AGU is a memory operation, so its LSQ entry is named too
      have hmem : (c.rob.e slot).isMem = true := by
        rw [hkind, ← hn.unit]
        exact decide_eq_true h1
      refine { h with iq := h.iq.release slot, agus := ?_, held := ?_ }
      · apply h.agus.modify hu (hwf.accept hc' hv)
        intro x hx
        rcases List.mem_cons.mp ((FuUnit.ops_accept hwf hc' hv).mem_iff.mp hx) with rfl | hx
        · refine ⟨hnames, ?_⟩
          rw [hidx, hlsq]
          exact hn.lsq hmem
        · exact h.agus.names v (List.mem_of_getElem? hu) x hx
      · exact h.held.iq_to_agus hrel (unitsHeld_accept hu hwf hc' hv)

end Issue

/-! ## The clock edge of the units -/

section Tick

variable {M : Type} {c : OoOCore M}

/-- A tick moves operations along their unit; none is lost or made. -/
theorem mem_tick {us : List FuUnit} {v : FuUnit} (h : v ∈ us.map fun u => u.tick.1)
    (hwf : ∀ u ∈ us, u.Wf) : ∃ u ∈ us, v = u.tick.1 ∧ v.Wf ∧ v.ops.Perm u.ops := by
  obtain ⟨u, hu, rfl⟩ := List.mem_map.mp h
  obtain ⟨h1, h2, -, -⟩ := FuUnit.tick_spec (hwf u hu)
  exact ⟨u, hu, rfl, h1, h2⟩

theorem unitsHeld_tick {us : List FuUnit} (hwf : ∀ u ∈ us, u.Wf) :
    unitsHeld (us.map fun u => u.tick.1) = unitsHeld us := by
  unfold unitsHeld
  rw [bag_map]
  apply bag_congr
  intro u hu
  exact Multiset.coe_eq_coe.mpr ((FuUnit.tick_spec (hwf u hu)).2.1.map FuOp.seq)

/-- A tick adds to `wbReady` the units whose output it fills, each once. -/
theorem ReadyOk.tick {us : List FuUnit} {outs : List FuOp} {l : List OutSlot}
    (h : ReadyOk us outs l) (hwf : ∀ u ∈ us, u.Wf) :
    ReadyOk (us.map fun u => u.tick.1) outs
      (l ++ ((List.range us.length).filter fun i =>
        (us[i]?.getD default).tick.2).map OutSlot.unit) := by
  -- the indices that the tick reports are those of the units that delivered
  have hnew : ∀ i : Nat, i ∈ (List.range us.length).filter (fun i =>
      (us[i]?.getD default).tick.2) ↔ ∃ u, us[i]? = some u ∧ u.tick.2 = true := by
    intro i
    rw [List.mem_filter, List.mem_range]
    constructor
    · rintro ⟨hlt, ht⟩
      rw [List.getElem?_eq_getElem hlt] at ht
      exact ⟨us[i], List.getElem?_eq_getElem hlt, ht⟩
    · rintro ⟨u, hu, ht⟩
      refine ⟨(List.getElem?_eq_some_iff.mp hu).1, ?_⟩
      rw [hu]
      exact ht
  refine ⟨?_, ?_, ?_⟩
  · rw [List.nodup_append]
    refine ⟨h.nodup, (List.nodup_range.filter _).map fun a b hab => ?_, ?_⟩
    · cases hab
      rfl
    · intro a ha b hb hab
      subst hab
      obtain ⟨i, hi, rfl⟩ := List.mem_map.mp hb
      obtain ⟨u, hu, ht⟩ := (hnew i).mp hi
      -- a unit that delivers now had an empty output before
      have hv := (h.mem_unit i).mp ha
      rw [hu] at hv
      have := ((FuUnit.tick_spec (hwf u (List.mem_of_getElem? hu))).2.2.1 ht).1
      rw [show ((some u).getD default).out = u.out from rfl, this] at hv
      cases hv
  · intro i
    rw [List.mem_append, h.mem_unit, List.getElem?_map]
    have hmap : OutSlot.unit i ∈ ((List.range us.length).filter fun i =>
        (us[i]?.getD default).tick.2).map OutSlot.unit ↔
          ∃ u, us[i]? = some u ∧ u.tick.2 = true := by
      rw [← hnew i]
      constructor
      · intro hm
        obtain ⟨k, hk, he⟩ := List.mem_map.mp hm
        cases he
        exact hk
      · exact fun hm => List.mem_map_of_mem hm
    rw [hmap]
    cases hu : us[i]? with
    | none => simp
    | some u =>
        obtain ⟨-, -, h3, h4⟩ := FuUnit.tick_spec (hwf u (List.mem_of_getElem? hu))
        cases ht : u.tick.2 with
        | true => simp [ht, (h3 ht).2]
        | false => simp [ht, h4 ht]
  · intro j
    rw [List.mem_append, h.mem_load]
    simp

/-- The units' tick keeps the back end's invariant. -/
theorem BackOk.tickUnits (h : BackOk c) : BackOk c.tickUnits := by
  refine { h with units := ?_, agus := ?_, ready := h.ready.tick h.units.wf, held := ?_ }
  · refine ⟨?_, ?_⟩
    · intro v hv
      obtain ⟨u, hu, -, hwf, -⟩ := mem_tick hv h.units.wf
      exact hwf
    · intro v hv op hop
      obtain ⟨u, hu, -, -, hp⟩ := mem_tick hv h.units.wf
      exact h.units.names u hu op (hp.mem_iff.mp hop)
  · refine ⟨?_, ?_⟩
    · intro v hv
      obtain ⟨u, hu, -, hwf, -⟩ := mem_tick hv h.agus.wf
      exact hwf
    · intro v hv op hop
      obtain ⟨u, hu, -, -, hp⟩ := mem_tick hv h.agus.wf
      exact h.agus.names u hu op (hp.mem_iff.mp hop)
  · have := h.held
    unfold Held heldBy at this ⊢
    show iqHeld c.iq + unitsHeld (c.units.map fun u => u.tick.1) +
      unitsHeld (c.agus.map fun u => u.tick.1) + outsHeld c.loadOuts + lsqHeld c.lsq =
        unfinished c.rob
    rw [unitsHeld_tick h.units.wf, unitsHeld_tick h.agus.wf]
    exact this

end Tick

end RvO3
