import RvO3.Core.ValueSteps

/-!
# Physical registers are conserved

In every state that the elementary steps can reach, in whatever order commit, dispatch,
mispredict recovery and load replay come, every physical register is in exactly one of
three places: a mapping of the rename map, a mapping displaced by an instruction in
flight, or the free list. Physical register 0 is the value of `x0` for good.
-/

set_option autoImplicit false

namespace RvO3

open OoOCore

variable {M : Type} {cfg : SimConfig} {c c' : OoOCore M}

/-! ## The law -/

/-- The live instructions that have a destination. -/
def OoOCore.destEntries (c : OoOCore M) : List RobEntry :=
  c.rob.entries.filter fun e => hasDest e.ins

/-- The ops in the units, the address-generation units and the load outputs. -/
def OoOCore.inFlightOps (c : OoOCore M) : List FuOp :=
  (c.units ++ c.agus).flatMap FuUnit.ops ++ c.loadOuts.filter (·.valid)

/-- The physical registers of a state, each of which has one owner. Register 0 is that of `x0` and
never moves. -/
structure RegistersConserved (cfg : SimConfig) (c : OoOCore M) : Prop where
  /-- Every register once: mapped, displaced by a live instruction, or free. -/
  partition : heldValues c.rmap + ↑(c.destEntries.map RobEntry.prevPhys) + ↑c.freeList.entries =
    Multiset.range cfg.physRegs
  map_zero : c.rmap 0 = 0
  zero_not_free : 0 ∉ c.freeList.entries
  zero_not_pdst : (∀ e ∈ c.rob.entries, e.pdst ≠ 0) ∧ ∀ op ∈ c.inFlightOps, op.pdst ≠ 0
  zero_held : c.prf.val 0 = 0 ∧ c.prf.ready 0 = true
  /-- Commit and squash can free everything in flight without overflowing the ring. -/
  room : c.freeList.n + c.destEntries.length + 32 = c.freeList.capacity
  /-- What dispatch takes from the free list, nothing in flight refers to. -/
  free_not_live : ∀ p ∈ c.freeList.entries, (∀ r, c.rmap r ≠ p) ∧
    ∀ e ∈ c.destEntries, e.prevPhys ≠ p ∧ e.pdst ≠ p

/-! ## From the invariant -/

theorem renames_fields {es : List RobEntry} (h : ∀ e ∈ es, e.Consistent) :
    (renames es).map Write.old = (es.filter fun e => hasDest e.ins).map RobEntry.prevPhys ∧
      (renames es).map Write.new = (es.filter fun e => hasDest e.ins).map RobEntry.pdst := by
  induction es with
  | nil => exact ⟨rfl, rfl⟩
  | cons e es ih =>
      obtain ⟨ih1, ih2⟩ := ih fun x hx => h x (List.mem_cons_of_mem _ hx)
      have hsplit : renames (e :: es) = e.write.toList ++ renames es := by
        rw [← renames_singleton, ← renames_append]
        rfl
      rw [hsplit, List.map_append, List.map_append, ih1, ih2, RobEntry.write]
      by_cases hd : e.pdst ≠ kNoReg
      · have hd' := (h e List.mem_cons_self).hasDest.mp hd
        rw [if_pos hd, List.filter_cons, if_pos hd']
        exact ⟨rfl, rfl⟩
      · have hd' : ¬ hasDest e.ins = true := fun hh => hd ((h e List.mem_cons_self).hasDest.mpr hh)
        rw [if_neg hd, List.filter_cons, if_neg hd']
        exact ⟨rfl, rfl⟩

/-- No live instruction names register 0 as its destination. -/
theorem RenameOk.pdst_ne_zero (h : RenameOk c) {i : Nat} (hi : i ∈ c.rob.slots) :
    (c.rob.e i).pdst ≠ 0 := by
  intro h0
  have hne : (c.rob.e i).pdst ≠ kNoReg := by
    rw [h0]
    decide
  exact h.maps.written_ne_zero (write_mem c hi hne) h0

theorem BackOk.inFlight_names (h : BackOk c) {op : FuOp} (hop : op ∈ c.inFlightOps) :
    OpNames c.rob op := by
  rcases List.mem_append.mp hop with hop | hop
  · obtain ⟨u, hu, hop⟩ := List.mem_flatMap.mp hop
    rcases List.mem_append.mp hu with hu | hu
    · exact (h.units.names u hu op hop).1
    · exact (h.agus.names u hu op hop).1
  · obtain ⟨hmem, hv⟩ := List.mem_filter.mp hop
    exact (h.loads op hmem hv).names

theorem CoreOk.registersConserved (hk : CoreOk cfg c)
    (hz : c.prf.val 0 = 0 ∧ c.prf.ready 0 = true) : RegistersConserved cfg c := by
  have hm := hk.rename.maps
  rw [hk.config] at hm
  obtain ⟨hold, hnew⟩ := @renames_fields c.rob.entries fun e he => by
    obtain ⟨i, hi, rfl⟩ := Ring.mem_entries.mp he
    exact hk.back.rob.consistent i hi
  have hlen : c.writes.length = c.destEntries.length := by
    rw [← List.length_map Write.old, OoOCore.writes, hold, List.length_map]
    rfl
  exact {
    partition := by
      have hc := hm.conserved
      rw [displaced, OoOCore.writes, hold] at hc
      exact hc
    map_zero := hm.map_zero
    zero_not_free := hm.zero_notMem_free
    zero_not_pdst := by
      refine ⟨fun e he => ?_, fun op hop => ?_⟩
      · obtain ⟨i, hi, rfl⟩ := Ring.mem_entries.mp he
        exact hk.rename.pdst_ne_zero hi
      · have hn := hk.back.inFlight_names hop
        rw [← hn.pdst]
        exact hk.rename.pdst_ne_zero hn.live
    zero_held := hz
    room := by
      rw [← hlen, hm.room, hm.capacity]
    free_not_live := by
      intro p hp
      obtain ⟨h1, h2, -, h4⟩ := hm.free_notMem hp
      refine ⟨fun r hr => h1 (mem_heldValues.mpr ⟨r, hr⟩), fun e he => ⟨fun ho => h2 ?_, fun hn => h4 ?_⟩⟩
      · rw [displaced, OoOCore.writes, hold, Multiset.mem_coe]
        exact ho ▸ List.mem_map_of_mem he
      · rw [written, OoOCore.writes, hnew, Multiset.mem_coe]
        exact hn ▸ List.mem_map_of_mem he }

/-! ## Writes to the register file -/

/-- A step writes no register, or one that is not register 0. -/
def WritesNonzero (prf prf' : PhysRegFile) : Prop :=
  prf' = prf ∨ ∃ p v b, p ≠ 0 ∧
    prf' = { val := Function.update prf.val p v, ready := Function.update prf.ready p b }

theorem WritesNonzero.zero {prf prf' : PhysRegFile} (h : WritesNonzero prf prf') :
    prf'.val 0 = prf.val 0 ∧ prf'.ready 0 = prf.ready 0 := by
  rcases h with rfl | ⟨p, v, b, hp, rfl⟩
  · exact ⟨rfl, rfl⟩
  · exact ⟨Function.update_of_ne hp.symm _ _, Function.update_of_ne hp.symm _ _⟩

theorem recover_prf (h : BackOk c) (seq : Nat) : (c.recover seq).prf = c.prf :=
  (congrArg OoOCore.prf (recover_spec h seq).frame :)

theorem violationScan_prf (h : BackOk c) (store : LsqEntry) : (c.violationScan store).prf = c.prf := by
  cases hv : c.violationVictim store with
  | none => rw [violationScan_none hv]
  | some slot =>
      rw [violationScan_eq hv]
      have hb : BackOk (c.replayCall slot) := { h with }
      exact recover_prf hb _

/-- Writeback writes the destination of the instruction it completes. -/
theorem CoreOk.writeback_writes (hk : CoreOk cfg c) (hne : c.wbReady ≠ []) :
    WritesNonzero c.prf c.writebackOne.1.prf := by
  obtain ⟨slot, hs, hcase⟩ := writebackOne_cases hne
  have hn := (hk.back.waiting (List.mem_of_getElem? hs)).names
  have h0 : (c.outAt slot).pdst ≠ 0 := by
    rw [← hn.pdst]
    exact hk.rename.pdst_ne_zero hn.live
  have hwrite : WritesNonzero c.prf (c.writeReg (c.outAt slot)).prf := by
    unfold OoOCore.writeReg
    dsimp only
    split
    · exact Or.inr ⟨_, _, _, h0, rfl⟩
    · exact Or.inl rfl
  rcases hcase with ⟨heq, -⟩ | ⟨heq, -⟩
  · rw [heq]
    cases slot <;> exact hwrite
  · rw [heq, mispredict_eq]
    have hb := (hk.back.finishResult hs).mispredictCall
      (resolve (c.rob.e (c.outAt slot).robIdx) (c.outAt slot))
    have hp := recover_prf hb (c.outAt slot).seq
    show WritesNonzero c.prf (OoOCore.recover _ _).prf
    rw [hp]
    cases slot <;> exact hwrite

/-- Dispatch clears the ready bit of the register it hands out. -/
theorem CoreOk.dispatch_writes (hk : CoreOk cfg c) (first : Bool) :
    WritesNonzero c.prf (c.dispatchOne first).1.prf := by
  rcases dispatchOne_cases c first with heq | ⟨-, heq⟩ | ⟨hroom, heq⟩
  · rw [heq]
    exact Or.inl rfl
  · rw [heq]
    exact Or.inl rfl
  · rw [heq, dispatchOp_eq]
    show WritesNonzero c.prf (opPrf c (decode c.fetchQ.head.raw))
    unfold opPrf
    by_cases hd : hasDest (decode c.fetchQ.head.raw) = true
    · have hmem : c.freeList.head ∈ c.freeList.entries := by
        rw [Ring.entries_eq_cons hk.rename.maps.wf (hroom.freeList hd)]
        exact List.mem_cons_self
      have h0 : c.freeList.head ≠ 0 := fun he => hk.rename.maps.zero_notMem_free (he ▸ hmem)
      refine Or.inr ⟨c.freeList.head, c.prf.val c.freeList.head, false, h0, ?_⟩
      rw [Function.update_eq_self, if_pos hd]
    · rw [if_neg hd]
      exact Or.inl rfl

section Actions

variable [MemPorts Nat M]

/-- Commit writes the argument register of a system call. -/
theorem CoreOk.commit_writes (hk : CoreOk cfg c) {b : Bool} (hne : c.rob.empty = false)
    (hc : c.commitOne = .ok (c', b)) : WritesNonzero c.prf c'.prf := by
  rcases commitOne_cases hc with ⟨rfl, -⟩ | ⟨rec, hs, -⟩ | ⟨hs, -⟩
  · exact Or.inl rfl
  · obtain ⟨ret, prf, pos, hal, ex, rfl, hsys⟩ := hs.frame
    rcases commitSystem_regs rfl hsys with ⟨hp, -⟩ | ⟨v, hp, -⟩
    · exact Or.inl hp
    · have ha0 := (hk.rename.system _ (headIdx_mem hk.back hne) hs.isSystem).1
      have hne0 : c.rob.head.sysA0 ≠ 0 := by
        rw [show c.rob.head.sysA0 = c.rmap 10 from ha0, ← hk.rename.maps.map_zero]
        intro he
        exact absurd (hk.rename.maps.inj he) (by decide)
      refine Or.inr ⟨c.rob.head.sysA0, v, c.prf.ready c.rob.head.sysA0, hne0, ?_⟩
      rw [show prf = _ from hp, Function.update_eq_self]
  · rw [hs.frame]
    exact Or.inl rfl

theorem Action.writes (ha : Action c c') (hk : CoreOk cfg c) : WritesNonzero c.prf c'.prf := by
  cases ha.flow with
  -- only a commit, a writeback and a dispatch touch the register file
  | commit hne _ hc => exact hk.commit_writes hne hc
  | writeback hne => exact hk.writeback_writes hne
  | drain hi =>
      left
      unfold OoOCore.aguDrainOne
      dsimp only
      split
      · -- a violation squashes: the map and the free list go back, no value does
        rw [violationScan_prf (hk.back.fillOne hi)]
        rfl
      · rfl
  | @issue _ u _ _ _ => cases u <;> exact Or.inl rfl
  | @dispatch first _ => exact hk.dispatch_writes first
  | tickUnits => exact Or.inl rfl
  | aside h => exact Or.inl h.prf

/-! ## Every reachable state -/

/-- Whatever order the elementary steps come in, no physical register is lost, freed twice or handed
out while it is live, and none of them writes register 0. Every register is on the free list, holds
an architectural value, or is the destination of an instruction in flight. -/
theorem registers_conserved (hcfg : cfg.Accepted) (frames : Bool) (inputs : Nat → Word)
    (histLen : Nat → Nat) (msys : M) :
    (∀ c, Actions (OoOCore.init cfg frames inputs histLen msys) c → RegistersConserved cfg c) ∧
      (∀ c c', Actions (OoOCore.init cfg frames inputs histLen msys) c → Action c c' →
        WritesNonzero c.prf c'.prf) ∧
      ∀ ph c, Reach (OoOCore.init cfg frames inputs histLen msys) ph c →
        RegistersConserved cfg c := by
  have hk₀ := init_coreOk frames inputs histLen msys hcfg
  have hall : ∀ c, Actions (OoOCore.init cfg frames inputs histLen msys) c →
      CoreOk cfg c ∧ c.prf.val 0 = 0 ∧ c.prf.ready 0 = true := by
    intro c ha
    refine ha.preserve (I := fun c => CoreOk cfg c ∧ c.prf.val 0 = 0 ∧ c.prf.ready 0 = true) ?_
      ⟨hk₀, rfl, rfl⟩
    intro c c' hact ⟨hk, hz⟩
    have hw := (hact.writes hk).zero
    rw [← hw.1, ← hw.2] at hz
    exact ⟨hact.coreOk hcfg hk, hz⟩
  refine ⟨fun c ha => ?_, fun c c' ha hact => ?_, fun ph c hr => ?_⟩
  · exact (hall c ha).1.registersConserved (hall c ha).2
  · exact hact.writes (hall c ha).1
  · have ha := hr.actions hcfg hk₀
    exact (hall c ha).1.registersConserved (hall c ha).2

end Actions

/-- After fifteen cycles five live instructions have destinations, the last of them on the wrong path,
and the first instruction has retired: the register that it displaced is free again. -/
theorem registers_conserved_busy : ∃ c, Reach busyCore .boundary c ∧
    c.destEntries.map RobEntry.pdst = [33, 34, 35, 36, 37] ∧
    c.destEntries.map RobEntry.prevPhys = [6, 8, 2, 3, 5] ∧
    1 ∈ c.freeList.entries ∧ RegistersConserved busyConfig c := by
  obtain ⟨c, hr, hp⟩ := Reach.eval busyCore 120 .boundary
    (p := fun c => decide (c.destEntries.map RobEntry.pdst = [33, 34, 35, 36, 37] ∧
      c.destEntries.map RobEntry.prevPhys = [6, 8, 2, 3, 5] ∧ 1 ∈ c.freeList.entries))
    (by decide +kernel)
  obtain ⟨hnew, hold, hfree⟩ := of_decide_eq_true hp
  exact ⟨c, hr, hnew, hold, hfree, (registers_conserved busyConfig_accepted false (fun _ => 0) (fun _ => 0)
    (MemorySystem.init busyConfig fun a => wordByte (busyProgram (a / 4)) (a % 4))).2.2 _ c hr⟩

end RvO3
