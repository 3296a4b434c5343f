import RvO3.Core.Values

/-!
# Operand values along a run

Every action keeps `ValuesOk`. Writeback writes a register that was not ready, so nobody
could read it yet; dispatch hands out a free register, which is in no live map; recovery
and commit leave the maps of the instructions in flight alone.
-/

set_option autoImplicit false

namespace RvO3

open OoOCore

section Parts

variable {r r' : Ring RobEntry} {map map' : Nat → Reg → Nat} {prf prf' : PhysRegFile}

/-! ## Parts that a step moves or keeps -/

/-- The operands in the units stay right when the registers they were read from are kept and no
entry changes its instruction. -/
theorem UnitsVal.same {us : List FuUnit} (h : UnitsVal r map prf us)
    (hk : ∀ n, Keeps map map' prf prf' n) (hs : ∀ i, (r'.e i).static = (r.e i).static) :
    UnitsVal r' map' prf' us :=
  fun u hu op hop => (h u hu op hop).keep (hk _) (hs _)

theorem UnitsVal.modify {us : List FuUnit} {i : Nat} {u : FuUnit} {f : FuUnit → FuUnit}
    (h : UnitsVal r map prf us) (hu : us[i]? = some u)
    (hf : ∀ op ∈ (f u).ops, OpVal r map prf op) : UnitsVal r map prf (us.modify i f) := by
  intro v hv op hop
  rcases mem_modify hv hu with rfl | hv
  · exact hf op hop
  · exact h v hv op hop

theorem UnitsVal.dropOut {us : List FuUnit} (h : UnitsVal r map prf us) {i : Nat}
    (hv : (us[i]?.getD default).out.valid = true) :
    UnitsVal r map prf (us.modify i FuUnit.dropOut) := by
  obtain ⟨u, hu, huv⟩ := getElem?_of_out_valid hv
  exact h.modify hu fun op hop => h u (List.mem_of_getElem? hu) op (mem_ops_of_dropOut huv hop)

/-- A tick moves the operations without changing them. -/
theorem UnitsVal.tick {us : List FuUnit} (h : UnitsVal r map prf us) (hwf : ∀ u ∈ us, u.Wf) :
    UnitsVal r map prf (us.map fun u => u.tick.1) := by
  intro v hv op hop
  obtain ⟨u, hu, -, -, hp⟩ := mem_tick hv hwf
  exact h u hu op (hp.mem_iff.mp hop)

/-- What the store-data law reads of an entry. -/
structure SameData (le le' : LsqEntry) : Prop where
  isStore : le'.isStore = le.isStore
  seq : le'.seq = le.seq
  robIdx : le'.robIdx = le.robIdx
  dataPreg : le'.dataPreg = le.dataPreg
  dataReady : le'.dataReady = le.dataReady
  data : le'.data = le.data

theorem SameData.refl (le : LsqEntry) : SameData le le := ⟨rfl, rfl, rfl, rfl, rfl, rfl⟩

/-- The data of stores stay right when no slot is added and each keeps what it holds of its source.
-/
theorem StoreSrc.change {q q' : LSQ} (h : StoreSrc r map prf q)
    (hslots : ∀ j ∈ q'.ring.slots, j ∈ q.ring.slots)
    (hsame : ∀ j ∈ q'.ring.slots, (q'.at' j).isStore = true → SameData (q.at' j) (q'.at' j)) :
    StoreSrc r map prf q' := by
  intro j hj hst
  have hs := hsame j hj hst
  have hd := h j (hslots j hj) (hs.isStore ▸ hst)
  have hri : lsqRob q' j = lsqRob q j := hs.robIdx
  rw [hri]
  refine ⟨?_, ?_⟩
  · rw [hs.dataPreg, hs.seq]
    exact hd.dataPreg
  · rw [hs.dataReady, hs.dataPreg, hs.data]
    exact hd.captured

/-- Rewriting one entry. -/
theorem StoreSrc.set {q q' : LSQ} {j : Nat} {le : LsqEntry} (h : StoreSrc r map prf q)
    (hring : q'.ring = q.ring.set j le) (hle : le.isStore = true → SameData (q.at' j) le) :
    StoreSrc r map prf q' := by
  refine h.change ?_ ?_
  · intro i hi
    rw [hring, Ring.slots_set] at hi
    exact hi
  · intro i _ hst
    have hat : q'.at' i = if i = j then le else q.at' i := by
      rw [LSQ.at', hring, Ring.set_e, Function.update_apply]
      rfl
    rw [hat] at hst ⊢
    split at hst
    · rename_i hij
      subst hij
      rw [if_pos rfl]
      exact hle hst
    · rename_i hij
      rw [if_neg hij]
      exact SameData.refl _

theorem StoreSrc.same {q : LSQ} (h : StoreSrc r map prf q) (hk : ∀ n, Keeps map map' prf prf' n)
    (hs : ∀ i, (r'.e i).static = (r.e i).static) : StoreSrc r' map' prf' q := by
  intro j hj hst
  have h1 : (r'.e (lsqRob q j)).ins = (r.e (lsqRob q j)).ins := (congrArg RobEntry.ins (hs _) :)
  rw [h1]
  exact (h j hj hst).keep (hk _) rfl

/-- The rest of a done entry's law when nothing it reads changed. -/
theorem DoneVal.same (h : DoneVal r map prf) (hk : ∀ n, Keeps map map' prf prf' n)
    (hslots : ∀ i ∈ r'.slots, i ∈ r.slots)
    (he : ∀ i ∈ r'.slots, (r'.e i).isMem = false → r'.e i = r.e i)
    (hd : ∀ i ∈ r'.slots, (r.e i).done = true → (r.e i).pdst ≠ kNoReg →
      prf'.val (r.e i).pdst = prf.val (r.e i).pdst) : DoneVal r' map' prf' := by
  intro i hi hdone hmem hsys
  have heq := he i hi hmem
  rw [heq] at hdone hmem hsys ⊢
  exact (h i (hslots i hi) hdone hmem hsys).keep (hk _) (hd i hi hdone)

theorem RegsOk.same {cmap : Reg → Nat} {arch : Reg → Word} {result result' : Nat → Option Word}
    (h : RegsOk r cmap prf arch result) (hs : SameStatic r r') (hr : result' = result)
    (hd : ∀ i ∈ r.slots, (r.e i).pdst ≠ kNoReg → (r'.e i).done = (r.e i).done) :
    RegsOk r' cmap prf arch result' := by
  refine ⟨h.committed_ready, h.committed_val, ?_, ?_⟩
  · rw [hs.slots]
    intro i hi hne
    rw [hs.pdst] at hne ⊢
    rw [hd i hi hne]
    exact h.done_ready i hi hne
  · rw [hs.slots, hr, hs.seq]
    intro i hi hne hdone
    rw [hs.pdst] at hne ⊢
    rw [hd i hi hne] at hdone
    exact h.done_val i hi hne hdone

theorem IqSrc.same {iq : IssueQueue} {ready : Nat → Bool} (h : IqSrc r map ready iq)
    (hs : SameStatic r r') (hm : map' = map) : IqSrc r' map' ready iq := by
  refine ⟨?_, ?_, ?_, ?_⟩
  · rw [hs.seq, hm]
    intro s ho
    rw [hs.ins]
    exact h.ps1 s ho
  · rw [hs.seq, hm]
    intro s ho
    rw [hs.ins]
    exact h.ps2 s ho
  · intro s ho
    rw [hs.ins]
    exact h.blocked1 s ho
  · intro s ho
    rw [hs.ins]
    exact h.blocked2 s ho

end Parts

/-! ## Writeback -/

section Writeback

variable {M : Type} {c c' : OoOCore M}

/-- Writing a result changes no register that an instruction could read already, for its destination
was not ready. -/
theorem ValuesOk.keeps_complete (h : ValuesOk c) {slot : OutSlot} (hw : ResultOk c slot) (i : Nat)
    (n : Nat) : Keeps c.mapAt (c.complete i (c.outAt slot)).mapAt c.prf
      (c.complete i (c.outAt slot)).prf n := by
  have hmap := mapAt_quiet (quiet_complete c i (c.outAt slot)) n
  have hprf : (c.complete i (c.outAt slot)).prf = (c.writeReg (c.outAt slot)).prf := rfl
  rw [hprf, OoOCore.writeReg]
  dsimp only
  by_cases hne : (c.outAt slot).pdst ≠ kNoReg
  · rw [if_pos hne]
    -- the register being written was not ready
    have hnot : c.prf.ready (c.outAt slot).pdst = false := by
      have hp := hw.names.pdst
      rw [← hp] at hne ⊢
      rw [h.regs.done_ready _ hw.names.live hne]
      exact hw.notDone
    have hdiff : ∀ r, c.prf.ready (c.mapAt n r) = true → c.mapAt n r ≠ (c.outAt slot).pdst := by
      intro r hr he
      rw [he, hnot] at hr
      cases hr
    refine ⟨fun r => congrFun hmap r, fun r hr => ?_, fun r hr => ?_⟩
    · dsimp only
      rw [Function.update_of_ne (hdiff r hr)]
      exact hr
    · exact Function.update_of_ne (hdiff r hr) _ _
  · rw [if_neg hne]
    exact Keeps.refl fun r => congrFun hmap r

/-- After a result is written, each written register holds its producer's result. -/
theorem RegsOk.complete (h : ValuesOk c) (hr : RenameOk c) (hb : BackOk c) {slot : OutSlot}
    (hw : ResultOk c slot) (i : Nat) :
    RegsOk (c.complete i (c.outAt slot)).rob (c.complete i (c.outAt slot)).cmap
      (c.complete i (c.outAt slot)).prf (archRegs c.commits)
      (resultOf (c.complete i (c.outAt slot)).log) := by
  have hq := quiet_complete c i (c.outAt slot)
  have hcmap := cmap_quiet hq
  have hregs := h.regs
  have hpd := hw.names.pdst
  rw [hcmap]
  have hlog : ∀ seq, resultOf (c.complete i (c.outAt slot)).log seq =
      if (c.outAt slot).seq = seq then some (c.outAt slot).value else resultOf c.log seq :=
    fun seq => resultOf_writeback c.log _ _ seq
  have hother : ∀ j, j ≠ (c.outAt slot).robIdx →
      (c.complete i (c.outAt slot)).rob.e j = c.rob.e j := fun j hj =>
    Function.update_of_ne hj _ _
  have hself : (c.complete i (c.outAt slot)).rob.e (c.outAt slot).robIdx =
      resolve (c.rob.e (c.outAt slot).robIdx) (c.outAt slot) := Function.update_self _ _ _
  -- the other entries have other numbers, so their results are not touched
  have hseq : ∀ j ∈ c.rob.slots, j ≠ (c.outAt slot).robIdx →
      (c.outAt slot).seq ≠ robSeq c.rob j := by
    intro j hj hne he
    rw [← hw.names.seq] at he
    exact hne (hb.rob.seq_inj hj hw.names.live he.symm)
  have hprf : (c.complete i (c.outAt slot)).prf = (c.writeReg (c.outAt slot)).prf := rfl
  rw [hprf, OoOCore.writeReg]
  dsimp only
  -- without a destination no register is written
  by_cases hne : (c.outAt slot).pdst ≠ kNoReg
  · rw [if_pos hne]
    have hne' : (c.rob.e (c.outAt slot).robIdx).pdst ≠ kNoReg := hpd ▸ hne
    -- with one, no other entry and no committed name has that register
    have hpne : ∀ j ∈ c.rob.slots, j ≠ (c.outAt slot).robIdx → (c.rob.e j).pdst ≠ kNoReg →
        (c.rob.e j).pdst ≠ (c.outAt slot).pdst := by
      intro j hj hjne hp he
      rw [← hpd] at he
      exact hjne (hr.pdst_inj hj hw.names.live hp he)
    have hcne : ∀ r, c.cmap r ≠ (c.outAt slot).pdst := fun r => by
      rw [← hpd]
      exact (hr.pdst_ne_cmap hw.names.live hne' r).symm
    refine ⟨?_, ?_, ?_, ?_⟩
    · intro r
      exact (Function.update_of_ne (hcne r) _ _).trans (hregs.committed_ready r)
    · intro r
      exact (Function.update_of_ne (hcne r) _ _).trans (hregs.committed_val r)
    · rw [hq.rob.slots]
      intro j hj hp
      by_cases hji : j = (c.outAt slot).robIdx
      · subst hji
        rw [hself]
        show Function.update c.prf.ready (c.outAt slot).pdst true
          (c.rob.e (c.outAt slot).robIdx).pdst = true
        rw [hpd, Function.update_self]
      · rw [hother j hji] at hp ⊢
        exact (Function.update_of_ne (hpne j hj hji hp) _ _).trans (hregs.done_ready j hj hp)
    · rw [hq.rob.slots, hq.rob.seq]
      intro j hj hp hdone
      by_cases hji : j = (c.outAt slot).robIdx
      · subst hji
        rw [hlog, hw.names.seq, if_pos rfl, hself]
        show some _ = some (Function.update c.prf.val (c.outAt slot).pdst (c.outAt slot).value
          (c.rob.e (c.outAt slot).robIdx).pdst)
        rw [hpd, Function.update_self]
      · rw [hother j hji] at hp hdone ⊢
        rw [hlog, if_neg (hseq j hj hji), hregs.done_val j hj hp hdone]
        exact congrArg some (Function.update_of_ne (hpne j hj hji hp) _ _).symm
  · rw [if_neg hne]
    refine ⟨hregs.committed_ready, hregs.committed_val, ?_, ?_⟩
    · rw [hq.rob.slots]
      intro j hj hp
      by_cases hji : j = (c.outAt slot).robIdx
      · subst hji
        rw [hself] at hp
        exact absurd (hpd ▸ hp) hne
      · rw [hother j hji] at hp ⊢
        exact hregs.done_ready j hj hp
    · rw [hq.rob.slots, hq.rob.seq]
      intro j hj hp hdone
      by_cases hji : j = (c.outAt slot).robIdx
      · subst hji
        rw [hself] at hp
        exact absurd (hpd ▸ hp) hne
      · rw [hother j hji] at hp hdone ⊢
        rw [hlog, if_neg (hseq j hj hji)]
        exact hregs.done_val j hj hp hdone

/-- Wakeup unblocks exactly the sources whose register became ready. -/
theorem IqSrc.complete (h : ValuesOk c) (hb : BackOk c) (i : Nat) (op : FuOp) :
    IqSrc (c.complete i op).rob (c.complete i op).mapAt (c.complete i op).prf.ready
      (c.complete i op).iq := by
  have hq := quiet_complete c i op
  have hmap : (c.complete i op).mapAt = c.mapAt := funext fun n => mapAt_quiet hq n
  have hiq : (c.complete i op).iq = (c.writeReg op).iq := rfl
  have hprf : (c.complete i op).prf = (c.writeReg op).prf := rfl
  refine IqSrc.same ?_ hq.rob hmap
  rw [hiq, hprf, OoOCore.writeReg]
  dsimp only
  by_cases hne : op.pdst ≠ kNoReg
  · rw [if_pos hne, if_pos hne]
    refine ⟨h.iq.ps1, h.iq.ps2, ?_, ?_⟩
    · intro s ho
      rw [IssueQueue.wakeup_blocked1 hb.iq.wf, h.iq.blocked1 s ho, IssueQueue.wakeup_e]
      dsimp only
      by_cases hp : (c.iq.e s).ps1 = op.pdst
      · simp [hp]
      · simp [hp]
    · intro s ho
      rw [IssueQueue.wakeup_blocked2 hb.iq.wf, h.iq.blocked2 s ho, IssueQueue.wakeup_e]
      dsimp only
      by_cases hp : (c.iq.e s).ps2 = op.pdst
      · simp [hp]
      · simp [hp]
  · rw [if_neg hne, if_neg hne]
    exact h.iq

/-- A unit's result is what its instruction computes. -/
theorem ValuesOk.outVal (h : ValuesOk c) (hb : BackOk c) {slot : OutSlot} (hs : slot ∈ c.wbReady)
    (hmem : (c.rob.e (c.outAt slot).robIdx).isMem = false) :
    OpVal c.rob c.mapAt c.prf (c.outAt slot) := by
  cases slot with
  | unit i =>
      obtain ⟨u, hu, hv⟩ := getElem?_of_out_valid ((hb.ready.mem_unit i).mp hs)
      have hout : c.outAt (.unit i) = u.out := by
        show (c.units[i]?.getD default).out = _
        rw [hu]
        rfl
      rw [hout]
      exact h.units u (List.mem_of_getElem? hu) u.out (out_mem_ops hv)
  | load j =>
      obtain ⟨op, hop, hv⟩ := getElem?_of_valid ((hb.ready.mem_load j).mp hs)
      have hout : c.outAt (.load j) = op := by
        show c.loadOuts[j]?.getD {} = _
        rw [hop]
        rfl
      have hn := hb.loads op (List.mem_of_getElem? hop) hv
      rw [hout, (hb.rob.consistent _ hn.names.live).isMem, isMemOp, hn.load] at hmem
      cases hmem

theorem DoneVal.complete (h : ValuesOk c) (hr : RenameOk c) (hb : BackOk c) {slot : OutSlot}
    (hs : slot ∈ c.wbReady) (i : Nat) :
    DoneVal (c.complete i (c.outAt slot)).rob (c.complete i (c.outAt slot)).mapAt
      (c.complete i (c.outAt slot)).prf := by
  have hw := hb.waiting hs
  have hk := h.keeps_complete hw i
  have hq := quiet_complete c i (c.outAt slot)
  have hpd := hw.names.pdst
  intro j hj hdone hmem hsys
  rw [hq.rob.slots] at hj
  -- the entry that completes, with the result that arrived; the others as they were
  by_cases hji : j = (c.outAt slot).robIdx
  · subst hji
    have hself : (c.complete i (c.outAt slot)).rob.e (c.outAt slot).robIdx =
        resolve (c.rob.e (c.outAt slot).robIdx) (c.outAt slot) := Function.update_self _ _ _
    rw [hself] at hmem ⊢
    have hv := h.outVal hb hs hmem
    have hsq : (c.rob.e (c.outAt slot).robIdx).seq = (c.outAt slot).seq := hw.names.seq
    refine ⟨⟨(c.outAt slot).value, (c.outAt slot).redirect, (c.outAt slot).target⟩, ?_, ?_, ?_⟩
    · show Computes _ _ (c.rob.e (c.outAt slot).robIdx).seq _ _ _
      rw [hsq]
      exact Computes.keep (hk _) hv
    · intro hne
      have hne' : (c.outAt slot).pdst ≠ kNoReg := hpd ▸ hne
      show (c.writeReg (c.outAt slot)).prf.val (c.rob.e (c.outAt slot).robIdx).pdst = _
      rw [hpd, OoOCore.writeReg]
      dsimp only
      rw [if_pos hne']
      exact Function.update_self _ _ _
    · intro hbr
      have hbr' : (c.rob.e (c.outAt slot).robIdx).isBranch = true := hbr
      exact ⟨if_pos hbr', if_pos hbr'⟩
  · have hother : (c.complete i (c.outAt slot)).rob.e j = c.rob.e j :=
      Function.update_of_ne hji _ _
    rw [hother] at hdone hmem hsys ⊢
    apply (h.done j hj hdone hmem hsys).keep (hk _)
    intro hp
    show (c.writeReg (c.outAt slot)).prf.val _ = _
    rw [OoOCore.writeReg]
    dsimp only
    by_cases hne : (c.outAt slot).pdst ≠ kNoReg
    · rw [if_pos hne]
      -- the register that is written belongs to one entry
      refine Function.update_of_ne ?_ _ _
      rw [← hpd]
      exact fun he => hji (hr.pdst_inj hj hw.names.live hp he)
    · rw [if_neg hne]

/-- Writing one result keeps the values right. -/
theorem ValuesOk.complete (h : ValuesOk c) (hr : RenameOk c) (hb : BackOk c) {slot : OutSlot}
    (hs : slot ∈ c.wbReady) (i : Nat) : ValuesOk (c.complete i (c.outAt slot)) := by
  have hw := hb.waiting hs
  have hk := h.keeps_complete hw i
  have hq := quiet_complete c i (c.outAt slot)
  exact ⟨RegsOk.complete h hr hb hw i, IqSrc.complete h hb i _, h.stores.same hk hq.rob.static,
    h.units.same hk hq.rob.static, h.agus.same hk hq.rob.static, DoneVal.complete h hr hb hs i⟩

theorem ValuesOk.dropOut (h : ValuesOk c) {slot : OutSlot} (hv : (c.outAt slot).valid = true) :
    ValuesOk (c.dropOut slot) := by
  cases slot with
  | unit i => exact { h with units := h.units.dropOut hv }
  | load j => exact { h with }

/-- A squash keeps the values right: what survives reads registers that survive. -/
theorem ValuesOk.recover (h : ValuesOk c) (hb : BackOk c) (seq : Nat) :
    ValuesOk (c.recover seq) := by
  have hs := recover_spec hb seq
  have hprf : (c.recover seq).prf = c.prf := (congrArg OoOCore.prf hs.frame :)
  have hcom : (c.recover seq).commits = c.commits := (congrArg OoOCore.commits hs.frame :)
  -- a squash logs itself, and no result
  have hres : resultOf (c.recover seq).log = resultOf c.log := by
    funext n
    rw [hs.log]
    refine resultOf_append (fun ev hev => ?_) n
    rw [List.mem_singleton.mp hev]
    rfl
  -- the map is unwound to what it was for every number that stays
  have hkeep : ∀ {n : Nat}, n ≤ seq → Keeps c.mapAt (c.recover seq).mapAt c.prf c.prf n :=
    fun hn => Keeps.refl fun r => congrFun (mapAt_cut hb hs (Nat.le_succ_of_le hn)) r
  -- what is left in a unit has an old enough number
  have hunits : ∀ {us us' : List FuUnit}, us' = us.map (fun u => u.flushYounger seq) →
      UnitsVal c.rob c.mapAt c.prf us → UnitsVal (c.recover seq).rob (c.recover seq).mapAt c.prf us' := by
    intro us us' hus hv v hvm op hop
    rw [hus] at hvm
    obtain ⟨u, hu, rfl⟩ := List.mem_map.mp hvm
    rw [FuUnit.ops_flushYounger, List.mem_filter, decide_eq_true_iff] at hop
    exact (hv u hu op hop.1).keep (hkeep hop.2) (by rw [hs.rob.e])
  refine ⟨?_, ?_, ?_, ?_, ?_, ?_⟩
  · rw [cmap_cut hb hs, hprf, hcom, hres]
    refine ⟨h.regs.committed_ready, h.regs.committed_val, ?_, ?_⟩
    · intro i hi
      rw [hs.rob.e]
      exact h.regs.done_ready i (hs.rob.mem.mp hi).1
    · intro i hi
      rw [hs.rob.e, hs.rob.robSeq_eq]
      exact h.regs.done_val i (hs.rob.mem.mp hi).1
  · rw [hprf]
    -- a waiter that stays reads its sources through the same map
    have hmap : ∀ s, (c.recover seq).iq.occupied s = true → c.iq.occupied s = true ∧
        (c.recover seq).mapAt (robSeq c.rob s) = c.mapAt (robSeq c.rob s) ∧
        (c.iq.e s).seq ≤ seq := by
      intro s ho
      rw [(hs.iq s).occupied, Bool.and_eq_true, decide_eq_true_iff] at ho
      refine ⟨ho.1, mapAt_cut hb hs ?_, ho.2⟩
      rw [← (hb.iq.names s ho.1).seq]
      exact Nat.le_succ_of_le ho.2
    refine ⟨?_, ?_, ?_, ?_⟩
    · intro s ho
      obtain ⟨h1, h2, -⟩ := hmap s ho
      rw [(hs.iq s).entry ho, hs.rob.robSeq_eq, hs.rob.e, h2]
      exact h.iq.ps1 s h1
    · intro s ho
      obtain ⟨h1, h2, -⟩ := hmap s ho
      rw [(hs.iq s).entry ho, hs.rob.robSeq_eq, hs.rob.e, h2]
      exact h.iq.ps2 s h1
    · intro s ho
      obtain ⟨h1, -, h3⟩ := hmap s ho
      rw [(hs.iq s).blocked1, (hs.iq s).entry ho, hs.rob.e, decide_eq_true h3, Bool.and_true]
      exact h.iq.blocked1 s h1
    · intro s ho
      obtain ⟨h1, -, h3⟩ := hmap s ho
      rw [(hs.iq s).blocked2, (hs.iq s).entry ho, hs.rob.e, decide_eq_true h3, Bool.and_true]
      exact h.iq.blocked2 s h1
  · rw [hprf]
    intro j hj hst
    obtain ⟨h1, h2⟩ := hs.lsq.mem.mp hj
    have hrob : lsqRob (c.recover seq).lsq j = lsqRob c.lsq j := by rw [lsqRob, hs.lsq.lsqAt, lsqRob]
    rw [hs.lsq.lsqAt] at hst ⊢
    rw [hrob, hs.rob.e]
    exact (h.stores j h1 hst).keep (hkeep h2) rfl
  · rw [hprf]
    exact hunits hs.units h.units
  · rw [hprf]
    exact hunits hs.agus h.agus
  · rw [hprf]
    intro i hi hdone hmem hsys
    rw [hs.rob.e] at hdone hmem hsys ⊢
    obtain ⟨h1, h2⟩ := hs.rob.mem.mp hi
    exact (h.done i h1 hdone hmem hsys).keep (hkeep h2) fun _ => rfl

theorem ValuesOk.mispredictCall (h : ValuesOk c) {slot : OutSlot}
    (hv : (c.outAt slot).valid = true) (e : RobEntry) : ValuesOk (c.mispredictCall slot e) := by
  have h1 : ValuesOk { c with
    pred :=
      if c.cfg.usePredictor then (c.pred.restore e.predBefore).replay e.pc e.ins e.actualTaken
      else c.pred } := { h with }
  apply h1.dropOut
  cases slot <;> exact hv

/-- One write back keeps the values right, with the recovery of a mispredict. -/
theorem ValuesOk.writebackOne (h : ValuesOk c) (hr : RenameOk c) (hb : BackOk c)
    (hne : c.wbReady ≠ []) : ValuesOk c.writebackOne.1 := by
  obtain ⟨slot, hs, hcase⟩ := writebackOne_cases hne
  have hmem := List.mem_of_getElem? hs
  have h1 := h.complete hr hb hmem c.oldestReady
  have hv : ((c.complete c.oldestReady (c.outAt slot)).outAt slot).valid = true := by
    have := (hb.waiting hmem).valid
    cases slot <;> exact this
  rcases hcase with ⟨heq, -⟩ | ⟨heq, -⟩
  · rw [heq]
    exact h1.dropOut hv
  · rw [heq, mispredict_eq]
    have h2 := (h1.mispredictCall hv (resolve (c.rob.e (c.outAt slot).robIdx) (c.outAt slot))).recover
      ((hb.finishResult hs).mispredictCall _) (c.outAt slot).seq
    exact { h2 with }

/-- So does the scan for order violations, replay included. -/
theorem ValuesOk.violationScan (h : ValuesOk c) (hb : BackOk c) (store : LsqEntry) :
    ValuesOk (c.violationScan store) := by
  cases hv : c.violationVictim store with
  | none =>
      rw [violationScan_none hv]
      exact h
  | some slot =>
      rw [violationScan_eq hv]
      have h1 : ValuesOk (c.replayCall slot) := { h with }
      have h2 := h1.recover (c := c.replayCall slot) { hb with } ((c.lsq.at' slot).seq - 1)
      exact { h2 with }

end Writeback

/-! ## The memory engine -/

section Engine

variable {M : Type} {c c' : OoOCore M}

/-- A store has no destination register. -/
theorem RobEntry.Consistent.store_no_dest {e : RobEntry} (h : e.Consistent)
    (hs : isStore e.ins.op = true) : e.pdst = kNoReg := by
  by_contra hne
  have hd := h.hasDest.mp hne
  rw [OoOCore.hasDest, Bool.and_eq_true] at hd
  have hw : writesRd e.ins.op = false := by
    unfold writesRd
    rw [hs, Bool.or_true, if_pos rfl]
  rw [hw] at hd
  cases hd.1

/-- A step that rewrites the ROB entry of one memory operation. -/
theorem ValuesOk.setMem (h : ValuesOk c) (hb : BackOk c) {idx : Nat} {e : RobEntry}
    (hi : idx ∈ c.rob.slots) (hmem : (c.rob.e idx).isMem = true)
    (he : e.static = (c.rob.e idx).static)
    (hd : e.done = true → (c.rob.e idx).done = true ∨ isStore (c.rob.e idx).ins.op = true)
    (hd' : (c.rob.e idx).done = true → e.done = true) :
    ValuesOk (c.setRob idx e) := by
  have hq : Quiet c (c.setRob idx e) := ⟨rfl, rfl, SameStatic.set he, rfl, rfl⟩
  have hk : ∀ n, Keeps c.mapAt (c.setRob idx e).mapAt c.prf c.prf n :=
    fun n => Keeps.refl fun r => congrFun (mapAt_quiet hq n) r
  have hother : ∀ i, i ≠ idx → (c.setRob idx e).rob.e i = c.rob.e i :=
    fun i hne => Function.update_of_ne hne _ _
  refine ⟨?_, ?_, h.stores.same hk hq.rob.static, h.units.same hk hq.rob.static,
    h.agus.same hk hq.rob.static, ?_⟩
  · rw [cmap_quiet hq]
    apply h.regs.same hq.rob rfl
    intro i hi' hne
    by_cases hii : i = idx
    · subst hii
      have hself : (c.setRob i e).rob.e i = e := Function.update_self _ _ _
      rw [hself, Bool.eq_iff_iff]
      refine ⟨fun hdone => ?_, hd'⟩
      rcases hd hdone with h1 | h1
      · exact h1
      · exact absurd ((hb.rob.consistent i hi).store_no_dest h1) hne
    · rw [hother i hii]
  · exact h.iq.same hq.rob (funext fun n => mapAt_quiet hq n)
  · refine h.done.same hk ?_ ?_ fun _ _ _ _ => rfl
    · intro i hi'
      rw [hq.rob.slots] at hi'
      exact hi'
    · intro i _ hm
      by_cases hii : i = idx
      · subst hii
        rw [hq.rob.isMem, hmem] at hm
        cases hm
      · exact hother i hii

/-- Events other than a writeback may be added, and the load outputs may change. -/
theorem ValuesOk.note (h : ValuesOk c) {evs : List Event}
    (hev : ∀ ev ∈ evs, ev.isWriteback = false) : ValuesOk { c with log := c.log ++ evs } := by
  refine { h with regs := ?_ }
  have hres : resultOf (c.log ++ evs) = resultOf c.log := funext fun n => resultOf_append hev n
  show RegsOk c.rob c.cmap c.prf (archRegs c.commits) (resultOf (c.log ++ evs))
  rw [hres]
  exact h.regs

/-- A store that captures its data takes the value its register holds. -/
theorem ValuesOk.captureStore (h : ValuesOk c) (hb : BackOk c) {slot : Nat}
    (hj : slot ∈ c.lsq.ring.slots) : ValuesOk (c.captureStore slot) := by
  unfold OoOCore.captureStore
  dsimp only
  split
  · rename_i hg
    simp only [Bool.and_eq_true, Bool.not_eq_true'] at hg
    obtain ⟨⟨hst, hnd⟩, hready⟩ := hg
    have hcap : ValuesOk { c with lsq := c.lsq.captureStoreData slot (c.prf.val (c.lsq.at' slot).dataPreg) } := by
      refine { h with stores := ?_ }
      intro j hjs hsj
      have hjs' : j ∈ c.lsq.ring.slots := by
        change j ∈ (c.lsq.ring.set slot _).slots at hjs
        rw [Ring.slots_set] at hjs
        exact hjs
      have hat : (c.lsq.captureStoreData slot (c.prf.val (c.lsq.at' slot).dataPreg)).at' j =
          if j = slot then { c.lsq.at' slot with
            data := c.prf.val (c.lsq.at' slot).dataPreg, dataReady := true }
          else c.lsq.at' j := by
        simp [LSQ.captureStoreData, LSQ.at', Function.update_apply]
      have hri : lsqRob (c.lsq.captureStoreData slot (c.prf.val (c.lsq.at' slot).dataPreg)) j =
          lsqRob c.lsq j := by
        rw [lsqRob, hat, lsqRob]
        split
        · rename_i hij
          rw [hij]
        · rfl
      rw [hri, hat]
      by_cases hij : j = slot
      · subst hij
        rw [if_pos rfl]
        exact ⟨(h.stores j hjs' hst).dataPreg, fun _ => ⟨hready, rfl⟩⟩
      · rw [hat, if_neg hij] at hsj
        rw [if_neg hij]
        exact h.stores j hjs' hsj
    have hnote := @ValuesOk.note _ _ hcap [.capture (c.lsq.at' slot).seq (c.prf.val (c.lsq.at' slot).dataPreg)]
      fun ev hev => by rw [List.mem_singleton.mp hev]; rfl
    split
    · obtain ⟨h1, h2⟩ := hb.lsq.rob_mem hj
      have hstore : isStore (c.rob.e (c.lsq.at' slot).robIdx).ins.op = true :=
        (hb.lsq.agrees slot hj).isStore.symm.trans hst
      -- only the ROB matters for the last write
      have hq : Quiet c (c.setRob (c.lsq.at' slot).robIdx
          { c.rob.e (c.lsq.at' slot).robIdx with done := true }) :=
        ⟨rfl, rfl, SameStatic.set rfl, rfl, rfl⟩
      have hset := h.setMem hb (e := { c.rob.e (c.lsq.at' slot).robIdx with done := true }) h1 h2 rfl
        (fun _ => Or.inr hstore) fun _ => rfl
      exact { hset with
        regs := by
          have hres : resultOf (c.log ++ [.capture (c.lsq.at' slot).seq
              (c.prf.val (c.lsq.at' slot).dataPreg)]) = resultOf c.log :=
            funext fun n => resultOf_append (fun ev hev => by rw [List.mem_singleton.mp hev]; rfl) n
          have hregs := hset.regs
          show RegsOk _ _ _ _ (resultOf (c.log ++ [.capture (c.lsq.at' slot).seq
              (c.prf.val (c.lsq.at' slot).dataPreg)]))
          rw [hres]
          exact hregs
        stores := StoreSrc.same hnote.stores
          (fun n => Keeps.refl fun r => congrFun (mapAt_quiet hq n) r) hq.rob.static }
    · exact hnote
  · exact h

theorem ValuesOk.surfaceLoad (h : ValuesOk c) (slot k : Nat) : ValuesOk (c.surfaceLoad slot k).1 := by
  unfold OoOCore.surfaceLoad
  dsimp only
  split
  · split
    · exact h
    · refine { h with stores := ?_ }
      exact h.stores.set (rfl : _ = c.lsq.ring.set slot { c.lsq.at' slot with reported := true })
        fun _ => ⟨rfl, rfl, rfl, rfl, rfl, rfl⟩
  · exact h

theorem ValuesOk.completeLoad (h : ValuesOk c) (slot : Nat) (v : Word) :
    ValuesOk { c with lsq := c.lsq.completeLoad slot v } := by
  refine { h with stores := ?_ }
  exact h.stores.set (rfl : _ = c.lsq.ring.set slot { c.lsq.at' slot with value := v, done := true })
    fun _ => ⟨rfl, rfl, rfl, rfl, rfl, rfl⟩

theorem ValuesOk.issueLoad (h : ValuesOk c) (slot : Nat) :
    ValuesOk { c with lsq := c.lsq.issueLoad slot } := by
  refine { h with stores := ?_ }
  exact h.stores.set (rfl : _ = c.lsq.ring.set slot { c.lsq.at' slot with issued := true })
    fun _ => ⟨rfl, rfl, rfl, rfl, rfl, rfl⟩

/-- A response brings a load's data, which the register file sees at writeback and not before. -/
theorem ValuesOk.dataResponse (h : ValuesOk c) (r : MemResponse Nat) :
    ValuesOk (c.dataResponse r) := by
  unfold OoOCore.dataResponse
  split
  · exact { h with }
  · unfold loadReply
    dsimp only
    split
    · exact h.completeLoad _ _
    · exact h

variable [MemPorts Nat M]

theorem ValuesOk.fillOne (h : ValuesOk c) (hb : BackOk c) {i : Nat} (hi : c.readyAgu = some i) :
    ValuesOk (c.fillOne i) := by
  have hd := hb.delivered hi
  rw [fillOne_eq]
  generalize (c.agus[i]?.getD default).out = op at hd
  obtain ⟨u, hu, hout, huv⟩ := hd.unit
  have hri := hd.lsq.robIdx
  have hmem : (c.rob.e op.robIdx).isMem = true := by
    rw [← hri]
    exact (hb.lsq.rob_mem hd.lsq.live).2
  have hag := hb.lsq.agrees op.lsqIdx hd.lsq.live
  rw [hri] at hag
  have hring := fillAddress_ring c.lsq op
  have hat : (fillAddress c.lsq op).at' op.lsqIdx =
      { c.lsq.at' op.lsqIdx with
        addr := op.value, size := accessSize (c.lsq.at' op.lsqIdx).op, addrValid := true } := by
    rw [LSQ.at', hring, Ring.set_self_e]
  -- a memory operation has no value in the ROB to speak of
  have hset := h.setMem hb (e := addressed (c.rob.e op.robIdx)
    ((fillAddress c.lsq op).at' op.lsqIdx) (MemPorts.memSize c.msys)) hd.names.live hmem rfl (by
      intro hdone
      have hdone' : (if ((fillAddress c.lsq op).at' op.lsqIdx).isStore &&
          ((fillAddress c.lsq op).at' op.lsqIdx).dataReady then true
        else (c.rob.e op.robIdx).done) = true := hdone
      split at hdone'
      · rename_i hst
        rw [Bool.and_eq_true, hat] at hst
        exact Or.inr (hag.isStore ▸ hst.1)
      · exact Or.inl hdone') (by
      intro hdone
      show (if _ then true else (c.rob.e op.robIdx).done) = true
      rw [hdone, ite_self])
  have hq : Quiet c (c.setRob op.robIdx (addressed (c.rob.e op.robIdx)
    ((fillAddress c.lsq op).at' op.lsqIdx) (MemPorts.memSize c.msys))) :=
    ⟨rfl, rfl, SameStatic.set rfl, rfl, rfl⟩
  have hstores : StoreSrc c.rob c.mapAt c.prf (fillAddress c.lsq op) :=
    h.stores.set hring fun _ => ⟨rfl, rfl, rfl, rfl, rfl, rfl⟩
  have hagus : UnitsVal c.rob c.mapAt c.prf (c.agus.modify i FuUnit.dropOut) := by
    apply h.agus.dropOut
    rw [hu]
    exact huv
  -- renaming is not touched, so every operand is where it was
  have hk : ∀ n, Keeps c.mapAt (c.setRob op.robIdx (addressed (c.rob.e op.robIdx)
      ((fillAddress c.lsq op).at' op.lsqIdx) (MemPorts.memSize c.msys))).mapAt c.prf c.prf n :=
    fun n => Keeps.refl fun r => congrFun (mapAt_quiet hq n) r
  exact { hset with
    regs := by
      have hres : resultOf (c.log ++ [.drain op.seq]) = resultOf c.log :=
        funext fun n => resultOf_append (fun ev hev => by rw [List.mem_singleton.mp hev]; rfl) n
      have hregs := hset.regs
      show RegsOk _ _ _ _ (resultOf (c.log ++ [.drain op.seq]))
      rw [hres]
      exact hregs
    stores := hstores.same hk hq.rob.static
    agus := hagus.same hk hq.rob.static }

theorem ValuesOk.aguDrainOne (h : ValuesOk c) (hb : BackOk c) {i : Nat} (hi : c.readyAgu = some i) :
    ValuesOk (c.aguDrainOne i) := by
  have h1 := h.fillOne hb hi
  unfold OoOCore.aguDrainOne
  dsimp only
  split
  · exact h1.violationScan (hb.fillOne hi) _
  · exact h1

end Engine

/-! ## Issue -/

section Issue

variable {M : Type} {c c' : OoOCore M}

/-- A ready entry reads the values of its sources. -/
theorem ValuesOk.ready_reads (h : ValuesOk c) (hb : BackOk c) {s : Nat}
    (hr : c.iq.ready s = true) :
    (usesRs1 (c.rob.e s).ins.op = true →
      Reads c.mapAt c.prf (robSeq c.rob s) (c.rob.e s).ins.rs1 (c.prf.val (c.iq.e s).ps1)) ∧
    (usesRs2 (c.rob.e s).ins.op = true → isStore (c.rob.e s).ins.op = false →
      Reads c.mapAt c.prf (robSeq c.rob s) (c.rob.e s).ins.rs2 (c.prf.val (c.iq.e s).ps2)) := by
  obtain ⟨ho, h1, h2⟩ := (hb.iq.wf.ready_iff s).mp hr
  have hb1 := h.iq.blocked1 s ho
  have hb2 := h.iq.blocked2 s ho
  rw [h1] at hb1
  rw [h2] at hb2
  constructor
  · intro hu
    rw [hu, Bool.true_and] at hb1
    refine ⟨?_, ?_⟩
    · rw [← h.iq.ps1 s ho]
      simpa using hb1.symm
    · rw [← h.iq.ps1 s ho]
  · intro hu hst
    rw [hu, hst, Bool.true_and, Bool.not_false, Bool.true_and] at hb2
    refine ⟨?_, ?_⟩
    · rw [← h.iq.ps2 s ho]
      simpa using hb2.symm
    · rw [← h.iq.ps2 s ho]

/-- The operands of an instruction that issues are the results of the writers it was renamed to. -/
theorem ValuesOk.issueOp_val (h : ValuesOk c) (hb : BackOk c) {s : Nat} (hr : c.iq.ready s = true) :
    OpVal c.rob c.mapAt c.prf (c.issueOp (c.iq.e s)) := by
  obtain ⟨ho, -, -⟩ := (hb.iq.wf.ready_iff s).mp hr
  have hn := hb.iq.names s ho
  obtain ⟨h1, h2⟩ := h.ready_reads hb hr
  have hidx : (c.issueOp (c.iq.e s)).robIdx = s := hn.robIdx
  have hseq : (c.issueOp (c.iq.e s)).seq = robSeq c.rob s := hn.seq
  rw [OpVal, hidx, hseq]
  refine ⟨_, _, h1, h2, ?_⟩
  show (⟨_, _, _⟩ : ExecResult) = _
  rw [OoOCore.issueOp]
  dsimp only
  rw [hn.robIdx]

theorem IqSrc.release {r : Ring RobEntry} {map : Nat → Reg → Nat} {ready : Nat → Bool}
    {iq : IssueQueue} (h : IqSrc r map ready iq) (slot : Nat) :
    IqSrc r map ready (iq.release slot) := by
  have hne : ∀ s, (iq.release slot).occupied s = true → s ≠ slot ∧ iq.occupied s = true := by
    intro s ho
    simp only [IssueQueue.release, SlotSet.reset_apply] at ho
    split at ho
    · cases ho
    · rename_i hs
      exact ⟨hs, ho⟩
  have he : ∀ s, s ≠ slot → (iq.release slot).e s = iq.e s := fun s hs =>
    Function.update_of_ne hs _ _
  refine ⟨?_, ?_, ?_, ?_⟩
  · intro s ho
    obtain ⟨h1, h2⟩ := hne s ho
    rw [he s h1]
    exact h.ps1 s h2
  · intro s ho
    obtain ⟨h1, h2⟩ := hne s ho
    rw [he s h1]
    exact h.ps2 s h2
  · intro s ho
    obtain ⟨h1, h2⟩ := hne s ho
    rw [he s h1, ← h.blocked1 s h2]
    simp [IssueQueue.release, h1]
  · intro s ho
    obtain ⟨h1, h2⟩ := hne s ho
    rw [he s h1, ← h.blocked2 s h2]
    simp [IssueQueue.release, h1]

theorem UnitsVal.accept {r : Ring RobEntry} {map : Nat → Reg → Nat} {prf : PhysRegFile}
    {us : List FuUnit} (h : UnitsVal r map prf us) {i : Nat} {u : FuUnit} {op : FuOp}
    (hu : us[i]? = some u) (hwf : u.Wf) (hacc : u.canAccept = true) (hv : op.valid = true)
    (hop : OpVal r map prf op) : UnitsVal r map prf (us.modify i fun u => u.accept op) := by
  apply h.modify hu
  intro x hx
  rcases List.mem_cons.mp ((FuUnit.ops_accept hwf hacc hv).mem_iff.mp hx) with rfl | hx
  · exact hop
  · exact h u (List.mem_of_getElem? hu) x hx

/-- Issuing an instruction keeps the values right. -/
theorem ValuesOk.issueTo (h : ValuesOk c) (hb : BackOk c) {slot : Nat} {u : UnitRef}
    (hr : c.iq.ready slot = true) (hs : u.serves c (c.iq.e slot).unit)
    (hc : (c.unitAt u).canAccept = true) : ValuesOk (c.issueTo slot u) := by
  have hop := h.issueOp_val hb hr
  have hiq : IqSrc c.rob c.mapAt c.prf.ready (c.iq.release slot) := h.iq.release slot
  have hnote := @ValuesOk.note _ _ h [.issue (c.iq.e slot).seq (c.prf.val (c.iq.e slot).ps1)
    (c.prf.val (c.iq.e slot).ps2)] fun ev hev => by rw [List.mem_singleton.mp hev]; rfl
  cases u with
  | wb i =>
      obtain ⟨-, -, hlt⟩ := hs
      have hu : c.units[i]? = some c.units[i] := List.getElem?_eq_getElem hlt
      have hacc : c.units[i].canAccept = true := by
        have : (c.units[i]?.getD default).canAccept = true := hc
        rw [hu] at this
        exact this
      rw [issueTo_wb]
      exact { hnote with
        iq := hiq
        units := h.units.accept hu (hb.units.wf _ (List.getElem_mem hlt)) hacc rfl hop }
  | agu i =>
      obtain ⟨-, hlt⟩ := hs
      have hu : c.agus[i]? = some c.agus[i] := List.getElem?_eq_getElem hlt
      have hacc : c.agus[i].canAccept = true := by
        have : (c.agus[i]?.getD default).canAccept = true := hc
        rw [hu] at this
        exact this
      rw [issueTo_agu]
      exact { hnote with
        iq := hiq
        agus := h.agus.accept hu (hb.agus.wf _ (List.getElem_mem hlt)) hacc rfl hop }

theorem ValuesOk.tickUnits (h : ValuesOk c) (hb : BackOk c) : ValuesOk c.tickUnits :=
  { h with units := h.units.tick hb.units.wf, agus := h.agus.tick hb.agus.wf }

end Issue

/-! ## Commit -/

section Commit

variable {M : Type} {c c' : OoOCore M}

/-- Commit moves the committed map past the oldest rename. -/
theorem cmap_popHead (hr : RenameOk c) (hb : BackOk c) (hne : c.rob.empty = false)
    (hrob : c'.rob = c.rob.popHead) (hm : c'.rmap = c.rmap) :
    c'.cmap = if c.rob.head.pdst ≠ kNoReg then
      Function.update c.cmap c.rob.head.ins.rd c.rob.head.pdst else c.cmap := by
  have hcons := Ring.entries_eq_cons hb.rob.wf hne
  have hlog := hr.maps.logged
  have hcm : c.cmap = undoAll c.writes c.rmap := rfl
  have hcm' : c'.cmap = undoAll (renames c.rob.popHead.entries) c.rmap := by
    rw [OoOCore.cmap, hrob, hm]
    rfl
  have hw : c.writes = c.rob.head.write.toList ++ renames c.rob.popHead.entries := by
    rw [OoOCore.writes, hcons, ← renames_singleton, ← renames_append]
    rfl
  rw [hcm', hcm]
  rw [hw, RobEntry.write] at hlog ⊢
  by_cases hd : c.rob.head.pdst ≠ kNoReg
  · rw [if_pos hd] at hlog ⊢
    rw [if_pos hd]
    exact hlog.tail.undoAll_eq
  · rw [if_neg hd] at hlog ⊢
    rw [if_neg hd]
    rfl

theorem headIdx_mem (hb : BackOk c) (hne : c.rob.empty = false) : c.rob.headIdx ∈ c.rob.slots := by
  obtain ⟨rest, hr⟩ := Ring.slots_eq_cons hb.rob.wf hne
  rw [hr]
  exact List.mem_cons_self

/-- The instructions behind the head read what they read before. -/
theorem keeps_popHead (hb : BackOk c) (hne : c.rob.empty = false)
    (hrob : c'.rob = c.rob.popHead) (hm : c'.rmap = c.rmap) (hp : c'.prf = c.prf) {i : Nat}
    (hi : i ∈ c'.rob.slots) : Keeps c.mapAt c'.mapAt c.prf c'.prf (robSeq c.rob i) := by
  obtain ⟨rest, hr⟩ := Ring.slots_eq_cons hb.rob.wf hne
  have hsorted := hb.rob.sorted
  rw [hr, List.map_cons, List.pairwise_cons] at hsorted
  rw [hrob, Ring.slots_popHead hb.rob.wf, hr] at hi
  rw [hp]
  exact Keeps.refl fun r =>
    congrFun (mapAt_popHead hb hne hrob hm (hsorted.1 _ (List.mem_map_of_mem hi))) r

/-- The head's register becomes the committed one; those behind it keep theirs. -/
theorem RegsOk.popHead (h : RegsOk c.rob c.cmap c.prf (archRegs c.commits) (resultOf c.log))
    (hr : RenameOk c) (hb : BackOk c) (hne : c.rob.empty = false) (hd : c.rob.head.done = true)
    (hrob : c'.rob = c.rob.popHead) (hm : c'.rmap = c.rmap) (hp : c'.prf = c.prf)
    (hlog : resultOf c'.log = resultOf c.log)
    (harch : archRegs c'.commits = if c.rob.head.pdst ≠ kNoReg then
      Function.update (archRegs c.commits) c.rob.head.ins.rd (c.prf.val c.rob.head.pdst)
      else archRegs c.commits) :
    RegsOk c'.rob c'.cmap c'.prf (archRegs c'.commits) (resultOf c'.log) := by
  have hlive : ∀ i ∈ c'.rob.slots, i ∈ c.rob.slots := by
    intro i hi
    rw [hrob, Ring.slots_popHead hb.rob.wf] at hi
    exact List.mem_of_mem_tail hi
  have he : c'.rob.e = c.rob.e := by rw [hrob]; rfl
  have hrseq : robSeq c'.rob = robSeq c.rob := by
    funext i
    rw [robSeq, he, robSeq]
  rw [cmap_popHead hr hb hne hrob hm, hp, harch, hlog]
  have hhead := headIdx_mem hb hne
  refine ⟨?_, ?_, ?_, ?_⟩
  · intro i
    by_cases hpd : c.rob.head.pdst ≠ kNoReg
    · rw [if_pos hpd, Function.update_apply]
      split
      · exact (h.done_ready _ hhead hpd).trans hd
      · exact h.committed_ready i
    · rw [if_neg hpd]
      exact h.committed_ready i
  · intro i
    by_cases hpd : c.rob.head.pdst ≠ kNoReg
    · rw [if_pos hpd, if_pos hpd, Function.update_apply, Function.update_apply]
      split
      · rfl
      · exact h.committed_val i
    · rw [if_neg hpd, if_neg hpd]
      exact h.committed_val i
  · intro i hi
    rw [he]
    exact h.done_ready i (hlive i hi)
  · intro i hi
    rw [he, hrseq]
    exact h.done_val i (hlive i hi)

/-- The entries that wait to issue name the registers they named. -/
theorem IqSrc.popHead (h : IqSrc c.rob c.mapAt c.prf.ready c.iq) (hb : BackOk c) (hb' : BackOk c')
    (hne : c.rob.empty = false) (hrob : c'.rob = c.rob.popHead) (hm : c'.rmap = c.rmap)
    (hp : c'.prf = c.prf) (hiq : c'.iq = c.iq) : IqSrc c'.rob c'.mapAt c'.prf.ready c'.iq := by
  have he : c'.rob.e = c.rob.e := by rw [hrob]; rfl
  have hrseq : robSeq c'.rob = robSeq c.rob := by
    funext i
    rw [robSeq, he, robSeq]
  rw [hp, hiq]
  have hocc : ∀ s, c.iq.occupied s = true → c'.mapAt (robSeq c.rob s) = c.mapAt (robSeq c.rob s) := by
    intro s ho
    rw [← hiq] at ho
    exact funext (keeps_popHead hb hne hrob hm hp (hb'.iq.names s ho).live).same
  refine ⟨?_, ?_, ?_, ?_⟩
  · intro s ho
    rw [hrseq, he, hocc s ho]
    exact h.ps1 s ho
  · intro s ho
    rw [hrseq, he, hocc s ho]
    exact h.ps2 s ho
  · intro s ho
    rw [he]
    exact h.blocked1 s ho
  · intro s ho
    rw [he]
    exact h.blocked2 s ho

/-- What leaves at the head takes nothing from the entries behind it. -/
theorem ValuesOk.popHead (h : ValuesOk c) (hr : RenameOk c) (hb : BackOk c) (hb' : BackOk c')
    (hne : c.rob.empty = false) (hd : c.rob.head.done = true) (hrob : c'.rob = c.rob.popHead)
    (hm : c'.rmap = c.rmap) (hp : c'.prf = c.prf) (hiq : c'.iq = c.iq) (hu : c'.units = c.units)
    (ha : c'.agus = c.agus) (hlsq : c'.lsq.at' = c.lsq.at')
    (hslots : ∀ j ∈ c'.lsq.ring.slots, j ∈ c.lsq.ring.slots)
    (hlog : resultOf c'.log = resultOf c.log)
    (harch : archRegs c'.commits = if c.rob.head.pdst ≠ kNoReg then
      Function.update (archRegs c.commits) c.rob.head.ins.rd (c.prf.val c.rob.head.pdst)
      else archRegs c.commits) : ValuesOk c' := by
  have hlive : ∀ i ∈ c'.rob.slots, i ∈ c.rob.slots := by
    intro i hi
    rw [hrob, Ring.slots_popHead hb.rob.wf] at hi
    exact List.mem_of_mem_tail hi
  have hkeep := fun {i : Nat} hi => keeps_popHead hb hne hrob hm hp (i := i) hi
  have he : c'.rob.e = c.rob.e := by rw [hrob]; rfl
  have hrseq : robSeq c'.rob = robSeq c.rob := by
    funext i
    rw [robSeq, he, robSeq]
  -- an operation that is still named belongs to an entry behind the head
  have hunits : ∀ {us : List FuUnit}, UnitsVal c.rob c.mapAt c.prf us →
      (∀ u ∈ us, ∀ op ∈ u.ops, OpNames c'.rob op) → UnitsVal c'.rob c'.mapAt c'.prf us := by
    intro us hv hn u hu op hop
    have hnm := hn u hu op hop
    have hk := hkeep hnm.live
    rw [← hrseq, hnm.seq] at hk
    exact (hv u hu op hop).keep hk (by rw [he])
  refine ⟨?_, ?_, ?_, ?_, ?_, ?_⟩
  · exact h.regs.popHead hr hb hne hd hrob hm hp hlog harch
  · exact h.iq.popHead hb hb' hne hrob hm hp hiq
  · intro j hj hst
    have hlr : lsqRob c'.lsq j = lsqRob c.lsq j := by rw [lsqRob, hlsq, lsqRob]
    -- and so does an LSQ entry that is left
    have hseq := hb'.lsq.seq_eq hj
    have hk := hkeep (hb'.lsq.rob_mem hj).1
    rw [hlsq] at hst ⊢
    rw [hlr, he]
    apply (h.stores j (hslots j hj) hst).keep hk
    rw [← hlsq, ← hrseq]
    exact hseq
  · rw [hu]
    apply hunits h.units
    intro u hum op hop
    rw [← hu] at hum
    exact (hb'.units.names u hum op hop).1
  · rw [ha]
    apply hunits h.agus
    intro u hum op hop
    rw [← ha] at hum
    exact (hb'.agus.names u hum op hop).1
  · intro i hi hdone hmem hsys
    rw [he] at hdone hmem hsys ⊢
    exact (h.done i (hlive i hi) hdone hmem hsys).keep (hkeep hi) fun _ => by rw [hp]

/-- A lone system instruction leaves an empty machine. -/
theorem ValuesOk.of_empty (hb' : BackOk c') (hnil : c'.rob.slots = [])
    (hready : ∀ i, c'.prf.ready (c'.cmap i) = true)
    (hval : ∀ i, c'.prf.val (c'.cmap i) = archRegs c'.commits i) : ValuesOk c' := by
  have hno : ∀ i, i ∉ c'.rob.slots := fun i hi => by
    rw [hnil] at hi
    cases hi
  refine ⟨⟨hready, hval, fun i hi => absurd hi (hno i), fun i hi => absurd hi (hno i)⟩, ?_, ?_, ?_,
    ?_, fun i hi => absurd hi (hno i)⟩
  · exact ⟨fun s ho => absurd (hb'.iq.names s ho).live (hno s),
      fun s ho => absurd (hb'.iq.names s ho).live (hno s),
      fun s ho => absurd (hb'.iq.names s ho).live (hno s),
      fun s ho => absurd (hb'.iq.names s ho).live (hno s)⟩
  · exact fun j hj _ => absurd (hb'.lsq.rob_mem hj).1 (hno _)
  · exact fun u hu op hop => absurd (hb'.units.names u hu op hop).1.live (hno _)
  · exact fun u hu op hop => absurd (hb'.agus.names u hu op hop).1.live (hno _)

variable [MemPorts Nat M]

/-- The registers after a system instruction: unchanged, or `a0` rewritten with the value
the record carries. -/
theorem commitSystem_regs {e : RobEntry} {rec rec' : CommitRecord} (hrec : rec.registerWrite = none)
    (h : c.commitSystem e rec = .ok (c', rec')) :
    (c'.prf = c.prf ∧ rec'.registerWrite = none) ∨
      ∃ v, c'.prf = { c.prf with val := Function.update c.prf.val e.sysA0 v } ∧
        (rec'.registerWrite = some ⟨10, v⟩ ∨
          (rec'.registerWrite = none ∧ v = c.prf.val e.sysA0)) := by
  unfold OoOCore.commitSystem at h
  split at h
  · dsimp only at h
    split at h
    · cases h
    · rename_i r hr
      cases h
      refine Or.inr ⟨r.arg, rfl, ?_⟩
      have harg := runSyscall_arg hr
      by_cases hin : syscallReturnsInput (c.prf.val e.sysA7) = true
      · exact Or.inl (if_pos hin)
      · rw [if_neg hin] at harg
        exact Or.inr ⟨if_neg hin, harg⟩
  · cases h
    exact Or.inl ⟨rfl, hrec⟩
  · cases h
    exact Or.inl ⟨rfl, hrec⟩
  · cases h
    exact Or.inl ⟨rfl, hrec⟩

/-- One commit keeps the values right: the mapping of the head becomes the committed one, with the
value it has. -/
theorem ValuesOk.commitOne (h : ValuesOk c) (hr : RenameOk c) (hb : BackOk c) {b : Bool}
    (hne : c.rob.empty = false) (hd : c.rob.head.done = true) (hc : c.commitOne = .ok (c', b)) :
    ValuesOk c' := by
  have hb' := hb.commitOne hne hd hc
  have hhead := headIdx_mem hb hne
  rcases commitOne_cases hc with ⟨rfl, -⟩ | ⟨rec, hs, -⟩ | ⟨hs, -⟩
  · exact h
  · -- a system instruction: the ROB held nothing else
    obtain ⟨ret, prf, pos, hal, ex, hc', hsys⟩ := hs.frame
    have halone := hb.rob.alone _ hhead hs.isSystem
    have hrob : c'.rob = c.rob.popHead := by rw [hc']
    have hprf : c'.prf = prf := by rw [hc']
    have hnil : c'.rob.slots = [] := by
      rw [hrob, Ring.slots_popHead hb.rob.wf, halone]
      rfl
    have hnodest : ¬ c.rob.head.pdst ≠ kNoReg :=
      fun hp => hp ((hb.rob.consistent _ hhead).system_no_dest hs.isSystem)
    -- alone in the ROB and without a destination: the committed map is the current one
    have hcm : c'.cmap = c.cmap := by
      rw [cmap_popHead hr hb hne hrob (by rw [hc']), if_neg hnodest]
    have hrm : c.cmap = c.rmap := by
      rw [← hcm, OoOCore.cmap, Ring.entries, hnil, hc']
      rfl
    have ha0 : c.rob.head.sysA0 = c.cmap 10 := by
      rw [hrm]
      exact (hr.system _ hhead hs.isSystem).1
    have hcom : archRegs c'.commits = rec.applyRegs (archRegs c.commits) := by
      rw [hc', archRegs_append_singleton]
    refine ValuesOk.of_empty hb' hnil ?_ ?_
    · intro i
      rw [hcm, hprf]
      rcases commitSystem_regs rfl hsys with ⟨hp, -⟩ | ⟨v, hp, -⟩
      · rw [show prf = c.prf from hp]
        exact h.regs.committed_ready i
      · rw [show prf = _ from hp]
        exact h.regs.committed_ready i
    · intro i
      rw [hcm, hprf, hcom]
      -- it writes `a0`, or nothing
      rcases commitSystem_regs rfl hsys with ⟨hp, hw⟩ | ⟨v, hp, hw⟩
      · rw [show prf = c.prf from hp, CommitRecord.applyRegs, hw]
        exact h.regs.committed_val i
      · rw [show prf = _ from hp, CommitRecord.applyRegs]
        dsimp only
        rw [ha0, Function.update_apply]
        rcases hw with hw | ⟨hw, hv⟩
        · rw [hw]
          dsimp only
          by_cases hi : i = 10
          · rw [hi, if_pos rfl, if_pos rfl]
          · rw [if_neg (fun he => hi (hr.cmap_inj he)), if_neg hi]
            exact h.regs.committed_val i
        · rw [hw]
          dsimp only
          by_cases hi : i = 10
          · rw [hi, if_pos rfl, hv, ha0]
            exact h.regs.committed_val 10
          · rw [if_neg (fun he => hi (hr.cmap_inj he))]
            exact h.regs.committed_val i
  · -- any other instruction: its result is in its register already
    have hf := hs.frame
    obtain ⟨rest, hh⟩ := hb.headDone hne hd
    have hl := hb.headLeft hh
    have hlsq : c'.lsq = if c.rob.head.isMem then c.lsq.popHead else c.lsq := by rw [hf]
    refine h.popHead hr hb hb' hne hd (by rw [hf]) (by rw [hf]) (by rw [hf]) (by rw [hf])
      (by rw [hf]) (by rw [hf]) ?_ ?_ ?_ ?_
    · rw [hlsq, hl.at_eq]
    · rw [hlsq]
      exact fun j hj => ((hl.mem j).mp hj).1
    · funext n
      rw [show c'.log = c.log ++ [.commit c.opRecord] by rw [hf]]
      exact resultOf_append (fun ev hev => by rw [List.mem_singleton.mp hev]; rfl) n
    · rw [show c'.commits = c.commits ++ [c.opRecord] by rw [hf], archRegs_append_singleton]
      funext i
      rw [CommitRecord.applyRegs, OoOCore.opRecord]
      dsimp only
      by_cases hpd : c.rob.head.pdst ≠ kNoReg
      · rw [if_pos hpd, if_pos hpd, Function.update_apply]
      · rw [if_neg hpd, if_neg hpd]

end Commit

/-! ## Dispatch -/

section Dispatch

variable {M : Type} {c c' : OoOCore M}

/-- The entries in flight read what they read before a dispatch. -/
theorem keeps_dispatch (hr : RenameOk c) (hb : BackOk c) (hroom : OpRoom c)
    (hfree : hasDest (decode c.fetchQ.head.raw) = true → c.freeList.head ≠ kNoReg)
    (hrob : c'.rob = pushRob c.rob (opEntry c c.fetchQ.head))
    (hm : c'.rmap = if hasDest (decode c.fetchQ.head.raw) then
        Function.update c.rmap (decode c.fetchQ.head.raw).rd c.freeList.head else c.rmap)
    {n : Nat} (hn : n ≤ c.seqCtr) :
    Keeps c.mapAt c'.mapAt c.prf (opPrf c (decode c.fetchQ.head.raw)) n := by
  have hmap : c'.mapAt n = c.mapAt n := mapAt_push hb.rob.wf hroom.rob hrob rfl
    (by rw [hm]; exact undo_opEntry rfl hfree) hn
  refine ⟨fun r => congrFun hmap r, fun r hready => ?_, fun _ _ => rfl⟩
  unfold opPrf
  dsimp only
  by_cases hd : hasDest (decode c.fetchQ.head.raw) = true
  · rw [if_pos hd, Function.update_of_ne]
    · exact hready
    · have hmem : c.freeList.head ∈ c.freeList.entries := by
        rw [Ring.entries_eq_cons hr.maps.wf (hroom.freeList hd)]
        exact List.mem_cons_self
      exact (hr.free_ne_mapAt hb hmem n r).symm
  · rw [if_neg hd]
    exact hready

/-- The ready bit of a source in use does not change. -/
theorem opPrf_ready (hr : RenameOk c) (hb : BackOk c) (hroom : OpRoom c) (n : Nat) (r : Reg) :
    (opPrf c (decode c.fetchQ.head.raw)).ready (c.mapAt n r) = c.prf.ready (c.mapAt n r) := by
  unfold opPrf
  dsimp only
  by_cases hd : hasDest (decode c.fetchQ.head.raw) = true
  · have hmem : c.freeList.head ∈ c.freeList.entries := by
      rw [Ring.entries_eq_cons hr.maps.wf (hroom.freeList hd)]
      exact List.mem_cons_self
    rw [if_pos hd, Function.update_of_ne (hr.free_ne_mapAt hb hmem n r).symm]
  · rw [if_neg hd]

theorem opEntry_pdst (c : OoOCore M) (f : Fetched) :
    (opEntry c f).pdst = if hasDest (decode f.raw) then c.freeList.head else kNoReg := rfl

theorem RegsOk.dispatch (h : ValuesOk c) (hr : RenameOk c) (hb : BackOk c) (hroom : OpRoom c)
    {result : Nat → Option Word} (hres : result = resultOf c.log) :
    RegsOk (pushRob c.rob (opEntry c c.fetchQ.head)) c.cmap (opPrf c (decode c.fetchQ.head.raw))
      (archRegs c.commits) result := by
  have hp := pushed hb.rob.wf hroom.rob (opEntry c c.fetchQ.head)
  have hold : ∀ i ∈ c.rob.slots, (c.rob.e i).pdst ≠ kNoReg →
      (opPrf c (decode c.fetchQ.head.raw)).ready (c.rob.e i).pdst = c.prf.ready (c.rob.e i).pdst := by
    intro i hi hne
    unfold opPrf
    dsimp only
    by_cases hd : hasDest (decode c.fetchQ.head.raw) = true
    · have hmem : c.freeList.head ∈ c.freeList.entries := by
        rw [Ring.entries_eq_cons hr.maps.wf (hroom.freeList hd)]
        exact List.mem_cons_self
      rw [if_pos hd, Function.update_of_ne (hr.free_ne_pdst hmem hi hne).symm]
    · rw [if_neg hd]
  refine ⟨?_, h.regs.committed_val, ?_, ?_⟩
  · intro i
    rw [cmap_eq, opPrf_ready hr hb hroom, ← cmap_eq]
    exact h.regs.committed_ready i
  · rw [hp.slots]
    intro i hi hne
    rcases List.mem_append.mp hi with hi | hi
    · rw [hp.old i hi] at hne ⊢
      rw [hold i hi hne]
      exact h.regs.done_ready i hi hne
    · rw [List.mem_singleton.mp hi, hp.new] at hne ⊢
      rw [opEntry_pdst] at hne ⊢
      by_cases hd : hasDest (decode c.fetchQ.head.raw) = true
      · rw [if_pos hd]
        show (if hasDest (decode c.fetchQ.head.raw) then
          Function.update c.prf.ready c.freeList.head false else c.prf.ready) c.freeList.head = false
        rw [if_pos hd, Function.update_self]
      · rw [if_neg hd] at hne
        exact absurd rfl hne
  · rw [hp.slots, hres]
    intro i hi hne hdone
    rcases List.mem_append.mp hi with hi | hi
    · rw [hp.old i hi] at hne hdone ⊢
      rw [hp.seq_old hi]
      exact h.regs.done_val i hi hne hdone
    · rw [List.mem_singleton.mp hi, hp.new] at hdone
      cases hdone

/-- The new entry waits exactly for the gating sources that are not ready. -/
theorem IqSrc.dispatch (h : ValuesOk c) (hr : RenameOk c) (hb : BackOk c) (hroom : OpRoom c)
    {map' : Nat → Reg → Nat} (hmap : ∀ n ≤ c.seqCtr, map' n = c.mapAt n) :
    IqSrc (pushRob c.rob (opEntry c c.fetchQ.head)) map'
      (opPrf c (decode c.fetchQ.head.raw)).ready
      (c.iq.enqueue (opIqEntry c (decode c.fetchQ.head.raw))
        (!usesRs1 (decode c.fetchQ.head.raw).op ||
          (opPrf c (decode c.fetchQ.head.raw)).ready (c.rmap (decode c.fetchQ.head.raw).rs1))
        (!usesRs2 (decode c.fetchQ.head.raw).op || isStore (decode c.fetchQ.head.raw).op ||
          (opPrf c (decode c.fetchQ.head.raw)).ready (c.rmap (decode c.fetchQ.head.raw).rs2))) := by
  have hp := pushed hb.rob.wf hroom.rob (opEntry c c.fetchQ.head)
  obtain ⟨hunocc, -⟩ := hb.slot_unoccupied hroom.rob
  have hnewseq : robSeq (pushRob c.rob (opEntry c c.fetchQ.head)) c.rob.allocIdx = c.seqCtr := by
    rw [robSeq, hp.new]
    rfl
  -- its number is the next, so the map it reads is the current one
  have hnewmap : map' c.seqCtr = c.rmap := by
    rw [hmap _ (Nat.le_refl _), mapAt_seqCtr hb.rob]
  have hslot : c.rob.allocIdx = (opIqEntry c (decode c.fetchQ.head.raw)).robIdx := rfl
  -- the new slot against the map of its number, the old slots as they were
  refine ⟨?_, ?_, ?_, ?_⟩
  · intro s ho
    by_cases hs : s = c.rob.allocIdx
    · subst hs
      rw [enqueue_new, hnewseq, hp.new, hnewmap]
      rfl
    · have ho' := (enqueue_old hs _ _ _).2 ho
      have hl := (hb.iq.names s ho').live
      rw [(enqueue_old hs _ _ _).1, hp.seq_old hl, hp.old s hl, hmap _ (Nat.le_of_lt (hb.rob.seq_lt s hl))]
      exact h.iq.ps1 s ho'
  · intro s ho
    by_cases hs : s = c.rob.allocIdx
    · subst hs
      rw [enqueue_new, hnewseq, hp.new, hnewmap]
      rfl
    · have ho' := (enqueue_old hs _ _ _).2 ho
      have hl := (hb.iq.names s ho').live
      rw [(enqueue_old hs _ _ _).1, hp.seq_old hl, hp.old s hl, hmap _ (Nat.le_of_lt (hb.rob.seq_lt s hl))]
      exact h.iq.ps2 s ho'
  · intro s ho
    rw [IssueQueue.enqueue_blocked1 hb.iq.wf hunocc]
    by_cases hs : s = c.rob.allocIdx
    · subst hs
      rw [if_pos hslot, enqueue_new, hp.new, Bool.not_or, Bool.not_not]
      rfl
    · have ho' := (enqueue_old hs _ _ _).2 ho
      have hl := (hb.iq.names s ho').live
      have hs' : ¬ s = (opIqEntry c (decode c.fetchQ.head.raw)).robIdx := hs
      rw [if_neg hs', (enqueue_old hs _ _ _).1, hp.old s hl, h.iq.blocked1 s ho', h.iq.ps1 s ho',
        opPrf_ready hr hb hroom]
  · intro s ho
    rw [IssueQueue.enqueue_blocked2 hb.iq.wf hunocc]
    by_cases hs : s = c.rob.allocIdx
    · subst hs
      rw [if_pos hslot, enqueue_new, hp.new, Bool.not_or, Bool.not_or, Bool.not_not]
      rfl
    · have ho' := (enqueue_old hs _ _ _).2 ho
      have hl := (hb.iq.names s ho').live
      have hs' : ¬ s = (opIqEntry c (decode c.fetchQ.head.raw)).robIdx := hs
      rw [if_neg hs', (enqueue_old hs _ _ _).1, hp.old s hl, h.iq.blocked2 s ho', h.iq.ps2 s ho',
        opPrf_ready hr hb hroom]

/-- The data register of a dispatched store is its second source. -/
theorem StoreSrc.dispatch (h : ValuesOk c) (hb : BackOk c) (hroom : OpRoom c)
    {map' : Nat → Reg → Nat} (hmap : ∀ n ≤ c.seqCtr, map' n = c.mapAt n)
    (hk : ∀ n ≤ c.seqCtr, Keeps c.mapAt map' c.prf (opPrf c (decode c.fetchQ.head.raw)) n) :
    StoreSrc (pushRob c.rob (opEntry c c.fetchQ.head)) map' (opPrf c (decode c.fetchQ.head.raw))
      (if isMemOp (decode c.fetchQ.head.raw) then
        dispatchLsq c.lsq (opEntry c c.fetchQ.head) c.rob.allocIdx
          (c.rmap (decode c.fetchQ.head.raw).rs2) (opPrf c (decode c.fetchQ.head.raw))
      else c.lsq) := by
  have hp := pushed hb.rob.wf hroom.rob (opEntry c c.fetchQ.head)
  -- an entry that was there keeps its law
  have hold : ∀ j ∈ c.lsq.ring.slots, (c.lsq.at' j).isStore = true →
      DataOk map' (opPrf c (decode c.fetchQ.head.raw))
        ((pushRob c.rob (opEntry c c.fetchQ.head)).e (lsqRob c.lsq j)).ins.rs2 (c.lsq.at' j) := by
    intro j hj hst
    have hl := (hb.lsq.rob_mem hj).1
    rw [hp.old _ hl]
    refine (h.stores j hj hst).keep (hk _ ?_) rfl
    rw [hb.lsq.seq_eq hj]
    exact Nat.le_of_lt (hb.rob.seq_lt _ hl)
  by_cases hm : isMemOp (decode c.fetchQ.head.raw) = true
  · rw [if_pos hm]
    have hq := pushedLsq hb.lsq.wf (hroom.lsq hm) (opEntry c c.fetchQ.head) c.rob.allocIdx
      (c.rmap (decode c.fetchQ.head.raw).rs2) (opPrf c (decode c.fetchQ.head.raw))
    intro j hj hst
    rw [hq.slots] at hj
    rcases List.mem_append.mp hj with hj | hj
    · rw [lsqRob]
      rw [hq.old j hj] at hst ⊢
      exact hold j hj hst
    · rw [List.mem_singleton.mp hj, hq.new] at hst
      rw [List.mem_singleton.mp hj, lsqRob, hq.new]
      have hst' : isStore (decode c.fetchQ.head.raw).op = true := hst
      have hrob : (dispatchedEntry c.lsq (opEntry c c.fetchQ.head) c.rob.allocIdx
          (c.rmap (decode c.fetchQ.head.raw).rs2)
          (opPrf c (decode c.fetchQ.head.raw))).robIdx = c.rob.allocIdx := rfl
      rw [hrob, hp.new]
      refine ⟨?_, ?_⟩
      · show (if isStore (decode c.fetchQ.head.raw).op then
          c.rmap (decode c.fetchQ.head.raw).rs2 else 0xFF) = map' c.seqCtr (decode c.fetchQ.head.raw).rs2
        rw [if_pos hst', hmap _ (Nat.le_refl _), mapAt_seqCtr hb.rob]
      · intro hd
        have hd' : (if isStore (decode c.fetchQ.head.raw).op then
            (opPrf c (decode c.fetchQ.head.raw)).ready (c.rmap (decode c.fetchQ.head.raw).rs2)
          else true) = true := hd
        rw [if_pos hst'] at hd'
        show (opPrf c (decode c.fetchQ.head.raw)).ready (if isStore (decode c.fetchQ.head.raw).op then
            c.rmap (decode c.fetchQ.head.raw).rs2 else 0xFF) = true ∧
          (if isStore (decode c.fetchQ.head.raw).op &&
              (opPrf c (decode c.fetchQ.head.raw)).ready (c.rmap (decode c.fetchQ.head.raw).rs2) then
            (opPrf c (decode c.fetchQ.head.raw)).val (c.rmap (decode c.fetchQ.head.raw).rs2)
          else 0) = (opPrf c (decode c.fetchQ.head.raw)).val
            (if isStore (decode c.fetchQ.head.raw).op then
              c.rmap (decode c.fetchQ.head.raw).rs2 else 0xFF)
        rw [if_pos hst', hst', hd', Bool.and_self, if_pos rfl]
        exact ⟨rfl, rfl⟩
  · rw [if_neg hm]
    exact hold

/-- Dispatching an operation keeps the values right: the new register is unwritten, and no live
instruction reads it. -/
theorem ValuesOk.dispatchOp (h : ValuesOk c) (hr : RenameOk c) (hb : BackOk c) (hroom : OpRoom c)
    (hfree : hasDest (decode c.fetchQ.head.raw) = true → c.freeList.head ≠ kNoReg) :
    ValuesOk (c.dispatchOp c.fetchQ.head (decode c.fetchQ.head.raw)) := by
  have hp := pushed hb.rob.wf hroom.rob (opEntry c c.fetchQ.head)
  rw [dispatchOp_eq]
  generalize hev : (if isStore (decode c.fetchQ.head.raw).op &&
      (opPrf c (decode c.fetchQ.head.raw)).ready (c.rmap (decode c.fetchQ.head.raw).rs2) then
    [Event.capture c.seqCtr (c.prf.val (c.rmap (decode c.fetchQ.head.raw).rs2))] else []) = evs
  -- what a dispatch logs is no result
  have hevs : ∀ ev ∈ [Event.dispatch c.seqCtr (decode c.fetchQ.head.raw) c.rmap] ++ evs,
      ev.isWriteback = false := by
    intro ev hmem
    rw [← hev] at hmem
    rcases List.mem_append.mp hmem with hmem | hmem
    · rw [List.mem_singleton.mp hmem]
      rfl
    · split at hmem
      · rw [List.mem_singleton.mp hmem]
        rfl
      · cases hmem
  have hres : resultOf (c.log ++ [.dispatch c.seqCtr (decode c.fetchQ.head.raw) c.rmap] ++ evs) =
      resultOf c.log := by
    funext n
    rw [List.append_assoc]
    exact resultOf_append hevs n
  -- the new name was free, so no older operand reads it
  have hkeep := fun {d : OoOCore M} (h1 : d.rob = pushRob c.rob (opEntry c c.fetchQ.head)) h2
      {n : Nat} hn => @keeps_dispatch _ c d hr hb hroom hfree h1 h2 n hn
  have hunits : ∀ {us : List FuUnit} {map' : Nat → Reg → Nat},
      (∀ n ≤ c.seqCtr, Keeps c.mapAt map' c.prf (opPrf c (decode c.fetchQ.head.raw)) n) →
      UnitsVal c.rob c.mapAt c.prf us → (∀ u ∈ us, ∀ op ∈ u.ops, OpNames c.rob op) →
      UnitsVal (pushRob c.rob (opEntry c c.fetchQ.head)) map'
        (opPrf c (decode c.fetchQ.head.raw)) us := by
    intro us map' hk hv hn u hu op hop
    have hnm := hn u hu op hop
    refine (hv u hu op hop).keep (hk _ ?_) (by rw [hp.old _ hnm.live])
    rw [← hnm.seq]
    exact Nat.le_of_lt (hb.rob.seq_lt _ hnm.live)
  constructor
  · show RegsOk (pushRob c.rob (opEntry c c.fetchQ.head)) _ (opPrf c (decode c.fetchQ.head.raw))
      (archRegs c.commits) (resultOf _)
    rw [hres]
    -- no committed register has the new name either
    have hcm : ∀ {d : OoOCore M}, d.rob = pushRob c.rob (opEntry c c.fetchQ.head) →
        (d.rmap = if hasDest (decode c.fetchQ.head.raw) then
          Function.update c.rmap (decode c.fetchQ.head.raw).rd c.freeList.head else c.rmap) →
        d.cmap = c.cmap := by
      intro d h1 h2
      rw [cmap_eq, cmap_eq]
      exact funext (hkeep h1 h2 (Nat.zero_le _)).same
    rw [hcm rfl rfl]
    exact RegsOk.dispatch h hr hb hroom rfl
  · exact IqSrc.dispatch h hr hb hroom fun n hn => funext (hkeep rfl rfl hn).same
  · exact StoreSrc.dispatch h hb hroom (fun n hn => funext (hkeep rfl rfl hn).same)
      fun n hn => hkeep rfl rfl hn
  · exact hunits (fun n hn => hkeep rfl rfl hn) h.units fun u hu op hop => (hb.units.names u hu op hop).1
  · exact hunits (fun n hn => hkeep rfl rfl hn) h.agus fun u hu op hop => (hb.agus.names u hu op hop).1
  · intro i hi hdone hmem hsys
    change i ∈ (pushRob c.rob (opEntry c c.fetchQ.head)).slots at hi
    change ((pushRob c.rob (opEntry c c.fetchQ.head)).e i).done = true at hdone
    change ((pushRob c.rob (opEntry c c.fetchQ.head)).e i).isMem = false at hmem
    change ((pushRob c.rob (opEntry c c.fetchQ.head)).e i).isSystem = false at hsys
    show EntryVal _ _ ((pushRob c.rob (opEntry c c.fetchQ.head)).e i)
    rw [hp.slots] at hi
    rcases List.mem_append.mp hi with hi | hi
    · rw [hp.old i hi] at hdone hmem hsys ⊢
      exact (h.done i hi hdone hmem hsys).keep
        (hkeep rfl rfl (Nat.le_of_lt (hb.rob.seq_lt i hi))) fun _ => rfl
    · rw [List.mem_singleton.mp hi, hp.new] at hdone
      cases hdone

theorem ValuesOk.dispatchSystem (h : ValuesOk c) (hb : BackOk c) {first : Bool}
    (hr : SystemRoom c first) :
    ValuesOk (c.dispatchSystem c.fetchQ.head (decode c.fetchQ.head.raw)) := by
  have hb' := hb.dispatchSystem hr
  rw [dispatchSystem_eq] at hb' ⊢
  have hnil := (Ring.empty_iff c.rob).mp hr.robEmpty
  -- a system instruction dispatches into an empty ROB, so nobody else can name an entry
  have hno : ∀ i, i ∉ c.rob.slots := fun i hi => by
    rw [hnil] at hi
    cases hi
  have hp := pushed hb.rob.wf hr.rob (systemEntry c c.fetchQ.head)
  have hres : resultOf (c.log ++ [.dispatch c.seqCtr (decode c.fetchQ.head.raw) c.rmap]) =
      resultOf c.log :=
    funext fun n => resultOf_append (fun ev hev => by rw [List.mem_singleton.mp hev]; rfl) n
  have hone : ∀ i ∈ (pushRob c.rob (systemEntry c c.fetchQ.head)).slots,
      (pushRob c.rob (systemEntry c c.fetchQ.head)).e i = systemEntry c c.fetchQ.head := by
    intro i hi
    rw [hp.slots, hnil] at hi
    rw [List.mem_singleton.mp hi, hp.new]
  have hcm : undo (pushRob c.rob (systemEntry c c.fetchQ.head)).entries c.rmap = c.cmap := by
    rw [pushRob_entries hb.rob.wf hr.rob, OoOCore.cmap, undo_append]
    rfl
  constructor
  · show RegsOk (pushRob c.rob (systemEntry c c.fetchQ.head))
      (undo (pushRob c.rob (systemEntry c c.fetchQ.head)).entries c.rmap) c.prf
      (archRegs c.commits) (resultOf (c.log ++ _))
    rw [hcm, hres]
    refine ⟨h.regs.committed_ready, h.regs.committed_val, ?_, ?_⟩
    · intro i hi hne
      rw [hone i hi] at hne
      exact absurd rfl hne
    · intro i hi hne
      rw [hone i hi] at hne
      exact absurd rfl hne
  · exact ⟨fun s ho => absurd (hb.iq.names s ho).live (hno s),
      fun s ho => absurd (hb.iq.names s ho).live (hno s),
      fun s ho => absurd (hb.iq.names s ho).live (hno s),
      fun s ho => absurd (hb.iq.names s ho).live (hno s)⟩
  · exact fun j hj _ => absurd (hb.lsq.rob_mem hj).1 (hno _)
  · exact fun u hu op hop => absurd (hb.units.names u hu op hop).1.live (hno _)
  · exact fun u hu op hop => absurd (hb.agus.names u hu op hop).1.live (hno _)
  · intro i hi _ _ hsys
    change ((pushRob c.rob (systemEntry c c.fetchQ.head)).e i).isSystem = false at hsys
    rw [hone i hi] at hsys
    cases hsys

end Dispatch

/-! ## Every action -/

section Actions

variable {M : Type} [MemPorts Nat M] {c c' : OoOCore M} {cfg : SimConfig}

/-- Every action keeps the values right. The cases are those of the action, each by its own lemma.
-/
theorem Action.valuesOk (hcfg : cfg.Accepted) (ha : Action c c') (hk : CoreOk cfg c)
    (h : ValuesOk c) : ValuesOk c' := by
  have hb := hk.back
  have hr := hk.rename
  cases ha with
  | commit hne hd _ hc => exact h.commitOne hr hb hne hd hc
  | writeback hne => exact h.writebackOne hr hb hne
  | drain hi => exact h.aguDrainOne hb hi
  | response _ =>
      have h1 : ValuesOk { c with msys := MemPorts.dPop c.msys } := { h with }
      exact h1.dataResponse _
  | popAck _ _ => exact { h with }
  | capture hj => exact h.captureStore hb hj
  | surface _ _ => exact h.surfaceLoad _ _
  | zero _ _ => exact h.completeLoad _ _
  | forward _ _ => exact h.completeLoad _ _
  | sendLoad _ _ _ hs =>
      obtain ⟨m, rfl⟩ := sendLoad_frame hs
      exact { h.issueLoad _ with }
  | sendStore _ _ hs =>
      obtain ⟨m, sb, ctr, rfl⟩ := sendStore_frame hs
      exact { h with }
  | issue hr hs hc => exact h.issueTo hb hr hs hc
  | dispatch hno =>
      rename_i first
      rcases dispatchOne_cases c first with heq | ⟨hroom, heq⟩ | ⟨hroom, heq⟩
      · rw [heq]
        exact h
      · rw [heq]
        exact h.dispatchSystem hb hroom
      · rw [heq]
        exact h.dispatchOp hr hb hroom fun hd => hr.head_ne (hk.config ▸ hcfg) (hroom.freeList hd)
  | consume _ _ =>
      rename_i r _ _
      obtain ⟨m, out, stale, pred, q, pc, heq⟩ := consume_frame c r
      rw [heq]
      exact { h with }
  | request _ _ _ _ _ _ _ => exact { h with }
  | redirect =>
      unfold OoOCore.applyRedirect
      split
      · exact { h with }
      · exact h
  | tickUnits => exact h.tickUnits hb
  | tickMem _ => exact { h with }

end Actions

/-- At reset every register is architectural and holds its initial value. -/
theorem init_valuesOk {M : Type} {cfg : SimConfig} (hcfg : cfg.Accepted) (frames : Bool)
    (inputs : Nat → Word) (histLen : Nat → Nat) (msys : M) :
    ValuesOk (OoOCore.init cfg frames inputs histLen msys) := by
  refine ValuesOk.of_empty (init_backOk frames inputs histLen msys hcfg)
    (init_rob_slots frames inputs histLen msys) ?_ ?_
  · exact fun _ => rfl
  · exact fun _ => rfl

end RvO3
