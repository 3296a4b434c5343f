import RvO3.Core.Recovery

/-!
# Operand values

A physical register is written once in the life of its instruction and is not handed out
again while anyone can still read it. So once the register of a source is ready, its
value is the value of that source for good: the committed one, or the result of the
youngest older instruction in flight that writes it (`srcVal`).

`ValuesOk` is the invariant. Its parts are predicates on the components they read, over
the maps of `mapAt`; `Keeps` says when a step lets an instruction read what it read before.
-/

set_option autoImplicit false

namespace RvO3

open OoOCore

/-! ## What a source should read -/

/-- The value last written back for instruction `seq`. -/
def resultOf (log : List Event) (seq : Nat) : Option Word :=
  log.foldl (fun r ev => match ev with
    | .writeback s v => if s = seq then some v else r
    | _ => r) none

@[simp] theorem resultOf_nil (seq : Nat) : resultOf [] seq = none := rfl

theorem resultOf_writeback (log : List Event) (s : Nat) (v : Word) (seq : Nat) :
    resultOf (log ++ [.writeback s v]) seq = if s = seq then some v else resultOf log seq := by
  simp [resultOf]

/-- Does an event write a result back? -/
def Event.isWriteback : Event → Bool
  | .writeback _ _ => true
  | _ => false

theorem resultOf_append {log evs : List Event} (h : ∀ ev ∈ evs, ev.isWriteback = false) (seq : Nat) :
    resultOf (log ++ evs) seq = resultOf log seq := by
  unfold resultOf
  rw [List.foldl_append]
  generalize List.foldl _ none log = r
  induction evs with
  | nil => rfl
  | cons ev evs ih =>
      rw [List.foldl_cons]
      have hev := h ev List.mem_cons_self
      cases ev with
      | writeback s v => cases hev
      | _ => exact ih fun e he => h e (List.mem_cons_of_mem _ he)

section Source

variable {M : Type}

/-- The youngest instruction in flight, older than `n`, that writes register `r`. -/
def OoOCore.writerOf (c : OoOCore M) (n : Nat) (r : Reg) : Option RobEntry :=
  (olderThan c.rob n).reverse.find? fun e => hasDest e.ins && decide (e.ins.rd = r)

/-- What register `r` should read as for instruction `n`: the result of that writer once
it has one, or the architectural value when there is no such writer. -/
def OoOCore.srcVal (c : OoOCore M) (n : Nat) (r : Reg) : Option Word :=
  match c.writerOf n r with
  | some e => resultOf c.log e.seq
  | none => some (archRegs c.commits r)

end Source

/-! ## The parts of the invariant -/

/-- Committed registers hold the architectural values; the register of an instruction in
flight is ready exactly when the instruction is done, and then holds its result. -/
structure RegsOk (r : Ring RobEntry) (cmap : Reg → Nat) (prf : PhysRegFile) (arch : Reg → Word)
    (result : Nat → Option Word) : Prop where
  committed_ready : ∀ i, prf.ready (cmap i) = true
  committed_val : ∀ i, prf.val (cmap i) = arch i
  done_ready : ∀ i ∈ r.slots, (r.e i).pdst ≠ kNoReg → prf.ready (r.e i).pdst = (r.e i).done
  done_val : ∀ i ∈ r.slots, (r.e i).pdst ≠ kNoReg → (r.e i).done = true →
    result (robSeq r i) = some (prf.val (r.e i).pdst)

/-- The sources of a waiting entry, and the bits that say which it waits for. -/
structure IqSrc (r : Ring RobEntry) (map : Nat → Reg → Nat) (ready : Nat → Bool)
    (iq : IssueQueue) : Prop where
  ps1 : ∀ s, iq.occupied s = true → (iq.e s).ps1 = map (robSeq r s) (r.e s).ins.rs1
  ps2 : ∀ s, iq.occupied s = true → (iq.e s).ps2 = map (robSeq r s) (r.e s).ins.rs2
  blocked1 : ∀ s, iq.occupied s = true →
    iq.blocked1 s = (usesRs1 (r.e s).ins.op && !ready (iq.e s).ps1)
  blocked2 : ∀ s, iq.occupied s = true →
    iq.blocked2 s = (usesRs2 (r.e s).ins.op && !isStore (r.e s).ins.op && !ready (iq.e s).ps2)

/-- A store names its data register, and captured data is that register's value. -/
structure DataOk (map : Nat → Reg → Nat) (prf : PhysRegFile) (rs2 : Reg) (le : LsqEntry) : Prop where
  dataPreg : le.dataPreg = map le.seq rs2
  captured : le.dataReady = true →
    prf.ready le.dataPreg = true ∧ le.data = prf.val le.dataPreg

/-- The data of every store in the LSQ are those of its source register, or still to come from it.
-/
def StoreSrc (r : Ring RobEntry) (map : Nat → Reg → Nat) (prf : PhysRegFile) (q : LSQ) : Prop :=
  ∀ j ∈ q.ring.slots, (q.at' j).isStore = true →
    DataOk map prf (r.e (lsqRob q j)).ins.rs2 (q.at' j)

/-- Register `r` reads as `v` for instruction `n`. -/
structure Reads (map : Nat → Reg → Nat) (prf : PhysRegFile) (n : Nat) (r : Reg) (v : Word) : Prop where
  ready : prf.ready (map n r) = true
  val : prf.val (map n r) = v

/-- What instruction `n` computes from its operands. -/
structure Computes (map : Nat → Reg → Nat) (prf : PhysRegFile) (n : Nat) (I : Instr) (pc : Word)
    (res : ExecResult) : Prop where
  intro ::
  exists_operands : ∃ a b, (usesRs1 I.op = true → Reads map prf n I.rs1 a) ∧
    (usesRs2 I.op = true → isStore I.op = false → Reads map prf n I.rs2 b) ∧
    res = execute I pc a b

/-- The op carries what its instruction computes. -/
def OpVal (r : Ring RobEntry) (map : Nat → Reg → Nat) (prf : PhysRegFile) (op : FuOp) : Prop :=
  Computes map prf op.seq (r.e op.robIdx).ins (r.e op.robIdx).pc ⟨op.value, op.redirect, op.target⟩

/-- The ops in some units have the results that their operands give. -/
def UnitsVal (r : Ring RobEntry) (map : Nat → Reg → Nat) (prf : PhysRegFile)
    (us : List FuUnit) : Prop := ∀ u ∈ us, ∀ op ∈ u.ops, OpVal r map prf op

/-- A done entry holds what its instruction computes. -/
structure EntryVal (map : Nat → Reg → Nat) (prf : PhysRegFile) (e : RobEntry) : Prop where
  intro ::
  exists_result : ∃ res, Computes map prf e.seq e.ins e.pc res ∧
    (e.pdst ≠ kNoReg → prf.val e.pdst = res.value) ∧
    (e.isBranch = true → e.actualTaken = res.redirect ∧
      e.actualTarget = if res.redirect then res.target else e.pc + 4)

/-- The result of every finished instruction is in its register. -/
def DoneVal (r : Ring RobEntry) (map : Nat → Reg → Nat) (prf : PhysRegFile) : Prop :=
  ∀ i ∈ r.slots, (r.e i).done = true → (r.e i).isMem = false → (r.e i).isSystem = false →
    EntryVal map prf (r.e i)

/-- The values in flight: what waits, executes and is done has the operands and results that the
program order gives it. -/
structure ValuesOk {M : Type} (c : OoOCore M) : Prop where
  regs : RegsOk c.rob c.cmap c.prf (archRegs c.commits) (resultOf c.log)
  iq : IqSrc c.rob c.mapAt c.prf.ready c.iq
  stores : StoreSrc c.rob c.mapAt c.prf c.lsq
  units : UnitsVal c.rob c.mapAt c.prf c.units
  agus : UnitsVal c.rob c.mapAt c.prf c.agus
  done : DoneVal c.rob c.mapAt c.prf

/-! ## What they say about sources -/

section Meaning

variable {M : Type} {c : OoOCore M}

/-- The renames and the writers of a register agree. -/
theorem find_rename (es : List RobEntry) (hc : ∀ e ∈ es, e.Consistent) (r : Reg) :
    ((renames es).reverse.find? fun w => decide (w.key = r)).map Write.new =
      (es.reverse.find? fun e => hasDest e.ins && decide (e.ins.rd = r)).map RobEntry.pdst := by
  induction es with
  | nil => rfl
  | cons e es ih =>
      have hcons := hc e List.mem_cons_self
      have ih := ih fun x hx => hc x (List.mem_cons_of_mem _ hx)
      have hr : renames (e :: es) = e.write.toList ++ renames es := by
        rw [← renames_singleton, ← renames_append]
        rfl
      rw [hr, List.reverse_append, List.find?_append, List.reverse_cons, List.find?_append]
      cases hf : List.find? (fun w => decide (w.key = r)) (renames es).reverse with
      | some w =>
          rw [hf] at ih
          cases hg : List.find? (fun e => hasDest e.ins && decide (e.ins.rd = r)) es.reverse with
          | none => rw [hg] at ih; cases ih
          | some x => rw [hg] at ih; exact ih
      | none =>
          rw [hf] at ih
          cases hg : List.find? (fun e => hasDest e.ins && decide (e.ins.rd = r)) es.reverse with
          | some x => rw [hg] at ih; cases ih
          | none =>
              rw [Option.none_or, Option.none_or, RobEntry.write]
              by_cases hd : e.pdst ≠ kNoReg
              · have hd' := hcons.hasDest.mp hd
                rw [if_pos hd]
                by_cases hk : e.ins.rd = r <;> simp [hd', hk]
              · have hd' : hasDest e.ins = false := by
                  rw [← Bool.not_eq_true, ← hcons.hasDest]
                  exact hd
                rw [if_neg hd]
                simp [hd']

/-- The register a source is renamed to is its writer's, or the committed one. -/
theorem mapAt_eq_writer (hr : RenameOk c) (hb : BackOk c) (n : Nat) (r : Reg) :
    c.mapAt n r = match c.writerOf n r with
      | some e => e.pdst
      | none => c.cmap r := by
  rw [(hr.logged_mapAt hb n).apply_eq r, find_rename]
  · rw [OoOCore.writerOf]
    cases List.find? _ (olderThan c.rob n).reverse <;> rfl
  · intro e he
    obtain ⟨i, hi, -, rfl⟩ := mem_olderThan.mp he
    exact hb.rob.consistent i hi

/-- Once the register of a source is ready, it holds the value of the source. -/
theorem ValuesOk.srcVal_eq (h : ValuesOk c) (hr : RenameOk c) (hb : BackOk c) {n : Nat} {r : Reg}
    (hready : c.prf.ready (c.mapAt n r) = true) :
    c.srcVal n r = some (c.prf.val (c.mapAt n r)) := by
  have hm := mapAt_eq_writer hr hb n r
  rw [OoOCore.srcVal]
  cases hw : c.writerOf n r with
  | none =>
      rw [hw] at hm
      rw [hm]
      exact congrArg some (h.regs.committed_val r).symm
  | some e =>
      rw [hw] at hm
      dsimp only at hm ⊢
      have hmem := List.mem_of_find?_eq_some hw
      have hp := List.find?_some hw
      rw [Bool.and_eq_true] at hp
      obtain ⟨i, hi, -, rfl⟩ := mem_olderThan.mp (List.mem_reverse.mp hmem)
      have hne := (hb.rob.consistent i hi).hasDest.mpr hp.1
      rw [hm] at hready ⊢
      rw [h.regs.done_ready i hi hne] at hready
      exact h.regs.done_val i hi hne hready

theorem Reads.srcVal (h : ValuesOk c) (hr : RenameOk c) (hb : BackOk c) {n : Nat} {r : Reg}
    {v : Word} (hv : Reads c.mapAt c.prf n r v) : c.srcVal n r = some v := by
  rw [h.srcVal_eq hr hb hv.ready, hv.val]

end Meaning

/-! ## What a step may not disturb -/

/-- Instruction `n` reads after a step what it read before. -/
structure Keeps (map map' : Nat → Reg → Nat) (prf prf' : PhysRegFile) (n : Nat) : Prop where
  same : ∀ r, map' n r = map n r
  ready : ∀ r, prf.ready (map n r) = true → prf'.ready (map n r) = true
  val : ∀ r, prf.ready (map n r) = true → prf'.val (map n r) = prf.val (map n r)

section Keeps

variable {map map' : Nat → Reg → Nat} {prf prf' : PhysRegFile} {n : Nat}

theorem Keeps.refl (h : ∀ r, map' n r = map n r) : Keeps map map' prf prf n :=
  ⟨h, fun _ hr => hr, fun _ _ => rfl⟩

theorem Reads.keep (hk : Keeps map map' prf prf' n) {r : Reg} {v : Word}
    (h : Reads map prf n r v) : Reads map' prf' n r v := by
  refine ⟨?_, ?_⟩
  · rw [hk.same]
    exact hk.ready r h.ready
  · rw [hk.same, hk.val r h.ready]
    exact h.val

theorem Computes.keep (hk : Keeps map map' prf prf' n) {I : Instr} {pc : Word} {res : ExecResult}
    (h : Computes map prf n I pc res) : Computes map' prf' n I pc res := by
  obtain ⟨a, b, ha, hb, hres⟩ := h.exists_operands
  exact ⟨a, b, fun hu => (ha hu).keep hk, fun hu hs => (hb hu hs).keep hk, hres⟩

theorem DataOk.keep (hk : Keeps map map' prf prf' n) {rs2 : Reg} {le : LsqEntry}
    (h : DataOk map prf rs2 le) (hn : le.seq = n) : DataOk map' prf' rs2 le := by
  subst hn
  refine ⟨by rw [hk.same]; exact h.dataPreg, fun hd => ?_⟩
  obtain ⟨h1, h2⟩ := h.captured hd
  rw [h.dataPreg] at h1 h2 ⊢
  exact ⟨hk.ready rs2 h1, by rw [hk.val rs2 h1]; exact h2⟩

variable {r r' : Ring RobEntry}

theorem OpVal.keep {op : FuOp} (hk : Keeps map map' prf prf' op.seq)
    (hs : (r'.e op.robIdx).static = (r.e op.robIdx).static) (h : OpVal r map prf op) :
    OpVal r' map' prf' op := by
  have h1 : (r'.e op.robIdx).ins = (r.e op.robIdx).ins := (congrArg RobEntry.ins hs :)
  have h2 : (r'.e op.robIdx).pc = (r.e op.robIdx).pc := (congrArg RobEntry.pc hs :)
  rw [OpVal, h1, h2]
  exact Computes.keep hk h

theorem EntryVal.keep {e : RobEntry} (hk : Keeps map map' prf prf' e.seq)
    (hd : e.pdst ≠ kNoReg → prf'.val e.pdst = prf.val e.pdst) (h : EntryVal map prf e) :
    EntryVal map' prf' e := by
  obtain ⟨res, hc, hv, hb⟩ := h.exists_result
  exact ⟨res, hc.keep hk, fun hne => by rw [hd hne]; exact hv hne, hb⟩

end Keeps

end RvO3
