import RvO3.Core.Places
import RvO3.Core.Reset
import Mathlib.Data.List.Sort

/-!
# Writeback arbitration

Each cycle the `wbPorts` oldest results are written back, in program order, up to the
first one that shows a wrong prediction. What `writebackStage` does is stated in one go
from the state before it: `oldestFirst` lists the waiting results by age, the written ones
are a prefix of it (`Wrote`), and every other output slot keeps its result or loses it to
the squash.
-/

set_option autoImplicit false

namespace RvO3

open OoOCore

variable {M : Type} {cfg : SimConfig} {c c' : OoOCore M}

/-! ## What the stage should do -/

/-- The elements up to the first one with the property, which is included. -/
def cutAfter {α : Type} (p : α → Bool) : List α → List α
  | [] => []
  | a :: l => if p a then [a] else a :: cutAfter p l

/-- A register file after a result is written. -/
def PhysRegFile.write (f : PhysRegFile) (op : FuOp) : PhysRegFile :=
  if op.pdst ≠ kNoReg then
    { val := Function.update f.val op.pdst op.value, ready := Function.update f.ready op.pdst true }
  else f

namespace OoOCore

/-- The sequence number of the result in an output slot. -/
def seqOf (c : OoOCore M) (s : OutSlot) : Nat := (c.outAt s).seq

/-- Does writing back this result show a wrong prediction? -/
def wrong (c : OoOCore M) (s : OutSlot) : Bool :=
  let e := resolve (c.rob.e (c.outAt s).robIdx) (c.outAt s)
  e.isBranch && e.mispredicted

/-- The waiting results by age. -/
def oldestFirst (c : OoOCore M) : List OutSlot :=
  c.wbReady.mergeSort fun s t => decide (c.seqOf s ≤ c.seqOf t)

/-- The results `writebackStage` writes back. -/
def written (c : OoOCore M) : List OutSlot :=
  cutAfter c.wrong (c.oldestFirst.take (min c.cfg.wbPorts c.wbReady.length))

end OoOCore

/-- From `c`, the results of `ws` are written back in this order; a wrong prediction is the
last of them, and squashes what is younger. -/
structure Wrote (c c' : OoOCore M) (ws : List OutSlot) : Prop where
  prf : c'.prf = ws.foldl (fun f s => f.write (c.outAt s)) c.prf
  rob : c'.rob.e = ws.foldl (fun e s => Function.update e (c.outAt s).robIdx
    (resolve (e (c.outAt s).robIdx) (c.outAt s))) c.rob.e
  log : c'.log = c.log ++ ws.map (fun s => .writeback (c.seqOf s) (c.outAt s).value) ++
    (ws.filter c.wrong).map fun s => .recover (c.seqOf s)
  written : ∀ s ∈ ws, (c'.outAt s).valid = false
  /-- What is younger than a wrong prediction is discarded. -/
  squashed : ∀ b ∈ ws, c.wrong b = true → ∀ s, c.seqOf b < c.seqOf s → (c'.outAt s).valid = false
  /-- Everything else stays as it is. -/
  kept : ∀ s ∉ ws, (∀ b ∈ ws, c.wrong b = true → c.seqOf s ≤ c.seqOf b) → c'.outAt s = c.outAt s

/-- The pointers of `wbReady` are the output slots that hold a result, each once. -/
structure ReadyExact (c : OoOCore M) : Prop where
  nodup : c.wbReady.Nodup
  mem : ∀ s, s ∈ c.wbReady ↔ (c.outAt s).valid = true

/-- What `writebackStage` does. -/
structure WritesOldest (c : OoOCore M) : Prop where
  perm : c.oldestFirst.Perm c.wbReady
  sorted : (c.oldestFirst.map c.seqOf).Pairwise (· < ·)
  wrote : Wrote c c.writebackStage c.written
  /-- What is older than a wrong prediction is already written. -/
  older : ∀ b ∈ c.written, c.wrong b = true → ∀ s ∈ c.wbReady, c.seqOf s < c.seqOf b →
    s ∈ c.written

/-- The result in this slot is the oldest that waits, and the step writes it back: its register
holds the value, its ROB entry is resolved, and the log says so. -/
structure WrittenBack (c c' : OoOCore M) (s : OutSlot) : Prop where
  oldest : ∀ t ∈ c.wbReady, c.seqOf s ≤ c.seqOf t
  prf : c'.prf = c.prf.write (c.outAt s)
  entry : c'.rob.e (c.outAt s).robIdx = resolve (c.rob.e (c.outAt s).robIdx) (c.outAt s)
  logged : ∃ rest, c'.log = c.log ++ .writeback (c.seqOf s) (c.outAt s).value :: rest

/-- The step squashes the instruction in this slot: it recovers to an older one, and no instruction
younger than that is left in the ROB. -/
def Discarded (c c' : OoOCore M) (s : OutSlot) : Prop :=
  ∃ seq, seq < c.seqOf s ∧ (∃ first, c'.log = c.log ++ first ++ [.recover seq]) ∧
    ∀ j ∈ c'.rob.slots, robSeq c'.rob j ≤ seq

/-- No result is lost or overwritten: each stays as it is in its slot, unless the step writes it back
or squashes its instruction, and then the slot is empty. -/
def KeepsResults (c c' : OoOCore M) : Prop :=
  ∀ s, (c.outAt s).valid = true → c'.outAt s = c.outAt s ∨
    (c'.outAt s).valid = false ∧ (WrittenBack c c' s ∨ Discarded c c' s)

/-! ## The waiting results -/

section Waiting

/-- `wbReady` names each filled output once, and nothing else. -/
theorem BackOk.readyExact (hb : BackOk c) : ReadyExact c := by
  refine ⟨hb.ready.nodup, fun s => ?_⟩
  cases s with
  | unit i => exact hb.ready.mem_unit i
  | load j => exact hb.ready.mem_load j

/-- The place of an output slot. -/
def OutSlot.place : OutSlot → Place
  | .unit i => .out (.wb i)
  | .load j => .loadOut j

/-- Two waiting results have different sequence numbers. -/
theorem BackOk.seqOf_inj (hb : BackOk c) {s t : OutSlot} (hs : s ∈ c.wbReady) (ht : t ∈ c.wbReady)
    (he : c.seqOf s = c.seqOf t) : s = t := by
  have hholds : ∀ u ∈ c.wbReady, c.Holds u.place (c.seqOf u) := by
    intro u hu
    have hv := (hb.readyExact.mem u).mp hu
    cases u with
    | unit i => exact ⟨hv, rfl⟩
    | load j => exact ⟨hv, rfl⟩
  have hplace := (hb.holds_iff (c.seqOf t)).2 _ _ (he ▸ hholds s hs) (hholds t ht)
  cases s <;> cases t <;> cases hplace <;> rfl

/-- Two waiting results have different ROB entries. -/
theorem BackOk.robIdx_inj (hb : BackOk c) {s t : OutSlot} (hs : s ∈ c.wbReady) (ht : t ∈ c.wbReady)
    (he : (c.outAt s).robIdx = (c.outAt t).robIdx) : s = t := by
  apply hb.seqOf_inj hs ht
  rw [OoOCore.seqOf, ← (hb.waiting hs).names.seq, he, (hb.waiting ht).names.seq]
  rfl

theorem oldestFirst_perm (c : OoOCore M) : c.oldestFirst.Perm c.wbReady := List.mergeSort_perm _ _

/-- In age order the waiting results have strictly growing numbers. -/
theorem BackOk.oldestFirst_sorted (hb : BackOk c) :
    (c.oldestFirst.map c.seqOf).Pairwise (· < ·) := by
  have hle : c.oldestFirst.Pairwise fun s t => decide (c.seqOf s ≤ c.seqOf t) = true := by
    apply List.pairwise_mergeSort
    · intro a b d hab hbd
      rw [decide_eq_true_eq] at hab hbd ⊢
      exact Nat.le_trans hab hbd
    · intro a b
      rw [Bool.or_eq_true, decide_eq_true_eq, decide_eq_true_eq]
      exact Nat.le_total _ _
  have hnd : c.oldestFirst.Nodup := (oldestFirst_perm c).nodup_iff.mpr hb.ready.nodup
  rw [List.pairwise_map]
  apply (hle.and hnd).imp_of_mem
  intro s t hs ht hst
  have hs' := (oldestFirst_perm c).mem_iff.mp hs
  have ht' := (oldestFirst_perm c).mem_iff.mp ht
  refine Nat.lt_of_le_of_ne (of_decide_eq_true hst.1) fun he => hst.2 ?_
  exact hb.seqOf_inj hs' ht' he

end Waiting

/-! ## Output slots under the actions -/

section Slots

theorem outAt_dropOut_self {s : OutSlot} (c : OoOCore M) : ((c.dropOut s).outAt s).valid = false := by
  cases s with
  | unit i =>
      show ((c.units.modify i FuUnit.dropOut)[i]?.getD default).out.valid = false
      rw [List.getElem?_modify]
      cases c.units[i]? with
      | none => rfl
      | some u => simp [FuUnit.dropOut, FuOp.invalidate]
  | load j =>
      show ((c.loadOuts.modify j FuOp.invalidate)[j]?.getD {}).valid = false
      rw [List.getElem?_modify]
      cases c.loadOuts[j]? with
      | none => rfl
      | some op => simp [FuOp.invalidate]

theorem outAt_dropOut_ne {s t : OutSlot} (c : OoOCore M) (h : t ≠ s) :
    (c.dropOut s).outAt t = c.outAt t := by
  cases s with
  | unit i =>
      cases t with
      | unit k =>
          have hik : i ≠ k := fun he => h (he ▸ rfl)
          show ((c.units.modify i FuUnit.dropOut)[k]?.getD default).out =
            (c.units[k]?.getD default).out
          rw [List.getElem?_modify]
          cases c.units[k]? with
          | none => rfl
          | some u => simp [hik]
      | load j => rfl
  | load i =>
      cases t with
      | unit k => rfl
      | load k =>
          have hik : i ≠ k := fun he => h (he ▸ rfl)
          show (c.loadOuts.modify i FuOp.invalidate)[k]?.getD {} = c.loadOuts[k]?.getD {}
          rw [List.getElem?_modify]
          cases c.loadOuts[k]? with
          | none => rfl
          | some op => simp [hik]

/-- The output slots are those of the units and the load outputs. -/
theorem outAt_congr (hu : c'.units = c.units) (hl : c'.loadOuts = c.loadOuts) (s : OutSlot) :
    c'.outAt s = c.outAt s := by
  cases s with
  | unit i =>
      unfold OoOCore.outAt
      rw [hu]
  | load j =>
      unfold OoOCore.outAt
      rw [hl]

/-- A squash kills the outputs younger than `seq`, and leaves the others filled. -/
theorem outAt_recover_kill (hb : BackOk c) (seq : Nat) (s : OutSlot) :
    (c.recover seq).outAt s = (c.outAt s).killYounger seq := by
  have hs := recover_spec hb seq
  cases s with
  | unit i =>
      unfold OoOCore.outAt
      dsimp only
      rw [hs.units, List.getElem?_map]
      cases c.units[i]? with
      | none => exact (if_neg (by simp [show (default : FuUnit).out.valid = false from rfl])).symm
      | some u => rfl
  | load j =>
      unfold OoOCore.outAt
      dsimp only
      rw [hs.loadOuts, List.getElem?_map]
      cases c.loadOuts[j]? with
      | none => exact (if_neg (by simp)).symm
      | some op => rfl

theorem KeepsResults.of_eq (h : ∀ s, c'.outAt s = c.outAt s) : KeepsResults c c' :=
  fun s _ => Or.inl (h s)

end Slots

/-! ## One result -/

section One

/-- Writing back the oldest result. -/
theorem outAt_finish_ne (c : OoOCore M) (i : Nat) (op : FuOp) {s t : OutSlot} (h : t ≠ s) :
    ((c.complete i op).dropOut s).outAt t = c.outAt t :=
  (outAt_dropOut_ne _ h).trans (outAt_congr (c := c) rfl rfl t)

theorem finish_prf (c : OoOCore M) (i : Nat) (op : FuOp) (s : OutSlot) :
    ((c.complete i op).dropOut s).prf = c.prf.write op := by
  cases s with
  | unit n => unfold OoOCore.dropOut OoOCore.complete; rfl
  | load n => unfold OoOCore.dropOut OoOCore.complete; rfl

theorem finish_rob (c : OoOCore M) (i : Nat) (op : FuOp) (s : OutSlot) :
    ((c.complete i op).dropOut s).rob = c.rob.set op.robIdx (resolve (c.rob.e op.robIdx) op) := by
  cases s with
  | unit n => unfold OoOCore.dropOut OoOCore.complete; rfl
  | load n => unfold OoOCore.dropOut OoOCore.complete; rfl

theorem finish_log (c : OoOCore M) (i : Nat) (op : FuOp) (s : OutSlot) :
    ((c.complete i op).dropOut s).log = c.log ++ [.writeback op.seq op.value] := by
  cases s with
  | unit n => unfold OoOCore.dropOut OoOCore.complete; rfl
  | load n => unfold OoOCore.dropOut OoOCore.complete; rfl

theorem finish_wbReady (c : OoOCore M) (i : Nat) (op : FuOp) (s : OutSlot) :
    ((c.complete i op).dropOut s).wbReady = swapRemove c.wbReady i := by
  cases s with
  | unit n => unfold OoOCore.dropOut OoOCore.complete; rfl
  | load n => unfold OoOCore.dropOut OoOCore.complete; rfl

/-- The chosen result is the first by age. -/
theorem oldestReady_eq {s : OutSlot} {rest : List OutSlot}
    (hperm : (s :: rest).Perm c.wbReady) (hsorted : ((s :: rest).map c.seqOf).Pairwise (· < ·)) :
    c.wbReady[c.oldestReady]? = some s := by
  have hs : s ∈ c.wbReady := hperm.subset List.mem_cons_self
  obtain ⟨t, ht, hmin⟩ := oldestReady_spec (List.ne_nil_of_mem hs)
  have htm := List.mem_of_getElem? ht
  rw [List.map_cons, List.pairwise_cons] at hsorted
  have hle : c.seqOf t ≤ c.seqOf s := hmin s hs
  rcases List.mem_cons.mp (hperm.symm.subset htm) with rfl | hr
  · exact ht
  · have hlt := hsorted.1 _ (List.mem_map_of_mem hr)
    omega

/-- No wrong prediction: the result leaves, and the others wait as they did. -/
theorem writebackOne_right {s : OutSlot} (hs : c.wbReady[c.oldestReady]? = some s) (hw : c.wrong s = false) :
    c.writebackOne = ((c.complete c.oldestReady (c.outAt s)).dropOut s, false) := by
  unfold OoOCore.writebackOne
  simp only [hs, Option.getD_some]
  apply if_neg
  intro h
  rw [show c.wrong s = true from h] at hw
  cases hw

theorem writebackOne_wrong {s : OutSlot} (hs : c.wbReady[c.oldestReady]? = some s) (hw : c.wrong s = true) :
    c.writebackOne = ((c.complete c.oldestReady (c.outAt s)).mispredict s (c.outAt s)
      (resolve (c.rob.e (c.outAt s).robIdx) (c.outAt s)), true) := by
  unfold OoOCore.writebackOne
  simp only [hs, Option.getD_some]
  exact if_pos hw

/-- What a result still waiting after one was written back says of a prediction. -/
theorem BackOk.wrong_finish (hb : BackOk c) {s t : OutSlot} (i : Nat) (hs : s ∈ c.wbReady)
    (ht : t ∈ c.wbReady) (hne : t ≠ s) :
    ((c.complete i (c.outAt s)).dropOut s).wrong t = c.wrong t := by
  have hidx : (c.outAt t).robIdx ≠ (c.outAt s).robIdx := fun he => hne (hb.robIdx_inj ht hs he)
  unfold OoOCore.wrong
  rw [outAt_finish_ne c i _ hne, finish_rob, Ring.set_e, Function.update_of_ne hidx]

/-- A wrong prediction ends the stage. -/
theorem Wrote.single (hb : BackOk c) {s : OutSlot} (hs : c.wbReady[c.oldestReady]? = some s)
    (hw : c.wrong s = true) : Wrote c c.writebackOne.1 [s] := by
  have hb1 := (hb.finishResult hs).mispredictCall
    (resolve (c.rob.e (c.outAt s).robIdx) (c.outAt s))
  rw [writebackOne_wrong hs hw, mispredict_eq]
  have hrec := recover_spec hb1 (c.outAt s).seq
  generalize hc1 : (c.complete c.oldestReady (c.outAt s)).mispredictCall s
    (resolve (c.rob.e (c.outAt s).robIdx) (c.outAt s)) = c₁ at hb1 hrec
  -- the call leaves everything but the predictor as writing the result back left it
  have hcall : c₁.units = ((c.complete c.oldestReady (c.outAt s)).dropOut s).units ∧
      c₁.loadOuts = ((c.complete c.oldestReady (c.outAt s)).dropOut s).loadOuts ∧
      c₁.prf = c.prf.write (c.outAt s) ∧
      c₁.rob = c.rob.set (c.outAt s).robIdx
        (resolve (c.rob.e (c.outAt s).robIdx) (c.outAt s)) ∧
      c₁.log = c.log ++ [.writeback (c.outAt s).seq (c.outAt s).value] := by
    rw [← hc1]
    cases s with
    | unit n => unfold OoOCore.mispredictCall OoOCore.dropOut OoOCore.complete; exact ⟨rfl, rfl, rfl, rfl, rfl⟩
    | load n => unfold OoOCore.mispredictCall OoOCore.dropOut OoOCore.complete; exact ⟨rfl, rfl, rfl, rfl, rfl⟩
  obtain ⟨hu, hl, hprf, hrob, hlog⟩ := hcall
  have hout : ∀ (target : Word) (t : OutSlot), ({ c₁.recover (c.outAt s).seq with
      pendRedirect := true, pendTarget := target } : OoOCore M).outAt t =
      (((c.complete c.oldestReady (c.outAt s)).dropOut s).outAt t).killYounger (c.outAt s).seq := by
    intro target t
    rw [← outAt_congr hu hl t, ← outAt_recover_kill hb1]
    exact outAt_congr rfl rfl t
  refine ⟨?_, ?_, ?_, ?_, ?_, ?_⟩
  · show (c₁.recover (c.outAt s).seq).prf = _
    rw [recover_prf hb1, hprf]
    rfl
  · show (c₁.recover (c.outAt s).seq).rob.e = _
    rw [hrec.rob.e, hrob]
    rfl
  · show (c₁.recover (c.outAt s).seq).log = _
    rw [hrec.log, hlog, List.filter_cons_of_pos hw, List.filter_nil]
    rfl
  · intro t ht
    rw [List.mem_singleton.mp ht, hout]
    have hv := outAt_dropOut_self (s := s) (c.complete c.oldestReady (c.outAt s))
    unfold FuOp.killYounger
    split
    · rfl
    · exact hv
  · intro b hbm _ t hlt
    rw [List.mem_singleton.mp hbm] at hlt
    have hne : t ≠ s := fun he => by
      rw [he] at hlt
      exact Nat.lt_irrefl _ hlt
    rw [hout, outAt_finish_ne c _ _ hne]
    unfold FuOp.killYounger
    split
    · rfl
    · rename_i hk
      rw [← Bool.not_eq_true]
      exact fun hv => hk ⟨hv, hlt⟩
  · intro t ht hle
    have hne : t ≠ s := fun he => ht (he ▸ List.mem_cons_self)
    have hseq : (c.outAt t).seq ≤ (c.outAt s).seq := hle s List.mem_cons_self hw
    rw [hout, outAt_finish_ne c _ _ hne]
    exact if_neg fun hk => absurd hk.2 (by omega)

/-- A result written back before others. -/
theorem Wrote.cons (hb : BackOk c) {s : OutSlot} (hs : c.wbReady[c.oldestReady]? = some s)
    (hw : c.wrong s = false) {ws : List OutSlot} (hws : ∀ t ∈ ws, t ∈ c.wbReady ∧ t ≠ s)
    (h : Wrote c.writebackOne.1 c' ws) : Wrote c c' (s :: ws) := by
  have hsm := List.mem_of_getElem? hs
  rw [writebackOne_right hs hw] at h
  generalize hc1 : ((c.complete c.oldestReady (c.outAt s)).dropOut s, false).1 = c₁ at h
  have hout : ∀ t, t ≠ s → c₁.outAt t = c.outAt t := by
    intro t ht
    rw [← hc1]
    exact outAt_finish_ne c _ _ ht
  have hwrong : ∀ t ∈ ws, c₁.wrong t = c.wrong t := by
    intro t ht
    rw [← hc1]
    exact hb.wrong_finish _ hsm (hws t ht).1 (hws t ht).2
  have hseq : ∀ t, t ≠ s → c₁.seqOf t = c.seqOf t := fun t ht => congrArg FuOp.seq (hout t ht)
  have hgone : (c₁.outAt s).valid = false := by
    rw [← hc1]
    exact outAt_dropOut_self _
  have hnot : s ∉ ws := fun hm => (hws s hm).2 rfl
  -- the slot is empty now, and the rest of the stage does not fill it
  have hempty : (c'.outAt s).valid = false := by
    by_cases hlt : ∃ b ∈ ws, c₁.wrong b = true ∧ c₁.seqOf b < c₁.seqOf s
    · obtain ⟨b, hbm, hbw, hlt⟩ := hlt
      exact h.squashed b hbm hbw s hlt
    · rw [h.kept s hnot fun b hbm hbw => Nat.le_of_not_lt fun hl => hlt ⟨b, hbm, hbw, hl⟩]
      exact hgone
  refine ⟨?_, ?_, ?_, ?_, ?_, ?_⟩
  · rw [h.prf, List.foldl_cons, ← hc1, finish_prf]
    apply List.foldl_ext _ _ _
    intro f t ht
    rw [outAt_finish_ne c _ _ (hws t ht).2]
  · rw [h.rob, List.foldl_cons, ← hc1, finish_rob]
    apply List.foldl_ext _ _ _
    intro f t ht
    rw [outAt_finish_ne c _ _ (hws t ht).2]
  · rw [h.log, ← hc1, finish_log, hc1, List.map_cons, List.filter_cons_of_neg (by rw [hw]; simp),
      List.filter_congr hwrong, List.append_assoc c.log]
    congr 1
    · congr 1
      rw [List.singleton_append]
      congr 1
      exact List.map_congr_left fun t ht => by rw [hseq t (hws t ht).2, hout t (hws t ht).2]
    · apply List.map_congr_left
      intro t ht
      rw [hseq t (hws t (List.mem_of_mem_filter ht)).2]
  · intro t ht
    rcases List.mem_cons.mp ht with rfl | ht
    · exact hempty
    · exact h.written t ht
  · intro b hbm hbw t hlt
    rcases List.mem_cons.mp hbm with rfl | hbm
    · rw [hw] at hbw
      cases hbw
    · have hbs := (hws b hbm).2
      by_cases hts : t = s
      · rw [hts]
        exact hempty
      · apply h.squashed b hbm ((hwrong b hbm).trans hbw) t
        rw [hseq b hbs, hseq t hts]
        exact hlt
  · intro t ht hle
    rw [List.mem_cons, not_or] at ht
    rw [h.kept t ht.2, hout t ht.1]
    intro b hbm hbw
    rw [hseq t ht.1, hseq b (hws b hbm).2]
    exact hle b (List.mem_cons_of_mem _ hbm) ((hwrong b hbm).symm.trans hbw)

theorem cutAfter_subset {α : Type} (p : α → Bool) (l : List α) : ∀ a ∈ cutAfter p l, a ∈ l := by
  induction l with
  | nil => exact nofun
  | cons b l ih =>
      intro a ha
      unfold cutAfter at ha
      split at ha
      · exact List.mem_cons.mpr (Or.inl (List.mem_singleton.mp ha))
      · exact List.mem_cons.mpr ((List.mem_cons.mp ha).imp id (ih a))

theorem cutAfter_congr {α : Type} {p q : α → Bool} {l : List α} (h : ∀ a ∈ l, p a = q a) :
    cutAfter p l = cutAfter q l := by
  induction l with
  | nil => rfl
  | cons a l ih =>
      rw [cutAfter, cutAfter, h a List.mem_cons_self, ih fun b hb => h b (List.mem_cons_of_mem _ hb)]

theorem Wrote.nil (c : OoOCore M) : Wrote c c [] :=
  ⟨rfl, rfl, by simp, nofun, nofun, fun _ _ _ => rfl⟩

/-- The loop writes back the first `n` results by age, up to a wrong prediction. -/
theorem writebackLoop_wrote (n : Nat) : ∀ {c : OoOCore M} {order : List OutSlot}, BackOk c →
    order.Perm c.wbReady → (order.map c.seqOf).Pairwise (· < ·) → n ≤ order.length →
    Wrote c (writebackLoop n c) (cutAfter c.wrong (order.take n)) := by
  -- on the width, for every core and every order of its results
  induction n with
  | zero => exact fun _ _ _ _ => Wrote.nil _
  | succ n ih =>
      intro c order hb hperm hsorted hlen
      cases order with
      | nil => cases hlen
      | cons s rest =>
          have hs := oldestReady_eq hperm hsorted
          have hsm := List.mem_of_getElem? hs
          rw [List.take_succ_cons, cutAfter, writebackLoop]
          cases hw : c.wrong s with
          | true =>
              have hone := Wrote.single hb hs hw
              -- a wrong prediction ends the group: the rest is squashed or waits
              rw [writebackOne_wrong hs hw] at hone ⊢
              exact hone
          | false =>
              have hnd : (s :: rest).Nodup := hperm.nodup_iff.mpr hb.ready.nodup
              have hb1 := hb.finishResult hs
              rw [List.map_cons, List.pairwise_cons] at hsorted
              have hmem : ∀ t ∈ rest, t ∈ c.wbReady ∧ t ≠ s := by
                intro t ht
                refine ⟨hperm.subset (List.mem_cons_of_mem _ ht), fun he => ?_⟩
                exact (List.nodup_cons.mp hnd).1 (he ▸ ht)
              -- the oldest result is swapped out; what is left is in the same order
              have hperm1 : rest.Perm ((c.complete c.oldestReady (c.outAt s)).dropOut s).wbReady := by
                rw [finish_wbReady]
                exact List.Perm.cons_inv (hperm.trans (swapRemove_perm hs))
              have hseq1 : rest.map ((c.complete c.oldestReady (c.outAt s)).dropOut s).seqOf =
                  rest.map c.seqOf :=
                List.map_congr_left fun t ht =>
                  congrArg FuOp.seq (outAt_finish_ne c _ _ (hmem t ht).2)
              have hrest := ih hb1 hperm1 (hseq1 ▸ hsorted.2) (Nat.le_of_succ_le_succ hlen)
              -- the other results are as wrong as they were
              have hcut : cutAfter ((c.complete c.oldestReady (c.outAt s)).dropOut s).wrong
                  (rest.take n) = cutAfter c.wrong (rest.take n) :=
                cutAfter_congr fun t ht => by
                  obtain ⟨h1, h2⟩ := hmem t (List.mem_of_mem_take ht)
                  exact hb.wrong_finish _ hsm h1 h2
              rw [hcut] at hrest
              have hone := writebackOne_right hs hw
              have hws : ∀ t ∈ cutAfter c.wrong (rest.take n), t ∈ c.wbReady ∧ t ≠ s :=
                fun t ht => hmem t (List.mem_of_mem_take (cutAfter_subset _ _ t ht))
              apply Wrote.cons hb hs hw hws
              rw [hone]
              exact hrest

/-- In a list sorted by `f`, what is smaller than an element of a prefix is in the prefix. -/
theorem mem_cutAfter_of_lt {α : Type} {f : α → Nat} {p : α → Bool} {n : Nat} {l : List α}
    (hl : (l.map f).Pairwise (· < ·)) {a b : α} (hb : b ∈ cutAfter p (l.take n)) (ha : a ∈ l)
    (hlt : f a < f b) : a ∈ cutAfter p (l.take n) := by
  induction l generalizing n with
  | nil => cases ha
  | cons x l ih =>
      cases n with
      | zero => cases hb
      | succ n =>
          rw [List.map_cons, List.pairwise_cons] at hl
          rw [List.take_succ_cons, cutAfter] at hb ⊢
          have hbx : b ∈ l → f x < f b := fun hm => hl.1 _ (List.mem_map_of_mem hm)
          rcases List.mem_cons.mp ha with rfl | ha
          · split <;> exact List.mem_cons_self
          · have hax : f x < f a := hl.1 _ (List.mem_map_of_mem ha)
            split at hb
            · rw [List.mem_singleton.mp hb] at hlt
              omega
            · rename_i hp
              rw [if_neg hp]
              rcases List.mem_cons.mp hb with rfl | hb
              · omega
              · exact List.mem_cons_of_mem _ (ih hl.2 hb ha)

/-- The results a cycle writes are the oldest ones that wait, one a port, up to the first
mispredict. -/
theorem BackOk.writesOldest (hb : BackOk c) : WritesOldest c := by
  have hperm := oldestFirst_perm c
  have hsorted := hb.oldestFirst_sorted
  refine ⟨hperm, hsorted, ?_, ?_⟩
  · apply writebackLoop_wrote _ hb hperm hsorted
    rw [hperm.length_eq]
    exact Nat.min_le_right _ _
  · intro b hbm _ s hs hlt
    exact mem_cutAfter_of_lt hsorted hbm (hperm.symm.subset hs) hlt

end One

/-! ## No result is overwritten -/

section Keeps

/-- After a recovery nothing younger is live. -/
theorem recover_robSeq_le {d : OoOCore M} (hb : BackOk d) {seq j : Nat} (hj : j ∈ (d.recover seq).rob.slots) :
    robSeq (d.recover seq).rob j ≤ seq := by
  have hrec := recover_spec hb seq
  unfold robSeq
  rw [hrec.rob.e]
  exact (hrec.rob.mem.mp hj).2

/-- A squash after a step that emptied no slot. -/
theorem keepsResults_recover {d : OoOCore M} (hb : BackOk d) (seq : Nat) (p : Bool) (target : Word)
    (hout : ∀ s, d.outAt s = c.outAt s) (hlog : ∃ first, d.log = c.log ++ first) :
    KeepsResults c { d.recover seq with pendRedirect := p, pendTarget := target } := by
  have hrec := recover_spec hb seq
  intro s hs
  have hkill : ({ d.recover seq with pendRedirect := p, pendTarget := target } : OoOCore M).outAt s =
      (c.outAt s).killYounger seq :=
    ((outAt_congr rfl rfl s).trans (outAt_recover_kill hb seq s)).trans (by rw [hout])
  rw [hkill]
  unfold FuOp.killYounger
  split
  · rename_i hy
    obtain ⟨first, hfirst⟩ := hlog
    refine Or.inr ⟨rfl, Or.inr ⟨seq, hy.2, ⟨first, ?_⟩, fun j hj => ?_⟩⟩
    · rw [← hfirst]
      exact hrec.log
    · exact recover_robSeq_le hb hj
  · exact Or.inl rfl

theorem keepsResults_violationScan {d : OoOCore M} (hb : BackOk d) (store : LsqEntry)
    (hout : ∀ s, d.outAt s = c.outAt s) (hlog : ∃ first, d.log = c.log ++ first) :
    KeepsResults c (d.violationScan store) := by
  cases hv : d.violationVictim store with
  | none =>
      rw [violationScan_none hv]
      exact KeepsResults.of_eq hout
  | some slot =>
      rw [violationScan_eq hv]
      have hb' : BackOk (d.replayCall slot) := { hb with }
      exact keepsResults_recover hb' _ _ _ (fun s => (outAt_congr rfl rfl s).trans (hout s)) hlog

/-- One result is written back, right or wrong. -/
theorem writebackOne_wrote (hb : BackOk c) (hne : c.wbReady ≠ []) :
    ∃ s, c.wbReady[c.oldestReady]? = some s ∧ (∀ t ∈ c.wbReady, c.seqOf s ≤ c.seqOf t) ∧
      Wrote c c.writebackOne.1 [s] := by
  obtain ⟨s, hs, hmin⟩ := oldestReady_spec hne
  refine ⟨s, hs, hmin, ?_⟩
  cases hw : c.wrong s with
  | true => exact Wrote.single hb hs hw
  | false => exact Wrote.cons hb hs hw nofun (Wrote.nil _)

/-- One write back empties the slot it wrote, and a recovery the slots it squashed. -/
theorem keepsResults_writebackOne (hb : BackOk c) (hne : c.wbReady ≠ []) : KeepsResults c c.writebackOne.1 := by
  obtain ⟨s, hs, hmin, hwrote⟩ := writebackOne_wrote hb hne
  intro t _
  by_cases hts : t = s
  · subst hts
    refine Or.inr ⟨hwrote.written t List.mem_cons_self, Or.inl ⟨hmin, hwrote.prf, ?_, ?_⟩⟩
    · rw [hwrote.rob, List.foldl_cons, List.foldl_nil, Function.update_self]
    · rw [hwrote.log, List.append_assoc]
      exact ⟨_, rfl⟩
  · by_cases hy : c.wrong s = true ∧ c.seqOf s < c.seqOf t
    · -- the wrong prediction squashes what is younger
      refine Or.inr ⟨hwrote.squashed s List.mem_cons_self hy.1 t hy.2, Or.inr ⟨c.seqOf s, hy.2, ?_, fun j hj => ?_⟩⟩
      · rw [hwrote.log, List.filter_cons_of_pos hy.1]
        exact ⟨_, rfl⟩
      · have hb1 := (hb.finishResult hs).mispredictCall (resolve (c.rob.e (c.outAt s).robIdx) (c.outAt s))
        rw [writebackOne_wrong hs hy.1, mispredict_eq] at hj ⊢
        exact recover_robSeq_le hb1 hj
    · left
      apply hwrote.kept t (fun hm => hts (List.mem_singleton.mp hm))
      intro b hbm hbw
      rw [List.mem_singleton.mp hbm] at hbw ⊢
      exact Nat.le_of_not_lt fun hlt => hy ⟨hbw, hlt⟩

/-- A tick empties no output. -/
theorem keepsResults_tickUnits (hb : BackOk c) : KeepsResults c c.tickUnits := by
  intro s hs
  left
  cases s with
  | load j => rfl
  | unit i =>
      obtain ⟨u, hu, hv⟩ := getElem?_of_out_valid hs
      obtain ⟨-, -, h3, h4⟩ := FuUnit.tick_spec (hb.units.wf u (List.mem_of_getElem? hu))
      have hno : u.tick.2 = false := by
        rw [← Bool.not_eq_true]
        intro ht
        rw [(h3 ht).1] at hv
        cases hv
      show ((c.units.map fun u : FuUnit => u.tick.1)[i]?.getD default).out = (c.units[i]?.getD default).out
      rw [List.getElem?_map, hu]
      exact h4 hno

/-- Surfacing a load fills an empty output, and empties none. -/
theorem keepsResults_surfaceLoad (c : OoOCore M) (slot : Nat) {k : Nat}
    (hk : k ≤ c.loadOuts.length) : KeepsResults c (c.surfaceLoad slot k).1 := by
  obtain ⟨-, hfree⟩ := nextOutput_spec hk
  unfold OoOCore.surfaceLoad
  dsimp only
  split
  · split
    · exact KeepsResults.of_eq fun _ => rfl
    · rename_i hj
      obtain ⟨op, hop, hinv⟩ := hfree hj
      intro s hs
      left
      cases s with
      | unit i => rfl
      | load j =>
          -- the slot that is filled was empty
          have hne : nextOutput c.loadOuts k ≠ j := by
            intro he
            rw [he] at hop
            have hs' : (c.loadOuts[j]?.getD {}).valid = true := hs
            rw [hop] at hs'
            rw [show (Option.getD (some op) {} : FuOp) = op from rfl, hinv] at hs'
            cases hs'
          show ((c.loadOuts.set (nextOutput c.loadOuts k) _)[j]?.getD {}) = c.loadOuts[j]?.getD {}
          rw [List.getElem?_set_ne hne]
  · exact KeepsResults.of_eq fun _ => rfl

theorem keepsResults_issueTo (c : OoOCore M) (slot : Nat) (u : UnitRef) :
    KeepsResults c (c.issueTo slot u) := by
  apply KeepsResults.of_eq
  intro s
  cases u with
  | agu i => exact outAt_congr rfl rfl s
  | wb i =>
      cases s with
      | load j => rfl
      | unit k =>
          show ((c.units.modify i fun u => u.accept _)[k]?.getD default).out =
            (c.units[k]?.getD default).out
          rw [List.getElem?_modify]
          cases c.units[k]? with
          | none => rfl
          | some v =>
              by_cases hik : i = k
              · simp [hik]
              · simp [hik]

variable [MemPorts Nat M]

/-- Every action keeps the results it does not write back or squash. -/
theorem Action.keepsResults (ha : Action c c') (hb : BackOk c) : KeepsResults c c' := by
  cases ha with
  -- the four that touch outputs: writeback, drain, surface and the tick
  | writeback hne => exact keepsResults_writebackOne hb hne
  | @drain i hi =>
      have h1 : ∀ s, (c.fillOne i).outAt s = c.outAt s := fun s => outAt_congr rfl rfl s
      unfold OoOCore.aguDrainOne
      dsimp only
      split
      · exact keepsResults_violationScan (hb.fillOne hi) _ h1 ⟨_, rfl⟩
      · exact KeepsResults.of_eq h1
  | @surface slot k _ hk => exact keepsResults_surfaceLoad c slot hk
  | @issue slot u _ _ _ => exact keepsResults_issueTo c slot u
  | tickUnits => exact keepsResults_tickUnits hb
  | commit _ _ _ hc =>
      apply KeepsResults.of_eq
      intro s
      rcases commitOne_cases hc with ⟨rfl, -⟩ | ⟨rec, hs, -⟩ | ⟨hs, -⟩
      · rfl
      · obtain ⟨ret, prf, pos, hal, ex, rfl, -⟩ := hs.frame
        exact outAt_congr rfl rfl s
      · have hu : c'.units = c.units := (congrArg OoOCore.units hs.frame :)
        have hl : c'.loadOuts = c.loadOuts := (congrArg OoOCore.loadOuts hs.frame :)
        exact outAt_congr hu hl s
  | response _ =>
      apply KeepsResults.of_eq
      intro s
      unfold OoOCore.dataResponse
      split <;> exact outAt_congr rfl rfl s
  | capture _ =>
      apply KeepsResults.of_eq
      intro s
      unfold OoOCore.captureStore
      dsimp only
      split
      · split <;> exact outAt_congr rfl rfl s
      · rfl
  | sendLoad _ _ _ hs =>
      obtain ⟨m, rfl⟩ := sendLoad_frame hs
      exact KeepsResults.of_eq fun s => outAt_congr rfl rfl s
  | sendStore _ _ hs =>
      obtain ⟨m, sb, ctr, rfl⟩ := sendStore_frame hs
      exact KeepsResults.of_eq fun s => outAt_congr rfl rfl s
  | @dispatch first _ =>
      apply KeepsResults.of_eq
      intro s
      rcases dispatchOne_cases c first with heq | ⟨-, heq⟩ | ⟨-, heq⟩
      · rw [heq]
      · rw [heq]
        exact outAt_congr rfl rfl s
      · rw [heq, dispatchOp_eq]
        exact outAt_congr rfl rfl s
  | @consume r _ _ =>
      obtain ⟨m, out, stale, pred, q, pc, heq⟩ := consume_frame c r
      rw [heq]
      exact KeepsResults.of_eq fun s => outAt_congr rfl rfl s
  | redirect =>
      apply KeepsResults.of_eq
      intro s
      unfold OoOCore.applyRedirect
      split
      · exact outAt_congr rfl rfl s
      · rfl
  | popAck _ _ => exact KeepsResults.of_eq fun s => outAt_congr rfl rfl s
  | zero _ _ => exact KeepsResults.of_eq fun s => outAt_congr rfl rfl s
  | forward _ _ => exact KeepsResults.of_eq fun s => outAt_congr rfl rfl s
  | request _ _ _ _ _ _ _ => exact KeepsResults.of_eq fun s => outAt_congr rfl rfl s
  | tickMem _ => exact KeepsResults.of_eq fun s => outAt_congr rfl rfl s

/-- Writeback arbitration: between stages `wbReady` holds the filled output slots, each once; the
stage writes the oldest results in order, up to a wrong prediction; and no result is overwritten. A
slot that any step empties was written back, or what it held was squashed. -/
theorem writeback_arbitration (hcfg : cfg.Accepted) (frames : Bool) (inputs : Nat → Word)
    (histLen : Nat → Nat) (msys : M) :
    (∀ ph c, Reach (OoOCore.init cfg frames inputs histLen msys) ph c → ReadyExact c) ∧
    (∀ c, Reach (OoOCore.init cfg frames inputs histLen msys) .committed c → WritesOldest c) ∧
    ∀ c c', Actions (OoOCore.init cfg frames inputs histLen msys) c → Action c c' →
      KeepsResults c c' := by
  have hk₀ := init_coreOk frames inputs histLen msys hcfg
  refine ⟨?_, ?_, ?_⟩
  · exact fun ph c h => (h.coreOk hcfg hk₀).back.readyExact
  · exact fun c h => (h.coreOk hcfg hk₀).back.writesOldest
  · exact fun c c' h ha => ha.keepsResults (h.coreOk hcfg hk₀).back

end Keeps

/-- In the sixteenth cycle two results wait, and the older one is that of the branch that was
predicted wrong: it is written back, and the other one is squashed. -/
theorem writeback_arbitration_busy : ∃ c, Reach busyCore .committed c ∧
    c.wbReady = [.unit 0, .unit 2] ∧ c.wbReady.map c.seqOf = [7, 6] ∧ c.wrong (.unit 2) = true ∧
    ReadyExact c ∧ WritesOldest c ∧ KeepsResults c c.writebackOne.1 := by
  obtain ⟨c, hr, hp⟩ := Reach.eval busyCore 121 .committed
    (p := fun c => decide (c.wbReady = [.unit 0, .unit 2] ∧ c.wbReady.map c.seqOf = [7, 6] ∧
      c.wrong (.unit 2) = true)) (by decide +kernel)
  obtain ⟨hready, hseq, hwrong⟩ := of_decide_eq_true hp
  have hne : c.wbReady ≠ [] := by
    rw [hready]
    exact List.cons_ne_nil _ _
  have harb := writeback_arbitration busyConfig_accepted false (fun _ => 0) (fun _ => 0)
    (MemorySystem.init busyConfig fun a => wordByte (busyProgram (a / 4)) (a % 4))
  have hacts := hr.actions busyConfig_accepted (init_coreOk _ _ _ _ busyConfig_accepted)
  exact ⟨c, hr, hready, hseq, hwrong, harb.1 _ c hr, harb.2.1 c hr, harb.2.2 c _ hacts (.writeback hne)⟩

end RvO3
