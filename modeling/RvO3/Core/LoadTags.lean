import RvO3.Core.LoadOrder

/-!
# The tags of loads

A load is known to the data port by its slot and the generation of the slot, a counter of
16 bits. The one way to give a load the data of another is that the counter comes round
while an answer is on its way. So when each slot is taken for a generation that no answer carries
which is still owed (`TakesFresh`), an answer reaches only the load that it answers (`Matched.step`).
-/

set_option autoImplicit false

namespace RvO3

open OoOCore

section Tags

variable {M : Type} [MemPorts Nat M] {cfg : SimConfig} {p : PortInOrder cfg M} {image : Nat → Byte}
  {c c' : OoOCore M} {l : Nat}

/-- A response that echoes the tag of a load names its slot and its generation. -/
theorem NamesLoad.of_tag {q : LSQ} {r : MemResponse Nat} {slot gen : Nat} (htags : q.TagOk) (hwf : q.Wf)
    (hlive : slot ∈ q.ring.slots) (htag : r.tag = loadTag slot (q.at' slot).gen) (hn : NamesLoad r l gen) :
    l = slot ∧ gen = (q.at' slot).gen := by
  have hlt : slot < 2 ^ 32 := Nat.lt_of_lt_of_le (Ring.mem_slots_lt hwf.ring hlive) htags.small
  obtain ⟨hgen, hslot⟩ := loadTag_decode hlt (htags.gen.gen_lt hlive)
  have h1 := hn.slot
  have h2 := hn.gen
  rw [htag] at h1 h2
  exact ⟨h1.symm.trans hslot, h2.symm.trans hgen⟩

/-- The answer to a load names its slot and its generation. -/
theorem SendsLoad.names {slot gen : Nat} (hs : SendsLoad c c' slot) (hwf : c.lsq.Wf) (htags : c.lsq.TagOk)
    (hn : NamesLoad (p.answerTo c slot) l gen) : l = slot ∧ gen = (c.lsq.at' slot).gen :=
  hn.of_tag htags hwf (hwf.candidate hs.mayGo.candidate).1
    (MemRequest.answer_tag ((c.lsq.at' slot).request (loadTag slot (c.lsq.at' slot).gen)) (p.newest c.msys))

/-- A load that was not sent is owed nothing. -/
def Unsent (owed : M → Multiset (MemResponse Nat)) (c : OoOCore M) : Prop :=
  ∀ j ∈ c.lsq.ring.slots, (c.lsq.at' j).issued = false → ∀ r ∈ owed c.msys, ¬ NamesLoad r j (c.lsq.at' j).gen

/-- The slots that a step takes get a generation that no answer on its way carries. -/
def TakesFresh (owed : M → Multiset (MemResponse Nat)) (c c' : OoOCore M) : Prop :=
  ∀ j ∈ c'.lsq.ring.slots, j ∉ c.lsq.ring.slots → ∀ r ∈ owed c.msys, ¬ NamesLoad r j (c'.lsq.at' j).gen

/-- A slot is taken by dispatch only. -/
theorem Action.takes_seqCtr (ha : Action c c') (hb : BackOk c) (hb' : BackOk c') {j : Nat}
    (hj : j ∈ c'.lsq.ring.slots) (h : c.lsq.Takes c'.lsq j) : c'.seqCtr ≠ c.seqCtr := by
  cases ha.robMoves hb with
  | system _ heq =>
      rw [heq, dispatchSystem_eq]
      exact Nat.succ_ne_self _
  | op _ heq =>
      rw [heq, dispatchOp_eq]
      exact Nat.succ_ne_self _
  | kept hd =>
      -- its instruction was in the ROB before, so its entry was in the LSQ
      have hlive := (hb'.lsq.rob_mem hj).1
      have hmem := (hb'.lsq.rob_mem hj).2
      have hstatic := hd.static (lsqRob c'.lsq j)
      have hmem₀ : (c.rob.e (lsqRob c'.lsq j)).isMem = true := by
        rw [← hmem]
        exact (congrArg RobEntry.isMem hstatic :).symm
      have hin : lsqRob c'.lsq j ∈ c.lsq.ring.slots.map (lsqRob c.lsq) := by
        rw [hb.lsq.slots]
        exact List.mem_filter.mpr ⟨hd.live _ hlive, hmem₀⟩
      obtain ⟨i, hi, hrob⟩ := List.mem_map.mp hin
      have hyoung := h.youngest i hi
      rw [hb.lsq.seq_eq hi, hb'.lsq.seq_eq hj, hrob] at hyoung
      have hseq : robSeq c'.rob (lsqRob c'.lsq j) = robSeq c.rob (lsqRob c'.lsq j) :=
        (congrArg RobEntry.seq hstatic :)
      rw [hseq] at hyoung
      exact absurd hyoung (Nat.lt_irrefl _)

/-- A new load's tag is owed nothing, given that no stale answer carries it. -/
theorem Action.unsent (ha : Action c c') (hb : BackOk c) (hb' : BackOk c') (ho : c.lsq.Ordered)
    (htags : c.lsq.TagOk) (hs : OwedStep p c c') (hfresh : c'.seqCtr ≠ c.seqCtr → TakesFresh p.owed c c')
    (h : Unsent p.owed c) : Unsent p.owed c' := by
  intro j hj hi r hr hn
  rcases ha.lsqAfter hb ho hj with ⟨hold, hg⟩ | hnew
  · have hi₀ : (c.lsq.at' j).issued = false := by
      rw [← Bool.not_eq_true]
      intro hsent
      rw [hg.sent hsent] at hi
      cases hi
    rw [hg.gen] at hn
    cases hs with
    | other hsub => exact h j hold hi₀ r ((hsub r hr).resolve_left hn.isLoad) hn
    | @load slot hs howed =>
        rw [howed] at hr
        rcases Multiset.mem_cons.mp hr with rfl | hr
        · -- the load that is sent is no longer unsent
          obtain ⟨rfl, -⟩ := hs.names hb.lsq.wf htags hn
          obtain ⟨m, rfl⟩ := sendLoad_frame hs.sends
          have hself : ((c.lsq.issueLoad j).at' j).issued = true := by
            show (((c.lsq.ring.set j { c.lsq.at' j with issued := true }).e j).issued) = true
            rw [Ring.set_self_e]
          rw [hself] at hi
          cases hi
        · exact h j hold hi₀ r hr hn
  · have hno := hfresh (ha.takes_seqCtr hb hb' hj hnew) j hj hnew.free
    cases hs with
    | other hsub => exact hno r ((hsub r hr).resolve_left hn.isLoad) hn
    | @load slot hs howed =>
        rw [howed] at hr
        rcases Multiset.mem_cons.mp hr with rfl | hr
        · obtain ⟨rfl, -⟩ := hs.names hb.lsq.wf htags hn
          exact hnew.free (hb.lsq.wf.candidate hs.mayGo.candidate).1
        · exact hno r hr hn

/-! ## Answers and loads -/

/-- What is owed to a load that waits is the answer to it. -/
structure Matched (p : PortInOrder cfg M) (x : OoOCore M × (Nat → Option (MemResponse Nat))) : Prop where
  tags : x.1.lsq.TagOk
  unsent : Unsent p.owed x.1
  waits : ∀ j ∈ x.1.lsq.ring.slots, (x.1.lsq.at' j).isPending = true → ∀ r ∈ p.owed x.1.msys,
    NamesLoad r j (x.1.lsq.at' j).gen → x.2 j = some r

/-- A load that waits after a step is sent by it or waited before. -/
theorem Action.pending_or (ha : Action c c') (hb : BackOk c) (hl : l ∈ c.lsq.ring.slots)
    (hl' : l ∈ c'.lsq.ring.slots) (hst : (c.lsq.at' l).isStore = false) (hp : (c'.lsq.at' l).isPending = true) :
    SendsLoad c c' l ∨ (c.lsq.at' l).isPending = true := by
  obtain ⟨-, hi, hd⟩ := LsqEntry.isPending_iff.mp hp
  have hno : (c'.lsq.at' l).done = true → False := fun hdone => Bool.false_ne_true (hd.symm.trans hdone)
  cases ha.readStep hb hl hl' with
  | same hd' hi' _ => exact .inr (LsqEntry.isPending_iff.mpr ⟨hst, hi' ▸ hi, hd' ▸ hd⟩)
  | reply _ _ hp' _ _ => exact .inr hp'
  | zero _ _ hdone => exact (hno hdone).elim
  | forward _ _ hdone _ => exact (hno hdone).elim
  | send hs _ => exact .inl hs

/-- When the slots that an action takes have no answer on its way, the answers of the data port reach the
loads that they answer. -/
theorem Matched.step {answers : Nat → Option (MemResponse Nat)} (hcfg : cfg.Accepted) (ha : Action c c')
    (hfresh : c'.seqCtr ≠ c.seqCtr → TakesFresh p.owed c c') (hc : AccessesOk cfg cfg.memBytes c)
    (hport : PortOk p image c) (h : Matched p (c, answers)) :
    ∃ answers', AnsweredStep p (c, answers) (c', answers') ∧ Matched p (c', answers') := by
  classical
  have hb := hc.core.back
  have hwf := hc.lsq.wf
  have hs := (ha.portStep hcfg hc hport).2
  refine ⟨fun j => if SendsLoad c c' j then some (p.answerTo c j) else answers j,
    ⟨ha, fun j hj => if_pos hj, fun j hj => if_neg hj, fun r j hr => ?_⟩,
    ⟨ha.tagOk hb hc.lsq h.tags, ?_, fun j hj hp r hr hn => ?_⟩⟩
  · apply h.waits j hr.live hr.pending r ?_ hr.names
    rw [(p.response hport.ok hr.response).2.2]
    exact Multiset.mem_cons_self _ _
  · exact ha.unsent hb (ha.coreOk hcfg hc.core).back hc.lsq h.tags hs hfresh h.unsent
  · dsimp only at hj hp hr hn ⊢
    rcases ha.lsqAfter hb hc.lsq hj with ⟨hold, hg⟩ | hnew
    · rw [hg.gen] at hn
      have hst := hg.isStore.symm.trans (LsqEntry.isPending_iff.mp hp).1
      by_cases hsend : SendsLoad c c' j
      · -- nothing was owed to it before
        rw [if_pos hsend]
        have hi := (LsqEntry.isCandidate_iff.mp (hwf.candidate hsend.mayGo.candidate).2).2.2.1
        cases hs with
        | other hsub => exact absurd hn (h.unsent j hold hi r ((hsub r hr).resolve_left hn.isLoad))
        | @load slot hs howed =>
            rw [howed] at hr
            rcases Multiset.mem_cons.mp hr with rfl | hr
            · rw [(hs.names hwf h.tags hn).1]
            · exact absurd hn (h.unsent j hold hi r hr)
      · rw [if_neg hsend]
        have hp₀ := (ha.pending_or hb hold hj hst hp).resolve_left hsend
        cases hs with
        | other hsub => exact h.waits j hold hp₀ r ((hsub r hr).resolve_left hn.isLoad) hn
        | @load slot hs howed =>
            rw [howed] at hr
            rcases Multiset.mem_cons.mp hr with rfl | hr
            · obtain ⟨rfl, -⟩ := hs.names hwf h.tags hn
              exact absurd hs hsend
            · exact h.waits j hold hp₀ r hr hn
    · rw [LsqEntry.isPending_iff, hnew.unsent] at hp
      cases hp.2.1

end Tags

end RvO3
