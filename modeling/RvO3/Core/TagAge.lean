import RvO3.Core.LoadRun

/-!
# The age of tags

A generation is the number of times its slot was taken, in 16 bits. What the data port owes to a
load has been owed since the slot had the number of that load (`Reach.owedSince`). A tag can therefore
come into use again only when its slot is taken for the `2 ^ 16`-th time meanwhile: a run in which no
slot is (`SlotsLast`) asks for fresh tags only (`Reach.dispatchesFresh`). A run that has handed out
fewer sequence numbers is one.
-/

set_option autoImplicit false

namespace RvO3

open OoOCore

section Counts

variable {c c' : OoOCore (MemorySystem Nat)} {q q' : LSQ}

/-- A squash gives slots up and takes none. -/
theorem genCtr_squash (h : LsqSteps (fun op => op = .popTail) q q') : q'.genCtr = q.genCtr := by
  apply h.preserve (I := fun p => p.genCtr = q.genCtr) ?_ rfl
  rintro p op rfl - hp
  rw [LsqOp.genCtr_run]
  exact hp

theorem genCtr_resolve (h : LsqOnce (Resolves c) q q') : q'.genCtr = q.genCtr := by
  rcases Relation.reflGen_iff _ _ _ |>.mp h with rfl | ⟨op, ⟨i, -, rfl⟩, -, rfl⟩
  · rfl
  · rw [LsqOp.genCtr_run]

/-- The number of a slot grows when a dispatch takes it. -/
theorem Action.genCtr (ha : Action c c') (hb : BackOk c) (hb' : BackOk c') :
    c'.lsq.genCtr = c.lsq.genCtr ∨ c'.seqCtr ≠ c.seqCtr ∧
      ∃ i, c'.lsq.genCtr = Function.update c.lsq.genCtr i (c.lsq.genCtr i + 1) := by
  cases ha.lsqChange hb with
  | squash h => exact .inl (genCtr_squash h)
  | drain h h' => exact .inl ((genCtr_squash h').trans (genCtr_resolve h))
  | once h =>
      rcases Relation.reflGen_iff _ _ _ |>.mp h with heq | ⟨op, -, hal, heq⟩
      · rw [heq]
        exact .inl rfl
      · have hrun := op.genCtr_run c.lsq
        rw [← heq] at hrun
        cases op with
        | dispatch e robIdx ps2 prf =>
            have hp := pushedLsq hb.lsq.wf hal.1 e robIdx ps2 prf
            have hin : c.lsq.ring.allocIdx ∈ c'.lsq.ring.slots := by
              rw [heq]
              exact hp.slots ▸ List.mem_append_right _ (List.mem_singleton.mpr rfl)
            refine .inr ⟨ha.takes_seqCtr hb hb' hin ?_, _, hrun⟩
            rcases LsqOp.after hb.lsq.wf hal (heq ▸ hin) with ⟨hold, -⟩ | hnew
            · exact absurd rfl (LSQ.ne_allocIdx hb.lsq.wf hal.1 hold)
            · rwa [← heq] at hnew
        | _ => exact .inl hrun

/-- No number falls, and together the slots are taken no more often than sequence numbers are handed
out. -/
theorem Action.genCtr_le (ha : Action c c') (hb : BackOk c) (hb' : BackOk c') (j : Nat) :
    c.lsq.genCtr j ≤ c'.lsq.genCtr j ∧ c'.lsq.genCtr j + c.seqCtr ≤ c.lsq.genCtr j + c'.seqCtr := by
  have hseq := (ha.waitersFrom hb).seqCtr
  rcases ha.genCtr hb hb' with heq | ⟨hne, i, heq⟩
  · rw [heq]
    omega
  · rw [heq, Function.update_apply]
    split
    · rename_i hj
      subst hj
      omega
    · omega

end Counts

/-! ## What is owed -/

section Ages

variable {cfg : SimConfig} {image : Nat → Byte} {frames : Bool} {inputs : Nat → Word}
  {histLen : Nat → Nat} {c c' : OoOCore (MemorySystem Nat)} {ph : Phase}

/-- One stage, between two points of a run. -/
def StageStep (x y : Phase × OoOCore (MemorySystem Nat)) : Prop := Stage x.1 x.2 y.1 y.2

/-- From the point `x` of a run to the point `y` the answer `r` is owed. -/
structure OwedBetween (r : MemResponse Nat) (x y : Phase × OoOCore (MemorySystem Nat)) : Prop where
  owed : r ∈ x.2.msys.owed
  stages : Relation.ReflTransGen (fun a b => StageStep a b ∧ r ∈ b.2.msys.owed) x y

/-- In the run up to the point `z` no slot of the LSQ is taken `2 ^ 16` times while one answer to a load
of it is owed. -/
def SlotsLast (c₀ : OoOCore (MemorySystem Nat)) (z : Phase × OoOCore (MemorySystem Nat)) : Prop :=
  ∀ x y r j gen, Reach c₀ x.1 x.2 → NamesLoad r j gen → OwedBetween r x y →
    Relation.ReflTransGen StageStep y z → y.2.lsq.genCtr j < x.2.lsq.genCtr j + 2 ^ 16

theorem OwedBetween.step {r : MemResponse Nat} {x y z : Phase × OoOCore (MemorySystem Nat)}
    (h : OwedBetween r x y) (hs : StageStep y z) (hr : r ∈ z.2.msys.owed) : OwedBetween r x z :=
  ⟨h.owed, h.stages.tail ⟨hs, hr⟩⟩

/-- Slots that last up to a point last up to the point before it. -/
theorem SlotsLast.before {c₀ : OoOCore (MemorySystem Nat)} {y z : Phase × OoOCore (MemorySystem Nat)}
    (h : SlotsLast c₀ z) (hs : StageStep y z) : SlotsLast c₀ y :=
  fun _ _ _ _ _ hx hn hr hy => h _ _ _ _ _ hx hn hr (hy.tail hs)

theorem Reach.stage {c₀ : OoOCore (MemorySystem Nat)} {ph' : Phase} (h : Reach c₀ ph c) (hs : Stage ph c ph' c') :
    Reach c₀ ph' c' :=
  (ReachWhen.step h.stages trivial hs).reach

/-- A slot is taken by a dispatch, which hands out a sequence number. -/
theorem Actions.genCtr_le (hcfg : cfg.Accepted) (h : Actions c c') (hk : CoreOk cfg c) :
    CoreOk cfg c' ∧ ∀ j, c.lsq.genCtr j ≤ c'.lsq.genCtr j ∧
      c'.lsq.genCtr j + c.seqCtr ≤ c.lsq.genCtr j + c'.seqCtr := by
  induction h with
  | refl => exact ⟨hk, fun j => ⟨Nat.le_refl _, Nat.le_refl _⟩⟩
  | @tail d d' _ ha ih =>
      obtain ⟨hkd, hle⟩ := ih
      have hk' := ha.coreOk hcfg hkd
      refine ⟨hk', fun j => ?_⟩
      have hj := hle j
      have hj' := ha.genCtr_le hkd.back hk'.back j
      omega

/-- A stage lets no number of a slot fall. -/
theorem Stage.genCtr_le (hcfg : cfg.Accepted) {c₀ : OoOCore (MemorySystem Nat)} (hk₀ : CoreOk cfg c₀) {ph' : Phase}
    (h : Reach c₀ ph c) (hs : Stage ph c ph' c') (j : Nat) : c.lsq.genCtr j ≤ c'.lsq.genCtr j := by
  obtain ⟨hk, hno⟩ := h.ok hcfg hk₀
  rcases hs.actions hcfg hk hno with ⟨hact, -⟩ | ⟨-, hn, rfl⟩
  · exact ((hact.genCtr_le hcfg hk).2 j).1
  · exact ((dispatchStage_appends hcfg hk hn).2.genCtr_le j).1

/-- While an answer is owed no number falls; the later point is reached as well. -/
theorem OwedBetween.genCtr_le (hcfg : cfg.Accepted) {c₀ : OoOCore (MemorySystem Nat)} (hk₀ : CoreOk cfg c₀)
    {r : MemResponse Nat} {x y : Phase × OoOCore (MemorySystem Nat)} (h : OwedBetween r x y) (hx : Reach c₀ x.1 x.2) :
    Reach c₀ y.1 y.2 ∧ ∀ j, x.2.lsq.genCtr j ≤ y.2.lsq.genCtr j := by
  obtain ⟨-, hstages⟩ := h
  induction hstages with
  | refl => exact ⟨hx, fun _ => Nat.le_refl _⟩
  | tail _ hs ih =>
      obtain ⟨hy, hle⟩ := ih
      exact ⟨hy.stage hs.1, fun j => Nat.le_trans (hle j) (hs.1.genCtr_le hcfg hk₀ hy j)⟩

/-- Stages only hand sequence numbers out. -/
theorem StageStep.seqCtr_le (hcfg : cfg.Accepted) {c₀ : OoOCore (MemorySystem Nat)} (hk₀ : CoreOk cfg c₀)
    {y z : Phase × OoOCore (MemorySystem Nat)} (hy : Reach c₀ y.1 y.2) (h : Relation.ReflTransGen StageStep y z) :
    Reach c₀ z.1 z.2 ∧ y.2.seqCtr ≤ z.2.seqCtr := by
  induction h with
  | refl => exact ⟨hy, Nat.le_refl _⟩
  | tail _ hs ih =>
      obtain ⟨hx, hle⟩ := ih
      obtain ⟨hk, hno⟩ := hx.ok hcfg hk₀
      exact ⟨hx.stage hs, Nat.le_trans hle (Stage.seqCtr_le hcfg hk hno hs)⟩

/-- What is owed after actions that dispatch nothing was owed before, or answers the load that its slot
holds. -/
theorem Actions.owedBefore (hcfg : cfg.Accepted) (hfit : cfg.SizesFit) (hlsq : cfg.lsqSize ≤ 2 ^ 32)
    (hline : cfg.flatMemory = false → cfg.fetchBlockBytes ∣ cfg.memBytes ∨ 2 ^ 32 ≤ cfg.memBytes)
    (hr : Actions (OoOCore.init cfg frames inputs histLen (MemorySystem.init cfg image)) c) (h : Actions c c')
    (hseq : c'.seqCtr = c.seqCtr) {r : MemResponse Nat} (hr' : r ∈ c'.msys.owed) {j gen : Nat}
    (hn : NamesLoad r j gen) : r ∈ c.msys.owed ∨ gen = c'.lsq.genCtr j % 2 ^ 16 := by
  have h₀ := init_replyOk hcfg hlsq frames inputs histLen (MemorySystem.init (τ := Nat) cfg image)
  induction h with
  | refl => exact .inl hr'
  | @tail d d' hrd ha ih =>
      have hk := Actions.replyOk hcfg (hr.trans hrd) h₀
      have hle := (Actions.seqCtr_le hcfg hrd (Actions.replyOk hcfg hr h₀).core).1
      have hle' := (ha.waitersFrom hk.core.back).seqCtr
      have hsame : d'.lsq.genCtr = d.lsq.genCtr :=
        (ha.genCtr hk.core.back (ha.coreOk hcfg hk.core).back).resolve_right fun hne => hne.1 (by omega)
      obtain ⟨hacc, evs, ht⟩ := Actions.traced hcfg hline (hr.trans hrd)
      rw [hsame]
      cases (ha.portStep hcfg hacc (ht.portOk hcfg hfit hline)).2 with
      | other hsub => exact ih (by omega) ((hsub r hr').resolve_left hn.isLoad)
      | @load slot hs howed =>
          change r ∈ (MemorySystem.inOrder image hcfg hfit hline).owed d'.msys at hr'
          rw [howed] at hr'
          rcases Multiset.mem_cons.mp hr' with rfl | hr'
          · obtain ⟨rfl, rfl⟩ := hs.names hk.core.back.lsq.wf hk.tags hn
            exact .inr (hk.tags.gen j (hk.core.back.lsq.wf.candidate hs.mayGo.candidate).1)
          · exact ih (by omega) hr'

/-- What is owed has been owed since some load was sent that had the number its slot then had. -/
theorem Reach.owedSince (hcfg : cfg.Accepted) (hfit : cfg.SizesFit) (hlsq : cfg.lsqSize ≤ 2 ^ 32)
    (hline : cfg.flatMemory = false → cfg.fetchBlockBytes ∣ cfg.memBytes ∨ 2 ^ 32 ≤ cfg.memBytes)
    (h : Reach (OoOCore.init cfg frames inputs histLen (MemorySystem.init cfg image)) ph c)
    {r : MemResponse Nat} (hr : r ∈ c.msys.owed) {j gen : Nat} (hn : NamesLoad r j gen) :
    ∃ x, Reach (OoOCore.init cfg frames inputs histLen (MemorySystem.init cfg image)) x.1 x.2 ∧
      OwedBetween r x (ph, c) ∧ gen = x.2.lsq.genCtr j % 2 ^ 16 := by
  have hk₀ := init_coreOk frames inputs histLen (MemorySystem.init (τ := Nat) cfg image) hcfg
  have hall := h.stages
  clear h
  induction hall with
  | reset =>
      have howed : (MemorySystem.init (τ := Nat) cfg image).owed = 0 :=
        (MemorySystem.ok_init (P := fun _ => True) hcfg hfit).2.2
      change r ∈ (MemorySystem.init (τ := Nat) cfg image).owed at hr
      rw [howed] at hr
      exact absurd hr (Multiset.notMem_zero r)
  | @step ph ph' c c' hall _ hs ih =>
      have hc := hall.reach
      obtain ⟨hk, hno⟩ := hc.ok hcfg hk₀
      have hbefore : r ∈ c.msys.owed ∨ gen = c'.lsq.genCtr j % 2 ^ 16 := by
        rcases hs.actions hcfg hk hno with ⟨hact, hseq⟩ | ⟨-, hnosys, rfl⟩
        · exact Actions.owedBefore hcfg hfit hlsq hline (hc.actions hcfg hk₀) hact hseq hr hn
        · exact .inl ((dispatchStage_appends hcfg hk hnosys).2.msys ▸ hr)
      rcases hbefore with hold | hgen
      · obtain ⟨x, hx, hbetween, hgen⟩ := ih hold
        exact ⟨x, hx, hbetween.step hs hr, hgen⟩
      · exact ⟨(ph', c'), hc.stage hs, ⟨hr, .refl⟩, hgen⟩

/-- A tag comes into use again when its slot is taken for the `2 ^ 16`-th time. So as long as the slots
last every tag is fresh. -/
theorem Reach.tagsFresh (hcfg : cfg.Accepted) (hfit : cfg.SizesFit) (hlsq : cfg.lsqSize ≤ 2 ^ 32)
    (hline : cfg.flatMemory = false → cfg.fetchBlockBytes ∣ cfg.memBytes ∨ 2 ^ 32 ≤ cfg.memBytes)
    (h : Reach (OoOCore.init cfg frames inputs histLen (MemorySystem.init cfg image)) .issued c)
    (hlast : SlotsLast (OoOCore.init cfg frames inputs histLen (MemorySystem.init cfg image))
      (.dispatched, c.dispatchStage)) : TagsFresh c := by
  have h₀ := init_replyOk hcfg hlsq frames inputs histLen (MemorySystem.init (τ := Nat) cfg image)
  have hk := Actions.replyOk hcfg (h.actions hcfg h₀.core) h₀
  have hno : NoSystem c := (h.ok hcfg h₀.core).2 (.inr rfl)
  obtain ⟨-, happ⟩ := dispatchStage_appends hcfg hk.core hno
  intro j hj hfree r hr hn
  obtain ⟨x, hx, hbetween, hgen⟩ := h.owedSince hcfg hfit hlsq hline hr hn
  rw [dispatchStage_gen hcfg hk hno hj hfree] at hgen
  have hle := (hbetween.genCtr_le hcfg h₀.core hx).2 j
  have htaken := happ.taken j hj hfree
  have hstep : StageStep (.issued, c) (.dispatched, c.dispatchStage) := Stage.dispatch
  have hlt := hlast x _ r j _ hx hn (hbetween.step hstep (happ.msys ▸ hr)) .refl
  dsimp only at hle hlt
  omega

/-- A run whose slots last asks for fresh tags only. -/
theorem Reach.dispatchesFresh (hcfg : cfg.Accepted) (hfit : cfg.SizesFit) (hlsq : cfg.lsqSize ≤ 2 ^ 32)
    (hline : cfg.flatMemory = false → cfg.l2.lineBytes ∣ cfg.memBytes)
    (h : Reach (OoOCore.init cfg frames inputs histLen (MemorySystem.init cfg image)) ph c)
    (hlast : SlotsLast (OoOCore.init cfg frames inputs histLen (MemorySystem.init cfg image)) (ph, c)) :
    ReachWhen (DispatchesWhen TagsFresh)
      (OoOCore.init cfg frames inputs histLen (MemorySystem.init cfg image)) ph c := by
  have hall := h.stages
  clear h
  induction hall with
  | reset => exact .reset
  | step hc _ hs ih =>
      refine .step (ih (hlast.before hs)) (fun hph => ?_) hs
      subst hph
      cases hs
      exact hc.reach.tagsFresh hcfg hfit hlsq (hcfg.blocks hfit hline) hlast

/-- The slots last in a run that hands out fewer than `2 ^ 16` sequence numbers. -/
theorem SlotsLast.of_few (hcfg : cfg.Accepted) (hseq : c.seqCtr < 2 ^ 16) :
    SlotsLast (OoOCore.init cfg frames inputs histLen (MemorySystem.init cfg image)) (ph, c) := by
  have hk₀ := init_coreOk frames inputs histLen (MemorySystem.init (τ := Nat) cfg image) hcfg
  intro x y r j gen hx hn hbetween hy
  obtain ⟨hreach, hle⟩ := hbetween.genCtr_le hcfg hk₀ hx
  have hage := ((Actions.genCtr_le hcfg (hreach.actions hcfg hk₀) hk₀).2 j).2
  have hstart : (OoOCore.init cfg frames inputs histLen (MemorySystem.init (τ := Nat) cfg image)).lsq.genCtr j = 0 := rfl
  have hmore := (StageStep.seqCtr_le hcfg hk₀ hreach hy).2
  dsimp only at hmore
  omega

/-- The rewriting machine after twenty cycles: the word that it rewrote has committed. -/
theorem rewriting_reached : ∃ c, Reach rewritingCore .boundary c ∧
    c.commits.map (fun r => (r.pc, r.instruction)) = [(0, 0x01300093#32), (4, 0x0080006F#32),
      (12, 0x00102223#32), (16, 0x0FF0000F#32), (20, 0xFF1FF06F#32), (4, 0x13#32), (12, 0x00102223#32)] ∧
    c.seqCtr + 1 < 2 ^ 16 := by
  obtain ⟨c, hr, hp⟩ := Reach.eval rewritingCore 160 .boundary
    (p := fun c => decide (c.commits.map (fun r => (r.pc, r.instruction)) = [(0, 0x01300093#32),
      (4, 0x0080006F#32), (12, 0x00102223#32), (16, 0x0FF0000F#32), (20, 0xFF1FF06F#32), (4, 0x13#32),
      (12, 0x00102223#32)] ∧ c.seqCtr + 1 < 2 ^ 16)) (by decide +kernel)
  exact ⟨c, hr, of_decide_eq_true hp⟩

/-- In every state of a run a load that is done holds what the stores before it leave: each of its bytes comes
from the youngest older store with a known address that writes the byte, and from the committed memory
when there is none. -/
theorem loads_see_older_stores (hcfg : cfg.Accepted) (hfit : cfg.SizesFit) (hmem : cfg.memBytes < 2 ^ 32)
    (hlsq : cfg.lsqSize ≤ 2 ^ 32) (hline : cfg.flatMemory = false → cfg.l2.lineBytes ∣ cfg.memBytes)
    (h : ReachWhen (DispatchesWhen TagsFresh)
      (OoOCore.init cfg frames inputs histLen (MemorySystem.init cfg image)) ph c) {l : Nat}
    (hl : l ∈ c.lsq.ring.slots) (hload : (c.lsq.at' l).isStore = false) (hdone : (c.lsq.at' l).done = true)
    (hclean : c.Untainted l) :
    ∃ v, Sees (committedMem image c) c.lsq l v ∧ (c.lsq.at' l).value = extendLoad (c.lsq.at' l).op v := by
  have hk₀ := init_coreOk frames inputs histLen (MemorySystem.init (τ := Nat) cfg image) hcfg
  have hok := (h.fresh hcfg hk₀).memoryOk hcfg hfit hmem hlsq (hcfg.blocks hfit hline)
  exact hok.read l hl hload hclean hdone

/-- A store that waits for an older quotient to commit, and a load of the word it stores. -/
def forwardingProgram : Nat → Word
  | 0 => 0x02004333#32 -- div x6, x0, x0
  | 1 => 0x00500093#32 -- addi x1, x0, 5
  | 2 => 0x04102023#32 -- sw x1, 64(x0)
  | 3 => 0x04002103#32 -- lw x2, 64(x0)
  | _ => 0x00000013#32 -- nop

/-- The program as bytes. -/
def forwardingImage : Nat → Byte := fun a => wordByte (forwardingProgram (a / 4)) (a % 4)

/-- The load sees the word of the store before anything has committed. -/
theorem loads_see_older_stores_forwarding : ∃ (c : OoOCore (MemorySystem Nat)) (l : Nat) (v : Word),
    c.commits = [] ∧ (c.lsq.at' l).value = 5 ∧ Sees (committedMem forwardingImage c) c.lsq l v ∧
      (c.lsq.at' l).value = extendLoad (c.lsq.at' l).op v := by
  have hcfg : flatConfig.Accepted :=
    validateConfig_ok (show validateConfig flatConfig = .ok flatConfig by decide)
  have hfit : flatConfig.SizesFit := ⟨by decide, by decide, by decide⟩
  obtain ⟨c, hr, hp⟩ := Reach.eval (OoOCore.init flatConfig false (fun _ => 0) (fun _ => 0)
      (MemorySystem.init flatConfig forwardingImage)) 48 .boundary
    (p := fun c => decide (c.commits = [] ∧ c.seqCtr + 1 < 2 ^ 16 ∧ 1 ∈ c.lsq.ring.slots ∧
      (c.lsq.at' 1).isStore = false ∧ (c.lsq.at' 1).done = true ∧ (c.lsq.at' 1).value = 5 ∧
      ∀ i ∈ c.rob.slots, (c.rob.e i).fault = 0)) (by decide +kernel)
  obtain ⟨hnone, hseq, hl, hload, hdone, hval, hfaults⟩ := of_decide_eq_true hp
  have hb := (hr.ok hcfg (init_coreOk _ _ _ _ hcfg)).1.back
  have hclean : c.Untainted 1 :=
    ⟨hfaults _ (hb.lsq.rob_mem hl).1, fun s hs _ _ => hfaults _ (hb.lsq.rob_mem hs).1⟩
  obtain ⟨v, hsees, hv⟩ := loads_see_older_stores hcfg hfit (by decide) (by decide) nofun
    (Reach.dispatchesFresh hcfg hfit (by decide) nofun hr (.of_few hcfg (by omega))) hl hload hdone hclean
  exact ⟨c, 1, v, hnone, hval, hsees, hv⟩

end Ages

end RvO3
