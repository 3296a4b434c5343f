import RvO3.Core.StoreBuf
import RvO3.Core.Wall

/-!
# Matching responses to loads

An access cannot be cancelled: its response may come when the load that sent it was
squashed, and its slot holds nothing, a store or another load. The response names a slot
and a generation, the number of times the slot was allocated modulo `2 ^ 16`, so a load is
known by its slot and that count (`SameLoad`). A response completes the load that sent the
access, or a load whose slot was allocated a multiple of `2 ^ 16` times since, or nothing.
-/

set_option autoImplicit false

namespace RvO3

open OoOCore

theorem loadTag_decode {slot gen : Nat} (hs : slot < 2 ^ 32) (hg : gen < 2 ^ 16) :
    loadTag slot gen % 2 ^ 16 = gen ∧ loadTag slot gen >>> 16 % 2 ^ 32 = slot := by
  rw [loadTag_eq hs hg, Nat.shiftRight_eq_div_pow]
  omega

/-! ## One load, from one queue to a later one -/

/-- The slot is live and was not allocated since: it holds the same instruction. -/
def SameLoad (q q' : LSQ) (slot : Nat) : Prop :=
  slot ∈ q'.ring.slots ∧ q'.genCtr slot = q.genCtr slot

/-- What a later queue knows of a load that was issued. -/
structure IssuedBefore (slot count : Nat) (le : LsqEntry) (q : LSQ) : Prop where
  grows : count ≤ q.genCtr slot
  /-- While the slot was not allocated again it holds the same load, issued. -/
  same : slot ∈ q.ring.slots → q.genCtr slot = count →
    (q.at' slot).seq = le.seq ∧ (q.at' slot).op = le.op ∧ (q.at' slot).isStore = false ∧
      (q.at' slot).issued = true

section Queue

variable {q q' : LSQ} {op : LsqOp} {slot count : Nat} {le : LsqEntry} {J : LsqOp → Prop}

theorem LsqOp.rewrite_issued (op : LsqOp) (j : Nat) (le : LsqEntry) :
    (op.rewrite j le).op = le.op ∧ (le.issued = true → (op.rewrite j le).issued = true) := by
  cases op <;> simp only [LsqOp.rewrite] <;> (try split) <;> simp_all

theorem IssuedBefore.run (h : IssuedBefore slot count le q) (hq : q.Wf) (ha : op.Allowed q) :
    IssuedBefore slot count le (op.run q) := by
  have hgrow : q.genCtr slot ≤ (op.run q).genCtr slot := by
    rw [op.genCtr_run q]
    cases op with
    | dispatch e robIdx ps2 prf =>
        dsimp only
        rw [Function.update_apply]
        split
        · rename_i hs
          rw [hs]
          exact Nat.le_succ _
        · exact Nat.le_refl _
    | _ => exact Nat.le_refl _
  refine ⟨Nat.le_trans h.grows hgrow, fun hlive hsame => ?_⟩
  have hs := op.slotAfter hq ha hlive
  generalize hle : (op.run q).at' slot = le' at hs
  cases hs with
  | old hmem =>
      rw [op.genCtr_live hq ha hmem] at hsame
      obtain ⟨h1, h2, h3, h4⟩ := h.same hmem hsame
      have hst := op.rewrite_static slot (q.at' slot)
      have hi := op.rewrite_issued slot (q.at' slot)
      exact ⟨hst.1.trans h1, hi.1.trans h2, hst.2.2.1.trans h3, hi.2 h4⟩
  | new hnot =>
      -- a slot that was taken has a larger count
      rename_i e robIdx ps2 prf
      have hp := pushedLsq hq ha.1 e robIdx ps2 prf
      rcases List.mem_append.mp (hp.slots ▸ hlive) with hold | hnew
      · exact absurd hold hnot
      · have hslot := List.mem_singleton.mp hnew
        have hcount := h.grows
        rw [LsqOp.genCtr_run] at hsame
        dsimp only at hsame
        rw [hslot, Function.update_self] at hsame
        rw [hslot] at hcount
        omega

theorem IssuedBefore.steps (ho : q.Ordered) (h : IssuedBefore slot count le q)
    (hs : LsqSteps J q q') : IssuedBefore slot count le q' := by
  have hboth : q'.Ordered ∧ IssuedBefore slot count le q' :=
    hs.preserve (I := fun q => q.Ordered ∧ IssuedBefore slot count le q)
      (fun _ ha hq => ⟨hq.1.run ha, hq.2.run hq.1.wf ha⟩) ⟨ho, h⟩
  exact hboth.2

/-! ## A response -/

/-- A response does nothing unless the slot it names holds an issued, incomplete load of the
generation it names. -/
theorem loadReply_cases (count : Nat) (ht : q.TagOk) (hq : q.Wf) (hslot : slot < 2 ^ 32) (data : Word) :
    (loadReply q (loadTag slot (count % 2 ^ 16)) data = q ∧
        ¬ (slot ∈ q.ring.slots ∧ (q.at' slot).isPending = true ∧
          q.genCtr slot % 2 ^ 16 = count % 2 ^ 16)) ∨
      (slot ∈ q.ring.slots ∧ (q.at' slot).isPending = true ∧
        q.genCtr slot % 2 ^ 16 = count % 2 ^ 16 ∧
        loadReply q (loadTag slot (count % 2 ^ 16)) data =
          q.completeLoad slot (extendLoad (q.at' slot).op data)) := by
  obtain ⟨hgen, hidx⟩ := loadTag_decode hslot (Nat.mod_lt count (Nat.two_pow_pos 16))
  have hpend : (q.at' slot).isPending = true ↔
      (q.at' slot).isStore = false ∧ (q.at' slot).issued = true ∧ (q.at' slot).done = false := by
    simp [LsqEntry.isPending, and_assoc]
  unfold loadReply
  rw [hgen, hidx]
  dsimp only
  split
  · rename_i hc
    obtain ⟨hlive, hst, hi, hd, hg⟩ := hc
    have hmem := (Ring.live_iff hq.ring).mp hlive
    rw [ht.gen slot hmem] at hg
    exact .inr ⟨hmem, hpend.mpr ⟨by simpa using hst, hi, by simpa using hd⟩, hg, rfl⟩
  · rename_i hc
    refine .inl ⟨rfl, ?_⟩
    rintro ⟨hmem, hp, hg⟩
    obtain ⟨hst, hi, hd⟩ := hpend.mp hp
    rw [← ht.gen slot hmem] at hg
    exact hc ⟨(Ring.live_iff hq.ring).mpr hmem, by simp [hst], hi, by simp [hd], hg⟩

end Queue

/-! ## In a run -/

section Run

variable {M : Type} [MemPorts Nat M] {cfg : SimConfig} {c c' c₁ c₂ c₃ : OoOCore M} {slot : Nat}

/-- What the response matching needs of a state. -/
structure ReplyOk (cfg : SimConfig) (c : OoOCore M) : Prop where
  core : CoreOk cfg c
  lsq : c.lsq.Ordered
  tags : c.lsq.TagOk

theorem Action.replyOk (hcfg : cfg.Accepted) (ha : Action c c') (h : ReplyOk cfg c) :
    ReplyOk cfg c' :=
  ⟨ha.coreOk hcfg h.core, ha.lsqOrdered h.core.back h.lsq, ha.tagOk h.core.back h.lsq h.tags⟩

theorem Actions.replyOk (hcfg : cfg.Accepted) (h : Actions c c') (hc : ReplyOk cfg c) :
    ReplyOk cfg c' :=
  Actions.preserve (I := ReplyOk cfg) (fun ha hi => ha.replyOk hcfg hi) h hc

omit [MemPorts Nat M] in
theorem init_replyOk (hcfg : cfg.Accepted) (hlsq : cfg.lsqSize ≤ 2 ^ 32) (frames : Bool)
    (inputs : Nat → Word) (histLen : Nat → Nat) (msys : M) :
    ReplyOk cfg (OoOCore.init cfg frames inputs histLen msys) :=
  ⟨init_coreOk frames inputs histLen msys hcfg, LSQ.Ordered.init (LSQ.wf_init hcfg.lsq_pos),
    .init hlsq⟩

theorem SendsLoad.issued (h : ReplyOk cfg c) (hs : SendsLoad c c' slot) :
    IssuedBefore slot (c.lsq.genCtr slot) (c.lsq.at' slot) c'.lsq := by
  obtain ⟨hlive, hcand⟩ := h.lsq.wf.candidate hs.mayGo.candidate
  obtain ⟨m, rfl⟩ := sendLoad_frame hs.sends
  refine ⟨Nat.le_refl _, fun _ _ => ?_⟩
  have hself : (c.lsq.issueLoad slot).at' slot = { c.lsq.at' slot with issued := true } :=
    Function.update_self _ _ _
  have hload : (c.lsq.at' slot).isStore = false := by
    simp only [LsqEntry.isCandidate, Bool.and_eq_true] at hcand
    simpa using hcand.1.1.1
  dsimp only
  rw [hself]
  exact ⟨rfl, rfl, hload, rfl⟩

/-- After an access was sent, while the run goes on. -/
theorem SendsLoad.later (hcfg : cfg.Accepted) (h : ReplyOk cfg c₁) (hs : SendsLoad c₁ c₂ slot)
    (hr : Actions c₂ c₃) :
    ReplyOk cfg c₃ ∧ IssuedBefore slot (c₁.lsq.genCtr slot) (c₁.lsq.at' slot) c₃.lsq := by
  refine Actions.preserve (I := fun c => ReplyOk cfg c ∧
    IssuedBefore slot (c₁.lsq.genCtr slot) (c₁.lsq.at' slot) c.lsq) (fun ha hi => ?_) hr
    ⟨hs.action.replyOk hcfg h, hs.issued h⟩
  exact ⟨ha.replyOk hcfg hi.1, hi.2.steps hi.1.lsq (ha.lsqSteps hi.1.core.back)⟩

/-- What the response `r` to the access that the load at `slot` sent in `c₁` does in `c`. -/
structure ReplyMatches (c₁ c : OoOCore M) (slot : Nat) (r : MemResponse Nat) : Prop where
  /-- The slot holds the load that sent the access until it is allocated again. -/
  identity : SameLoad c₁.lsq c.lsq slot → (c.lsq.at' slot).seq = (c₁.lsq.at' slot).seq ∧
    (c.lsq.at' slot).isStore = false ∧ (c.lsq.at' slot).issued = true
  /-- A load that is still there, and incomplete, gets its data. -/
  own : SameLoad c₁.lsq c.lsq slot → (c.lsq.at' slot).done = false →
    c.dataResponse r = { c with
      lsq := c.lsq.completeLoad slot (extendLoad (c₁.lsq.at' slot).op r.rdata) }
  /-- Another load is completed only after a multiple of `2 ^ 16` allocations of the slot. -/
  other : ¬ SameLoad c₁.lsq c.lsq slot → c.dataResponse r ≠ c →
    (c.dataResponse r = { c with
      lsq := c.lsq.completeLoad slot (extendLoad (c.lsq.at' slot).op r.rdata) } ∧
      slot ∈ c.lsq.ring.slots ∧ (c.lsq.at' slot).isPending = true) ∧
      ∃ k, 0 < k ∧ c.lsq.genCtr slot = c₁.lsq.genCtr slot + k * 2 ^ 16
  /-- That case apart, the response to a load that is gone or complete changes nothing. -/
  stale : ¬ SameLoad c₁.lsq c.lsq slot ∨ (c.lsq.at' slot).done = true →
    (∀ k, 0 < k → c.lsq.genCtr slot ≠ c₁.lsq.genCtr slot + k * 2 ^ 16) → c.dataResponse r = c

omit [MemPorts Nat M] in
theorem IssuedBefore.replyMatches (h : ReplyOk cfg c₁) (hq : c₃.lsq.Wf) (ht : c₃.lsq.TagOk)
    {r : MemResponse Nat} (hslot : slot ∈ c₁.lsq.ring.slots)
    (hi : IssuedBefore slot (c₁.lsq.genCtr slot) (c₁.lsq.at' slot) c₃.lsq)
    (htag : r.tag = loadTag slot (c₁.lsq.at' slot).gen) : ReplyMatches c₁ c₃ slot r := by
  have hlt : slot < 2 ^ 32 :=
    Nat.lt_of_lt_of_le (Ring.mem_slots_lt h.lsq.wf.ring hslot) h.tags.small
  have hno : ¬ r.tag.testBit 63 = true := by
    rw [htag]
    exact not_isStoreTag_loadTag hlt (h.tags.gen.gen_lt hslot)
  have hresp : c₃.dataResponse r = { c₃ with lsq := loadReply c₃.lsq r.tag r.rdata } := if_neg hno
  rw [h.tags.gen slot hslot] at htag
  have hcases := loadReply_cases (c₁.lsq.genCtr slot) ht hq hlt r.rdata
  rw [← htag] at hcases
  -- a live slot of the generation that was not allocated since holds the load that was sent
  have hwrap : ¬ SameLoad c₁.lsq c₃.lsq slot → slot ∈ c₃.lsq.ring.slots →
      c₃.lsq.genCtr slot % 2 ^ 16 = c₁.lsq.genCtr slot % 2 ^ 16 →
      ∃ k, 0 < k ∧ c₃.lsq.genCtr slot = c₁.lsq.genCtr slot + k * 2 ^ 16 := by
    intro hne hlive hmod
    have hgrows := hi.grows
    have hdiff : c₃.lsq.genCtr slot ≠ c₁.lsq.genCtr slot := fun he => hne ⟨hlive, he⟩
    exact ⟨(c₃.lsq.genCtr slot - c₁.lsq.genCtr slot) / 2 ^ 16, by omega, by omega⟩
  have hsame : loadReply c₃.lsq r.tag r.rdata = c₃.lsq → c₃.dataResponse r = c₃ := by
    intro heq
    rw [hresp, heq]
  refine ⟨fun hs => ?_, fun hs hd => ?_, fun hs hne => ?_, fun hs hk => ?_⟩
  · obtain ⟨h1, -, h3, h4⟩ := hi.same hs.1 hs.2
    exact ⟨h1, h3, h4⟩
  · obtain ⟨-, hop, hst, hiss⟩ := hi.same hs.1 hs.2
    rcases hcases with ⟨-, hnot⟩ | ⟨-, -, -, heq⟩
    · refine absurd ⟨hs.1, ?_, by rw [hs.2]⟩ hnot
      rw [LsqEntry.isPending, hst, hiss, hd]
      rfl
    · rw [hresp, heq, hop]
  · rcases hcases with ⟨heq, -⟩ | ⟨hlive, hpend, hmod, heq⟩
    · exact absurd (hsame heq) hne
    · exact ⟨⟨by rw [hresp, heq], hlive, hpend⟩, hwrap hs hlive hmod⟩
  · rcases hcases with ⟨heq, -⟩ | ⟨hlive, hpend, hmod, -⟩
    · exact hsame heq
    · rcases hs with hs | hd
      · obtain ⟨k, hpos, hcount⟩ := hwrap hs hlive hmod
        exact absurd hcount (hk k hpos)
      · rw [LsqEntry.isPending, hd] at hpend
        simp at hpend

/-! ## Every response answers an access -/

/-- The access that a load tag names was sent on the way to `c`. -/
def SentBefore (c₀ c : OoOCore M) (t : Nat) : Prop :=
  ∃ c₁ c₂ slot, Actions c₀ c₁ ∧ SendsLoad c₁ c₂ slot ∧ Actions c₂ c ∧
    t = loadTag slot (c₁.lsq.at' slot).gen

theorem SentBefore.action {c₀ : OoOCore M} {t : Nat} (h : SentBefore c₀ c t) (ha : Action c c') :
    SentBefore c₀ c' t := by
  obtain ⟨c₁, c₂, slot, h1, h2, h3, h4⟩ := h
  exact ⟨c₁, c₂, slot, h1, h2, h3.tail ha, h4⟩

end Run

section Owed

variable {M : Type} [MemPorts Nat M] {cfg : SimConfig} {L : AnswersOnce M}
  {c₀ c c' : OoOCore M}

/-- What the data port owes is the acks of stores and the data of loads sent before. -/
structure OwesLoads (L : AnswersOnce M) (c₀ c : OoOCore M) : Prop where
  port : L.ok c.msys
  loads : ∀ t ∈ L.due c.msys, ¬ isStoreTag t → SentBefore c₀ c t

theorem Action.owesLoads (ha : Action c c') (hb : BackOk c) (hr : Actions c₀ c)
    (ho : OwesLoads L c₀ c) : OwesLoads L c₀ c' := by
  have hless : L.ok c'.msys → (∀ t ∈ L.due c'.msys, t ∈ L.due c.msys) → OwesLoads L c₀ c' :=
    fun hok hsub => ⟨hok, fun t ht hst => (ho.loads t (hsub t ht) hst).action ha⟩
  have hsame : c'.msys = c.msys → OwesLoads L c₀ c' := by
    intro hm
    exact hless (hm ▸ ho.port) (by rw [hm]; exact fun _ ht => ht)
  cases ha.memSide hb with
  | quiet hs => exact hsame hs.msys
  | commit _ hm => exact hsame hm
  | store _ _ hm => exact hsame hm
  | popAck _ _ hm => exact hsame hm
  | @response r hr' hm =>
      obtain ⟨hok, hdue⟩ := L.response ho.port hr'
      apply hless (hm ▸ hok)
      intro t ht
      rw [hdue]
      rw [hm] at ht
      exact Multiset.mem_cons_of_mem ht
  | @sendLoad slot hsend hm =>
      obtain ⟨hok, hdue⟩ := L.access ho.port hsend.accepts hm
      refine ⟨hok, fun t ht hst => ?_⟩
      rw [hdue] at ht
      rcases Multiset.mem_cons.mp ht with rfl | ht
      · exact ⟨c, c', slot, hr, hsend, .refl, rfl⟩
      · exact (ho.loads t ht hst).action ha
  | @sendStore slot _ hacc hm =>
      obtain ⟨hok, hdue⟩ := L.access ho.port hacc hm
      refine ⟨hok, fun t ht hst => ?_⟩
      rw [hdue] at ht
      rcases Multiset.mem_cons.mp ht with rfl | ht
      · exact absurd (isStoreTag_storeTag slot _) hst
      · exact (ho.loads t ht hst).action ha
  | fetched hr' hm =>
      obtain ⟨hok, hdue⟩ := L.fetched ho.port hr'
      exact hless (hm ▸ hok) (by rw [hm, hdue]; exact fun _ ht => ht)
  | fetch hacc _ hm =>
      obtain ⟨hok, hdue⟩ := L.fetch ho.port hacc hm
      exact hless hok (by rw [hdue]; exact fun _ ht => ht)
  | tick hm =>
      obtain ⟨hok, hdue⟩ := L.tick ho.port hm
      exact hless hok (by rw [hdue]; exact fun _ ht => ht)

theorem Actions.owesLoads (hcfg : cfg.Accepted) (h₀ : ReplyOk cfg c₀) (hok : L.ok c₀.msys)
    (hdue : L.due c₀.msys = 0) (h : Actions c₀ c) : OwesLoads L c₀ c := by
  induction h with
  | refl =>
      refine ⟨hok, fun t ht => ?_⟩
      rw [hdue] at ht
      exact absurd ht (Multiset.notMem_zero t)
  | tail hr ha ih => exact ha.owesLoads (Actions.replyOk hcfg hr h₀).core.back hr ih

/-- Every response to a load answers an access sent before. The load that sent it gets its
data if it is still waiting, and no other load does unless the slot was allocated a positive
multiple of `2 ^ 16` times in between. -/
theorem response_matching (hcfg : cfg.Accepted) (hlsq : cfg.lsqSize ≤ 2 ^ 32) (frames : Bool)
    (inputs : Nat → Word) (histLen : Nat → Nat) (L : AnswersOnce M) {m₀ : M} (hok : L.ok m₀)
    (hdue : L.due m₀ = 0) :
    (∀ c₁ c₂ c slot r, Actions (OoOCore.init cfg frames inputs histLen m₀) c₁ →
      SendsLoad c₁ c₂ slot → Actions c₂ c → MemPorts.dResponse c.msys = some r →
      r.tag = loadTag slot (c₁.lsq.at' slot).gen →
      ReplyMatches c₁ { c with msys := MemPorts.dPop c.msys } slot r) ∧
    ∀ c r, Actions (OoOCore.init cfg frames inputs histLen m₀) c →
      MemPorts.dResponse c.msys = some r → ¬ isStoreTag r.tag →
      SentBefore (OoOCore.init cfg frames inputs histLen m₀) c r.tag := by
  have h₀ := init_replyOk hcfg hlsq frames inputs histLen m₀
  refine ⟨fun c₁ c₂ c slot r h₁ hs h₂ _ htag => ?_, fun c r hc hr hst => ?_⟩
  · have hk₁ := h₁.replyOk hcfg h₀
    obtain ⟨hk, hi⟩ := hs.later hcfg hk₁ h₂
    have hwf : ({ c with msys := MemPorts.dPop c.msys } : OoOCore M).lsq.Wf := hk.lsq.wf
    exact IssuedBefore.replyMatches hk₁ hwf hk.tags (hk₁.lsq.wf.candidate hs.mayGo.candidate).1 hi htag
  · have howes : OwesLoads L _ c := hc.owesLoads hcfg h₀ hok hdue
    refine howes.loads r.tag ?_ hst
    rw [(L.response howes.port hr).2]
    exact Multiset.mem_cons_self _ _

end Owed

/-- The answer at the port is the one to the load that sent its access in `c₁` from `slot`, has the
value `v`, and finds the load waiting. -/
def answered (c₁ : OoOCore (MemorySystem Nat)) (slot : Nat) (v : Word) (c : OoOCore (MemorySystem Nat)) :
    Bool :=
  (MemPorts.dResponse c.msys).any fun r => decide (¬ isStoreTag r.tag ∧
    r.tag = loadTag slot (c₁.lsq.at' slot).gen ∧ r.rdata = v ∧ slot ∈ c.lsq.ring.slots ∧
    c.lsq.genCtr slot = c₁.lsq.genCtr slot ∧ (c.lsq.at' slot).done = false)

/-- In the thirteenth cycle the busy machine sends the access of its first load. The answer comes three
cycles later, while the load still waits, and completes it. -/
theorem response_matching_busy : ∃ c₁ c₂ c r, Reach busyCore .drained c₁ ∧ SendsLoad c₁ c₂ 1 ∧
    Actions c₂ c ∧ MemPorts.dResponse c.msys = some r ∧ r.tag = loadTag 1 (c₁.lsq.at' 1).gen ∧
    r.rdata = 0x13 ∧ SameLoad c₁.lsq c.lsq 1 ∧ (c.lsq.at' 1).done = false ∧
    ReplyMatches c₁ { c with msys := MemPorts.dPop c.msys } 1 r ∧ SentBefore busyCore c r.tag := by
  obtain ⟨c₁, hr₁, hp₁⟩ := Reach.eval busyCore 99 .drained
    (p := fun c₁ => decide (c₁.lsq.candidates 1 = true ∧ (c₁.rob.e (c₁.lsq.at' 1).robIdx).fault = 0 ∧
      c₁.cautious (c₁.lsq.at' 1) = false ∧ c₁.verdict 1 = .clear ∧
      MemPorts.dCanAccept c₁.msys = true) &&
      (c₁.sendLoad 1).toOption.any fun c₂ =>
        (stagesFrom (fun _ _ => true) 24 .boundary c₂).any fun x =>
          x.1 == .boundary && answered c₁ 1 0x13 x.2) (by decide +kernel)
  obtain ⟨hgo, hsent⟩ := Bool.and_eq_true_iff.mp hp₁
  obtain ⟨hcand, hfault, hbold, hclear, hacc⟩ := of_decide_eq_true hgo
  obtain ⟨c₂, hsend, hlater⟩ := (Option.any_eq_true _ _).mp hsent
  have hsend : SendsLoad c₁ c₂ 1 :=
    ⟨⟨hcand, hfault, fun _ => hbold⟩, hclear, hacc, toOption_eq_some hsend⟩
  obtain ⟨c, hr₂, hp⟩ := Reach.eval c₂ 24 .boundary (p := answered c₁ 1 0x13) hlater
  obtain ⟨r, hd, hr⟩ := (Option.any_eq_true _ _).mp hp
  obtain ⟨hload, htag, hdata, hlive, hgen, hdone⟩ := of_decide_eq_true hr
  have hcfg := busyConfig_accepted
  have hk₀ : CoreOk busyConfig busyCore := init_coreOk _ _ _ _ hcfg
  have h₁ := hr₁.actions hcfg hk₀
  have h₂ := hr₂.actions hcfg (hsend.action.coreOk hcfg (h₁.coreOk hcfg hk₀))
  have hok : flatAnswers.ok (MemorySystem.init busyConfig fun a =>
      wordByte (busyProgram (a / 4)) (a % 4)) := ⟨_, rfl⟩
  obtain ⟨hmatch, hsentBefore⟩ := response_matching hcfg (by decide) false (fun _ => 0) (fun _ => 0)
    flatAnswers hok rfl
  exact ⟨c₁, c₂, c, r, hr₁, hsend, h₂, hd, htag, hdata, ⟨hlive, hgen⟩, hdone,
    hmatch c₁ c₂ c 1 r h₁ hsend h₂ hd htag, hsentBefore c r ((h₁.tail hsend.action).trans h₂) hd hload⟩

end RvO3
