import RvO3.Core.LoadTags
import RvO3.Core.MemValues
import RvO3.Core.Successor

/-!
# Runs with a guard on dispatch

Most invariants are kept by every action whatever came before it. A few ask something of the
dispatch of an instruction: that no answer is owed to the tag that comes into use. A dispatch
stage appends to the LSQ and leaves the data port alone, so what it asks for as a whole each of
its dispatches asks for (`dispatchStage_fresh`). `ReachWhen.fresh` reads a run whose dispatch
stages ask for fresh tags only as a sequence of actions that do.

In such a run the answers of the data port reach the loads that they answer
(`GuardedActions.answered`). That is all that the loads of a run need (`memoryOk_of_answered`).
-/

set_option autoImplicit false

namespace RvO3

open OoOCore

/-! ## Guarded actions -/

section Guarded

variable {M : Type} [MemPorts Nat M] {cfg : SimConfig} {G : OoOCore M → OoOCore M → Prop} {c c' : OoOCore M}

/-- An action that meets `G` if it dispatches an instruction. -/
def GuardedAction (G : OoOCore M → OoOCore M → Prop) (c c' : OoOCore M) : Prop :=
  Action c c' ∧ (c'.seqCtr ≠ c.seqCtr → G c c')

/-- Any number of elementary steps whose dispatches satisfy `G`. -/
abbrev GuardedActions (G : OoOCore M → OoOCore M → Prop) : OoOCore M → OoOCore M → Prop :=
  Relation.ReflTransGen (GuardedAction G)

/-- `D` holds wherever the dispatch stage starts. -/
def DispatchesWhen (D : OoOCore M → Prop) (ph : Phase) (c : OoOCore M) : Prop := ph = .issued → D c

theorem GuardedActions.actions (h : GuardedActions G c c') : Actions c c' := by
  induction h with
  | refl => exact .refl
  | tail _ hs ih => exact ih.tail hs.1

/-- Sequence numbers are only handed out. -/
theorem Actions.seqCtr_le (hcfg : cfg.Accepted) (ha : Actions c c') (hk : CoreOk cfg c) :
    c.seqCtr ≤ c'.seqCtr ∧ CoreOk cfg c' := by
  induction ha with
  | refl => exact ⟨Nat.le_refl _, hk⟩
  | tail _ hact ih => exact ⟨Nat.le_trans ih.1 (hact.waitersFrom ih.2.back).seqCtr, hact.coreOk hcfg ih.2⟩

/-- Actions that dispatch nothing meet every guard. -/
theorem Actions.guarded (hcfg : cfg.Accepted) (ha : Actions c c') (hk : CoreOk cfg c)
    (hs : c'.seqCtr = c.seqCtr) : GuardedActions G c c' := by
  induction ha with
  | refl => exact .refl
  | @tail d d' hr hact ih =>
      obtain ⟨hle, hkd⟩ := Actions.seqCtr_le hcfg hr hk
      have hle' := (hact.waitersFrom hkd.back).seqCtr
      have heq : d.seqCtr = c.seqCtr := by omega
      exact (ih heq).tail ⟨hact, fun hne => absurd (hs.trans heq.symm) hne⟩

/-- A stage that does not dispatch is a sequence of actions that hand out no sequence number. -/
theorem Stage.actions (hcfg : cfg.Accepted) {ph ph' : Phase} (hk : CoreOk cfg c)
    (hno : (ph = .committed ∨ ph.afterCommit = true) → NoSystem c) (hs : Stage ph c ph' c') :
    (Actions c c' ∧ c'.seqCtr = c.seqCtr) ∨ (ph = .issued ∧ NoSystem c ∧ c' = c.dispatchStage) := by
  cases hs with
  | commit _ hs => exact .inl ⟨commitLoop_actions _ hs, commitStage_seqCtr hs⟩
  | writeback _ =>
      have hn := hno (Or.inl rfl)
      exact .inl ⟨(writebackLoop_actions _ hk hn (Nat.min_le_right _ _)).1, writebackStage_seqCtr hk hn⟩
  | drain =>
      have hn := hno (Or.inr rfl)
      exact .inl ⟨(aguDrainLoop_actions _ hk hn).1, aguDrain_seqCtr hk hn⟩
  | operate hs => exact .inl ⟨(lsqOperate_actions hcfg hk hs).1, lsqOperate_seqCtr hcfg hk hs⟩
  | issue => exact .inl ⟨(issueStage_actions hk).1, issueStage_seqCtr hk⟩
  | dispatch => exact .inr ⟨rfl, hno (Or.inr rfl), rfl⟩
  | fetch hs => exact .inl ⟨fetchStage_actions hs, fetchStage_seqCtr hs⟩
  | edge hs => exact .inl ⟨clockEdge_actions hs, clockEdge_seqCtr hs⟩

/-- A run whose dispatch stages start where `D` holds meets the guard that `D` stands for. -/
theorem ReachWhen.guarded {D : OoOCore M → Prop} {c₀ : OoOCore M} {ph : Phase} (hcfg : cfg.Accepted)
    (hk₀ : CoreOk cfg c₀)
    (hstage : ∀ {d : OoOCore M}, CoreOk cfg d → NoSystem d → D d → GuardedActions G d d.dispatchStage)
    (h : ReachWhen (DispatchesWhen D) c₀ ph c) : GuardedActions G c₀ c := by
  induction h with
  | reset => exact .refl
  | step hr hq hs ih =>
      obtain ⟨hk, hno⟩ := hr.reach.ok hcfg hk₀
      rcases hs.actions hcfg hk hno with ⟨hact, hseq⟩ | ⟨hph, hn, rfl⟩
      · exact ih.trans (hact.guarded hcfg hk hseq)
      · exact ih.trans (hstage hk hn (hq hph))

/-- The numbers handed out in a stage. -/
theorem Stage.seqCtr_le (hcfg : cfg.Accepted) {ph ph' : Phase} (hk : CoreOk cfg c)
    (hno : (ph = .committed ∨ ph.afterCommit = true) → NoSystem c) (hs : Stage ph c ph' c') :
    c.seqCtr ≤ c'.seqCtr := by
  rcases hs.actions hcfg hk hno with ⟨-, hseq⟩ | ⟨-, hn, rfl⟩
  · exact Nat.le_of_eq hseq.symm
  · exact (Actions.seqCtr_le hcfg (dispatchLoop_actions hcfg c.cfg.width hk hn) hk).1

theorem Reach.stages {c₀ : OoOCore M} {ph : Phase} (h : Reach c₀ ph c) : ReachWhen (fun _ _ => True) c₀ ph c := by
  induction h with
  | reset => exact .reset
  | commit _ _ hh hs ih => exact .step ih trivial (.commit hh hs)
  | writeback _ _ hh ih => exact .step ih trivial (.writeback hh)
  | drain _ _ ih => exact .step ih trivial .drain
  | operate _ _ hs ih => exact .step ih trivial (.operate hs)
  | issue _ _ ih => exact .step ih trivial .issue
  | dispatch _ _ ih => exact .step ih trivial .dispatch
  | fetch _ _ hs ih => exact .step ih trivial (.fetch hs)
  | edge _ _ hs ih => exact .step ih trivial (.edge hs)

/-- A run meets a guard that holds in every state up to the number of its last dispatch. -/
theorem Reach.dispatchesWhen {D : OoOCore M → Prop} {c₀ : OoOCore M} {ph : Phase} (hcfg : cfg.Accepted)
    (hk₀ : CoreOk cfg c₀) (h : Reach c₀ ph c) (hD : ∀ d, Reach c₀ .issued d → d.seqCtr ≤ c.seqCtr → D d) :
    ReachWhen (DispatchesWhen D) c₀ ph c := by
  have hall := h.stages
  induction hall with
  | reset => exact .reset
  | step hr _ hs ih =>
      obtain ⟨hk, hno⟩ := hr.reach.ok hcfg hk₀
      have hle := hs.seqCtr_le hcfg hk hno
      refine .step (ih hr.reach fun d hd hd' => hD d hd (Nat.le_trans hd' hle)) (fun hph => ?_) hs
      subst hph
      exact hD _ hr.reach hle

end Guarded

/-! ## Words in the ROB -/

section Words

variable {M : Type} {cfg : SimConfig} {c c' : OoOCore M}

/-- Each instruction in the ROB is what its word decodes to. -/
def WordsDecoded (c : OoOCore M) : Prop := ∀ i ∈ c.rob.slots, decode (c.rob.e i).ins.raw = (c.rob.e i).ins

theorem WordsDecoded.pushed {e : RobEntry} (h : WordsDecoded c) (hp : Pushed c.rob e)
    (hd : decode e.ins.raw = e.ins) (hr : c'.rob = pushRob c.rob e) : WordsDecoded c' := by
  intro i hi
  rw [hr] at hi ⊢
  rcases List.mem_append.mp (hp.slots ▸ hi) with hold | hnew
  · rw [hp.old i hold]
    exact h i hold
  · rw [List.mem_singleton.mp hnew, hp.new]
    exact hd

theorem Action.wordsDecoded [MemPorts Nat M] (ha : Action c c') (hb : BackOk c) (h : WordsDecoded c) :
    WordsDecoded c' := by
  have hraw : decode (decode c.fetchQ.head.raw).raw = decode c.fetchQ.head.raw :=
    congrArg decode (decode_raw c.fetchQ.head.raw)
  cases ha.robMoves hb with
  | kept hd =>
      intro i hi
      have hins : (c'.rob.e i).ins = (c.rob.e i).ins := (congrArg RobEntry.ins (hd.static i) :)
      rw [hins]
      exact h i (hd.live i hi)
  | system hr heq =>
      exact h.pushed (e := systemEntry c c.fetchQ.head) (RvO3.pushed hb.rob.wf hr.rob _) hraw
        (by rw [heq, dispatchSystem_eq])
  | op hr heq =>
      exact h.pushed (e := opEntry c c.fetchQ.head) (RvO3.pushed hb.rob.wf hr.rob _) hraw
        (by rw [heq, dispatchOp_eq])

end Words

/-! ## Tags that are fresh -/

section Appends

variable {M : Type} {cfg : SimConfig} {c c' c'' : OoOCore M}

/-- What dispatch does to the LSQ: it takes slots that are not in use, each once, and writes no other.
The data port is left alone. -/
structure Appends (c c' : OoOCore M) : Prop where
  msys : c'.msys = c.msys
  old : ∀ j ∈ c.lsq.ring.slots, j ∈ c'.lsq.ring.slots ∧ c'.lsq.at' j = c.lsq.at' j
  kept : ∀ j, (j ∈ c.lsq.ring.slots ∨ j ∉ c'.lsq.ring.slots) → c'.lsq.genCtr j = c.lsq.genCtr j
  taken : ∀ j ∈ c'.lsq.ring.slots, j ∉ c.lsq.ring.slots → c'.lsq.genCtr j = c.lsq.genCtr j + 1

/-- An update of anything but the LSQ and the port appends nothing. -/
theorem Appends.same (hq : c'.lsq = c.lsq) (hm : c'.msys = c.msys) : Appends c c' := by
  refine ⟨hm, ?_, ?_, ?_⟩ <;> rw [hq]
  · exact fun _ hj => ⟨hj, rfl⟩
  · exact fun _ _ => rfl
  · exact fun _ hj hfree => absurd hj hfree

theorem Appends.refl (c : OoOCore M) : Appends c c := .same rfl rfl

theorem Appends.trans (h : Appends c c') (h' : Appends c' c'') : Appends c c'' := by
  refine ⟨h'.msys.trans h.msys, fun j hj => ?_, fun j hj => ?_, fun j hj hfree => ?_⟩
  · obtain ⟨hj', heq⟩ := h.old j hj
    obtain ⟨hj'', heq'⟩ := h'.old j hj'
    exact ⟨hj'', heq'.trans heq⟩
  · rcases hj with hj | hj
    · exact (h'.kept j (.inl (h.old j hj).1)).trans (h.kept j (.inl hj))
    · have hj' : j ∉ c'.lsq.ring.slots := fun hin => hj (h'.old j hin).1
      exact (h'.kept j (.inr hj)).trans (h.kept j (.inr hj'))
  · by_cases hj' : j ∈ c'.lsq.ring.slots
    · exact (h'.kept j (.inl hj')).trans (h.taken j hj' hfree)
    · rw [h'.taken j hj hj', h.kept j (.inr hj')]

/-- A slot is taken once at most. -/
theorem Appends.genCtr_le (h : Appends c c') (j : Nat) :
    c.lsq.genCtr j ≤ c'.lsq.genCtr j ∧ c'.lsq.genCtr j ≤ c.lsq.genCtr j + 1 := by
  by_cases hj : j ∈ c.lsq.ring.slots
  · rw [h.kept j (.inl hj)]
    omega
  · by_cases hj' : j ∈ c'.lsq.ring.slots
    · rw [h.taken j hj' hj]
      omega
    · rw [h.kept j (.inr hj')]
      omega

/-- A memory instruction takes the slot at the tail. -/
theorem PushedLsq.appends {q : LSQ} {le : LsqEntry} (hp : PushedLsq c.lsq q le) (hq : c'.lsq = q)
    (hm : c'.msys = c.msys) : Appends c c' := by
  subst hq
  have hslots : ∀ {j : Nat}, j ∈ c'.lsq.ring.slots ↔ j ∈ c.lsq.ring.slots ∨ j = c.lsq.ring.allocIdx := by
    intro j
    rw [hp.slots, List.mem_append, List.mem_singleton]
  refine ⟨hm, fun j hj => ⟨hslots.mpr (.inl hj), hp.old j hj⟩, fun j hj => ?_, fun j hj hfree => ?_⟩
  · have hne : j ≠ c.lsq.ring.allocIdx := by
      rintro rfl
      rcases hj with hj | hj
      · exact hp.fresh hj
      · exact hj (hslots.mpr (.inr rfl))
    rw [hp.gen, Function.update_of_ne hne]
  · obtain rfl := (hslots.mp hj).resolve_left hfree
    rw [hp.gen, Function.update_self]

/-- One dispatch appends at most the slot that it takes. -/
theorem dispatchOne_appends (hk : CoreOk cfg c) (first : Bool) : Appends c (c.dispatchOne first).1 := by
  rcases dispatchOne_cases c first with heq | ⟨-, heq⟩ | ⟨hroom, heq⟩
  · rw [heq]
    exact .refl c
  · rw [heq]
    exact .same rfl rfl
  · rw [heq, dispatchOp_eq]
    by_cases hm : isMemOp (decode c.fetchQ.head.raw) = true
    · exact (pushedLsq hk.back.lsq.wf (hroom.lsq hm) _ _ _ _).appends (if_pos hm) rfl
    · exact .same (if_neg hm) rfl

/-- The dispatch stage is a sequence of dispatches, each of which appends. -/
theorem dispatchStage_appends (hcfg : cfg.Accepted) (hk : CoreOk cfg c) (hn : NoSystem c) :
    Relation.ReflTransGen (fun d d' : OoOCore M => Appends d d' ∧ ∃ first, NoSystem d ∧
      d' = (d.dispatchOne first).1) c c.dispatchStage ∧ Appends c c.dispatchStage := by
  have hsteps : Relation.ReflTransGen (fun d d' : OoOCore M => CoreOk cfg d → (Appends d d' ∧
      ∃ first, NoSystem d ∧ d' = (d.dispatchOne first).1) ∧ CoreOk cfg d') c c.dispatchStage :=
    dispatchLoop_steps (fun hnd hkd => ⟨⟨dispatchOne_appends hkd _, _, hnd, rfl⟩, hkd.dispatchOne hcfg _ hnd⟩)
      hcfg c.cfg.width hk hn
  suffices hall : (Relation.ReflTransGen (fun d d' : OoOCore M => Appends d d' ∧ ∃ first, NoSystem d ∧
      d' = (d.dispatchOne first).1) c c.dispatchStage ∧ Appends c c.dispatchStage) ∧ CoreOk cfg c.dispatchStage from
    hall.1
  generalize c.dispatchStage = d at hsteps ⊢
  induction hsteps with
  | refl => exact ⟨⟨.refl, .refl c⟩, hk⟩
  | tail _ hs ih =>
      obtain ⟨hstep, hk'⟩ := hs ih.2
      exact ⟨⟨ih.1.1.tail hstep, ih.1.2.trans hstep.1⟩, hk'⟩

end Appends

section Tags

variable {cfg : SimConfig} {image : Nat → Byte} {frames : Bool} {inputs : Nat → Word}
  {histLen : Nat → Nat} {c c' c'' : OoOCore (MemorySystem Nat)} {ph : Phase}

/-- No answer is owed to the next generation of a slot that is not in use. -/
def TagsFree (c : OoOCore (MemorySystem Nat)) : Prop :=
  ∀ j ∉ c.lsq.ring.slots, ∀ r ∈ c.msys.owed, ¬ NamesLoad r j ((c.lsq.genCtr j + 1) % 2 ^ 16)

/-- The dispatch stage asks for fresh tags only. -/
def TagsFresh (c : OoOCore (MemorySystem Nat)) : Prop := TakesFresh MemorySystem.owed c c.dispatchStage

/-- Each of two dispatches takes what the two take together. -/
theorem TakesFresh.split {M : Type} {owed : M → Multiset (MemResponse Nat)} {c c' c'' : OoOCore M}
    (h : TakesFresh owed c c'') (ha : Appends c c') (ha' : Appends c' c'') :
    TakesFresh owed c c' ∧ TakesFresh owed c' c'' := by
  refine ⟨fun j hj hfree r hr => ?_, fun j hj hfree r hr => ?_⟩
  · obtain ⟨hj', heq⟩ := ha'.old j hj
    rw [← heq]
    exact h j hj' hfree r hr
  · exact h j hj (fun hold => hfree (ha.old j hold).1) r (ha.msys ▸ hr)

/-- When the dispatch stage asks for fresh tags, each of its dispatches does. -/
theorem dispatchStage_fresh (hcfg : cfg.Accepted) (hk : CoreOk cfg c) (hn : NoSystem c) (h : TagsFresh c) :
    GuardedActions (TakesFresh MemorySystem.owed) c c.dispatchStage := by
  have hsteps := (dispatchStage_appends hcfg hk hn).1
  suffices hall : Appends c c.dispatchStage ∧ (TakesFresh MemorySystem.owed c c.dispatchStage →
      GuardedActions (TakesFresh MemorySystem.owed) c c.dispatchStage) from hall.2 h
  clear h hk hn
  generalize c.dispatchStage = d at hsteps ⊢
  induction hsteps using Relation.ReflTransGen.head_induction_on with
  | refl => exact ⟨.refl d, fun _ => .refl⟩
  | head hstep _ ih =>
      obtain ⟨ha, first, hn, rfl⟩ := hstep
      refine ⟨ha.trans ih.1, fun hfresh => ?_⟩
      obtain ⟨hfirst, hrest⟩ := hfresh.split ha ih.1
      exact .head ⟨.dispatch hn, fun _ => hfirst⟩ (ih.2 hrest)

/-- A run whose dispatch stages ask for fresh tags only is a sequence of actions that do. -/
theorem ReachWhen.fresh {c₀ : OoOCore (MemorySystem Nat)} (hcfg : cfg.Accepted) (hk₀ : CoreOk cfg c₀)
    (h : ReachWhen (DispatchesWhen TagsFresh) c₀ ph c) : GuardedActions (TakesFresh MemorySystem.owed) c₀ c :=
  h.guarded hcfg hk₀ (dispatchStage_fresh hcfg)

/-- A slot that dispatch takes has the next generation. -/
theorem dispatchStage_gen (hcfg : cfg.Accepted) (hk : ReplyOk cfg c) (hn : NoSystem c) {j : Nat}
    (hj : j ∈ c.dispatchStage.lsq.ring.slots) (hfree : j ∉ c.lsq.ring.slots) :
    (c.dispatchStage.lsq.at' j).gen = (c.lsq.genCtr j + 1) % 2 ^ 16 := by
  have hact : Actions c c.dispatchStage := dispatchLoop_actions hcfg c.cfg.width hk.core hn
  have hk' := Actions.replyOk hcfg hact hk
  rw [← (dispatchStage_appends hcfg hk.core hn).2.taken j hj hfree]
  exact hk'.tags.gen j hj

/-- With no answer owed to the next generation of any slot that is not in use, every tag is fresh. -/
theorem TagsFree.tagsFresh (hcfg : cfg.Accepted) (hk : ReplyOk cfg c) (hn : NoSystem c) (h : TagsFree c) :
    TagsFresh c := by
  intro j hj hfree r hr
  rw [dispatchStage_gen hcfg hk hn hj hfree]
  exact h j hfree r hr

/-- The blocks of an accepted hierarchy divide a memory that its lines divide. -/
theorem SimConfig.Accepted.blocks (hcfg : cfg.Accepted) (hfit : cfg.SizesFit)
    (hline : cfg.flatMemory = false → cfg.l2.lineBytes ∣ cfg.memBytes) (hcache : cfg.flatMemory = false) :
    cfg.fetchBlockBytes ∣ cfg.memBytes ∨ 2 ^ 32 ≤ cfg.memBytes := by
  obtain ⟨-, -, -, -, -, hblock⟩ := CacheHierarchy.geometries (τ := Nat) hcfg hcache hfit
  exact .inl (hblock.trans (hline hcache))

end Tags

/-! ## Answered runs -/

section Answered

variable {M : Type} [MemPorts Nat M] {cfg : SimConfig} {p : PortInOrder cfg M} {image : Nat → Byte} {frames : Bool}
  {inputs : Nat → Word} {histLen : Nat → Nat} {msys : M} {c c₀ : OoOCore M}

/-- What holds of memory operations: where they go, what loads have read, and the values that they use and
make. -/
structure MemoryOk (cfg : SimConfig) (image : Nat → Byte) (c : OoOCore M) : Prop where
  access : AccessesOk cfg cfg.memBytes c
  read : ∀ l ∈ c.lsq.ring.slots, (c.lsq.at' l).isStore = false → c.Untainted l → (c.lsq.at' l).done = true →
    ∃ v, Sees (committedMem image c) c.lsq l v ∧ (c.lsq.at' l).value = extendLoad (c.lsq.at' l).op v
  values : MemValuesOk cfg c
  decoded : WordsDecoded c

/-- Nothing is in the LSQ at reset. -/
theorem init_sightOk (hcfg : cfg.Accepted) (frames : Bool) (inputs : Nat → Word) (histLen : Nat → Nat)
    (hok : p.ok msys) (hsize : MemPorts.memSize msys = cfg.memBytes) :
    SightOk p (p.newest msys) (OoOCore.init cfg frames inputs histLen msys, fun _ => none) := by
  have hslots : (OoOCore.init cfg frames inputs histLen msys).lsq.ring.slots = [] := Ring.slots_init _
  refine ⟨init_accessesOk hcfg frames inputs histLen _ hsize, fun _ => init_wallHolds frames inputs histLen _,
    ⟨hok, [], ⟨[], rfl, rfl⟩, rfl⟩, fun l hl => ?_⟩
  dsimp only at hl
  rw [hslots] at hl
  cases hl

/-- Nothing is owed to a load at reset. -/
theorem init_matched (hlsq : cfg.lsqSize ≤ 2 ^ 32) (frames : Bool) (inputs : Nat → Word) (histLen : Nat → Nat)
    (msys : M) : Matched p (OoOCore.init cfg frames inputs histLen msys, fun _ => none) := by
  have hslots : (OoOCore.init cfg frames inputs histLen msys).lsq.ring.slots = [] := Ring.slots_init _
  refine ⟨.init hlsq, fun j hj => ?_, fun j hj => ?_⟩
  · rw [hslots] at hj
    cases hj
  · dsimp only at hj
    rw [hslots] at hj
    cases hj

/-- What a run keeps whose responses reach the loads that they answer. -/
theorem sightOk_of_answered (hcfg : cfg.Accepted) (hmem : cfg.memBytes < 2 ^ 32)
    {x y : OoOCore M × (Nat → Option (MemResponse Nat))} (hx : SightOk p image x)
    (h : Relation.ReflTransGen (AnsweredStep p) x y) : SightOk p image y := by
  induction h with
  | refl => exact hx
  | tail _ ha ih => exact ha.sightOk hcfg hmem ih

/-- In a run that asks for fresh tags only the responses reach the loads that they answer. -/
theorem GuardedActions.answered (hcfg : cfg.Accepted) (hmem : cfg.memBytes < 2 ^ 32)
    {answers₀ : Nat → Option (MemResponse Nat)} (h₀ : SightOk p image (c₀, answers₀)) (hm₀ : Matched p (c₀, answers₀))
    (h : GuardedActions (TakesFresh p.owed) c₀ c) :
    ∃ answers, Relation.ReflTransGen (AnsweredStep p) (c₀, answers₀) (c, answers) ∧ Matched p (c, answers) := by
  induction h with
  | refl => exact ⟨answers₀, .refl, hm₀⟩
  | tail _ ha ih =>
      obtain ⟨answers, hrun, hm⟩ := ih
      have hsight := sightOk_of_answered hcfg hmem h₀ hrun
      obtain ⟨answers', hstep, hm'⟩ := hm.step hcfg ha.1 ha.2 hsight.access hsight.port
      exact ⟨answers', hrun.tail hstep, hm'⟩

/-- What such a run keeps about memory operations. -/
theorem memoryOk_of_answered (hcfg : cfg.Accepted) (hmem : cfg.memBytes < 2 ^ 32) (hok : p.ok msys)
    (hsize : MemPorts.memSize msys = cfg.memBytes) {answers : Nat → Option (MemResponse Nat)}
    (h : Relation.ReflTransGen (AnsweredStep p) (OoOCore.init cfg frames inputs histLen msys, fun _ => none)
      (c, answers)) : MemoryOk cfg (p.newest msys) c := by
  have hsight := sightOk_of_answered hcfg hmem (init_sightOk hcfg frames inputs histLen hok hsize) h
  have hslots : (OoOCore.init cfg frames inputs histLen msys).lsq.ring.slots = [] := Ring.slots_init _
  have h₀ : MemValuesOk cfg (OoOCore.init cfg frames inputs histLen msys) ∧
      WordsDecoded (OoOCore.init cfg frames inputs histLen msys) := by
    have hacc := init_accessesOk hcfg frames inputs histLen msys hsize
    refine ⟨⟨hacc.core, hacc.lsq, init_valuesOk hcfg frames inputs histLen _, fun j hj => ?_, fun j hj => ?_⟩,
      fun i hi => ?_⟩
    · rw [hslots] at hj
      cases hj
    · rw [hslots] at hj
      cases hj
    · rw [init_rob_slots] at hi
      cases hi
  have hboth : MemValuesOk cfg c ∧ WordsDecoded c := by
    suffices hall : ∀ y, Relation.ReflTransGen (AnsweredStep p)
        (OoOCore.init cfg frames inputs histLen msys, fun _ => none) y →
        MemValuesOk cfg y.1 ∧ WordsDecoded y.1 from hall _ h
    intro y hy
    induction hy with
    | refl => exact h₀
    | tail _ ha ih => exact ⟨ha.action.memValuesOk hcfg ih.1, ha.action.wordsDecoded ih.1.core.back ih.2⟩
  exact ⟨hsight.access, fun l hl hst ht => (hsight.loads l hl hst ht).done, hboth.1, hboth.2⟩

end Answered

/-! ## The assembled machine -/

section Assembled

variable {cfg : SimConfig} {image : Nat → Byte} {frames : Bool} {inputs : Nat → Word} {histLen : Nat → Nat}
  {c : OoOCore (MemorySystem Nat)}

/-- At reset the port is in order, and the newest bytes are those of the image. -/
theorem MemorySystem.inOrder_init (hcfg : cfg.Accepted) (hfit : cfg.SizesFit)
    (hline : cfg.flatMemory = false → cfg.fetchBlockBytes ∣ cfg.memBytes ∨ 2 ^ 32 ≤ cfg.memBytes) :
    (MemorySystem.inOrder image hcfg hfit hline).ok (.init cfg image) ∧
      (MemorySystem.inOrder image hcfg hfit hline).newest (.init cfg image) = image :=
  ⟨⟨[], .reset⟩, (MemorySystem.ok_init (P := fun _ => True) hcfg hfit).2.1⟩

/-- In a run of the assembled machine that asks for fresh tags only, responses reach the loads that they
answer. -/
theorem GuardedActions.system_answered (hcfg : cfg.Accepted) (hfit : cfg.SizesFit) (hmem : cfg.memBytes < 2 ^ 32)
    (hlsq : cfg.lsqSize ≤ 2 ^ 32)
    (hline : cfg.flatMemory = false → cfg.fetchBlockBytes ∣ cfg.memBytes ∨ 2 ^ 32 ≤ cfg.memBytes)
    (h : GuardedActions (TakesFresh MemorySystem.owed)
      (OoOCore.init cfg frames inputs histLen (MemorySystem.init cfg image)) c) :
    ∃ answers, Relation.ReflTransGen (AnsweredStep (MemorySystem.inOrder image hcfg hfit hline))
      (OoOCore.init cfg frames inputs histLen (MemorySystem.init cfg image), fun _ => none) (c, answers) := by
  obtain ⟨answers, hrun, -⟩ := GuardedActions.answered (p := MemorySystem.inOrder image hcfg hfit hline) hcfg hmem
    (init_sightOk hcfg frames inputs histLen (MemorySystem.inOrder_init hcfg hfit hline).1
      (MemorySystem.memSize_init cfg image)) (init_matched hlsq frames inputs histLen _) h
  exact ⟨answers, hrun⟩

/-- What such a run keeps about memory operations. -/
theorem GuardedActions.memoryOk (hcfg : cfg.Accepted) (hfit : cfg.SizesFit) (hmem : cfg.memBytes < 2 ^ 32)
    (hlsq : cfg.lsqSize ≤ 2 ^ 32)
    (hline : cfg.flatMemory = false → cfg.fetchBlockBytes ∣ cfg.memBytes ∨ 2 ^ 32 ≤ cfg.memBytes)
    (h : GuardedActions (TakesFresh MemorySystem.owed)
      (OoOCore.init cfg frames inputs histLen (MemorySystem.init cfg image)) c) : MemoryOk cfg image c := by
  obtain ⟨answers, hrun⟩ := h.system_answered hcfg hfit hmem hlsq hline
  obtain ⟨hok, hnewest⟩ := MemorySystem.inOrder_init hcfg hfit hline
  have hmemory := memoryOk_of_answered hcfg hmem hok (MemorySystem.memSize_init cfg image) hrun
  rwa [hnewest] at hmemory

end Assembled

end RvO3
