import RvO3.Core.RobSteps

/-!
# No load passes an unresolved store

In Conservative and Bypass mode the oldest store without an address is a wall: a younger
load is neither sent to the cache nor given a store's data while it stands. So when the
address arrives no younger load has read anything, and a violation scan would find no load
whose access is sound.
-/

set_option autoImplicit false

namespace RvO3

open OoOCore

/-! ## Loads behind the wall -/

/-- A load that has read nothing: it was not sent, and if it is done its access faults.
`f` gives the fault at each ROB index. -/
def Unread (f : Nat → Nat) (le : LsqEntry) : Prop :=
  le.issued = false ∧ (le.done = true → f le.robIdx ≠ 0)

/-- A load younger than a store without an address has read nothing. -/
def WallHolds (f : Nat → Nat) (q : LSQ) : Prop :=
  ∀ s ∈ q.ring.slots, ∀ l ∈ q.ring.slots, (q.at' s).isUnknownStore = true →
    (q.at' l).isStore = false → (q.at' s).seq < (q.at' l).seq → Unread f (q.at' l)

section Operations

variable {f g : Nat → Nat} {q : LSQ} {op : LsqOp}

theorem WallHolds.congr (h : WallHolds f q)
    (hfg : ∀ l ∈ q.ring.slots, (q.at' l).done = true → g (q.at' l).robIdx = f (q.at' l).robIdx) :
    WallHolds g q := by
  intro s hs l hl hu hst hlt
  obtain ⟨hi, hd⟩ := h s hs l hl hu hst hlt
  refine ⟨hi, fun hdone => ?_⟩
  rw [hfg l hl hdone]
  exact hd hdone

/-- An operation that reads memory for a load is made where no wall stands before it. -/
def BehindNoWall (f : Nat → Nat) (q : LSQ) : LsqOp → Prop
  | .issueLoad slot => ∀ s ∈ q.ring.slots, (q.at' s).isUnknownStore = true →
      ¬ (q.at' s).seq < (q.at' slot).seq
  | .completeLoad slot _ => f (q.at' slot).robIdx ≠ 0 ∨
      ∀ s ∈ q.ring.slots, (q.at' s).isUnknownStore = true → ¬ (q.at' s).seq < (q.at' slot).seq
  | _ => True

/-- What an operation keeps of one entry. -/
theorem LsqOp.rewrite_static (op : LsqOp) (j : Nat) (le : LsqEntry) :
    (op.rewrite j le).seq = le.seq ∧ (op.rewrite j le).robIdx = le.robIdx ∧
      (op.rewrite j le).isStore = le.isStore ∧
      ((op.rewrite j le).isUnknownStore = true → le.isUnknownStore = true) := by
  cases op <;> simp only [LsqOp.rewrite] <;> (try split) <;>
    simp_all [LsqEntry.isUnknownStore]

/-- An operation that is not made for a load leaves it unread. -/
theorem LsqOp.rewrite_unread {j : Nat} {le : LsqEntry} (h : Unread f le)
    (hi : op ≠ .issueLoad j) (hc : ∀ v, op = .completeLoad j v → f le.robIdx ≠ 0) :
    Unread f (op.rewrite j le) := by
  cases op with
  | issueLoad slot =>
      by_cases he : j = slot
      · exact absurd (by rw [he]) hi
      · simpa [LsqOp.rewrite, he] using h
  | completeLoad slot v =>
      by_cases he : j = slot
      · simp only [LsqOp.rewrite, he, if_true]
        exact ⟨h.1, fun _ => hc v (by rw [he])⟩
      · simpa [LsqOp.rewrite, he] using h
  | resolve slot addr size =>
      simp only [LsqOp.rewrite]
      split <;> exact h
  | capture slot v =>
      simp only [LsqOp.rewrite]
      split <;> exact h
  | reportLoad slot =>
      simp only [LsqOp.rewrite]
      split <;> exact h
  | dispatch _ _ _ _ => exact h
  | popHead => exact h
  | popTail => exact h

theorem WallHolds.run (h : WallHolds f q) (hq : q.Wf) (ha : op.Allowed q)
    (hb : BehindNoWall f q op) : WallHolds f (op.run q) := by
  intro s hs l hl hu hst hlt
  have h1 := op.slotAfter hq ha hs
  have h2 := op.slotAfter hq ha hl
  generalize (op.run q).at' s = es at h1 hu hlt
  generalize (op.run q).at' l = el at h2 hst hlt ⊢
  cases h2 with
  | new _ => exact ⟨rfl, nofun⟩
  | old hl' =>
      cases h1 with
      | new hs' =>
          -- the store was just dispatched, so nothing is younger
          have hlt' := ha.2 l hl'
          exact absurd hlt (Nat.lt_asymm hlt')
      | old hs' =>
          obtain ⟨hseq, -, -, hunk⟩ := op.rewrite_static s (q.at' s)
          obtain ⟨hseq', -, hstore, -⟩ := op.rewrite_static l (q.at' l)
          rw [hseq, hseq'] at hlt
          rw [hstore] at hst
          refine LsqOp.rewrite_unread (h s hs' l hl' (hunk hu) hst hlt) ?_ ?_
          · rintro rfl
            exact hb s hs' (hunk hu) hlt
          · rintro v rfl
            rcases hb with hb | hb
            · exact hb
            · exact absurd hlt (hb s hs' (hunk hu))

end Operations

/-! ## The core keeps the wall -/

section Core

variable {M : Type} {cfg : SimConfig} {c c' : OoOCore M}

/-- The fault of each ROB entry. -/
def OoOCore.faults (c : OoOCore M) : Nat → Nat := fun i => (c.rob.e i).fault

/-- Outside Speculative mode a load that may go has no unresolved older store. -/
theorem OoOCore.MayGo.noWall (ho : c.lsq.Ordered) (hmode : c.cfg.memOrder ≠ .Speculative)
    {slot : Nat} (h : c.MayGo slot) :
    ∀ s ∈ c.lsq.ring.slots, (c.lsq.at' s).isUnknownStore = true →
      ¬ (c.lsq.at' s).seq < (c.lsq.at' slot).seq := by
  have hcautious : c.cautious (c.lsq.at' slot) = true := by
    simp [OoOCore.cautious, hmode]
  have hwall : c.wall slot = false := by
    rw [← Bool.not_eq_true]
    intro hw
    rw [h.notWalled hw] at hcautious
    cases hcautious
  intro s hs hu
  exact Nat.not_lt.mpr (ho.le_of_before ho.wf.unknownStores hwall hs hu)

/-- Popping entries and resolving an address read nothing. -/
theorem WallHolds.steps {f : Nat → Nat} {q q' : LSQ} {J : LsqOp → Prop}
    (hJ : ∀ q op, J op → BehindNoWall f q op) (hq : q.Ordered) (h : WallHolds f q)
    (hs : LsqSteps J q q') : WallHolds f q' := by
  have hboth : q'.Ordered ∧ WallHolds f q' :=
    hs.preserve (I := fun q => q.Ordered ∧ WallHolds f q)
      (fun hj ha hi => ⟨hi.1.run ha, hi.2.run hi.1.wf ha (hJ _ _ hj)⟩) ⟨hq, h⟩
  exact hboth.2

theorem Justified.behindNoWall (ho : c.lsq.Ordered) (hmode : c.cfg.memOrder ≠ .Speculative)
    (h : WallHolds c.faults c.lsq) {op : LsqOp} (ha : op.Allowed c.lsq) (hj : Justified c op) :
    BehindNoWall c.faults c.lsq op := by
  cases op with
  | issueLoad slot => exact hj.1.noWall ho hmode
  | completeLoad slot v =>
      cases hj with
      | reply hp =>
          -- the load was sent, so no wall stood before it
          apply Or.inr
          intro s hs hu hlt
          simp only [LsqEntry.isPending, Bool.and_eq_true, Bool.not_eq_true'] at hp
          have hun := (h s hs slot ha.1 hu hp.1.1 hlt).1
          rw [hun] at hp
          exact absurd hp.1.2 (by simp)
      | fault _ hf => exact Or.inl hf
      | forward hg _ => exact Or.inr (hg.noWall ho hmode)
  | resolve slot addr size => exact trivial
  | dispatch e robIdx ps2 prf => exact trivial
  | capture slot v => exact trivial
  | reportLoad slot => exact trivial
  | popHead => exact trivial
  | popTail => exact trivial

variable [MemPorts Nat M]

theorem Action.wallHolds (ha : Action c c') (hb : BackOk c) (ho : c.lsq.Ordered)
    (hmode : c.cfg.memOrder ≠ .Speculative) (h : WallHolds c.faults c.lsq) :
    WallHolds c'.faults c'.lsq := by
  have hfault : ∀ j ∈ c.lsq.ring.slots, (c.lsq.at' j).addrValid = true →
      c'.faults (c.lsq.at' j).robIdx = c.faults (c.lsq.at' j).robIdx :=
    fun j hj hv => ha.fault_eq hb hj hv
  -- the faults of the loads that are done stay, so the wall can be judged by the new ones
  have h' : WallHolds c'.faults c.lsq :=
    h.congr fun l hl hd => hfault l hl ((ho.flags l hl).load_done hd)
  have hchange := ha.lsqChange hb
  generalize c'.lsq = q' at hchange ⊢
  cases hchange with
  | once hs =>
      cases hs with
      | refl => exact h'
      | single hs =>
          obtain ⟨op, hj, hal, heq⟩ := hs
          rw [heq]
          apply h'.run ho.wf hal
          have hn := hj.behindNoWall ho hmode h hal
          cases op with
          | completeLoad slot v =>
              rcases hn with hn | hn
              · left
                rw [hfault slot hal.1]
                · exact hn
                · rcases hal.2 with hc | hp
                  · simp only [LsqEntry.isCandidate, Bool.and_eq_true] at hc
                    exact hc.1.1.2
                  · simp only [LsqEntry.isPending, Bool.and_eq_true] at hp
                    exact (ho.flags slot hal.1).load_issued hp.1.2
              · exact Or.inr hn
          | issueLoad slot => exact hn
          | resolve slot addr size => exact trivial
          | dispatch e robIdx ps2 prf => exact trivial
          | capture slot v => exact trivial
          | reportLoad slot => exact trivial
          | popHead => exact trivial
          | popTail => exact trivial
  | squash hs =>
      refine h'.steps ?_ ho hs
      rintro q _ rfl
      exact trivial
  | drain hs hs' =>
      have hres : ∀ q op, Resolves c op → BehindNoWall c'.faults q op := by
        rintro q _ ⟨i, -, rfl⟩
        exact trivial
      have ho₁ := LsqSteps.preserve (I := LSQ.Ordered) (fun _ ha hq => hq.run ha) hs.to_reflTransGen ho
      refine (h'.steps hres ho hs.to_reflTransGen).steps ?_ ho₁ hs'
      rintro q _ rfl
      exact trivial

/-! ## No load reads past the wall -/

/-- In this step the live load at slot `l` is sent to the cache, or completes with a
store's data. -/
structure LoadReads (c c' : OoOCore M) (l : Nat) : Prop where
  live : l ∈ c.lsq.ring.slots
  live' : l ∈ c'.lsq.ring.slots
  notSent : (c.lsq.at' l).issued = false
  reads : (c'.lsq.at' l).issued = true ∨
    ((c.lsq.at' l).done = false ∧ (c'.lsq.at' l).done = true ∧
      (c.rob.e (c.lsq.at' l).robIdx).fault = 0)

/-- Taking entries off the tail and resolving addresses completes and sends no load. -/
theorem LsqSteps.unread {q q' : LSQ} {J : LsqOp → Prop}
    (hJ : ∀ op, J op → op = .popTail ∨ ∃ slot addr size, op = .resolve slot addr size)
    (hq : q.Ordered) (hs : LsqSteps J q q') :
    ∀ j ∈ q'.ring.slots, j ∈ q.ring.slots ∧ (q'.at' j).issued = (q.at' j).issued ∧
      (q'.at' j).done = (q.at' j).done := by
  have hboth : q'.Ordered ∧ ∀ j ∈ q'.ring.slots, j ∈ q.ring.slots ∧
      (q'.at' j).issued = (q.at' j).issued ∧ (q'.at' j).done = (q.at' j).done := by
    refine hs.preserve (I := fun p => p.Ordered ∧ ∀ j ∈ p.ring.slots, j ∈ q.ring.slots ∧
      (p.at' j).issued = (q.at' j).issued ∧ (p.at' j).done = (q.at' j).done) ?_
      ⟨hq, fun j hj => ⟨hj, rfl, rfl⟩⟩
    intro p op hj ha hp
    refine ⟨hp.1.run ha, fun j hmem => ?_⟩
    have hsl := op.slotAfter hp.1.wf ha hmem
    generalize (op.run p).at' j = le at hsl
    rcases hJ op hj with rfl | ⟨slot, addr, size, rfl⟩
    · cases hsl with
      | old hm => exact hp.2 j hm
    · cases hsl with
      | old hm =>
          obtain ⟨h1, h2, h3⟩ := hp.2 j hm
          refine ⟨h1, ?_⟩
          simp only [LsqOp.rewrite]
          split
          · exact ⟨h2, h3⟩
          · exact ⟨h2, h3⟩
  exact hboth.2

theorem LoadReads.noWall (ha : Action c c') (hb : BackOk c) (ho : c.lsq.Ordered)
    (hmode : c.cfg.memOrder ≠ .Speculative) {l : Nat} (hr : LoadReads c c' l) :
    ∀ s ∈ c.lsq.ring.slots, (c.lsq.at' s).isUnknownStore = true →
      ¬ (c.lsq.at' s).seq < (c.lsq.at' l).seq := by
  obtain ⟨hl, hl', hns, hread⟩ := hr
  have hchange := ha.lsqChange hb
  generalize c'.lsq = q' at hchange hl' hread
  -- a change that neither sends nor completes the load is no reading
  have hsame : (q'.at' l).issued = (c.lsq.at' l).issued ∧ (q'.at' l).done = (c.lsq.at' l).done →
      ∀ s ∈ c.lsq.ring.slots, (c.lsq.at' s).isUnknownStore = true →
        ¬ (c.lsq.at' s).seq < (c.lsq.at' l).seq := by
    rintro ⟨h1, h2⟩
    rw [h1, h2, hns] at hread
    rcases hread with hread | ⟨h3, h4, -⟩
    · cases hread
    · rw [h3] at h4
      cases h4
  cases hchange with
  | once hs =>
      cases hs with
      | refl => exact hsame ⟨rfl, rfl⟩
      | single hs =>
          obtain ⟨op, hj, hal, rfl⟩ := hs
          have hsl := op.slotAfter ho.wf hal hl'
          generalize (op.run c.lsq).at' l = le at hsl hread hsame
          cases hsl with
          | new hnot => exact absurd hl hnot
          | old _ =>
              cases op with
              | issueLoad slot =>
                  by_cases he : l = slot
                  · rw [he]
                    exact hj.1.noWall ho hmode
                  · exact hsame (by simp [LsqOp.rewrite, he])
              | completeLoad slot v =>
                  by_cases he : l = slot
                  · subst he
                    cases hj with
                    | reply hp =>
                        simp only [LsqEntry.isPending, Bool.and_eq_true] at hp
                        rw [hns] at hp
                        exact absurd hp.1.2 (by simp)
                    | forward hg _ => exact hg.noWall ho hmode
                    | fault _ hf =>
                        simp only [LsqOp.rewrite, if_true] at hread
                        rcases hread with hread | ⟨-, -, hz⟩
                        · rw [hns] at hread
                          cases hread
                        · exact absurd hz hf
                  · exact hsame (by simp [LsqOp.rewrite, he])
              | resolve slot addr size =>
                  apply hsame
                  simp only [LsqOp.rewrite]
                  split <;> exact ⟨rfl, rfl⟩
              | capture slot v =>
                  apply hsame
                  simp only [LsqOp.rewrite]
                  split <;> exact ⟨rfl, rfl⟩
              | reportLoad slot =>
                  apply hsame
                  simp only [LsqOp.rewrite]
                  split <;> exact ⟨rfl, rfl⟩
              | dispatch e robIdx ps2 prf => exact hsame ⟨rfl, rfl⟩
              | popHead => exact hsame ⟨rfl, rfl⟩
              | popTail => exact hsame ⟨rfl, rfl⟩
  | squash hs => exact hsame (hs.unread (fun op h => Or.inl h) ho l hl').2
  | drain hs hs' =>
      have hs₁ := hs.to_reflTransGen
      have ho₁ := LsqSteps.preserve (I := LSQ.Ordered) (fun _ ha hq => hq.run ha) hs₁ ho
      obtain ⟨hm, h1, h2⟩ := hs'.unread (fun op h => Or.inl h) ho₁ l hl'
      obtain ⟨-, h3, h4⟩ := LsqSteps.unread (fun op h => by
        obtain ⟨i, -, rfl⟩ := h
        exact Or.inr ⟨_, _, _, rfl⟩) ho hs₁ l hm
      exact hsame ⟨h1.trans h3, h2.trans h4⟩

/-! ## A store's address resolves -/

/-- The state in which the address-generation result of unit `i` has just filled its entry:
every load younger than a store it resolved has read nothing. -/
structure ResolvesUnread (c : OoOCore M) (i : Nat) : Prop where
  unread : ∀ l ∈ (c.fillOne i).lsq.ring.slots, ((c.fillOne i).lsq.at' l).isStore = false →
    ((c.fillOne i).lsq.at' (c.agus[i]?.getD default).out.lsqIdx).seq <
      ((c.fillOne i).lsq.at' l).seq →
    Unread (c.fillOne i).faults ((c.fillOne i).lsq.at' l)
  /-- A violation scan would find no victim whose access is sound. -/
  victim : ∀ slot, (c.fillOne i).violationVictim
      ((c.fillOne i).lsq.at' (c.agus[i]?.getD default).out.lsqIdx) = some slot →
    (c.fillOne i).faults ((c.fillOne i).lsq.at' slot).robIdx ≠ 0

theorem WallHolds.resolves (hb : BackOk c) (h : WallHolds c.faults c.lsq) {i : Nat}
    (hi : c.readyAgu = some i)
    (hst : (c.lsq.at' (c.agus[i]?.getD default).out.lsqIdx).isStore = true) :
    ResolvesUnread c i := by
  have hd := hb.delivered hi
  have hbd := hb.fillOne hi
  have hring := fillAddress_ring c.lsq (c.agus[i]?.getD default).out
  have hlsq : (c.fillOne i).lsq = fillAddress c.lsq (c.agus[i]?.getD default).out := by
    rw [fillOne_eq]
  have hrob : (c.fillOne i).faults = fun k => if k = (c.agus[i]?.getD default).out.robIdx then
      (c.fillOne i).faults k else c.faults k := by
    funext k
    split
    · rfl
    · rename_i hk
      unfold OoOCore.faults
      rw [fillOne_eq]
      simp [hk]
  have hslots : (c.fillOne i).lsq.ring.slots = c.lsq.ring.slots := by
    rw [hlsq, hring, Ring.slots_set]
  have hentry : ∀ j, j ≠ (c.agus[i]?.getD default).out.lsqIdx →
      (c.fillOne i).lsq.at' j = c.lsq.at' j := by
    intro j hj
    rw [hlsq, LSQ.at', hring, Ring.set_e, Function.update_of_ne hj]
    rfl
  have hself : ((c.fillOne i).lsq.at' (c.agus[i]?.getD default).out.lsqIdx).seq =
        (c.lsq.at' (c.agus[i]?.getD default).out.lsqIdx).seq ∧
      ((c.fillOne i).lsq.at' (c.agus[i]?.getD default).out.lsqIdx).isStore = true := by
    rw [hlsq, LSQ.at', hring, Ring.set_self_e]
    exact ⟨rfl, hst⟩
  generalize hop : (c.agus[i]?.getD default).out = op at hd hst hrob hentry hself
  have hunread : ∀ l ∈ (c.fillOne i).lsq.ring.slots, ((c.fillOne i).lsq.at' l).isStore = false →
      ((c.fillOne i).lsq.at' op.lsqIdx).seq < ((c.fillOne i).lsq.at' l).seq →
      Unread (c.fillOne i).faults ((c.fillOne i).lsq.at' l) := by
    intro l hl hload hlt
    have hne : l ≠ op.lsqIdx := by
      rintro rfl
      rw [hself.2] at hload
      cases hload
    rw [hslots] at hl
    rw [hself.1, hentry l hne] at hlt
    rw [hentry l hne] at hload ⊢
    have hun : (c.lsq.at' op.lsqIdx).isUnknownStore = true := by
      rw [LsqEntry.isUnknownStore, hst, hd.lsq.unresolved]
      rfl
    obtain ⟨h1, h2⟩ := h op.lsqIdx hd.lsq.live l hl hun hload hlt
    refine ⟨h1, fun hdone => ?_⟩
    -- the result belongs to another entry, so this load's fault is unchanged
    have hother : (c.lsq.at' l).robIdx ≠ op.robIdx := fun he =>
      hne (hb.lsq.rob_inj hb.rob.wf hl hd.lsq.live (he.trans hd.lsq.robIdx.symm))
    rw [hrob]
    dsimp only
    rw [if_neg hother]
    exact h2 hdone
  subst hop
  refine ⟨hunread, fun slot hs => ?_⟩
  unfold OoOCore.violationVictim at hs
  have hmem := List.mem_of_find?_eq_some hs
  have hyounger := List.find?_some hs
  simp only [Bool.and_eq_true, decide_eq_true_eq] at hyounger
  rw [LSQ.visitAccessedLoads, hbd.lsq.wf.accessedLoads, LSQ.visit_liveSet hbd.lsq.wf.ring,
    List.mem_filter] at hmem
  obtain ⟨hl, hacc⟩ := hmem
  simp only [LsqEntry.isAccessed, Bool.and_eq_true, Bool.not_eq_true', Bool.or_eq_true] at hacc
  obtain ⟨h1, h2⟩ := hunread slot hl hacc.1 hyounger.1
  rcases hacc.2 with hsent | hdone
  · rw [h1] at hsent
    cases hsent
  · exact h2 hdone

/-! ## Every run -/

omit [MemPorts Nat M] in
theorem init_wallHolds (frames : Bool) (inputs : Nat → Word) (histLen : Nat → Nat) (msys : M) :
    WallHolds (OoOCore.init cfg frames inputs histLen msys).faults
      (OoOCore.init cfg frames inputs histLen msys).lsq := by
  intro s hs
  rw [show (OoOCore.init cfg frames inputs histLen msys).lsq.ring.slots = [] from
    Ring.slots_init _] at hs
  cases hs

/-- What the non-speculative modes keep. -/
structure WallOk (cfg : SimConfig) (c : OoOCore M) : Prop where
  core : CoreOk cfg c
  lsq : c.lsq.Ordered
  wall : WallHolds c.faults c.lsq

theorem Actions.wallOk (hcfg : cfg.Accepted) (hmode : cfg.memOrder ≠ .Speculative) (frames : Bool)
    (inputs : Nat → Word) (histLen : Nat → Nat) (msys : M)
    (h : Actions (OoOCore.init cfg frames inputs histLen msys) c) : WallOk cfg c := by
  refine h.preserve (I := WallOk cfg) (fun {d d'} ha hd => ?_)
    ⟨init_coreOk frames inputs histLen msys hcfg, .init (LSQ.wf_init hcfg.lsq_pos),
      init_wallHolds frames inputs histLen msys⟩
  have hmode' : d.cfg.memOrder ≠ .Speculative := by
    rw [hd.core.config]
    exact hmode
  exact ⟨ha.coreOk hcfg hd.core, ha.lsqOrdered hd.core.back hd.lsq,
    ha.wallHolds hd.core.back hd.lsq hmode' hd.wall⟩

/-- In Conservative and Bypass mode no load is sent to the cache or given a store's data
while an older live store has no address. So no load younger than a store whose address
resolves has read anything by then, and a violation scan there would find no victim whose
access is sound. -/
theorem no_load_passes_the_wall (hcfg : cfg.Accepted) (hmode : cfg.memOrder ≠ .Speculative)
    (frames : Bool) (inputs : Nat → Word) (histLen : Nat → Nat) (msys : M) :
    (∀ c c', Actions (OoOCore.init cfg frames inputs histLen msys) c → Action c c' →
      ∀ l, LoadReads c c' l → ∀ s ∈ c.lsq.ring.slots, (c.lsq.at' s).isStore = true →
        (c.lsq.at' s).seq < (c.lsq.at' l).seq → (c.lsq.at' s).addrValid = true) ∧
      (∀ c i, Actions (OoOCore.init cfg frames inputs histLen msys) c → c.readyAgu = some i →
        (c.lsq.at' (c.agus[i]?.getD default).out.lsqIdx).isStore = true → ResolvesUnread c i) ∧
      ∀ ph c, Reach (OoOCore.init cfg frames inputs histLen msys) ph c →
        WallHolds c.faults c.lsq := by
  refine ⟨fun c c' hr ha l hl s hs hst hlt => ?_, fun c i hr hi hst => ?_, fun ph c hr => ?_⟩
  · have hok := Actions.wallOk hcfg hmode frames inputs histLen msys hr
    have hmode' : c.cfg.memOrder ≠ .Speculative := by
      rw [hok.core.config]
      exact hmode
    rw [← Bool.not_eq_false]
    intro hv
    refine hl.noWall ha hok.core.back hok.lsq hmode' s hs ?_ hlt
    rw [LsqEntry.isUnknownStore, hst, hv]
    rfl
  · have hok := Actions.wallOk hcfg hmode frames inputs histLen msys hr
    exact hok.wall.resolves hok.core.back hi hst
  · have hk₀ := init_coreOk frames inputs histLen msys hcfg
    exact (Actions.wallOk hcfg hmode frames inputs histLen msys (hr.actions hcfg hk₀)).wall

end Core

/-- The busy machine in Bypass mode. -/
def bypassConfig : SimConfig := { busyConfig with memOrder := .Bypass }

theorem bypassConfig_accepted : bypassConfig.Accepted :=
  validateConfig_ok (by decide : validateConfig bypassConfig = .ok bypassConfig)

/-- The busy program in Bypass mode. -/
def bypassCore : OoOCore (MemorySystem Nat) :=
  OoOCore.init bypassConfig false (fun _ => 0) (fun _ => 0)
    (MemorySystem.init bypassConfig fun a => wordByte (busyProgram (a / 4)) (a % 4))

/-- The two loads have had their addresses for six cycles when the older store's arrives: neither has
read anything, and no step lets one read before the store has its address. In that cycle the first of
them takes the store's data. -/
theorem no_load_passes_the_wall_bypass :
    (∃ c, Reach bypassCore .wrote c ∧
      c.lsq.ring.slots.filter (fun j => (c.lsq.at' j).isUnknownStore) = [0] ∧
      c.lsq.ring.slots.filter c.lsq.candidates = [1, 2] ∧ c.readyAgu = some 0 ∧
      (∀ c', Action c c' → ¬ LoadReads c c' 1) ∧ ResolvesUnread c 0 ∧ WallHolds c.faults c.lsq) ∧
    ∃ c c', Reach bypassCore .drained c ∧ Action c c' ∧ LoadReads c c' 1 ∧
      (c'.lsq.at' 1).value = 5 ∧ (c.lsq.at' 0).isStore = true ∧ (c.lsq.at' 0).addrValid = true := by
  have hcfg := bypassConfig_accepted
  have hmode : bypassConfig.memOrder ≠ .Speculative := by decide
  have hwall := no_load_passes_the_wall hcfg hmode false (fun _ => 0) (fun _ => 0)
    (MemorySystem.init bypassConfig fun a => wordByte (busyProgram (a / 4)) (a % 4))
  constructor
  · obtain ⟨c, hr, hp⟩ := Reach.eval bypassCore 154 .wrote
      (p := fun c => decide (c.lsq.ring.slots.filter (fun j => (c.lsq.at' j).isUnknownStore) = [0] ∧
        c.lsq.ring.slots.filter c.lsq.candidates = [1, 2] ∧ c.readyAgu = some 0 ∧
        (c.lsq.at' (c.agus[0]?.getD default).out.lsqIdx).isStore = true ∧ 0 ∈ c.lsq.ring.slots ∧
        (c.lsq.at' 0).isStore = true ∧ (c.lsq.at' 0).addrValid = false ∧
        (c.lsq.at' 0).seq < (c.lsq.at' 1).seq)) (by decide +kernel)
    obtain ⟨hunknown, hcand, hagu, hresolves, hlive, hst, hv, hlt⟩ := of_decide_eq_true hp
    have hacts := hr.actions hcfg (init_coreOk _ _ _ _ hcfg)
    refine ⟨c, hr, hunknown, hcand, hagu, fun c' ha hl => ?_, hwall.2.1 c 0 hacts hagu hresolves,
      hwall.2.2 _ c hr⟩
    rw [hwall.1 c c' hacts ha 1 hl 0 hlive hst hlt] at hv
    cases hv
  · obtain ⟨c, hr, hp⟩ := Reach.eval bypassCore 155 .drained
      (p := fun c => decide (c.lsq.candidates 1 = true ∧
        (c.rob.e (c.lsq.at' 1).robIdx).fault = 0 ∧ c.wall 1 = false ∧ c.verdict 1 = .forward 5 ∧
        (c.lsq.at' 1).op = .LW ∧ 1 ∈ c.lsq.ring.slots ∧ (c.lsq.at' 1).issued = false ∧
        (c.lsq.at' 1).done = false ∧ 0 ∈ c.lsq.ring.slots ∧ (c.lsq.at' 0).isStore = true ∧
        (c.lsq.at' 0).seq < (c.lsq.at' 1).seq)) (by decide +kernel)
    obtain ⟨hcand, hfault, hopen, hverdict, hop, hlive, hsent, hdone, hlive₀, hst, hlt⟩ :=
      of_decide_eq_true hp
    have hgo : c.MayGo 1 := by
      refine ⟨hcand, hfault, fun hwalled => ?_⟩
      rw [hopen] at hwalled
      cases hwalled
    have hact := Action.forward hgo hverdict
    have hresult : ((c.lsq.completeLoad 1 (extendLoad (c.lsq.at' 1).op 5)).at' 1).value = 5 ∧
        ((c.lsq.completeLoad 1 (extendLoad (c.lsq.at' 1).op 5)).at' 1).done = true := by
      rw [hop]
      simp [LSQ.completeLoad, LSQ.at', extendLoad]
    have hreads : LoadReads c { c with lsq := c.lsq.completeLoad 1 (extendLoad (c.lsq.at' 1).op 5) } 1 :=
      ⟨hlive, hlive, hsent, Or.inr ⟨hdone, hresult.2, hfault⟩⟩
    exact ⟨c, _, hr, hact, hreads, hresult.1, hst, hwall.1 c _ (hr.actions hcfg (init_coreOk _ _ _ _ hcfg))
      hact 1 hreads 0 hlive₀ hst hlt⟩

end RvO3
