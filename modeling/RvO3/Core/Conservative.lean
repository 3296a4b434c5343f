import RvO3.Core.Accesses
import RvO3.Core.BeforeAccess

/-!
# Loads in flight in Conservative mode

Conservative mode is meant to issue loads one at a time. The visit of the candidates stops
at the oldest load in flight, so no younger load joins it; nothing stops an older load
whose address arrives later (`late_address_joins`). In a run in which no access stage starts
where such a load would be free to go (`LoadsInOrder`), at most one load is in flight in every
state (`conservative_one_load`).
-/

set_option autoImplicit false

namespace RvO3

open OoOCore

/-! ## Loads in flight -/

/-- At most one live load is issued to the cache and not done. -/
def OneLoad (q : LSQ) : Prop :=
  ∀ i ∈ q.ring.slots, ∀ j ∈ q.ring.slots, (q.at' i).isPending = true → (q.at' j).isPending = true →
    i = j

instance (q : LSQ) : Decidable (OneLoad q) := inferInstanceAs (Decidable (∀ i ∈ _, _))

/-- No load has become one in flight. -/
def NoNewLoad (q q' : LSQ) : Prop :=
  ∀ j ∈ q'.ring.slots, (q'.at' j).isPending = true → j ∈ q.ring.slots ∧ (q.at' j).isPending = true

section Loads

variable {q q' q'' : LSQ} {op : LsqOp}

theorem NoNewLoad.refl (q : LSQ) : NoNewLoad q q := fun _ hj hp => ⟨hj, hp⟩

theorem NoNewLoad.trans (h : NoNewLoad q q') (h' : NoNewLoad q' q'') : NoNewLoad q q'' := by
  intro j hj hp
  obtain ⟨hj', hp'⟩ := h' j hj hp
  exact h j hj' hp'

/-- With no new load in flight there is still at most one. -/
theorem NoNewLoad.oneLoad (h : NoNewLoad q q') (h₁ : OneLoad q) : OneLoad q' := by
  intro i hi j hj hpi hpj
  obtain ⟨hi', hpi'⟩ := h i hi hpi
  obtain ⟨hj', hpj'⟩ := h j hj hpj
  exact h₁ i hi' j hj' hpi' hpj'

/-- Only `issueLoad` puts a load in flight. -/
theorem NoNewLoad.run (hwf : q.Wf) (ha : op.Allowed q) (hno : ∀ slot, op ≠ .issueLoad slot) :
    NoNewLoad q (op.run q) := by
  intro j hj hp
  have hs := op.slotAfter hwf ha hj
  generalize (op.run q).at' j = le at hs hp
  cases hs with
  | new _ => simp [LsqEntry.isPending, dispatchedEntry] at hp
  | old hmem =>
      refine ⟨hmem, ?_⟩
      cases op with
      | issueLoad slot => exact absurd rfl (hno slot)
      | completeLoad slot v =>
          dsimp only [LsqOp.rewrite] at hp
          split at hp
          · simp [LsqEntry.isPending] at hp
          · exact hp
      | resolve slot addr size =>
          dsimp only [LsqOp.rewrite] at hp
          split at hp <;> exact hp
      | capture slot v =>
          dsimp only [LsqOp.rewrite] at hp
          split at hp <;> exact hp
      | reportLoad slot =>
          dsimp only [LsqOp.rewrite] at hp
          split at hp <;> exact hp
      | dispatch _ _ _ _ => exact hp
      | popHead => exact hp
      | popTail => exact hp

/-- Steps that send no load put none in flight, whatever else they do to the LSQ. -/
theorem NoNewLoad.steps {J : LsqOp → Prop} (hJ : ∀ op, J op → ∀ slot, op ≠ .issueLoad slot)
    (hq : q.Ordered) (h : LsqSteps J q q') : NoNewLoad q q' := by
  have hboth : q'.Ordered ∧ NoNewLoad q q' :=
    h.preserve (I := fun p => p.Ordered ∧ NoNewLoad q p)
      (fun hj ha hp => ⟨hp.1.run ha, hp.2.trans (.run hp.1.wf ha (hJ _ hj))⟩) ⟨hq, .refl q⟩
  exact hboth.2

end Loads

/-! ## The stages that send no load -/

section Idle

variable {M : Type} {cfg : SimConfig} {c c' : OoOCore M}

/-- The invariants the argument rests on. -/
structure LsqGood (cfg : SimConfig) (c : OoOCore M) : Prop where
  core : CoreOk cfg c
  lsq : c.lsq.Ordered
  sb : c.sb.InOrder

/-- A step that keeps the invariants and puts no load in flight. -/
def Idle (cfg : SimConfig) (c c' : OoOCore M) : Prop :=
  LsqGood cfg c → LsqGood cfg c' ∧ NoNewLoad c.lsq c'.lsq

/-- A sequence of idle steps is idle. -/
theorem Idle.star (h : Relation.ReflTransGen (Idle cfg) c c') : Idle cfg c c' := by
  intro hg
  induction h with
  | refl => exact ⟨hg, .refl _⟩
  | tail _ hs ih =>
      obtain ⟨hg₁, hn₁⟩ := ih
      obtain ⟨hg₂, hn₂⟩ := hs hg₁
      exact ⟨hg₂, hn₁.trans hn₂⟩

variable [MemPorts Nat M]

/-- Every action keeps the invariants the argument rests on. -/
theorem LsqGood.action (hcfg : cfg.Accepted) (h : LsqGood cfg c) (ha : Action c c') :
    LsqGood cfg c' :=
  ⟨ha.coreOk hcfg h.core, ha.lsqOrdered h.core.back h.lsq, ha.sbInOrder h.core.back h.sb⟩

/-- An action whose operations are no `issueLoad`. -/
theorem Idle.of_steps {J : LsqOp → Prop} (hcfg : cfg.Accepted) (ha : Action c c')
    (hs : BackOk c → LsqSteps J c.lsq c'.lsq) (hJ : ∀ op, J op → ∀ slot, op ≠ .issueLoad slot) :
    Idle cfg c c' :=
  fun hg => ⟨hg.action hcfg ha, .steps hJ hg.lsq (hs hg.core.back)⟩

/-- Actions that together leave the LSQ alone. -/
theorem Idle.of_actions (hcfg : cfg.Accepted) (ha : Actions c c') (h : c'.lsq = c.lsq) :
    Idle cfg c c' := by
  intro hg
  refine ⟨ha.preserve (fun hact hd => LsqGood.action hcfg hd hact) hg, ?_⟩
  rw [h]
  exact .refl _

/-- Commit puts no load in flight. -/
theorem commitStage_idle (hcfg : cfg.Accepted) (h : c.commitStage = .ok c') : Idle cfg c c' := by
  refine Idle.star (commitLoop_steps (fun hne hd hh hc => ?_) _ h)
  refine .of_steps hcfg (.commit hne hd hh hc) (fun hb => (commitOne_once hb hne hc).to_reflTransGen) ?_
  rintro _ rfl slot
  exact nofun

/-- Writeback puts no load in flight: a recovery takes loads away, and nothing else touches the LSQ.
-/
theorem writebackStage_idle (hcfg : cfg.Accepted) (hn : NoSystem c) (hk : CoreOk cfg c) :
    Idle cfg c c.writebackStage := by
  refine Idle.star (writebackLoop_steps (fun hne => ?_) _ hk hn (Nat.min_le_right _ _)).1
  refine .of_steps hcfg (.writeback hne) (fun hb => writebackOne_steps hb hne) ?_
  rintro _ rfl slot
  exact nofun

/-- Handing addresses to the LSQ puts no load in flight; a load with an address is a candidate at
most. -/
theorem aguDrain_idle (hcfg : cfg.Accepted) (hn : NoSystem c) (hk : CoreOk cfg c) :
    Idle cfg c c.aguDrain := by
  refine Idle.star (aguDrainLoop_steps (fun {d i} hi => ?_) _ hk hn).1
  refine .of_steps (J := fun op => Resolves d op ∨ op = .popTail) hcfg (.drain hi) (fun hb => ?_) ?_
  · exact ((fillOne_once hb hi).mono fun _ h => Or.inl h).to_reflTransGen.trans
      ((aguDrainOne_steps hb hi).mono fun _ h => Or.inr h)
  · rintro _ (⟨i, -, rfl⟩ | rfl) slot
    · exact nofun
    · exact nofun

/-- Responses put no load in flight. A response completes one or is dropped. -/
theorem drainLoop_idle (hcfg : cfg.Accepted) (n : Nat) (c : OoOCore M) :
    Idle cfg c (drainLoop n c) := by
  refine Idle.star (drainLoop_steps (fun {c r} hr => ?_) n).1
  refine .of_steps (J := fun op => ∃ slot v, op = .completeLoad slot v) hcfg (.response hr) ?_ ?_
  · intro hb
    unfold OoOCore.dataResponse
    split
    · exact .refl
    · refine ((loadReply_once hb.lsq.wf _ _).mono ?_).to_reflTransGen
      rintro _ ⟨slot, v, rfl, -⟩
      exact ⟨slot, v, rfl⟩
  · rintro _ ⟨_, _, rfl⟩ slot
    exact nofun

theorem popAcked_idle (hcfg : cfg.Accepted) (n : Nat) (c : OoOCore M) :
    Idle cfg c { c with sb := popAcked n c.sb } :=
  Idle.star (popAcked_steps (fun he ha => .of_actions hcfg (.single (.popAck he ha)) rfl) n)

theorem lsqUpdates_idle (hcfg : cfg.Accepted) (hk : CoreOk cfg c) : Idle cfg c c.lsqUpdates := by
  refine Idle.star (lsqUpdates_steps (fun hj => ?_) (fun hj hle => ?_) hk).1
  · refine .of_steps hcfg (.capture hj) (fun _ => (captureStore_once _ hj).to_reflTransGen) ?_
    rintro _ ⟨rfl, -⟩ slot
    exact nofun
  · refine .of_steps hcfg (.surface hj hle) (fun _ => (surfaceLoad_once _ hj _).to_reflTransGen) ?_
    rintro _ rfl slot
    exact nofun

theorem issueStage_idle (hcfg : cfg.Accepted) (hk : CoreOk cfg c) : Idle cfg c c.issueStage := by
  refine Idle.star (issueStage_steps (fun {c slot u} hr hs hu => ?_) hk).1
  exact .of_actions hcfg (.single (.issue hr hs hu)) (by cases u <;> rfl)

/-- Dispatch puts no load in flight: its entries have no address yet. -/
theorem dispatchStage_idle (hcfg : cfg.Accepted) (hk : CoreOk cfg c) (hn : NoSystem c) :
    Idle cfg c c.dispatchStage := by
  refine Idle.star (dispatchLoop_steps (fun hno => ?_) hcfg _ hk hn)
  refine .of_steps hcfg (.dispatch hno) (fun hb => (dispatchOne_once hb _).to_reflTransGen) ?_
  rintro _ ⟨e, robIdx, ps2, prf, rfl⟩ slot
  exact nofun

theorem fetchStage_lsq (h : c.fetchStage = .ok c') : c'.lsq = c.lsq :=
  fetchStage_keeps (fun _ _ _ _ _ _ _ _ _ => rfl) h

theorem clockEdge_lsq (h : c.clockEdge = .ok c') : c'.lsq = c.lsq := by
  obtain ⟨m, stale, pc, wb, units, agus, rfl⟩ := clockEdge_frame h
  rfl

end Idle

/-! ## What the visit of the candidates looks at -/

/-- The fields of an entry that the access stage leaves alone. -/
def LsqEntry.fixed (le : LsqEntry) : LsqEntry :=
  { le with value := 0, done := false, issued := false, reported := false }

/-- The fields of a committed store that forwarding looks at. -/
def StoreBufEntry.write (st : StoreBufEntry) : Word × Nat × Word := (st.addr, st.size, st.data)

/-- The same addresses, stores and faults. -/
structure SameView {M : Type} (c c' : OoOCore M) : Prop where
  cfg : c'.cfg = c.cfg
  rob : c'.rob = c.rob
  depTable : c'.depTable = c.depTable
  entry : ∀ j, (c'.lsq.at' j).fixed = (c.lsq.at' j).fixed
  slots : c'.lsq.ring.slots = c.lsq.ring.slots
  unknown : c'.lsq.oldestUnknownStore = c.lsq.oldestUnknownStore
  older : ∀ j, c'.lsq.visitOlderStores j = c.lsq.visitOlderStores j
  words : c'.lsq.storeWords = c.lsq.storeWords
  sbSlots : c'.sb.ring.slots = c.sb.ring.slots
  sbEntry : ∀ j, (c'.sb.ring.e j).write = (c.sb.ring.e j).write

section View

variable {M : Type} {c c' c'' : OoOCore M}

theorem SameView.refl (c : OoOCore M) : SameView c c :=
  ⟨rfl, rfl, rfl, fun _ => rfl, rfl, rfl, fun _ => rfl, rfl, rfl, fun _ => rfl⟩

theorem SameView.trans (h : SameView c c') (h' : SameView c' c'') : SameView c c'' where
  cfg := h'.cfg.trans h.cfg
  rob := h'.rob.trans h.rob
  depTable := h'.depTable.trans h.depTable
  entry := fun j => (h'.entry j).trans (h.entry j)
  slots := h'.slots.trans h.slots
  unknown := h'.unknown.trans h.unknown
  older := fun j => (h'.older j).trans (h.older j)
  words := h'.words.trans h.words
  sbSlots := h'.sbSlots.trans h.sbSlots
  sbEntry := fun j => (h'.sbEntry j).trans (h.sbEntry j)

/-- A field that the stage leaves alone is the same. -/
theorem SameView.field {β : Type} (h : SameView c c') (f : LsqEntry → β)
    (hf : ∀ le, f le.fixed = f le) (j : Nat) : f (c'.lsq.at' j) = f (c.lsq.at' j) := by
  rw [← hf, h.entry, hf]

theorem SameView.seq (h : SameView c c') (j : Nat) : (c'.lsq.at' j).seq = (c.lsq.at' j).seq :=
  h.field LsqEntry.seq (fun _ => rfl) j

theorem SameView.fault (h : SameView c c') (j : Nat) :
    (c'.rob.e (c'.lsq.at' j).robIdx).fault = (c.rob.e (c.lsq.at' j).robIdx).fault := by
  rw [h.rob, h.field LsqEntry.robIdx fun _ => rfl]

/-- Whether a store without an address is older than a load is the same in both states. -/
theorem SameView.wall (h : SameView c c') (j : Nat) : c'.wall j = c.wall j := by
  unfold OoOCore.wall
  rw [h.unknown, h.seq]

/-- Whether a load waits for older stores depends on its pc and the dependence table. -/
theorem SameView.cautious (h : SameView c c') (j : Nat) :
    c'.cautious (c'.lsq.at' j) = c.cautious (c.lsq.at' j) := by
  unfold OoOCore.cautious
  rw [h.cfg, h.depTable, h.field LsqEntry.pc fun _ => rfl]

/-- What an older store means for a load depends on the fixed fields only. -/
theorem SameView.verdict (h : SameView c c') (j : Nat) : c'.verdict j = c.verdict j := by
  have haddr := h.field LsqEntry.addr fun _ => rfl
  have hsize := h.field LsqEntry.size fun _ => rfl
  have hready := h.field LsqEntry.dataReady fun _ => rfl
  have hdata := h.field LsqEntry.data fun _ => rfl
  have hold : ∀ a s r d, olderStore (c'.lsq.at' j) a s r d = olderStore (c.lsq.at' j) a s r d := by
    intro a s r d
    unfold olderStore
    rw [haddr, hsize]
  have hlsq : c'.lsqVerdict j = c.lsqVerdict j := by
    unfold OoOCore.lsqVerdict LSQ.mayStoreToWord
    simp only [h.words, h.older, haddr, hsize, hready, hdata, hold]
  have hsb : c'.sbVerdict j = c.sbVerdict j := by
    unfold OoOCore.sbVerdict Ring.entries
    rw [h.sbSlots, ← List.map_reverse, ← List.map_reverse, List.findSome?_map, List.findSome?_map]
    congr 1
    funext i
    have hw := h.sbEntry i
    simp only [StoreBufEntry.write, Prod.mk.injEq] at hw
    simp only [Function.comp, hold, hw.1, hw.2.1, hw.2.2]
  unfold OoOCore.verdict
  rw [hlsq, hsb]

/-- Rewriting the other fields of one entry. -/
theorem SameView.set {q : LSQ} {slot : Nat} {le : LsqEntry} {m : M}
    (hring : q.ring = c.lsq.ring.set slot le) (hle : le.fixed = (c.lsq.at' slot).fixed)
    (hu : q.unknownStores = c.lsq.unknownStores) (hk : q.knownStores = c.lsq.knownStores)
    (hw : q.storeWords = c.lsq.storeWords) : SameView c { c with msys := m, lsq := q } := by
  have hentry : ∀ j, (q.at' j).fixed = (c.lsq.at' j).fixed := by
    intro j
    rw [LSQ.at', hring, Ring.set_e, Function.update_apply]
    split
    · rename_i hj
      rw [hj, hle]
    · rfl
  refine ⟨rfl, rfl, rfl, hentry, ?_, ?_, fun j => ?_, hw, rfl, fun _ => rfl⟩
  · exact (congrArg Ring.slots hring).trans (Ring.slots_set _ _ _)
  · have hseq : ∀ j, (q.at' j).seq = (c.lsq.at' j).seq := fun j => by
      have he := congrArg LsqEntry.seq (hentry j)
      exact he
    show q.oldestUnknownStore = c.lsq.oldestUnknownStore
    unfold LSQ.oldestUnknownStore LSQ.oldestSeq
    rw [hu, hring, funext hseq]
    rfl
  · show q.visitOlderStores j = c.lsq.visitOlderStores j
    unfold LSQ.visitOlderStores
    rw [hk, hring]
    rfl

end View

/-! ## Loads that are free to go -/

namespace OoOCore

variable {M : Type}

/-- A load free to go to the cache: it may go, no older store touches it, and no older
load that may go is held up by a store, where the visit would stop. -/
structure FreeToGo (c : OoOCore M) (slot : Nat) : Prop where
  mayGo : c.MayGo slot
  clear : c.verdict slot = .clear
  notHeldUp : ∀ j, c.MayGo j → (c.lsq.at' j).seq < (c.lsq.at' slot).seq → c.verdict j ≠ .blocked

/-- Every load free to go is younger than every load in flight. -/
def InOrder (c : OoOCore M) : Prop :=
  ∀ slot, c.FreeToGo slot → ∀ j ∈ c.lsq.ring.slots, (c.lsq.at' j).isPending = true →
    (c.lsq.at' j).seq < (c.lsq.at' slot).seq

end OoOCore

/-- A step of the access stage: candidates are taken from those that were there, and one
that is taken was not held up by a store. -/
structure Passes {M : Type} (c c' : OoOCore M) : Prop where
  view : SameView c c'
  taken : ∀ j, c'.lsq.candidates j = true → c.lsq.candidates j = true
  notBlocked : ∀ j, c.lsq.candidates j = true → c'.lsq.candidates j = false →
    (c.rob.e (c.lsq.at' j).robIdx).fault ≠ 0 ∨ c.verdict j ≠ .blocked

section Passes

variable {M : Type} {c c' c'' : OoOCore M}

theorem Passes.refl (c : OoOCore M) : Passes c c :=
  ⟨.refl c, fun _ h => h, fun _ h h' => by rw [h] at h'; cases h'⟩

theorem Passes.trans (h : Passes c c') (h' : Passes c' c'') : Passes c c'' := by
  refine ⟨h.view.trans h'.view, fun j hj => h.taken j (h'.taken j hj), fun j hj hj'' => ?_⟩
  cases hj' : c'.lsq.candidates j with
  | false => exact h.notBlocked j hj hj'
  | true =>
      rw [← h.view.fault, ← h.view.verdict]
      exact h'.notBlocked j hj' hj''

/-- A load that may go after the step could go before it. -/
theorem Passes.mayGo (h : Passes c c') {j : Nat} (hm : c'.MayGo j) : c.MayGo j := by
  refine ⟨h.taken j hm.candidate, ?_, fun hw => ?_⟩
  · rw [← h.view.fault]
    exact hm.noFault
  · rw [← h.view.cautious]
    apply hm.notWalled
    rw [h.view.wall]
    exact hw

/-- A load that is free to go after the step was free before it. An older load that could have held
it up is still a candidate, or has gone and so was not blocked. -/
theorem Passes.free (h : Passes c c') {j : Nat} (hf : c'.FreeToGo j) : c.FreeToGo j := by
  refine ⟨h.mayGo hf.mayGo, ?_, fun i hi hlt => ?_⟩
  · rw [← h.view.verdict]
    exact hf.clear
  · cases hc : c'.lsq.candidates i with
    | true =>
        -- still a candidate, so it may go there too
        have hi' : c'.MayGo i := by
          refine ⟨hc, ?_, fun hw => ?_⟩
          · rw [h.view.fault]
            exact hi.noFault
          · rw [h.view.cautious]
            apply hi.notWalled
            rw [← h.view.wall]
            exact hw
        rw [← h.view.verdict]
        apply hf.notHeldUp i hi'
        rw [h.view.seq, h.view.seq]
        exact hlt
    | false =>
        rcases h.notBlocked i hi.candidate hc with hfault | hv
        · exact absurd hi.noFault hfault
        · exact hv

/-- A candidate completes. -/
theorem Passes.complete {slot : Nat} (v : Word)
    (hok : (c.rob.e (c.lsq.at' slot).robIdx).fault ≠ 0 ∨ c.verdict slot ≠ .blocked) :
    Passes c { c with lsq := c.lsq.completeLoad slot v } := by
  refine ⟨SameView.set rfl rfl rfl rfl rfl, fun j hj => ?_, fun j hj hj' => ?_⟩
  · simp only [LSQ.completeLoad, SlotSet.reset_apply] at hj
    split at hj
    · cases hj
    · exact hj
  · simp only [LSQ.completeLoad, SlotSet.reset_apply] at hj'
    split at hj'
    · rename_i he
      rw [he]
      exact hok
    · rw [hj] at hj'
      cases hj'

/-- A candidate is sent to the cache. -/
theorem Passes.send {slot : Nat} (m : M) (hok : c.verdict slot ≠ .blocked) :
    Passes c { c with msys := m, lsq := c.lsq.issueLoad slot } := by
  refine ⟨SameView.set rfl rfl rfl rfl rfl, fun j hj => ?_, fun j hj hj' => ?_⟩
  · simp only [LSQ.issueLoad, SlotSet.reset_apply] at hj
    split at hj
    · cases hj
    · exact hj
  · simp only [LSQ.issueLoad, SlotSet.reset_apply] at hj'
    split at hj'
    · rename_i he
      rw [he]
      exact Or.inr hok
    · rw [hj] at hj'
      cases hj'

end Passes

/-! ## One visit -/

/-- What a visit of the candidates `l` leaves, and what it knows of the load it returns. -/
structure Visited {M : Type} (c : OoOCore M) (p : Option Nat) (l : List Nat)
    (r : OoOCore M × Option (Nat × Bool)) : Prop where
  passes : Passes c r.1
  msys : r.1.msys = c.msys
  pending : ∀ j, (r.1.lsq.at' j).isPending = (c.lsq.at' j).isPending
  chosen : ∀ slot wall, r.2 = some (slot, wall) → slot ∈ l ∧
    before p (c.lsq.at' slot).seq = false ∧
    ∀ j ∈ l, (c.lsq.at' j).seq < (c.lsq.at' slot).seq → ¬ r.1.MayGo j

section Visit

variable {M : Type} {cfg : SimConfig} {c c' : OoOCore M}

theorem Visited.stop (c : OoOCore M) (p : Option Nat) (l : List Nat) : Visited c p l (c, none) :=
  ⟨.refl c, rfl, fun _ => rfl, nofun⟩

/-- A completed candidate was not in flight. -/
theorem completeLoad_pending {slot : Nat} (v : Word) (hi : (c.lsq.at' slot).issued = false)
    (j : Nat) :
    ((c.lsq.completeLoad slot v).at' j).isPending = (c.lsq.at' j).isPending := by
  by_cases hj : j = slot
  · subst hj
    simp [LSQ.completeLoad, LSQ.at', LsqEntry.isPending, show (c.lsq.ring.e j).issued = false from hi]
  · simp [LSQ.completeLoad, LSQ.at', hj]

/-- The head of the list was passed over and is no longer free. -/
theorem Visited.cons {slot : Nat} {p : Option Nat} {l : List Nat}
    {r : OoOCore M × Option (Nat × Bool)} (hp : Passes c c') (hm : c'.msys = c.msys)
    (hpend : ∀ j, (c'.lsq.at' j).isPending = (c.lsq.at' j).isPending) (hno : ¬ c'.MayGo slot)
    (h : Visited c' p l r) : Visited c p (slot :: l) r := by
  refine ⟨hp.trans h.passes, h.msys.trans hm, fun j => (h.pending j).trans (hpend j), ?_⟩
  intro s w hs
  obtain ⟨h1, h2, h3⟩ := h.chosen s w hs
  rw [hp.view.seq] at h2
  refine ⟨List.mem_cons_of_mem _ h1, h2, fun j hj hlt hgo => ?_⟩
  rcases List.mem_cons.mp hj with rfl | hj
  · exact hno (h.passes.mayGo hgo)
  · rw [← hp.view.seq, ← hp.view.seq s] at hlt
    exact h3 j hj hlt hgo

/-- The walk over candidates in age order under `Conservative`. The load it stops at is not younger
than the oldest load in flight, and no candidate older than it may go. By induction on the
candidates left to visit. -/
theorem visitLoads_visited (hwf : ∀ j, c.lsq.candidates j = true → (c.lsq.at' j).issued = false)
    (hcons : c.cfg.memOrder = .Conservative) (p : Option Nat) (l : List Nat)
    (hl : ∀ i ∈ l, c.lsq.candidates i = true)
    (hsort : l.Pairwise fun i j => (c.lsq.at' i).seq < (c.lsq.at' j).seq) :
    Visited c p l (visitLoads c.lsq.oldestUnknownStore p l c) := by
  -- on the candidates left; the core changes under it when a load completes
  induction l generalizing c with
  | nil => exact .stop c p []
  | cons slot l ih =>
      obtain ⟨hhead, hsort'⟩ := List.pairwise_cons.mp hsort
      have hcand := hl slot List.mem_cons_self
      have hrest := fun i (hi : i ∈ l) => hl i (List.mem_cons_of_mem _ hi)
      -- a load behind an unknown store is passed over whatever the predictor says
      have hcautious : c.cautious (c.lsq.at' slot) = true := by
        simp [OoOCore.cautious, hcons]
      unfold visitLoads
      dsimp only
      split
      · exact .stop c p _
      · rename_i hbefore
        split
        · -- a faulting load completes with zero and is a candidate no longer
          rename_i hfault
          have hpass := Passes.complete (c := c) 0 (Or.inl hfault)
          have hpend := completeLoad_pending (c := c) 0 (hwf slot hcand)
          have hgone : ¬ ({ c with lsq := c.lsq.completeLoad slot 0 } : OoOCore M).MayGo slot := by
            intro hm
            have hc := hm.candidate
            simp [LSQ.completeLoad] at hc
          apply Visited.cons hpass rfl hpend hgone
          rw [← completeLoad_unknown c.lsq slot 0]
          refine ih (c := { c with lsq := c.lsq.completeLoad slot 0 }) ?_ hcons ?_ ?_
          · intro j hj
            have hne : j ≠ slot := by
              rintro rfl
              simp [LSQ.completeLoad] at hj
            show ((c.lsq.completeLoad slot 0).at' j).issued = false
            rw [show (c.lsq.completeLoad slot 0).at' j = c.lsq.at' j by
              simp [LSQ.completeLoad, LSQ.at', hne]]
            exact hwf j (hpass.taken j hj)
          · intro i hi
            have hne : i ≠ slot := by
              rintro rfl
              exact absurd (hhead i hi) (Nat.lt_irrefl _)
            exact completeLoad_candidates c.lsq 0 hne (hrest i hi)
          · refine hsort'.imp fun {i j} hlt => ?_
            rw [hpass.view.seq, hpass.view.seq]
            exact hlt
        · split
          · -- a walled load is passed over
            rename_i hw
            simp only [Bool.and_eq_true] at hw
            refine Visited.cons (.refl c) rfl (fun _ => rfl) (fun hm => ?_) (ih hwf hcons hrest hsort')
            rw [hm.notWalled hw.1] at hcautious
            cases hcautious
          · split
            · -- its data is in the queue or in the buffer: it completes without an access
              rename_i data hv
              have hforward : c.verdict slot ≠ .blocked := by
                rw [hv]
                intro he
                cases he
              exact ⟨.complete _ (Or.inr hforward), rfl, completeLoad_pending _ (hwf slot hcand),
                fun s w hs => by cases hs⟩
            · -- the first that may go is the oldest: the candidates are visited by age
              refine ⟨.refl c, rfl, fun _ => rfl, ?_⟩
              intro s w hs
              cases hs
              refine ⟨List.mem_cons_self, by simpa using hbefore, fun j hj hlt => ?_⟩
              rcases List.mem_cons.mp hj with rfl | hj
              · exact absurd hlt (Nat.lt_irrefl _)
              · exact absurd (hhead j hj) (Nat.lt_asymm hlt)
            · exact .stop c p _

/-- The visit of `findLoad`, in Conservative mode. -/
theorem findLoad_visited (hk : CoreOk cfg c) (hcons : c.cfg.memOrder = .Conservative) :
    Visited c c.lsq.oldestPendingLoad (c.lsq.ring.slots.filter c.lsq.candidates) c.findLoad := by
  unfold OoOCore.findLoad
  rw [if_pos hcons]
  dsimp only
  rw [hk.back.lsq.wf.visitCandidates_eq]
  refine visitLoads_visited (fun j hj => ?_) hcons _ _ (fun i hi => (List.mem_filter.mp hi).2) ?_
  · have hc := (hk.back.lsq.wf.candidate hj).2
    simp only [LsqEntry.isCandidate, Bool.and_eq_true, Bool.not_eq_true'] at hc
    exact hc.1.2
  · have hsort := hk.back.lsq.sorted hk.back.rob
    exact (List.pairwise_map.mp hsort).filter _

end Visit

/-! ## One access -/

section Access

variable {M : Type} {cfg : SimConfig} {c c' : OoOCore M}

/-- The order of loads survives a step of the access stage that puts no load in flight. -/
theorem OoOCore.InOrder.passes (h : c.InOrder) (hp : Passes c c') (hn : NoNewLoad c.lsq c'.lsq) :
    c'.InOrder := by
  intro slot hf j hj hpend
  obtain ⟨hj', hpend'⟩ := hn j hj hpend
  rw [hp.view.seq, hp.view.seq]
  exact h slot (hp.free hf) j hj' hpend'

theorem Visited.noNewLoad {p : Option Nat} {l : List Nat} {r : OoOCore M × Option (Nat × Bool)}
    (h : Visited c p l r) : NoNewLoad c.lsq r.1.lsq := by
  intro j hj hp
  rw [h.passes.view.slots] at hj
  rw [h.pending] at hp
  exact ⟨hj, hp⟩

theorem issueLoad_at' (q : LSQ) (slot j : Nat) :
    (q.issueLoad slot).at' j = if j = slot then { q.at' slot with issued := true } else q.at' j := by
  rw [LSQ.at', LSQ.issueLoad]
  dsimp only
  rw [Ring.set_e, Function.update_apply]
  rfl

variable [MemPorts Nat M]

theorem findLoad_good (hcfg : cfg.Accepted) (hg : LsqGood cfg c) : LsqGood cfg c.findLoad.1 :=
  Actions.preserve (I := LsqGood cfg) (fun ha h => h.action hcfg ha) (findLoad_actions hg.core).1 hg

/-- A load sent where every load free to go is younger than those in flight finds none in
flight, and is itself older than what remains free to go. -/
theorem sendLoad_inOrder (hg : LsqGood cfg c) (hcons : c.cfg.memOrder = .Conservative)
    (hio : c.InOrder) {slot : Nat} {w : Bool} (hs : c.findLoad.2 = some (slot, w)) (m : M) :
    OneLoad (c.findLoad.1.lsq.issueLoad slot) ∧
      OoOCore.InOrder { c.findLoad.1 with msys := m, lsq := c.findLoad.1.lsq.issueLoad slot } := by
  have hv := findLoad_visited hg.core hcons
  obtain ⟨-, -, hchosen⟩ := findLoad_actions hg.core
  generalize c.findLoad = r at hs hv hchosen
  rw [hs] at hchosen
  obtain ⟨hgo, hclear⟩ := hchosen
  obtain ⟨hslot, hbefore, hfirst⟩ := hv.chosen slot w hs
  have hwf := hg.lsq.wf
  -- a candidate after the visit was one of those visited
  have hmem : ∀ j, r.1.lsq.candidates j = true → j ∈ c.lsq.ring.slots.filter c.lsq.candidates := by
    intro j hj
    have hj' := hv.passes.taken j hj
    exact List.mem_filter.mpr ⟨(hwf.candidate hj').1, hj'⟩
  have hfree : r.1.FreeToGo slot := by
    refine ⟨hgo, hclear, fun j hj hlt => ?_⟩
    rw [hv.passes.view.seq, hv.passes.view.seq] at hlt
    exact absurd hj (hfirst j (hmem j hj.candidate) hlt)
  -- so no load is in flight
  have hnone : ∀ j ∈ r.1.lsq.ring.slots, (r.1.lsq.at' j).isPending = false := by
    intro j hj
    cases hp : (r.1.lsq.at' j).isPending with
    | false => rfl
    | true =>
        obtain ⟨hj', hp'⟩ := hv.noNewLoad j hj hp
        have hlt := hio slot (hv.passes.free hfree) j hj' hp'
        have hge := hg.lsq.le_of_before hg.lsq.wf.pending hbefore hj' hp'
        exact absurd hlt (Nat.not_lt.mpr hge)
  have honly : ∀ j ∈ (r.1.lsq.issueLoad slot).ring.slots,
      ((r.1.lsq.issueLoad slot).at' j).isPending = true → j = slot := by
    intro j hj hp
    rw [issueLoad_at'] at hp
    split at hp
    · assumption
    · have hj' : j ∈ r.1.lsq.ring.slots := by simpa [LSQ.issueLoad] using hj
      rw [hnone j hj'] at hp
      cases hp
  refine ⟨fun i hi j hj hpi hpj => (honly i hi hpi).trans (honly j hj hpj).symm, ?_⟩
  intro i hi j hj hp
  obtain rfl := honly j hj hp
  have hopen : r.1.verdict j ≠ .blocked := by
    rw [hclear]
    intro he
    cases he
  have hpass : Passes r.1 { r.1 with msys := m, lsq := r.1.lsq.issueLoad j } := Passes.send m hopen
  have hcand : r.1.lsq.candidates i = true := hpass.taken i hi.mayGo.candidate
  have hne : i ≠ j := by
    rintro rfl
    have hc := hi.mayGo.candidate
    simp [LSQ.issueLoad] at hc
  rw [hpass.view.seq, hpass.view.seq, hv.passes.view.seq, hv.passes.view.seq]
  have hnlt : ¬ (c.lsq.at' i).seq < (c.lsq.at' j).seq :=
    fun hlt => hfirst i (hmem i hcand) hlt (hpass.free hi).mayGo
  have hdiff : (c.lsq.at' i).seq ≠ (c.lsq.at' j).seq := fun he =>
    hne (hg.lsq.seq_inj (List.mem_filter.mp (hmem i hcand)).1 (List.mem_filter.mp hslot).1 he)
  omega

/-- Sending a store changes nothing that loads look at. -/
theorem sendStore_passes {slot : Nat} (h : c.sendStore slot = .ok c') :
    Passes c c' ∧ c'.lsq = c.lsq := by
  unfold OoOCore.sendStore at h
  dsimp only at h
  split at h
  · cases h
  · cases h
    refine ⟨⟨⟨rfl, rfl, rfl, fun _ => rfl, rfl, rfl, fun _ => rfl, rfl, rfl, fun j => ?_⟩,
      fun _ hj => hj, fun j hj hj' => ?_⟩, rfl⟩
    · simp only [StoreBuffer.issue, StoreBuffer.setEntry, Ring.set_e, Function.update_apply,
        StoreBufEntry.write]
      split
      · split
        · rename_i h1 h2
          rw [h1, h2]
        · rename_i h1 _
          rw [h1]
      · split
        · rename_i h2
          rw [h2]
        · rfl
    · rw [show c.lsq.candidates j = false from hj'] at hj
      cases hj

/-- One access, in a machine whose free loads are younger than those in flight, keeps at most one in
flight: the load that is sent is free and not younger than the oldest in flight, so there is none.
-/
theorem accessOne_inOrder (hcfg : cfg.Accepted) (hg : LsqGood cfg c)
    (hcons : c.cfg.memOrder = .Conservative)
    (hio : MemPorts.dCanAccept c.msys = true → c.InOrder) (h₁ : OneLoad c.lsq) {b : Bool}
    (h : c.accessOne = .ok (c', b)) :
    LsqGood cfg c' ∧ OneLoad c'.lsq ∧ (b = true → c'.InOrder) := by
  have hv := findLoad_visited hg.core hcons
  have hgood := findLoad_good hcfg hg
  have hact := (accessOne_actions hg.core h).1
  have hgood' : LsqGood cfg c' :=
    Actions.preserve (I := LsqGood cfg) (fun ha h => h.action hcfg ha) hact hg
  refine ⟨hgood', ?_⟩
  cases accessOne_cases h with
  | idle => exact ⟨hv.noNewLoad.oneLoad h₁, nofun⟩
  | store _ ha hs =>
      obtain ⟨hpass, hlsq⟩ := sendStore_passes hs
      rw [hv.msys] at ha
      have hn : NoNewLoad c.lsq c'.lsq := by
        rw [hlsq]
        exact hv.noNewLoad
      exact ⟨hn.oneLoad h₁, fun _ => OoOCore.InOrder.passes (hio ha) (hv.passes.trans hpass) hn⟩
  | load hcd ha hs =>
      obtain ⟨m, rfl⟩ := sendLoad_frame hs
      rw [hv.msys] at ha
      obtain ⟨hone, hin⟩ := sendLoad_inOrder hg hcons (hio ha) hcd m
      exact ⟨hone, fun _ => hin⟩

/-- The accesses of a cycle keep at most one load in flight. -/
theorem accessLoop_oneLoad (hcfg : cfg.Accepted) (hcons : cfg.memOrder = .Conservative) (n : Nat) :
    ∀ {c : OoOCore M}, LsqGood cfg c → (MemPorts.dCanAccept c.msys = true → c.InOrder) →
    OneLoad c.lsq → c.accessLoop n = .ok c' → LsqGood cfg c' ∧ OneLoad c'.lsq := by
  induction n with
  | zero =>
      intro c hg _ h₁ h
      cases h
      exact ⟨hg, h₁⟩
  | succ n ih =>
      intro c hg hio h₁ h
      have hcons' : c.cfg.memOrder = .Conservative := by rw [hg.core.config, hcons]
      unfold accessLoop at h
      split at h
      · cases h
      · rename_i c₁ hc
        obtain ⟨hg₁, hone, hin⟩ := accessOne_inOrder hcfg hg hcons' hio h₁ hc
        exact ih hg₁ (fun _ => hin rfl) hone h
      · rename_i c₁ hc
        cases h
        obtain ⟨hg₁, hone, -⟩ := accessOne_inOrder hcfg hg hcons' hio h₁ hc
        exact ⟨hg₁, hone⟩

end Access

/-! ## Runs -/

namespace OoOCore

variable {M : Type} [MemPorts Nat M]

/-- A load that the access stage will find free to go: it may go, none of the older stores that are
there then touches it, and no older load that may go is held up by a store. -/
structure FreeNext (c : OoOCore M) (slot : Nat) : Prop where
  mayGo : c.MayGo slot
  clear : c.settledVerdict slot = .clear
  notHeldUp : ∀ j ∈ c.lsq.ring.slots, c.MayGo j → (c.lsq.at' j).seq < (c.lsq.at' slot).seq →
    c.settledVerdict j ≠ .blocked

instance (c : OoOCore M) (slot : Nat) : Decidable (c.MayGo slot) :=
  decidable_of_iff (c.lsq.candidates slot = true ∧ (c.rob.e (c.lsq.at' slot).robIdx).fault = 0 ∧
      (c.wall slot = true → c.cautious (c.lsq.at' slot) = false))
    ⟨fun h => ⟨h.1, h.2.1, h.2.2⟩, fun h => ⟨h.candidate, h.noFault, h.notWalled⟩⟩

instance (c : OoOCore M) (slot : Nat) : Decidable (c.FreeNext slot) :=
  decidable_of_iff (c.MayGo slot ∧ c.settledVerdict slot = .clear ∧ ∀ j ∈ c.lsq.ring.slots, c.MayGo j →
      (c.lsq.at' j).seq < (c.lsq.at' slot).seq → c.settledVerdict j ≠ .blocked)
    ⟨fun h => ⟨h.1, h.2.1, h.2.2⟩, fun h => ⟨h.mayGo, h.clear, h.notHeldUp⟩⟩

end OoOCore

/-- Where the access stage starts, and the data port will take an access: every load that it will
find free to go is younger than every load in flight that no ready response answers. -/
def LoadsInOrder {M : Type} [MemPorts Nat M] (ph : Phase) (c : OoOCore M) : Prop :=
  ph = .drained → c.portOpen = true → ∀ slot ∈ c.lsq.ring.slots, c.FreeNext slot →
    ∀ j ∈ c.lsq.ring.slots, c.unanswered j = true → (c.lsq.at' j).seq < (c.lsq.at' slot).seq

instance {M : Type} [MemPorts Nat M] (ph : Phase) (c : OoOCore M) : Decidable (LoadsInOrder ph c) :=
  inferInstanceAs (Decidable (_ → _))

/-- The loads are then in order when the first access is made. -/
theorem LoadsInOrder.settled {M : Type} [MemPorts Nat M] {c d : OoOCore M} (h : LoadsInOrder .drained c)
    (hs : Settles c d) (hwf : c.lsq.Wf) (hport : MemPorts.dCanAccept d.msys = true) : d.InOrder := by
  intro slot hfree j hj hpend
  rw [hs.sight.slots] at hj
  rw [hs.pending j hj] at hpend
  rw [hs.sight.seq, hs.sight.seq]
  have hmay : c.MayGo slot := (hs.sight.mayGo slot).mp hfree.mayGo
  refine h rfl (by rw [← hs.port]; exact hport) slot (hwf.candidate hmay.candidate).1 ⟨hmay, ?_, ?_⟩ j hj hpend
  · rw [← hs.verdict]
    exact hfree.clear
  · intro i _ hi hlt
    rw [← hs.verdict]
    refine hfree.notHeldUp i ((hs.sight.mayGo i).mpr hi) ?_
    rw [hs.sight.seq, hs.sight.seq]
    exact hlt

section Runs

variable {M : Type} [MemPorts Nat M] {cfg : SimConfig} {c c' : OoOCore M}

/-- Responses, acknowledged stores and updates keep at most one load in flight. -/
theorem beforeAccess_oneLoad (hcfg : cfg.Accepted) (hg : LsqGood cfg c) (h₁ : OneLoad c.lsq) :
    LsqGood cfg c.beforeAccess ∧ OneLoad c.beforeAccess.lsq := by
  obtain ⟨hg₁, hn₁⟩ := drainLoop_idle hcfg (MemPorts.dReady c.msys) c hg
  obtain ⟨hg₂, hn₂⟩ := popAcked_idle hcfg c.drainDataResponses.sb.ring.n c.drainDataResponses hg₁
  obtain ⟨hg₃, hn₃⟩ := lsqUpdates_idle hcfg hg₂.core hg₂
  exact ⟨hg₃, ((hn₁.trans hn₂).trans hn₃).oneLoad h₁⟩

/-- The LSQ's stage keeps at most one load in flight, when the condition holds where the stage
starts. -/
theorem lsqOperate_oneLoad (hcfg : cfg.Accepted) (hcons : cfg.memOrder = .Conservative)
    (hg : LsqGood cfg c) (hio : LoadsInOrder .drained c) (h₁ : OneLoad c.lsq)
    (h : c.lsqOperate = .ok c') : LsqGood cfg c' ∧ OneLoad c'.lsq := by
  obtain ⟨hg₃, hone⟩ := beforeAccess_oneLoad hcfg hg h₁
  have hio' := hio.settled (beforeAccess_settles hg.lsq hg.sb.wf hg₃.lsq) hg.lsq.wf
  unfold OoOCore.lsqOperate at h
  unfold OoOCore.beforeAccess at hg₃ hone hio'
  dsimp only at h hg₃ hone hio'
  generalize OoOCore.lsqUpdates _ = c₃ at h hg₃ hone hio'
  split at h
  · cases h
  · rename_i c₄ hc
    cases h
    obtain ⟨hg₄, hone₄⟩ := accessLoop_oneLoad hcfg hcons _ hg₃ hio' hone hc
    obtain ⟨hg₅, hn₅⟩ := drainLoop_idle hcfg (MemPorts.dReady c₄.msys) c₄ hg₄
    exact ⟨hg₅, hn₅.oneLoad hone₄⟩

/-- In Conservative mode at most one load is in flight in every state of a run in which no load that
is free to go is older than a load in flight. The condition is on the state in which the access
stage starts. -/
theorem conservative_one_load (hcfg : cfg.Accepted) (hcons : cfg.memOrder = .Conservative)
    (frames : Bool) (inputs : Nat → Word) (histLen : Nat → Nat) (msys : M) {ph : Phase}
    (h : ReachWhen LoadsInOrder (OoOCore.init cfg frames inputs histLen msys) ph c) :
    OneLoad c.lsq := by
  have hk₀ := init_coreOk frames inputs histLen msys hcfg
  suffices hboth : LsqGood cfg c ∧ OneLoad c.lsq from hboth.2
  induction h with
  | reset =>
      refine ⟨⟨hk₀, .init (LSQ.wf_init hcfg.lsq_pos), .init hcfg.sb_pos⟩, fun i hi => ?_⟩
      rw [show (OoOCore.init cfg frames inputs histLen msys).lsq.ring.slots = [] from
        Ring.slots_init _] at hi
      cases hi
  | step hr hq hs ih =>
      obtain ⟨hg, h₁⟩ := ih
      have hno := (hr.reach.ok hcfg hk₀).2
      have hidle : ∀ {d d' : OoOCore M}, LsqGood cfg d → OneLoad d.lsq → Idle cfg d d' →
          LsqGood cfg d' ∧ OneLoad d'.lsq := fun hg h₁ hi => ⟨(hi hg).1, (hi hg).2.oneLoad h₁⟩
      cases hs with
      | commit _ hs => exact hidle hg h₁ (commitStage_idle hcfg hs)
      | writeback _ => exact hidle hg h₁ (writebackStage_idle hcfg (hno (Or.inl rfl)) hg.core)
      | drain => exact hidle hg h₁ (aguDrain_idle hcfg (hno (Or.inr rfl)) hg.core)
      | operate hs => exact lsqOperate_oneLoad hcfg hcons hg hq h₁ hs
      | issue => exact hidle hg h₁ (issueStage_idle hcfg hg.core)
      | dispatch => exact hidle hg h₁ (dispatchStage_idle hcfg hg.core (hno (Or.inr rfl)))
      | fetch hs => exact hidle hg h₁ (.of_actions hcfg (fetchStage_actions hs) (fetchStage_lsq hs))
      | edge hs => exact hidle hg h₁ (.of_actions hcfg (clockEdge_actions hs) (clockEdge_lsq hs))

end Runs

/-! ## An address that arrives late -/

/-- A flat memory that answers after four cycles. -/
def lateConfig : SimConfig :=
  { defaultConfig with
    flatMemory := true, flatLatency := 4, memOrder := .Conservative, fetchBytes := 16 }

theorem lateConfig_accepted : lateConfig.Accepted :=
  validateConfig_ok (by decide : validateConfig lateConfig = .ok lateConfig)

/-- The older load waits for a product, the younger one for nothing. -/
def lateProgram : Nat → Word
  | 0 => 0x02000333#32 -- mul x6, x0, x0
  | 1 => 0x00032283#32 -- lw x5, 0(x6)
  | 2 => 0x00002383#32 -- lw x7, 0(x0)
  | _ => 0x00000013#32 -- nop

/-- The machine out of reset with `lateProgram` in memory. -/
def lateCore : OoOCore (MemorySystem Nat) :=
  OoOCore.init lateConfig false (fun _ => 0) (fun _ => 0)
    (MemorySystem.init lateConfig fun a => wordByte (lateProgram (a / 4)) (a % 4))

/-- Without the condition it fails. The older load's address waits for a product, and the younger
load is in flight when it arrives: the older one joins it. -/
theorem late_address_joins :
    validateConfig lateConfig = .ok lateConfig ∧ lateConfig.memOrder = .Conservative ∧
      ∃ ph c, Reach lateCore ph c ∧ ¬ OneLoad c.lsq := by
  refine ⟨by decide, rfl, ?_⟩
  obtain ⟨c, hr, hp⟩ := Reach.eval lateCore 80 .boundary (p := fun c => decide (¬ OneLoad c.lsq))
    (by decide +kernel)
  exact ⟨_, c, hr, of_decide_eq_true hp⟩

/-- A store, a load that it forwards to, and two loads that go to memory. -/
def orderlyProgram : Nat → Word
  | 0 => 0x00002023#32 -- sw x0, 0(x0)
  | 1 => 0x00002283#32 -- lw x5, 0(x0)
  | 2 => 0x00802383#32 -- lw x7, 8(x0)
  | 3 => 0x00C02403#32 -- lw x8, 12(x0)
  | _ => 0x00000013#32 -- nop

/-- The machine out of reset with `orderlyProgram` in memory. -/
def orderlyCore : OoOCore (MemorySystem Nat) :=
  OoOCore.init lateConfig false (fun _ => 0) (fun _ => 0)
    (MemorySystem.init lateConfig fun a => wordByte (orderlyProgram (a / 4)) (a % 4))

/-- In the eleventh cycle the first of the two is in flight, and the second, whose address is known,
has not joined it. -/
theorem conservative_one_load_orderly : ∃ c, ReachWhen LoadsInOrder orderlyCore .operated c ∧
    c.lsq.ring.slots.filter (fun j => (c.lsq.at' j).isPending) = [2] ∧
    c.lsq.ring.slots.filter c.lsq.candidates = [3] ∧ OneLoad c.lsq := by
  obtain ⟨c, hr, hp⟩ := ReachWhen.eval (Q := LoadsInOrder) (q := fun ph c => decide (LoadsInOrder ph c))
    (fun _ _ h => of_decide_eq_true h) orderlyCore 84 .operated
    (p := fun c => decide (c.lsq.ring.slots.filter (fun j => (c.lsq.at' j).isPending) = [2] ∧
      c.lsq.ring.slots.filter c.lsq.candidates = [3])) (by decide +kernel)
  obtain ⟨hpend, hcand⟩ := of_decide_eq_true hp
  exact ⟨c, hr, hpend, hcand, conservative_one_load lateConfig_accepted rfl false (fun _ => 0) (fun _ => 0)
    (MemorySystem.init lateConfig fun a => wordByte (orderlyProgram (a / 4)) (a % 4)) hr⟩

end RvO3
