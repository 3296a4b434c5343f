import RvO3.Core.Stages

/-!
# The states of a run

Each stage of `stepCycle` is a sequence of actions, so what the actions keep holds at
every point of every cycle (`ReachIf.coreOk`), and also in the middle of each stage
(`Mid`). Dispatch needs one more fact: no system instruction is in the ROB once commit
is through, because the one that can be there is alone, done, and commits.
-/

set_option autoImplicit false

namespace RvO3

open OoOCore

variable {M : Type} {cfg : SimConfig} {c c' : OoOCore M}

/-! ## No system instruction after commit -/

/-- No live instruction is a system one. -/
def NoSystem (c : OoOCore M) : Prop := ∀ i ∈ c.rob.slots, (c.rob.e i).isSystem = false

theorem NoSystem.quiet (h : NoSystem c) (hq : Quiet c c') : NoSystem c' := by
  intro i hi
  rw [hq.rob.slots] at hi
  rw [hq.rob.isSystem]
  exact h i hi

/-- A squash only shortens the ROB, so it brings no system instruction in. -/
theorem NoSystem.recover (h : NoSystem c) (hb : BackOk c) (seq : Nat) :
    NoSystem (c.recover seq) := by
  have hs := recover_spec hb seq
  intro i hi
  rw [hs.rob.e]
  exact h i (hs.rob.mem.mp hi).1

/-- One write back, with the recovery of a mispredicted branch when there is one, brings no system
instruction in. -/
theorem NoSystem.writebackOne (h : NoSystem c) (hb : BackOk c) (hne : c.wbReady ≠ []) :
    NoSystem c.writebackOne.1 := by
  obtain ⟨slot, hs, ⟨heq, -⟩ | ⟨heq, -⟩⟩ := writebackOne_cases hne
  · rw [heq]
    exact h.quiet ((quiet_complete c _ _).trans (quiet_dropOut _ slot))
  · rw [heq, mispredict_eq]
    have h1 := h.quiet ((quiet_complete c c.oldestReady (c.outAt slot)).trans
      (quiet_mispredictCall _ slot (resolve (c.rob.e (c.outAt slot).robIdx) (c.outAt slot))))
    exact h1.recover ((hb.finishResult hs).mispredictCall _) _

theorem NoSystem.violationScan (h : NoSystem c) (hb : BackOk c) (store : LsqEntry) :
    NoSystem (c.violationScan store) := by
  cases hv : c.violationVictim store with
  | none =>
      rw [violationScan_none hv]
      exact h
  | some slot =>
      rw [violationScan_eq hv]
      have hb' : BackOk (c.replayCall slot) := { hb with }
      exact NoSystem.recover (c := c.replayCall slot) h hb' _

theorem noSystem_of_nil (h : c.rob.slots = []) : NoSystem c := by
  intro i hi
  rw [h] at hi
  cases hi

section Commit

variable [MemPorts Nat M]

theorem NoSystem.aguDrainOne (h : NoSystem c) (hb : BackOk c) {i : Nat} (hi : c.readyAgu = some i) :
    NoSystem (c.aguDrainOne i) := by
  have h1 := h.quiet (quiet_fillOne c i)
  unfold OoOCore.aguDrainOne
  dsimp only
  split
  · exact h1.violationScan (hb.fillOne hi) _
  · exact h1

/-- What commit leaves of the ROB. -/
theorem commitOne_rob {b : Bool} (hc : c.commitOne = .ok (c', b)) :
    (c'.rob = c.rob ∧ b = false ∧ c.rob.head.isSystem = false) ∨
      (c'.rob = c.rob.popHead ∧ b = true) := by
  rcases commitOne_cases hc with ⟨rfl, rfl, hs⟩ | ⟨rec, hs, rfl⟩ | ⟨hs, rfl⟩
  · exact Or.inl ⟨rfl, rfl, hs⟩
  · obtain ⟨ret, prf, pos, hal, ex, rfl, -⟩ := hs.frame
    exact Or.inr ⟨rfl, rfl⟩
  · rw [hs.frame]
    exact Or.inr ⟨rfl, rfl⟩

/-- One commit leaves the ROB alone or takes its head off, so it brings no system instruction in. -/
theorem NoSystem.commitOne (h : NoSystem c) (hb : BackOk c) {b : Bool}
    (hc : c.commitOne = .ok (c', b)) : NoSystem c' := by
  rcases commitOne_rob hc with ⟨hr, -, -⟩ | ⟨hr, -⟩
  · intro i hi
    rw [hr] at hi ⊢
    exact h i hi
  · intro i hi
    rw [hr, Ring.slots_popHead hb.rob.wf] at hi
    rw [hr]
    exact h i (List.mem_of_mem_tail hi)

/-- The commit loop is a sequence of `commitOne`, each at a done head of a machine that has not
halted. `R` is any relation that relates the two ends of such a commit, so that a finer kind of step
can be read off the same loop. -/
theorem commitLoop_steps {R : OoOCore M → OoOCore M → Prop}
    (hR : ∀ {c c' : OoOCore M} {b : Bool}, c.rob.empty = false → c.rob.head.done = true →
      c.halted = false → c.commitOne = .ok (c', b) → R c c') (n : Nat) :
    ∀ {c : OoOCore M}, c.commitLoop n = .ok c' → Relation.ReflTransGen R c c' := by
  induction n with
  | zero =>
      intro c h
      cases h
      exact .refl
  | succ n ih =>
      intro c h
      unfold commitLoop at h
      split at h
      · rename_i hg
        simp only [Bool.and_eq_true, Bool.not_eq_true'] at hg
        split at h
        · cases h
        · rename_i c₁ hc
          exact .head (hR hg.1.1 hg.1.2 hg.2 hc) (ih h)
        · rename_i c₁ hc
          cases h
          exact .single (hR hg.1.1 hg.1.2 hg.2 hc)
      · cases h
        exact .refl

theorem commitLoop_actions (n : Nat) (h : c.commitLoop n = .ok c') : Actions c c' :=
  commitLoop_steps .commit n h

/-- The commit loop keeps a ROB without system instructions. -/
theorem commitLoop_noSystem (n : Nat) : ∀ {c : OoOCore M}, CoreOk cfg c →
    NoSystem c → c.commitLoop n = .ok c' → NoSystem c' := by
  induction n with
  | zero =>
      intro c _ hn h
      cases h
      exact hn
  | succ n ih =>
      intro c hk hn h
      unfold commitLoop at h
      split at h
      · rename_i hg
        simp only [Bool.and_eq_true, Bool.not_eq_true'] at hg
        split at h
        · cases h
        · rename_i c₁ hc
          exact ih (hk.commitOne hg.1.1 hg.1.2 hc) (hn.commitOne hk.back hc) h
        · rename_i c₁ hc
          cases h
          exact hn.commitOne hk.back hc
      · cases h
        exact hn

/-- Commit leaves no system instruction behind, unless the machine halts. -/
theorem commitStage_noSystem (hcfg : cfg.Accepted) (hk : CoreOk cfg c) (hh : c.halted = false)
    (h : c.commitStage = .ok c') : NoSystem c' := by
  have hw : 1 ≤ c.cfg.width := by
    rw [hk.config]
    exact hcfg.width_pos
  obtain ⟨n, hn⟩ : ∃ n, c.cfg.width = n + 1 := ⟨c.cfg.width - 1, by omega⟩
  rw [commitStage, hn] at h
  by_cases hsys : NoSystem c
  · exact commitLoop_noSystem _ hk hsys h
  · simp only [NoSystem, not_forall, Bool.not_eq_false] at hsys
    obtain ⟨i, hi, hs⟩ := hsys
    have halone := hk.back.rob.alone i hi hs
    have hne : c.rob.empty = false := by
      cases he : c.rob.empty with
      | false => rfl
      | true =>
          rw [(Ring.empty_iff c.rob).mp he] at hi
          cases hi
    obtain ⟨rest, hr⟩ := Ring.slots_eq_cons hk.back.rob.wf hne
    rw [halone, List.cons.injEq] at hr
    have hhead : c.rob.head = c.rob.e i := by
      rw [Ring.head, ← hr.1]
    have hdone : c.rob.head.done = true := by
      rw [hhead]
      exact (hk.back.rob.consistent i hi).system_done hs
    have hsysh : c.rob.head.isSystem = true := by
      rw [hhead]
      exact hs
    unfold commitLoop at h
    simp only [hne, hdone, hh, Bool.not_false, Bool.and_self, if_true] at h
    split at h
    · cases h
    · rename_i c₁ hc
      rcases commitOne_rob hc with ⟨-, hb, -⟩ | ⟨hrob, -⟩
      · cases hb
      · refine commitLoop_noSystem n (hk.commitOne hne hdone hc) (noSystem_of_nil ?_) h
        rw [hrob, Ring.slots_popHead hk.back.rob.wf, halone]
        rfl
    · rename_i c₁ hc
      rcases commitOne_rob hc with ⟨-, -, hb⟩ | ⟨-, hb⟩
      · rw [hsysh] at hb
        cases hb
      · cases hb

end Commit

/-! ## Writeback and address generation -/

/-- A write back that squashes nothing takes one slot from `wbReady`. The loop's count is taken
before it starts, so this is what keeps `wbReady` from running out. -/
theorem writebackOne_length (hne : c.wbReady ≠ []) (h : c.writebackOne.2 = false) :
    c.writebackOne.1.wbReady.length + 1 = c.wbReady.length := by
  obtain ⟨slot, hs, ⟨heq, -⟩ | ⟨heq, -⟩⟩ := writebackOne_cases hne
  · have hlen := (swapRemove_perm hs).length_eq
    rw [List.length_cons] at hlen
    rw [heq, hlen]
    cases slot <;> rfl
  · rw [heq] at h
    cases h

/-! ### Frames -/

/-- What an update leaves alone. -/
structure Updated (c c' : OoOCore M) : Prop where
  quiet : Quiet c c'
  slots : c'.lsq.ring.slots = c.lsq.ring.slots
  outs : c'.loadOuts.length = c.loadOuts.length

theorem Updated.trans {c'' : OoOCore M} (h : Updated c c') (h' : Updated c' c'') : Updated c c'' :=
  ⟨h.quiet.trans h'.quiet, h'.slots.trans h.slots, h'.outs.trans h.outs⟩

/-- Capturing a store's data changes neither the slots of the LSQ nor the number of load outputs. -/
theorem updated_captureStore (c : OoOCore M) (slot : Nat) : Updated c (c.captureStore slot) := by
  refine ⟨quiet_captureStore c slot, ?_, ?_⟩
  · unfold OoOCore.captureStore
    dsimp only
    split
    · split <;> exact Ring.slots_set _ _ _
    · rfl
  · unfold OoOCore.captureStore
    dsimp only
    split
    · split <;> rfl
    · rfl

/-- Surfacing a load is an update, and the output index it hands on stays within the load outputs.
-/
theorem updated_surfaceLoad (c : OoOCore M) (slot : Nat) {k : Nat} (hk : k ≤ c.loadOuts.length) :
    Updated c (c.surfaceLoad slot k).1 ∧ (c.surfaceLoad slot k).2 ≤ c.loadOuts.length := by
  have hq := quiet_surfaceLoad c slot k
  obtain ⟨hle, -⟩ := nextOutput_spec hk
  unfold OoOCore.surfaceLoad at hq ⊢
  dsimp only at hq ⊢
  split
  · split
    · exact ⟨⟨⟨rfl, rfl, SameStatic.refl _, rfl, rfl⟩, rfl, rfl⟩, hle⟩
    · exact ⟨⟨⟨rfl, rfl, SameStatic.refl _, rfl, rfl⟩, Ring.slots_set _ _ _,
        List.length_set⟩, by dsimp only; omega⟩
  · exact ⟨⟨⟨rfl, rfl, SameStatic.refl _, rfl, rfl⟩, rfl, rfl⟩, hk⟩

/-- The update walk visits live slots only: the work set has no stale bit. -/
theorem LSQ.Wf.mem_visitUpdates {q : LSQ} (h : q.Wf) {i : Nat} (hi : i ∈ q.visitUpdates) :
    i ∈ q.ring.slots := by
  rw [LSQ.visitUpdates, Ring.headIdx_eq h.ring, Ring.visit_eq h.ring] at hi
  · exact (List.mem_filter.mp hi).1
  · intro j hj
    rw [h.updates] at hj
    simp only [LSQ.liveSet, Bool.and_eq_true, decide_eq_true_eq] at hj
    exact hj.1

/-- The load walk visits exactly the live candidates, oldest first. -/
theorem LSQ.Wf.visitCandidates_eq {q : LSQ} (h : q.Wf) :
    q.visitCandidates = q.ring.slots.filter q.candidates := by
  rw [LSQ.visitCandidates, Ring.headIdx_eq h.ring, Ring.visit_eq h.ring]
  intro j hj
  rw [h.candidates] at hj
  simp only [LSQ.liveSet, Bool.and_eq_true, decide_eq_true_eq] at hj
  exact hj.1

/-- Completing a load leaves the oldest store without an address as it was: it is a load, and no
sequence number moves. -/
theorem completeLoad_unknown (q : LSQ) (slot : Nat) (v : Word) :
    (q.completeLoad slot v).oldestUnknownStore = q.oldestUnknownStore := by
  have hseq : ∀ i, ((q.completeLoad slot v).at' i).seq = (q.at' i).seq := by
    intro i
    by_cases hi : i = slot
    · subst hi
      simp [LSQ.completeLoad, LSQ.at']
    · simp [LSQ.completeLoad, LSQ.at', hi]
  unfold LSQ.oldestUnknownStore LSQ.oldestSeq
  rw [funext hseq]
  rfl

theorem completeLoad_candidates (q : LSQ) {slot j : Nat} (v : Word) (hne : j ≠ slot)
    (h : q.candidates j = true) : (q.completeLoad slot v).candidates j = true := by
  simp [LSQ.completeLoad, hne, h]

theorem quiet_completeLoad (c : OoOCore M) (slot : Nat) (v : Word) :
    Quiet c { c with lsq := c.lsq.completeLoad slot v } :=
  ⟨rfl, rfl, SameStatic.refl _, rfl, rfl⟩

/-- The unit `pickUnit` names can serve the kind of instruction it was picked for, and lies inside
the arrays of units. -/
theorem pickUnit_serves (hu : c.units.length = c.cfg.aluCount + 3) {kind : FuKind} {a b a' b' : Nat}
    {u : UnitRef} (h : c.pickUnit kind a b = (some u, a', b')) : u.serves c kind := by
  unfold OoOCore.pickUnit at h
  cases kind with
  | ALU =>
      dsimp only at h
      split at h
      · cases h
        exact ⟨nofun, nofun, by omega⟩
      · cases h
  | BRANCH =>
      cases h
      exact ⟨nofun, nofun, by omega⟩
  | MUL =>
      cases h
      exact ⟨nofun, nofun, by omega⟩
  | DIV =>
      cases h
      exact ⟨nofun, nofun, by omega⟩
  | LSU =>
      dsimp only at h
      split at h
      · cases h
        exact ⟨rfl, by assumption⟩
      · cases h
  | NONE => cases h

theorem release_ready (q : IssueQueue) {s t : Nat} (hne : s ≠ t) :
    (q.release t).ready s = q.ready s := by
  simp [IssueQueue.release, hne]

theorem issueTo_ready (c : OoOCore M) (u : UnitRef) {s t : Nat} (hne : s ≠ t) :
    (c.issueTo t u).iq.ready s = c.iq.ready s := by
  cases u <;> exact release_ready c.iq hne

section Stages

variable [MemPorts Nat M]

omit [MemPorts Nat M] in
/-- The writeback loop is a sequence of `writebackOne`, each with a result to choose from, and
leaves the ROB without system instructions. By induction on the number of ports left, each of which
has a waiting result. -/
theorem writebackLoop_steps {R : OoOCore M → OoOCore M → Prop}
    (hR : ∀ {c : OoOCore M}, c.wbReady ≠ [] → R c c.writebackOne.1) (n : Nat) :
    ∀ {c : OoOCore M}, CoreOk cfg c → NoSystem c → n ≤ c.wbReady.length →
    Relation.ReflTransGen R c (writebackLoop n c) ∧ NoSystem (writebackLoop n c) := by
  induction n with
  | zero => exact fun _ hn _ => ⟨.refl, hn⟩
  | succ n ih =>
      intro c hk hn hlen
      have hne : c.wbReady ≠ [] := List.ne_nil_of_length_pos (by omega)
      have hact : R c c.writebackOne.1 := hR hne
      have hn' := hn.writebackOne hk.back hne
      unfold writebackLoop
      split
      · rename_i c₁ heq
        rw [heq] at hact hn'
        exact ⟨.single hact, hn'⟩
      · rename_i c₁ heq
        have hl := writebackOne_length hne (by rw [heq])
        have hk' := hk.writebackOne hne
        rw [heq] at hact hn' hl hk'
        have hl' : c₁.wbReady.length + 1 = c.wbReady.length := hl
        obtain ⟨h1, h2⟩ := ih hk' hn' (by omega)
        exact ⟨.head hact h1, h2⟩

theorem writebackLoop_actions (n : Nat) (hk : CoreOk cfg c) (hn : NoSystem c)
    (hlen : n ≤ c.wbReady.length) :
    Actions c (writebackLoop n c) ∧ NoSystem (writebackLoop n c) :=
  writebackLoop_steps .writeback n hk hn hlen

/-- The drain of the address units is a sequence of `aguDrainOne`, each at a unit that has an
address to give. -/
theorem aguDrainLoop_steps {R : OoOCore M → OoOCore M → Prop}
    (hR : ∀ {c : OoOCore M} {i : Nat}, c.readyAgu = some i → R c (c.aguDrainOne i)) (n : Nat) :
    ∀ {c : OoOCore M}, CoreOk cfg c → NoSystem c →
    Relation.ReflTransGen R c (aguDrainLoop n c) ∧ NoSystem (aguDrainLoop n c) := by
  induction n with
  | zero => exact fun _ hn => ⟨.refl, hn⟩
  | succ n ih =>
      intro c hk hn
      unfold aguDrainLoop
      split
      · exact ⟨.refl, hn⟩
      · rename_i i hi
        obtain ⟨h1, h2⟩ := ih (hk.aguDrainOne hi) (hn.aguDrainOne hk.back hi)
        exact ⟨.head (hR hi) h1, h2⟩

theorem aguDrainLoop_actions (n : Nat) (hk : CoreOk cfg c) (hn : NoSystem c) :
    Actions c (aguDrainLoop n c) ∧ NoSystem (aguDrainLoop n c) :=
  aguDrainLoop_steps .drain n hk hn

/-! ## The memory engine -/

/-- The drain of the data port is a sequence of responses, each popped and handed to `dataResponse`.
-/
theorem drainLoop_steps {R : OoOCore M → OoOCore M → Prop}
    (hR : ∀ {c : OoOCore M} {r : MemResponse Nat}, MemPorts.dResponse c.msys = some r →
      R c ({ c with msys := MemPorts.dPop c.msys }.dataResponse r)) (n : Nat) :
    ∀ {c : OoOCore M},
    Relation.ReflTransGen R c (drainLoop n c) ∧ Quiet c (drainLoop n c) := by
  induction n with
  | zero => exact ⟨.refl, rfl, rfl, SameStatic.refl _, rfl, rfl⟩
  | succ n ih =>
      intro c
      unfold drainLoop
      split
      · exact ⟨.refl, rfl, rfl, SameStatic.refl _, rfl, rfl⟩
      · rename_i r hr
        obtain ⟨h1, h2⟩ := ih (c := ({ c with msys := MemPorts.dPop c.msys } : OoOCore M).dataResponse r)
        have hq : Quiet c { c with msys := MemPorts.dPop c.msys } :=
          ⟨rfl, rfl, SameStatic.refl _, rfl, rfl⟩
        exact ⟨.head (hR hr) h1, (hq.trans (quiet_dataResponse _ r)).trans h2⟩

theorem drainLoop_actions (n : Nat) (c : OoOCore M) :
    Actions c (drainLoop n c) ∧ Quiet c (drainLoop n c) :=
  drainLoop_steps .response n

omit [MemPorts Nat M] in
/-- The store buffer gives up its head as long as that is acknowledged, one entry a step. -/
theorem popAcked_steps {R : OoOCore M → OoOCore M → Prop}
    (hR : ∀ {c : OoOCore M}, c.sb.ring.empty = false → c.sb.ring.head.acked = true →
      R c { c with sb := c.sb.popHead }) (n : Nat) :
    ∀ {c : OoOCore M}, Relation.ReflTransGen R c { c with sb := popAcked n c.sb } := by
  induction n with
  | zero => exact .refl
  | succ n ih =>
      intro c
      unfold popAcked
      split
      · rename_i hg
        simp only [Bool.and_eq_true, Bool.not_eq_true'] at hg
        exact .head (hR hg.1 hg.2) (ih (c := { c with sb := c.sb.popHead }))
      · exact .refl

theorem popAcked_actions (n : Nat) (c : OoOCore M) : Actions c { c with sb := popAcked n c.sb } :=
  popAcked_steps .popAck n

omit [MemPorts Nat M] in
/-- The walk over the update set is a sequence of captures and surfacings. The load outputs never
run out on the way, because `surfaceLoad` hands on an index within them. -/
theorem updateLoop_steps {R : OoOCore M → OoOCore M → Prop}
    (hcap : ∀ {c : OoOCore M} {slot : Nat}, slot ∈ c.lsq.ring.slots → R c (c.captureStore slot))
    (hsurf : ∀ {c : OoOCore M} {slot k : Nat}, slot ∈ c.lsq.ring.slots → k ≤ c.loadOuts.length →
      R c (c.surfaceLoad slot k).1) (l : List Nat) : ∀ {c : OoOCore M} {k : Nat},
    (∀ i ∈ l, i ∈ c.lsq.ring.slots) → k ≤ c.loadOuts.length →
    Relation.ReflTransGen R c (updateLoop l (c, k)) ∧ Updated c (updateLoop l (c, k)) := by
  induction l with
  | nil =>
      intro c k _ _
      exact ⟨.refl, ⟨rfl, rfl, SameStatic.refl _, rfl, rfl⟩, rfl, rfl⟩
  | cons slot l ih =>
      intro c k hl hk
      have hslot := hl slot List.mem_cons_self
      have h1 := updated_captureStore c slot
      obtain ⟨h2, hk2⟩ := updated_surfaceLoad (c.captureStore slot) slot (k := k)
        (by rw [h1.outs]; exact hk)
      have h12 := h1.trans h2
      obtain ⟨h3, h4⟩ := ih (c := ((c.captureStore slot).surfaceLoad slot k).1)
        (k := ((c.captureStore slot).surfaceLoad slot k).2)
        (fun i hi => by rw [h12.slots]; exact hl i (List.mem_cons_of_mem _ hi))
        (by rw [h2.outs]; exact hk2)
      refine ⟨.head (hcap hslot) (.head (hsurf ?_ ?_) h3), h12.trans h4⟩
      · rw [h1.slots]
        exact hslot
      · rw [h1.outs]
        exact hk

omit [MemPorts Nat M] in
/-- The LSQ's updates are a sequence of captures and surfacings, each of a live slot. -/
theorem lsqUpdates_steps {R : OoOCore M → OoOCore M → Prop}
    (hcap : ∀ {c : OoOCore M} {slot : Nat}, slot ∈ c.lsq.ring.slots → R c (c.captureStore slot))
    (hsurf : ∀ {c : OoOCore M} {slot k : Nat}, slot ∈ c.lsq.ring.slots → k ≤ c.loadOuts.length →
      R c (c.surfaceLoad slot k).1) (hk : CoreOk cfg c) :
    Relation.ReflTransGen R c c.lsqUpdates ∧ Quiet c c.lsqUpdates := by
  unfold OoOCore.lsqUpdates
  split
  · obtain ⟨h1, h2⟩ := updateLoop_steps hcap hsurf c.lsq.visitUpdates (c := c) (k := 0)
      (fun i hi => hk.back.lsq.wf.mem_visitUpdates hi) (Nat.zero_le _)
    exact ⟨h1, h2.quiet⟩
  · exact ⟨.refl, rfl, rfl, SameStatic.refl _, rfl, rfl⟩

theorem lsqUpdates_actions (hk : CoreOk cfg c) : Actions c c.lsqUpdates ∧ Quiet c c.lsqUpdates :=
  lsqUpdates_steps .capture .surface hk

/-! ### Visiting the candidates -/

/-- The load a visit returns. -/
def Chosen (c : OoOCore M) : Option (Nat × Bool) → Prop
  | none => True
  | some (slot, _) => c.MayGo slot ∧ c.verdict slot = .clear

/-- A walk over load candidates completes the ones that forward and stops at the one it chooses. The
pending load and the wall are those of the state the walk starts from; completing a load moves
neither. -/
theorem visitLoads_actions (pendingSeq : Option Nat) (l : List Nat) (hnd : l.Nodup) :
    ∀ {c : OoOCore M}, (∀ i ∈ l, c.lsq.candidates i = true) →
    Actions c (visitLoads c.lsq.oldestUnknownStore pendingSeq l c).1 ∧
      Quiet c (visitLoads c.lsq.oldestUnknownStore pendingSeq l c).1 ∧
      Chosen (visitLoads c.lsq.oldestUnknownStore pendingSeq l c).1
        (visitLoads c.lsq.oldestUnknownStore pendingSeq l c).2 := by
  have hstop : ∀ c : OoOCore M, Actions c c ∧ Quiet c c ∧ Chosen c none :=
    fun c => ⟨.refl, ⟨rfl, rfl, SameStatic.refl _, rfl, rfl⟩, trivial⟩
  induction l with
  | nil => exact fun {c} _ => hstop c
  | cons slot l ih =>
      intro c hl
      obtain ⟨hslot, hnd'⟩ := List.nodup_cons.mp hnd
      have hcand := hl slot List.mem_cons_self
      -- a completed candidate leaves the others and the unknown stores as they are
      have hgo : ∀ v, Action c { c with lsq := c.lsq.completeLoad slot v } →
          Actions c (visitLoads c.lsq.oldestUnknownStore pendingSeq l
              { c with lsq := c.lsq.completeLoad slot v }).1 ∧
            Quiet c (visitLoads c.lsq.oldestUnknownStore pendingSeq l
              { c with lsq := c.lsq.completeLoad slot v }).1 ∧
            Chosen (visitLoads c.lsq.oldestUnknownStore pendingSeq l
                { c with lsq := c.lsq.completeLoad slot v }).1
              (visitLoads c.lsq.oldestUnknownStore pendingSeq l
                { c with lsq := c.lsq.completeLoad slot v }).2 := by
        intro v hact
        have h := ih hnd' (c := { c with lsq := c.lsq.completeLoad slot v }) fun i hi =>
          completeLoad_candidates c.lsq v (fun he => hslot (he ▸ hi))
            (hl i (List.mem_cons_of_mem _ hi))
        simp only [completeLoad_unknown] at h
        obtain ⟨h1, h2, h3⟩ := h
        exact ⟨.head hact h1, (quiet_completeLoad c slot v).trans h2, h3⟩
      have hskip := ih hnd' (c := c) fun i hi => hl i (List.mem_cons_of_mem _ hi)
      unfold visitLoads
      dsimp only
      split
      · exact hstop c
      · split
        · rename_i hf
          exact hgo 0 (.zero hcand hf)
        · rename_i hf
          split
          · exact hskip
          · rename_i hw
            have hmay : c.MayGo slot := by
              refine ⟨hcand, by simpa using hf, fun hwall => ?_⟩
              cases hcau : c.cautious (c.lsq.at' slot) with
              | false => rfl
              | true => exact absurd (by rw [show before _ _ = true from hwall, hcau]; rfl) hw
            split
            · rename_i data hv
              have hact := Action.forward hmay hv
              split
              · exact ⟨.single hact, quiet_completeLoad c slot _, trivial⟩
              · exact hgo _ hact
            · rename_i hv
              exact ⟨.refl, ⟨rfl, rfl, SameStatic.refl _, rfl, rfl⟩, hmay, hv⟩
            · split
              · exact hstop c
              · exact hskip

/-- The search for a load is a sequence of completions, and the load it chooses is a candidate that
has not been sent. -/
theorem findLoad_actions (hk : CoreOk cfg c) :
    Actions c c.findLoad.1 ∧ Quiet c c.findLoad.1 ∧ Chosen c.findLoad.1 c.findLoad.2 := by
  unfold OoOCore.findLoad
  dsimp only
  have hv := hk.back.lsq.wf.visitCandidates_eq
  apply visitLoads_actions
  · rw [hv]
    exact (Ring.slots_nodup hk.back.lsq.wf.ring).filter _
  · intro i hi
    rw [hv] at hi
    exact (List.mem_filter.mp hi).2

/-- One data-port access: a visit, then a store or the load the visit chose is sent if there
is one to send. -/
inductive Accessed (r : OoOCore M × Option (Nat × Bool)) : OoOCore M → Bool → Prop
  | idle : Accessed r r.1 false
  | store {c' : OoOCore M} {slot : Nat} : r.1.sb.nextToIssue = some slot →
      MemPorts.dCanAccept r.1.msys = true → r.1.sendStore slot = .ok c' → Accessed r c' true
  | load {c' : OoOCore M} {slot : Nat} {wall : Bool} : r.2 = some (slot, wall) →
      MemPorts.dCanAccept r.1.msys = true → r.1.sendLoad slot = .ok c' → Accessed r c' true

/-- The report of an access that was sent. -/
def reported {M : Type} (x : Except Fatal (OoOCore M)) : Except Fatal (OoOCore M × Bool) :=
  match x with
  | .error err => .error err
  | .ok c => .ok (c, true)

omit [MemPorts Nat M] in
theorem reported_ok {x : Except Fatal (OoOCore M)} {b : Bool} (h : reported x = .ok (c', b)) :
    x = .ok c' ∧ b = true := by
  cases x with
  | error err => cases h
  | ok c =>
      cases h
      exact ⟨rfl, rfl⟩

/-- What one access does after the search: a store goes out, the chosen load goes out, or nothing
does. -/
theorem accessOne_cases {b : Bool} (h : c.accessOne = .ok (c', b)) : Accessed c.findLoad c' b := by
  unfold OoOCore.accessOne at h
  generalize c.findLoad = r at h
  obtain ⟨c₁, cand⟩ := r
  dsimp only at h
  have hstore : ∀ slot, c₁.sb.nextToIssue = some slot → MemPorts.dCanAccept c₁.msys = true →
      reported (c₁.sendStore slot) = .ok (c', b) → Accessed (c₁, cand) c' b := by
    intro slot hn ha hs
    obtain ⟨h1, rfl⟩ := reported_ok hs
    exact .store hn ha h1
  have hload : ∀ slot b', cand = some (slot, b') → MemPorts.dCanAccept c₁.msys = true →
      reported (c₁.sendLoad slot) = .ok (c', b) → Accessed (c₁, cand) c' b := by
    intro slot b' hcd ha hs
    obtain ⟨h1, rfl⟩ := reported_ok hs
    exact .load hcd ha h1
  have hidle : (Except.ok (c₁, false) : Except Fatal (OoOCore M × Bool)) = .ok (c', b) →
      Accessed (c₁, cand) c' b := by
    intro he
    cases he
    exact .idle
  split at h
  · rename_i slot hn
    split at h
    · rename_i ha
      exact hstore slot hn ha h
    · exact hidle h
  · rename_i slot load b' hn
    split at h
    · split at h
      · rename_i ha
        exact hstore slot hn ha h
      · exact hidle h
    · split at h
      · rename_i ha
        exact hload load b' rfl ha h
      · exact hidle h
  · rename_i load b' hn
    split at h
    · rename_i ha
      exact hload load b' rfl ha h
    · exact hidle h
  · exact hidle h

/-- One access is a sequence of actions that leaves the renaming and the static part of the ROB
alone. -/
theorem accessOne_actions (hk : CoreOk cfg c) {b : Bool} (h : c.accessOne = .ok (c', b)) :
    Actions c c' ∧ Quiet c c' := by
  obtain ⟨h1, h2, h3⟩ := findLoad_actions hk
  cases accessOne_cases h with
  | idle => exact ⟨h1, h2⟩
  | store hn ha hs =>
      refine ⟨h1.tail (.sendStore hn ha hs), h2.trans ?_⟩
      obtain ⟨m, sb, ctr, rfl⟩ := sendStore_frame hs
      exact ⟨rfl, rfl, SameStatic.refl _, rfl, rfl⟩
  | load hcd ha hs =>
      rw [hcd] at h3
      refine ⟨h1.tail (.sendLoad h3.1 h3.2 ha hs), h2.trans ?_⟩
      obtain ⟨m, rfl⟩ := sendLoad_frame hs
      exact ⟨rfl, rfl, SameStatic.refl _, rfl, rfl⟩

/-- So is the loop over the memory ports, at every number of ports. -/
theorem accessLoop_actions (hcfg : cfg.Accepted) (n : Nat) : ∀ {c : OoOCore M}, CoreOk cfg c →
    c.accessLoop n = .ok c' → Actions c c' ∧ Quiet c c' := by
  induction n with
  | zero =>
      intro c _ h
      cases h
      exact ⟨.refl, rfl, rfl, SameStatic.refl _, rfl, rfl⟩
  | succ n ih =>
      intro c hk h
      unfold accessLoop at h
      split at h
      · cases h
      · rename_i c₁ hc
        obtain ⟨h1, h2⟩ := accessOne_actions hk hc
        obtain ⟨h3, h4⟩ := ih (h1.coreOk hcfg hk) h
        exact ⟨h1.trans h3, h2.trans h4⟩
      · rename_i c₁ hc
        cases h
        exact accessOne_actions hk hc

/-- The LSQ's half of the cycle is a sequence of actions: responses, acknowledged stores, updates,
then one access a port. -/
theorem lsqOperate_actions (hcfg : cfg.Accepted) (hk : CoreOk cfg c) (h : c.lsqOperate = .ok c') :
    Actions c c' ∧ Quiet c c' := by
  unfold OoOCore.lsqOperate at h
  dsimp only at h
  obtain ⟨a1, q1⟩ := drainLoop_actions (MemPorts.dReady c.msys) c
  change Actions c c.drainDataResponses at a1
  change Quiet c c.drainDataResponses at q1
  generalize c.drainDataResponses = c₁ at h a1 q1
  have a2 := popAcked_actions c₁.sb.ring.n c₁
  have q2 : Quiet c₁ { c₁ with sb := popAcked c₁.sb.ring.n c₁.sb } :=
    ⟨rfl, rfl, SameStatic.refl _, rfl, rfl⟩
  generalize ({ c₁ with sb := popAcked c₁.sb.ring.n c₁.sb } : OoOCore M) = c₂ at h a2 q2
  obtain ⟨a3, q3⟩ := lsqUpdates_actions (Actions.coreOk hcfg (a1.trans a2) hk)
  generalize c₂.lsqUpdates = c₃ at h a3 q3
  split at h
  · cases h
  · rename_i c₄ hc
    cases h
    obtain ⟨a4, q4⟩ := accessLoop_actions hcfg _ (Actions.coreOk hcfg ((a1.trans a2).trans a3) hk) hc
    obtain ⟨a5, q5⟩ := drainLoop_actions (MemPorts.dReady c₄.msys) c₄
    exact ⟨(((a1.trans a2).trans a3).trans a4).trans a5,
      (((q1.trans q2).trans q3).trans q4).trans q5⟩

/-! ## Issue -/

omit [MemPorts Nat M] in
/-- The issue loop is a sequence of `issueTo`, each of a ready slot to a unit that serves its kind
and can accept it. The slots still to visit stay ready, because issuing one slot changes no other
slot's readiness. -/
theorem issueLoop_steps {R : OoOCore M → OoOCore M → Prop}
    (hR : ∀ {c : OoOCore M} {slot : Nat} {u : UnitRef}, c.iq.ready slot = true →
      u.serves c (c.iq.e slot).unit → (c.unitAt u).canAccept = true → R c (c.issueTo slot u))
    (l : List Nat) (hnd : l.Nodup) : ∀ {n a b : Nat} {c : OoOCore M},
    c.units.length = c.cfg.aluCount + 3 → (∀ i ∈ l, c.iq.ready i = true) →
    Relation.ReflTransGen R c (issueLoop l n a b c) ∧ Quiet c (issueLoop l n a b c) := by
  induction l with
  | nil => exact fun _ _ => ⟨.refl, rfl, rfl, SameStatic.refl _, rfl, rfl⟩
  | cons slot l ih =>
      intro n a b c hu hl
      obtain ⟨hslot, hnd'⟩ := List.nodup_cons.mp hnd
      have hrest : ∀ i ∈ l, c.iq.ready i = true := fun i hi => hl i (List.mem_cons_of_mem _ hi)
      unfold issueLoop
      split
      · exact ih hnd' hu hrest
      · rename_i u a' b' hp
        split
        · rename_i hacc
          have hact : R c (c.issueTo slot u) :=
            hR (hl slot List.mem_cons_self) (pickUnit_serves hu hp) hacc
          have hq := quiet_issueTo c slot u
          split
          · exact ⟨.single hact, hq⟩
          · obtain ⟨h1, h2⟩ := ih hnd' (n := n - 1) (a := a') (b := b') (c := c.issueTo slot u)
              (by rw [hq.units, hq.cfg]; exact hu)
              (fun i hi => by
                have hne : i ≠ slot := fun he => hslot (he ▸ hi)
                rw [issueTo_ready c u hne]
                exact hrest i hi)
            exact ⟨.head hact h1, hq.trans h2⟩
        · exact ih hnd' hu hrest

omit [MemPorts Nat M] in
theorem issueStage_steps {R : OoOCore M → OoOCore M → Prop}
    (hR : ∀ {c : OoOCore M} {slot : Nat} {u : UnitRef}, c.iq.ready slot = true →
      u.serves c (c.iq.e slot).unit → (c.unitAt u).canAccept = true → R c (c.issueTo slot u))
    (hk : CoreOk cfg c) :
    Relation.ReflTransGen R c c.issueStage ∧ Quiet c c.issueStage := by
  apply issueLoop_steps hR
  · rw [Ring.headIdx_eq hk.back.rob.wf, IssueQueue.visitReady, hk.back.iq.robSize]
    exact List.Nodup.filter _ (Ring.ringOrder_nodup hk.back.rob.wf)
  · exact hk.units.trans (by rw [hk.config])
  · intro i hi
    exact (List.mem_filter.mp hi).2

theorem issueStage_actions (hk : CoreOk cfg c) : Actions c c.issueStage ∧ Quiet c c.issueStage :=
  issueStage_steps .issue hk

/-! ## Dispatch and fetch -/

omit [MemPorts Nat M] in
/-- The dispatch loop is a sequence of `dispatchOne`, each of them after commit has left the ROB
without a system instruction. One that dispatches a system instruction ends the loop. -/
theorem dispatchLoop_steps {R : OoOCore M → OoOCore M → Prop}
    (hR : ∀ {c : OoOCore M} {first : Bool}, NoSystem c → R c (c.dispatchOne first).1)
    (hcfg : cfg.Accepted) (n : Nat) : ∀ {first : Bool} {c : OoOCore M},
    CoreOk cfg c → NoSystem c → Relation.ReflTransGen R c (dispatchLoop n first c) := by
  induction n with
  | zero => exact fun _ _ => .refl
  | succ n ih =>
      intro first c hk hn
      have hact : R c (c.dispatchOne first).1 := hR hn
      have hk' := hk.dispatchOne hcfg first hn
      unfold dispatchLoop
      split
      · rename_i c₁ heq
        rw [heq] at hact hk'
        refine .head hact (ih hk' ?_)
        rcases dispatchOne_cases c first with h | ⟨-, h⟩ | ⟨hr, h⟩
        · rw [h] at heq
          cases heq
        · rw [h] at heq
          cases heq
        · rw [h] at heq
          cases heq
          have hp := pushed hk.back.rob.wf hr.rob (opEntry c c.fetchQ.head)
          rw [dispatchOp_eq]
          intro i hi
          change i ∈ (pushRob c.rob (opEntry c c.fetchQ.head)).slots at hi
          show ((pushRob c.rob (opEntry c c.fetchQ.head)).e i).isSystem = false
          rw [hp.slots] at hi
          rcases List.mem_append.mp hi with hi | hi
          · rw [hp.old i hi]
            exact hn i hi
          · rw [List.mem_singleton.mp hi, hp.new]
            rfl
      · rename_i c₁ heq
        rw [heq] at hact
        exact .single hact

theorem dispatchLoop_actions (hcfg : cfg.Accepted) (n : Nat) {first : Bool} (hk : CoreOk cfg c)
    (hn : NoSystem c) : Actions c (dispatchLoop n first c) :=
  dispatchLoop_steps .dispatch hcfg n hk hn

/-- Taking a finished fetch block is one action, or none when no block is ready. -/
theorem consumeIfReady_actions (c : OoOCore M) : Actions c c.consumeIfReady := by
  unfold OoOCore.consumeIfReady
  split
  · rename_i r hr
    split
    · rename_i ho
      exact .single (.consume hr ho)
    · exact .refl
  · exact .refl

/-- The fetch stage is a sequence of actions: a block that came back is consumed, then the next one
is asked for. -/
theorem fetchStage_actions (h : c.fetchStage = .ok c') : Actions c c' := by
  have h1 := consumeIfReady_actions c
  unfold OoOCore.fetchStage at h
  dsimp only at h
  generalize c.consumeIfReady = c₁ at h h1
  split at h
  · cases h
    exact h1
  · rename_i hg
    simp only [Bool.or_eq_true, decide_eq_true_eq, not_or, Bool.not_eq_true, Nat.not_lt] at hg
    split at h
    · cases h
      exact h1
    · rename_i hal
      split at h
      · split at h
        · cases h
        · cases h
          exact h1
      · rename_i hlt
        split at h
        · cases h
          exact h1
        · rename_i hacc
          unfold OoOCore.requestBlock at h
          dsimp only at h
          split at h
          · cases h
          · rename_i m hm
            cases h
            exact (h1.tail (.request hg.1.1 hg.1.2 hg.2 (by simpa using hal) (Nat.lt_of_not_le hlt)
              (by simpa using hacc) hm)).trans (consumeIfReady_actions _)

/-- The clock edge is three actions: the redirect, the units' tick and the memory system's tick. -/
theorem clockEdge_actions (h : c.clockEdge = .ok c') : Actions c c' := by
  unfold OoOCore.clockEdge at h
  dsimp only at h
  split at h
  · cases h
  · rename_i m hm
    cases h
    exact ((Relation.ReflTransGen.single Action.redirect).tail .tickUnits).tail (.tickMem hm)

/-! ### What fetch and the clock leave alone -/

/-- The part `f` of the core depends neither on the front end nor on the memory system. -/
def BehindFetch {α : Type} (f : OoOCore M → α) : Prop :=
  ∀ (c : OoOCore M) m out stale block fetchPc pred q pc, f { c with
    msys := m, fOutstanding := out, fStale := stale, fBlock := block, fFetchPc := fetchPc, pred := pred
    fetchQ := q, pc := pc } = f c

theorem consumeIfReady_keeps {α : Type} {f : OoOCore M → α} (hf : BehindFetch f) (c : OoOCore M) :
    f c.consumeIfReady = f c := by
  unfold OoOCore.consumeIfReady
  split
  · rename_i r _
    split
    · obtain ⟨m, out, stale, pred, q, pc, heq⟩ := consume_frame c r
      rw [heq]
      exact hf c m out stale c.fBlock c.fFetchPc pred q pc
    · rfl
  · rfl

theorem fetchStage_keeps {α : Type} {f : OoOCore M → α} (hf : BehindFetch f) (h : c.fetchStage = .ok c') :
    f c' = f c := by
  have h1 := consumeIfReady_keeps hf c
  unfold OoOCore.fetchStage at h
  dsimp only at h
  generalize c.consumeIfReady = c₁ at h h1
  split at h
  · cases h
    exact h1
  · split at h
    · cases h
      exact h1
    · split at h
      · split at h
        · cases h
        · cases h
          exact h1
      · split at h
        · cases h
          exact h1
        · -- the request is sent, and the block may be there at once
          unfold OoOCore.requestBlock at h
          dsimp only at h
          split at h
          · cases h
          · rename_i m _
            cases h
            rw [consumeIfReady_keeps hf, ← h1]
            exact hf c₁ m true c₁.fStale _ c₁.pc c₁.pred c₁.fetchQ c₁.pc

/-- The clock edge redirects fetch and moves units and memory, and nothing else. -/
theorem clockEdge_frame (h : c.clockEdge = .ok c') : ∃ m stale pc wb units agus, c' = { c with
    msys := m, fStale := stale, pc := pc, pendRedirect := false, wbReady := wb, units := units, agus := agus } := by
  unfold OoOCore.clockEdge at h
  dsimp only at h
  split at h
  · cases h
  · rename_i m _
    cases h
    unfold OoOCore.applyRedirect
    split
    · exact ⟨m, _, _, _, _, _, rfl⟩
    · rename_i hno
      have hpend : c.pendRedirect = false := Bool.not_eq_true _ ▸ hno
      exact ⟨m, c.fStale, c.pc, _, _, _, by rw [← hpend]; rfl⟩

/-! ## Reachable states -/

/-- Stages in which dispatch may still come across no system instruction. -/
def Phase.afterCommit : Phase → Bool
  | .wrote | .drained | .operated | .issued => true
  | _ => false

/-- Every state of a run from a state that meets the core's invariant meets it too, and after commit
has no system instruction in the ROB. By induction on the run, one case for each point of the cycle.
-/
theorem ReachIf.ok (hcfg : cfg.Accepted) {P : OoOCore M → Prop} {c₀ : OoOCore M} {ph : Phase}
    (h₀ : CoreOk cfg c₀) (h : ReachIf P c₀ ph c) :
    CoreOk cfg c ∧ ((ph = .committed ∨ ph.afterCommit = true) → NoSystem c) := by
  induction h with
  | reset => exact ⟨h₀, fun hp => by rcases hp with h | h <;> cases h⟩
  | commit _ _ hh hs ih =>
      exact ⟨(commitLoop_actions _ hs).coreOk hcfg ih.1,
        fun _ => commitStage_noSystem hcfg ih.1 hh hs⟩
  | writeback _ _ _ ih =>
      obtain ⟨h1, h2⟩ := writebackLoop_actions _ ih.1 (ih.2 (Or.inl rfl)) (Nat.min_le_right _ _)
      exact ⟨h1.coreOk hcfg ih.1, fun _ => h2⟩
  | drain _ _ ih =>
      obtain ⟨h1, h2⟩ := aguDrainLoop_actions _ ih.1 (ih.2 (Or.inr rfl))
      exact ⟨h1.coreOk hcfg ih.1, fun _ => h2⟩
  | operate _ _ hs ih =>
      obtain ⟨h1, h2⟩ := lsqOperate_actions hcfg ih.1 hs
      exact ⟨h1.coreOk hcfg ih.1, fun _ => (ih.2 (Or.inr rfl)).quiet h2⟩
  | issue _ _ ih =>
      obtain ⟨h1, h2⟩ := issueStage_actions ih.1
      exact ⟨h1.coreOk hcfg ih.1, fun _ => (ih.2 (Or.inr rfl)).quiet h2⟩
  | dispatch _ _ ih =>
      exact ⟨(dispatchLoop_actions hcfg _ ih.1 (ih.2 (Or.inr rfl))).coreOk hcfg ih.1,
        fun hp => by rcases hp with h | h <;> cases h⟩
  | fetch _ _ hs ih =>
      exact ⟨(fetchStage_actions hs).coreOk hcfg ih.1,
        fun hp => by rcases hp with h | h <;> cases h⟩
  | edge _ _ hs ih =>
      exact ⟨(clockEdge_actions hs).coreOk hcfg ih.1,
        fun hp => by rcases hp with h | h <;> cases h⟩

theorem ReachIf.coreOk (hcfg : cfg.Accepted) {P : OoOCore M → Prop} {c₀ : OoOCore M} {ph : Phase}
    (h₀ : CoreOk cfg c₀) (h : ReachIf P c₀ ph c) : CoreOk cfg c := (h.ok hcfg h₀).1

/-- A run is a sequence of actions. -/
theorem ReachIf.actions (hcfg : cfg.Accepted) {P : OoOCore M → Prop} {c₀ : OoOCore M} {ph : Phase}
    (h₀ : CoreOk cfg c₀) (h : ReachIf P c₀ ph c) : Actions c₀ c := by
  induction h with
  | reset => exact .refl
  | commit _ _ _ hs ih => exact ih.trans (commitLoop_actions _ hs)
  | writeback hr _ _ ih =>
      have hk := hr.ok hcfg h₀
      exact ih.trans (writebackLoop_actions _ hk.1 (hk.2 (Or.inl rfl)) (Nat.min_le_right _ _)).1
  | drain hr _ ih =>
      have hk := hr.ok hcfg h₀
      exact ih.trans (aguDrainLoop_actions _ hk.1 (hk.2 (Or.inr rfl))).1
  | operate hr _ hs ih => exact ih.trans (lsqOperate_actions hcfg (hr.coreOk hcfg h₀) hs).1
  | issue hr _ ih => exact ih.trans (issueStage_actions (hr.coreOk hcfg h₀)).1
  | dispatch hr _ ih =>
      have hk := hr.ok hcfg h₀
      exact ih.trans (dispatchLoop_actions hcfg _ hk.1 (hk.2 (Or.inr rfl)))
  | fetch _ _ hs ih => exact ih.trans (fetchStage_actions hs)
  | edge _ _ hs ih => exact ih.trans (clockEdge_actions hs)

end Stages

end RvO3
