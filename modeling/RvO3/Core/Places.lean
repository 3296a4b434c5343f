import RvO3.Core.Conservation

/-!
# Every unfinished instruction is in one place

Between dispatch and completion an instruction is handed between the issue queue, the
functional units, the LSQ and the load outputs. `Place` names each slot that can hold one
and `places` lists those the machine has; what they hold together is what the back-end
invariant conserves, so an unfinished instruction is in one of them, once, and a finished
one in none.
-/

set_option autoImplicit false

namespace RvO3

open OoOCore

variable {M : Type} {cfg : SimConfig} {c : OoOCore M}

/-! ## Places -/

/-- The places that can hold an instruction: an issue-queue slot; a stage, the busy slot or
the output slot of a unit; a load output; and an LSQ slot, for a load that is a candidate,
pending or completed but not reported, or a resolved store that waits for its data. -/
inductive Place where
  | iq (s : Nat)
  | stage (u : UnitRef) (k : Nat)
  | busy (u : UnitRef)
  | out (u : UnitRef)
  | loadOut (k : Nat)
  | candidate (j : Nat)
  | pending (j : Nat)
  | unreported (j : Nat)
  | waiting (j : Nat)
  deriving DecidableEq, Repr

namespace OoOCore

/-- Does the place hold an instruction? -/
def occupied (c : OoOCore M) : Place → Bool
  | .iq s => c.iq.occupied s
  | .stage u k => ((c.unitAt u).stages[k]?.getD default).valid
  | .busy u => (c.unitAt u).cur.valid
  | .out u => (c.unitAt u).out.valid
  | .loadOut k => (c.loadOuts[k]?.getD default).valid
  | .candidate j => c.lsq.candidates j
  | .pending j => c.lsq.pending j
  | .unreported j => decide (j ∈ c.lsq.ring.slots) && (c.lsq.at' j).isUnreported
  | .waiting j => decide (j ∈ c.lsq.ring.slots) && (c.lsq.at' j).addrValid && (c.lsq.at' j).isWaiting

/-- The sequence number of the instruction it holds. -/
def occupant (c : OoOCore M) : Place → Nat
  | .iq s => (c.iq.e s).seq
  | .stage u k => ((c.unitAt u).stages[k]?.getD default).seq
  | .busy u => (c.unitAt u).cur.seq
  | .out u => (c.unitAt u).out.seq
  | .loadOut k => (c.loadOuts[k]?.getD default).seq
  | .candidate j => (c.lsq.at' j).seq
  | .pending j => (c.lsq.at' j).seq
  | .unreported j => (c.lsq.at' j).seq
  | .waiting j => (c.lsq.at' j).seq

/-- Place `p` holds instruction `seq`. -/
structure Holds (c : OoOCore M) (p : Place) (seq : Nat) : Prop where
  occupied : c.occupied p = true
  occupant : c.occupant p = seq

/-- The places of a unit. -/
def unitPlaces (c : OoOCore M) (u : UnitRef) : List Place :=
  (List.range (c.unitAt u).stages.length).map (.stage u) ++ [.busy u, .out u]

/-- The places of the LSQ. -/
def lsqPlaces (c : OoOCore M) : List Place :=
  c.lsq.ring.slots.map .candidate ++ c.lsq.ring.slots.map .pending ++
    c.lsq.ring.slots.map .unreported ++ c.lsq.ring.slots.map .waiting

/-- Every place of the machine. -/
def places (c : OoOCore M) : List Place :=
  (List.range c.iq.robSize).map .iq ++
    (List.range c.units.length).flatMap (fun i => c.unitPlaces (.wb i)) ++
    (List.range c.agus.length).flatMap (fun i => c.unitPlaces (.agu i)) ++
    (List.range c.loadOuts.length).map .loadOut ++ c.lsqPlaces

end OoOCore

/-! ## What the places hold together -/

theorem tally_unitPlaces (c : OoOCore M) (u : UnitRef) :
    tally (c.unitPlaces u) c.occupied c.occupant = opSeqs (c.unitAt u).ops := by
  have hops : opSeqs (c.unitAt u).ops =
      tally ((c.unitAt u).stages ++ [(c.unitAt u).cur] ++ [(c.unitAt u).out]) (·.valid) FuOp.seq := by
    rw [opSeqs, FuUnit.ops, FuUnit.inner, ← List.filter_append]
    rfl
  rw [hops, unitPlaces, tally_append, tally_map, tally_append, tally_append, add_assoc,
    ← tally_range (c.unitAt u).stages, tally_cons, tally_singleton, tally_singleton, tally_singleton]
  rfl

theorem tally_unitsPlaces (c : OoOCore M) (f : Nat → UnitRef) (us : List FuUnit)
    (hf : ∀ i, c.unitAt (f i) = us[i]?.getD default) :
    tally ((List.range us.length).flatMap fun i => c.unitPlaces (f i)) c.occupied c.occupant =
      unitsHeld us := by
  rw [← bag_tally, unitsHeld, ← bag_range us]
  exact bag_congr fun i _ => by rw [tally_unitPlaces, hf]

theorem tally_lsqPlaces (h : c.lsq.Wf) :
    tally c.lsqPlaces c.occupied c.occupant = lsqHeld c.lsq := by
  have hheld : lsqHeld c.lsq =
      tally c.lsq.ring.slots (fun j => (c.lsq.at' j).isCandidate) (fun j => (c.lsq.at' j).seq) +
      tally c.lsq.ring.slots (fun j => (c.lsq.at' j).isPending) (fun j => (c.lsq.at' j).seq) +
      tally c.lsq.ring.slots (fun j => (c.lsq.at' j).isUnreported) (fun j => (c.lsq.at' j).seq) +
      tally c.lsq.ring.slots (fun j => (c.lsq.at' j).addrValid && (c.lsq.at' j).isWaiting)
        (fun j => (c.lsq.at' j).seq) := by
    unfold lsqHeld LsqEntry.holds
    rw [tally_or, tally_or, tally_or]
    · intro j _ hp
      simp only [LsqEntry.isCandidate, LsqEntry.isPending, Bool.and_eq_true,
        Bool.not_eq_true'] at hp ⊢
      simp [hp.1.2]
    · intro j _ hp
      simp only [LsqEntry.isCandidate, LsqEntry.isPending, LsqEntry.isUnreported, Bool.or_eq_true,
        Bool.and_eq_true, Bool.not_eq_true'] at hp ⊢
      rcases hp with hp | hp <;> simp [hp.2]
    · intro j _ hp
      simp only [LsqEntry.isCandidate, LsqEntry.isPending, LsqEntry.isUnreported,
        LsqEntry.isWaiting, Bool.or_eq_true, Bool.and_eq_true, Bool.not_eq_true'] at hp ⊢
      rcases hp with (hp | hp) | hp
      · simp [hp.1.1.1]
      · simp [hp.1.1]
      · simp [hp.1.1]
  rw [hheld, lsqPlaces, tally_append, tally_append, tally_append, tally_map, tally_map, tally_map,
    tally_map]
  congr 1
  · congr 1
    · congr 1
      · refine tally_congr fun j hj => ⟨?_, rfl⟩
        show c.lsq.candidates j = _
        rw [h.candidates, LSQ.liveSet, decide_eq_true hj]
        rfl
      · refine tally_congr fun j hj => ⟨?_, rfl⟩
        show c.lsq.pending j = _
        rw [h.pending, LSQ.liveSet, decide_eq_true hj]
        rfl
    · refine tally_congr fun j hj => ⟨?_, rfl⟩
      show (decide (j ∈ c.lsq.ring.slots) && _) = _
      rw [decide_eq_true hj, Bool.true_and]
  · refine tally_congr fun j hj => ⟨?_, rfl⟩
    show (decide (j ∈ c.lsq.ring.slots) && _ && _) = _
    rw [decide_eq_true hj, Bool.true_and]

theorem tally_places (h : c.lsq.Wf) :
    tally c.places c.occupied c.occupant =
      heldBy c.lsq c.iq c.units c.agus c.loadOuts := by
  have houts : tally ((List.range c.loadOuts.length).map .loadOut) c.occupied c.occupant =
      outsHeld c.loadOuts := by
    have hbag : outsHeld c.loadOuts = tally c.loadOuts (·.valid) FuOp.seq := by
      unfold outsHeld
      induction c.loadOuts with
      | nil => rfl
      | cons op outs ih => rw [bag_cons, tally_cons, ih]
    rw [tally_map, hbag, ← tally_range c.loadOuts]
    rfl
  have hiq : tally ((List.range c.iq.robSize).map .iq) c.occupied c.occupant = iqHeld c.iq := by
    rw [tally_map]
    rfl
  rw [places, tally_append, tally_append, tally_append, tally_append, hiq, houts,
    tally_unitsPlaces c .wb c.units fun _ => rfl, tally_unitsPlaces c .agu c.agus fun _ => rfl,
    tally_lsqPlaces h]
  rfl

/-! ## Occupied places are places of the machine -/

theorem mem_unitPlaces {u : UnitRef} {p : Place} (ho : c.occupied p = true)
    (hp : (∃ k, p = .stage u k) ∨ p = .busy u ∨ p = .out u) : p ∈ c.unitPlaces u := by
  rcases hp with ⟨k, rfl⟩ | rfl | rfl
  · obtain ⟨op, hop, -⟩ := @getElem?_of_valid (c.unitAt u).stages _ ho
    refine List.mem_append_left _ (List.mem_map.mpr ⟨k, List.mem_range.mpr ?_, rfl⟩)
    exact (List.getElem?_eq_some_iff.mp hop).1
  · exact List.mem_append_right _ List.mem_cons_self
  · exact List.mem_append_right _ (List.mem_cons_of_mem _ List.mem_cons_self)

/-- A place of a unit that the machine does not have holds nothing. -/
theorem occupied_default {us : List FuUnit} {i : Nat} {P : FuUnit → Bool} (h : P default = false)
    (ho : P (us[i]?.getD default) = true) : i < us.length := by
  by_contra hge
  rw [List.getElem?_eq_none (by omega)] at ho
  change P default = true at ho
  rw [h] at ho
  cases ho

theorem mem_places (hb : BackOk c) {p : Place} (ho : c.occupied p = true) : p ∈ c.places := by
  -- a place in a unit that holds something: the unit is one of those the core has
  have hunit : ∀ u : UnitRef, p ∈ c.unitPlaces u →
      (∃ P : FuUnit → Bool, P default = false ∧ P (c.unitAt u) = true) → p ∈ c.places := by
    rintro u hmem ⟨P, hd, hP⟩
    simp only [places, List.mem_append]
    cases u with
    | wb i =>
        have hi := List.mem_range.mpr (@occupied_default c.units i P hd hP)
        exact Or.inl (Or.inl (Or.inl (Or.inr (List.mem_flatMap.mpr ⟨i, hi, hmem⟩))))
    | agu i =>
        have hi := List.mem_range.mpr (@occupied_default c.agus i P hd hP)
        exact Or.inl (Or.inl (Or.inr (List.mem_flatMap.mpr ⟨i, hi, hmem⟩)))
  have hlsq : p ∈ c.lsqPlaces → p ∈ c.places := fun h => List.mem_append_right _ h
  cases p with
  | iq s =>
      simp only [places, List.mem_append, List.mem_map]
      exact Or.inl (Or.inl (Or.inl (Or.inl ⟨s, List.mem_range.mpr (hb.iq.wf.occ_lt s ho), rfl⟩)))
  | stage u k =>
      refine hunit u (mem_unitPlaces ho (Or.inl ⟨k, rfl⟩))
        ⟨fun u => (u.stages[k]?.getD default).valid, ?_, ho⟩
      show (([({} : FuOp)] : List FuOp)[k]?.getD default).valid = false
      cases k <;> rfl
  | busy u =>
      exact hunit u (mem_unitPlaces ho (Or.inr (Or.inl rfl))) ⟨fun u => u.cur.valid, rfl, ho⟩
  | out u =>
      exact hunit u (mem_unitPlaces ho (Or.inr (Or.inr rfl))) ⟨fun u => u.out.valid, rfl, ho⟩
  | loadOut k =>
      -- an output beyond the last reads as empty, so the index is inside
      obtain ⟨op, hop, -⟩ := @getElem?_of_valid c.loadOuts _ ho
      simp only [places, List.mem_append, List.mem_map]
      exact Or.inl (Or.inr ⟨k, List.mem_range.mpr (List.getElem?_eq_some_iff.mp hop).1, rfl⟩)
  | candidate j =>
      -- the bitmaps of the LSQ only have bits for live entries
      have hj : c.lsq.candidates j = true := ho
      rw [hb.lsq.wf.candidates, LSQ.liveSet, Bool.and_eq_true, decide_eq_true_eq] at hj
      apply hlsq
      simp only [lsqPlaces, List.mem_append, List.mem_map]
      exact Or.inl (Or.inl (Or.inl ⟨j, hj.1, rfl⟩))
  | pending j =>
      have hj : c.lsq.pending j = true := ho
      rw [hb.lsq.wf.pending, LSQ.liveSet, Bool.and_eq_true, decide_eq_true_eq] at hj
      apply hlsq
      simp only [lsqPlaces, List.mem_append, List.mem_map]
      exact Or.inl (Or.inl (Or.inr ⟨j, hj.1, rfl⟩))
  | unreported j =>
      simp only [occupied, Bool.and_eq_true, decide_eq_true_eq] at ho
      apply hlsq
      simp only [lsqPlaces, List.mem_append, List.mem_map]
      exact Or.inl (Or.inr ⟨j, ho.1, rfl⟩)
  | waiting j =>
      simp only [occupied, Bool.and_eq_true, decide_eq_true_eq] at ho
      apply hlsq
      simp only [lsqPlaces, List.mem_append, List.mem_map]
      exact Or.inr ⟨j, ho.1.1, rfl⟩

/-- What a place holds is an unfinished instruction, and each of those is held once. -/
theorem BackOk.holds_iff (hb : BackOk c) (seq : Nat) :
    ((∃ p, c.Holds p seq) ↔ seq ∈ unfinished c.rob) ∧
      ∀ p q, c.Holds p seq → c.Holds q seq → p = q := by
  have htally : tally c.places c.occupied c.occupant = unfinished c.rob :=
    (tally_places hb.lsq.wf).trans hb.held
  refine ⟨⟨?_, ?_⟩, ?_⟩
  · rintro ⟨p, ho, hs⟩
    rw [← htally]
    exact mem_tally.mpr ⟨p, mem_places hb ho, ho, hs⟩
  · intro hmem
    rw [← htally] at hmem
    obtain ⟨p, -, ho, hs⟩ := mem_tally.mp hmem
    exact ⟨p, ho, hs⟩
  · intro p q hp hq
    refine tally_unique ?_ (mem_places hb hp.occupied) (mem_places hb hq.occupied) hp.occupied
      hq.occupied (hp.occupant.trans hq.occupant.symm)
    rw [htally]
    exact unfinished_nodup hb.rob

/-! ## The law -/

/-- At a cycle boundary every live instruction is where it should be. -/
structure InOnePlace (c : OoOCore M) : Prop where
  unfinished : ∀ i ∈ c.rob.slots, (c.rob.e i).isSystem = false → (c.rob.e i).done = false →
    ∃! p, c.Holds p (robSeq c.rob i)
  finished : ∀ i ∈ c.rob.slots, (c.rob.e i).done = true → ∀ p, ¬ c.Holds p (robSeq c.rob i)
  /-- The issue-queue slot of an instruction is its ROB slot. -/
  ownSlot : ∀ i ∈ c.rob.slots, ∀ s, c.Holds (.iq s) (robSeq c.rob i) → s = i
  /-- A resolved load outside the load outputs is in exactly one of three sets. -/
  load : ∀ j ∈ c.lsq.ring.slots, (c.lsq.at' j).isStore = false → (c.lsq.at' j).addrValid = true →
    (c.rob.e (lsqRob c.lsq j)).done = false →
    (∀ k, ¬ c.Holds (.loadOut k) (c.lsq.at' j).seq) →
    ∃! p, p ∈ [Place.candidate j, .pending j, .unreported j] ∧ c.occupied p = true
  /-- A resolved store waits for its data. -/
  store : ∀ j ∈ c.lsq.ring.slots, (c.lsq.at' j).isStore = true → (c.lsq.at' j).addrValid = true →
    (c.rob.e (lsqRob c.lsq j)).done = false → c.occupied (.waiting j) = true
  iqNames : ∀ s, c.iq.occupied s = true →
    (c.iq.e s).robIdx ∈ c.rob.slots ∧ robSeq c.rob (c.iq.e s).robIdx = (c.iq.e s).seq ∧
    ((c.rob.e (c.iq.e s).robIdx).isMem = true → (c.iq.e s).lsqIdx ∈ c.lsq.ring.slots ∧
      (c.lsq.at' (c.iq.e s).lsqIdx).seq = (c.iq.e s).seq)
  opNames : ∀ op ∈ c.inFlightOps, op.robIdx ∈ c.rob.slots ∧ robSeq c.rob op.robIdx = op.seq
  unitNames : ∀ u ∈ c.units, ∀ op ∈ u.ops, (c.rob.e op.robIdx).isMem = false
  aguNames : ∀ u ∈ c.agus, ∀ op ∈ u.ops,
    op.lsqIdx ∈ c.lsq.ring.slots ∧ (c.lsq.at' op.lsqIdx).seq = op.seq
  /-- A load output is past address generation and carries no LSQ index; its load is live. -/
  loadNames : ∀ op ∈ c.loadOuts, op.valid = true →
    ∃ j ∈ c.lsq.ring.slots, lsqRob c.lsq j = op.robIdx ∧ (c.lsq.at' j).seq = op.seq
  lsqNames : ∀ j ∈ c.lsq.ring.slots, lsqRob c.lsq j ∈ c.rob.slots ∧
    robSeq c.rob (lsqRob c.lsq j) = (c.lsq.at' j).seq

/-- The LSQ slot a record names is that of its instruction. -/
theorem LsqNames.slot_eq (hb : BackOk c) {robIdx lsqIdx j : Nat} (h : LsqNames c.lsq robIdx lsqIdx)
    (hj : j ∈ c.lsq.ring.slots) (hr : lsqRob c.lsq j = robIdx) : lsqIdx = j :=
  hb.lsq.rob_inj hb.rob.wf h.live hj (h.robIdx.trans hr.symm)

/-- A memory operation with an address is past the issue queue and the units. -/
theorem BackOk.resolved_place (hb : BackOk c) {j : Nat} (hj : j ∈ c.lsq.ring.slots)
    (ha : (c.lsq.at' j).addrValid = true) {p : Place} (hp : c.Holds p (c.lsq.at' j).seq) :
    (∃ k, p = .loadOut k) ∨ p = .candidate j ∨ p = .pending j ∨ p = .unreported j ∨
      p = .waiting j := by
  obtain ⟨hlive, hmem⟩ := hb.lsq.rob_mem hj
  have hseq := hb.lsq.seq_eq hj
  -- a record with this sequence number names this entry
  have hrob : ∀ {i : Nat}, i ∈ c.rob.slots → robSeq c.rob i = (c.lsq.at' j).seq →
      lsqRob c.lsq j = i := fun hi hs => hb.rob.seq_inj hlive hi (hseq.symm.trans hs.symm)
  have hunresolved : ∀ {robIdx lsqIdx : Nat}, LsqNames c.lsq robIdx lsqIdx →
      lsqRob c.lsq j = robIdx → False := by
    intro robIdx lsqIdx hn hr
    have := hn.unresolved
    rw [hn.slot_eq hb hj hr, ha] at this
    cases this
  have hunit : ∀ u op, op ∈ (c.unitAt u).ops → op.seq = (c.lsq.at' j).seq → False := by
    intro u op hop hs
    cases u with
    | wb i =>
        cases hu : c.units[i]? with
        | none =>
            rw [show c.unitAt (.wb i) = default by rw [unitAt, hu]; rfl] at hop
            cases hop
        | some u =>
            rw [show c.unitAt (.wb i) = u by rw [unitAt, hu]; rfl] at hop
            obtain ⟨hn, hm⟩ := hb.units.names u (List.mem_of_getElem? hu) op hop
            have := hrob hn.live (hn.seq.trans hs)
            rw [this, hm] at hmem
            cases hmem
    | agu i =>
        cases hu : c.agus[i]? with
        | none =>
            rw [show c.unitAt (.agu i) = default by rw [unitAt, hu]; rfl] at hop
            cases hop
        | some u =>
            rw [show c.unitAt (.agu i) = u by rw [unitAt, hu]; rfl] at hop
            obtain ⟨hn, hl⟩ := hb.agus.names u (List.mem_of_getElem? hu) op hop
            exact hunresolved hl (hrob hn.live (hn.seq.trans hs))
  have hlsq : ∀ {k : Nat}, k ∈ c.lsq.ring.slots → (c.lsq.at' k).seq = (c.lsq.at' j).seq → k = j :=
    fun hk hs => hb.lsq.rob_inj hb.rob.wf hk hj
      (hrob (hb.lsq.rob_mem hk).1 ((hb.lsq.seq_eq hk).symm.trans hs)).symm
  have hin := mem_places hb hp.occupied
  obtain ⟨ho, hs⟩ := hp
  cases p with
  | iq s =>
      have hn := hb.iq.names s ho
      have hr := hrob hn.live (hn.seq.symm.trans hs)
      have hm : (c.rob.e s).isMem = true := hr ▸ hmem
      exact (hunresolved (hn.lsq hm) hr).elim
  | stage u k =>
      refine (hunit u _ (List.mem_append_left _ (List.mem_filter.mpr ⟨?_, ho⟩)) hs).elim
      obtain ⟨op, hop, -⟩ := @getElem?_of_valid (c.unitAt u).stages _ ho
      rw [show (c.unitAt u).stages[k]?.getD default = op by rw [hop]; rfl]
      exact List.mem_append_left _ (List.mem_of_getElem? hop)
  | busy u =>
      refine (hunit u _ (List.mem_append_left _ (List.mem_filter.mpr ⟨?_, ho⟩)) hs).elim
      exact List.mem_append_right _ List.mem_cons_self
  | out u =>
      exact (hunit u _ (List.mem_append_right _ (List.mem_filter.mpr ⟨List.mem_cons_self, ho⟩))
        hs).elim
  | loadOut k => exact Or.inl ⟨k, rfl⟩
  | candidate k =>
      have hk : c.lsq.candidates k = true := ho
      rw [hb.lsq.wf.candidates, LSQ.liveSet, Bool.and_eq_true, decide_eq_true_eq] at hk
      exact Or.inr (Or.inl (by rw [hlsq hk.1 hs]))
  | pending k =>
      have hk : c.lsq.pending k = true := ho
      rw [hb.lsq.wf.pending, LSQ.liveSet, Bool.and_eq_true, decide_eq_true_eq] at hk
      exact Or.inr (Or.inr (Or.inl (by rw [hlsq hk.1 hs])))
  | unreported k =>
      simp only [occupied, Bool.and_eq_true, decide_eq_true_eq] at ho
      exact Or.inr (Or.inr (Or.inr (Or.inl (by rw [hlsq ho.1 hs]))))
  | waiting k =>
      simp only [occupied, Bool.and_eq_true, decide_eq_true_eq] at ho
      exact Or.inr (Or.inr (Or.inr (Or.inr (by rw [hlsq ho.1.1 hs]))))

/-- The one place of a store with an address is to wait for its data. -/
theorem BackOk.store_waits (hb : BackOk c) {j : Nat} (hj : j ∈ c.lsq.ring.slots)
    (hst : (c.lsq.at' j).isStore = true) (ha : (c.lsq.at' j).addrValid = true) {p : Place}
    (hp : c.Holds p (c.lsq.at' j).seq) : c.occupied (.waiting j) = true := by
  have ho := hp.occupied
  have hwf := hb.lsq.wf
  rcases hb.resolved_place hj ha hp with ⟨k, rfl⟩ | rfl | rfl | rfl | rfl
  · -- a load output would be for a load
    obtain ⟨op, hop, hv⟩ := @getElem?_of_valid c.loadOuts _ ho
    have hn := hb.loads op (List.mem_of_getElem? hop) hv
    have hs : op.seq = (c.lsq.at' j).seq := by
      have := hp.occupant
      rwa [occupant, hop] at this
    have hr := hb.rob.seq_inj (hb.lsq.rob_mem hj).1 hn.names.live
      ((hb.lsq.seq_eq hj).symm.trans (hs.symm.trans hn.names.seq.symm))
    have hload := hn.load
    have hstore := (hb.lsq.agrees j hj).isStore
    rw [← hr, ← (hb.lsq.agrees j hj).op] at hload
    rw [hst, ← (hb.lsq.agrees j hj).op] at hstore
    cases hop' : (c.lsq.at' j).op <;> rw [hop'] at hload hstore <;> cases hload <;> cases hstore
  · have ho' : c.lsq.candidates j = true := ho
    rw [hwf.candidates, LSQ.liveSet, Bool.and_eq_true] at ho'
    have hc := ho'.2
    change (c.lsq.at' j).isCandidate = true at hc
    simp [LsqEntry.isCandidate, hst] at hc
  · have ho' : c.lsq.pending j = true := ho
    rw [hwf.pending, LSQ.liveSet, Bool.and_eq_true] at ho'
    have hc := ho'.2
    change (c.lsq.at' j).isPending = true at hc
    simp [LsqEntry.isPending, hst] at hc
  · simp only [occupied, LsqEntry.isUnreported, hst, Bool.and_eq_true] at ho
    exact absurd ho.2.1.1 (by simp)
  · exact ho

theorem BackOk.inOnePlace (hb : BackOk c) : InOnePlace c := by
  -- as many places hold a number as it is unfinished: once or not at all
  have hone : ∀ i ∈ c.rob.slots, (c.rob.e i).done = false → ∃! p, c.Holds p (robSeq c.rob i) := by
    intro i hi hd
    obtain ⟨hex, huniq⟩ := hb.holds_iff (robSeq c.rob i)
    obtain ⟨p, hp⟩ := hex.mpr ((hb.rob.mem_unfinished_iff hi).mpr hd)
    exact ⟨p, hp, fun q hq => huniq q p hq hp⟩
  have hlsqOne : ∀ j ∈ c.lsq.ring.slots, (c.rob.e (lsqRob c.lsq j)).done = false →
      ∃! p, c.Holds p (c.lsq.at' j).seq := by
    intro j hj hd
    rw [hb.lsq.seq_eq hj]
    exact hone _ (hb.lsq.rob_mem hj).1 hd
  exact {
    unfinished := fun i hi _ hd => hone i hi hd
    finished := by
      intro i hi hd p hp
      have hmem := (hb.holds_iff (robSeq c.rob i)).1.mp ⟨p, hp⟩
      rw [(hb.rob.mem_unfinished_iff hi), hd] at hmem
      cases hmem
    ownSlot := by
      intro i hi s hp
      have hn := hb.iq.names s hp.occupied
      exact hb.rob.seq_inj hn.live hi (hn.seq.symm.trans hp.occupant)
    load := by
      intro j hj hst ha hd hno
      obtain ⟨p, hp, huniq⟩ := hlsqOne j hj hd
      -- its address is known, so neither the queue nor, by assumption, a unit or output has it
      have hmem : p ∈ [Place.candidate j, .pending j, .unreported j] := by
        rcases hb.resolved_place hj ha hp with ⟨k, rfl⟩ | rfl | rfl | rfl | rfl
        · exact absurd hp (hno k)
        · simp
        · simp
        · simp
        · have ho := hp.occupied
          simp only [occupied, LsqEntry.isWaiting, hst, Bool.and_eq_true] at ho
          exact absurd ho.2.1 (by simp)
      refine ⟨p, ⟨hmem, hp.occupied⟩, fun q hqo => ?_⟩
      obtain ⟨hq, ho⟩ := hqo
      refine huniq q ⟨ho, ?_⟩
      simp only [List.mem_cons, List.not_mem_nil, or_false] at hq
      rcases hq with rfl | rfl | rfl <;> rfl
    store := by
      intro j hj hst ha hd
      obtain ⟨p, hp, -⟩ := hlsqOne j hj hd
      exact hb.store_waits hj hst ha hp
    iqNames := by
      intro s ho
      have hn := hb.iq.names s ho
      rw [hn.robIdx]
      refine ⟨hn.live, hn.seq.symm, fun hm => ?_⟩
      have hl := hn.lsq hm
      exact ⟨hl.live, by rw [hb.lsq.seq_eq hl.live, hl.robIdx, hn.seq]⟩
    opNames := fun op hop => ⟨(hb.inFlight_names hop).live, (hb.inFlight_names hop).seq⟩
    unitNames := fun u hu op hop => (hb.units.names u hu op hop).2
    aguNames := by
      intro u hu op hop
      obtain ⟨hn, hl⟩ := hb.agus.names u hu op hop
      exact ⟨hl.live, by rw [hb.lsq.seq_eq hl.live, hl.robIdx, hn.seq]⟩
    loadNames := by
      intro op hop hv
      have hn := hb.loads op hop hv
      obtain ⟨j, hj, hr, -⟩ := hn.lsq
      exact ⟨j, hj, hr, by rw [hb.lsq.seq_eq hj, hr, hn.names.seq]⟩
    lsqNames := fun j hj => ⟨(hb.lsq.rob_mem hj).1, (hb.lsq.seq_eq hj).symm⟩ }

section Reach

variable [MemPorts Nat M]

/-- No instruction is lost or duplicated in the back end: at every cycle boundary of every run each
unfinished one is in exactly one place, and each finished one in none. The places are the issue
queue, the units, the load/store queue and the output slots. -/
theorem in_one_place (hcfg : cfg.Accepted) (frames : Bool) (inputs : Nat → Word)
    (histLen : Nat → Nat) (msys : M) :
    ∀ c, Reach (OoOCore.init cfg frames inputs histLen msys) .boundary c → InOnePlace c :=
  fun _ hr => (hr.ok hcfg (init_coreOk frames inputs histLen msys hcfg)).1.back.inOnePlace

end Reach

/-- After fifteen cycles seven instructions are unfinished: one divides, two wait in the issue queue,
two loads are in flight, and two results wait to be written back. -/
theorem in_one_place_busy : ∃ c, Reach busyCore .boundary c ∧
    (c.places.filter c.occupied).map (fun p => (p, c.occupant p)) =
      [(.iq 2, 2), (.iq 3, 3), (.out (.wb 0), 7), (.out (.wb 2), 6), (.busy (.wb 4), 1),
        (.pending 1, 4), (.pending 2, 5)] ∧ InOnePlace c := by
  obtain ⟨c, hr, hp⟩ := Reach.eval busyCore 120 .boundary
    (p := fun c => decide ((c.places.filter c.occupied).map (fun p => (p, c.occupant p)) =
      [(.iq 2, 2), (.iq 3, 3), (.out (.wb 0), 7), (.out (.wb 2), 6), (.busy (.wb 4), 1),
        (.pending 1, 4), (.pending 2, 5)])) (by decide +kernel)
  exact ⟨c, hr, of_decide_eq_true hp, in_one_place busyConfig_accepted false (fun _ => 0) (fun _ => 0)
    (MemorySystem.init busyConfig fun a => wordByte (busyProgram (a / 4)) (a % 4)) c hr⟩

end RvO3
