import RvO3.Core.History

/-!
# Recovery is exact

`RecoverCall` are the states in which a run calls `recover`: a mispredicting branch being
written back, or a replaying load found by a violation scan. `RecoveryExact` says what
`recover(seq)` must do there, structure by structure, and `recovery_exact` that it does.
-/

set_option autoImplicit false

namespace RvO3

open OoOCore

variable {M : Type}

/-! ## What recovery must do -/

/-- A squash empties an op slot that holds a younger op and leaves the others. -/
def OpCut (seq : Nat) (op op' : FuOp) : Prop :=
  (op.valid = true ∧ seq < op.seq → op'.valid = false) ∧
    (¬ (op.valid = true ∧ seq < op.seq) → op' = op)

/-- A unit with the ops younger than `seq` taken out, and every other where it was. -/
structure UnitCut (seq : Nat) (u u' : FuUnit) : Prop where
  stages : List.Forall₂ (OpCut seq) u.stages u'.stages
  cur : OpCut seq u.cur u'.cur
  out : OpCut seq u.out u'.out
  inputSlot : u'.inputSlot = u.inputSlot
  remaining : ¬ (u.cur.valid = true ∧ seq < u.cur.seq) → u'.remaining = u.remaining

/-- `c'` is `c` with everything younger than `seq` gone. -/
structure RecoveryExact (c : OoOCore M) (seq : Nat) (c' : OoOCore M) : Prop where
  /-- The map is the one the oldest squashed instruction was dispatched in. -/
  rmap : ∀ i ∈ c.rob.slots, seq < robSeq c.rob i →
    (∀ j ∈ c.rob.slots, seq < robSeq c.rob j → robSeq c.rob i ≤ robSeq c.rob j) →
    .dispatch (robSeq c.rob i) (c.rob.e i).ins c'.rmap ∈ c.log ∧
      ∀ ins m, .dispatch (robSeq c.rob i) ins m ∈ c.log → m = c'.rmap
  rmap_same : (∀ i ∈ c.rob.slots, robSeq c.rob i ≤ seq) → c'.rmap = c.rmap
  rob_slots : c'.rob.slots = c.rob.slots.filter fun i => decide (robSeq c.rob i ≤ seq)
  rob_entries : c'.rob.e = c.rob.e
  lsq_slots : c'.lsq.ring.slots = c.lsq.ring.slots.filter fun j => decide ((c.lsq.at' j).seq ≤ seq)
  lsq_entries : c'.lsq.at' = c.lsq.at'
  iq : ∀ s, IssueQueue.Flushed seq c.iq c'.iq s
  units : List.Forall₂ (UnitCut seq) c.units c'.units
  agus : List.Forall₂ (UnitCut seq) c.agus c'.agus
  loadOuts : List.Forall₂ (OpCut seq) c.loadOuts c'.loadOuts
  wbReady : c'.wbReady = c.wbReady.filter fun s => decide ((c.outAt s).seq ≤ seq)
  fetchQ : c'.fetchQ.entries = []
  fOutstanding : c'.fOutstanding = c.fOutstanding
  fStale : c.fOutstanding = true → c'.fStale = true

/-! ## It does -/

theorem opCut_killYounger (seq : Nat) (op : FuOp) : OpCut seq op (op.killYounger seq) := by
  unfold FuOp.killYounger
  refine ⟨fun h => ?_, fun h => ?_⟩
  · rw [if_pos h]
    rfl
  · rw [if_neg h]

theorem unitCut_flushYounger (seq : Nat) (u : FuUnit) : UnitCut seq u (u.flushYounger seq) := by
  refine ⟨?_, opCut_killYounger seq _, opCut_killYounger seq _, rfl, fun h => if_neg h⟩
  show List.Forall₂ (OpCut seq) u.stages (u.stages.map (FuOp.killYounger seq))
  rw [List.forall₂_map_right_iff]
  exact List.forall₂_same.mpr fun op _ => opCut_killYounger seq op

variable {c : OoOCore M} {seq : Nat}

/-- After recovery an output slot that held a result holds it exactly if it is old enough. -/
theorem outAt_recover (h : BackOk c) {s : OutSlot} (hs : s ∈ c.wbReady) :
    ((c.recover seq).outAt s).valid = decide ((c.outAt s).seq ≤ seq) := by
  have hspec := recover_spec h seq
  have hv := (h.waiting hs).valid
  have hkill : (c.recover seq).outAt s = (c.outAt s).killYounger seq := by
    cases s with
    | unit i =>
        show ((c.recover seq).units[i]?.getD default).out = _
        obtain ⟨u, hu, -⟩ := getElem?_of_out_valid ((h.ready.mem_unit i).mp hs)
        rw [hspec.units, List.getElem?_map]
        show _ = FuOp.killYounger seq (c.units[i]?.getD default).out
        rw [hu]
        rfl
    | load j =>
        show (c.recover seq).loadOuts[j]?.getD {} = _
        obtain ⟨op, hop, -⟩ := getElem?_of_valid ((h.ready.mem_load j).mp hs)
        rw [hspec.loadOuts, List.getElem?_map]
        show _ = FuOp.killYounger seq (c.loadOuts[j]?.getD {})
        rw [hop]
        rfl
  rw [hkill, FuOp.killYounger]
  by_cases hlt : (c.outAt s).seq > seq
  · rw [if_pos ⟨hv, hlt⟩, decide_eq_false (by omega)]
    rfl
  · rw [if_neg fun hh => hlt hh.2, decide_eq_true (by omega)]
    exact hv

theorem HistoryOk.recoveryExact (h : HistoryOk c) (hb : BackOk c) (seq : Nat) :
    RecoveryExact c seq (c.recover seq) := by
  have hs := recover_spec hb seq
  -- the oldest squashed entry: everything from it on is what is undone
  have hmap : ∀ i ∈ c.rob.slots, seq < robSeq c.rob i →
      (∀ j ∈ c.rob.slots, seq < robSeq c.rob j → robSeq c.rob i ≤ robSeq c.rob j) →
      (c.recover seq).rmap = c.mapAt (robSeq c.rob i) := by
    intro i hi hlt hmin
    rw [rmap_cut hs, OoOCore.mapAt, OoOCore.mapAt]
    congr 1
    unfold youngFrom
    congr 1
    apply List.filter_congr
    intro j hj
    rw [decide_eq_decide]
    exact ⟨fun hle => hmin j hj hle, fun hle => Nat.lt_of_lt_of_le hlt hle⟩
  exact {
    rmap := by
      intro i hi hlt hmin
      rw [hmap i hi hlt hmin]
      -- the map that it was dispatched under is the one the log says
      refine ⟨h.dispatched i hi, fun ins m hm => ?_⟩
      exact (h.dispatch_once _ _ _ _ _ hm (h.dispatched i hi)).2
    rmap_same := by
      intro hall
      -- nothing is younger, so nothing is undone
      have hnil : squashed c seq = [] := by
        rw [squashed, List.filter_eq_nil_iff.mpr, List.map_nil]
        intro i hi
        have := hall i hi
        simp only [decide_eq_true_eq]
        omega
      rw [hs.rmap, hnil]
      rfl
    rob_slots := hs.rob.slots
    rob_entries := hs.rob.e
    lsq_slots := hs.lsq.slots
    lsq_entries := hs.lsq.lsqAt
    iq := hs.iq
    units := by
      rw [hs.units, List.forall₂_map_right_iff]
      exact List.forall₂_same.mpr fun u _ => unitCut_flushYounger seq u
    agus := by
      rw [hs.agus, List.forall₂_map_right_iff]
      exact List.forall₂_same.mpr fun u _ => unitCut_flushYounger seq u
    loadOuts := by
      rw [hs.loadOuts, List.forall₂_map_right_iff]
      exact List.forall₂_same.mpr fun op _ => opCut_killYounger seq op
    wbReady := by
      rw [hs.wbReady]
      exact List.filter_congr fun s hmem => outAt_recover hb hmem
    fetchQ := by
      rw [hs.fetchQ]
      rfl
    fOutstanding := (congrArg OoOCore.fOutstanding hs.frame :)
    fStale := by
      intro ho
      rw [hs.fStale, ho]
      rfl }

theorem init_historyOk {cfg : SimConfig} (frames : Bool) (inputs : Nat → Word)
    (histLen : Nat → Nat) (msys : M) : HistoryOk (OoOCore.init cfg frames inputs histLen msys) := by
  have hrob := @init_rob_slots _ cfg frames inputs histLen msys
  have hlog : (OoOCore.init cfg frames inputs histLen msys).log = [] := rfl
  refine ⟨?_, ?_, ?_, ?_, ?_⟩
  · intro i hi
    rw [hrob] at hi
    cases hi
  · intro seq ins m hm
    rw [hlog] at hm
    cases hm
  · intro seq ins m ins' m' hm
    rw [hlog] at hm
    cases hm
  · intro i hi
    rw [hrob] at hi
    cases hi
  · intro l₁ ev l₂ q hl
    rw [hlog] at hl
    cases l₁ <;> cases hl

/-! ## The calls -/

variable [MemPorts Nat M]

/-- `recover(seq)` is called in state `d` of a run from `c₀`: in the middle of the writeback
stage, after `k` results, or in the middle of address generation, after `k` outputs. -/
inductive RecoverCall (c₀ : OoOCore M) : OoOCore M → Nat → Prop
  | mispredict {c d : OoOCore M} {k : Nat} {slot : OutSlot} :
      Reach c₀ .committed c → c.halted = false → k < min c.cfg.wbPorts c.wbReady.length →
      d = writebackLoop k c → d.wbReady[d.oldestReady]? = some slot →
      (resolve (d.rob.e (d.outAt slot).robIdx) (d.outAt slot)).isBranch = true →
      (resolve (d.rob.e (d.outAt slot).robIdx) (d.outAt slot)).mispredicted = true →
      RecoverCall c₀
        ((d.complete d.oldestReady (d.outAt slot)).mispredictCall slot
          (resolve (d.rob.e (d.outAt slot).robIdx) (d.outAt slot)))
        (d.outAt slot).seq
  | replay {c d : OoOCore M} {k i slot : Nat} {store : LsqEntry} :
      Reach c₀ .wrote c → d = aguDrainLoop k c → d.readyAgu = some i →
      store = (d.fillOne i).lsq.at' (d.agus[i]?.getD default).out.lsqIdx →
      store.isStore = true → d.cfg.memOrder = .Speculative →
      ((d.fillOne i).rob.e (d.agus[i]?.getD default).out.robIdx).fault = 0 →
      (d.fillOne i).violationVictim store = some slot →
      RecoverCall c₀ ((d.fillOne i).replayCall slot) (((d.fillOne i).lsq.at' slot).seq - 1)

theorem Actions.historyOk {cfg : SimConfig} (hcfg : cfg.Accepted) {c c' : OoOCore M}
    (ha : Actions c c') (hk : CoreOk cfg c) (h : HistoryOk c) : CoreOk cfg c' ∧ HistoryOk c' :=
  ha.preserve (I := fun c => CoreOk cfg c ∧ HistoryOk c)
    (fun hact hi => ⟨hact.coreOk hcfg hi.1, hact.historyOk hcfg hi.1 hi.2⟩) ⟨hk, h⟩

theorem RecoverCall.ok {cfg : SimConfig} (hcfg : cfg.Accepted) {c₀ d : OoOCore M}
    (hk : CoreOk cfg c₀) (hh : HistoryOk c₀) (h : RecoverCall c₀ d seq) :
    BackOk d ∧ HistoryOk d := by
  cases h with
  | @mispredict c d k slot hr _ hlt hd hs _ _ =>
      have hrk := hr.ok hcfg hk
      obtain ⟨ha, -⟩ := writebackLoop_actions k hrk.1 (hrk.2 (Or.inl rfl)) (by omega)
      obtain ⟨hk', hh'⟩ := Actions.historyOk hcfg ((hr.actions hcfg hk).trans ha) hk hh
      rw [← hd] at hk' hh'
      have hmem := List.mem_of_getElem? hs
      exact ⟨(hk'.back.finishResult hs).mispredictCall _,
        (hh'.complete (hk'.back.waiting hmem).names _).mispredictCall _ _⟩
  | @replay c d k i slot store hr hd hi _ _ _ _ _ =>
      have hrk := hr.ok hcfg hk
      obtain ⟨ha, -⟩ := aguDrainLoop_actions k hrk.1 (hrk.2 (Or.inr rfl))
      obtain ⟨hk', hh'⟩ := Actions.historyOk hcfg ((hr.actions hcfg hk).trans ha) hk hh
      rw [← hd] at hk' hh'
      have hb := hk'.back.fillOne hi
      refine ⟨{ hb with }, (hh'.fillOne hk'.back hi).shrink ?_ rfl⟩
      exact Quiet.shrunk ⟨rfl, rfl, SameStatic.refl _, rfl, rfl⟩ rfl

/-- Every call of `recover` cuts every structure at `seq` and rebuilds the map of that program
point, and no output of a squashed instruction is ever written afterwards. The calls are those of a
mispredicted branch and of a load that a store replays. -/
theorem recovery_exact {cfg : SimConfig} (hcfg : cfg.Accepted) (frames : Bool)
    (inputs : Nat → Word) (histLen : Nat → Nat) (msys : M) :
    (∀ d seq, RecoverCall (OoOCore.init cfg frames inputs histLen msys) d seq →
      RecoveryExact d seq (d.recover seq)) ∧
    ∀ ph c, Reach (OoOCore.init cfg frames inputs histLen msys) ph c →
      ∀ l₁ ev l₂ q, c.log = l₁ ++ ev :: l₂ → ev.writes = some q → ¬ Killed l₁ q := by
  have hk := init_coreOk frames inputs histLen msys hcfg
  have hh := @init_historyOk _ cfg frames inputs histLen msys
  constructor
  · intro d seq hcall
    obtain ⟨h1, h2⟩ := hcall.ok hcfg hk hh
    exact h2.recoveryExact h1 seq
  · intro ph c hr
    exact (Actions.historyOk hcfg (hr.actions hcfg hk) hk hh).2.clean

/-- In the sixteenth cycle the branch recovers, with one younger instruction in flight; in the
twentieth the store's address arrives and the load of its word, which is done, replays with what is
younger. -/
theorem recovery_exact_busy :
    (∃ d, RecoverCall busyCore d 6 ∧ d.rob.entries.map RobEntry.seq = [1, 2, 3, 4, 5, 6, 7] ∧
      RecoveryExact d 6 (d.recover 6)) ∧
    ∃ d, RecoverCall busyCore d 3 ∧ d.rob.entries.map RobEntry.seq = [2, 3, 4, 5, 6] ∧
      RecoveryExact d 3 (d.recover 3) := by
  have hexact := (recovery_exact busyConfig_accepted false (fun _ => 0) (fun _ => 0)
    (MemorySystem.init busyConfig fun a => wordByte (busyProgram (a / 4)) (a % 4))).1
  constructor
  · obtain ⟨c, hr, hp⟩ := Reach.eval busyCore 121 .committed
      (p := fun c => decide (c.halted = false ∧ 0 < min c.cfg.wbPorts c.wbReady.length ∧
        c.wbReady[c.oldestReady]? = some (.unit 2) ∧
        (resolve (c.rob.e (c.outAt (.unit 2)).robIdx) (c.outAt (.unit 2))).isBranch = true ∧
        (resolve (c.rob.e (c.outAt (.unit 2)).robIdx) (c.outAt (.unit 2))).mispredicted = true ∧
        (c.outAt (.unit 2)).seq = 6 ∧
        ((c.complete c.oldestReady (c.outAt (.unit 2))).mispredictCall (.unit 2)
          (resolve (c.rob.e (c.outAt (.unit 2)).robIdx) (c.outAt (.unit 2)))).rob.entries.map RobEntry.seq =
          [1, 2, 3, 4, 5, 6, 7])) (by decide +kernel)
    obtain ⟨hrun, hroom, hslot, hbr, hmis, hseq, hrob⟩ := of_decide_eq_true hp
    have hcall := RecoverCall.mispredict hr hrun hroom rfl hslot hbr hmis
    rw [writebackLoop, hseq] at hcall
    exact ⟨_, hcall, hrob, hexact _ _ hcall⟩
  · obtain ⟨c, hr, hp⟩ := Reach.eval busyCore 154 .wrote
      (p := fun c => decide (c.readyAgu = some 0 ∧
        ((c.fillOne 0).lsq.at' (c.agus[0]?.getD default).out.lsqIdx).isStore = true ∧
        c.cfg.memOrder = .Speculative ∧
        ((c.fillOne 0).rob.e (c.agus[0]?.getD default).out.robIdx).fault = 0 ∧
        (c.fillOne 0).violationVictim ((c.fillOne 0).lsq.at' (c.agus[0]?.getD default).out.lsqIdx) =
          some 1 ∧
        ((c.fillOne 0).lsq.at' 1).seq = 4 ∧
        ((c.fillOne 0).replayCall 1).rob.entries.map RobEntry.seq = [2, 3, 4, 5, 6]))
      (by decide +kernel)
    obtain ⟨hagu, hst, hmode, hfault, hvictim, hseq, hrob⟩ := of_decide_eq_true hp
    have hcall := RecoverCall.replay (k := 0) hr rfl hagu rfl hst hmode hfault hvictim
    rw [aguDrainLoop, hseq] at hcall
    exact ⟨_, hcall, hrob, hexact _ _ hcall⟩

end RvO3
