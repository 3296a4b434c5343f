import RvO3.Core.Conservation

/-!
# Operand dataflow

Every issue of a run, on the right path or a wrong one, reads for each source the value
that the program order asks for (`srcVal`), every captured store datum is that value too,
and the waiting bits of the issue queue are exact between any two steps.
-/

set_option autoImplicit false

namespace RvO3

open OoOCore

variable {M : Type} {cfg : SimConfig} {c c' : OoOCore M}

/-! ## Sources, waiting bits and store data -/

/-- Operands `a` and `b` are right for the issue of instruction `seq` in state `d`. -/
structure OperandsRight (d : OoOCore M) (seq : Nat) (a b : Word) : Prop where
  intro ::
  exists_entry : ∃ i ∈ d.rob.slots, robSeq d.rob i = seq ∧
    (usesRs1 (d.rob.e i).ins.op = true → d.srcVal seq (d.rob.e i).ins.rs1 = some a) ∧
    (usesRs2 (d.rob.e i).ins.op = true → isStore (d.rob.e i).ins.op = false →
      d.srcVal seq (d.rob.e i).ins.rs2 = some b)

/-- Each gating source of a waiting entry is marked blocked exactly while the register it
is renamed to is not ready, and nothing else is marked. -/
structure WaitingExact (c : OoOCore M) : Prop where
  blocked1 : ∀ s, c.iq.occupied s = true → (c.iq.blocked1 s = true ↔
    usesRs1 (c.rob.e s).ins.op = true ∧
      c.prf.ready (c.mapAt (robSeq c.rob s) (c.rob.e s).ins.rs1) = false)
  blocked2 : ∀ s, c.iq.occupied s = true → (c.iq.blocked2 s = true ↔
    usesRs2 (c.rob.e s).ins.op = true ∧ isStore (c.rob.e s).ins.op = false ∧
      c.prf.ready (c.mapAt (robSeq c.rob s) (c.rob.e s).ins.rs2) = false)
  free : ∀ s, c.iq.occupied s = false → c.iq.blocked1 s = false ∧ c.iq.blocked2 s = false
  /-- The operand an entry will read is that of its renamed source. -/
  renamed : ∀ s, c.iq.occupied s = true →
    (c.iq.e s).ps1 = c.mapAt (robSeq c.rob s) (c.rob.e s).ins.rs1 ∧
    (c.iq.e s).ps2 = c.mapAt (robSeq c.rob s) (c.rob.e s).ins.rs2

/-- The data of every store that has it is what its `rs2` should read as. -/
def CapturedRight (c : OoOCore M) : Prop :=
  ∀ j ∈ c.lsq.ring.slots, (c.lsq.at' j).isStore = true → (c.lsq.at' j).dataReady = true →
    c.srcVal (c.lsq.at' j).seq (c.rob.e (lsqRob c.lsq j)).ins.rs2 = some (c.lsq.at' j).data

theorem ValuesOk.waitingExact (h : ValuesOk c) (hb : BackOk c) : WaitingExact c := by
  refine ⟨?_, ?_, ?_, fun s ho => ⟨h.iq.ps1 s ho, h.iq.ps2 s ho⟩⟩
  · intro s ho
    rw [h.iq.blocked1 s ho, h.iq.ps1 s ho, Bool.and_eq_true, Bool.not_eq_true']
  · intro s ho
    rw [h.iq.blocked2 s ho, h.iq.ps2 s ho, Bool.and_eq_true, Bool.and_eq_true, Bool.not_eq_true',
      Bool.not_eq_true', and_assoc]
  · intro s ho
    refine ⟨?_, ?_⟩
    · rw [← Bool.not_eq_true]
      intro hbl
      rw [hb.iq.wf.blocked1_occ s hbl] at ho
      cases ho
    · rw [← Bool.not_eq_true]
      intro hbl
      rw [hb.iq.wf.blocked2_occ s hbl] at ho
      cases ho

theorem ValuesOk.capturedRight (h : ValuesOk c) (hr : RenameOk c) (hb : BackOk c) :
    CapturedRight c := by
  intro j hj hst hd
  have hdata := h.stores j hj hst
  obtain ⟨hready, hval⟩ := hdata.captured hd
  rw [hdata.dataPreg] at hready hval
  rw [h.srcVal_eq hr hb hready, hval]

theorem ValuesOk.operandsRight (h : ValuesOk c) (hr : RenameOk c) (hb : BackOk c) {slot : Nat}
    (hready : c.iq.ready slot = true) :
    OperandsRight c (c.iq.e slot).seq (c.prf.val (c.iq.e slot).ps1) (c.prf.val (c.iq.e slot).ps2) := by
  obtain ⟨ho, h1, h2⟩ := (hb.iq.wf.ready_iff slot).mp hready
  have hn := hb.iq.names slot ho
  have hw := h.waitingExact hb
  obtain ⟨hp1, hp2⟩ := hw.renamed slot ho
  refine ⟨slot, hn.live, hn.seq.symm, fun hu => ?_, fun hu hs => ?_⟩
  · have hrdy : c.prf.ready (c.mapAt (robSeq c.rob slot) (c.rob.e slot).ins.rs1) = true := by
      rw [← Bool.not_eq_false]
      intro hf
      rw [(hw.blocked1 slot ho).mpr ⟨hu, hf⟩] at h1
      cases h1
    rw [hn.seq, h.srcVal_eq hr hb hrdy, hp1]
  · have hrdy : c.prf.ready (c.mapAt (robSeq c.rob slot) (c.rob.e slot).ins.rs2) = true := by
      rw [← Bool.not_eq_false]
      intro hf
      rw [(hw.blocked2 slot ho).mpr ⟨hu, hs, hf⟩] at h2
      cases h2
    rw [hn.seq, h.srcVal_eq hr hb hrdy, hp2]

/-! ## The issues of a run -/

/-- Only the issue of an instruction records one. -/
def Silent (evs : List Event) : Prop := ∀ seq a b, Event.issue seq a b ∉ evs

theorem silent_nil : Silent [] := fun _ _ _ h => by cases h

theorem silent_singleton {ev : Event} (h : ∀ seq a b, ev ≠ .issue seq a b) : Silent [ev] :=
  fun seq a b hm => h seq a b (List.mem_singleton.mp hm).symm

theorem Silent.append {l l' : List Event} (h : Silent l) (h' : Silent l') : Silent (l ++ l') :=
  fun seq a b hm => (List.mem_append.mp hm).elim (h seq a b) (h' seq a b)

/-- What a step that issues nothing adds to the history. -/
def Extends (c c' : OoOCore M) : Prop := ∃ evs, c'.log = c.log ++ evs ∧ Silent evs

theorem Extends.of_eq (h : c'.log = c.log) : Extends c c' :=
  ⟨[], by rw [h, List.append_nil], silent_nil⟩

theorem Extends.trans {c'' : OoOCore M} (h : Extends c c') (h' : Extends c' c'') :
    Extends c c'' := by
  obtain ⟨l, hl, hs⟩ := h
  obtain ⟨l', hl', hs'⟩ := h'
  exact ⟨l ++ l', by rw [hl', hl, List.append_assoc], hs.append hs'⟩

theorem extends_recover (hb : BackOk c) (seq : Nat) : Extends c (c.recover seq) :=
  ⟨[.recover seq], (recover_spec hb seq).log, silent_singleton nofun⟩

theorem extends_violationScan (hb : BackOk c) (store : LsqEntry) :
    Extends c (c.violationScan store) := by
  cases hv : c.violationVictim store with
  | none =>
      rw [violationScan_none hv]
      exact .of_eq rfl
  | some slot =>
      rw [violationScan_eq hv]
      have hb' : BackOk (c.replayCall slot) := { hb with }
      exact extends_recover hb' _

theorem extends_writebackOne (hb : BackOk c) (hne : c.wbReady ≠ []) :
    Extends c c.writebackOne.1 := by
  obtain ⟨slot, hs, hcase⟩ := writebackOne_cases hne
  have hdone : Extends c (c.complete c.oldestReady (c.outAt slot)) :=
    ⟨_, rfl, silent_singleton nofun⟩
  rcases hcase with ⟨heq, -⟩ | ⟨heq, -⟩
  · rw [heq]
    refine hdone.trans (.of_eq ?_)
    cases slot <;> rfl
  · rw [heq, mispredict_eq]
    have hcall := (hb.finishResult hs).mispredictCall
      (resolve (c.rob.e (c.outAt slot).robIdx) (c.outAt slot))
    refine (hdone.trans (.of_eq ?_)).trans (extends_recover hcall (c.outAt slot).seq)
    cases slot <;> rfl

section Actions

variable [MemPorts Nat M]

theorem Action.extends (ha : Action c c') (hk : CoreOk cfg c) :
    (∃ slot u, c.iq.ready slot = true ∧ c' = c.issueTo slot u) ∨ Extends c c' := by
  have hb := hk.back
  cases ha.flow with
  -- a commit logs itself, and nothing that an operand is read from
  | commit hne _ hc =>
      right
      rcases commitOne_cases hc with ⟨rfl, -⟩ | ⟨rec, hs, -⟩ | ⟨hs, -⟩
      · exact .of_eq rfl
      · obtain ⟨ret, prf, pos, hal, ex, rfl, -⟩ := hs.frame
        exact ⟨_, rfl, silent_singleton nofun⟩
      · rw [hs.frame]
        exact ⟨_, rfl, silent_singleton nofun⟩
  | writeback hne => exact Or.inr (extends_writebackOne hb hne)
  | @drain i hi =>
      have h1 : Extends c (c.fillOne i) := ⟨_, rfl, silent_singleton nofun⟩
      right
      unfold OoOCore.aguDrainOne
      dsimp only
      split
      · exact h1.trans (extends_violationScan (hb.fillOne hi) _)
      · exact h1
  -- the one action that reads operands
  | @issue slot u hr _ _ => exact Or.inl ⟨slot, u, hr, rfl⟩
  | @dispatch first _ =>
      right
      rcases dispatchOne_cases c first with heq | ⟨-, heq⟩ | ⟨-, heq⟩
      · rw [heq]
        exact .of_eq rfl
      · rw [heq]
        exact ⟨_, rfl, silent_singleton nofun⟩
      · rw [heq, dispatchOp_eq]
        -- a dispatch logs the map it read, and the register it renamed if there is one
        refine ⟨_, List.append_assoc _ _ _, (silent_singleton fun _ _ _ h => by cases h).append ?_⟩
        split
        · exact silent_singleton fun _ _ _ h => by cases h
        · exact silent_nil
  | tickUnits => exact Or.inr (.of_eq rfl)
  | aside h =>
      right
      rcases h.log with hl | ⟨seq, v, hl⟩
      · exact .of_eq hl
      · exact ⟨_, hl, silent_singleton nofun⟩

/-- An event of the longer history is new or was there before. -/
theorem append_eq_split {α : Type} {l evs l₁ l₂ : List α} {x : α} (h : l ++ evs = l₁ ++ x :: l₂) :
    x ∈ evs ∨ ∃ l₃, l = l₁ ++ x :: l₃ := by
  rcases List.append_eq_append_iff.mp h with ⟨as, h1, h2⟩ | ⟨bs, h1, h2⟩
  · exact Or.inl (h2 ▸ List.mem_append_right _ List.mem_cons_self)
  · cases bs with
    | nil => exact Or.inl (by rw [List.nil_append] at h2; rw [← h2]; exact List.mem_cons_self)
    | cons b bs =>
        rw [List.cons_append, List.cons.injEq] at h2
        exact Or.inr ⟨bs, by rw [h1, h2.1]⟩

/-- Every issue in the history of a run took place in a state of the run, with the right
operands. -/
def IssuesRight (c₀ c : OoOCore M) : Prop :=
  ∀ l₁ seq a b l₂, c.log = l₁ ++ .issue seq a b :: l₂ →
    ∃ d, Actions c₀ d ∧ Actions d c ∧ d.log = l₁ ∧ OperandsRight d seq a b

theorem IssuesRight.step {c₀ : OoOCore M} (h : IssuesRight c₀ c) (h₀ : Actions c₀ c)
    (ha : Action c c') (hk : CoreOk cfg c) (hv : ValuesOk c) : IssuesRight c₀ c' := by
  intro l₁ seq a b l₂ hl
  rcases ha.extends hk with ⟨slot, u, hr, rfl⟩ | ⟨evs, hevs, hsilent⟩
  · have hlog : (c.issueTo slot u).log = c.log ++ [.issue (c.iq.e slot).seq
        (c.prf.val (c.iq.e slot).ps1) (c.prf.val (c.iq.e slot).ps2)] := by
      cases u <;> rfl
    rw [hlog] at hl
    rcases append_singleton_eq_split hl with ⟨hl₁, hev, -⟩ | ⟨l₃, -, hl₁⟩
    · injection hev with h1 h2 h3
      subst h1 h2 h3
      exact ⟨c, h₀, .single ha, hl₁.symm, hv.operandsRight hk.rename hk.back hr⟩
    · obtain ⟨d, hd, hdc, hdl, hop⟩ := h l₁ seq a b l₃ hl₁
      exact ⟨d, hd, hdc.tail ha, hdl, hop⟩
  · rw [hevs] at hl
    rcases append_eq_split hl with hmem | ⟨l₃, hl₁⟩
    · exact absurd hmem (hsilent seq a b)
    · obtain ⟨d, hd, hdc, hdl, hop⟩ := h l₁ seq a b l₃ hl₁
      exact ⟨d, hd, hdc.tail ha, hdl, hop⟩

/-! ## Every run -/

/-- What every state of a run says about operands. -/
structure DataflowRight (c₀ c : OoOCore M) : Prop where
  issues : IssuesRight c₀ c
  captured : CapturedRight c
  waiting : WaitingExact c

/-- Whatever an instruction of a run reads at issue, or a store captures, is the value the program
order asks for, and no wakeup is lost: between stages, and between any two steps. The value is that
of the youngest older instruction that writes the register, or the committed one. -/
theorem operand_dataflow (hcfg : cfg.Accepted) (frames : Bool) (inputs : Nat → Word)
    (histLen : Nat → Nat) (msys : M) :
    (∀ c, Actions (OoOCore.init cfg frames inputs histLen msys) c →
        DataflowRight (OoOCore.init cfg frames inputs histLen msys) c) ∧
      ∀ ph c, Reach (OoOCore.init cfg frames inputs histLen msys) ph c →
        DataflowRight (OoOCore.init cfg frames inputs histLen msys) c := by
  have hk₀ := init_coreOk frames inputs histLen msys hcfg
  have hv₀ := init_valuesOk hcfg frames inputs histLen msys
  generalize hc₀ : OoOCore.init cfg frames inputs histLen msys = c₀ at hk₀ hv₀ ⊢
  have hlog : c₀.log = [] := by
    rw [← hc₀]
    rfl
  have hall : ∀ c, Actions c₀ c → DataflowRight c₀ c := by
    intro c ha
    have hinv : (CoreOk cfg c ∧ ValuesOk c) ∧ IssuesRight c₀ c := by
      induction ha with
      | refl =>
          refine ⟨⟨hk₀, hv₀⟩, fun l₁ seq a b l₂ hl => ?_⟩
          rw [hlog] at hl
          cases l₁ <;> cases hl
      | @tail d e hd hact ih =>
          obtain ⟨⟨hk, hv⟩, hi⟩ := ih
          exact ⟨⟨hact.coreOk hcfg hk, hact.valuesOk hcfg hk hv⟩, hi.step hd hact hk hv⟩
    obtain ⟨⟨hk, hv⟩, hi⟩ := hinv
    exact ⟨hi, hv.capturedRight hk.rename hk.back, hv.waitingExact hk.back⟩
  exact ⟨hall, fun ph c hr => hall c (hr.actions hcfg hk₀)⟩

end Actions

/-- In the first fifteen cycles the first quotient and the branch have issued with the five that the
first instruction wrote, and so has an instruction of the wrong path; the store waits for the
quotient. -/
theorem operand_dataflow_busy : ∃ c, Reach busyCore .boundary c ∧
    Event.issue 1 0 5 ∈ c.log ∧ Event.issue 6 5 0 ∈ c.log ∧ Event.issue 7 0 0 ∈ c.log ∧
    (∃ s, c.iq.occupied s = true ∧ c.iq.blocked1 s = true) ∧ DataflowRight busyCore c := by
  obtain ⟨c, hr, hp⟩ := Reach.eval busyCore 120 .boundary
    (p := fun c => decide (Event.issue 1 0 5 ∈ c.log ∧ Event.issue 6 5 0 ∈ c.log ∧ Event.issue 7 0 0 ∈ c.log ∧
      c.iq.occupied 3 = true ∧ c.iq.blocked1 3 = true)) (by decide +kernel)
  obtain ⟨hdiv, hbranch, hwrong, hocc, hblk⟩ := of_decide_eq_true hp
  exact ⟨c, hr, hdiv, hbranch, hwrong, ⟨3, hocc, hblk⟩, (operand_dataflow busyConfig_accepted false (fun _ => 0)
    (fun _ => 0) (MemorySystem.init busyConfig fun a => wordByte (busyProgram (a / 4)) (a % 4))).2 _ c hr⟩

end RvO3
