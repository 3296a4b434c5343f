import RvO3.Core.MapAt

/-!
# The history of a run

What the history variable says about the live instructions: each was dispatched in the
map `mapAt` still gives, and none was dispatched before a recovery that squashed it. The
second fact is what makes a squashed instruction's results harmless: a result can only be
written for a live entry.
-/

set_option autoImplicit false

namespace RvO3

open OoOCore

/-! ## Squashed numbers -/

/-- The instruction whose output an event writes. -/
def Event.writes : Event → Option Nat
  | .writeback seq _ => some seq
  | .drain seq => some seq
  | _ => none

/-- Instruction `q` was squashed: a recovery below it came after its dispatch. -/
def Killed (log : List Event) (q : Nat) : Prop :=
  ∃ l₁ s l₂ ins m, log = l₁ ++ .recover s :: l₂ ∧ .dispatch q ins m ∈ l₁ ∧ s < q

theorem append_singleton_eq_split {α : Type} {l l₁ l₂ : List α} {x y : α}
    (h : l ++ [x] = l₁ ++ y :: l₂) :
    (l₁ = l ∧ y = x ∧ l₂ = []) ∨ ∃ l₃, l₂ = l₃ ++ [x] ∧ l = l₁ ++ y :: l₃ := by
  rcases List.eq_nil_or_concat l₂ with rfl | ⟨l₃, z, rfl⟩
  · obtain ⟨h1, h2⟩ := List.append_inj' h rfl
    rw [List.cons.injEq] at h2
    exact Or.inl ⟨h1.symm, h2.1.symm, rfl⟩
  · have hc : l₁ ++ y :: (l₃ ++ [z]) = (l₁ ++ y :: l₃) ++ [z] := by simp
    rw [List.concat_eq_append, hc] at h
    obtain ⟨h1, h2⟩ := List.append_inj' h rfl
    rw [List.cons.injEq] at h2
    exact Or.inr ⟨l₃, by rw [List.concat_eq_append, h2.1], h1⟩

/-- An instruction is killed later by a squash that reaches it, and by nothing else. -/
theorem killed_append {log : List Event} {ev : Event} {q : Nat} :
    Killed (log ++ [ev]) q ↔
      Killed log q ∨ ∃ s ins m, ev = .recover s ∧ .dispatch q ins m ∈ log ∧ s < q := by
  constructor
  · rintro ⟨l₁, s, l₂, ins, m, hl, hd, hlt⟩
    rcases append_singleton_eq_split hl with ⟨rfl, hev, -⟩ | ⟨l₃, -, hl'⟩
    · exact Or.inr ⟨s, ins, m, hev.symm, hd, hlt⟩
    · exact Or.inl ⟨l₁, s, l₃, ins, m, hl', hd, hlt⟩
  · rintro (⟨l₁, s, l₂, ins, m, rfl, hd, hlt⟩ | ⟨s, ins, m, rfl, hd, hlt⟩)
    · exact ⟨l₁, s, l₂ ++ [ev], ins, m, by simp, hd, hlt⟩
    · exact ⟨log, s, [], ins, m, rfl, hd, hlt⟩

/-! ## The invariant -/

section History

variable {M : Type} {c c' : OoOCore M}

/-- What the history variable and the state have to do with each other: every live instruction was
dispatched with the map that its number stands for, and what was squashed stays so. -/
structure HistoryOk (c : OoOCore M) : Prop where
  dispatched : ∀ i ∈ c.rob.slots,
    .dispatch (robSeq c.rob i) (c.rob.e i).ins (c.mapAt (robSeq c.rob i)) ∈ c.log
  dispatch_lt : ∀ seq ins m, .dispatch seq ins m ∈ c.log → seq < c.seqCtr
  /-- A number is dispatched once. -/
  dispatch_once : ∀ seq ins m ins' m', .dispatch seq ins m ∈ c.log →
    .dispatch seq ins' m' ∈ c.log → ins = ins' ∧ m = m'
  alive : ∀ i ∈ c.rob.slots, ¬ Killed c.log (robSeq c.rob i)
  /-- No output of a squashed instruction was ever written. -/
  clean : ∀ l₁ ev l₂ q, c.log = l₁ ++ ev :: l₂ → ev.writes = some q → ¬ Killed l₁ q

/-- The live entries of `c'` are live entries of `c`, in the maps they had. -/
structure Shrunk (c c' : OoOCore M) : Prop where
  seqCtr : c'.seqCtr = c.seqCtr
  live : ∀ i ∈ c'.rob.slots, i ∈ c.rob.slots
  seq : ∀ i ∈ c'.rob.slots, robSeq c'.rob i = robSeq c.rob i
  ins : ∀ i ∈ c'.rob.slots, (c'.rob.e i).ins = (c.rob.e i).ins
  map : ∀ i ∈ c'.rob.slots, c'.mapAt (robSeq c.rob i) = c.mapAt (robSeq c.rob i)

theorem Quiet.shrunk (h : Quiet c c') (hs : c'.seqCtr = c.seqCtr) : Shrunk c c' := by
  refine ⟨hs, ?_, fun i _ => by rw [h.rob.seq], fun i _ => h.rob.ins i, fun i _ => mapAt_quiet h _⟩
  intro i hi
  rw [h.rob.slots] at hi
  exact hi

/-- Nothing is added to the history. -/
theorem HistoryOk.shrink (h : HistoryOk c) (hs : Shrunk c c') (hl : c'.log = c.log) :
    HistoryOk c' := by
  refine ⟨?_, ?_, ?_, ?_, ?_⟩
  · intro i hi
    rw [hs.seq i hi, hs.ins i hi, hs.map i hi, hl]
    exact h.dispatched i (hs.live i hi)
  · rw [hl, hs.seqCtr]
    exact h.dispatch_lt
  · rw [hl]
    exact h.dispatch_once
  · intro i hi
    rw [hl, hs.seq i hi]
    exact h.alive i (hs.live i hi)
  · rw [hl]
    exact h.clean

/-- An event that is not a dispatch is added. What it writes belongs to a live entry, and
what it squashes is gone. -/
theorem HistoryOk.record (h : HistoryOk c) (hs : Shrunk c c') {ev : Event}
    (hl : c'.log = c.log ++ [ev]) (hd : ∀ seq ins m, ev ≠ .dispatch seq ins m)
    (hw : ∀ q, ev.writes = some q → ∃ i ∈ c.rob.slots, robSeq c.rob i = q)
    (hr : ∀ s, ev = .recover s → ∀ i ∈ c'.rob.slots, robSeq c.rob i ≤ s) : HistoryOk c' := by
  have hmem : ∀ {seq ins m}, .dispatch seq ins m ∈ c'.log → .dispatch seq ins m ∈ c.log := by
    intro seq ins m hm
    rw [hl] at hm
    rcases List.mem_append.mp hm with hm | hm
    · exact hm
    · exact absurd (List.mem_singleton.mp hm).symm (hd _ _ _)
  refine ⟨?_, ?_, ?_, ?_, ?_⟩
  · intro i hi
    rw [hs.seq i hi, hs.ins i hi, hs.map i hi, hl]
    exact List.mem_append_left _ (h.dispatched i (hs.live i hi))
  · rw [hs.seqCtr]
    exact fun seq ins m hm => h.dispatch_lt seq ins m (hmem hm)
  · exact fun seq ins m ins' m' h1 h2 => h.dispatch_once seq ins m ins' m' (hmem h1) (hmem h2)
  · intro i hi hk
    rw [hl, hs.seq i hi, killed_append] at hk
    rcases hk with hk | ⟨s, ins, m, hev, -, hlt⟩
    · exact h.alive i (hs.live i hi) hk
    · have := hr s hev i hi
      omega
  · intro l₁ ev' l₂ q heq hq
    rw [hl] at heq
    rcases append_singleton_eq_split heq with ⟨rfl, rfl, -⟩ | ⟨l₃, -, heq'⟩
    · obtain ⟨i, hi, rfl⟩ := hw q hq
      exact h.alive i hi
    · exact h.clean l₁ ev' l₃ q heq' hq

/-- An event of no concern is added. -/
theorem HistoryOk.note (h : HistoryOk c) (hs : Shrunk c c') {ev : Event}
    (hl : c'.log = c.log ++ [ev]) (hd : ∀ seq ins m, ev ≠ .dispatch seq ins m)
    (hw : ev.writes = none) (hr : ∀ s, ev ≠ .recover s) : HistoryOk c' :=
  h.record hs hl hd (fun q hq => by rw [hw] at hq; cases hq) fun s he => absurd he (hr s)

/-- A squash keeps the history: what it takes off the ROB is what its event kills. -/
theorem HistoryOk.recover (h : HistoryOk c) (hb : BackOk c) (seq : Nat) :
    HistoryOk (c.recover seq) := by
  have hs := recover_spec hb seq
  refine h.record ⟨(congrArg OoOCore.seqCtr hs.frame :), fun i hi => (hs.rob.mem.mp hi).1,
    fun i _ => by rw [hs.rob.robSeq_eq], fun i _ => by rw [hs.rob.e], ?_⟩ hs.log nofun nofun ?_
  · intro i hi
    exact mapAt_cut hb hs (Nat.le_succ_of_le (hs.rob.mem.mp hi).2)
  · intro s he i hi
    cases he
    exact (hs.rob.mem.mp hi).2

/-- The oldest entry leaves. -/
theorem shrunk_popHead (h : BackOk c) (hne : c.rob.empty = false) (hrob : c'.rob = c.rob.popHead)
    (hm : c'.rmap = c.rmap) (hs : c'.seqCtr = c.seqCtr) : Shrunk c c' := by
  obtain ⟨rest, hr⟩ := Ring.slots_eq_cons h.rob.wf hne
  have hp : c.rob.popHead.slots = rest := by
    rw [Ring.slots_popHead h.rob.wf, hr]
    rfl
  have hsorted := h.rob.sorted
  rw [hr, List.map_cons, List.pairwise_cons] at hsorted
  refine ⟨hs, ?_, fun i _ => by rw [hrob]; rfl, fun i _ => by rw [hrob]; rfl, ?_⟩
  · intro i hi
    rw [hrob, hp] at hi
    rw [hr]
    exact List.mem_cons_of_mem _ hi
  · intro i hi
    rw [hrob, hp] at hi
    exact mapAt_popHead h hne hrob hm (hsorted.1 _ (List.mem_map_of_mem hi))

/-- A dispatch adds one instruction to the history and to the ROB. -/
theorem HistoryOk.push (h : HistoryOk c) (hb : BackOk c) (hf : c.rob.full = false) {e : RobEntry}
    (hrob : c'.rob = pushRob c.rob e) (he : e.seq = c.seqCtr)
    (hm : undo [e] c'.rmap = c.rmap) (hs : c'.seqCtr = c.seqCtr + 1)
    (hl : c'.log = c.log ++ [.dispatch c.seqCtr e.ins c.rmap]) : HistoryOk c' := by
  have hp := pushed hb.rob.wf hf e
  have hnew : robSeq (pushRob c.rob e) c.rob.allocIdx = c.seqCtr := by rw [robSeq, hp.new, he]
  have hstable : ∀ {n : Nat}, n ≤ c.seqCtr → c'.mapAt n = c.mapAt n :=
    fun hn => mapAt_push hb.rob.wf hf hrob he hm hn
  -- an event of the new log is an old one or the dispatch
  have hmem : ∀ {seq ins m}, .dispatch seq ins m ∈ c'.log →
      .dispatch seq ins m ∈ c.log ∨ (seq = c.seqCtr ∧ ins = e.ins ∧ m = c.rmap) := by
    intro seq ins m hmem
    rw [hl] at hmem
    rcases List.mem_append.mp hmem with hmem | hmem
    · exact Or.inl hmem
    · cases List.mem_singleton.mp hmem
      exact Or.inr ⟨rfl, rfl, rfl⟩
  -- a dispatch kills nothing
  have hkilled : ∀ {q : Nat}, Killed c'.log q → Killed c.log q := by
    intro q hk
    rw [hl, killed_append] at hk
    rcases hk with hk | ⟨s, ins, m, hev, -⟩
    · exact hk
    · cases hev
  refine ⟨?_, ?_, ?_, ?_, ?_⟩
  · rw [hrob, hp.slots]
    intro i hi
    rcases List.mem_append.mp hi with hi | hi
    · rw [hp.seq_old hi, hp.old i hi, hstable (Nat.le_of_lt (hb.rob.seq_lt i hi)), hl]
      exact List.mem_append_left _ (h.dispatched i hi)
    · rw [List.mem_singleton.mp hi, hnew, hp.new, hstable (Nat.le_refl _), mapAt_seqCtr hb.rob, hl]
      simp
  · intro seq ins m hmm
    rw [hs]
    rcases hmem hmm with hmm | ⟨rfl, -, -⟩
    · have := h.dispatch_lt seq ins m hmm
      omega
    · omega
  · intro seq ins m ins' m' h1 h2
    -- the new number is larger than every number dispatched before
    rcases hmem h1 with h1 | ⟨hs1, rfl, rfl⟩ <;> rcases hmem h2 with h2 | ⟨hs2, rfl, rfl⟩
    · exact h.dispatch_once seq ins m ins' m' h1 h2
    · have := h.dispatch_lt seq ins m h1
      omega
    · have := h.dispatch_lt seq ins' m' h2
      omega
    · exact ⟨rfl, rfl⟩
  · rw [hrob, hp.slots]
    intro i hi hk
    rcases List.mem_append.mp hi with hi | hi
    · rw [hp.seq_old hi] at hk
      -- an entry that was there was alive; the new one cannot have been killed
      exact h.alive i hi (hkilled hk)
    · rw [List.mem_singleton.mp hi, hnew] at hk
      obtain ⟨l₁, s, l₂, ins, m, heq, hd, -⟩ := hkilled hk
      have := h.dispatch_lt c.seqCtr ins m (by rw [heq]; exact List.mem_append_left _ hd)
      omega
  · intro l₁ ev l₂ q heq hq
    rw [hl] at heq
    rcases append_singleton_eq_split heq with ⟨rfl, rfl, -⟩ | ⟨l₃, -, heq'⟩
    · cases hq
    · exact h.clean l₁ ev l₃ q heq' hq

/-! ## Every action keeps it -/

theorem HistoryOk.complete (h : HistoryOk c) {op : FuOp} (hn : OpNames c.rob op) (i : Nat) :
    HistoryOk (c.complete i op) := by
  refine h.record ((quiet_complete c i op).shrunk rfl) rfl nofun ?_ nofun
  intro q hq
  cases hq
  exact ⟨op.robIdx, hn.live, hn.seq⟩

theorem HistoryOk.dropOut (h : HistoryOk c) (slot : OutSlot) : HistoryOk (c.dropOut slot) := by
  cases slot <;> exact h.shrink ((quiet_dropOut c _).shrunk rfl) rfl

theorem HistoryOk.mispredictCall (h : HistoryOk c) (slot : OutSlot) (e : RobEntry) :
    HistoryOk (c.mispredictCall slot e) := by
  cases slot <;> exact h.shrink ((quiet_mispredictCall c _ e).shrunk rfl) rfl

theorem HistoryOk.writebackOne (h : HistoryOk c) (hb : BackOk c) (hne : c.wbReady ≠ []) :
    HistoryOk c.writebackOne.1 := by
  obtain ⟨slot, hs, hcase⟩ := writebackOne_cases hne
  have h1 := h.complete (hb.waiting (List.mem_of_getElem? hs)).names c.oldestReady
  rcases hcase with ⟨heq, -⟩ | ⟨heq, -⟩
  · rw [heq]
    exact h1.dropOut slot
  · rw [heq, mispredict_eq]
    have h2 := (h1.mispredictCall slot (resolve (c.rob.e (c.outAt slot).robIdx) (c.outAt slot))).recover
      ((hb.finishResult hs).mispredictCall _) (c.outAt slot).seq
    exact h2.shrink (Quiet.shrunk ⟨rfl, rfl, SameStatic.refl _, rfl, rfl⟩ rfl) rfl

theorem HistoryOk.violationScan (h : HistoryOk c) (hb : BackOk c) (store : LsqEntry) :
    HistoryOk (c.violationScan store) := by
  cases hv : c.violationVictim store with
  | none =>
      rw [violationScan_none hv]
      exact h
  | some slot =>
      rw [violationScan_eq hv]
      have h1 : HistoryOk (c.replayCall slot) :=
        h.shrink (Quiet.shrunk ⟨rfl, rfl, SameStatic.refl _, rfl, rfl⟩ rfl) rfl
      have h2 := h1.recover (c := c.replayCall slot) { hb with } ((c.lsq.at' slot).seq - 1)
      exact h2.shrink (Quiet.shrunk ⟨rfl, rfl, SameStatic.refl _, rfl, rfl⟩ rfl) rfl

theorem undo_opEntry {f : Fetched} {m : Reg → Nat} (hm : m = c.rmap)
    (hfree : hasDest (decode f.raw) = true → c.freeList.head ≠ kNoReg) :
    undo [opEntry c f] (if hasDest (decode f.raw) then
      Function.update m (decode f.raw).rd c.freeList.head else m) = c.rmap := by
  rw [undo, renames_singleton, opEntry_write hfree, hm]
  by_cases hd : hasDest (decode f.raw) = true
  · rw [if_pos hd, if_pos hd]
    exact Write.undo_apply ⟨_, c.rmap (decode f.raw).rd, c.freeList.head⟩ rfl
  · rw [if_neg hd, if_neg hd]
    rfl

theorem HistoryOk.dispatchOp (h : HistoryOk c) (hb : BackOk c) (hr : OpRoom c)
    (hfree : hasDest (decode c.fetchQ.head.raw) = true → c.freeList.head ≠ kNoReg) :
    HistoryOk (c.dispatchOp c.fetchQ.head (decode c.fetchQ.head.raw)) := by
  rw [dispatchOp_eq]
  -- the rename and the dispatch event first, then the capture event
  have h1 : HistoryOk { c with
      rob := pushRob c.rob (opEntry c c.fetchQ.head)
      rmap := if hasDest (decode c.fetchQ.head.raw) then
          Function.update c.rmap (decode c.fetchQ.head.raw).rd c.freeList.head
        else c.rmap
      seqCtr := c.seqCtr + 1
      log := c.log ++ [.dispatch c.seqCtr (decode c.fetchQ.head.raw) c.rmap] } :=
    h.push hb hr.rob rfl rfl (undo_opEntry rfl hfree) rfl rfl
  have hshr : ∀ {d : OoOCore M}, d.rob = pushRob c.rob (opEntry c c.fetchQ.head) →
      d.rmap = (if hasDest (decode c.fetchQ.head.raw) then
          Function.update c.rmap (decode c.fetchQ.head.raw).rd c.freeList.head
        else c.rmap) → d.seqCtr = c.seqCtr + 1 → Shrunk { c with
      rob := pushRob c.rob (opEntry c c.fetchQ.head)
      rmap := if hasDest (decode c.fetchQ.head.raw) then
          Function.update c.rmap (decode c.fetchQ.head.raw).rd c.freeList.head
        else c.rmap
      seqCtr := c.seqCtr + 1
      log := c.log ++ [.dispatch c.seqCtr (decode c.fetchQ.head.raw) c.rmap] } d := by
    intro d hrob hmap hctr
    refine ⟨hctr, ?_, ?_, ?_, ?_⟩
    · intro i hi
      rw [hrob] at hi
      exact hi
    · intro i _
      rw [hrob]
    · intro i _
      rw [hrob]
    · intro i _
      rw [OoOCore.mapAt, OoOCore.mapAt, hrob, hmap]
  by_cases hcap : (isStore (decode c.fetchQ.head.raw).op &&
      (opPrf c (decode c.fetchQ.head.raw)).ready (c.rmap (decode c.fetchQ.head.raw).rs2)) = true
  · rw [if_pos hcap]
    exact h1.note (hshr rfl rfl rfl) rfl (fun _ _ _ he => by cases he) rfl fun _ he => by cases he
  · rw [if_neg hcap, List.append_nil]
    exact h1.shrink (hshr rfl rfl rfl) rfl

theorem HistoryOk.dispatchSystem (h : HistoryOk c) (hb : BackOk c) {first : Bool}
    (hr : SystemRoom c first) :
    HistoryOk (c.dispatchSystem c.fetchQ.head (decode c.fetchQ.head.raw)) := by
  rw [dispatchSystem_eq]
  exact h.push (e := systemEntry c c.fetchQ.head) hb hr.rob rfl rfl rfl rfl rfl

variable [MemPorts Nat M]

theorem HistoryOk.fillOne (h : HistoryOk c) (hb : BackOk c) {i : Nat} (hi : c.readyAgu = some i) :
    HistoryOk (c.fillOne i) := by
  have hd := hb.delivered hi
  refine h.record ((quiet_fillOne c i).shrunk rfl) rfl nofun ?_ nofun
  intro q hq
  cases hq
  exact ⟨_, hd.names.live, hd.names.seq⟩

theorem HistoryOk.aguDrainOne (h : HistoryOk c) (hb : BackOk c) {i : Nat}
    (hi : c.readyAgu = some i) : HistoryOk (c.aguDrainOne i) := by
  have h1 := h.fillOne hb hi
  unfold OoOCore.aguDrainOne
  dsimp only
  split
  · exact h1.violationScan (hb.fillOne hi) _
  · exact h1

/-- A commit moves the head from the live instructions to the committed ones. -/
theorem HistoryOk.commitOne (h : HistoryOk c) (hb : BackOk c) {b : Bool} (hne : c.rob.empty = false)
    (hc : c.commitOne = .ok (c', b)) : HistoryOk c' := by
  rcases commitOne_cases hc with ⟨rfl, -⟩ | ⟨rec, hs, -⟩ | ⟨hs, -⟩
  · exact h
  · obtain ⟨ret, prf, pos, hal, ex, rfl, -⟩ := hs.frame
    exact h.note (shrunk_popHead hb hne rfl rfl rfl) rfl nofun rfl nofun
  · rw [hs.frame]
    exact h.note (shrunk_popHead hb hne rfl rfl rfl) rfl nofun rfl nofun

/-- Every action keeps the history of dispatches, squashes and commits in step with the ROB. -/
theorem Action.historyOk {cfg : SimConfig} (hcfg : cfg.Accepted) (ha : Action c c')
    (hk : CoreOk cfg c) (h : HistoryOk c) : HistoryOk c' := by
  have hb := hk.back
  cases ha.flow with
  | commit hne hd hc => exact h.commitOne hb hne hc
  | writeback hne => exact h.writebackOne hb hne
  | drain hi => exact h.aguDrainOne hb hi
  | @issue slot u _ _ _ =>
      cases u <;> exact h.note ((quiet_issueTo c slot _).shrunk rfl) rfl nofun rfl nofun
  | @dispatch first hno =>
      rcases dispatchOne_cases c first with heq | ⟨hr, heq⟩ | ⟨hr, heq⟩
      · rw [heq]
        exact h
      · rw [heq]
        exact h.dispatchSystem hb hr
      · rw [heq]
        exact h.dispatchOp hb hr fun hd => hk.rename.head_ne (hk.config ▸ hcfg) (hr.freeList hd)
  | tickUnits => exact h.shrink ((quiet_tickUnits c).shrunk rfl) rfl
  | aside ha =>
      have hs := ha.quiet.shrunk ha.seqCtr
      -- a captured operand is all that such an action may log
      rcases ha.log with hl | ⟨seq, v, hl⟩
      · exact h.shrink hs hl
      · exact h.note hs hl nofun rfl nofun

end History

end RvO3
