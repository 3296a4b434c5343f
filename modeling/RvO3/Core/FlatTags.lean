import RvO3.Core.Halt
import RvO3.Core.TagAge
import RvO3.Memory.Latency

/-!
# Tags in flat mode

In flat mode the data port owes an answer for less than its latency, and in that time no slot is
taken more than once a cycle. With a latency of at most `2 ^ 16` no tag comes into use again while
an answer to it is owed, however long the run (`tags_free_flat`).
-/

set_option autoImplicit false

namespace RvO3

open OoOCore

/-! ## What the data port was sent -/

section Sent

variable {cfg : SimConfig} {c c' : OoOCore (MemorySystem Nat)} {lag : Nat}

theorem DRAM.perform_tag {τ : Type} {m m' : Memory} {req : MemRequest τ} {r : MemResponse τ}
    (h : DRAM.perform m req = .ok (m', r)) : r.tag = req.tag := by
  unfold DRAM.perform at h
  dsimp only at h
  repeat' split at h
  all_goals cases h
  all_goals rfl

/-- An access of the data port in flat mode. -/
theorem flat_dAccess {m : FlatMemory Nat} {s : MemorySystem Nat} {req : MemRequest Nat}
    (h : (MemorySystem.flat m).dAccess req = .ok s) : ∃ dram backing r, s = .flat { m with dram, backing } ∧
      DRAM.perform m.backing req = .ok (backing, r) ∧ m.dram.access m.backing req = .ok (dram, backing) := by
  unfold MemorySystem.dAccess FlatMemory.dAccess at h
  dsimp only at h
  cases ha : m.dram.access m.backing req with
  | error e =>
      rw [ha] at h
      cases h
  | ok x =>
      rw [ha] at h
      cases h
      obtain ⟨r, hp, -⟩ := DRAM.access_cases ha
      exact ⟨x.1, x.2, r, rfl, hp, rfl⟩

/-- An access of the fetch port leaves the data port alone. -/
theorem flat_iAccess {m : FlatMemory Nat} {s : MemorySystem Nat} {req : MemRequest Nat}
    (h : (MemorySystem.flat m).iAccess req = .ok s) : ∃ flatI backing, s = .flat { m with flatI, backing } := by
  unfold MemorySystem.iAccess FlatMemory.iAccess at h
  dsimp only at h
  split at h
  · cases h
  · rename_i m' hm
    split at hm
    · cases hm
    · cases hm
      cases h
      exact ⟨_, _, rfl⟩

/-- The data port of flat mode: `sent` are the answers to what it has accepted, each with its tick. A
slot was taken at most once a cycle since a load was sent for it, `lag` more if the clock has not
ticked yet. -/
structure FlatOwed (cfg : SimConfig) (lag : Nat) (c : OoOCore (MemorySystem Nat)) (m : FlatMemory Nat)
    (sent : List (Nat × MemResponse Nat)) (got : List (MemResponse Nat)) : Prop where
  flat : c.msys = .flat m
  run : DramRun cfg.flatLatency sent got m.dram
  age : ∀ x ∈ sent, ∀ j gen, NamesLoad x.2 j gen → ∃ n ≤ c.lsq.genCtr j, gen = n % 2 ^ 16 ∧
    c.lsq.genCtr j + x.1 ≤ n + m.dram.tickCount + lag

variable {m m' : FlatMemory Nat} {sent : List (Nat × MemResponse Nat)} {got : List (MemResponse Nat)}

/-- The port goes on without a request. -/
theorem FlatOwed.idle {got' : List (MemResponse Nat)} (h : FlatOwed cfg lag c m sent got) (hm : c'.msys = .flat m')
    (hrun : DramRun cfg.flatLatency sent got' m'.dram) (htime : m.dram.tickCount ≤ m'.dram.tickCount)
    (hgen : c'.lsq.genCtr = c.lsq.genCtr) : FlatOwed cfg lag c' m' sent got' := by
  refine ⟨hm, hrun, fun x hx j gen hn => ?_⟩
  obtain ⟨n, hle, hmod, hage⟩ := h.age x hx j gen hn
  rw [hgen]
  exact ⟨n, hle, hmod, by omega⟩

theorem FlatOwed.same (h : FlatOwed cfg lag c m sent got) (hm : c'.msys = c.msys)
    (hgen : c'.lsq.genCtr = c.lsq.genCtr) : FlatOwed cfg lag c' m sent got :=
  h.idle (hm.trans h.flat) h.run (Nat.le_refl _) hgen

/-- The port accepts a request. A load carries the generation of its slot. -/
theorem FlatOwed.send {req : MemRequest Nat} (h : FlatOwed cfg lag c m sent got)
    (hacc : MemPorts.dCanAccept c.msys = true) (hm : MemPorts.dAccess c.msys req = .ok c'.msys)
    (hgen : c'.lsq.genCtr = c.lsq.genCtr)
    (htag : ∀ {r : MemResponse Nat} {j gen : Nat}, r.tag = req.tag → NamesLoad r j gen →
      gen = c.lsq.genCtr j % 2 ^ 16) : ∃ m' sent', FlatOwed cfg lag c' m' sent' got := by
  rw [h.flat] at hacc hm
  obtain ⟨dram, backing, r, hs, hp, ha⟩ := flat_dAccess hm
  refine ⟨_, _, hs, h.run.access hacc hp ha, fun x hx j gen hn => ?_⟩
  have htime : dram.tickCount = m.dram.tickCount := by
    obtain ⟨-, -, ⟨-, rfl⟩ | ⟨-, rfl⟩⟩ := DRAM.access_cases ha <;> rfl
  dsimp only
  rw [hgen, htime]
  rcases List.mem_append.mp hx with hx | hx
  · exact h.age x hx j gen hn
  · rw [List.mem_singleton.mp hx] at hn ⊢
    exact ⟨c.lsq.genCtr j, Nat.le_refl _, htag (DRAM.perform_tag hp) hn, Nat.le_add_right _ _⟩

theorem Action.flatOwed (ha : Action c c') (hk : ReplyOk cfg c) (hgen : c'.lsq.genCtr = c.lsq.genCtr)
    (h : FlatOwed cfg lag c m sent got) : ∃ m' sent' got', FlatOwed cfg lag c' m' sent' got' := by
  have hsame : c'.msys = c.msys → ∃ m' sent' got', FlatOwed cfg lag c' m' sent' got' :=
    fun hm => ⟨_, _, _, h.same hm hgen⟩
  cases ha.memSide hk.core.back with
  | quiet hs => exact hsame hs.msys
  | commit _ hm => exact hsame hm
  | store _ _ hm => exact hsame hm
  | popAck _ _ hm => exact hsame hm
  | response hr hm =>
      rw [h.flat] at hr hm
      exact ⟨_, _, _, h.idle hm (h.run.pop hr) (Nat.le_refl _) hgen⟩
  | @sendLoad slot hs hm =>
      have hlive := (hk.lsq.wf.candidate hs.mayGo.candidate).1
      have hsent := h.send hs.accepts hm hgen fun hr hn => by
        obtain ⟨rfl, rfl⟩ := hn.of_tag hk.tags hk.lsq.wf hlive hr
        exact hk.tags.gen _ hlive
      obtain ⟨m', sent', h'⟩ := hsent
      exact ⟨m', sent', got, h'⟩
  | sendStore _ hacc hm =>
      have hsent := h.send hacc hm hgen fun hr hn =>
        absurd (by rw [hr]; exact isStoreTag_storeTag _ _) hn.isLoad
      obtain ⟨m', sent', h'⟩ := hsent
      exact ⟨m', sent', got, h'⟩
  | fetched _ hm =>
      rw [h.flat] at hm
      exact ⟨_, _, _, h.idle hm h.run (Nat.le_refl _) hgen⟩
  | fetch _ _ hm =>
      rw [h.flat] at hm
      obtain ⟨flatI, backing, hs⟩ := flat_iAccess hm
      exact ⟨_, _, _, h.idle hs h.run (Nat.le_refl _) hgen⟩
  | tick hm =>
      rw [h.flat] at hm
      exact ⟨_, _, _, h.idle (Except.ok.inj hm).symm h.run.tick (Nat.le_succ _) hgen⟩

/-- The same over actions that hand out no sequence number. -/
theorem Actions.flatOwed (hcfg : cfg.Accepted) (ha : Actions c c') (hk : ReplyOk cfg c) (hs : c'.seqCtr = c.seqCtr)
    (h : ∃ m sent got, FlatOwed cfg lag c m sent got) : ∃ m' sent' got', FlatOwed cfg lag c' m' sent' got' := by
  induction ha with
  | refl => exact h
  | @tail d d' hr hact ih =>
      have hkd := Actions.replyOk hcfg hr hk
      have hle := (Actions.seqCtr_le hcfg hr hk.core).1
      have hle' := (hact.waitersFrom hkd.core.back).seqCtr
      obtain ⟨m, sent, got, hd⟩ := ih (by omega)
      rcases hact.genCtr hkd.core.back (hact.coreOk hcfg hkd.core).back with hgen | ⟨hne, -⟩
      · exact hact.flatOwed hkd hgen hd
      · omega

end Sent

/-! ## Stages -/

section Stages

variable {cfg : SimConfig} {c c' : OoOCore (MemorySystem Nat)}

theorem dataResponse_msys (c : OoOCore (MemorySystem Nat)) (r : MemResponse Nat) :
    (c.dataResponse r).msys = c.msys := by
  unfold OoOCore.dataResponse
  split <;> rfl

theorem dQueue_dPop (s : MemorySystem Nat) : s.dPop.dQueue = s.dQueue.tail := by
  cases s <;> rfl

theorem drainLoop_dQueue (n : Nat) (c : OoOCore (MemorySystem Nat)) :
    (drainLoop n c).msys.dQueue = c.msys.dQueue.drop n := by
  induction n generalizing c with
  | zero => rfl
  | succ n ih =>
      unfold drainLoop
      cases hq : c.msys.dQueue with
      | nil =>
          have hnone : MemPorts.dResponse c.msys = none := congrArg List.head? hq
          rw [hnone]
          exact hq
      | cons r rest =>
          have hsome : MemPorts.dResponse c.msys = some r := congrArg List.head? hq
          rw [hsome]
          dsimp only
          rw [ih, dataResponse_msys]
          change (MemorySystem.dPop c.msys).dQueue.drop n = _
          rw [dQueue_dPop, hq]
          rfl

/-- The load-store stage ends with every ready response taken. -/
theorem lsqOperate_dQueue (hcfg : cfg.Accepted) (hk : CoreOk cfg c) (h : c.lsqOperate = .ok c') :
    c'.msys.dQueue = [] := by
  obtain ⟨-, -, c₄, -, rfl⟩ := lsqOperate_parts hcfg hk h
  exact (drainLoop_dQueue _ c₄).trans (List.drop_length ..)

theorem clockEdge_tick (h : c.clockEdge = .ok c') : MemPorts.tick c.msys = .ok c'.msys := by
  have hsame : c.applyRedirect.tickUnits.msys = c.msys := by
    unfold OoOCore.applyRedirect
    split <;> rfl
  unfold OoOCore.clockEdge at h
  dsimp only at h
  rw [hsame] at h
  split at h
  · cases h
  · rename_i m hm
    cases h
    exact hm

/-- The dispatches that the clock has not counted. -/
def Phase.lag : Phase → Nat
  | .dispatched | .fetched => 1
  | _ => 0

/-- The data port of flat mode at a point of a cycle. After the load-store stage no response waits. -/
structure FlatTagged (cfg : SimConfig) (ph : Phase) (c : OoOCore (MemorySystem Nat)) : Prop where
  owed : ∃ m sent got, FlatOwed cfg ph.lag c m sent got
  taken : ph = .operated ∨ ph = .issued → c.msys.dQueue = []

theorem FlatOwed.dispatchStage {m : FlatMemory Nat} {sent : List (Nat × MemResponse Nat)}
    {got : List (MemResponse Nat)} (h : FlatOwed cfg 0 c m sent got) (ha : Appends c c.dispatchStage) :
    FlatOwed cfg 1 c.dispatchStage m sent got := by
  refine ⟨ha.msys.trans h.flat, h.run, fun x hx j gen hn => ?_⟩
  obtain ⟨n, hle, hmod, hage⟩ := h.age x hx j gen hn
  have hj := ha.genCtr_le j
  exact ⟨n, by omega, hmod, by omega⟩

theorem FlatOwed.clockEdge {m : FlatMemory Nat} {sent : List (Nat × MemResponse Nat)} {got : List (MemResponse Nat)}
    (h : FlatOwed cfg 1 c m sent got) (hs : c.clockEdge = .ok c') : FlatOwed cfg 0 c' m.tick sent got := by
  have htick := clockEdge_tick hs
  rw [h.flat] at htick
  refine ⟨(Except.ok.inj htick).symm, h.run.tick, fun x hx j gen hn => ?_⟩
  obtain ⟨n, hle, hmod, hage⟩ := h.age x hx j gen hn
  have hlsq : c'.lsq = c.lsq := by
    obtain ⟨_, _, _, _, _, _, rfl⟩ := clockEdge_frame hs
    rfl
  have htime : m.tick.dram.tickCount = m.dram.tickCount + 1 := rfl
  rw [hlsq]
  exact ⟨n, hle, hmod, by omega⟩

theorem Stage.flatTagged (hcfg : cfg.Accepted) {ph ph' : Phase} (hk : ReplyOk cfg c)
    (hno : (ph = .committed ∨ ph.afterCommit = true) → NoSystem c) (hs : Stage ph c ph' c')
    (h : FlatTagged cfg ph c) : FlatTagged cfg ph' c' := by
  obtain ⟨m, sent, got, hm⟩ := h.owed
  have hother : ph'.lag = ph.lag → Actions c c' ∧ c'.seqCtr = c.seqCtr →
      ∃ m' sent' got', FlatOwed cfg ph'.lag c' m' sent' got' := by
    intro hlag hact
    rw [hlag]
    exact Actions.flatOwed hcfg hact.1 hk hact.2 h.owed
  have hact := hs.actions hcfg hk.core hno
  cases hs with
  | commit _ _ => exact ⟨hother rfl (hact.resolve_right (by simp)), by simp⟩
  | writeback _ => exact ⟨hother rfl (hact.resolve_right (by simp)), by simp⟩
  | drain => exact ⟨hother rfl (hact.resolve_right (by simp)), by simp⟩
  | operate hs => exact ⟨hother rfl (hact.resolve_right (by simp)), fun _ => lsqOperate_dQueue hcfg hk.core hs⟩
  | issue =>
      have hmsys : c.issueStage.msys = c.msys :=
        msys_of_outside (Stage.outside hcfg hk.core hno (.issue) rfl)
      refine ⟨hother rfl (hact.resolve_right (by simp)), fun _ => ?_⟩
      rw [hmsys]
      exact h.taken (.inl rfl)
  | dispatch =>
      exact ⟨⟨m, sent, got, hm.dispatchStage (dispatchStage_appends hcfg hk.core (hno (.inr rfl))).2⟩, by simp⟩
  | fetch hs => exact ⟨hother rfl (hact.resolve_right (by simp)), by simp⟩
  | edge hs => exact ⟨⟨m.tick, sent, got, hm.clockEdge hs⟩, by simp⟩

/-- What is owed in flat mode is younger than its latency, so its tag is not the next one of its slot. -/
theorem FlatTagged.tagsFree (hlat : cfg.flatLatency ≤ 2 ^ 16) (h : FlatTagged cfg .issued c) : TagsFree c := by
  obtain ⟨m, sent, got, hm⟩ := h.owed
  obtain ⟨out, ht⟩ := hm.run.onTime
  intro j _ r hr hn
  have hempty := h.taken (.inr rfl)
  rw [hm.flat] at hr hempty
  change r ∈ (↑m.dram.held : Multiset (MemResponse Nat)) at hr
  rw [Multiset.mem_coe, DRAM.held, show m.dram.respQ = [] from hempty, List.nil_append] at hr
  obtain ⟨t, ht', rfl⟩ := List.mem_map.mp hr
  have hlate := ht.line.line.late t ht'
  have hin : t ∈ sent.map (DRAM.txnOf (dramLatency cfg.flatLatency)) := by
    rw [ht.line.split]
    exact List.mem_append_right _ ht'
  obtain ⟨x, hx, rfl⟩ := List.mem_map.mp hin
  obtain ⟨n, hle, hmod, hage⟩ := hm.age x hx j _ hn
  have hdue : (DRAM.txnOf (dramLatency cfg.flatLatency) x).readyAt = x.1 + dramLatency cfg.flatLatency - 1 := rfl
  have hlat' : dramLatency cfg.flatLatency ≤ 2 ^ 16 := by
    unfold dramLatency
    split <;> omega
  have hlag : Phase.issued.lag = 0 := rfl
  omega

end Stages

/-! ## Every run -/

section Runs

variable {cfg : SimConfig} {image : Nat → Byte} {frames : Bool} {inputs : Nat → Word}
  {histLen : Nat → Nat} {c : OoOCore (MemorySystem Nat)} {ph : Phase}

theorem Reach.flatTagged (hcfg : cfg.Accepted) (hlsq : cfg.lsqSize ≤ 2 ^ 32) (hflat : cfg.flatMemory = true)
    (h : Reach (OoOCore.init cfg frames inputs histLen (MemorySystem.init cfg image)) ph c) : FlatTagged cfg ph c := by
  have h₀ := init_replyOk hcfg hlsq frames inputs histLen (MemorySystem.init (τ := Nat) cfg image)
  have hall := h.stages
  clear h
  induction hall with
  | reset =>
      refine ⟨⟨FlatMemory.init cfg image, [], [], if_pos hflat, .reset, by simp⟩, by simp⟩
  | step hr _ hs ih =>
      have hk := Actions.replyOk hcfg (hr.reach.actions hcfg h₀.core) h₀
      exact hs.flatTagged hcfg hk (hr.reach.ok hcfg h₀.core).2 ih

/-- In flat mode with a latency of at most `2 ^ 16` no run ever dispatches into a slot whose next
generation is owed an answer. An answer is owed for no longer than the latency, and a slot takes a
cycle for each generation. -/
theorem tags_free_flat (hcfg : cfg.Accepted) (hlsq : cfg.lsqSize ≤ 2 ^ 32) (hflat : cfg.flatMemory = true)
    (hlat : cfg.flatLatency ≤ 2 ^ 16)
    (h : Reach (OoOCore.init cfg frames inputs histLen (MemorySystem.init cfg image)) .issued c) : TagsFree c :=
  (h.flatTagged hcfg hlsq hflat).tagsFree hlat

/-- So every dispatch asks for fresh tags. -/
theorem Reach.flatFresh (hcfg : cfg.Accepted) (hlsq : cfg.lsqSize ≤ 2 ^ 32) (hflat : cfg.flatMemory = true)
    (hlat : cfg.flatLatency ≤ 2 ^ 16)
    (h : Reach (OoOCore.init cfg frames inputs histLen (MemorySystem.init cfg image)) .issued c) : TagsFresh c := by
  have h₀ := init_replyOk hcfg hlsq frames inputs histLen (MemorySystem.init (τ := Nat) cfg image)
  have hk := Actions.replyOk hcfg (h.actions hcfg h₀.core) h₀
  exact ((h.flatTagged hcfg hlsq hflat).tagsFree hlat).tagsFresh hcfg hk ((h.ok hcfg h₀.core).2 (.inr rfl))

/-- In the fourteenth cycle two loads of the busy machine are in flight, and the port owes an answer
to each of them when dispatch looks for free slots. -/
theorem tags_free_flat_busy : ∃ c, Reach busyCore .issued c ∧
    c.lsq.ring.slots.filter (fun j => (c.lsq.at' j).isPending) = [1, 2] ∧
    flatDue c.msys = {loadTag 1 1, loadTag 2 1} ∧ TagsFree c := by
  obtain ⟨c, hr, hp⟩ := Reach.eval busyCore 109 .issued
    (p := fun c => decide (c.lsq.ring.slots.filter (fun j => (c.lsq.at' j).isPending) = [1, 2] ∧
      flatDue c.msys = {loadTag 1 1, loadTag 2 1})) (by decide +kernel)
  obtain ⟨hpend, hdue⟩ := of_decide_eq_true hp
  exact ⟨c, hr, hpend, hdue, tags_free_flat busyConfig_accepted (by decide) rfl (by decide) hr⟩

end Runs

end RvO3
