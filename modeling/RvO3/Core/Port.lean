import RvO3.Core.LsqSteps

/-!
# The core's side of memory

What each action does to the store buffer, the commit stream and the memory system
(`MemSide`), and what the core's correctness needs of its data port: `AnswersOnce` says
that every access is answered at most once and that nothing else is answered. `Recorded`
equips any memory system with a record of the accesses its data port accepted; nothing
reads the record.
-/

set_option autoImplicit false

namespace RvO3

open OoOCore

/-! ## Actions seen from memory -/

/-- The store of a buffer entry, as a commit record shows it. -/
def StoreBufEntry.asWrite (st : StoreBufEntry) : MemoryWrite := MemoryWrite.mk' st.addr st.data st.size

/-- The request that sends a buffer entry. -/
def StoreBufEntry.request (st : StoreBufEntry) (tag : Nat) : MemRequest Nat :=
  { addr := st.addr.toNat, size := st.size, isWrite := true, wdata := st.data, tag := tag }

/-- The request that sends a load. -/
def LsqEntry.request (le : LsqEntry) (tag : Nat) : MemRequest Nat :=
  { addr := le.addr.toNat, size := le.size, tag := tag }

/-- The read of the block that holds `pc`. -/
def OoOCore.blockRequest {M : Type} (c : OoOCore M) : MemRequest Nat :=
  { addr := (c.pc &&& ~~~(BitVec.ofNat 32 (c.cfg.fetchBlockBytes - 1))).toNat
    size := c.cfg.fetchBlockBytes, tag := 0 }

section Side

variable {M : Type} [MemPorts Nat M] {cfg : SimConfig} {c c' : OoOCore M}

/-- The store buffer after the store at `slot` was sent. -/
def sentBuffer (b : StoreBuffer) (slot txn : Nat) : StoreBuffer :=
  (b.setEntry slot { b.ring.e slot with txn := txn }).issue

/-- The store buffer, the commit stream and memory are left alone. -/
structure SideEq (c c' : OoOCore M) : Prop where
  msys : c'.msys = c.msys
  sb : c'.sb = c.sb
  commits : c'.commits = c.commits
  ctr : c'.sbTxnCtr = c.sbTxnCtr

/-- The core sends the access of the load at `slot`. -/
structure SendsLoad (c c' : OoOCore M) (slot : Nat) : Prop where
  mayGo : c.MayGo slot
  clear : c.verdict slot = .clear
  accepts : MemPorts.dCanAccept c.msys = true
  sends : c.sendLoad slot = .ok c'

theorem SendsLoad.action {slot : Nat} (h : SendsLoad c c' slot) : Action c c' :=
  .sendLoad h.mayGo h.clear h.accepts h.sends

/-- What an action does to the store buffer, the commit stream and memory. -/
inductive MemSide (c c' : OoOCore M) : Prop
  | quiet : SideEq c c' → MemSide c c'
  | commit {rec : CommitRecord} : rec.memoryWrite = none → c'.msys = c.msys → c'.sb = c.sb →
      c'.commits = c.commits ++ [rec] → c'.sbTxnCtr = c.sbTxnCtr → MemSide c c'
  | store {rec : CommitRecord} {addr data : Word} {size : Nat} : c.sb.ring.full = false →
      rec.memoryWrite = some (MemoryWrite.mk' addr data size) → c'.msys = c.msys →
      c'.sb = c.sb.push { addr := addr, size := size, data := data } →
      c'.commits = c.commits ++ [rec] → c'.sbTxnCtr = c.sbTxnCtr → MemSide c c'
  | response {r : MemResponse Nat} : MemPorts.dResponse c.msys = some r →
      c'.msys = MemPorts.dPop c.msys →
      c'.sb = (if r.tag.testBit 63 then storeAck c.sb r.tag else c.sb) →
      c'.commits = c.commits → c'.sbTxnCtr = c.sbTxnCtr → MemSide c c'
  | popAck : c.sb.ring.empty = false → c.sb.ring.head.acked = true → c'.msys = c.msys →
      c'.sb = c.sb.popHead → c'.commits = c.commits → c'.sbTxnCtr = c.sbTxnCtr → MemSide c c'
  | sendLoad {slot : Nat} : SendsLoad c c' slot →
      MemPorts.dAccess c.msys ((c.lsq.at' slot).request (loadTag slot (c.lsq.at' slot).gen)) =
        .ok c'.msys →
      c'.sb = c.sb → c'.commits = c.commits → c'.sbTxnCtr = c.sbTxnCtr → MemSide c c'
  | sendStore {slot : Nat} : c.sb.nextToIssue = some slot → MemPorts.dCanAccept c.msys = true →
      MemPorts.dAccess c.msys ((c.sb.ring.e slot).request (storeTag slot c.sbTxnCtr)) =
        .ok c'.msys →
      c'.sb = sentBuffer c.sb slot c.sbTxnCtr → c'.commits = c.commits →
      c'.sbTxnCtr = (c.sbTxnCtr + 1) % 2 ^ 32 → MemSide c c'
  | fetched {r : MemResponse Nat} : MemPorts.iResponse c.msys = some r →
      c'.msys = MemPorts.iPop c.msys → c'.sb = c.sb → c'.commits = c.commits →
      c'.sbTxnCtr = c.sbTxnCtr → MemSide c c'
  | fetch : MemPorts.iCanAccept c.msys = true → c.pc.toNat < MemPorts.memSize c.msys →
      MemPorts.iAccess c.msys c.blockRequest = .ok c'.msys → c'.sb = c.sb →
      c'.commits = c.commits → c'.sbTxnCtr = c.sbTxnCtr → MemSide c c'
  | tick : MemPorts.tick c.msys = .ok c'.msys → c'.sb = c.sb → c'.commits = c.commits →
      c'.sbTxnCtr = c.sbTxnCtr → MemSide c c'

/-- A system instruction writes no memory. -/
theorem SystemCommit.memoryWrite {rec : CommitRecord} (h : SystemCommit c c' rec) :
    rec.memoryWrite = none := by
  obtain ⟨ret, prf, pos, hal, ex, -, hc⟩ := h.frame
  unfold OoOCore.commitSystem at hc
  split at hc
  · dsimp only at hc
    split at hc
    · cases hc
    · cases hc
      rfl
  · cases hc
    rfl
  · cases hc
    rfl
  · cases hc
    rfl

section Frames

omit [MemPorts Nat M]

theorem SideEq.refl (c : OoOCore M) : SideEq c c := ⟨rfl, rfl, rfl, rfl⟩

theorem SideEq.trans {c'' : OoOCore M} (h : SideEq c c') (h' : SideEq c' c'') : SideEq c c'' :=
  ⟨h'.msys.trans h.msys, h'.sb.trans h.sb, h'.commits.trans h.commits, h'.ctr.trans h.ctr⟩

/-- A recovery leaves the side of memory alone. -/
theorem recover_side (hb : BackOk c) (seq : Nat) : SideEq c (c.recover seq) := by
  have hf := (recover_spec hb seq).frame
  exact ⟨(congrArg OoOCore.msys hf :), (congrArg OoOCore.sb hf :), (congrArg OoOCore.commits hf :),
    (congrArg OoOCore.sbTxnCtr hf :)⟩

theorem violationScan_side (hb : BackOk c) (store : LsqEntry) : SideEq c (c.violationScan store) := by
  cases hv : c.violationVictim store with
  | none =>
      rw [violationScan_none hv]
      exact .refl c
  | some slot =>
      rw [violationScan_eq hv]
      have hb' : BackOk (c.replayCall slot) := { hb with }
      have h := recover_side hb' ((c.lsq.at' slot).seq - 1)
      exact ⟨h.msys, h.sb, h.commits, h.ctr⟩

theorem finish_side (c : OoOCore M) (i : Nat) (op : FuOp) (slot : OutSlot) :
    SideEq c ((c.complete i op).dropOut slot) := by
  cases slot with
  | unit n =>
      unfold OoOCore.dropOut OoOCore.complete
      exact ⟨rfl, rfl, rfl, rfl⟩
  | load n =>
      unfold OoOCore.dropOut OoOCore.complete
      exact ⟨rfl, rfl, rfl, rfl⟩

theorem mispredictCall_side (c : OoOCore M) (slot : OutSlot) (e : RobEntry) :
    SideEq (c.dropOut slot) (c.mispredictCall slot e) := by
  cases slot with
  | unit n =>
      unfold OoOCore.mispredictCall OoOCore.dropOut
      exact ⟨rfl, rfl, rfl, rfl⟩
  | load n =>
      unfold OoOCore.mispredictCall OoOCore.dropOut
      exact ⟨rfl, rfl, rfl, rfl⟩

theorem writebackOne_side (hb : BackOk c) (hne : c.wbReady ≠ []) : SideEq c c.writebackOne.1 := by
  obtain ⟨slot, hs, ⟨heq, -⟩ | ⟨heq, -⟩⟩ := writebackOne_cases hne
  · rw [heq]
    exact finish_side _ _ _ _
  · rw [heq, mispredict_eq]
    have hb' := (hb.finishResult hs).mispredictCall
      (resolve (c.rob.e (c.outAt slot).robIdx) (c.outAt slot))
    have h := ((finish_side c c.oldestReady (c.outAt slot) slot).trans
      (mispredictCall_side _ slot _)).trans (recover_side hb' (c.outAt slot).seq)
    exact ⟨h.msys, h.sb, h.commits, h.ctr⟩

end Frames

/-- An instruction that is committed is a store with room in the buffer, or no store at all. -/
theorem OpCommit.memSide (hs : OpCommit c c') : MemSide c c' := by
  have hroom := hs.room
  have hf := hs.frame
  by_cases hst : c.rob.head.isMem = true ∧ c.lsq.ring.head.isStore = true
  · rw [if_pos hst] at hf
    refine @MemSide.store _ _ _ _ c.opRecord _ _ _ ?_ ?_ (congrArg OoOCore.msys hf :) (congrArg OoOCore.sb hf :)
      (congrArg OoOCore.commits hf :) (congrArg OoOCore.sbTxnCtr hf :)
    · rw [← Bool.not_eq_true]
      exact fun hfull => hroom ⟨hst.1, hst.2, hfull⟩
    · exact if_pos hst
  · rw [if_neg hst] at hf
    exact @MemSide.commit _ _ _ _ c.opRecord (if_neg hst) (congrArg OoOCore.msys hf :)
      (congrArg OoOCore.sb hf :) (congrArg OoOCore.commits hf :)
      (congrArg OoOCore.sbTxnCtr hf :)

theorem Action.memSide (ha : Action c c') (hb : BackOk c) : MemSide c c' := by
  cases ha with
  | commit _ _ _ hc =>
      rcases commitOne_cases hc with ⟨rfl, -⟩ | ⟨rec, hs, -⟩ | ⟨hs, -⟩
      · exact .quiet ⟨rfl, rfl, rfl, rfl⟩
      · -- a system instruction writes no memory
        have hw := hs.memoryWrite
        obtain ⟨ret, prf, pos, hal, ex, rfl, -⟩ := hs.frame
        exact .commit hw rfl rfl rfl rfl
      · exact hs.memSide
  | writeback hne => exact .quiet (writebackOne_side hb hne)
  | @drain k hk =>
      unfold OoOCore.aguDrainOne
      dsimp only
      split
      · have h := violationScan_side (hb.fillOne hk)
          ((c.fillOne k).lsq.at' (c.agus[k]?.getD default).out.lsqIdx)
        exact .quiet ⟨h.msys, h.sb, h.commits, h.ctr⟩
      · exact .quiet ⟨rfl, rfl, rfl, rfl⟩
  | @response r hr =>
      unfold OoOCore.dataResponse
      -- the top bit of the tag tells an acknowledgement from a load's data
      by_cases ht : r.tag.testBit 63 = true
      · rw [if_pos ht]
        exact .response hr rfl (if_pos ht).symm rfl rfl
      · rw [if_neg ht]
        exact .response hr rfl (if_neg ht).symm rfl rfl
  | popAck he ha => exact .popAck he ha rfl rfl rfl rfl
  | @capture slot hj =>
      unfold OoOCore.captureStore
      dsimp only
      split
      · split <;> exact .quiet ⟨rfl, rfl, rfl, rfl⟩
      · exact .quiet ⟨rfl, rfl, rfl, rfl⟩
  | @surface slot k _ _ =>
      unfold OoOCore.surfaceLoad
      dsimp only
      split
      · split <;> exact .quiet ⟨rfl, rfl, rfl, rfl⟩
      · exact .quiet ⟨rfl, rfl, rfl, rfl⟩
  | zero _ _ => exact .quiet ⟨rfl, rfl, rfl, rfl⟩
  | forward _ _ => exact .quiet ⟨rfl, rfl, rfl, rfl⟩
  | @sendLoad _ slot hg hv hacc hs =>
      have hsend : SendsLoad c c' slot := ⟨hg, hv, hacc, hs⟩
      unfold OoOCore.sendLoad at hs
      dsimp only at hs
      split at hs
      · cases hs
      · rename_i m hm
        cases hs
        exact .sendLoad hsend hm rfl rfl rfl
  | @sendStore _ slot hn hacc hs =>
      unfold OoOCore.sendStore at hs
      dsimp only at hs
      split at hs
      · cases hs
      · rename_i m hm
        cases hs
        -- the slot that is sent is the next to issue
        have hslot : c.sb.nextIssueSlot = slot := by
          unfold StoreBuffer.nextToIssue at hn
          split at hn
          · exact Option.some.inj hn
          · cases hn
        rw [hslot] at hm
        exact .sendStore hn hacc hm rfl rfl rfl
  | @issue slot u _ _ _ => cases u <;> exact .quiet ⟨rfl, rfl, rfl, rfl⟩
  | @dispatch first _ =>
      rcases dispatchOne_cases c first with heq | ⟨-, heq⟩ | ⟨-, heq⟩
      · rw [heq]
        exact .quiet ⟨rfl, rfl, rfl, rfl⟩
      · rw [heq]
        exact .quiet ⟨rfl, rfl, rfl, rfl⟩
      · rw [heq]
        exact .quiet ⟨rfl, rfl, rfl, rfl⟩
  | @consume r hr _ =>
      unfold OoOCore.consume OoOCore.processFetch
      dsimp only
      split
      · exact .fetched hr rfl rfl rfl rfl
      · -- the instructions of the block are queued, which the memory side does not see
        obtain ⟨pred, q, pc, h⟩ := quiet_fetchLoop r.rline
          (c.cfg.fetchBlockBytes / 4 - (c.fFetchPc - c.fBlock).toNat / 4)
          ((c.fFetchPc - c.fBlock).toNat / 4) { c with fOutstanding := false }
        rw [h]
        exact .fetched hr rfl rfl rfl rfl
  | request _ _ _ _ hin hacc hm => exact .fetch hacc hin hm rfl rfl rfl
  | redirect =>
      unfold OoOCore.applyRedirect
      split <;> exact .quiet ⟨rfl, rfl, rfl, rfl⟩
  | tickUnits => exact .quiet ⟨rfl, rfl, rfl, rfl⟩
  | tickMem hm => exact .tick hm rfl rfl rfl

end Side

/-! ## A data port that answers each access at most once -/

/-- `due` are the tags of the data-port accesses that have not been answered, in the
states `ok` that the port reaches when it is used as `canAccept` allows. -/
structure AnswersOnce (M : Type) [MemPorts Nat M] where
  ok : M → Prop
  due : M → Multiset Nat
  access : ∀ {m m' : M} {req : MemRequest Nat}, ok m → MemPorts.dCanAccept m = true →
    MemPorts.dAccess m req = .ok m' → ok m' ∧ due m' = req.tag ::ₘ due m
  response : ∀ {m : M} {r : MemResponse Nat}, ok m → MemPorts.dResponse m = some r →
    ok (MemPorts.dPop m) ∧ due m = r.tag ::ₘ due (MemPorts.dPop m)
  fetch : ∀ {m m' : M} {req : MemRequest Nat}, ok m → MemPorts.iCanAccept m = true →
    MemPorts.iAccess m req = .ok m' → ok m' ∧ due m' = due m
  fetched : ∀ {m : M} {r : MemResponse Nat}, ok m → MemPorts.iResponse m = some r →
    ok (MemPorts.iPop m) ∧ due (MemPorts.iPop m) = due m
  tick : ∀ {m m' : M}, ok m → MemPorts.tick m = .ok m' → ok m' ∧ due m' = due m

/-- The answers a flat memory still owes at its data port. -/
def flatDue : MemorySystem Nat → Multiset Nat
  | .flat m => ((m.dram.held.map (·.tag) : List Nat) : Multiset Nat)
  | .cached _ => 0

theorem DRAM.held_access {τ : Type} {d d' : DRAM τ} {backing backing' : Memory} {req : MemRequest τ}
    (h : d.access backing req = .ok (d', backing')) :
    (d'.held.map (·.tag) : Multiset τ) = req.tag ::ₘ (d.held.map (·.tag) : Multiset τ) := by
  unfold DRAM.access at h
  split at h
  · cases h
  · rename_i m r hp
    have htag : r.tag = req.tag := by
      unfold DRAM.perform at hp
      dsimp only at hp
      split at hp
      · split at hp <;> split at hp <;> cases hp <;> rfl
      · split at hp
        · cases hp
        · split at hp <;> cases hp <;> rfl
    dsimp only at h
    -- the response joins the queue at latency 1 and the accesses in flight otherwise
    split at h
    · cases h
      rw [← htag, Multiset.cons_coe, Multiset.coe_eq_coe]
      simp only [DRAM.held, List.map_append, List.map_cons, List.append_assoc, List.singleton_append]
      exact List.perm_middle
    · cases h
      rw [← htag, Multiset.cons_coe, Multiset.coe_eq_coe]
      simp only [DRAM.held, List.map_append, List.map_cons, List.map_nil, ← List.append_assoc]
      exact List.perm_append_singleton _ _

theorem DRAM.held_pop {τ : Type} {d : DRAM τ} {r : MemResponse τ} (h : d.respQ.head? = some r) :
    d.held = r :: d.popResponse.held := by
  obtain ⟨rest, hr⟩ := List.head?_eq_some_iff.mp h
  simp [DRAM.held, DRAM.popResponse, hr]

/-- A flat memory answers each access at most once. -/
def flatAnswers : AnswersOnce (MemorySystem Nat) where
  ok s := ∃ m, s = .flat m
  due := flatDue
  access := by
    rintro _ s' req ⟨m, rfl⟩ - h
    simp only [MemPorts.dAccess, MemorySystem.dAccess, FlatMemory.dAccess] at h
    split at h
    · cases h
    · rename_i m' hm
      cases h
      split at hm
      · cases hm
      · rename_i d backing hd
        cases hm
        exact ⟨⟨_, rfl⟩, DRAM.held_access hd⟩
  response := by
    rintro _ r ⟨m, rfl⟩ h
    have hheld : m.dram.held = r :: m.dram.popResponse.held := DRAM.held_pop h
    refine ⟨⟨_, rfl⟩, ?_⟩
    simp only [flatDue, MemPorts.dPop, MemorySystem.dPop]
    rw [hheld, List.map_cons, Multiset.cons_coe]
  fetch := by
    rintro _ s' req ⟨m, rfl⟩ - h
    simp only [MemPorts.iAccess, MemorySystem.iAccess, FlatMemory.iAccess] at h
    split at h
    · cases h
    · rename_i m' hm
      cases h
      split at hm
      · cases hm
      · cases hm
        exact ⟨⟨_, rfl⟩, rfl⟩
  fetched := by
    rintro _ r ⟨m, rfl⟩ -
    exact ⟨⟨_, rfl⟩, rfl⟩
  tick := by
    rintro _ s' ⟨m, rfl⟩ h
    cases h
    refine ⟨⟨_, rfl⟩, ?_⟩
    simp only [flatDue, FlatMemory.tick, DRAM.held_tick]

/-- A memory system with the accesses its data port has accepted, oldest first. -/
structure Recorded (M : Type) where
  port : M
  sent : List (MemRequest Nat) := []

instance {M : Type} [MemPorts Nat M] : MemPorts Nat (Recorded M) where
  iCanAccept m := MemPorts.iCanAccept m.port
  iAccess m req :=
    match MemPorts.iAccess m.port req with
    | .ok p => .ok { m with port := p }
    | .error e => .error e
  iResponse m := MemPorts.iResponse m.port
  iPop m := { m with port := MemPorts.iPop m.port }
  dCanAccept m := MemPorts.dCanAccept m.port
  dAccess m req :=
    match MemPorts.dAccess m.port req with
    | .ok p => .ok ⟨p, m.sent ++ [req]⟩
    | .error e => .error e
  dResponse m := MemPorts.dResponse m.port
  dReady m := MemPorts.dReady m.port
  dPop m := { m with port := MemPorts.dPop m.port }
  tick m :=
    match MemPorts.tick m.port with
    | .ok p => .ok { m with port := p }
    | .error e => .error e
  peek8 m := MemPorts.peek8 m.port
  memSize m := MemPorts.memSize m.port

section Recorded

variable {M : Type} [MemPorts Nat M] {m m' : Recorded M} {req : MemRequest Nat}

theorem Recorded.dAccess_ok (h : MemPorts.dAccess m req = .ok m') :
    MemPorts.dAccess m.port req = .ok m'.port ∧ m'.sent = m.sent ++ [req] := by
  simp only [MemPorts.dAccess] at h
  split at h
  · cases h
    exact ⟨by assumption, rfl⟩
  · cases h

theorem Recorded.iAccess_ok (h : MemPorts.iAccess m req = .ok m') :
    MemPorts.iAccess m.port req = .ok m'.port ∧ m'.sent = m.sent := by
  simp only [MemPorts.iAccess] at h
  split at h
  · cases h
    exact ⟨by assumption, rfl⟩
  · cases h

theorem Recorded.tick_ok (h : MemPorts.tick m = .ok m') :
    MemPorts.tick m.port = .ok m'.port ∧ m'.sent = m.sent := by
  simp only [MemPorts.tick] at h
  split at h
  · cases h
    exact ⟨by assumption, rfl⟩
  · cases h

end Recorded

end RvO3
