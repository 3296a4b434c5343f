import RvO3.Core.FetchSide
import RvO3.Core.TagAge

/-!
# The words that the core runs

`FrontOk`: every word on its way through the core (in the fetch queue, in the ROB, in the commit
stream) is an aligned word of memory, and the one of the image unless a committed store touched
it. Only committed stores are ever sent to memory, so nothing else can come between the image and
a fetch; a store that is committed may still be too late for one, and then the core runs the old
word.

A word that the BTB knows stands where a branch was committed. So a word that no store touched is
predicted taken only if it is a branch (`FrontOk.guided`).
-/

set_option autoImplicit false

namespace RvO3

open OoOCore

/-! ## The outstanding block -/

/-- None of the stores touches the byte at `a`. -/
def Untouched (ws : List MemoryWrite) (a : Nat) : Prop := ∀ w ∈ ws, w.put a = none

/-- The read of the outstanding block. -/
def OoOCore.heldRequest {M : Type} (c : OoOCore M) : MemRequest Nat :=
  { addr := c.fBlock.toNat, size := c.cfg.fetchBlockBytes, tag := 0 }

section Port

variable {cfg : SimConfig} {image : Nat → Byte} {c c' : OoOCore (MemorySystem Nat)}

/-- The fetch port was asked for the outstanding block and nothing else, and answers with the bytes
of the image where no committed store has been. -/
structure FetchPort (cfg : SimConfig) (image : Nat → Byte) (c : OoOCore (MemorySystem Nat))
    (same : Nat → Prop) : Prop where
  untouched : ∀ a, Untouched (archStores c.commits) a → same a
  port : c.msys.Ok cfg.memBytes cfg.grain (fun _ => True) same image
    (if c.fOutstanding then {c.heldRequest} else 0)

/-- A step that sends no store keeps what the port promises. -/
theorem FetchPort.held {same : Nat → Prop} (h : FetchPort cfg image c same) (hh : FetchHeld c c')
    (hc : ∃ new, archStores c'.commits = archStores c.commits ++ new)
    (hm : ∀ {asked : Multiset (MemRequest Nat)},
      c.msys.Ok cfg.memBytes cfg.grain (fun _ => True) same image asked →
        c'.msys.Ok cfg.memBytes cfg.grain (fun _ => True) same image asked) : FetchPort cfg image c' same := by
  obtain ⟨new, hnew⟩ := hc
  refine ⟨fun a ha => h.untouched a fun w hw => ha w ?_, ?_⟩
  · rw [hnew]
    exact List.mem_append_left _ hw
  · have hreq : c'.heldRequest = c.heldRequest := by
      unfold OoOCore.heldRequest
      rw [hh.block, hh.cfg]
    rw [hh.outstanding, hreq]
    exact hm h.port

/-- The store that the buffer sends is committed. -/
theorem Traced.mem_archStores {evs : List (PortEvent Nat)} (h : Traced cfg image c evs) {slot : Nat}
    (hn : c.sb.nextToIssue = some slot) : (c.sb.ring.e slot).asWrite ∈ archStores c.commits := by
  obtain ⟨gone, hcom, -⟩ := h.stores
  obtain ⟨-, -, hslots⟩ := StoreBuffer.nextToIssue_some hn
  rw [hcom]
  apply List.mem_append_right
  rw [StoreBuffer.writes]
  refine List.mem_map_of_mem (Ring.mem_entries.mpr ⟨slot, ?_, rfl⟩)
  rw [hslots]
  exact List.mem_append_right _ List.mem_cons_self

/-- What an action does to the commit stream. -/
theorem Action.record {M : Type} [MemPorts Nat M] {c c' : OoOCore M} (ha : Action c c') (hb : BackOk c) :
    c'.commits = c.commits ∨ c.rob.empty = false ∧ ∃ rec : CommitRecord, rec.pc = c.rob.head.pc ∧
      rec.instruction = c.rob.head.ins.raw ∧ c'.commits = c.commits ++ [rec] := by
  rcases ha.commits_or hb with ⟨hne, -, b, hc⟩ | hsame
  · rcases commitOne_cases hc with ⟨rfl, -⟩ | ⟨rec, hs, -⟩ | ⟨hs, -⟩
    · exact .inl rfl
    · obtain ⟨ret, prf, pos, hal, ex, rfl, hsys⟩ := hs.frame
      obtain ⟨hpc, hins⟩ := commitSystem_record hsys
      exact .inr ⟨hne, rec, hpc, hins, rfl⟩
    · exact .inr ⟨hne, c.opRecord, rfl, rfl, (congrArg OoOCore.commits hs.frame :)⟩
  · exact .inl hsame

/-- The commit stream only grows. -/
theorem Action.commits_append {M : Type} [MemPorts Nat M] {c c' : OoOCore M} (ha : Action c c') (hb : BackOk c) :
    ∃ new, c'.commits = c.commits ++ new := by
  rcases ha.record hb with hsame | ⟨-, rec, -, -, hc⟩
  · exact ⟨[], by rw [hsame, List.append_nil]⟩
  · exact ⟨[rec], hc⟩

theorem Action.archStores_append (ha : Action c c') (hb : BackOk c) :
    ∃ new, archStores c'.commits = archStores c.commits ++ new := by
  obtain ⟨new, hnew⟩ := ha.commits_append hb
  refine ⟨archStores new, ?_⟩
  rw [hnew]
  exact List.filterMap_append

/-- The answer to the outstanding block, when it comes. -/
theorem FetchPort.answer {same : Nat → Prop} (h : FetchPort cfg image c same) (ho : c.fOutstanding = true)
    {r : MemResponse Nat} (hr : c.msys.iQueue.head? = some r) :
    Cache.Answers same image c.heldRequest r ∧
      c.msys.iPop.Ok cfg.memBytes cfg.grain (fun _ => True) same image 0 := by
  have hport := h.port
  rw [if_pos ho] at hport
  obtain ⟨q, rest, hasked, hans, hok, -⟩ := hport.iPop hr
  obtain ⟨rfl, rfl⟩ := Multiset.cons_eq_cons.mp hasked |>.resolve_right fun h => by
    obtain ⟨-, cs, hnil, -⟩ := h
    exact absurd hnil (Multiset.zero_ne_cons)
  exact ⟨hans, hok⟩

/-- Consuming a block takes it from the port. -/
theorem consume_port {M : Type} [MemPorts Nat M] (c : OoOCore M) (r : MemResponse Nat) :
    (c.consume r).fOutstanding = false ∧ (c.consume r).msys = MemPorts.iPop c.msys ∧
      (c.consume r).commits = c.commits := by
  unfold OoOCore.consume OoOCore.processFetch
  dsimp only
  split
  · exact ⟨rfl, rfl, rfl⟩
  · obtain ⟨pred, q, pc, h⟩ := quiet_fetchLoop r.rline
      (c.cfg.fetchBlockBytes / 4 - (c.fFetchPc - c.fBlock).toNat / 4)
      ((c.fFetchPc - c.fBlock).toNat / 4) { c with fOutstanding := false }
    rw [h]
    exact ⟨rfl, rfl, rfl⟩

theorem Action.fetchPort {evs : List (PortEvent Nat)} (hcfg : cfg.Accepted) (hfit : cfg.SizesFit)
    (hline : cfg.flatMemory = false → cfg.fetchBlockBytes ∣ cfg.memBytes ∨ 2 ^ 32 ≤ cfg.memBytes)
    (ha : Action c c') (hc : AccessesOk cfg cfg.memBytes c) (ht : Traced cfg image c evs) {same : Nat → Prop}
    (h : FetchPort cfg image c same) : ∃ same', FetchPort cfg image c' same' := by
  have htop : cfg.addressable ≤ 2 ^ 32 := Nat.min_le_right _ _
  have hgrid : MemorySystem.Grid cfg.fetchBlockBytes cfg.addressable cfg.grain fun _ => True :=
    MemorySystem.grid hcfg hfit htop fun _ _ => trivial
  have hb := hc.core.back
  have hgrow := ha.archStores_append hb
  cases ha.fetchSide hb with
  | quiet hm hh =>
      refine ⟨same, h.held hh hgrow fun hok => ?_⟩
      rw [hm]
      exact hok
  | response hr hm hh =>
      refine ⟨same, h.held hh hgrow fun hok => ?_⟩
      rw [hm]
      exact (hok.dPop hr).1
  | load hs hm hh =>
      refine ⟨same, h.held hh hgrow fun hok => ?_⟩
      exact (hok.dAccess hgrid hs.accepts (hc.loadScalar hs.mayGo _) hm).1.mono fun a =>
        ⟨fun ha => ⟨ha, fun hw => Bool.false_ne_true hw.1⟩, fun ha => ha.1⟩
  | @store slot hn hacc hm hh =>
      have hscalar := hc.storeScalar hn (storeTag slot c.sbTxnCtr)
      have hok := (h.port.dAccess hgrid hacc hscalar hm).1
      have hreq : c'.heldRequest = c.heldRequest := by
        unfold OoOCore.heldRequest
        rw [hh.block, hh.cfg]
      rw [← hh.outstanding, ← hreq] at hok
      refine ⟨_, fun a ha => ⟨h.untouched a fun w hw => ha w ?_, fun hw => ?_⟩, hok⟩
      · obtain ⟨new, hnew⟩ := hgrow
        rw [hnew]
        exact List.mem_append_left _ hw
      · -- the store that was sent is one of the committed ones
        obtain ⟨new, hnew⟩ := hgrow
        have hmem : (c.sb.ring.e slot).asWrite ∈ archStores c'.commits := by
          rw [hnew]
          exact List.mem_append_left _ (ht.mem_archStores hn)
        exact MemoryWrite.put_eq_none.mp (ha _ hmem) hw.2
  | tick hm hh => exact ⟨same, h.held hh hgrow fun hok => (hok.tick hm).1⟩
  | @consume r hr ho heq =>
      obtain ⟨hout, hm, hcs⟩ := consume_port c r
      subst heq
      refine ⟨same, fun a ha => h.untouched a (hcs ▸ ha), ?_⟩
      rw [if_neg (hout ▸ Bool.false_ne_true), hm]
      exact (h.answer ho hr).2
  | @request m ho hroom hpc hacc hm heq =>
      have hin := hc.blockInside hcfg hline ht.run hpc hm
      have hport := h.port
      rw [if_neg (ho ▸ Bool.false_ne_true)] at hport
      subst heq
      refine ⟨same, h.untouched, ?_⟩
      exact (hport.iAccess hgrid hacc (blockRequest_block hcfg hc.core.config hin) hm).1

end Port

/-! ## Words -/

/-- The word of the image at `pc`. -/
def imageWord (image : Nat → Byte) (pc : Word) : Word := scalarOf 4 fun b => image (pc.toNat + b)

/-- An aligned word of memory, which is the one of the image if none of the stores touches it. -/
structure WordOk (image : Nat → Byte) (memBytes : Nat) (ws : List MemoryWrite) (pc raw : Word) : Prop where
  aligned : pc.toNat % 4 = 0
  inside : pc.toNat + 4 ≤ memBytes
  original : (∀ b < 4, Untouched ws (pc.toNat + b)) → raw = imageWord image pc

/-- A branch was committed at `pc`. -/
def BranchAt (rs : List CommitRecord) (pc : Word) : Prop :=
  ∃ r ∈ rs, r.pc = pc ∧ fuKindOf (decode r.instruction).op = .BRANCH

/-- A word that waits for dispatch, with a guess for which the BTB had a reason. -/
structure FetchedOk (image : Nat → Byte) (memBytes : Nat) (rs : List CommitRecord) (f : Fetched) : Prop where
  word : WordOk image memBytes (archStores rs) f.pc f.raw
  taken : f.predTaken = true → BranchAt rs f.pc

section Words

variable {image : Nat → Byte} {memBytes : Nat} {ws ws' : List MemoryWrite} {rs new : List CommitRecord}
  {pc raw : Word} {f : Fetched}

/-- More stores promise less. -/
theorem WordOk.mono (h : WordOk image memBytes ws pc raw) (hw : ∀ w ∈ ws, w ∈ ws') :
    WordOk image memBytes ws' pc raw :=
  ⟨h.aligned, h.inside, fun hu => h.original fun b hb w hm => hu b hb w (hw w hm)⟩

theorem archStores_mem_append {w : MemoryWrite} (h : w ∈ archStores rs) : w ∈ archStores (rs ++ new) := by
  rw [archStores, List.filterMap_append]
  exact List.mem_append_left _ h

theorem BranchAt.append (h : BranchAt rs pc) : BranchAt (rs ++ new) pc := by
  obtain ⟨r, hr, hpc⟩ := h
  exact ⟨r, List.mem_append_left _ hr, hpc⟩

theorem FetchedOk.append (h : FetchedOk image memBytes rs f) : FetchedOk image memBytes (rs ++ new) f :=
  ⟨h.word.mono fun _ => archStores_mem_append, fun ht => (h.taken ht).append⟩

end Words

section Block

variable {cfg : SimConfig} {image : Nat → Byte} {c : OoOCore (MemorySystem Nat)} {r : MemResponse Nat}
  {same : Nat → Prop}

/-- The words of an answer to the outstanding block. -/
theorem FetchPort.blockWord (hcfg : cfg.Accepted) (hmem : cfg.memBytes < 2 ^ 32) (hconf : c.cfg = cfg)
    (h : FetchPort cfg image c same) (hans : Cache.Answers same image c.heldRequest r)
    (hal : c.fBlock.toNat % 4 = 0) (hin : c.fBlock.toNat + cfg.fetchBlockBytes ≤ cfg.memBytes) {i : Nat}
    (hi : i * 4 + 4 ≤ cfg.fetchBlockBytes) :
    WordOk image cfg.memBytes (archStores c.commits) (c.fBlock + BitVec.ofNat 32 (i * 4))
      (OoOCore.blockWord r.rline i) := by
  have hge := hcfg.fetch_ge
  have hpc : (c.fBlock + BitVec.ofNat 32 (i * 4)).toNat = c.fBlock.toNat + i * 4 := by
    rw [BitVec.toNat_add, BitVec.toNat_ofNat, Nat.mod_eq_of_lt (show i * 4 < 2 ^ 32 by omega)]
    exact Nat.mod_eq_of_lt (by omega)
  have hsize : c.heldRequest.size = cfg.fetchBlockBytes := by
    rw [← hconf]
    rfl
  refine ⟨by omega, by omega, fun hu => ?_⟩
  unfold OoOCore.blockWord imageWord
  apply scalarOf_congr
  intro b hb
  have hbyte := hans.bytes (i * 4 + b) (by omega) (h.untouched _ fun w hw => by
    have hno := hu b hb w hw
    rw [hpc, Nat.add_assoc] at hno
    exact hno)
  rw [MemResponse.byteOf, if_neg (by omega)] at hbyte
  rw [hbyte, hpc, Nat.add_assoc]
  rfl

/-- What queueing the words of a block keeps. -/
theorem fetchLoop_words {rs : List CommitRecord} {memBytes : Nat} (line : Line) (n : Nat) :
    ∀ (idx : Nat) {c : OoOCore (MemorySystem Nat)}, c.fetchQ.Wf → c.fetchQ.n + n ≤ c.fetchQ.capacity →
    (∀ x, c.pred.Knows x → BranchAt rs x) →
    (∀ i, idx ≤ i → i < idx + n → WordOk image memBytes (archStores rs) (c.fBlock + BitVec.ofNat 32 (i * 4))
      (OoOCore.blockWord line i)) →
    (∀ f ∈ c.fetchQ.entries, FetchedOk image memBytes rs f) →
    (fetchLoop line n idx c).fetchQ.Wf ∧ (fetchLoop line n idx c).fetchQ.capacity = c.fetchQ.capacity ∧
      ∀ f ∈ (fetchLoop line n idx c).fetchQ.entries, FetchedOk image memBytes rs f := by
  induction n with
  | zero => exact fun idx c hq _ _ _ hf => ⟨hq, rfl, hf⟩
  | succ n ih =>
      intro idx c hq hroom hk hw hf
      have hfull : c.fetchQ.full = false := by
        rw [Ring.full, beq_eq_false_iff_ne]
        omega
      have hq' := hq.push hfull (c.fetchWord line idx)
      have hent : (c.fetchOne line idx).fetchQ.entries = c.fetchQ.entries ++ [c.fetchWord line idx] :=
        Ring.entries_push hq hfull _
      -- a word is guessed taken when the BTB knows it, and looking adds nothing to what it knows
      have hk' : ∀ x, (c.fetchOne line idx).pred.Knows x → BranchAt rs x := fun x hx => hk x (fetchOne_knows line idx hx)
      have hnew : FetchedOk image memBytes rs (c.fetchWord line idx) := by
        refine ⟨hw idx (Nat.le_refl _) (by omega), fun ht => hk _ ?_⟩
        change (c.predictAt (c.fBlock + BitVec.ofNat 32 (idx * 4))).2.taken = true at ht
        unfold OoOCore.predictAt at ht
        split at ht
        · exact Predictor.predict_taken ht
        · cases ht
      have hf' : ∀ f ∈ (c.fetchOne line idx).fetchQ.entries, FetchedOk image memBytes rs f := by
        intro f hm
        rw [hent] at hm
        rcases List.mem_append.mp hm with hm | hm
        · exact hf f hm
        · rw [List.mem_singleton.mp hm]
          exact hnew
      unfold fetchLoop
      dsimp only
      split
      · exact ⟨hq', rfl, hf'⟩
      · apply ih (idx + 1) hq' ?_ hk' ?_ hf'
        · show c.fetchQ.n + 1 + n ≤ c.fetchQ.capacity
          omega
        · exact fun i hle hlt => hw i (by omega) (by omega)

end Block

/-! ## The invariant -/

section Front

variable {cfg : SimConfig} {image : Nat → Byte} {c c' : OoOCore (MemorySystem Nat)}

/-- Where the words of a core come from: those in the queue, those in the ROB and those that have
been committed. -/
structure FrontOk (cfg : SimConfig) (image : Nat → Byte) (c : OoOCore (MemorySystem Nat)) : Prop where
  queue : c.fetchQ.Wf
  capacity : c.fetchQ.capacity = c.cfg.fetchQSize
  room : c.fOutstanding = true → c.fStale = false →
    c.fetchQ.n + c.cfg.fetchBlockBytes / 4 ≤ c.fetchQ.capacity
  block : c.fOutstanding = true → c.fBlock.toNat % 4 = 0 ∧ c.fBlock.toNat + cfg.fetchBlockBytes ≤ cfg.memBytes
  port : ∃ same, FetchPort cfg image c same
  queued : ∀ f ∈ c.fetchQ.entries, FetchedOk image cfg.memBytes c.commits f
  live : ∀ i ∈ c.rob.slots, WordOk image cfg.memBytes (archStores c.commits) (c.rob.e i).pc (c.rob.e i).ins.raw
  retired : ∀ rs r rest, c.commits = rs ++ r :: rest →
    WordOk image cfg.memBytes (archStores rs) r.pc r.instruction
  btb : ∀ x, c.pred.Knows x → BranchAt c.commits x

/-- The words that wait stay in order as they leave. -/
theorem QueueKeeps.entries {q q' : Ring Fetched} (h : QueueKeeps q q') (hq : q.Wf) :
    q'.Wf ∧ q'.capacity = q.capacity ∧ q'.n ≤ q.n ∧ ∀ f ∈ q'.entries, f ∈ q.entries := by
  cases h with
  | same heq =>
      rw [heq]
      exact ⟨hq, rfl, Nat.le_refl _, fun _ hf => hf⟩
  | popHead _ heq =>
      rw [heq]
      refine ⟨hq.popHead, rfl, Nat.sub_le _ _, fun f hf => ?_⟩
      rw [Ring.entries_popHead hq] at hf
      exact List.mem_of_mem_tail hf
  | clear heq =>
      rw [heq]
      refine ⟨hq.clear, rfl, Nat.zero_le _, fun f hf => ?_⟩
      rw [Ring.entries, Ring.slots_clear] at hf
      cases hf

/-- The words of a step that leaves the outstanding block alone. -/
theorem FrontOk.queue_held (h : FrontOk cfg image c) (hh : FetchHeld c c')
    (hc : ∃ new, c'.commits = c.commits ++ new) :
    c'.fetchQ.Wf ∧ c'.fetchQ.capacity = c'.cfg.fetchQSize ∧
      (c'.fOutstanding = true → c'.fStale = false →
        c'.fetchQ.n + c'.cfg.fetchBlockBytes / 4 ≤ c'.fetchQ.capacity) ∧
      (c'.fOutstanding = true →
        c'.fBlock.toNat % 4 = 0 ∧ c'.fBlock.toNat + cfg.fetchBlockBytes ≤ cfg.memBytes) ∧
      ∀ f ∈ c'.fetchQ.entries, FetchedOk image cfg.memBytes c'.commits f := by
  obtain ⟨hq, hcap, hn, hmem⟩ := hh.queue.entries h.queue
  obtain ⟨new, hnew⟩ := hc
  refine ⟨hq, ?_, fun ho hst => ?_, fun ho => ?_, fun f hf => ?_⟩
  · rw [hcap, hh.cfg]
    exact h.capacity
  · rw [hh.outstanding] at ho
    rw [hcap, hh.cfg]
    exact Nat.le_trans (Nat.add_le_add_right hn _) (h.room ho (hh.fresh hst))
  · rw [hh.outstanding] at ho
    rw [hh.block]
    exact h.block ho
  · rw [hnew]
    exact (h.queued f (hmem f hf)).append

/-- The words of a block that arrives. -/
theorem FrontOk.queue_consume (hcfg : cfg.Accepted) (hmem : cfg.memBytes < 2 ^ 32) (hconf : c.cfg = cfg)
    (h : FrontOk cfg image c) {r : MemResponse Nat} (hr : c.msys.iQueue.head? = some r)
    (ho : c.fOutstanding = true) :
    (c.consume r).fetchQ.Wf ∧ (c.consume r).fetchQ.capacity = c.fetchQ.capacity ∧
      ∀ f ∈ (c.consume r).fetchQ.entries, FetchedOk image cfg.memBytes c.commits f := by
  obtain ⟨same, hport⟩ := h.port
  obtain ⟨hans, -⟩ := hport.answer ho hr
  obtain ⟨hal, hin⟩ := h.block ho
  unfold OoOCore.consume
  dsimp only
  split
  · exact ⟨h.queue, rfl, h.queued⟩
  · rename_i hst
    have hroom := h.room ho (Bool.eq_false_iff.mpr hst)
    unfold OoOCore.processFetch
    apply fetchLoop_words (c := { c with fOutstanding := false }) r.rline _ _ h.queue ?_ h.btb ?_ h.queued
    · exact Nat.le_trans (Nat.add_le_add_left (Nat.sub_le _ _) _) hroom
    · intro i hle hlt
      apply hport.blockWord hcfg hmem hconf hans hal hin
      change (c.fFetchPc - c.fBlock).toNat / 4 ≤ i at hle
      change i < (c.fFetchPc - c.fBlock).toNat / 4 + (c.cfg.fetchBlockBytes / 4 - (c.fFetchPc - c.fBlock).toNat / 4) at hlt
      rw [hconf] at hlt
      omega

/-- Every word of the fetch queue came from the outstanding block. -/
theorem Action.frontQueue {evs : List (PortEvent Nat)} (hcfg : cfg.Accepted) (hmem : cfg.memBytes < 2 ^ 32)
    (hline : cfg.flatMemory = false → cfg.fetchBlockBytes ∣ cfg.memBytes ∨ 2 ^ 32 ≤ cfg.memBytes)
    (ha : Action c c') (hc : AccessesOk cfg cfg.memBytes c) (ht : Traced cfg image c evs)
    (h : FrontOk cfg image c) :
    c'.fetchQ.Wf ∧ c'.fetchQ.capacity = c'.cfg.fetchQSize ∧
      (c'.fOutstanding = true → c'.fStale = false →
        c'.fetchQ.n + c'.cfg.fetchBlockBytes / 4 ≤ c'.fetchQ.capacity) ∧
      (c'.fOutstanding = true →
        c'.fBlock.toNat % 4 = 0 ∧ c'.fBlock.toNat + cfg.fetchBlockBytes ≤ cfg.memBytes) ∧
      ∀ f ∈ c'.fetchQ.entries, FetchedOk image cfg.memBytes c'.commits f := by
  have hb := hc.core.back
  have hconf := hc.core.config
  have hgrow := ha.commits_append hb
  cases ha.fetchSide hb with
  | quiet _ hh => exact h.queue_held hh hgrow
  | response _ _ hh => exact h.queue_held hh hgrow
  | load _ _ hh => exact h.queue_held hh hgrow
  | store _ _ _ hh => exact h.queue_held hh hgrow
  | tick _ hh => exact h.queue_held hh hgrow
  | @consume r hr ho heq =>
      obtain ⟨hq, hcap, hwords⟩ := h.queue_consume hcfg hmem hconf hr ho
      obtain ⟨hout, -, hcs⟩ := consume_port c r
      have hcfg' : (c.consume r).cfg = c.cfg := by
        obtain ⟨m, out, stale, pred, q, pc, hframe⟩ := consume_frame c r
        rw [hframe]
      rw [heq]
      refine ⟨hq, ?_, fun ho' => ?_, fun ho' => ?_, ?_⟩
      · rw [hcap, hcfg']
        exact h.capacity
      · rw [hout] at ho'
        cases ho'
      · rw [hout] at ho'
        cases ho'
      · rw [hcs]
        exact hwords
  | @request m ho hroom hpc hacc hm heq =>
      have hin := hc.blockInside hcfg hline ht.run hpc hm
      have hblk := (blockRequest_block hcfg hconf hin).aligned
      have h4 : 4 ∣ cfg.fetchBlockBytes := Nat.dvd_trans (by decide) hcfg.fetch_dvd
      rw [heq]
      refine ⟨h.queue, h.capacity, fun _ _ => ?_, fun _ => ⟨?_, hin⟩, h.queued⟩
      · rw [h.capacity]
        exact hroom
      · exact Nat.mod_eq_zero_of_dvd (Nat.dvd_trans h4 (Nat.dvd_of_mod_eq_zero hblk))

/-- A word that leaves the queue is dispatched. -/
theorem Action.frontLive (ha : Action c c') (hb : BackOk c) (h : FrontOk cfg image c) :
    ∀ i ∈ c'.rob.slots,
      WordOk image cfg.memBytes (archStores c'.commits) (c'.rob.e i).pc (c'.rob.e i).ins.raw := by
  obtain ⟨new, hnew⟩ := ha.archStores_append hb
  rw [hnew]
  have hmono : ∀ {pc raw}, WordOk image cfg.memBytes (archStores c.commits) pc raw →
      WordOk image cfg.memBytes (archStores c.commits ++ new) pc raw := fun hw =>
    hw.mono fun _ => List.mem_append_left _
  have hpush : ∀ {e : RobEntry}, Pushed c.rob e → c.fetchQ.empty = false → e.pc = c.fetchQ.head.pc →
      e.ins.raw = c.fetchQ.head.raw → c'.rob = pushRob c.rob e → ∀ i ∈ c'.rob.slots,
        WordOk image cfg.memBytes (archStores c.commits) (c'.rob.e i).pc (c'.rob.e i).ins.raw := by
    intro e hp hne hpc hraw hr i hi
    rw [hr] at hi ⊢
    rcases List.mem_append.mp (hp.slots ▸ hi) with hold | hlast
    · rw [hp.old i hold]
      exact h.live i hold
    · rw [List.mem_singleton.mp hlast, hp.new, hpc, hraw]
      apply (h.queued _ _).word
      rw [Ring.entries_eq_cons h.queue hne]
      exact List.mem_cons_self
  intro i hi
  apply hmono
  cases ha.robMoves hb with
  | kept hd =>
      have hpc : (c'.rob.e i).pc = (c.rob.e i).pc := (congrArg RobEntry.pc (hd.static i) :)
      have hins : (c'.rob.e i).ins = (c.rob.e i).ins := (congrArg RobEntry.ins (hd.static i) :)
      rw [hpc, hins]
      exact h.live i (hd.live i hi)
  | system hr heq =>
      exact hpush (e := systemEntry c c.fetchQ.head) (RvO3.pushed hb.rob.wf hr.rob _) hr.fetched rfl
        (decode_raw _) (by rw [heq, dispatchSystem_eq]) i hi
  | op hr heq =>
      exact hpush (e := opEntry c c.fetchQ.head) (RvO3.pushed hb.rob.wf hr.rob _) hr.fetched rfl
        (decode_raw _) (by rw [heq, dispatchOp_eq]) i hi

/-- The head that commits was fetched as it is recorded. -/
theorem Action.frontRetired (ha : Action c c') (hb : BackOk c) (h : FrontOk cfg image c) :
    ∀ rs r rest, c'.commits = rs ++ r :: rest →
      WordOk image cfg.memBytes (archStores rs) r.pc r.instruction := by
  intro rs r rest heq
  rcases ha.record hb with hsame | ⟨hne, rec, hpc, hins, hc⟩
  · exact h.retired rs r rest (hsame ▸ heq)
  · rw [hc] at heq
    rcases List.eq_nil_or_concat rest with rfl | ⟨init, last, rfl⟩
    · obtain ⟨rfl, hr⟩ := List.append_inj' heq rfl
      cases hr
      rw [hpc, hins]
      exact h.live _ (headIdx_mem hb hne)
    · rw [List.concat_eq_append, ← List.cons_append, ← List.append_assoc] at heq
      exact h.retired rs r init (List.append_inj' heq rfl).1

/-- The BTB learns a branch as it commits. -/
theorem Action.frontBtb (ha : Action c c') (hb : BackOk c) (hd : WordsDecoded c) (h : FrontOk cfg image c)
    {x : Word} (hx : c'.pred.Knows x) : BranchAt c'.commits x := by
  rcases ha.knows hb hx with hold | ⟨hne, hbr, hpc, rec, hrpc, hins, hc⟩
  · obtain ⟨new, hnew⟩ := ha.commits_append hb
    rw [hnew]
    exact (h.btb x hold).append
  · have hlive := headIdx_mem hb hne
    have hcons := (hb.rob.consistent _ hlive).isBranch
    refine ⟨rec, ?_, hrpc.trans hpc.symm, ?_⟩
    · rw [hc]
      exact List.mem_append_right _ (List.mem_singleton.mpr rfl)
    · rw [hins, show decode c.rob.head.ins.raw = c.rob.head.ins from hd _ hlive]
      exact of_decide_eq_true (hcons.symm.trans hbr)

theorem Action.frontOk {evs : List (PortEvent Nat)} (hcfg : cfg.Accepted) (hfit : cfg.SizesFit)
    (hmem : cfg.memBytes < 2 ^ 32)
    (hline : cfg.flatMemory = false → cfg.fetchBlockBytes ∣ cfg.memBytes ∨ 2 ^ 32 ≤ cfg.memBytes)
    (ha : Action c c') (hc : AccessesOk cfg cfg.memBytes c) (ht : Traced cfg image c evs) (hd : WordsDecoded c)
    (h : FrontOk cfg image c) : FrontOk cfg image c' := by
  have hb := hc.core.back
  obtain ⟨same, hport⟩ := h.port
  obtain ⟨hq, hcap, hroom, hblock, hqueued⟩ := ha.frontQueue hcfg hmem hline hc ht h
  exact ⟨hq, hcap, hroom, hblock, ha.fetchPort hcfg hfit hline hc ht hport, hqueued, ha.frontLive hb h,
    ha.frontRetired hb h, fun x hx => ha.frontBtb hb hd h hx⟩

end Front

/-! ## Every run -/

section Runs

variable {cfg : SimConfig} {image : Nat → Byte} {frames : Bool} {inputs : Nat → Word}
  {histLen : Nat → Nat} {c : OoOCore (MemorySystem Nat)} {ph : Phase}

theorem init_frontOk (hcfg : cfg.Accepted) (hfit : cfg.SizesFit) (frames : Bool) (inputs : Nat → Word)
    (histLen : Nat → Nat) (image : Nat → Byte) :
    FrontOk cfg image (OoOCore.init cfg frames inputs histLen (MemorySystem.init cfg image)) := by
  have hge := hcfg.fetch_ge
  have hq := hcfg.fetchQ_ge
  have hcommits : (OoOCore.init cfg frames inputs histLen (MemorySystem.init (τ := Nat) cfg image)).commits = [] := rfl
  have hfetch : (OoOCore.init cfg frames inputs histLen
      (MemorySystem.init (τ := Nat) cfg image)).fetchQ.slots = [] := Ring.slots_init _
  refine ⟨Ring.wf_init (by omega), rfl, nofun, nofun,
    ⟨fun _ => True, fun _ _ => trivial, (MemorySystem.ok_init hcfg hfit).1⟩, fun f hf => ?_, fun i hi => ?_,
    fun rs r rest heq => ?_, fun x hx => ?_⟩
  · rw [Ring.entries, hfetch] at hf
    cases hf
  · rw [init_rob_slots] at hi
    cases hi
  · rw [hcommits] at heq
    cases rs <;> cases heq
  · obtain ⟨i, hv, -⟩ := hx
    cases hv

theorem Actions.frontOk (hcfg : cfg.Accepted) (hfit : cfg.SizesFit) (hmem : cfg.memBytes < 2 ^ 32)
    (hline : cfg.flatMemory = false → cfg.fetchBlockBytes ∣ cfg.memBytes ∨ 2 ^ 32 ≤ cfg.memBytes)
    (h : Actions (OoOCore.init cfg frames inputs histLen (MemorySystem.init cfg image)) c) :
    WordsDecoded c ∧ FrontOk cfg image c := by
  induction h with
  | refl =>
      refine ⟨fun i hi => ?_, init_frontOk hcfg hfit frames inputs histLen image⟩
      rw [init_rob_slots] at hi
      cases hi
  | tail hr ha ih =>
      obtain ⟨hacc, evs, ht⟩ := Actions.traced hcfg hline hr
      exact ⟨ha.wordsDecoded hacc.core.back ih.1, ha.frontOk hcfg hfit hmem hline hacc ht ih.1 ih.2⟩

/-- Each committed word is an aligned word of memory, and that of the image unless a store that was
committed before touched it. What the fetch path delivers late, stale or twice never commits. -/
theorem commits_fetched (hcfg : cfg.Accepted) (hfit : cfg.SizesFit) (hmem : cfg.memBytes < 2 ^ 32)
    (hline : cfg.flatMemory = false → cfg.l2.lineBytes ∣ cfg.memBytes)
    (h : Reach (OoOCore.init cfg frames inputs histLen (MemorySystem.init cfg image)) ph c) :
    ∀ rs r rest, c.commits = rs ++ r :: rest →
      WordOk image cfg.memBytes (archStores rs) r.pc r.instruction :=
  have hk₀ := init_coreOk frames inputs histLen (MemorySystem.init (τ := Nat) cfg image) hcfg
  (Actions.frontOk hcfg hfit hmem (hcfg.blocks hfit hline) (h.actions hcfg hk₀)).2.retired

/-- The words that the rewriting machine committed, one of them before and after it was stored to. -/
theorem commits_fetched_rewriting : ∃ c : OoOCore (MemorySystem Nat),
    c.commits.map (fun r => (r.pc, r.instruction)) = [(0, 0x01300093#32), (4, 0x0080006F#32),
      (12, 0x00102223#32), (16, 0x0FF0000F#32), (20, 0xFF1FF06F#32), (4, 0x13#32), (12, 0x00102223#32)] ∧
    ∀ rs r rest, c.commits = rs ++ r :: rest →
      WordOk (fun a => wordByte (rewritingProgram (a / 4)) (a % 4)) flatConfig.memBytes (archStores rs) r.pc
        r.instruction := by
  have hcfg : flatConfig.Accepted :=
    validateConfig_ok (show validateConfig flatConfig = .ok flatConfig by decide)
  obtain ⟨c, hr, hrecs, -⟩ := rewriting_reached
  exact ⟨c, hrecs, commits_fetched hcfg ⟨by decide, by decide, by decide⟩ (by decide) nofun hr⟩

end Runs

end RvO3
