import RvO3.Core.LsqSteps
import RvO3.Lib.Lists

/-!
# What the access stage will find

`lsqOperate` looks for a load to send only after it has taken the responses that are ready, popped
the acked stores at the front of the buffer and let the waiting stores capture their data. This
module says what it will find then, as properties of the state in which the stage starts: the loads
that no ready response answers (`unanswered`), the stores that stay in the buffer (`staying`), the
data that a store has or is about to capture (`dataAtHand`), and so what the older stores will mean
for a load (`settledVerdict`). `beforeAccess_verdict` and its companions say that this is so.
-/

set_option autoImplicit false

namespace RvO3

namespace OoOCore

/-! ## The state in which the stage starts -/

section Ready

variable {M : Type} [MemPorts Nat M]

/-- The responses that come out of the data port in at most `n` pops, in order. -/
def replies : Nat → M → List (MemResponse Nat)
  | 0, _ => []
  | n + 1, m =>
      match MemPorts.dResponse m with
      | none => []
      | some r => r :: replies n (MemPorts.dPop m)

/-- Memory after these pops. -/
def afterReplies : Nat → M → M
  | 0, m => m
  | n + 1, m =>
      match MemPorts.dResponse m with
      | none => m
      | some _ => afterReplies n (MemPorts.dPop m)

/-- The responses that the data port has ready. -/
def ready (c : OoOCore M) : List (MemResponse Nat) := replies (MemPorts.dReady c.msys) c.msys

/-- The data port takes an access once these are popped. -/
def portOpen (c : OoOCore M) : Bool :=
  MemPorts.dCanAccept (afterReplies (MemPorts.dReady c.msys) c.msys)

/-- The response is for the load in this slot, of the generation that is there. -/
def answers (r : MemResponse Nat) (slot : Nat) (le : LsqEntry) : Bool :=
  !r.tag.testBit 63 && decide (r.tag >>> 16 % 2 ^ 32 = slot) && decide (r.tag % 2 ^ 16 = le.gen)

/-- The response is the ack of the store in this slot of the buffer. -/
def acks (r : MemResponse Nat) (slot : Nat) (st : StoreBufEntry) : Bool :=
  r.tag.testBit 63 && decide ((r.tag % 2 ^ 63) >>> 32 % 2 ^ 32 = slot) && st.inflight &&
    decide (st.txn = r.tag % 2 ^ 32)

/-- The load is in flight, and its response is not among those that are ready. -/
def unanswered (c : OoOCore M) (slot : Nat) : Bool :=
  (c.lsq.at' slot).isPending && !c.ready.any fun r => answers r slot (c.lsq.at' slot)

/-- The store was acked, or its ack is among the responses that are ready. -/
def isAcked (c : OoOCore M) (slot : Nat) : Bool :=
  (c.sb.ring.e slot).acked || c.ready.any fun r => acks r slot (c.sb.ring.e slot)

/-- The stores that stay in the buffer: an ack out of order waits for the stores before it. -/
def staying (c : OoOCore M) : List Nat := c.sb.ring.slots.dropWhile c.isAcked

end Ready

section Settled

variable {M : Type}

/-- The data of a store, or what it captures as soon as it is visited. -/
def dataAtHand (c : OoOCore M) (slot : Nat) : Option Word :=
  let st := c.lsq.at' slot
  if st.dataReady then some st.data
  else if c.prf.ready st.dataPreg then some (c.prf.val st.dataPreg)
  else none

/-- The verdict of the known older stores in the LSQ once their data is captured. -/
def settledLsqVerdict (c : OoOCore M) (slot : Nat) : Option Verdict :=
  let le := c.lsq.at' slot
  if c.lsq.mayStoreToWord le.addr then
    (c.lsq.visitOlderStores slot).findSome? fun i =>
      let st := c.lsq.at' i
      olderStore le st.addr st.size (c.dataAtHand i).isSome ((c.dataAtHand i).getD 0)
  else none

variable [MemPorts Nat M]

/-- The verdict of the stores that stay in the buffer. -/
def settledSbVerdict (c : OoOCore M) (slot : Nat) : Option Verdict :=
  let le := c.lsq.at' slot
  (c.staying.map c.sb.ring.e).reverse.findSome? fun st => olderStore le st.addr st.size true st.data

/-- What the older stores will mean for a load when the stage looks for one to send. -/
def settledVerdict (c : OoOCore M) (slot : Nat) : Verdict :=
  ((c.settledLsqVerdict slot).or (c.settledSbVerdict slot)).getD .clear

/-- The state in which `lsqOperate` makes its first access. -/
def beforeAccess (c : OoOCore M) : OoOCore M :=
  let c := c.drainDataResponses
  ({ c with sb := popAcked c.sb.ring.n c.sb } : OoOCore M).lsqUpdates

end Settled

end OoOCore

open OoOCore

/-! ## What the first half of the stage leaves alone -/

/-- Where an entry comes from, where it accesses memory, and its generation. -/
def LsqEntry.site (le : LsqEntry) : Nat × Nat × Word × Word × Nat × Nat :=
  (le.seq, le.robIdx, le.pc, le.addr, le.size, le.gen)

/-- The same candidates, addresses, faults and known stores, and the same data at hand. -/
structure SameSight {M : Type} (c c' : OoOCore M) : Prop where
  cfg : c'.cfg = c.cfg
  depTable : c'.depTable = c.depTable
  fault : ∀ i, (c'.rob.e i).fault = (c.rob.e i).fault
  site : ∀ j, (c'.lsq.at' j).site = (c.lsq.at' j).site
  data : ∀ j, c'.dataAtHand j = c.dataAtHand j
  slots : c'.lsq.ring.slots = c.lsq.ring.slots
  candidates : c'.lsq.candidates = c.lsq.candidates
  unknown : c'.lsq.oldestUnknownStore = c.lsq.oldestUnknownStore
  older : ∀ j, c'.lsq.visitOlderStores j = c.lsq.visitOlderStores j
  words : c'.lsq.storeWords = c.lsq.storeWords

section Sight

variable {M : Type} {c c' c'' : OoOCore M}

theorem SameSight.refl (c : OoOCore M) : SameSight c c :=
  ⟨rfl, rfl, fun _ => rfl, fun _ => rfl, fun _ => rfl, rfl, rfl, rfl, fun _ => rfl, rfl⟩

/-- Memory and the store buffer are not looked at here. -/
theorem SameSight.frame (c : OoOCore M) (m : M) (b : StoreBuffer) : SameSight c { c with msys := m, sb := b } :=
  ⟨rfl, rfl, fun _ => rfl, fun _ => rfl, fun _ => rfl, rfl, rfl, rfl, fun _ => rfl, rfl⟩

theorem SameSight.trans (h : SameSight c c') (h' : SameSight c' c'') : SameSight c c'' where
  cfg := h'.cfg.trans h.cfg
  depTable := h'.depTable.trans h.depTable
  fault := fun i => (h'.fault i).trans (h.fault i)
  site := fun j => (h'.site j).trans (h.site j)
  data := fun j => (h'.data j).trans (h.data j)
  slots := h'.slots.trans h.slots
  candidates := h'.candidates.trans h.candidates
  unknown := h'.unknown.trans h.unknown
  older := fun j => (h'.older j).trans (h.older j)
  words := h'.words.trans h.words

theorem SameSight.seq (h : SameSight c c') (j : Nat) : (c'.lsq.at' j).seq = (c.lsq.at' j).seq :=
  congrArg Prod.fst (h.site j)

theorem SameSight.mayGo (h : SameSight c c') (j : Nat) : c'.MayGo j ↔ c.MayGo j := by
  have hsite := h.site j
  simp only [LsqEntry.site, Prod.mk.injEq] at hsite
  have hwall : c'.wall j = c.wall j := by
    unfold OoOCore.wall
    rw [h.unknown, hsite.1]
  have hcautious : c'.cautious (c'.lsq.at' j) = c.cautious (c.lsq.at' j) := by
    unfold OoOCore.cautious
    rw [h.cfg, h.depTable, hsite.2.2.1]
  have hfault : (c'.rob.e (c'.lsq.at' j).robIdx).fault = (c.rob.e (c.lsq.at' j).robIdx).fault := by
    rw [h.fault, hsite.2.1]
  constructor
  · rintro ⟨h1, h2, h3⟩
    rw [h.candidates] at h1
    rw [hfault] at h2
    rw [hwall, hcautious] at h3
    exact ⟨h1, h2, h3⟩
  · rintro ⟨h1, h2, h3⟩
    refine ⟨?_, ?_, ?_⟩
    · rw [h.candidates]
      exact h1
    · rw [hfault]
      exact h2
    · rw [hwall, hcautious]
      exact h3

theorem SameSight.settledLsqVerdict (h : SameSight c c') (j : Nat) :
    c'.settledLsqVerdict j = c.settledLsqVerdict j := by
  have hsite : ∀ i, (c'.lsq.at' i).addr = (c.lsq.at' i).addr ∧ (c'.lsq.at' i).size = (c.lsq.at' i).size := by
    intro i
    have hs := h.site i
    simp only [LsqEntry.site, Prod.mk.injEq] at hs
    exact ⟨hs.2.2.2.1, hs.2.2.2.2.1⟩
  have hold : ∀ a s r d, olderStore (c'.lsq.at' j) a s r d = olderStore (c.lsq.at' j) a s r d := by
    intro a s r d
    unfold olderStore
    rw [(hsite j).1, (hsite j).2]
  unfold OoOCore.settledLsqVerdict LSQ.mayStoreToWord
  simp only [h.words, h.older, h.data, hold, (hsite _).1, (hsite _).2]

/-- One entry is rewritten, and neither its site nor the data at hand for it changes. -/
theorem SameSight.entry {q : LSQ} {slot : Nat} {le : LsqEntry} (hring : q.ring = c.lsq.ring.set slot le)
    (hsite : le.site = (c.lsq.at' slot).site)
    (hdata : OoOCore.dataAtHand { c with lsq := q } slot = c.dataAtHand slot)
    (hc : q.candidates = c.lsq.candidates) (hu : q.unknownStores = c.lsq.unknownStores)
    (hk : q.knownStores = c.lsq.knownStores) (hw : q.storeWords = c.lsq.storeWords) :
    SameSight c { c with lsq := q } := by
  have hentry := lsqAt_change hring
  have hsites : ∀ j, (q.at' j).site = (c.lsq.at' j).site := by
    intro j
    rw [hentry]
    split
    · rename_i hj
      rw [hj, hsite]
    · rfl
  refine ⟨rfl, rfl, fun _ => rfl, hsites, fun j => ?_, ?_, hc, ?_, fun j => ?_, hw⟩
  · by_cases hj : j = slot
    · rw [hj, hdata]
    · unfold OoOCore.dataAtHand
      dsimp only
      rw [hentry j, if_neg hj]
  · exact (congrArg Ring.slots hring).trans (Ring.slots_set _ _ _)
  · have hseq : ∀ j, (q.at' j).seq = (c.lsq.at' j).seq := fun j => congrArg Prod.fst (hsites j)
    show q.oldestUnknownStore = c.lsq.oldestUnknownStore
    unfold LSQ.oldestUnknownStore LSQ.oldestSeq
    rw [hu, hring, funext hseq]
    rfl
  · show q.visitOlderStores j = c.lsq.visitOlderStores j
    unfold LSQ.visitOlderStores
    rw [hk, hring]
    rfl

end Sight

/-! ## Taking the responses -/

section Drain

variable {M : Type} {c c' c'' : OoOCore M} {r : MemResponse Nat} {rs : List (MemResponse Nat)}

/-- What taking the responses `rs` changes: the loads they answer are done, and the stores whose ack
is among them are acked. -/
structure Took (c c' : OoOCore M) (rs : List (MemResponse Nat)) : Prop where
  sight : SameSight c c'
  lsq : c'.lsq.Ordered
  pending : ∀ j ∈ c.lsq.ring.slots, (c'.lsq.at' j).isPending =
    ((c.lsq.at' j).isPending && !rs.any fun r => answers r j (c.lsq.at' j))
  sb : c'.sb.ring.slots = c.sb.ring.slots ∧ c'.sb.ring.Wf ∧ c'.sb.ring.n = c.sb.ring.n
  acked : ∀ s ∈ c.sb.ring.slots, c'.sb.ring.e s =
    { c.sb.ring.e s with acked := (c.sb.ring.e s).acked || rs.any fun r => acks r s (c.sb.ring.e s) }

theorem Took.nil (hq : c.lsq.Ordered) (hb : c.sb.ring.Wf) (m : M) : Took c { c with msys := m } [] :=
  ⟨.frame c m c.sb, hq, fun _ _ => by simp, ⟨rfl, hb, rfl⟩, fun _ _ => by simp⟩

theorem answers_site {le le' : LsqEntry} (h : le'.site = le.site) (slot : Nat) :
    answers r slot le' = answers r slot le := by
  simp only [LsqEntry.site, Prod.mk.injEq] at h
  unfold answers
  rw [h.2.2.2.2.2]

theorem Took.trans {rs' : List (MemResponse Nat)} (h : Took c c' rs) (h' : Took c' c'' rs') :
    Took c c'' (rs ++ rs') := by
  refine ⟨h.sight.trans h'.sight, h'.lsq, fun j hj => ?_, ⟨?_, h'.sb.2.1, ?_⟩, fun s hs => ?_⟩
  · rw [h'.pending j (by rw [h.sight.slots]; exact hj), h.pending j hj, List.any_append, Bool.not_or,
      Bool.and_assoc]
    simp only [answers_site (h.sight.site j)]
  · exact h'.sb.1.trans h.sb.1
  · exact h'.sb.2.2.trans h.sb.2.2
  · rw [h'.acked s (by rw [h.sb.1]; exact hs), h.acked s hs, List.any_append, ← Bool.or_assoc]
    rfl

/-- A response answers the load whose slot and generation its tag holds. -/
theorem answers_iff {slot : Nat} {le : LsqEntry} : answers r slot le = true ↔
    r.tag.testBit 63 = false ∧ r.tag >>> 16 % 2 ^ 32 = slot ∧ r.tag % 2 ^ 16 = le.gen := by
  simp only [answers, Bool.and_eq_true, Bool.not_eq_true', decide_eq_true_eq, and_assoc]

/-- Completing a load in flight is not seen here, for it was no candidate. -/
theorem completeLoad_sight {slot : Nat} (hq : c.lsq.Wf) (hmem : slot ∈ c.lsq.ring.slots)
    (hp : (c.lsq.at' slot).isPending = true) (v : Word) :
    SameSight c { c with lsq := c.lsq.completeLoad slot v } := by
  have hcand : c.lsq.candidates slot = false := by
    rw [hq.candidates, LSQ.liveSet_apply hmem]
    simp only [LsqEntry.isPending, Bool.and_eq_true, Bool.not_eq_true'] at hp
    simp [LsqEntry.isCandidate, hp.1.2]
  refine SameSight.entry rfl rfl ?_ ?_ rfl rfl rfl
  · unfold OoOCore.dataAtHand LSQ.completeLoad LSQ.at'
    dsimp only
    rw [Ring.set_e, Function.update_self]
  · exact Function.update_eq_self_iff.mpr hcand.symm

/-- Of the loads in flight only the one that completes is in flight no more. -/
theorem completeLoad_inFlight (q : LSQ) (slot : Nat) (v : Word) (j : Nat) :
    ((q.completeLoad slot v).at' j).isPending = ((q.at' j).isPending && !decide (j = slot)) := by
  by_cases hj : j = slot <;> simp [LSQ.completeLoad, LSQ.at', LsqEntry.isPending, hj]

/-- A response to a load: the load it names is done, and a stale one is dropped. -/
theorem loadReply_took (hq : c.lsq.Ordered) (hb : c.sb.ring.Wf) (ht : r.tag.testBit 63 = false) :
    Took c { c with lsq := loadReply c.lsq r.tag r.rdata } [r] := by
  have hsb : ∀ s ∈ c.sb.ring.slots, c.sb.ring.e s = { c.sb.ring.e s with
      acked := (c.sb.ring.e s).acked || [r].any fun r => acks r s (c.sb.ring.e s) } := by
    intro s _
    simp [acks, ht]
  unfold loadReply
  dsimp only
  split
  · rename_i hc
    obtain ⟨hlive, hst, hi, hd, hgen⟩ := hc
    have hmem := (Ring.live_iff hq.wf.ring).mp hlive
    have hp : (c.lsq.at' (r.tag >>> 16 % 2 ^ 32)).isPending = true := by
      rw [LsqEntry.isPending, hst, hi, hd]
      rfl
    generalize hslot : r.tag >>> 16 % 2 ^ 32 = slot at hmem hp hgen
    generalize extendLoad (c.lsq.at' slot).op r.rdata = v
    have hans : ∀ j, answers r j (c.lsq.at' j) = decide (j = slot) := by
      intro j
      by_cases hj : j = slot
      · subst hj
        rw [answers_iff.mpr ⟨ht, hslot, hgen.symm⟩, decide_eq_true rfl]
      · rw [decide_eq_false hj, Bool.eq_false_iff]
        exact fun h => hj ((answers_iff.mp h).2.1.symm.trans hslot)
    have hallowed : (LsqOp.completeLoad slot v).Allowed c.lsq := ⟨hmem, Or.inr hp⟩
    refine ⟨completeLoad_sight hq.wf hmem hp v, hq.run hallowed, fun j _ => ?_, ⟨rfl, hb, rfl⟩, hsb⟩
    rw [List.any_cons, List.any_nil, Bool.or_false, hans]
    exact completeLoad_inFlight c.lsq slot v j
  · rename_i hc
    refine ⟨.refl c, hq, fun j hj => ?_, ⟨rfl, hb, rfl⟩, hsb⟩
    -- a load that the response names would have been in flight
    cases hp : (c.lsq.at' j).isPending with
    | false => rfl
    | true =>
        cases ha : answers r j (c.lsq.at' j) with
        | false => simp [ha]
        | true =>
            simp only [LsqEntry.isPending, Bool.and_eq_true] at hp
            obtain ⟨-, rfl, hgen⟩ := answers_iff.mp ha
            exact absurd ⟨(Ring.live_iff hq.wf.ring).mpr hj, hp.1.1, hp.1.2, hp.2, hgen.symm⟩ hc

/-- An ack: the store it names is acked, and one that names none changes nothing. -/
theorem storeAck_took (hq : c.lsq.Ordered) (hb : c.sb.ring.Wf) (ht : r.tag.testBit 63 = true) :
    Took c { c with sb := storeAck c.sb r.tag } [r] := by
  have hpend : ∀ j ∈ c.lsq.ring.slots, (c.lsq.at' j).isPending =
      ((c.lsq.at' j).isPending && !([r].any fun r => answers r j (c.lsq.at' j))) := by
    intro j _
    simp [answers, ht]
  unfold storeAck
  dsimp only
  split
  · rename_i hc
    obtain ⟨-, hin, hna, htxn⟩ := hc
    generalize hslot : (r.tag % 2 ^ 63) >>> 32 % 2 ^ 32 = slot at hin hna htxn
    refine ⟨.frame c c.msys _, hq, hpend, ⟨Ring.slots_set _ _ _, ⟨hb.headIdx_lt, hb.n_le⟩, rfl⟩, fun s _ => ?_⟩
    show Function.update c.sb.ring.e slot _ s = _
    rw [Function.update_apply]
    split
    · rename_i hs
      have hack : acks r s (c.sb.ring.e s) = true := by
        unfold acks
        rw [hs, ht, decide_eq_true hslot, hin, decide_eq_true htxn]
        rfl
      rw [List.any_cons, hack, Bool.true_or, Bool.or_true, hs]
    · rename_i hs
      have hne : acks r s (c.sb.ring.e s) = false := by
        unfold acks
        rw [decide_eq_false (fun h => hs (h.symm.trans hslot)), Bool.and_false, Bool.false_and, Bool.false_and]
      rw [List.any_cons, hne, List.any_nil, Bool.or_self, Bool.or_false]
  · rename_i hc
    refine ⟨.refl c, hq, hpend, ⟨rfl, hb, rfl⟩, fun s hs => ?_⟩
    -- an ack that names a store finds it in flight, so at most it is acked already
    cases ha : acks r s (c.sb.ring.e s) with
    | false => simp [ha]
    | true =>
        simp only [acks, Bool.and_eq_true, decide_eq_true_eq] at ha
        obtain ⟨⟨⟨-, rfl⟩, hin⟩, htxn⟩ := ha
        cases hack : (c.sb.ring.e ((r.tag % 2 ^ 63) >>> 32 % 2 ^ 32)).acked with
        | true => rw [Bool.true_or, ← hack]
        | false => exact absurd ⟨(Ring.live_iff hb).mpr hs, hin, by rw [hack]; rfl, htxn⟩ hc

theorem dataResponse_took (hq : c.lsq.Ordered) (hb : c.sb.ring.Wf) (r : MemResponse Nat) :
    Took c (c.dataResponse r) [r] := by
  unfold OoOCore.dataResponse
  cases ht : r.tag.testBit 63 with
  | true => exact storeAck_took hq hb ht
  | false => exact loadReply_took hq hb ht

variable [MemPorts Nat M]

theorem drainLoop_took (n : Nat) : ∀ {c : OoOCore M}, c.lsq.Ordered → c.sb.ring.Wf →
    Took c (drainLoop n c) (replies n c.msys) ∧ (drainLoop n c).msys = afterReplies n c.msys := by
  induction n with
  | zero => exact fun hq hb => ⟨.nil hq hb _, rfl⟩
  | succ n ih =>
      intro c hq hb
      unfold drainLoop replies afterReplies
      cases hr : MemPorts.dResponse c.msys with
      | none => exact ⟨.nil hq hb _, rfl⟩
      | some r =>
          have h1 : Took c { c with msys := MemPorts.dPop c.msys } [] := .nil hq hb _
          have h2 := h1.trans (dataResponse_took (c := { c with msys := MemPorts.dPop c.msys }) hq hb r)
          have hm : (({ c with msys := MemPorts.dPop c.msys } : OoOCore M).dataResponse r).msys =
              MemPorts.dPop c.msys := by
            unfold OoOCore.dataResponse
            split <;> rfl
          obtain ⟨h3, h4⟩ := ih h2.lsq h2.sb.2.1
          rw [hm] at h3 h4
          exact ⟨h2.trans h3, h4⟩

end Drain

/-! ## Popping the acked stores -/

theorem popAcked_slots (n : Nat) : ∀ {b : StoreBuffer}, b.ring.Wf → b.ring.n ≤ n →
    (popAcked n b).ring.slots = b.ring.slots.dropWhile (fun s => (b.ring.e s).acked) ∧
      (popAcked n b).ring.e = b.ring.e := by
  induction n with
  | zero =>
      intro b hb hn
      have hnil : b.ring.slots = [] := by
        rw [← List.length_eq_zero_iff, Ring.length_slots]
        omega
      exact ⟨by rw [hnil]; exact hnil, rfl⟩
  | succ n ih =>
      intro b hb hn
      unfold popAcked
      cases he : b.ring.empty with
      | true =>
          rw [(Ring.empty_iff b.ring).mp he]
          exact ⟨(Ring.empty_iff b.ring).mp he, rfl⟩
      | false =>
          obtain ⟨rest, hrest⟩ := Ring.slots_eq_cons hb he
          cases ha : b.ring.head.acked with
          | false =>
              rw [hrest, List.dropWhile_cons_of_neg (by simpa [Ring.head] using ha)]
              exact ⟨hrest, rfl⟩
          | true =>
              rw [hrest, List.dropWhile_cons_of_pos (by simpa [Ring.head] using ha)]
              have htail : b.popHead.ring.slots = rest := by
                rw [show b.popHead.ring.slots = b.ring.slots.tail from Ring.slots_popHead hb, hrest]
                rfl
              have hlen : b.popHead.ring.n ≤ n := by
                show b.ring.n - 1 ≤ n
                omega
              obtain ⟨h1, h2⟩ := ih (b := b.popHead) hb.popHead hlen
              rw [htail] at h1
              exact ⟨h1, h2⟩

/-! ## Capturing the data of stores -/

section Updates

variable {M : Type} {cfg : SimConfig} {c c' : OoOCore M}

/-- A store that a visit of its slot gives its data. -/
def OoOCore.capturable (c : OoOCore M) (slot : Nat) : Bool :=
  (c.lsq.at' slot).isWaiting && c.prf.ready (c.lsq.at' slot).dataPreg

/-- What one visit of the pending updates keeps. No store becomes capturable by it. -/
structure Visit (c c' : OoOCore M) : Prop where
  sight : SameSight c c'
  sb : c'.sb = c.sb
  msys : c'.msys = c.msys
  pending : ∀ j, (c'.lsq.at' j).isPending = (c.lsq.at' j).isPending
  capturable : ∀ j, c'.capturable j = true → c.capturable j = true

theorem Visit.refl (c : OoOCore M) : Visit c c := ⟨.refl c, rfl, rfl, fun _ => rfl, fun _ h => h⟩

theorem Visit.trans {c'' : OoOCore M} (h : Visit c c') (h' : Visit c' c'') : Visit c c'' :=
  ⟨h.sight.trans h'.sight, h'.sb.trans h.sb, h'.msys.trans h.msys, fun j => (h'.pending j).trans (h.pending j),
    fun j hj => h.capturable j (h'.capturable j hj)⟩

/-- Rewriting one entry leaves the loads in flight, if that entry is as pending as it was. -/
theorem isPending_change {p q : LSQ} {slot : Nat} {le : LsqEntry} (hring : p.ring = q.ring.set slot le)
    (hp : le.isPending = (q.at' slot).isPending) (j : Nat) :
    (p.at' j).isPending = (q.at' j).isPending := by
  rw [lsqAt_change hring]
  split
  · rename_i hj
    rw [hj, hp]
  · rfl

/-- The data that a store captures were at hand, and it captures no more. -/
theorem captureStoreData_visit {slot : Nat} (hnr : (c.lsq.at' slot).dataReady = false)
    (hready : c.prf.ready (c.lsq.at' slot).dataPreg = true) :
    Visit c { c with lsq := c.lsq.captureStoreData slot (c.prf.val (c.lsq.at' slot).dataPreg) } ∧
      OoOCore.capturable { c with
        lsq := c.lsq.captureStoreData slot (c.prf.val (c.lsq.at' slot).dataPreg) } slot = false := by
  generalize hv : c.prf.val (c.lsq.at' slot).dataPreg = v
  have hsight : SameSight c { c with lsq := c.lsq.captureStoreData slot v } := by
    refine SameSight.entry rfl rfl ?_ rfl rfl rfl rfl
    unfold OoOCore.dataAtHand LSQ.captureStoreData
    dsimp only
    rw [LSQ.at', Ring.set_e, Function.update_self, if_pos rfl, hnr, if_neg Bool.false_ne_true, if_pos hready, hv]
  have hcap : ∀ j, OoOCore.capturable { c with lsq := c.lsq.captureStoreData slot v } j =
      if j = slot then false else c.capturable j := by
    intro j
    unfold OoOCore.capturable LSQ.captureStoreData LSQ.at'
    dsimp only
    rw [Ring.set_e, Function.update_apply]
    split
    · simp [LsqEntry.isWaiting]
    · rfl
  refine ⟨⟨hsight, rfl, rfl, isPending_change rfl rfl, fun j hj => ?_⟩, by rw [hcap, if_pos rfl]⟩
  rw [hcap] at hj
  split at hj
  · cases hj
  · exact hj

theorem Visit.addLog (h : Visit c c') (ev : Event) : Visit c (c'.addLog ev) :=
  { h with sight := { h.sight with } }

/-- The ROB is looked at for faults only. -/
theorem Visit.robDone (h : Visit c c') (i : Nat) :
    Visit c { c' with rob := c'.rob.set i { c'.rob.e i with done := true } } where
  sight := { h.sight with
    fault := by
      intro k
      rw [Ring.set_e, Function.update_apply]
      split
      · rename_i hk
        rw [← h.sight.fault, hk]
      · exact h.sight.fault k }
  sb := h.sb
  msys := h.msys
  pending := h.pending
  capturable := h.capturable

/-- One visit of a slot captures the data of the store there, if they are ready, and nothing is left to capture. -/
theorem captureStore_visit (c : OoOCore M) (slot : Nat) :
    Visit c (c.captureStore slot) ∧ (c.captureStore slot).capturable slot = false := by
  unfold OoOCore.captureStore
  dsimp only
  cases hw : (c.lsq.at' slot).isStore && !(c.lsq.at' slot).dataReady && c.prf.ready (c.lsq.at' slot).dataPreg with
  | false =>
      rw [if_neg Bool.false_ne_true]
      exact ⟨.refl c, hw⟩
  | true =>
      rw [if_pos rfl]
      simp only [Bool.and_eq_true, Bool.not_eq_true'] at hw
      obtain ⟨hvisit, hself⟩ := captureStoreData_visit hw.1.2 hw.2
      split
      · exact ⟨(hvisit.addLog _).robDone _, hself⟩
      · exact ⟨hvisit.addLog _, hself⟩

theorem surfaceLoad_visit (c : OoOCore M) (slot k : Nat) : Visit c (c.surfaceLoad slot k).1 := by
  unfold OoOCore.surfaceLoad
  dsimp only
  split
  · split
    · exact .refl c
    · refine ⟨?_, rfl, rfl, fun j => ?_, fun j hj => ?_⟩
      · have hsight : SameSight c { c with lsq := c.lsq.reportLoad slot } := by
          refine SameSight.entry rfl rfl ?_ rfl rfl rfl rfl
          unfold OoOCore.dataAtHand LSQ.reportLoad LSQ.at'
          dsimp only
          rw [Ring.set_e, Function.update_self]
        exact { hsight with }
      · exact isPending_change (p := c.lsq.reportLoad slot) rfl rfl j
      · unfold OoOCore.capturable LSQ.reportLoad LSQ.at' at hj
        dsimp only at hj
        rw [Ring.set_e, Function.update_apply] at hj
        split at hj
        · rename_i he
          rw [he]
          exact hj
        · exact hj
  · exact .refl c

/-- A walk over the pending updates leaves none of the stores it visits capturable. -/
theorem updateLoop_visit (l : List Nat) : ∀ (c : OoOCore M) (k : Nat),
    Visit c (updateLoop l (c, k)) ∧ ∀ j ∈ l, (updateLoop l (c, k)).capturable j = false := by
  induction l with
  | nil => exact fun c k => ⟨.refl c, nofun⟩
  | cons slot l ih =>
      intro c k
      obtain ⟨hcap, hself⟩ := captureStore_visit c slot
      have hsurf := surfaceLoad_visit (c.captureStore slot) slot k
      obtain ⟨h1, h2⟩ := ih ((c.captureStore slot).surfaceLoad slot k).1 ((c.captureStore slot).surfaceLoad slot k).2
      refine ⟨(hcap.trans hsurf).trans h1, fun j hj => ?_⟩
      rcases List.mem_cons.mp hj with rfl | hj
      · -- captured at its own visit, and nothing is undone after it
        rw [← Bool.not_eq_true]
        intro he
        have hback := hsurf.capturable j (h1.capturable j he)
        rw [hself] at hback
        cases hback
      · exact h2 j hj

theorem lsqUpdates_visit (hq : c.lsq.Ordered) :
    Visit c c.lsqUpdates ∧ ∀ j ∈ c.lsq.ring.slots, c.lsqUpdates.capturable j = false := by
  have hsets := hq.workSetsExact
  unfold OoOCore.lsqUpdates
  by_cases hn : c.lsq.needsUpdate = true
  · rw [if_pos hn]
    obtain ⟨h1, h2⟩ := updateLoop_visit c.lsq.visitUpdates c 0
    refine ⟨h1, fun j hj => ?_⟩
    rw [← Bool.not_eq_true]
    intro he
    have hw := h1.capturable j he
    rw [OoOCore.capturable, Bool.and_eq_true] at hw
    have hmem : j ∈ c.lsq.visitUpdates := by
      rw [hsets.updates]
      exact List.mem_filter.mpr ⟨hj, by rw [LsqEntry.isUpdate, hw.1, Bool.or_true]⟩
    rw [h2 j hmem] at he
    cases he
  · rw [if_neg hn]
    refine ⟨.refl c, fun j hj => ?_⟩
    rw [← Bool.not_eq_true]
    intro he
    rw [OoOCore.capturable, Bool.and_eq_true] at he
    exact hn (hsets.needsUpdate.mpr ⟨j, hj, by rw [LsqEntry.isUpdate, he.1, Bool.or_true]⟩)

end Updates

/-! ## The state of the first access -/

section Settled

variable {M : Type} {c : OoOCore M}

theorem olderStore_not_ready (le : LsqEntry) (addr : Word) (size : Nat) (d d' : Word) :
    olderStore le addr size false d = olderStore le addr size false d' := rfl

/-- Where no store can be captured, what a store has is what is at hand. -/
theorem lsqVerdict_settled (hq : c.lsq.Ordered) (h : ∀ j ∈ c.lsq.ring.slots, c.capturable j = false) (slot : Nat) :
    c.lsqVerdict slot = c.settledLsqVerdict slot := by
  unfold OoOCore.lsqVerdict OoOCore.settledLsqVerdict
  dsimp only
  split
  · apply findSome?_congr_mem
    intro i hi
    have hi' : c.lsq.knownStores i = true := by
      unfold LSQ.visitOlderStores SlotSet.visitOlder SlotSet.reverse at hi
      split at hi
      · exact (List.mem_filter.mp hi).2
      · rcases List.mem_append.mp hi with hi | hi
        · exact (List.mem_filter.mp hi).2
        · exact (List.mem_filter.mp hi).2
    rw [hq.wf.knownStores, LSQ.liveSet, Bool.and_eq_true, decide_eq_true_eq] at hi'
    obtain ⟨hlive, hknown⟩ := hi'
    rw [LsqEntry.isKnownStore, Bool.and_eq_true] at hknown
    unfold OoOCore.dataAtHand
    dsimp only
    cases hr : (c.lsq.at' i).dataReady with
    | true => rfl
    | false =>
        have hno := h i hlive
        have hwait : (c.lsq.at' i).isWaiting = true := by
          rw [LsqEntry.isWaiting, hr, Bool.not_false, Bool.and_true]
          exact hknown.1
        rw [OoOCore.capturable, hwait, Bool.true_and] at hno
        rw [if_neg Bool.false_ne_true, hno, if_neg Bool.false_ne_true]
        exact olderStore_not_ready _ _ _ _ _
  · rfl

variable [MemPorts Nat M]

/-- What `lsqOperate` finds when it makes its first access, said of the state in which it starts. -/
structure Settles (c d : OoOCore M) : Prop where
  sight : SameSight c d
  lsqVerdict : ∀ j, d.lsqVerdict j = c.settledLsqVerdict j
  sbVerdict : ∀ j, d.sbVerdict j = c.settledSbVerdict j
  port : MemPorts.dCanAccept d.msys = c.portOpen
  pending : ∀ j ∈ c.lsq.ring.slots, (d.lsq.at' j).isPending = c.unanswered j

theorem beforeAccess_settles (hq : c.lsq.Ordered) (hb : c.sb.ring.Wf) (hq' : c.beforeAccess.lsq.Ordered) :
    Settles c c.beforeAccess := by
  obtain ⟨htook, hmsys⟩ := drainLoop_took (MemPorts.dReady c.msys) hq hb
  change Took c c.drainDataResponses c.ready at htook
  change c.drainDataResponses.msys = _ at hmsys
  unfold OoOCore.beforeAccess at hq' ⊢
  dsimp only at hq' ⊢
  generalize c.drainDataResponses = c₁ at htook hmsys hq' ⊢
  obtain ⟨hslots, he⟩ := popAcked_slots c₁.sb.ring.n htook.sb.2.1 (Nat.le_refl _)
  generalize popAcked c₁.sb.ring.n c₁.sb = b at hslots he hq' ⊢
  have hsight : SameSight c { c₁ with sb := b } := htook.sight.trans (.frame c₁ c₁.msys b)
  obtain ⟨hvisit, hcap⟩ := lsqUpdates_visit (c := { c₁ with sb := b }) htook.lsq
  have hall := hsight.trans hvisit.sight
  have hlsq : ∀ j ∈ c.lsq.ring.slots, OoOCore.capturable (OoOCore.lsqUpdates { c₁ with sb := b }) j = false :=
    fun j hj => hcap j (by rw [hsight.slots]; exact hj)
  refine ⟨hall, fun j => ?_, fun j => ?_, ?_, fun j hj => ?_⟩
  · rw [lsqVerdict_settled hq' (fun i hi => hlsq i (by rw [← hall.slots]; exact hi)) j, hall.settledLsqVerdict]
  · -- the pops leave the stores that stay
    have hstay : b.ring.slots = c.staying := by
      rw [hslots, htook.sb.1]
      apply dropWhile_congr_mem
      intro s hs
      rw [htook.acked s hs]
      rfl
    have haddr := hall.site j
    simp only [LsqEntry.site, Prod.mk.injEq] at haddr
    unfold OoOCore.sbVerdict OoOCore.settledSbVerdict Ring.entries
    dsimp only
    rw [hvisit.sb, hstay, ← List.map_reverse, ← List.map_reverse, List.findSome?_map, List.findSome?_map]
    apply findSome?_congr_mem
    intro s hs
    have hs' : s ∈ c.sb.ring.slots := List.dropWhile_subset _ (List.mem_reverse.mp hs)
    simp only [Function.comp]
    rw [he, htook.acked s hs']
    unfold olderStore
    rw [haddr.2.2.2.1, haddr.2.2.2.2.1]
  · rw [hvisit.msys]
    exact congrArg _ hmsys
  · rw [hvisit.pending]
    exact htook.pending j hj

/-- So the older stores then mean for a load what they will be seen to mean now. -/
theorem Settles.verdict {d : OoOCore M} (h : Settles c d) (slot : Nat) : d.verdict slot = c.settledVerdict slot := by
  unfold OoOCore.verdict OoOCore.settledVerdict
  rw [h.lsqVerdict, h.sbVerdict]
  cases c.settledLsqVerdict slot with
  | none => rfl
  | some v => rfl

end Settled

end RvO3
