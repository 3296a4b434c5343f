import RvO3.Core.Port

/-!
# The store buffer

Committed stores wait in a ring. They are sent in order, the sent ones being a prefix of
the ring (`issued` counts them), their acks return in any order, and they leave in order
once acked. An ack names its entry by ring slot and transaction number. With a data port
that answers each access at most once the tags not yet answered are exactly those of the
entries sent and not acked, so every ack finds the entry it answers.
-/

set_option autoImplicit false

namespace RvO3

open OoOCore

/-! ## Tags -/

/-- The tag of a store is its top bit, its slot and its transaction, in separate fields. -/
theorem storeTag_eq {slot txn : Nat} (hs : slot < 2 ^ 31) (ht : txn < 2 ^ 32) :
    storeTag slot txn = 2 ^ 63 + slot * 2 ^ 32 + txn := by
  have h1 : (slot <<< 32) % 2 ^ 64 = slot * 2 ^ 32 := by
    rw [Nat.shiftLeft_eq]
    omega
  have h2 : 2 ^ 63 ||| slot * 2 ^ 32 = 2 ^ 63 + slot * 2 ^ 32 := by
    have h := Nat.two_pow_add_eq_or_of_lt (i := 63) (b := slot * 2 ^ 32) (by omega) 1
    rw [Nat.mul_one] at h
    exact h.symm
  have h3 := Nat.two_pow_add_eq_or_of_lt (i := 32) ht (2 ^ 31 + slot)
  unfold storeTag
  rw [h1, h2, show 2 ^ 63 + slot * 2 ^ 32 = 2 ^ 32 * (2 ^ 31 + slot) by omega, ← h3]

/-- The tag of a load is its slot and its generation, in separate fields. -/
theorem loadTag_eq {slot gen : Nat} (hs : slot < 2 ^ 32) (hg : gen < 2 ^ 16) :
    loadTag slot gen = slot * 2 ^ 16 + gen := by
  have h1 : (slot <<< 16) % 2 ^ 64 = slot * 2 ^ 16 := by
    rw [Nat.shiftLeft_eq]
    omega
  have h3 := Nat.two_pow_add_eq_or_of_lt (i := 16) hg slot
  unfold loadTag
  rw [h1, Nat.mul_comm slot, ← h3]

/-- Is this the tag of a store? -/
def isStoreTag (t : Nat) : Prop := t.testBit 63 = true

instance : DecidablePred isStoreTag := fun t => inferInstanceAs (Decidable (t.testBit 63 = true))

/-- The top bit tells a store's tag. -/
theorem isStoreTag_storeTag (slot txn : Nat) : isStoreTag (storeTag slot txn) := by
  unfold isStoreTag storeTag
  rw [Nat.testBit_or, Nat.testBit_or, Nat.testBit_two_pow_self]
  rfl

/-- A load's tag is not taken for a store's. -/
theorem not_isStoreTag_loadTag {slot gen : Nat} (hs : slot < 2 ^ 32) (hg : gen < 2 ^ 16) :
    ¬ isStoreTag (loadTag slot gen) := by
  rw [isStoreTag, loadTag_eq hs hg, Nat.testBit_eq_decide_div_mod_eq, decide_eq_true_eq]
  omega

/-- The entry a store tag names. -/
theorem storeTag_decode {slot txn : Nat} (hs : slot < 2 ^ 31) (ht : txn < 2 ^ 32) :
    storeTag slot txn % 2 ^ 32 = txn ∧
      (storeTag slot txn % 2 ^ 63) >>> 32 % 2 ^ 32 = slot := by
  rw [storeTag_eq hs ht, Nat.shiftRight_eq_div_pow]
  omega

/-! ## The buffer alone -/

/-- The stores in the buffer, oldest first. -/
def StoreBuffer.writes (b : StoreBuffer) : List MemoryWrite := b.ring.entries.map StoreBufEntry.asWrite

/-- The slots of the stores that were sent. -/
def StoreBuffer.sentSlots (b : StoreBuffer) : List Nat := b.ring.slots.take b.issued

/-- The tag of the access that sent the store at a slot. -/
def StoreBuffer.tagAt (b : StoreBuffer) (s : Nat) : Nat := storeTag s (b.ring.e s).txn

/-- The tags of the stores that were sent and not acked. -/
def StoreBuffer.unacked (b : StoreBuffer) : Multiset Nat :=
  tally b.sentSlots (fun s => !(b.ring.e s).acked) b.tagAt

/-- The store buffer: what was sent is a prefix, and an entry behind it was neither sent nor
acknowledged. -/
structure StoreBuffer.Ok (b : StoreBuffer) : Prop where
  wf : b.ring.Wf
  small : b.ring.capacity ≤ 2 ^ 31
  issued_le : b.issued ≤ b.ring.n
  /-- The sent stores are a prefix. -/
  sent : ∀ s ∈ b.sentSlots, (b.ring.e s).inflight = true
  waiting : ∀ s ∈ b.ring.slots.drop b.issued, (b.ring.e s).inflight = false ∧
    (b.ring.e s).acked = false
  txn : ∀ s ∈ b.ring.slots, (b.ring.e s).txn < 2 ^ 32

/-- The part of it that needs no bound on the size: the sent stores are a prefix, and only
they are acked. -/
structure StoreBuffer.InOrder (b : StoreBuffer) : Prop where
  wf : b.ring.Wf
  issued_le : b.issued ≤ b.ring.n
  sent : ∀ s ∈ b.sentSlots, (b.ring.e s).inflight = true
  waiting : ∀ s ∈ b.ring.slots.drop b.issued, (b.ring.e s).inflight = false ∧
    (b.ring.e s).acked = false

namespace StoreBuffer

variable {b : StoreBuffer}

theorem Ok.inOrder (h : b.Ok) : b.InOrder := ⟨h.wf, h.issued_le, h.sent, h.waiting⟩

theorem Ok.sentSlots_mem {s : Nat} (hs : s ∈ b.sentSlots) : s ∈ b.ring.slots :=
  List.mem_of_mem_take hs

theorem Ok.slot_lt (h : b.Ok) {s : Nat} (hs : s ∈ b.ring.slots) : s < 2 ^ 31 :=
  Nat.lt_of_lt_of_le (Ring.mem_slots_lt h.wf hs) h.small

theorem InOrder.init {size : Nat} (h : 1 ≤ size) : (StoreBuffer.init size).InOrder := by
  have hnil : (StoreBuffer.init size).ring.slots = [] := Ring.slots_init size
  refine ⟨Ring.wf_init h, Nat.zero_le _, ?_, ?_⟩
  · simp [sentSlots, hnil]
  · simp [hnil]

theorem Ok.init {size : Nat} (h : 1 ≤ size) (hsize : size ≤ 2 ^ 31) : (StoreBuffer.init size).Ok := by
  have hnil : (StoreBuffer.init size).ring.slots = [] := Ring.slots_init size
  have hi := InOrder.init h
  refine ⟨hi.wf, hsize, hi.issued_le, hi.sent, hi.waiting, ?_⟩
  simp [hnil]

/-- Acked means sent, so the head of a buffer may be popped only once it was sent. -/
theorem InOrder.acked_sent (h : b.InOrder) {s : Nat} (hs : s ∈ b.ring.slots)
    (ha : (b.ring.e s).acked = true) : s ∈ b.sentSlots := by
  rw [← List.take_append_drop b.issued b.ring.slots] at hs
  rcases List.mem_append.mp hs with hs | hs
  · exact hs
  · rw [(h.waiting s hs).2] at ha
    cases ha

/-! ### A commit pushes -/

section Push

/-- A committed store enters behind the others, and waits to be sent. -/
theorem InOrder.push (h : b.InOrder) (addr data : Word) (size : Nat) (hf : b.ring.full = false) :
    (b.push { addr := addr, size := size, data := data }).InOrder ∧
      (b.push { addr := addr, size := size, data := data }).unacked = b.unacked ∧
      (b.push { addr := addr, size := size, data := data }).writes =
        b.writes ++ [MemoryWrite.mk' addr data size] ∧
      (b.push { addr := addr, size := size, data := data }).writes.take b.issued =
        b.writes.take b.issued := by
  -- the new entry is behind all that has been sent
  have hnew := Ring.allocIdx_notMem h.wf hf
  have hlen : b.issued ≤ b.ring.slots.length := by
    rw [Ring.length_slots]
    exact h.issued_le
  have hslots : (b.push { addr := addr, size := size, data := data }).ring.slots =
      b.ring.slots ++ [b.ring.allocIdx] := Ring.slots_push _ _
  have hsent : (b.push { addr := addr, size := size, data := data }).sentSlots = b.sentSlots := by
    unfold sentSlots
    rw [hslots]
    exact List.take_append_of_le_length hlen
  have hold : ∀ s ∈ b.ring.slots,
      (b.push { addr := addr, size := size, data := data }).ring.e s = b.ring.e s := by
    intro s hs
    exact Function.update_of_ne (fun he : s = b.ring.allocIdx => hnew (he ▸ hs)) _ _
  have hself : (b.push { addr := addr, size := size, data := data }).ring.e b.ring.allocIdx =
      { addr := addr, size := size, data := data } := Function.update_self _ _ _
  have hwrites : (b.push { addr := addr, size := size, data := data }).writes =
      b.writes ++ [MemoryWrite.mk' addr data size] := by
    unfold writes
    rw [show (b.push { addr := addr, size := size, data := data }).ring.entries =
      b.ring.entries ++ [{ addr := addr, size := size, data := data }] from
      Ring.entries_push h.wf hf _, List.map_append]
    rfl
  refine ⟨⟨h.wf.push hf _, Nat.le_succ_of_le h.issued_le, ?_, ?_⟩, ?_, hwrites, ?_⟩
  · intro s hs
    rw [hsent] at hs
    rw [hold s (Ok.sentSlots_mem hs)]
    exact h.sent s hs
  · intro s hs
    rw [hslots, show (b.push { addr := addr, size := size, data := data }).issued = b.issued from rfl,
      List.drop_append_of_le_length hlen] at hs
    -- what waits: the entries that did, and the new one with no flag set
    rcases List.mem_append.mp hs with hs | hs
    · rw [hold s (List.mem_of_mem_drop hs)]
      exact h.waiting s hs
    · rw [List.mem_singleton.mp hs, hself]
      exact ⟨rfl, rfl⟩
  · unfold unacked
    rw [hsent]
    apply tally_congr
    intro s hs
    have he := hold s (Ok.sentSlots_mem hs)
    exact ⟨by rw [he], by rw [tagAt, he, tagAt]⟩
  · rw [hwrites]
    apply List.take_append_of_le_length
    rw [writes, List.length_map, Ring.length_entries]
    exact h.issued_le

theorem Ok.push {addr data : Word} {size : Nat} (h : b.Ok) (hf : b.ring.full = false) :
    (b.push { addr := addr, size := size, data := data }).Ok ∧
      (b.push { addr := addr, size := size, data := data }).unacked = b.unacked ∧
      (b.push { addr := addr, size := size, data := data }).writes =
        b.writes ++ [MemoryWrite.mk' addr data size] ∧
      (b.push { addr := addr, size := size, data := data }).writes.take b.issued =
        b.writes.take b.issued := by
  obtain ⟨hi, hrest⟩ := h.inOrder.push addr data size hf
  refine ⟨⟨hi.wf, h.small, hi.issued_le, hi.sent, hi.waiting, fun s hs => ?_⟩, hrest⟩
  rw [show (b.push { addr := addr, size := size, data := data }).ring.slots =
    b.ring.slots ++ [b.ring.allocIdx] from Ring.slots_push _ _] at hs
  show (Function.update b.ring.e b.ring.allocIdx
    { addr := addr, size := size, data := data } s).txn < 2 ^ 32
  rw [Function.update_apply]
  split
  · exact Nat.two_pow_pos 32
  · rename_i hne
    rcases List.mem_append.mp hs with hs | hs
    · exact h.txn s hs
    · exact absurd (List.mem_singleton.mp hs) hne

end Push

/-! ### The head leaves -/

/-- Popping an acknowledged head takes the oldest store off, and leaves what the memory owes as it
was. -/
theorem InOrder.popHead (h : b.InOrder) (he : b.ring.empty = false)
    (ha : b.ring.head.acked = true) :
    b.popHead.InOrder ∧ 1 ≤ b.issued ∧ b.popHead.unacked = b.unacked ∧
      b.writes = b.ring.head.asWrite :: b.popHead.writes ∧
      b.writes.take b.issued = b.ring.head.asWrite :: b.popHead.writes.take b.popHead.issued := by
  obtain ⟨rest, hr⟩ := Ring.slots_eq_cons h.wf he
  have hhead : b.ring.headIdx ∈ b.sentSlots := by
    refine h.acked_sent ?_ ha
    rw [hr]
    exact List.mem_cons_self
  -- the head was sent, so the cursor is not at zero
  have hpos : 1 ≤ b.issued := by
    rcases Nat.eq_zero_or_pos b.issued with h0 | h0
    · rw [sentSlots, h0, List.take_zero] at hhead
      cases hhead
    · exact h0
  obtain ⟨k, hk⟩ : ∃ k, b.issued = k + 1 := ⟨b.issued - 1, by omega⟩
  have hk' : b.popHead.issued = k := by
    show b.issued - 1 = k
    omega
  have hslots : b.popHead.ring.slots = rest := by
    show b.ring.popHead.slots = rest
    rw [Ring.slots_popHead h.wf, hr]
    rfl
  have hsent : b.sentSlots = b.ring.headIdx :: b.popHead.sentSlots := by
    rw [sentSlots, sentSlots, hr, hslots, hk, hk', List.take_succ_cons]
  have hwrites : b.writes = b.ring.head.asWrite :: b.popHead.writes := by
    rw [writes, Ring.entries_eq_cons h.wf he]
    rfl
  refine ⟨⟨h.wf.popHead, ?_, ?_, ?_⟩, hpos, ?_, hwrites, ?_⟩
  · show b.issued - 1 ≤ b.ring.n - 1
    have hle := h.issued_le
    omega
  · intro s hs
    apply h.sent s
    rw [hsent]
    exact List.mem_cons_of_mem _ hs
  · intro s hs
    apply h.waiting s
    rw [hslots, hk'] at hs
    rw [hr, hk, List.drop_succ_cons]
    exact hs
  · unfold unacked
    rw [hsent, tally_cons, show (b.ring.e b.ring.headIdx).acked = true from ha]
    simp only [Bool.not_true, single_false, zero_add]
    rfl
  · rw [hwrites, hk, hk', List.take_succ_cons]

theorem Ok.popHead (h : b.Ok) (he : b.ring.empty = false) (ha : b.ring.head.acked = true) :
    b.popHead.Ok ∧ 1 ≤ b.issued ∧ b.popHead.unacked = b.unacked ∧
      b.writes = b.ring.head.asWrite :: b.popHead.writes ∧
      b.writes.take b.issued = b.ring.head.asWrite :: b.popHead.writes.take b.popHead.issued := by
  obtain ⟨hi, hrest⟩ := h.inOrder.popHead he ha
  refine ⟨⟨hi.wf, h.small, hi.issued_le, hi.sent, hi.waiting, fun s hs => h.txn s ?_⟩, hrest⟩
  rw [show b.popHead.ring.slots = b.ring.slots.tail from Ring.slots_popHead h.wf] at hs
  exact List.mem_of_mem_tail hs

/-! ### The oldest unsent store is sent -/

/-- The store to send next is the oldest one that has not been sent. -/
theorem nextToIssue_some {slot : Nat} (hn : b.nextToIssue = some slot) :
    b.issued < b.ring.n ∧ b.ring.indexOf b.issued = slot ∧
      b.ring.slots = b.sentSlots ++ slot :: b.ring.slots.drop (b.issued + 1) := by
  unfold nextToIssue at hn
  split at hn
  · rename_i hlt
    have hlt' : b.issued < b.ring.slots.length := by
      rw [Ring.length_slots]
      exact hlt
    have hslot := Option.some.inj hn
    refine ⟨hlt, hslot, ?_⟩
    have hget : b.ring.slots[b.issued] = slot := by
      simp only [Ring.slots, List.getElem_map, List.getElem_range]
      exact hslot
    rw [sentSlots, ← hget, ← List.drop_eq_getElem_cons hlt', List.take_append_drop]
  · cases hn

theorem sentBuffer_ring {slot : Nat} (txn : Nat) (hn : b.nextToIssue = some slot) :
    (sentBuffer b slot txn).ring =
      b.ring.set slot { b.ring.e slot with txn := txn, inflight := true } := by
  obtain ⟨-, hidx, -⟩ := nextToIssue_some hn
  unfold sentBuffer issue setEntry
  dsimp only
  rw [show (b.ring.set slot { b.ring.e slot with txn := txn }).indexOf b.issued = slot from hidx,
    Ring.set_set, Ring.set_self_e]

/-- The store that is sent joins the sent ones, and is the first that was not. -/
theorem sentBuffer_slots {slot : Nat} (txn : Nat) (hn : b.nextToIssue = some slot) :
    (sentBuffer b slot txn).ring.slots = b.ring.slots ∧
      (sentBuffer b slot txn).sentSlots = b.sentSlots ++ [slot] ∧
      b.ring.slots.drop b.issued = slot :: b.ring.slots.drop (b.issued + 1) := by
  obtain ⟨hlt, -, hsplit⟩ := nextToIssue_some hn
  have hissued : (sentBuffer b slot txn).issued = b.issued + 1 := rfl
  have hslots : (sentBuffer b slot txn).ring.slots = b.ring.slots := by
    rw [sentBuffer_ring txn hn, Ring.slots_set]
  refine ⟨hslots, ?_, ?_⟩
  · have hlen : b.sentSlots.length = b.issued := by
      rw [sentSlots, List.length_take, Ring.length_slots]
      exact Nat.min_eq_left (Nat.le_of_lt hlt)
    rw [sentSlots, hslots, hissued]
    conv_lhs => rw [hsplit]
    rw [List.take_append, hlen, List.take_of_length_le (by omega), show b.issued + 1 - b.issued = 1 by omega,
      List.take_succ_cons, List.take_zero]
  · have happ := List.take_append_drop b.issued b.ring.slots
    have heq : b.sentSlots ++ b.ring.slots.drop b.issued =
        b.sentSlots ++ slot :: b.ring.slots.drop (b.issued + 1) := happ.trans hsplit
    exact List.append_cancel_left heq

/-- What the buffer will write does not change. -/
theorem sentBuffer_writes {slot : Nat} (txn : Nat) (hn : b.nextToIssue = some slot) :
    (sentBuffer b slot txn).writes = b.writes := by
  unfold writes Ring.entries
  rw [sentBuffer_ring txn hn, Ring.slots_set, List.map_map, List.map_map]
  apply List.map_congr_left
  intro s _
  by_cases hs : s = slot
  · rw [hs, Function.comp, Function.comp, Ring.set_self_e]
    rfl
  · rw [Function.comp, Function.comp, Ring.set_e, Function.update_of_ne hs]

/-- Sending a store adds its tag to what the memory owes. -/
theorem InOrder.send (h : b.InOrder) {slot : Nat} (txn : Nat) (hn : b.nextToIssue = some slot) :
    (sentBuffer b slot txn).InOrder ∧
      (sentBuffer b slot txn).unacked = storeTag slot txn ::ₘ b.unacked ∧
      (sentBuffer b slot txn).writes = b.writes ∧
      (sentBuffer b slot txn).writes.take (sentBuffer b slot txn).issued =
        b.writes.take b.issued ++ [(b.ring.e slot).asWrite] := by
  -- the slot is the first one not sent
  obtain ⟨hlt, -, hsplit⟩ := nextToIssue_some hn
  obtain ⟨hslots, hsent, hdrop⟩ := sentBuffer_slots txn hn
  have hring := sentBuffer_ring txn hn
  have hissued : (sentBuffer b slot txn).issued = b.issued + 1 := rfl
  have hwait := h.waiting slot (by rw [hdrop]; exact List.mem_cons_self)
  have hnd := Ring.slots_nodup h.wf
  rw [hsplit] at hnd
  have hself : (sentBuffer b slot txn).ring.e slot =
      { b.ring.e slot with txn := txn, inflight := true } := by
    rw [hring, Ring.set_self_e]
  have hother : ∀ s, s ≠ slot → (sentBuffer b slot txn).ring.e s = b.ring.e s := by
    intro s hs
    rw [hring, Ring.set_e, Function.update_of_ne hs]
  have hne : ∀ s ∈ b.sentSlots, s ≠ slot := by
    rintro s hs rfl
    exact (List.nodup_append.mp hnd).2.2 _ hs _ List.mem_cons_self rfl
  refine ⟨⟨?_, ?_, ?_, ?_⟩, ?_, sentBuffer_writes txn hn, ?_⟩
  · rw [hring]
    exact h.wf.set _ _
  · rw [hissued, hring]
    exact hlt
  · intro s hs
    rw [hsent] at hs
    rcases List.mem_append.mp hs with hs | hs
    · rw [hother s (hne s hs)]
      exact h.sent s hs
    · rw [List.mem_singleton.mp hs, hself]
  · intro s hs
    rw [hslots, hissued] at hs
    -- a slot occurs once, and this one is now among the sent
    have hs' : s ≠ slot := by
      rintro rfl
      exact (List.nodup_cons.mp (List.nodup_append.mp hnd).2.1).1 hs
    rw [hother s hs']
    apply h.waiting s
    rw [hdrop]
    exact List.mem_cons_of_mem _ hs
  · unfold unacked
    rw [hsent, tally_append, tally_singleton]
    -- the tags that were unacknowledged still are
    have hrest : tally b.sentSlots (fun s => !((sentBuffer b slot txn).ring.e s).acked)
        (sentBuffer b slot txn).tagAt = tally b.sentSlots (fun s => !(b.ring.e s).acked) b.tagAt := by
      apply tally_congr
      intro s hs
      rw [tagAt, tagAt, hother s (hne s hs)]
      exact ⟨rfl, rfl⟩
    rw [hrest, tagAt, hself]
    simp only [hwait.2, Bool.not_false, single_true]
    rw [add_comm, Multiset.singleton_add]
  · rw [sentBuffer_writes txn hn, hissued]
    -- the write that is sent is the next one in order
    have hget : b.writes[b.issued]? = some (b.ring.e slot).asWrite := by
      unfold writes Ring.entries
      rw [List.getElem?_map, List.getElem?_map, hsplit, List.getElem?_append_right] <;>
        simp [sentSlots, Nat.min_eq_left (Nat.le_of_lt hlt)]
    rw [List.take_add_one, hget]
    rfl

theorem Ok.send (h : b.Ok) {slot txn : Nat} (hn : b.nextToIssue = some slot) (ht : txn < 2 ^ 32) :
    (sentBuffer b slot txn).Ok ∧
      (sentBuffer b slot txn).unacked = storeTag slot txn ::ₘ b.unacked ∧
      (sentBuffer b slot txn).writes = b.writes ∧
      (sentBuffer b slot txn).writes.take (sentBuffer b slot txn).issued =
        b.writes.take b.issued ++ [(b.ring.e slot).asWrite] := by
  obtain ⟨hi, hrest⟩ := h.inOrder.send txn hn
  have hring := sentBuffer_ring txn hn
  refine ⟨⟨hi.wf, ?_, hi.issued_le, hi.sent, hi.waiting, fun s hs => ?_⟩, hrest⟩
  · rw [hring]
    exact h.small
  · rw [hring, Ring.slots_set] at hs
    rw [hring, Ring.set_e, Function.update_apply]
    split
    · exact ht
    · exact h.txn s hs

theorem setEntry_acked {i : Nat} {v : StoreBufEntry} (hv : v.acked = (b.ring.e i).acked) (s : Nat) :
    ((b.setEntry i v).ring.e s).acked = (b.ring.e s).acked := by
  unfold setEntry
  rw [Ring.set_e, Function.update_apply]
  split
  · rename_i hs
    rw [hv, hs]
  · rfl

theorem sentBuffer_acked (b : StoreBuffer) (slot txn s : Nat) :
    ((sentBuffer b slot txn).ring.e s).acked = (b.ring.e s).acked := by
  let b₁ := b.setEntry slot { b.ring.e slot with txn := txn }
  have hfirst : (b₁.ring.e s).acked = (b.ring.e s).acked := setEntry_acked (by rfl) s
  have hsecond : ((b₁.setEntry (b₁.ring.indexOf b₁.issued)
      { b₁.ring.e (b₁.ring.indexOf b₁.issued) with inflight := true }).ring.e s).acked =
      (b₁.ring.e s).acked := setEntry_acked (by rfl) s
  exact hsecond.trans hfirst

/-! ### An ack arrives -/

/-- The ack of an access not yet answered marks the entry that sent it. -/
theorem Ok.ack (h : b.Ok) {t : Nat} (ht : t ∈ b.unacked) :
    ∃ s ∈ b.sentSlots, (b.ring.e s).acked = false ∧ b.tagAt s = t ∧
      storeAck b t = b.setEntry s { b.ring.e s with acked := true } := by
  obtain ⟨s, hs, hna, htag⟩ := mem_tally.mp ht
  have hmem := sentSlots_mem hs
  have hnot : (b.ring.e s).acked = false := by simpa using hna
  refine ⟨s, hs, hnot, htag, ?_⟩
  obtain ⟨h1, h2⟩ := storeTag_decode (h.slot_lt hmem) (h.txn s hmem)
  have hlive := (Ring.live_iff h.wf).mpr hmem
  have hin := h.sent s hs
  unfold storeAck
  rw [← htag, tagAt, h1, h2]
  dsimp only
  have hcond : b.ring.live s = true ∧ (b.ring.e s).inflight = true ∧
      (!(b.ring.e s).acked) = true ∧ (b.ring.e s).txn = (b.ring.e s).txn :=
    ⟨hlive, hin, by rw [hnot]; rfl, rfl⟩
  rw [if_pos hcond]

/-- An acknowledgement for a store that was sent takes its tag off what the memory owes, and leaves
the order alone. -/
theorem InOrder.mark (h : b.InOrder) {s : Nat} (hs : s ∈ b.sentSlots)
    (hna : (b.ring.e s).acked = false) :
    (b.setEntry s { b.ring.e s with acked := true }).InOrder ∧
      b.unacked = b.tagAt s ::ₘ (b.setEntry s { b.ring.e s with acked := true }).unacked ∧
      (b.setEntry s { b.ring.e s with acked := true }).writes = b.writes := by
  have hself : (b.setEntry s { b.ring.e s with acked := true }).ring.e s =
      { b.ring.e s with acked := true } := Ring.set_self_e _ _ _
  have hother : ∀ j, j ≠ s →
      (b.setEntry s { b.ring.e s with acked := true }).ring.e j = b.ring.e j :=
    fun j hj => Function.update_of_ne hj _ _
  have hsplit := List.take_append_drop b.issued b.ring.slots
  have hnd := Ring.slots_nodup h.wf
  have htake : b.sentSlots.Nodup := hnd.sublist (List.take_sublist _ _)
  refine ⟨⟨h.wf.set _ _, h.issued_le, ?_, ?_⟩, ?_, ?_⟩
  · intro j hj
    by_cases hjs : j = s
    · rw [hjs, hself]
      exact h.sent s hs
    · rw [hother j hjs]
      exact h.sent j hj
  · intro j hj
    have hj' : j ∈ b.ring.slots.drop b.issued := hj
    -- the marked slot has been sent, so it does not wait
    have hjs : j ≠ s := by
      rintro rfl
      rw [← hsplit] at hnd
      exact (List.nodup_append.mp hnd).2.2 _ hs _ hj' rfl
    rw [hother j hjs]
    exact h.waiting j hj'
  · -- exactly one tag leaves the unacknowledged ones
    have hch := tally_change htake hs
      (p := fun j => !(b.ring.e j).acked) (f := b.tagAt)
      (q := fun j => !((b.setEntry s { b.ring.e s with acked := true }).ring.e j).acked)
      (g := (b.setEntry s { b.ring.e s with acked := true }).tagAt) (fun j _ hjs => by
        rw [tagAt, tagAt, hother j hjs]
        exact ⟨rfl, rfl⟩)
    simp only [hself, hna, Bool.not_true, Bool.not_false, single_true, single_false, add_zero] at hch
    unfold unacked
    rw [← hch, add_comm, Multiset.singleton_add]
    rfl
  · unfold writes Ring.entries
    rw [show (b.setEntry s { b.ring.e s with acked := true }).ring.slots = b.ring.slots from
      Ring.slots_set _ _ _, List.map_map, List.map_map]
    apply List.map_congr_left
    intro j _
    by_cases hjs : j = s
    · rw [hjs, Function.comp, Function.comp, hself]
      rfl
    · rw [Function.comp, Function.comp, hother j hjs]

theorem Ok.mark (h : b.Ok) {s : Nat} (hs : s ∈ b.sentSlots) (hna : (b.ring.e s).acked = false) :
    (b.setEntry s { b.ring.e s with acked := true }).Ok ∧
      b.unacked = b.tagAt s ::ₘ (b.setEntry s { b.ring.e s with acked := true }).unacked ∧
      (b.setEntry s { b.ring.e s with acked := true }).writes = b.writes := by
  obtain ⟨hi, hrest⟩ := h.inOrder.mark hs hna
  refine ⟨⟨hi.wf, h.small, hi.issued_le, hi.sent, hi.waiting, fun j hj => ?_⟩, hrest⟩
  have hj' : j ∈ b.ring.slots := hj
  show (Function.update b.ring.e s { b.ring.e s with acked := true } j).txn < 2 ^ 32
  rw [Function.update_apply]
  split
  · exact h.txn s (Ok.sentSlots_mem hs)
  · exact h.txn j hj'

/-- Whatever its tag, an ack marks a store that was sent, or nothing. -/
theorem InOrder.storeAck_cases (h : b.InOrder) (tag : Nat) : storeAck b tag = b ∨
    ∃ s ∈ b.sentSlots, (b.ring.e s).acked = false ∧
      storeAck b tag = b.setEntry s { b.ring.e s with acked := true } := by
  unfold storeAck
  dsimp only
  split
  · rename_i hc
    obtain ⟨hlive, hin, hna, -⟩ := hc
    have hmem := (Ring.live_iff h.wf).mp hlive
    refine .inr ⟨_, ?_, by simpa using hna, rfl⟩
    -- an entry in flight was sent
    rw [← List.take_append_drop b.issued b.ring.slots] at hmem
    rcases List.mem_append.mp hmem with hs | hs
    · exact hs
    · rw [(h.waiting _ hs).1] at hin
      cases hin
  · exact .inl rfl

/-- So does a response, whether it is an ack or not. -/
theorem InOrder.response_cases {b' : StoreBuffer} {ack : Bool} {tag : Nat} (h : b.InOrder)
    (hb' : b' = if ack then storeAck b tag else b) : b' = b ∨
    ∃ s ∈ b.sentSlots, (b.ring.e s).acked = false ∧
      b' = b.setEntry s { b.ring.e s with acked := true } := by
  rw [hb']
  split
  · exact h.storeAck_cases tag
  · exact .inl rfl

end StoreBuffer

/-! ## What a load sees -/

/-- An older store that overlaps the load never lets it pass: it forwards or it blocks. -/
theorem olderStore_ne_clear {le : LsqEntry} {addr data : Word} {size : Nat} {ready : Bool}
    {v : Verdict} (h : olderStore le addr size ready data = some v) : v ≠ .clear := by
  unfold olderStore at h
  split at h
  · cases h
    split <;> exact nofun
  · split at h
    · cases h
      exact nofun
    · cases h

/-- A load that may go found nothing in the store buffer. -/
theorem OoOCore.sbVerdict_of_clear {M : Type} {c : OoOCore M} {slot : Nat}
    (hv : c.verdict slot = .clear) : c.sbVerdict slot = none := by
  unfold OoOCore.verdict at hv
  split at hv
  · rename_i v hl
    unfold OoOCore.lsqVerdict at hl
    dsimp only at hl
    split at hl
    · obtain ⟨i, -, hi⟩ := List.exists_of_findSome?_eq_some hl
      exact absurd hv (olderStore_ne_clear hi)
    · cases hl
  · cases hs : c.sbVerdict slot with
    | none => rfl
    | some v =>
        obtain ⟨st, -, hst⟩ := List.exists_of_findSome?_eq_some hs
        rw [hs] at hv
        exact absurd hv (olderStore_ne_clear hst)

/-! ## The buffer in a run -/

section Run

variable {M : Type} [MemPorts Nat M] {cfg : SimConfig} {L : AnswersOnce M}
  {c c' : OoOCore (Recorded M)}

/-- The stores committed so far, oldest first. -/
def committedStores (c : OoOCore (Recorded M)) : List MemoryWrite :=
  c.commits.filterMap fun r => r.memoryWrite

/-- The stores the data port accepted, oldest first. -/
def sentStores (m : Recorded M) : List MemoryWrite :=
  (m.sent.filter fun r => r.isWrite).map fun r =>
    MemoryWrite.mk' (BitVec.ofNat 32 r.addr) r.wdata r.size

/-- The store buffer and the data port agree on which stores are still to be answered. -/
structure BufferOk (cfg : SimConfig) (L : AnswersOnce M) (c : OoOCore (Recorded M)) : Prop where
  core : CoreOk cfg c
  lsq : c.lsq.Ordered
  tags : c.lsq.TagOk
  port : L.ok c.msys.port
  buf : c.sb.Ok
  ctr : c.sbTxnCtr < 2 ^ 32
  /-- Unanswered are exactly the stores sent and not acked. -/
  due : (L.due c.msys.port).filter isStoreTag = c.sb.unacked
  stores : ∃ gone, committedStores c = gone ++ c.sb.writes ∧
    sentStores c.msys = gone ++ c.sb.writes.take c.sb.issued

omit [MemPorts Nat M] in
theorem sentStores_append {m m' : Recorded M} {req : MemRequest Nat}
    (h : m'.sent = m.sent ++ [req]) :
    sentStores m' = sentStores m ++ if req.isWrite = true then
      [MemoryWrite.mk' (BitVec.ofNat 32 req.addr) req.wdata req.size] else [] := by
  unfold sentStores
  rw [h, List.filter_append, List.map_append]
  by_cases hw : req.isWrite = true <;> simp [hw]

/-- The memory system changed, but not what the data port owes or has accepted. -/
theorem BufferOk.of_same (h : BufferOk cfg L c) (hk : CoreOk cfg c') (ho : c'.lsq.Ordered)
    (ht : c'.lsq.TagOk) (hport : L.ok c'.msys.port) (hdue : L.due c'.msys.port = L.due c.msys.port)
    (hsent : c'.msys.sent = c.msys.sent) (hsb : c'.sb = c.sb) (hctr : c'.sbTxnCtr = c.sbTxnCtr)
    (hcommits : committedStores c' = committedStores c) : BufferOk cfg L c' := by
  refine ⟨hk, ho, ht, hport, ?_, ?_, ?_, ?_⟩
  · rw [hsb]
    exact h.buf
  · rw [hctr]
    exact h.ctr
  · rw [hdue, hsb]
    exact h.due
  · rw [hcommits, hsb, sentStores, hsent]
    exact h.stores

/-- The tags of the sent stores are those of their slots. -/
theorem StoreBuffer.Ok.tagAt_inj {b : StoreBuffer} (h : b.Ok) {i j : Nat} (hi : i ∈ b.ring.slots)
    (hj : j ∈ b.ring.slots) (ht : b.tagAt i = b.tagAt j) : i = j := by
  have h1 := (storeTag_decode (h.slot_lt hi) (h.txn i hi)).2
  have h2 := (storeTag_decode (h.slot_lt hj) (h.txn j hj)).2
  have ht' : storeTag i (b.ring.e i).txn = storeTag j (b.ring.e j).txn := ht
  rw [ht'] at h1
  exact h1.symm.trans h2

/-- The ack of a store finds the entry whose access it answers, and no other. -/
theorem BufferOk.acks (h : BufferOk cfg L c) {r : MemResponse Nat}
    (hr : MemPorts.dResponse c.msys = some r) (ht : isStoreTag r.tag) :
    ∃ s ∈ c.sb.sentSlots, (c.sb.ring.e s).acked = false ∧ c.sb.tagAt s = r.tag ∧
      storeAck c.sb r.tag = c.sb.setEntry s { c.sb.ring.e s with acked := true } ∧
        ∀ j ∈ c.sb.ring.slots, c.sb.tagAt j = r.tag → j = s := by
  have hdue := h.due
  rw [(L.response h.port hr).2, Multiset.filter_cons_of_pos _ ht] at hdue
  have hmem : r.tag ∈ c.sb.unacked := by
    rw [← hdue]
    exact Multiset.mem_cons_self _ _
  obtain ⟨s, hs, hna, htag, hack⟩ := h.buf.ack hmem
  exact ⟨s, hs, hna, htag, hack, fun j hj hjt =>
    h.buf.tagAt_inj hj (StoreBuffer.Ok.sentSlots_mem hs) (hjt.trans htag.symm)⟩

/-- A response of the data port leaves the buffer, acked where it answers a store. -/
theorem BufferOk.response {r : MemResponse Nat} (h : BufferOk cfg L c) (hk' : CoreOk cfg c')
    (ho' : c'.lsq.Ordered) (ht' : c'.lsq.TagOk) (hr : MemPorts.dResponse c.msys = some r)
    (hm : c'.msys = MemPorts.dPop c.msys)
    (hsb : c'.sb = if r.tag.testBit 63 then storeAck c.sb r.tag else c.sb)
    (hc : c'.commits = c.commits) (hctr : c'.sbTxnCtr = c.sbTxnCtr) : BufferOk cfg L c' := by
  obtain ⟨gone, hcom, hsent⟩ := h.stores
  obtain ⟨hport, hdue⟩ := L.response h.port hr
  have hm' : c'.msys.port = MemPorts.dPop c.msys.port := by
    rw [hm]
    rfl
  have hdue' := h.due
  rw [hdue] at hdue'
  by_cases ht : isStoreTag r.tag
  · rw [Multiset.filter_cons_of_pos _ ht] at hdue'
    obtain ⟨s, hs, hna, htag, hack, -⟩ := h.acks hr ht
    obtain ⟨h1, h2, h3⟩ := h.buf.mark hs hna
    have hsb := (hsb.trans (if_pos (show r.tag.testBit 63 = true from ht))).trans hack
    refine ⟨hk', ho', ht', by rw [hm']; exact hport, by rw [hsb]; exact h1,
      by rw [hctr]; exact h.ctr, ?_, gone, ?_, ?_⟩
    · rw [h2, htag] at hdue'
      rw [hm', hsb]
      exact (Multiset.cons_inj_right _).mp hdue'
    · rw [committedStores, hc, hsb, h3]
      exact hcom
    · rw [hsb, h3, hm]
      exact hsent
  · have hsb := hsb.trans (if_neg (show ¬ r.tag.testBit 63 = true from ht))
    rw [Multiset.filter_cons_of_neg _ ht] at hdue'
    refine ⟨hk', ho', ht', by rw [hm']; exact hport, by rw [hsb]; exact h.buf,
      by rw [hctr]; exact h.ctr, by rw [hm', hsb]; exact hdue', gone, ?_, ?_⟩
    · rw [committedStores, hc, hsb]
      exact hcom
    · rw [hsb, hm]
      exact hsent

/-- A load that is sent adds an access, but none of a store. -/
theorem BufferOk.sendLoad {slot : Nat} (h : BufferOk cfg L c) (hk' : CoreOk cfg c')
    (ho' : c'.lsq.Ordered) (ht' : c'.lsq.TagOk) (hsend : SendsLoad c c' slot)
    (hm : MemPorts.dAccess c.msys
      ((c.lsq.at' slot).request (loadTag slot (c.lsq.at' slot).gen)) = .ok c'.msys)
    (hsb : c'.sb = c.sb) (hc : c'.commits = c.commits) (hctr : c'.sbTxnCtr = c.sbTxnCtr) :
    BufferOk cfg L c' := by
  obtain ⟨gone, hcom, hsent⟩ := h.stores
  obtain ⟨hport, hsent'⟩ := Recorded.dAccess_ok hm
  obtain ⟨hok, hdue⟩ := L.access h.port hsend.accepts hport
  have hlive := (h.lsq.wf.candidate hsend.mayGo.candidate).1
  have hslot : slot < 2 ^ 32 :=
    Nat.lt_of_lt_of_le (Ring.mem_slots_lt h.lsq.wf.ring hlive) h.tags.small
  have hno := not_isStoreTag_loadTag hslot (h.tags.gen.gen_lt hlive)
  refine ⟨hk', ho', ht', hok, by rw [hsb]; exact h.buf, by rw [hctr]; exact h.ctr, ?_, gone, ?_, ?_⟩
  · have hdue' : L.due c'.msys.port =
        loadTag slot (c.lsq.at' slot).gen ::ₘ L.due c.msys.port := hdue
    rw [hdue', Multiset.filter_cons_of_neg _ hno, hsb]
    exact h.due
  · rw [committedStores, hc, hsb]
    exact hcom
  · rw [sentStores_append hsent', hsb, hsent]
    exact List.append_nil _

/-- A store that is sent is the next one of the buffer. -/
theorem BufferOk.sendStore {slot : Nat} (h : BufferOk cfg L c) (hk' : CoreOk cfg c')
    (ho' : c'.lsq.Ordered) (ht' : c'.lsq.TagOk) (hn : c.sb.nextToIssue = some slot)
    (hacc : MemPorts.dCanAccept c.msys = true)
    (hm : MemPorts.dAccess c.msys ((c.sb.ring.e slot).request (storeTag slot c.sbTxnCtr)) = .ok c'.msys)
    (hsb : c'.sb = sentBuffer c.sb slot c.sbTxnCtr) (hc : c'.commits = c.commits)
    (hctr : c'.sbTxnCtr = (c.sbTxnCtr + 1) % 2 ^ 32) : BufferOk cfg L c' := by
  obtain ⟨gone, hcom, hsent⟩ := h.stores
  obtain ⟨hport, hsent'⟩ := Recorded.dAccess_ok hm
  obtain ⟨hok, hdue⟩ := L.access h.port hacc hport
  obtain ⟨h1, h2, h3, h4⟩ := h.buf.send hn h.ctr
  refine ⟨hk', ho', ht', hok, by rw [hsb]; exact h1,
    by rw [hctr]; exact Nat.mod_lt _ (Nat.two_pow_pos 32), ?_, gone, ?_, ?_⟩
  · have hdue' : L.due c'.msys.port = storeTag slot c.sbTxnCtr ::ₘ L.due c.msys.port := hdue
    rw [hdue', Multiset.filter_cons_of_pos _ (isStoreTag_storeTag slot _), h.due, hsb, h2]
  · rw [committedStores, hc, hsb, h3]
    exact hcom
  · rw [sentStores_append hsent', hsb, h4, hsent, List.append_assoc]
    simp [StoreBufEntry.request, StoreBufEntry.asWrite]

/-- Every action keeps the store buffer's invariant, with what the ledger owes. -/
theorem Action.bufferOk (hcfg : cfg.Accepted) (ha : Action c c') (h : BufferOk cfg L c) :
    BufferOk cfg L c' := by
  have hk' := ha.coreOk hcfg h.core
  have ho' := ha.lsqOrdered h.core.back h.lsq
  have ht' := ha.tagOk h.core.back h.lsq h.tags
  obtain ⟨gone, hcom, hsent⟩ := h.stores
  -- by the memory side: the port invariant moves with the message, the buffer with its entry
  cases ha.memSide h.core.back with
  | quiet hs =>
      refine h.of_same hk' ho' ht' ?_ ?_ ?_ hs.sb hs.ctr (by rw [committedStores, hs.commits]; rfl)
      · rw [hs.msys]
        exact h.port
      · rw [hs.msys]
      · rw [hs.msys]
  | commit hw hm hsb hc hctr =>
      apply h.of_same hk' ho' ht' (by rw [hm]; exact h.port) (by rw [hm]) (by rw [hm]) hsb hctr
      rw [committedStores, hc, List.filterMap_append]
      simp [hw, committedStores]
  | store hf hw hm hsb hc hctr =>
      obtain ⟨h1, h2, h3, h4⟩ := h.buf.push hf
      refine ⟨hk', ho', ht', by rw [hm]; exact h.port, by rw [hsb]; exact h1, by rw [hctr]; exact h.ctr,
        by rw [hm, hsb, h2]; exact h.due, gone, ?_, ?_⟩
      · rw [committedStores, hc, List.filterMap_append, hsb, h3, ← List.append_assoc, ← hcom]
        simp [hw, committedStores]
      · rw [hm, hsent, hsb, ← h4]
        rfl
  | response hr hm hsb hc hctr => exact h.response hk' ho' ht' hr hm hsb hc hctr
  | popAck he hack hm hsb hc hctr =>
      -- the write that leaves has been sent and counted; it is kept in `gone`
      obtain ⟨h1, -, h3, h4, h5⟩ := h.buf.popHead he hack
      refine ⟨hk', ho', ht', by rw [hm]; exact h.port, by rw [hsb]; exact h1, by rw [hctr]; exact h.ctr,
        by rw [hm, hsb, h3]; exact h.due, gone ++ [c.sb.ring.head.asWrite], ?_, ?_⟩
      · rw [committedStores, hc, hsb, List.append_assoc, List.singleton_append, ← h4]
        exact hcom
      · rw [hm, hsb, List.append_assoc, List.singleton_append, ← h5]
        exact hsent
  | sendLoad hsend hm hsb hc hctr => exact h.sendLoad hk' ho' ht' hsend hm hsb hc hctr
  | sendStore hn hacc hm hsb hc hctr => exact h.sendStore hk' ho' ht' hn hacc hm hsb hc hctr
  | fetched hr hm hsb hc hctr =>
      obtain ⟨hok, hdue⟩ := L.fetched h.port hr
      have hm' : c'.msys.port = MemPorts.iPop c.msys.port := by
        rw [hm]
        rfl
      refine h.of_same hk' ho' ht' (by rw [hm']; exact hok) (by rw [hm']; exact hdue) (by rw [hm]; rfl) hsb
        hctr (by rw [committedStores, hc]; rfl)
  | fetch hacc _ hm hsb hc hctr =>
      obtain ⟨hport, hsent'⟩ := Recorded.iAccess_ok hm
      obtain ⟨hok, hdue⟩ := L.fetch h.port hacc hport
      exact h.of_same hk' ho' ht' hok hdue hsent' hsb hctr (by rw [committedStores, hc]; rfl)
  | tick hm hsb hc hctr =>
      obtain ⟨hport, hsent'⟩ := Recorded.tick_ok hm
      obtain ⟨hok, hdue⟩ := L.tick h.port hport
      exact h.of_same hk' ho' ht' hok hdue hsent' hsb hctr (by rw [committedStores, hc]; rfl)

/-- Every sequence of actions from reset keeps the store buffer's invariant, given a memory that
owes nothing to begin with. -/
theorem Actions.bufferOk (hcfg : cfg.Accepted) (hsb : cfg.sbSize ≤ 2 ^ 31)
    (hlsq : cfg.lsqSize ≤ 2 ^ 32) (frames : Bool) (inputs : Nat → Word) (histLen : Nat → Nat)
    {m₀ : M} (hok : L.ok m₀) (hdue : L.due m₀ = 0)
    (h : Actions (OoOCore.init cfg frames inputs histLen ⟨m₀, []⟩) c) : BufferOk cfg L c := by
  apply Actions.preserve (I := BufferOk cfg L) (fun ha hi => ha.bufferOk hcfg hi) h
  have hempty : (StoreBuffer.init cfg.sbSize).unacked = 0 := by
    simp [StoreBuffer.unacked, StoreBuffer.sentSlots, StoreBuffer.init]
  exact {
    core := init_coreOk frames inputs histLen _ hcfg
    lsq := LSQ.Ordered.init (LSQ.wf_init hcfg.lsq_pos)
    tags := .init hlsq
    port := hok
    buf := .init hcfg.sb_pos hsb
    ctr := Nat.two_pow_pos 32
    due := by
      show Multiset.filter isStoreTag (L.due m₀) = (StoreBuffer.init cfg.sbSize).unacked
      rw [hdue, hempty]
      rfl
    stores := ⟨[], rfl, rfl⟩ }

/-! ## What the buffer promises -/

/-- The buffer holds, in commit order, the committed stores that have not left it. -/
structure BufferExact (L : AnswersOnce M) (c : OoOCore (Recorded M)) : Prop where
  stores : ∃ gone, committedStores c = gone ++ c.sb.writes ∧
    sentStores c.msys = gone ++ c.sb.writes.take c.sb.issued
  issued_le : c.sb.issued ≤ c.sb.ring.n
  inflight : ∀ k, k < c.sb.ring.n → ((c.sb.ring.nth k).inflight = true ↔ k < c.sb.issued)
  acked : ∀ k, k < c.sb.ring.n → (c.sb.ring.nth k).acked = true → k < c.sb.issued
  /-- The port owes an ack for exactly the sent stores not yet acked, whose tags differ. -/
  owed : (L.due c.msys.port).filter isStoreTag = c.sb.unacked ∧ c.sb.unacked.Nodup
  /-- A load that no store in the buffer blocks or forwards to touches none of them. -/
  visible : ∀ slot, c.verdict slot = .clear → ∀ st ∈ c.sb.ring.entries,
    olderStore (c.lsq.at' slot) st.addr st.size true st.data = none

/-- What an action does to the buffer. -/
structure BufferStep (c c' : OoOCore (Recorded M)) : Prop where
  /-- A commit appends the store it commits; the head leaves once it was sent and acked. -/
  writes : (c'.sb.writes = c.sb.writes ∧ committedStores c' = committedStores c) ∨
    (∃ w, c'.sb.writes = c.sb.writes ++ [w] ∧ committedStores c' = committedStores c ++ [w]) ∨
      (c.sb.ring.empty = false ∧ c.sb.ring.head.acked = true ∧ 1 ≤ c.sb.issued ∧
        c.sb.writes = c.sb.ring.head.asWrite :: c'.sb.writes)
  /-- Only the answer to its own access marks an entry. -/
  acks : ∀ s ∈ c.sb.ring.slots, s ∈ c'.sb.ring.slots → (c.sb.ring.e s).acked = false →
    (c'.sb.ring.e s).acked = true → s ∈ c.sb.sentSlots ∧
      ∃ r, MemPorts.dResponse c.msys = some r ∧ r.tag = c.sb.tagAt s
  sent : sentStores c'.msys = sentStores c.msys ∨
    ∃ slot, c.sb.nextToIssue = some slot ∧
      sentStores c'.msys = sentStores c.msys ++ [(c.sb.ring.e slot).asWrite]

theorem BufferOk.exact (h : BufferOk cfg L c) : BufferExact L c := by
  have hlen : c.sb.ring.slots.length = c.sb.ring.n := Ring.length_slots _
  have hnth : ∀ k (hk : k < c.sb.ring.slots.length), c.sb.ring.indexOf k = c.sb.ring.slots[k] := by
    intro k hk
    simp [Ring.slots]
  -- the sent slots are those before the cursor
  have hbefore : ∀ k (hk : k < c.sb.ring.slots.length), k < c.sb.issued →
      c.sb.ring.slots[k] ∈ c.sb.sentSlots := by
    intro k hk hki
    rw [StoreBuffer.sentSlots, List.mem_take_iff_getElem]
    exact ⟨k, by omega, rfl⟩
  have hafter : ∀ k (hk : k < c.sb.ring.slots.length), c.sb.issued ≤ k →
      c.sb.ring.slots[k] ∈ c.sb.ring.slots.drop c.sb.issued := by
    intro k hk hki
    rw [List.mem_drop_iff_getElem]
    exact ⟨k - c.sb.issued, by omega, by simp [Nat.add_sub_cancel' hki]⟩
  refine ⟨h.stores, h.buf.issued_le, fun k hk => ?_, fun k hk ha => ?_, ⟨h.due, ?_⟩,
    fun slot hv st hst => ?_⟩
  · have hk' : k < c.sb.ring.slots.length := by omega
    rw [Ring.nth, hnth k hk']
    refine ⟨fun hin => ?_, fun hki => h.buf.sent _ (hbefore k hk' hki)⟩
    rw [← Nat.not_le]
    intro hki
    rw [(h.buf.waiting _ (hafter k hk' hki)).1] at hin
    cases hin
  · have hk' : k < c.sb.ring.slots.length := by omega
    rw [Ring.nth, hnth k hk'] at ha
    rw [← Nat.not_le]
    intro hki
    rw [(h.buf.waiting _ (hafter k hk' hki)).2] at ha
    cases ha
  · refine Multiset.coe_nodup.mpr (List.Nodup.map_on ?_ ?_)
    · intro i hi j hj ht
      exact h.buf.tagAt_inj (StoreBuffer.Ok.sentSlots_mem (List.mem_of_mem_filter hi))
        (StoreBuffer.Ok.sentSlots_mem (List.mem_of_mem_filter hj)) ht
    · exact ((Ring.slots_nodup h.buf.wf).sublist (List.take_sublist _ _)).filter _
  · have hnone := OoOCore.sbVerdict_of_clear hv
    rw [OoOCore.sbVerdict, List.findSome?_eq_none_iff] at hnone
    exact hnone st (List.mem_reverse.mpr hst)

/-- What an action does to the buffer: a commit appends, an acknowledged head leaves, and only the
answer to its own access marks an entry. -/
theorem Action.bufferStep (ha : Action c c') (h : BufferOk cfg L c) : BufferStep c c' := by
  -- an action that commits no store, sends none and leaves the buffer
  have hidle : c'.sb = c.sb → committedStores c' = committedStores c →
      sentStores c'.msys = sentStores c.msys → BufferStep c c' := by
    intro hsb hcom hsent
    refine ⟨.inl ⟨by rw [hsb], hcom⟩, fun s _ _ hna hack => ?_, .inl hsent⟩
    rw [hsb, hna] at hack
    cases hack
  cases ha.memSide h.core.back with
  | quiet hs => exact hidle hs.sb (by rw [committedStores, hs.commits]; rfl) (by rw [hs.msys])
  | commit hw hm hsb hc hctr =>
      refine hidle hsb ?_ (by rw [hm])
      rw [committedStores, hc, List.filterMap_append]
      simp [hw, committedStores]
  | store hf hw hm hsb hc hctr =>
      refine ⟨.inr (.inl ⟨_, by rw [hsb]; exact (h.buf.push hf).2.2.1, ?_⟩), fun s hs _ hna hack => ?_,
        .inl (by rw [hm])⟩
      · rw [committedStores, hc, List.filterMap_append]
        simp [hw, committedStores]
      · -- the slot that is filled was free, so no old entry changes
        have hne : s ≠ c.sb.ring.allocIdx :=
          fun he => Ring.allocIdx_notMem h.buf.wf hf (he ▸ hs)
        have hold : c'.sb.ring.e s = c.sb.ring.e s := by
          rw [hsb]
          exact Function.update_of_ne hne _ _
        rw [hold, hna] at hack
        cases hack
  | @response r hr hm hsb hc hctr =>
      have hcom : committedStores c' = committedStores c := by rw [committedStores, hc]; rfl
      by_cases ht : isStoreTag r.tag
      · obtain ⟨s, hs, hna, htag, hack, -⟩ := h.acks hr ht
        have hsb := (hsb.trans (if_pos (show r.tag.testBit 63 = true from ht))).trans hack
        refine ⟨.inl ⟨by rw [hsb]; exact (h.buf.mark hs hna).2.2, hcom⟩, fun j _ _ hna' hack' => ?_,
          .inl (by rw [hm]; rfl)⟩
        -- only the entry that the response names is marked
        have hj : j = s := by
          by_contra hne
          have hold : c'.sb.ring.e j = c.sb.ring.e j := by
            rw [hsb]
            exact Function.update_of_ne hne _ _
          rw [hold, hna'] at hack'
          cases hack'
        rw [hj]
        exact ⟨hs, r, hr, htag.symm⟩
      · exact hidle (hsb.trans (if_neg (show ¬ r.tag.testBit 63 = true from ht))) hcom (by rw [hm]; rfl)
  | popAck he hack hm hsb hc hctr =>
      obtain ⟨-, hpos, -, hw, -⟩ := h.buf.popHead he hack
      refine ⟨.inr (.inr ⟨he, hack, hpos, by rw [hsb]; exact hw⟩), fun s _ _ hna hack' => ?_,
        .inl (by rw [hm])⟩
      rw [hsb] at hack'
      exact absurd (hack'.symm.trans hna) nofun
  | sendLoad _ hm hsb hc hctr =>
      obtain ⟨-, hsent⟩ := Recorded.dAccess_ok hm
      apply hidle hsb (by rw [committedStores, hc]; rfl)
      rw [sentStores_append hsent]
      exact List.append_nil _
  | @sendStore slot hn hacc hm hsb hc hctr =>
      obtain ⟨-, hsent⟩ := Recorded.dAccess_ok hm
      refine ⟨.inl ⟨by rw [hsb]; exact (h.buf.send hn h.ctr).2.2.1, by rw [committedStores, hc]; rfl⟩,
        fun s _ _ hna hack => ?_, .inr ⟨slot, hn, ?_⟩⟩
      · rw [hsb, StoreBuffer.sentBuffer_acked, hna] at hack
        cases hack
      · rw [sentStores_append hsent]
        simp [StoreBufEntry.request, StoreBufEntry.asWrite]
  | fetched hr hm hsb hc hctr =>
      exact hidle hsb (by rw [committedStores, hc]; rfl) (by rw [hm]; rfl)
  | fetch hacc _ hm hsb hc hctr =>
      exact hidle hsb (by rw [committedStores, hc]; rfl)
        (by rw [sentStores, (Recorded.iAccess_ok hm).2]; rfl)
  | tick hm hsb hc hctr =>
      exact hidle hsb (by rw [committedStores, hc]; rfl)
        (by rw [sentStores, (Recorded.tick_ok hm).2]; rfl)

/-- With a data port that answers each access at most once, stores reach it in commit order, each
once; an ack marks exactly the entry whose access it answers; and entries leave in order, acked.
Transaction numbers wrap at `2 ^ 32`, far beyond what a buffer holds. -/
theorem store_buffer_exact (hcfg : cfg.Accepted) (hsb : cfg.sbSize ≤ 2 ^ 31)
    (hlsq : cfg.lsqSize ≤ 2 ^ 32) (frames : Bool) (inputs : Nat → Word) (histLen : Nat → Nat)
    (L : AnswersOnce M) {m₀ : M} (hok : L.ok m₀) (hdue : L.due m₀ = 0) :
    ∀ c, Actions (OoOCore.init cfg frames inputs histLen ⟨m₀, []⟩) c →
      BufferExact L c ∧ (∀ c', Action c c' → BufferStep c c') ∧
        ∀ r, MemPorts.dResponse c.msys = some r → isStoreTag r.tag →
          ∃ s ∈ c.sb.sentSlots, (c.sb.ring.e s).acked = false ∧ c.sb.tagAt s = r.tag ∧
            storeAck c.sb r.tag = c.sb.setEntry s { c.sb.ring.e s with acked := true } ∧
              ∀ j ∈ c.sb.ring.slots, c.sb.tagAt j = r.tag → j = s := by
  intro c hc
  have h : BufferOk cfg L c := hc.bufferOk hcfg hsb hlsq frames inputs histLen hok hdue
  exact ⟨h.exact, fun c' ha => ha.bufferStep h, fun r hr ht => h.acks hr ht⟩

end Run

/-- The default machine with a flat memory. -/
def flatConfig : SimConfig := { defaultConfig with flatMemory := true }

/-- Three stores to neighbouring words, the last one of a byte. -/
def storingProgram : Nat → Word
  | 0 => 0x00500093#32 -- addi x1, x0, 5
  | 1 => 0x04102023#32 -- sw x1, 64(x0)
  | 2 => 0x04002223#32 -- sw x0, 68(x0)
  | 3 => 0x04100423#32 -- sb x1, 72(x0)
  | _ => 0x00000013#32 -- nop

/-- The machine out of reset with `storingProgram` in memory, at a port that records its accesses.
-/
def storingCore : OoOCore (Recorded (MemorySystem Nat)) :=
  OoOCore.init busyConfig false (fun _ => 0) (fun _ => 0)
    ⟨MemorySystem.init busyConfig fun a => wordByte (storingProgram (a / 4)) (a % 4), []⟩

/-- In the fourteenth cycle the first store has left the buffer, the other two have been sent, and the
ack of the older one is at the port: it marks that entry. -/
theorem store_buffer_exact_storing : ∃ c r, Reach storingCore .drained c ∧
    (committedStores c).length = 3 ∧ (sentStores c.msys).length = 3 ∧ c.sb.ring.slots = [1, 2] ∧
    c.sb.issued = 2 ∧ MemPorts.dResponse c.msys = some r ∧ r.tag = c.sb.tagAt 1 ∧
    BufferExact flatAnswers c ∧
    BufferStep c ({ c with msys := MemPorts.dPop c.msys }.dataResponse r) ∧
    ∃ s ∈ c.sb.sentSlots, (c.sb.ring.e s).acked = false ∧ c.sb.tagAt s = r.tag ∧
      storeAck c.sb r.tag = c.sb.setEntry s { c.sb.ring.e s with acked := true } ∧
        ∀ j ∈ c.sb.ring.slots, c.sb.tagAt j = r.tag → j = s := by
  obtain ⟨c, hr, hp⟩ := Reach.eval storingCore 107 .drained
    (p := fun c => decide ((committedStores c).length = 3 ∧ (sentStores c.msys).length = 3 ∧
      c.sb.ring.slots = [1, 2] ∧ c.sb.issued = 2) &&
      (MemPorts.dResponse c.msys).any fun r => decide (isStoreTag r.tag ∧ r.tag = c.sb.tagAt 1))
    (by decide +kernel)
  obtain ⟨hbuf, hresp⟩ := Bool.and_eq_true_iff.mp hp
  obtain ⟨hcommitted, hsent, hslots, hissued⟩ := of_decide_eq_true hbuf
  obtain ⟨r, hd, hr'⟩ := (Option.any_eq_true _ _).mp hresp
  obtain ⟨hstore, htag⟩ := of_decide_eq_true hr'
  have hcfg := busyConfig_accepted
  have hok : flatAnswers.ok (MemorySystem.init busyConfig fun a =>
      wordByte (storingProgram (a / 4)) (a % 4)) := ⟨_, rfl⟩
  obtain ⟨hexact, hstep, hacks⟩ := store_buffer_exact hcfg (by decide) (by decide) false (fun _ => 0)
    (fun _ => 0) flatAnswers hok rfl c (hr.actions hcfg (init_coreOk _ _ _ _ hcfg))
  exact ⟨c, r, hr, hcommitted, hsent, hslots, hissued, hd, htag, hexact, hstep _ (.response hd),
    hacks r hd hstore⟩

end RvO3
