import RvO3.Core.LsqGrowth
import RvO3.Core.Overlap
import RvO3.Core.Alone
import RvO3.Core.Response
import RvO3.Lib.PendingWrites

/-!
# What a load sees

The stores of the LSQ are writers before a memory: that of the stores which have been
committed. A load sees, byte by byte, the youngest older store, or that memory. `Sees`
says that a word is made of those bytes.

What the search of the older stores finds agrees with it: the data it forwards is what the
load sees, and when it finds nothing the committed memory is, and so are the newest bytes
of the memory system.
-/

set_option autoImplicit false

namespace RvO3

open OoOCore

/-! ## Words and their low bytes -/

/-- Words with the same low bytes have the same low bits. -/
theorem getLsbD_eq_of_wordByte {v w : Word} {n i : Nat} (h : ∀ b < n, wordByte v b = wordByte w b)
    (hi : i < 8 * n) : v.getLsbD i = w.getLsbD i := by
  have hbit : ∀ x : Word, (wordByte x (i / 8)).getLsbD (i % 8) = x.getLsbD i := by
    intro x
    have hlt : i % 8 < 8 := Nat.mod_lt i (by decide)
    rw [wordByte, BitVec.getLsbD_setWidth, BitVec.getLsbD_ushiftRight, Nat.div_add_mod,
      decide_eq_true hlt, Bool.true_and]
  rw [← hbit v, ← hbit w, h (i / 8) (by omega)]

/-- The result of a load depends on the bytes it reads only. -/
theorem extendLoad_congr {op : Op} (hop : isLoad op = true) {v w : Word}
    (h : ∀ b < accessSize op, wordByte v b = wordByte w b) : extendLoad op v = extendLoad op w := by
  have hlow : ∀ k, k ≤ 8 * accessSize op → v.setWidth k = w.setWidth k := by
    intro k hk
    apply BitVec.eq_of_getLsbD_eq
    intro i hi
    rw [BitVec.getLsbD_setWidth, BitVec.getLsbD_setWidth,
      getLsbD_eq_of_wordByte h (by omega)]
  have hmask : ∀ k, k ≤ 8 * accessSize op →
      v &&& BitVec.ofNat 32 (2 ^ k - 1) = w &&& BitVec.ofNat 32 (2 ^ k - 1) := by
    intro k hk
    apply BitVec.eq_of_getLsbD_eq
    intro i hi
    rw [BitVec.getLsbD_and, BitVec.getLsbD_and, BitVec.getLsbD_ofNat, Nat.testBit_two_pow_sub_one]
    by_cases hik : i < k
    · rw [getLsbD_eq_of_wordByte h (by omega)]
    · simp [hik]
  cases op with
  | LB => exact congrArg (BitVec.signExtend 32) (hlow 8 (by decide))
  | LH => exact congrArg (BitVec.signExtend 32) (hlow 16 (by decide))
  | LBU => exact hmask 8 (by decide)
  | LHU => exact hmask 16 (by decide)
  | LW =>
      have hw := hlow 32 (by decide)
      rwa [BitVec.setWidth_eq, BitVec.setWidth_eq] at hw
  | _ => cases hop

theorem extendLoad_scalarOf {op : Op} (hop : isLoad op = true) (v : Word) :
    extendLoad op v = extendLoad op (scalarOf (accessSize op) (wordByte v)) := by
  apply extendLoad_congr hop
  intro b hb
  have hsize : accessSize op ≤ 4 := by
    rcases accessSize_cases op with h | h | h <;> omega
  exact (wordByte_scalarOf _ hsize hb).symm

/-! ## Stores as partial writes -/

/-- What a store writes to a byte. -/
def MemoryWrite.put (w : MemoryWrite) (x : Nat) : Option Byte :=
  if w.addr.toNat ≤ x ∧ x < w.addr.toNat + w.size then some (wordByte w.value (x - w.addr.toNat)) else none

theorem MemoryWrite.put_eq_none {w : MemoryWrite} {x : Nat} :
    w.put x = none ↔ ¬(w.addr.toNat ≤ x ∧ x < w.addr.toNat + w.size) := by
  unfold MemoryWrite.put
  split
  · rename_i h
    exact ⟨nofun, fun h' => absurd h h'⟩
  · rename_i h
    exact ⟨fun _ => h, fun _ => rfl⟩

/-- What a committed store writes is what its record shows. -/
theorem put_mk' (addr v : Word) {size b : Nat} (hs : size = 1 ∨ size = 2 ∨ size = 4) (hb : b < size) :
    (MemoryWrite.mk' addr v size).put (addr.toNat + b) = some (wordByte v b) := by
  have hin : addr.toNat ≤ addr.toNat + b ∧ addr.toNat + b < addr.toNat + size := by omega
  have hbyte := wordByte_mk' addr v hs hb
  apply (if_pos hin).trans
  rw [show (MemoryWrite.mk' addr v size).addr = addr from rfl, Nat.add_sub_cancel_left, hbyte]

theorem MemoryWrite.apply_eq (w : MemoryWrite) (mem : Nat → Byte) : w.apply mem = overlay mem w.put := by
  funext x
  unfold MemoryWrite.apply Memory.storeBytes overlay MemoryWrite.put
  split <;> rfl

/-- The memory of committed stores is that of partial writes. -/
theorem storesApplied_eq (image : Nat → Byte) (ws : List MemoryWrite) :
    storesApplied image ws = overlays image (ws.map MemoryWrite.put) := by
  induction ws generalizing image with
  | nil => rfl
  | cons w ws ih =>
      have hstep : storesApplied image (w :: ws) = storesApplied (w.apply image) ws := rfl
      rw [hstep, ih, w.apply_eq]
      rfl

/-- Stores elsewhere leave a byte as it is. -/
theorem storesApplied_append_of_none {image : Nat → Byte} {ws ws' : List MemoryWrite} {x : Nat}
    (h : ∀ w ∈ ws', w.put x = none) : storesApplied image (ws ++ ws') x = storesApplied image ws x := by
  rw [storesApplied_eq, storesApplied_eq, List.map_append, overlays_append]
  apply overlays_of_none
  intro p hp
  obtain ⟨w, hw, rfl⟩ := List.mem_map.mp hp
  exact h w hw

/-- The last store to a byte is what it holds. -/
theorem storesApplied_last {image : Nat → Byte} {ws ws' : List MemoryWrite} {w : MemoryWrite} {x : Nat}
    {v : Byte} (hw : w.put x = some v) (h : ∀ w ∈ ws', w.put x = none) :
    storesApplied image (ws ++ w :: ws') x = v := by
  rw [storesApplied_eq, List.map_append, List.map_cons]
  apply overlays_last hw
  intro p hp
  obtain ⟨w', hw', rfl⟩ := List.mem_map.mp hp
  exact h w' hw'

/-! ## The stores that wait in the LSQ -/

/-- What an entry will write to a byte: nothing, a value that it does not know before its data
is there, or that data. -/
def LsqEntry.put (le : LsqEntry) (x : Nat) : Option (Option Byte) :=
  if le.isKnownStore = true ∧ le.addr.toNat ≤ x ∧ x < le.addr.toNat + le.size then
    some (if le.dataReady then some (wordByte le.data (x - le.addr.toNat)) else none)
  else none

/-- The entries as pending writes, from the oldest to the youngest. -/
def LSQ.writers (q : LSQ) : Pending Nat Nat Byte Nat where
  live j := j ∈ q.ring.slots
  age j := (q.at' j).seq
  put j := (q.at' j).put

section Puts

variable {le le' : LsqEntry} {x : Nat}

theorem LsqEntry.put_ne_none : le.put x ≠ none ↔
    le.isKnownStore = true ∧ le.addr.toNat ≤ x ∧ x < le.addr.toNat + le.size := by
  unfold LsqEntry.put
  split
  · rename_i h
    exact ⟨fun _ => h, fun _ => nofun⟩
  · rename_i h
    exact ⟨fun h' => absurd rfl h', fun h' => absurd h' h⟩

theorem LsqEntry.put_eq (hk : le.isKnownStore = true) (hd : le.dataReady = true) {b : Nat} (hb : b < le.size) :
    le.put (le.addr.toNat + b) = some (some (wordByte le.data b)) := by
  unfold LsqEntry.put
  rw [if_pos ⟨hk, Nat.le_add_right _ _, Nat.add_lt_add_left hb _⟩, if_pos hd, Nat.add_sub_cancel_left]

/-- A value that is known stays. -/
theorem LsqEntry.Grows.put_known (h : le.Grows le') {u : Byte} (hp : le.put x = some (some u)) :
    le'.put x = some (some u) := by
  have hin := LsqEntry.put_ne_none.mp (by rw [hp]; exact Option.some_ne_none _)
  obtain ⟨hk, hx⟩ := hin
  rw [LsqEntry.put, if_pos ⟨hk, hx⟩] at hp
  rw [LsqEntry.isKnownStore, Bool.and_eq_true] at hk
  obtain ⟨hv, haddr, hsize⟩ := h.resolved hk.2
  have hd : le.dataReady = true := by
    by_contra hno
    rw [if_neg hno] at hp
    cases hp
  obtain ⟨hd', hdata⟩ := h.captured hd
  rw [if_pos hd] at hp
  have hk' : le'.isKnownStore = true := by
    rw [LsqEntry.isKnownStore, h.isStore, hk.1, hv]
    rfl
  rw [LsqEntry.put, haddr, hsize, if_pos ⟨hk', hx⟩, if_pos hd', hdata]
  exact hp

/-- An entry whose address was known wrote there before. -/
theorem LsqEntry.Grows.put_back (h : le.Grows le') (hv : le.addrValid = true) (hp : le'.put x ≠ none) :
    le.put x ≠ none := by
  obtain ⟨hk, hx⟩ := LsqEntry.put_ne_none.mp hp
  obtain ⟨-, haddr, hsize⟩ := h.resolved hv
  rw [haddr, hsize] at hx
  rw [LsqEntry.isKnownStore, Bool.and_eq_true, h.isStore] at hk
  refine LsqEntry.put_ne_none.mpr ⟨?_, hx⟩
  rw [LsqEntry.isKnownStore, hk.1, hv]
  rfl

end Puts

/-- A word made of the bytes that the load at slot `l` sees before the memory `mem`. -/
structure Sees (mem : Nat → Byte) (q : LSQ) (l : Nat) (v : Word) : Prop where
  intro ::
  exists_bytes : ∃ f : Nat → Byte, v = scalarOf (q.at' l).size f ∧
    ∀ b < (q.at' l).size, q.writers.Reads mem (q.at' l).seq ((q.at' l).addr.toNat + b) (f b)

/-! ## The search of the older stores -/

section Search

variable {M : Type} {c : OoOCore M} {l : Nat} {memBytes : Nat} {data : Word}

/-- Neither the load at slot `l` nor an older store with a known address faults. -/
structure OoOCore.Untainted (c : OoOCore M) (l : Nat) : Prop where
  load : (c.rob.e (c.lsq.at' l).robIdx).fault = 0
  stores : ∀ s ∈ c.lsq.ring.slots, (c.lsq.at' s).isKnownStore = true →
    (c.lsq.at' s).seq < (c.lsq.at' l).seq → (c.rob.e (c.lsq.at' s).robIdx).fault = 0

/-- The older stores are visited newest first. -/
theorem LSQ.Ordered.olderStores {q : LSQ} (h : q.Ordered) (hl : l ∈ q.ring.slots) :
    ((q.visitOlderStores l).map fun j => (q.at' j).seq).Pairwise (· > ·) ∧
      ∀ j, j ∈ q.visitOlderStores l ↔
        j ∈ q.ring.slots ∧ (q.at' j).isKnownStore = true ∧ (q.at' j).seq < (q.at' l).seq := by
  obtain ⟨k, hk, rfl⟩ := List.mem_map.mp hl
  have hk' : k < q.ring.n := List.mem_range.mp hk
  have hlen : k < q.ring.slots.length := by rw [Ring.length_slots]; exact hk'
  have hat : q.ring.slots[k] = q.ring.indexOf k := by simp [Ring.slots]
  -- the slots before position `k` are those with a smaller sequence number
  have hsplit : q.ring.slots = q.ring.slots.take k ++ q.ring.indexOf k :: q.ring.slots.drop (k + 1) := by
    conv_lhs => rw [← List.take_append_drop k q.ring.slots]
    rw [List.drop_eq_getElem_cons hlen, hat]
  have hsort := h.sorted
  rw [hsplit, List.map_append, List.map_cons, List.pairwise_append] at hsort
  obtain ⟨hbefore, hrest, hcross⟩ := hsort
  rw [h.workSetsExact.older k hk']
  refine ⟨?_, fun j => ?_⟩
  · rw [List.map_reverse, List.pairwise_reverse]
    exact hbefore.sublist (List.filter_sublist.map _)
  · rw [List.mem_reverse, List.mem_filter]
    constructor
    · rintro ⟨hj, hknown⟩
      exact ⟨List.mem_of_mem_take hj, hknown, hcross _ (List.mem_map_of_mem hj) _ List.mem_cons_self⟩
    · rintro ⟨hj, hknown, hlt⟩
      refine ⟨?_, hknown⟩
      rw [hsplit] at hj
      rcases List.mem_append.mp hj with hj | hj
      · exact hj
      · rcases List.mem_cons.mp hj with rfl | hj
        · exact absurd hlt (Nat.lt_irrefl _)
        · have hgt := List.rel_of_pairwise_cons hrest (List.mem_map_of_mem hj)
          exact absurd hlt (Nat.lt_asymm hgt)

theorem OoOCore.Untainted.clean (h : c.Untainted l) {s : Nat} (hs : s ∈ c.lsq.ring.slots)
    (hk : (c.lsq.at' s).isKnownStore = true) (hlt : (c.lsq.at' s).seq < (c.lsq.at' l).seq) : c.Clean s := by
  refine ⟨hs, ?_, h.stores s hs hk hlt⟩
  rw [LsqEntry.isKnownStore, Bool.and_eq_true] at hk
  exact hk.2

/-- A writer before a byte of the load shares it. -/
theorem LsqEntry.meets_of_put {le le' : LsqEntry} {b : Nat} (hb : b < le'.size)
    (hp : le.put (le'.addr.toNat + b) ≠ none) : le.isKnownStore = true ∧ le.Meets le' := by
  obtain ⟨hk, h1, h2⟩ := LsqEntry.put_ne_none.mp hp
  exact ⟨hk, _, ⟨h1, h2⟩, Nat.le_add_right _ _, Nat.add_lt_add_left hb _⟩

theorem olderStore_forward {le : LsqEntry} {addr d : Word} {size : Nat} {ready : Bool}
    (h : olderStore le addr size ready d = some (.forward data)) :
    addr = le.addr ∧ size = le.size ∧ ready = true ∧ d = data := by
  unfold olderStore at h
  split at h
  · rename_i heq
    cases ready with
    | true =>
        injection h with h
        injection h with h
        exact ⟨heq.1, heq.2, rfl, h⟩
    | false =>
        injection h with h
        cases h
  · split at h
    · injection h with h
      cases h
    · cases h

/-- A search that stops nowhere in the LSQ passes every older store that shares a byte. -/
theorem SearchExact.lsqVerdict_none (hx : SearchExact c l) (ho : c.lsq.Ordered) (hl : l ∈ c.lsq.ring.slots)
    (ht : c.Untainted l) (h : c.lsqVerdict l = none) {x : Nat}
    (hlo : (c.lsq.at' l).addr.toNat ≤ x) (hhi : x < (c.lsq.at' l).addr.toNat + (c.lsq.at' l).size) :
    ∀ j, ¬ c.lsq.writers.Before (c.lsq.at' l).seq x j := by
  intro j hj
  obtain ⟨hk, h1, h2⟩ := LsqEntry.put_ne_none.mp hj.touches
  have hclean := ht.clean hj.live hk hj.older
  have hmeet : (c.lsq.at' j).Meets (c.lsq.at' l) := ⟨x, ⟨h1, h2⟩, hlo, hhi⟩
  have hst : (c.lsq.at' j).isStore = true := by
    rw [LsqEntry.isKnownStore, Bool.and_eq_true] at hk
    exact hk.1
  unfold OoOCore.lsqVerdict at h
  dsimp only at h
  rw [if_pos (hx.words j hclean hst hmeet), List.findSome?_eq_none_iff] at h
  exact (hx.lsq j hclean).mpr hmeet (h j (((ho.olderStores hl).2 j).mpr ⟨hj.live, hk, hj.older⟩))

/-- Data from the LSQ is that of the youngest older store to every byte of the load. -/
theorem SearchExact.lsqVerdict_forward (hx : SearchExact c l) (ho : c.lsq.Ordered)
    (hl : l ∈ c.lsq.ring.slots) (ht : c.Untainted l) (h : c.lsqVerdict l = some (.forward data))
    (mem : Nat → Byte) {b : Nat} (hb : b < (c.lsq.at' l).size) :
    c.lsq.writers.Reads mem (c.lsq.at' l).seq ((c.lsq.at' l).addr.toNat + b) (wordByte data b) := by
  unfold OoOCore.lsqVerdict at h
  dsimp only at h
  split at h
  · obtain ⟨newer, s, older, hvisit, hs, hnone⟩ := List.findSome?_eq_some_iff.mp h
    obtain ⟨haddr, hsize, hready, hdata⟩ := olderStore_forward hs
    obtain ⟨hsort, hmem⟩ := ho.olderStores hl
    obtain ⟨hlive, hk, hlt⟩ := (hmem s).mp (by rw [hvisit]; exact List.mem_append_right _ List.mem_cons_self)
    refine .pending (i := s) hlive hlt ?_ fun j hj => ?_
    · have hput := LsqEntry.put_eq hk hready (b := b) (by rw [hsize]; exact hb)
      rw [haddr, hdata] at hput
      exact hput
    · -- a younger one would have stopped the search
      obtain ⟨hkj, hmeet⟩ := LsqEntry.meets_of_put hb hj.touches
      have hin := (hmem j).mpr ⟨hj.live, hkj, hj.older⟩
      rw [hvisit] at hin hsort
      rcases List.mem_append.mp hin with hin | hin
      · exact absurd (hnone j hin) ((hx.lsq j (ht.clean hj.live hkj hj.older)).mpr hmeet)
      · rcases List.mem_cons.mp hin with rfl | hin
        · exact Nat.le_refl _
        · rw [List.map_append, List.map_cons, List.pairwise_append] at hsort
          exact Nat.le_of_lt (List.rel_of_pairwise_cons hsort.2.1 (List.mem_map_of_mem hin))
  · cases h

/-- A search that stops nowhere in the store buffer passes no store to a byte of the load. -/
theorem SearchExact.sbVerdict_none (hx : SearchExact c l) (h : c.sbVerdict l = none) {b : Nat}
    (hb : b < (c.lsq.at' l).size) : ∀ w ∈ c.sb.writes, w.put ((c.lsq.at' l).addr.toNat + b) = none := by
  intro w hw
  obtain ⟨st, hst, rfl⟩ := List.mem_map.mp hw
  unfold OoOCore.sbVerdict at h
  dsimp only at h
  rw [List.findSome?_eq_none_iff] at h
  have hno := h st (List.mem_reverse.mpr hst)
  rw [MemoryWrite.put_eq_none]
  rintro ⟨h1, h2⟩
  exact (hx.sb st hst).mpr ⟨_, ⟨h1, h2⟩, Nat.le_add_right _ _, Nat.add_lt_add_left hb _⟩ hno

/-- Data from the store buffer is that of the last committed store to every byte of the load. -/
theorem SearchExact.sbVerdict_forward (hx : SearchExact c l) (hleg : StoresLegal memBytes c.sb)
    (h : c.sbVerdict l = some (.forward data)) (image : Nat → Byte) (gone : List MemoryWrite) {b : Nat}
    (hb : b < (c.lsq.at' l).size) :
    storesApplied image (gone ++ c.sb.writes) ((c.lsq.at' l).addr.toNat + b) = wordByte data b := by
  unfold OoOCore.sbVerdict at h
  dsimp only at h
  obtain ⟨newer, st, older, hvisit, hst, hnone⟩ := List.findSome?_eq_some_iff.mp h
  obtain ⟨haddr, hsize, -, hdata⟩ := olderStore_forward hst
  have hent : c.sb.ring.entries = older.reverse ++ st :: newer.reverse := by
    rw [← List.reverse_reverse c.sb.ring.entries, hvisit, List.reverse_append, List.reverse_cons,
      List.append_assoc]
    rfl
  have hmem : st ∈ c.sb.ring.entries := by
    rw [hent]
    exact List.mem_append_right _ List.mem_cons_self
  have hwrites : gone ++ c.sb.writes =
      (gone ++ older.reverse.map StoreBufEntry.asWrite) ++ st.asWrite :: newer.reverse.map StoreBufEntry.asWrite := by
    rw [StoreBuffer.writes, hent, List.map_append, List.map_cons, List.append_assoc]
  rw [hwrites]
  apply storesApplied_last
  · have hput := put_mk' st.addr st.data (hleg st hmem).size (show b < st.size by rw [hsize]; exact hb)
    rw [hdata, haddr] at hput
    rw [StoreBufEntry.asWrite, haddr, hdata]
    exact hput
  · -- a later one would have stopped the search
    intro w hw
    obtain ⟨st', hst', rfl⟩ := List.mem_map.mp hw
    have hmem' : st' ∈ c.sb.ring.entries := by
      rw [hent]
      exact List.mem_append_right _ (List.mem_cons_of_mem _ hst')
    rw [MemoryWrite.put_eq_none]
    rintro ⟨h1, h2⟩
    exact (hx.sb st' hmem').mpr ⟨_, ⟨h1, h2⟩, Nat.le_add_right _ _, Nat.add_lt_add_left hb _⟩
      (hnone st' (List.mem_reverse.mp hst'))

/-- The data that the search forwards is what the load sees. -/
theorem SearchExact.forward_sees (hx : SearchExact c l) (ho : c.lsq.Ordered) (hl : l ∈ c.lsq.ring.slots)
    (ht : c.Untainted l) (hleg : StoresLegal memBytes c.sb) {image : Nat → Byte} {gone : List MemoryWrite}
    (h : c.verdict l = .forward data) :
    Sees (storesApplied image (gone ++ c.sb.writes)) c.lsq l (scalarOf (c.lsq.at' l).size (wordByte data)) := by
  refine ⟨_, rfl, fun b hb => ?_⟩
  unfold OoOCore.verdict at h
  split at h
  · rename_i v hv
    rw [h] at hv
    exact hx.lsqVerdict_forward ho hl ht hv _ hb
  · rename_i hv
    have hsb : c.sbVerdict l = some (.forward data) := by
      cases hs : c.sbVerdict l with
      | none =>
          rw [hs] at h
          cases h
      | some v =>
          rw [hs] at h
          exact congrArg some h
    rw [← hx.sbVerdict_forward hleg hsb image gone hb]
    exact .memory (hx.lsqVerdict_none ho hl ht hv (Nat.le_add_right _ _) (Nat.add_lt_add_left hb _))

theorem OoOCore.lsqVerdict_of_clear (h : c.verdict l = .clear) : c.lsqVerdict l = none := by
  unfold OoOCore.verdict at h
  split at h
  · rename_i v hv
    rw [h] at hv
    -- no store says that the way is clear
    unfold OoOCore.lsqVerdict at hv
    dsimp only at hv
    split at hv
    · obtain ⟨s, -, hs⟩ := List.exists_of_findSome?_eq_some hv
      exact absurd rfl (olderStore_ne_clear hs)
    · cases hv
  · assumption

/-- When the search finds nothing, no store waits before a byte of the load, in the LSQ or in
the store buffer. -/
theorem SearchExact.clear (hx : SearchExact c l) (ho : c.lsq.Ordered) (hl : l ∈ c.lsq.ring.slots)
    (ht : c.Untainted l) (h : c.verdict l = .clear) {b : Nat} (hb : b < (c.lsq.at' l).size) :
    (∀ j, ¬ c.lsq.writers.Before (c.lsq.at' l).seq ((c.lsq.at' l).addr.toNat + b) j) ∧
      ∀ w ∈ c.sb.writes, w.put ((c.lsq.at' l).addr.toNat + b) = none :=
  ⟨hx.lsqVerdict_none ho hl ht (c.lsqVerdict_of_clear h) (Nat.le_add_right _ _) (Nat.add_lt_add_left hb _),
    hx.sbVerdict_none (c.sbVerdict_of_clear h) hb⟩

end Search

end RvO3
