import RvO3.Memory.Moves
import RvO3.Lib.Lists

/-!
# Where a line can be

A line is in the arrays, in the writeback queue or in an MSHR, in one of them and once,
or not in the cache at all (`CacheOk`). Each MSHR whose refill was sent has one refill on
its way: below, or returned and waiting to be installed (`RefillsOk`). Every operation keeps
both, so a cache that can accept a request has an MSHR and a queue entry for it.
-/

set_option autoImplicit false

namespace RvO3

namespace Cache

variable {τ : Type} {c c' : Cache τ} {req : MemRequest τ} {la : Nat} {line : Line}
  {P : Nat → Prop}

/-! ## The invariant -/

/-- A request that one line serves. -/
structure Fits {σ : Type} (c : Cache τ) (req : MemRequest σ) : Prop where
  addr : req.addr < 2 ^ 32
  pos : 1 ≤ req.size
  inLine : c.offsetOf req.addr + req.size ≤ c.cfg.lineBytes
  write : req.isWrite = true → req.size ≤ 4 ∨ req.size = c.cfg.lineBytes

/-- A line that is being fetched is nowhere else, and requests for it wait. -/
structure MissOk (P : Nat → Prop) (c : Cache τ) (m : Mshr τ) : Prop where
  line : c.IsLine m.lineAddr
  allowed : P m.lineAddr
  notHere : c.slotOf m.lineAddr = none
  notLeaving : ∀ e ∈ c.wbq, e.addr ≠ m.lineAddr
  nonempty : m.waiting ≠ []
  fits : ∀ w ∈ m.waiting, c.Fits w.req ∧ c.lineBase w.req.addr = m.lineAddr

/-- The MSHRs in use, and those whose refill was sent. -/
def inUse (c : Cache τ) : Multiset Nat :=
  tally (List.range c.mshrs.length) (fun i => (c.mshrAt i).valid) id

/-- The MSHRs whose refill was sent and has not come back. -/
def refillsSent (c : Cache τ) : Multiset Nat :=
  tally (List.range c.mshrs.length) (fun i => (c.mshrAt i).valid && (c.mshrAt i).refillSent) id

/-- Which bytes form a line depends on the configuration only. -/
theorem isLine_congr (h : c'.cfg = c.cfg) (a : Nat) : c'.IsLine a ↔ c.IsLine a := by
  rw [IsLine, IsLine, lineBase_congr h]

theorem Fits.congr {σ : Type} {req : MemRequest σ} (hf : c.Fits req) (h : c'.cfg = c.cfg) : c'.Fits req where
  addr := hf.addr
  pos := hf.pos
  inLine := by
    rw [offsetOf, h]
    exact hf.inLine
  write := by
    rw [h]
    exact hf.write

/-- A miss stays one while its line enters neither the arrays nor the queue. -/
theorem MissOk.keep {m : Mshr τ} (hm : MissOk P c m) (h : c'.cfg = c.cfg) (hno : c'.slotOf m.lineAddr = none)
    (hwb : ∀ e ∈ c'.wbq, e.addr ≠ m.lineAddr) : MissOk P c' m where
  line := (isLine_congr h _).mpr hm.line
  allowed := hm.allowed
  notHere := hno
  notLeaving := hwb
  nonempty := hm.nonempty
  fits := by
    intro w hw
    obtain ⟨hf, hb⟩ := hm.fits w hw
    exact ⟨hf.congr h, (lineBase_congr h _).trans hb⟩

/-- All lines in the cache satisfy `P`, and each is in one place. -/
structure CacheOk (P : Nat → Prop) (c : Cache τ) : Prop where
  arrays : c.ArraysOk
  here : ∀ a, a < 2 ^ 32 → c.slotOf a ≠ none → P (c.lineBase a)
  leaving : ∀ e ∈ c.wbq, c.IsLine e.addr ∧ P e.addr ∧ c.slotOf e.addr = none
  leavingOnce : (c.wbq.map (·.addr)).Nodup
  room : c.wbq.length ≤ c.cfg.wbq
  misses : ∀ i, (c.mshrAt i).valid = true → MissOk P c (c.mshrAt i)
  missOnce : ∀ i j, (c.mshrAt i).valid = true → (c.mshrAt j).valid = true →
    (c.mshrAt i).lineAddr = (c.mshrAt j).lineAddr → i = j
  idle : ∀ i, (c.mshrAt i).valid = false → c.mshrAt i = {}
  pending : c.pendingMisses = c.inUse.card

/-- The MSHRs that refills are for. -/
def refillOf : LineTag → Option Nat
  | .wb => none
  | .refill i => some i

/-- `below` are the tags of this cache's requests that the level below has not answered. -/
def RefillsOk (c : Cache τ) (below : Multiset LineTag) : Prop :=
  c.refillsSent = below.filterMap refillOf + ↑(c.pendingInstalls.map (·.mshrIdx))

/-- A refill that the level below has still to answer was sent. -/
theorem RefillsOk.coming {c : Cache τ} {refills : Multiset (MemResponse LineTag)} {r : MemResponse LineTag} {i : Nat}
    (h : RefillsOk c (refills.map (·.tag))) (hr : r ∈ refills) (hi : r.tag = .refill i) : i ∈ c.refillsSent := by
  unfold RefillsOk at h
  rw [h, Multiset.mem_add]
  left
  apply (Multiset.mem_filterMap _ _).mpr
  exact ⟨r.tag, Multiset.mem_map_of_mem _ hr, by rw [hi]; rfl⟩

/-- So was one that waits for room in the arrays. -/
theorem RefillsOk.deferred {c : Cache τ} {below : Multiset LineTag} {p : PendingInstall} (h : RefillsOk c below)
    (hp : p ∈ c.pendingInstalls) : p.mshrIdx ∈ c.refillsSent := by
  unfold RefillsOk at h
  rw [h, Multiset.mem_add]
  exact .inr (List.mem_map_of_mem hp)

/-! ## A line enters the arrays -/

section Enters

variable {isDirty : Bool} {victim : Option Nat} {out : List WbEntry}

/-- After a line enters, what is not resident is what was not before, but for that line, and the
victim. -/
theorem LineEnters.slotOf_none (h : LineEnters c c' la line isDirty victim out) {a : Nat}
    (ha : a < 2 ^ 32) : c'.slotOf a = none ↔
      c.lineBase a ≠ la ∧ (victim = some (c.lineBase a) ∨ c.slotOf a = none) := by
  rw [← lineAt_eq_none, h.lineAt a ha]
  by_cases hb : c.lineBase a = la
  · simp [hb]
  · by_cases hv : victim = some (c.lineBase a)
    · simp [hb, hv]
    · simp [hb, hv, lineAt_eq_none]

/-- The line that leaves the arrays was in them, and is in the queue if it is not clean. -/
theorem Evicts.gone {v : Nat} (h : c.Evicts (some v) out) :
    c.IsLine v ∧ (c.slotOf v ≠ none) ∧ ∀ e ∈ out, e.addr = v := by
  have hne : ∀ {line : Line}, c.lineAt v = some line → c.slotOf v ≠ none := by
    intro line hs hn
    rw [lineAt_eq_none.mpr hn] at hs
    cases hs
  cases h with
  | clean hl hs _ => exact ⟨hl, hne hs, nofun⟩
  | dirty hl hs _ _ =>
      refine ⟨hl, hne hs, fun e he => ?_⟩
      rw [List.mem_singleton.mp he]

theorem Evicts.out_mem (h : c.Evicts victim out) {e : WbEntry} (he : e ∈ out) :
    victim = some e.addr ∧ c.IsLine e.addr ∧ c.lineAt e.addr = some e.line ∧
      c.dirtyAt e.addr = true ∧ out = [e] ∧ c.wbq.length < c.cfg.wbq := by
  cases h with
  | nothing => cases he
  | clean _ _ _ => cases he
  | dirty hl hs hd hr =>
      obtain rfl := List.mem_singleton.mp he
      exact ⟨rfl, hl, hs, hd, rfl, hr⟩

/-- The part of the invariant about lines, after `la` entered the arrays: `rest` is what
stays of the writeback queue and no MSHR is left with `la`. -/
theorem LineEnters.resident (h : LineEnters c c' la line isDirty victim out) (hc : CacheOk P c)
    (hP : P la) {rest : List WbEntry} (hrest : rest.Sublist c.wbq) (hne : ∀ e ∈ rest, e.addr ≠ la)
    (hwb : c'.wbq = rest ++ out)
    (hm : ∀ i, (c'.mshrAt i).valid = true → c'.mshrAt i = c.mshrAt i ∧ (c.mshrAt i).lineAddr ≠ la) :
    (∀ a, a < 2 ^ 32 → c'.slotOf a ≠ none → P (c'.lineBase a)) ∧
      (∀ e ∈ c'.wbq, c'.IsLine e.addr ∧ P e.addr ∧ c'.slotOf e.addr = none) ∧
      (c'.wbq.map (·.addr)).Nodup ∧ c'.wbq.length ≤ c'.cfg.wbq ∧
      (∀ i, (c'.mshrAt i).valid = true → MissOk P c' (c'.mshrAt i)) := by
  have hbase := lineBase_congr h.cfg
  have hisLine := isLine_congr h.cfg
  -- the victim was in the arrays, `la` was not
  have hvic : ∀ {v}, victim = some v → c.IsLine v ∧ c.slotOf v ≠ none := by
    rintro v rfl
    exact ⟨h.evicts.gone.1, h.evicts.gone.2.1⟩
  have hla : ∀ {v}, victim = some v → v ≠ la := by
    rintro v hv rfl
    exact (hvic hv).2 h.fresh
  refine ⟨fun a ha hs => ?_, fun e he => ?_, ?_, ?_, fun i hv => ?_⟩
  · rw [hbase]
    have hiff := (not_congr (h.slotOf_none ha)).mp hs
    by_cases hb : c.lineBase a = la
    · rw [hb]
      exact hP
    · exact hc.here a ha fun hn => hiff ⟨hb, .inr hn⟩
  · rw [hwb] at he
    rw [hisLine]
    rcases List.mem_append.mp he with he | he
    · obtain ⟨h1, h2, h3⟩ := hc.leaving e (hrest.subset he)
      refine ⟨h1, h2, (h.slotOf_none h1.2).mpr ⟨?_, .inr h3⟩⟩
      rw [h1.1]
      exact hne e he
    · obtain ⟨h1, h2, h3, -⟩ := h.evicts.out_mem he
      refine ⟨h2, ?_, (h.slotOf_none h2.2).mpr ⟨?_, .inl ?_⟩⟩
      · have hp := hc.here e.addr h2.2 (hvic h1).2
        rw [h2.1] at hp
        exact hp
      · rw [h2.1]
        exact hla h1
      · rw [h2.1]
        exact h1
  · rw [hwb, List.map_append, List.nodup_append]
    refine ⟨(hrest.map _).nodup hc.leavingOnce, ?_, fun x hx y hy => ?_⟩
    · cases h.evicts <;> simp
    · obtain ⟨e, he, rfl⟩ := List.mem_map.mp hx
      obtain ⟨e', he', rfl⟩ := List.mem_map.mp hy
      intro heq
      obtain ⟨h1, -⟩ := h.evicts.out_mem he'
      rw [← heq] at h1
      exact (hvic h1).2 (hc.leaving e (hrest.subset he)).2.2
  · -- the queue only grows when it had room for a dirty victim
    rw [hwb, List.length_append, h.cfg]
    have hlen := hrest.length_le
    have hroom := hc.room
    cases hev : h.evicts with
    | nothing => simpa using Nat.le_trans hlen hroom
    | clean _ _ _ => simpa using Nat.le_trans hlen hroom
    | dirty _ _ _ hr =>
        simp only [List.length_singleton]
        omega
  · obtain ⟨heq, hne'⟩ := hm i hv
    rw [heq] at hv ⊢
    have hmi := hc.misses i hv
    refine hmi.keep h.cfg ?_ fun e he => ?_
    · refine (h.slotOf_none hmi.line.2).mpr ⟨?_, .inr hmi.notHere⟩
      rw [hmi.line.1]
      exact hne'
    · rw [hwb] at he
      rcases List.mem_append.mp he with he | he
      · exact hmi.notLeaving e (hrest.subset he)
      · obtain ⟨h1, -⟩ := h.evicts.out_mem he
        intro heq'
        rw [heq'] at h1
        exact (hvic h1).2 hmi.notHere

end Enters

/-! ## MSHR tables -/

section Mshrs

theorem mshrAt_of_mshrs {l : List (Mshr τ)} (h : c'.mshrs = l) (j : Nat) :
    c'.mshrAt j = l[j]?.getD {} := by
  rw [mshrAt, h]

theorem mshrAt_set {i : Nat} {m : Mshr τ} (h : c'.mshrs = c.mshrs.set i m) (hi : i < c.mshrs.length)
    (j : Nat) : c'.mshrAt j = if j = i then m else c.mshrAt j := by
  rw [mshrAt, h, mshrAt]
  by_cases hj : j = i
  · rw [hj, if_pos rfl, List.getElem?_set_self hi, Option.getD_some]
  · rw [if_neg hj, List.getElem?_set_ne (Ne.symm hj)]

theorem mshrAt_modify {i : Nat} {f : Mshr τ → Mshr τ} (h : c'.mshrs = c.mshrs.modify i f)
    (hi : i < c.mshrs.length) (j : Nat) :
    c'.mshrAt j = if j = i then f (c.mshrAt i) else c.mshrAt j := by
  rw [mshrAt, h, List.getElem?_modify]
  by_cases hj : j = i
  · rw [hj, if_pos rfl, mshrAt_of_lt hi]
    simp
  · rw [if_neg hj, mshrAt]
    cases c.mshrs[j]? <;> simp [Ne.symm hj]

/-- What an MSHR table counts, when one entry changes. -/
theorem tally_mshrs {i : Nat} (p : Mshr τ → Bool) (hlen : c'.mshrs.length = c.mshrs.length)
    (hi : i < c.mshrs.length) (hj : ∀ j, j ≠ i → c'.mshrAt j = c.mshrAt j) :
    tally (List.range c'.mshrs.length) (fun j => p (c'.mshrAt j)) id +
        single (p (c.mshrAt i)) i =
      tally (List.range c.mshrs.length) (fun j => p (c.mshrAt j)) id +
        single (p (c'.mshrAt i)) i := by
  rw [hlen]
  exact tally_change (p := fun j => p (c.mshrAt j)) (q := fun j => p (c'.mshrAt j)) (f := id)
    (g := id) List.nodup_range (List.mem_range.mpr hi) fun j _ hji => by
      rw [hj j hji]
      exact ⟨rfl, rfl⟩

end Mshrs

/-! ## The operations -/

theorem SameMisses.mshrAt (h : SameMisses c c') (j : Nat) : c'.mshrAt j = c.mshrAt j := by
  rw [Cache.mshrAt, Cache.mshrAt, h.mshrs]

/-- Steps that leave the misses alone leave the counts of misses alone. -/
theorem SameMisses.counts (h : SameMisses c c') :
    c'.inUse = c.inUse ∧ c'.refillsSent = c.refillsSent := by
  unfold inUse refillsSent Cache.mshrAt
  rw [h.mshrs]
  exact ⟨rfl, rfl⟩

/-- A line enters and no MSHR changes. -/
theorem CacheOk.enters {isDirty : Bool} {victim : Option Nat} {out rest : List WbEntry}
    (hc : CacheOk P c) (h : LineEnters c c' la line isDirty victim out) (hP : P la)
    (hs : SameMisses c c') (hrest : rest.Sublist c.wbq) (hne : ∀ e ∈ rest, e.addr ≠ la)
    (hno : ∀ i, (c.mshrAt i).valid = true → (c.mshrAt i).lineAddr ≠ la)
    (hwb : c'.wbq = rest ++ out) : CacheOk P c' := by
  have hm := hs.mshrAt
  obtain ⟨h1, h2, h3, h4, h5⟩ := h.resident hc hP hrest hne hwb fun i hv => by
    rw [hm] at hv ⊢
    exact ⟨rfl, hno i hv⟩
  refine ⟨h.arrays, h1, h2, h3, h4, h5, fun i j hi hj => ?_, fun i hi => ?_, ?_⟩
  · rw [hm] at hi ⊢
    rw [hm] at hj ⊢
    exact hc.missOnce i j hi hj
  · rw [hm] at hi ⊢
    exact hc.idle i hi
  · rw [hs.pendingMisses, hs.counts.1]
    exact hc.pending

/-- Nothing moves in or out of the arrays, and the MSHRs stay. -/
theorem CacheOk.still (hc : CacheOk P c) (ha : c'.ArraysOk) (hslot : ∀ a, c'.slotOf a = c.slotOf a)
    (hcfg : c'.cfg = c.cfg) (hmshrs : c'.mshrs = c.mshrs) (hp : c'.pendingMisses = c.pendingMisses)
    (hrest : c'.wbq.Sublist c.wbq) : CacheOk P c' := by
  have hbase := lineBase_congr hcfg
  have hisLine := isLine_congr hcfg
  have hm : ∀ j, c'.mshrAt j = c.mshrAt j := mshrAt_of_mshrs hmshrs
  refine ⟨ha, fun a hlt hn => ?_, fun e he => ?_, (hrest.map _).nodup hc.leavingOnce, ?_,
    fun i hi => ?_, fun i j hi hj => ?_, fun i hi => ?_, ?_⟩
  · rw [hslot] at hn
    rw [hbase]
    exact hc.here a hlt hn
  · rw [hisLine, hslot]
    exact hc.leaving e (hrest.subset he)
  · rw [hcfg]
    exact Nat.le_trans hrest.length_le hc.room
  · rw [hm] at hi ⊢
    have hmi := hc.misses i hi
    exact hmi.keep hcfg ((hslot _).trans hmi.notHere) fun e he => hmi.notLeaving e (hrest.subset he)
  · rw [hm] at hi ⊢
    rw [hm] at hj ⊢
    exact hc.missOnce i j hi hj
  · rw [hm] at hi ⊢
    exact hc.idle i hi
  · unfold inUse Cache.mshrAt
    rw [hp, hmshrs]
    exact hc.pending

/-- The arrays and the queue stay while MSHR `i` changes. -/
theorem CacheOk.mshrChange (hc : CacheOk P c) {i : Nat} {m : Mshr τ}
    (hmsh : ∀ j, c'.mshrAt j = if j = i then m else c.mshrAt j) (hcfg : c'.cfg = c.cfg)
    (harr : c'.ArraysOk) (hslot : ∀ a, c'.slotOf a = c.slotOf a) (hwb : c'.wbq = c.wbq)
    (hv : m.valid = true) (hm : MissOk P c m)
    (hother : ∀ j, j ≠ i → (c.mshrAt j).valid = true → (c.mshrAt j).lineAddr ≠ m.lineAddr)
    (hp : c'.pendingMisses = c'.inUse.card) : CacheOk P c' := by
  have hbase := lineBase_congr hcfg
  have hisLine := isLine_congr hcfg
  -- the other misses are what they were
  have hmiss : ∀ {m}, MissOk P c m → MissOk P c' m := by
    intro m h
    apply h.keep hcfg ((hslot _).trans h.notHere)
    rw [hwb]
    exact h.notLeaving
  refine ⟨harr, fun a hlt hn => ?_, fun e he => ?_, ?_, ?_, fun j hj => ?_, fun j k hj hk he => ?_,
    fun j hj => ?_, hp⟩
  · rw [hslot] at hn
    rw [hbase]
    exact hc.here a hlt hn
  · rw [hwb] at he
    rw [hisLine, hslot]
    exact hc.leaving e he
  · rw [hwb]
    exact hc.leavingOnce
  · rw [hwb, hcfg]
    exact hc.room
  · rw [hmsh] at hj ⊢
    split
    · exact hmiss hm
    · rename_i hji
      rw [if_neg hji] at hj
      exact hmiss (hc.misses j hj)
  · rw [hmsh] at hj he
    rw [hmsh k] at hk he
    -- two MSHRs for one line: neither is `i`, or it would have the line of another
    by_cases hji : j = i
    · by_cases hki : k = i
      · exact hji.trans hki.symm
      · rw [if_pos hji, if_neg hki] at he
        rw [if_neg hki] at hk
        exact absurd he.symm (hother k hki hk)
    · by_cases hki : k = i
      · rw [if_neg hji, if_pos hki] at he
        rw [if_neg hji] at hj
        exact absurd he (hother j hji hj)
      · rw [if_neg hji, if_neg hki] at he
        rw [if_neg hji] at hj
        rw [if_neg hki] at hk
        exact hc.missOnce j k hj hk he
  · rw [hmsh] at hj ⊢
    by_cases hji : j = i
    · rw [if_pos hji, hv] at hj
      cases hj
    · rw [if_neg hji] at hj ⊢
      exact hc.idle j hj

/-- A cache that can accept has a free MSHR. -/
theorem CacheOk.free (hc : CacheOk P c) (ha : c.canAccept = true) :
    c.freeMshr ≠ none ∧ c.wbq.length < c.cfg.wbq := by
  simp only [canAccept, Bool.and_eq_true, decide_eq_true_eq] at ha
  refine ⟨fun hf => ?_, ha.2⟩
  have hall : c.inUse = (List.range c.mshrs.length : Multiset Nat) := by
    unfold inUse tally
    rw [List.map_id, List.filter_eq_self.mpr]
    intro i hi
    exact freeMshr_none hf _ (List.mem_of_getElem? (mshrAt_of_lt (List.mem_range.mp hi)))
  have hcard := hc.pending
  rw [hall, Multiset.coe_card, List.length_range] at hcard
  omega

/-- What accepting a request keeps. -/
structure AcceptsOk (P : Nat → Prop) (c c' : Cache τ) : Prop where
  ok : CacheOk P c'
  cfg : c'.cfg = c.cfg
  srcId : c'.srcId = c.srcId
  sent : c'.refillsSent = c.refillsSent
  installs : c'.pendingInstalls = c.pendingInstalls

/-- The access of a cache that can accept it is one of the accepting moves. -/
theorem CacheOk.accepts (hc : CacheOk P c) (ha : c.canAccept = true) (hf : c.Fits req) :
    Accepts c req (c.access req) :=
  hc.arrays.accepts (hc.free ha).2 (hc.free ha).1
    (fun e he => ⟨(hc.leaving e he).1, (hc.leaving e he).2.2⟩) hf.addr

/-- Whatever an accepted access does, it keeps the cache's invariant. -/
theorem Accepts.cacheOk (h : Accepts c req c') (hc : CacheOk P c) (hf : c.Fits req)
    (hP : P (c.lineBase req.addr)) : AcceptsOk P c c' := by
  cases h with
  | hit _ hp ht hd hdy hs hwb _ =>
      have hslot : ∀ a, c'.slotOf a = c.slotOf a := by
        intro a
        rw [← hp.slotOf a, ht.slotOf a]
      exact ⟨hc.still (hp.arrays.of_tags ht) hslot hs.cfg hs.mshrs hs.pendingMisses
        (hwb ▸ List.Sublist.refl _), hs.cfg, hs.srcId, hs.counts.2, hs.pendingInstalls⟩
  | @restore e i _ _ hi he hin hs hwb _ =>
      -- the line comes back from the queue, and leaves it
      have hmem := List.mem_of_getElem? hi
      have hne : ∀ e' ∈ c.wbq.eraseIdx i, e'.addr ≠ e.addr :=
        fun e' he' => ((mem_eraseIdx_key hc.leavingOnce hi).mp he').2
      refine ⟨hc.enters hin ?_ hs (List.eraseIdx_sublist _ _) hne ?_ hwb, hs.cfg, hs.srcId,
        hs.counts.2, hs.pendingInstalls⟩
      · exact (hc.leaving e hmem).2.1
      · intro j hv heq
        exact (hc.misses j hv).notLeaving e hmem heq.symm
  | @merge i hnone hout hv hla heq =>
      have hi := valid_lt hv
      have hmi := hc.misses i hv
      have hmsh := mshrAt_modify (congrArg Cache.mshrs heq) hi
      have hlen : c'.mshrs.length = c.mshrs.length := by rw [heq]; exact List.length_modify _ _ _
      -- one more request waits; which MSHRs are in use does not change
      have hcount : ∀ p : Mshr τ → Bool, p (c'.mshrAt i) = p (c.mshrAt i) →
          tally (List.range c'.mshrs.length) (fun j => p (c'.mshrAt j)) id =
            tally (List.range c.mshrs.length) (fun j => p (c.mshrAt j)) id := by
        intro p hp
        have ht := tally_mshrs p hlen hi fun j hj => by rw [hmsh, if_neg hj]
        rw [hp] at ht
        exact add_right_cancel ht
      have hself : c'.mshrAt i = { c.mshrAt i with
          waiting := (c.mshrAt i).waiting ++ [⟨req, c.tickCount⟩] } := by rw [hmsh, if_pos rfl]
      refine ⟨hc.mshrChange hmsh (by rw [heq]) ?_ (fun a => by rw [heq]; rfl) (by rw [heq]) hv ?_ ?_ ?_,
        by rw [heq], by rw [heq], hcount (fun m => m.valid && m.refillSent) (by rw [hself]), by rw [heq]⟩
      · rw [heq]
        exact hc.arrays.of_tags ⟨rfl, rfl, rfl, rfl, rfl⟩
      · refine ⟨hmi.line, hmi.allowed, hmi.notHere, hmi.notLeaving, by simp, fun w hw => ?_⟩
        rcases List.mem_append.mp hw with hw | hw
        · exact hmi.fits w hw
        · rw [List.mem_singleton.mp hw]
          exact ⟨hf, hla.symm⟩
      · intro j hji hvj he
        exact hji (hc.missOnce j i hvj hv he)
      · have hin : c'.inUse = c.inUse := hcount (fun m => m.valid) (by rw [hself])
        rw [hin, heq]
        exact hc.pending
  | write _ _ hout hno hin hs hwb _ =>
      exact ⟨hc.enters hin hP hs (List.Sublist.refl _) hout hno hwb, hs.cfg, hs.srcId, hs.counts.2,
        hs.pendingInstalls⟩
  | @miss i hnone hout hno _ hi hinv heq =>
      have hmsh := mshrAt_set (congrArg Cache.mshrs heq) hi
      have hlen : c'.mshrs.length = c.mshrs.length := by rw [heq]; exact List.length_set
      have hother : ∀ j, j ≠ i → c'.mshrAt j = c.mshrAt j := fun j hj => by rw [hmsh, if_neg hj]
      have hself := hmsh i
      rw [if_pos rfl] at hself
      have hline := isLine_lineBase hc.arrays.geometry hf.addr
      refine ⟨hc.mshrChange hmsh (by rw [heq]) ?_ (fun a => by rw [heq]; rfl) (by rw [heq]) rfl ?_ ?_ ?_,
        by rw [heq], by rw [heq], ?_, by rw [heq]⟩
      · rw [heq]
        exact hc.arrays.of_tags ⟨rfl, rfl, rfl, rfl, rfl⟩
      · refine ⟨hline, hP, ?_, hout, by simp, fun w hw => ?_⟩
        · rw [slotOf_lineBase hc.arrays hf.addr]
          exact hnone
        · rw [List.mem_singleton.mp hw]
          exact ⟨hf, rfl⟩
      · exact fun j _ hvj => hno j hvj
      · -- one more MSHR in use, counted by `pendingMisses`
        have ht := tally_mshrs (fun m => m.valid) hlen hi hother
        rw [hself, hinv, single_false, add_zero, single_true] at ht
        have hcard := congrArg Multiset.card ht
        rw [Multiset.card_add, Multiset.card_singleton] at hcard
        have hp : c'.pendingMisses = c.pendingMisses + 1 := by rw [heq]
        rw [hp, hc.pending]
        exact hcard.symm
      · have ht := tally_mshrs (fun m => m.valid && m.refillSent) hlen hi hother
        rw [hself, hinv, Bool.false_and, Bool.and_false, single_false, add_zero, add_zero] at ht
        exact ht

/-! ### Refills -/

theorem mem_refillsSent {i : Nat} : i ∈ c.refillsSent ↔
    (c.mshrAt i).valid = true ∧ (c.mshrAt i).refillSent = true := by
  unfold refillsSent
  rw [mem_tally]
  constructor
  · rintro ⟨j, -, hp, rfl⟩
    simpa using hp
  · rintro ⟨hv, hs⟩
    exact ⟨i, List.mem_range.mpr (valid_lt hv), by rw [hv, hs]; rfl, rfl⟩

theorem refillsSent_nodup (c : Cache τ) : c.refillsSent.Nodup := by
  unfold refillsSent tally
  rw [List.map_id]
  exact Multiset.coe_nodup.mpr (List.nodup_range.filter _)

/-- What installing the refill of MSHR `i` keeps. -/
structure FillsOk (P : Nat → Prop) (c c' : Cache τ) (i : Nat) : Prop where
  ok : CacheOk P c'
  cfg : c'.cfg = c.cfg
  srcId : c'.srcId = c.srcId
  sent : c.refillsSent = i ::ₘ c'.refillsSent
  installs : c'.pendingInstalls = c.pendingInstalls

theorem CacheOk.fills (hc : CacheOk P c) {i : Nat} (hv : (c.mshrAt i).valid = true)
    (h : c.tryInstall i line = some c') : ∃ victim out, Fills c c' i line victim out := by
  have hm := hc.misses i hv
  exact hc.arrays.fills hm.line hm.notHere (fun w hw => ⟨(hm.fits w hw).1.addr, (hm.fits w hw).2⟩) h

theorem Fills.cacheOk {i : Nat} {victim : Option Nat} {out : List WbEntry}
    (h : Fills c c' i line victim out) (hc : CacheOk P c) (hs : i ∈ c.refillsSent) :
    FillsOk P c c' i := by
  obtain ⟨hv, hsent⟩ := mem_refillsSent.mp hs
  have hi := valid_lt hv
  have hm := hc.misses i hv
  have hmsh := mshrAt_set h.mshrs hi
  have hself := hmsh i
  rw [if_pos rfl] at hself
  have hlen : c'.mshrs.length = c.mshrs.length := by rw [h.mshrs]; exact List.length_set
  have hother : ∀ j, j ≠ i → c'.mshrAt j = c.mshrAt j := fun j hj => by rw [hmsh, if_neg hj]
  have hvalid : ∀ j, (c'.mshrAt j).valid = true → j ≠ i := by
    rintro j hj rfl
    rw [hself] at hj
    cases hj
  obtain ⟨h1, h2, h3, h4, h5⟩ := h.enters.resident hc hm.allowed (List.Sublist.refl _)
    hm.notLeaving h.wbq fun j hj => by
      have hji := hvalid j hj
      rw [hother j hji] at hj ⊢
      exact ⟨rfl, fun he => hji (hc.missOnce j i hj hv he)⟩
  refine ⟨⟨h.enters.arrays, h1, h2, h3, h4, h5, fun j k hj hk he => ?_, fun j hj => ?_, ?_⟩,
    h.enters.cfg, h.srcId, ?_, h.pendingInstalls⟩
  · have hji := hvalid j hj
    have hki := hvalid k hk
    rw [hother j hji] at hj he
    rw [hother k hki] at hk he
    exact hc.missOnce j k hj hk he
  · by_cases hji : j = i
    · rw [hji, hself]
    · rw [hother j hji] at hj ⊢
      exact hc.idle j hj
  · have ht := tally_mshrs (fun m => m.valid) hlen hi hother
    rw [hself, hv, single_true, single_false, add_zero] at ht
    have hcard := congrArg Multiset.card ht
    rw [Multiset.card_add, Multiset.card_singleton] at hcard
    rw [h.pendingMisses, hc.pending]
    exact (Nat.sub_eq_of_eq_add hcard.symm)
  · have ht := tally_mshrs (fun m => m.valid && m.refillSent) hlen hi hother
    rw [hself, hv, hsent, Bool.and_self, single_true, Bool.false_and, single_false, add_zero,
      add_comm, Multiset.singleton_add] at ht
    exact ht.symm

/-- What a completion from below keeps. -/
theorem CacheOk.deliver (hc : CacheOk P c) {r : MemResponse LineTag} {below : Multiset LineTag}
    (hr : RefillsOk c (r.tag ::ₘ below)) :
    CacheOk P (c.deliverBelowResponse r) ∧ (c.deliverBelowResponse r).cfg = c.cfg ∧
      (c.deliverBelowResponse r).srcId = c.srcId ∧ RefillsOk (c.deliverBelowResponse r) below := by
  have hd := delivers c r
  generalize c.deliverBelowResponse r = c' at hd ⊢
  unfold RefillsOk at hr ⊢
  cases hd with
  | ack ht heq =>
      rw [ht, Multiset.filterMap_cons_none _ _ (by rfl)] at hr
      rw [heq]
      exact ⟨hc, rfl, rfl, hr⟩
  | @fill i ht h =>
      rw [ht, Multiset.filterMap_cons_some refillOf _ _ (b := i) rfl, Multiset.cons_add] at hr
      have hs : i ∈ c.refillsSent := by
        rw [hr]
        exact Multiset.mem_cons_self _ _
      obtain ⟨victim, out, hf⟩ := hc.fills (mem_refillsSent.mp hs).1 h
      have hok := hf.cacheOk hc hs
      refine ⟨hok.ok, hok.cfg, hok.srcId, ?_⟩
      rw [hok.sent] at hr
      rw [hok.installs]
      exact (Multiset.cons_inj_right _).mp hr
  | @wait i ht heq =>
      rw [ht, Multiset.filterMap_cons_some refillOf _ _ (b := i) rfl, Multiset.cons_add] at hr
      subst heq
      refine ⟨hc.still (hc.arrays.of_tags ⟨rfl, rfl, rfl, rfl, rfl⟩) (fun _ => rfl) rfl rfl rfl
        (List.Sublist.refl _), rfl, rfl, ?_⟩
      rw [← Multiset.singleton_add, add_comm, add_assoc] at hr
      rw [List.map_append, ← Multiset.coe_add]
      exact hr

/-- The latency of hits is no business of the lines. -/
theorem CacheOk.drainHits (hc : CacheOk P c) :
    CacheOk P ({ c with tickCount := c.tickCount + 1 } : Cache τ).drainHits :=
  hc.still (hc.arrays.of_tags ⟨rfl, rfl, rfl, rfl, rfl⟩) (fun _ => rfl) rfl rfl rfl (List.Sublist.refl _)

theorem CacheOk.popResponse (hc : CacheOk P c) : CacheOk P c.popResponse :=
  hc.still (hc.arrays.of_tags ⟨rfl, rfl, rfl, rfl, rfl⟩) (fun _ => rfl) rfl rfl rfl (List.Sublist.refl _)

/-- A deferred install is one whose refill is accounted for. -/
theorem CacheOk.retries (hc : CacheOk P c) {below : Multiset LineTag} (hr : RefillsOk c below)
    (h : Retries c c') :
    CacheOk P c' ∧ c'.cfg = c.cfg ∧ c'.srcId = c.srcId ∧ RefillsOk c' below ∧
      ∃ p ps c₁ victim out, c.pendingInstalls = p :: ps ∧ p.mshrIdx ∈ c.refillsSent ∧
        Fills c c₁ p.mshrIdx p.line victim out ∧ c' = { c₁ with pendingInstalls := ps } := by
  obtain ⟨p, ps, c₁, hp, hc₁, rfl⟩ := h
  unfold RefillsOk at hr ⊢
  rw [hp, List.map_cons, ← Multiset.cons_coe, Multiset.add_cons] at hr
  have hs : p.mshrIdx ∈ c.refillsSent := by
    rw [hr]
    exact Multiset.mem_cons_self _ _
  obtain ⟨victim, out, hf⟩ := hc.fills (mem_refillsSent.mp hs).1 hc₁
  have hok := hf.cacheOk hc hs
  refine ⟨hok.ok.still (hok.ok.arrays.of_tags ⟨rfl, rfl, rfl, rfl, rfl⟩) (fun _ => rfl) rfl rfl rfl
    (List.Sublist.refl _), hok.cfg, hok.srcId, ?_, p, ps, c₁, victim, out, hp, hs, hf, rfl⟩
  rw [hok.sent] at hr
  exact (Multiset.cons_inj_right _).mp hr

/-- What a request to the level below keeps: its tag joins those not answered. -/
theorem Issues.cacheOk {below : Bool} {r : Cache τ × Option (MemRequest LineTag)}
    (h : Issues c below r) (hc : CacheOk P c) {tags : Multiset LineTag} (hr : RefillsOk c tags) :
    CacheOk P r.1 ∧ r.1.cfg = c.cfg ∧ r.1.srcId = c.srcId ∧
      (r.2 = none → RefillsOk r.1 tags) ∧
      ∀ req, r.2 = some req → below = true ∧ RefillsOk r.1 (req.tag ::ₘ tags) ∧ req.src = c.srcId ∧
        c.IsLine req.addr ∧ P req.addr ∧ req.size = c.cfg.lineBytes := by
  cases h with
  | nothing => exact ⟨hc, rfl, rfl, fun _ => hr, nofun⟩
  | @writeback e rest hb hw =>
      -- the writeback leaves the queue; its acknowledgement is for no MSHR
      have hsub : rest.Sublist c.wbq := by
        rw [hw]
        exact List.sublist_cons_self _ _
      refine ⟨hc.still (hc.arrays.of_tags ⟨rfl, rfl, rfl, rfl, rfl⟩) (fun _ => rfl) rfl rfl rfl hsub,
        rfl, rfl, nofun, ?_⟩
      rintro _ ⟨rfl⟩
      obtain ⟨h1, h2, -⟩ := hc.leaving e (by rw [hw]; exact List.mem_cons_self)
      refine ⟨hb, ?_, rfl, h1, h2, rfl⟩
      unfold RefillsOk
      rw [show (c.writebackReq e).tag = .wb from rfl, Multiset.filterMap_cons_none _ _ (by rfl)]
      exact hr
  | @refill i hb hv hs =>
      have hi := valid_lt hv
      have hm := hc.misses i hv
      let c' : Cache τ := { c with mshrs := c.mshrs.modify i fun m => { m with refillSent := true } }
      have hmsh := mshrAt_modify (show c'.mshrs = c.mshrs.modify i fun m => { m with refillSent := true } from rfl) hi
      have hlen : c'.mshrs.length = c.mshrs.length := List.length_modify _ _ _
      have hother : ∀ j, j ≠ i → c'.mshrAt j = c.mshrAt j := fun j hj => by rw [hmsh, if_neg hj]
      have hself := hmsh i
      rw [if_pos rfl] at hself
      refine ⟨hc.mshrChange hmsh rfl (hc.arrays.of_tags ⟨rfl, rfl, rfl, rfl, rfl⟩) (fun _ => rfl) rfl hv
        ⟨hm.line, hm.allowed, hm.notHere, hm.notLeaving, hm.nonempty, hm.fits⟩ ?_ ?_, rfl, rfl, nofun, ?_⟩
      · exact fun j hji hvj he => hji (hc.missOnce j i hvj hv he)
      · have ht := tally_mshrs (fun m => m.valid) hlen hi hother
        rw [hself] at ht
        -- the refill was pending already: the MSHR stays in use
        have hin : c'.inUse = c.inUse := add_right_cancel ht
        show c.pendingMisses = c'.inUse.card
        rw [hin]
        exact hc.pending
      · rintro _ ⟨rfl⟩
        refine ⟨hb, ?_, rfl, hm.line, hm.allowed, rfl⟩
        have ht := tally_mshrs (fun m => m.valid && m.refillSent) hlen hi hother
        rw [hself, hv, hs, Bool.and_false, single_false, add_zero, Bool.and_self, single_true] at ht
        unfold RefillsOk at hr ⊢
        rw [show (c.refillReq i).tag = .refill i from rfl,
          Multiset.filterMap_cons_some refillOf _ _ (b := i) rfl, Multiset.cons_add]
        show c'.refillsSent = i ::ₘ (tags.filterMap refillOf + ↑(c.pendingInstalls.map (·.mshrIdx)))
        rw [← hr, ← Multiset.singleton_add, add_comm]
        exact ht

end Cache

end RvO3
