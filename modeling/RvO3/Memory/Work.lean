import RvO3.Memory.Residency

/-!
# What is left to do

A price for everything on its way through a level. What a cache sends costs one more than all that
the level below can make of it, and an MSHR costs more than the writeback that its install can
cause. So each step of a level that does something lowers the total.
-/

set_option autoImplicit false

namespace RvO3

variable {τ : Type}

/-! ## Answers that wait for their cycle -/

/-- The cycles that an answer still waits, and the answer. -/
def Txn.cost (now : Nat) (t : Txn τ) : Nat := t.readyAt - now + 2

/-- The ticks that some transactions still need, all together. -/
def delays (now : Nat) (ts : List (Txn τ)) : Nat := (ts.map (Txn.cost now)).sum

section Delays

variable {now : Nat}

theorem delays_nil : delays now ([] : List (Txn τ)) = 0 := rfl

theorem delays_cons (t : Txn τ) (ts : List (Txn τ)) : delays now (t :: ts) = t.cost now + delays now ts := by
  unfold delays
  rw [List.map_cons, List.sum_cons]

theorem delays_append (ts us : List (Txn τ)) : delays now (ts ++ us) = delays now ts + delays now us := by
  unfold delays
  rw [List.map_append, List.sum_append]

/-- A tick makes no transaction dearer. -/
theorem Txn.cost_succ_le (now : Nat) (t : Txn τ) : t.cost (now + 1) ≤ t.cost now := by
  unfold Txn.cost
  omega

theorem delays_succ_le (now : Nat) (ts : List (Txn τ)) : delays (now + 1) ts ≤ delays now ts := by
  induction ts with
  | nil => exact Nat.le_refl _
  | cons t ts ih =>
      have := t.cost_succ_le now
      rw [delays_cons, delays_cons]
      omega

/-- A cycle answers the transactions whose time has come and brings the others closer. -/
theorem delays_tick (now : Nat) (ts : List (Txn τ)) :
    (ts.takeWhile fun t => t.readyAt ≤ now + 1).length +
      delays (now + 1) (ts.dropWhile fun t => t.readyAt ≤ now + 1) + (if ts = [] then 0 else 1) ≤
      delays now ts := by
  induction ts with
  | nil => exact Nat.le_refl _
  | cons t ts ih =>
      rw [if_neg (List.cons_ne_nil t ts), delays_cons]
      by_cases ht : t.readyAt ≤ now + 1
      · rw [List.takeWhile_cons_of_pos (by simpa using ht), List.dropWhile_cons_of_pos (by simpa using ht),
          List.length_cons]
        unfold Txn.cost
        omega
      · rw [List.takeWhile_cons_of_neg (by simpa using ht), List.dropWhile_cons_of_neg (by simpa using ht),
          List.length_nil, delays_cons]
        have hrest := delays_succ_le now ts
        unfold Txn.cost
        omega

end Delays

/-! ## DRAM -/

namespace DRAM

variable {d d' : DRAM τ} {backing backing' : Memory} {req : MemRequest τ}

/-- The work that is left in a port: the delays, and one for each response. -/
def work (d : DRAM τ) : Nat := delays d.tickCount d.inflight + d.respQ.length

/-- A tick of the DRAM pays for one unit of its work while a transaction is in flight. -/
theorem tick_work (d : DRAM τ) : d.tick.work + (if d.inflight = [] then 0 else 1) ≤ d.work := by
  have h := delays_tick d.tickCount d.inflight
  show delays (d.tickCount + 1) (d.inflight.dropWhile fun t => t.readyAt ≤ d.tickCount + 1) +
    (d.respQ ++ (d.inflight.takeWhile fun t => t.readyAt ≤ d.tickCount + 1).map (·.resp)).length + _ ≤
    delays d.tickCount d.inflight + d.respQ.length
  rw [List.length_append, List.length_map]
  omega

/-- An accepted request costs its latency. -/
theorem access_work (h : d.access backing req = .ok (d', backing')) :
    d'.latency = d.latency ∧ d'.work ≤ d.work + (d.latency + 2) := by
  unfold access at h
  split at h
  · cases h
  · dsimp only at h
    split at h
    · cases h
      refine ⟨rfl, ?_⟩
      show delays d.tickCount d.inflight + (d.respQ ++ _).length ≤
        delays d.tickCount d.inflight + d.respQ.length + (d.latency + 2)
      rw [List.length_append, List.length_singleton]
      omega
    · cases h
      refine ⟨rfl, ?_⟩
      show delays d.tickCount (d.inflight ++ _) + d.respQ.length ≤
        delays d.tickCount d.inflight + d.respQ.length + (d.latency + 2)
      rw [delays_append, delays_cons, delays_nil, Txn.cost]
      dsimp only
      omega

end DRAM

/-! ## Caches -/

namespace Cache

variable {c c' : Cache τ} {req : MemRequest τ} {k : Nat}

/-- What an MSHR costs when a request to the level below costs `k`: its refill unless that was
sent, the writeback that the install may cause, and one answer for each request that waits. -/
def mshrCost (k : Nat) (m : Mshr τ) : Nat :=
  if m.valid then (if m.refillSent then k + 2 else 2 * k + 3) + m.waiting.length else 0

/-- The work that is left in a cache, where a request to the level below costs `k`. -/
def work (k : Nat) (c : Cache τ) : Nat :=
  (k + 1) * c.wbq.length + (c.mshrs.map (mshrCost k)).sum + delays c.tickCount c.hitPipe + c.respQ.length

/-- The configuration and the number of MSHRs. -/
structure SameShape (c c' : Cache τ) : Prop where
  cfg : c'.cfg = c.cfg
  mshrs : c'.mshrs.length = c.mshrs.length

theorem SameShape.refl (c : Cache τ) : SameShape c c := ⟨rfl, rfl⟩

theorem SameShape.trans {c'' : Cache τ} (h : SameShape c c') (h' : SameShape c' c'') : SameShape c c'' :=
  ⟨h'.cfg.trans h.cfg, h'.mshrs.trans h.mshrs⟩

theorem sum_map_set {α : Type} (f : α → Nat) {l : List α} {i : Nat} {x y : α} (hi : l[i]? = some x) :
    ((l.set i y).map f).sum + f x = (l.map f).sum + f y := by
  induction l generalizing i with
  | nil => cases hi
  | cons a l ih =>
      cases i with
      | zero =>
          cases hi
          show f y + (l.map f).sum + f x = f x + (l.map f).sum + f y
          omega
      | succ i =>
          have := ih (i := i) hi
          show f a + ((l.set i y).map f).sum + f x = f a + (l.map f).sum + f y
          omega

/-! ### The parts of the operations -/

theorem performOnLine_frame (c : Cache τ) (req : MemRequest τ) (set way : Nat) :
    ∃ data dirty lru lruTick, (c.performOnLine req set way).1 =
      { c with data := data, dirty := dirty, lru := lru, lruTick := lruTick } := by
  unfold performOnLine touchLRU
  dsimp only
  split
  · exact ⟨_, _, _, _, rfl⟩
  · exact ⟨_, _, _, _, rfl⟩

/-- Replaying the requests that waited gives one answer each. -/
theorem replay_frame (set way : Nat) (ws : List (Waiting τ)) : ∀ c : Cache τ,
    ∃ data dirty lru lruTick respQ, ws.foldl (replayOne set way) c =
      { c with data := data, dirty := dirty, lru := lru, lruTick := lruTick, respQ := respQ } ∧
      respQ.length = c.respQ.length + ws.length := by
  induction ws with
  | nil => exact fun c => ⟨_, _, _, _, _, rfl, rfl⟩
  | cons w ws ih =>
      intro c
      obtain ⟨data, dirty, lru, lruTick, hf⟩ := performOnLine_frame c w.req set way
      obtain ⟨data', dirty', lru', lruTick', respQ, hrest, hlen⟩ := ih (replayOne set way c w)
      have hone : replayOne set way c w = { c with
          data := data, dirty := dirty, lru := lru, lruTick := lruTick
          respQ := c.respQ ++ [(c.performOnLine w.req set way).2] } := by
        unfold replayOne
        dsimp only
        rw [hf]
      rw [List.foldl_cons, hrest, hone]
      rw [hone] at hlen
      refine ⟨_, _, _, _, _, rfl, hlen.trans ?_⟩
      rw [List.length_append, List.length_singleton, List.length_cons]
      omega

theorem installLine_frame (c : Cache τ) (la : Nat) (src : Line) (isDirty : Bool) :
    ∃ data tags dirty wbq, c.installLine la src isDirty =
      { c with data := data, tags := tags, dirty := dirty, wbq := wbq } ∧
      wbq.length ≤ c.wbq.length + 1 := by
  unfold installLine
  dsimp only
  split
  · refine ⟨_, _, _, _, rfl, ?_⟩
    split
    · rw [List.length_append, List.length_singleton]
    · exact Nat.le_succ _
  · exact ⟨_, _, _, _, rfl, Nat.le_succ _⟩

/-- A hit costs its latency. -/
theorem reserveHit_work (c : Cache τ) (r : MemResponse τ) :
    SameShape c (c.reserveHit r) ∧ (c.reserveHit r).work k ≤ c.work k + (c.cfg.hitLatency + 2) := by
  unfold reserveHit
  split
  · refine ⟨⟨rfl, rfl⟩, ?_⟩
    unfold work
    dsimp only
    rw [List.length_append, List.length_singleton]
    omega
  · refine ⟨⟨rfl, rfl⟩, ?_⟩
    unfold work
    dsimp only
    rw [delays_append, delays_cons, delays_nil, Txn.cost]
    dsimp only
    omega

/-- Installing a refill is cheaper than the MSHR it was for. -/
theorem tryInstall_work {i : Nat} {line : Line} (h : c.tryInstall i line = some c')
    (hv : (c.mshrAt i).valid = true) :
    SameShape c c' ∧ c'.pendingInstalls = c.pendingInstalls ∧ c'.work k < c.work k := by
  have hi := mshrAt_of_lt (valid_lt hv)
  unfold tryInstall at h
  dsimp only at h
  split at h
  · have hm : c.mshrs[i]?.getD {} = c.mshrAt i := rfl
    rw [hm] at h
    obtain ⟨data, tags, dirty, wbq, hin, hlen⟩ := installLine_frame c (c.mshrAt i).lineAddr line false
    obtain ⟨data', dirty', lru, lruTick, respQ, hrep, hresp⟩ := replay_frame (c.setOf (c.mshrAt i).lineAddr)
      (c.victimWay (c.setOf (c.mshrAt i).lineAddr)) (c.mshrAt i).waiting
      (c.installLine (c.mshrAt i).lineAddr line false)
    rw [hrep, hin] at h
    rw [hin] at hresp
    cases h
    refine ⟨⟨rfl, List.length_set⟩, rfl, ?_⟩
    have hsum := sum_map_set (mshrCost k) (y := {}) hi
    have hnew : mshrCost k ({} : Mshr τ) = 0 := rfl
    have hold : k + 2 + (c.mshrAt i).waiting.length ≤ mshrCost k (c.mshrAt i) := by
      unfold mshrCost
      rw [if_pos hv]
      split
      · exact Nat.le_refl _
      · omega
    have hwb : (k + 1) * wbq.length ≤ (k + 1) * c.wbq.length + (k + 1) := by
      calc (k + 1) * wbq.length ≤ (k + 1) * (c.wbq.length + 1) := Nat.mul_le_mul_left _ hlen
        _ = (k + 1) * c.wbq.length + (k + 1) := Nat.mul_succ _ _
    unfold work
    dsimp only at hresp ⊢
    omega
  · cases h

/-! ### Accepting a request -/

/-- All that a cache can make of a request: a new miss, or a hit that evicts a line. -/
def acceptCost (k : Nat) (cfg : CacheConfig) : Nat := 2 * k + cfg.hitLatency + 4

theorem sum_map_modify {α : Type} (f : α → Nat) {l : List α} {i : Nat} {x : α} (hi : l[i]? = some x)
    (g : α → α) : ((l.modify i g).map f).sum + f x = (l.map f).sum + f (g x) := by
  have hset : l.modify i g = l.set i (g x) := by
    rw [List.modify_eq_set_getElem?, hi]
    rfl
  rw [hset]
  exact sum_map_set f hi

theorem serveHit_work (c : Cache τ) (req : MemRequest τ) (set way : Nat) :
    SameShape c (c.serveHit req set way) ∧
      (c.serveHit req set way).work k ≤ c.work k + (c.cfg.hitLatency + 2) := by
  obtain ⟨data, dirty, lru, lruTick, hf⟩ := performOnLine_frame c req set way
  unfold serveHit
  rw [hf]
  obtain ⟨h1, h2⟩ := reserveHit_work (k := k)
    { c with data := data, dirty := dirty, lru := lru, lruTick := lruTick } (c.performOnLine req set way).2
  exact ⟨⟨h1.cfg, h1.mshrs⟩, h2⟩

/-- Installing a line costs no more than the write back its victim may need. -/
theorem installLine_work (c : Cache τ) (la : Nat) (src : Line) (isDirty : Bool) :
    SameShape c (c.installLine la src isDirty) ∧
      (c.installLine la src isDirty).work k ≤ c.work k + (k + 1) := by
  obtain ⟨data, tags, dirty, wbq, hf, hlen⟩ := installLine_frame c la src isDirty
  rw [hf]
  refine ⟨⟨rfl, rfl⟩, ?_⟩
  have hwb : (k + 1) * wbq.length ≤ (k + 1) * c.wbq.length + (k + 1) := by
    calc (k + 1) * wbq.length ≤ (k + 1) * (c.wbq.length + 1) := Nat.mul_le_mul_left _ hlen
      _ = (k + 1) * c.wbq.length + (k + 1) := Nat.mul_succ _ _
  unfold work
  dsimp only
  omega

/-- The writeback queue without entry `i`. -/
def dropWb (c : Cache τ) (i : Nat) : Cache τ := { c with wbq := c.wbq.eraseIdx i }

/-- The line leaves the queue, and another may enter it. -/
theorem restore_work (c : Cache τ) (req : MemRequest τ) (la i : Nat) : SameShape c (c.restore req la i) ∧
    (c.restore req la i).work k ≤ c.work k + (k + 1) + (c.cfg.hitLatency + 2) := by
  have heq : ∃ line, c.restore req la i = ((c.installLine la line true).dropWb i).serveHit req (c.setOf la)
      (c.victimWay (c.setOf la)) := ⟨_, rfl⟩
  obtain ⟨line, heq⟩ := heq
  rw [heq]
  obtain ⟨h1, h2⟩ := installLine_work (k := k) c la line true
  generalize c.installLine la line true = c₁ at h1 h2
  have herase : (k + 1) * (c₁.wbq.eraseIdx i).length ≤ (k + 1) * c₁.wbq.length :=
    Nat.mul_le_mul_left _ (List.length_eraseIdx_le _ _)
  have h3 : SameShape c₁ (c₁.dropWb i) ∧ (c₁.dropWb i).work k ≤ c₁.work k := by
    refine ⟨⟨rfl, rfl⟩, ?_⟩
    unfold dropWb work
    dsimp only
    omega
  obtain ⟨h4, h5⟩ := serveHit_work (k := k) (c₁.dropWb i) req (c.setOf la) (c.victimWay (c.setOf la))
  have hlat : (c₁.dropWb i).cfg.hitLatency = c.cfg.hitLatency := congrArg CacheConfig.hitLatency h1.cfg
  exact ⟨h1.trans (h3.1.trans h4), by omega⟩

theorem merge_work (c : Cache τ) (req : MemRequest τ) {i : Nat} (hv : (c.mshrAt i).valid = true) :
    SameShape c (c.merge req i) ∧ (c.merge req i).work k ≤ c.work k + 1 := by
  have hsum := sum_map_modify (mshrCost k) (mshrAt_of_lt (valid_lt hv))
    fun m => { m with waiting := m.waiting ++ [⟨req, c.tickCount⟩] }
  have hone : mshrCost k { c.mshrAt i with waiting := (c.mshrAt i).waiting ++ [⟨req, c.tickCount⟩] } =
      mshrCost k (c.mshrAt i) + 1 := by
    unfold mshrCost
    rw [if_pos hv, if_pos hv, List.length_append, List.length_singleton, Nat.add_assoc]
  refine ⟨⟨rfl, List.length_modify _ _ _⟩, ?_⟩
  unfold merge work
  dsimp only at hsum hone ⊢
  omega

theorem installWrite_work (c : Cache τ) (req : MemRequest τ) (la : Nat) :
    SameShape c (c.installWrite req la) ∧
      (c.installWrite req la).work k ≤ c.work k + (k + 1) + (c.cfg.hitLatency + 2) := by
  unfold installWrite
  dsimp only
  obtain ⟨h1, h2⟩ := installLine_work (k := k) c la req.wline true
  generalize c.installLine la req.wline true = c₁ at h1 h2
  obtain ⟨h3, h4⟩ := reserveHit_work (k := k) (c₁.touchLRU (c.setOf la) (c.victimWay (c.setOf la)))
    { src := req.src, tag := req.tag }
  have h5 : (c₁.touchLRU (c.setOf la) (c.victimWay (c.setOf la))).work k = c₁.work k := rfl
  have hlat : (c₁.touchLRU (c.setOf la) (c.victimWay (c.setOf la))).cfg.hitLatency = c.cfg.hitLatency :=
    congrArg CacheConfig.hitLatency h1.cfg
  exact ⟨h1.trans ⟨h3.cfg, h3.mshrs⟩, by omega⟩

theorem allocMshr_work (c : Cache τ) (req : MemRequest τ) (la : Nat) {i : Nat} (hi : i < c.mshrs.length)
    (hv : (c.mshrAt i).valid = false) : SameShape c (c.allocMshr req la i) ∧
      (c.allocMshr req la i).work k ≤ c.work k + (2 * k + 4) := by
  have hsum := sum_map_set (mshrCost k) (mshrAt_of_lt hi) (y :=
    { valid := true, lineAddr := la, refillSent := false, waiting := [⟨req, c.tickCount⟩] })
  have hold : mshrCost k (c.mshrAt i) = 0 := by
    unfold mshrCost
    rw [if_neg (by rw [hv]; exact Bool.false_ne_true)]
  have hnew : mshrCost k ({ valid := true, lineAddr := la, refillSent := false
                            waiting := [⟨req, c.tickCount⟩] } : Mshr τ) = 2 * k + 4 := rfl
  refine ⟨⟨rfl, List.length_set⟩, ?_⟩
  unfold allocMshr work
  dsimp only
  omega

theorem access_work (c : Cache τ) (req : MemRequest τ) :
    SameShape c (c.access req) ∧ (c.access req).work k ≤ c.work k + acceptCost k c.cfg := by
  unfold access acceptCost
  dsimp only
  split
  · next way _ =>
      obtain ⟨h1, h2⟩ := serveHit_work (k := k) c req (c.setOf req.addr) way
      exact ⟨h1, by omega⟩
  · split
    · next i _ =>
        obtain ⟨h1, h2⟩ := restore_work (k := k) c req (c.lineBase req.addr) i
        exact ⟨h1, by omega⟩
    · split
      · next i hm =>
          obtain ⟨h1, h2⟩ := merge_work (k := k) c req (mshrFor_some hm).1
          exact ⟨h1, by omega⟩
      · split
        · obtain ⟨h1, h2⟩ := installWrite_work (k := k) c req (c.lineBase req.addr)
          exact ⟨h1, by omega⟩
        · split
          · next i hf =>
              obtain ⟨hi, hv⟩ := freeMshr_some hf
              obtain ⟨h1, h2⟩ := allocMshr_work (k := k) c req (c.lineBase req.addr) hi hv
              exact ⟨h1, by omega⟩
          · exact ⟨.refl c, by omega⟩

/-! ### Refills and the clock edge -/

section Invariant

variable {P : Nat → Prop} {tags : Multiset LineTag}

/-- What comes back from below adds nothing. -/
theorem deliver_work {r : MemResponse LineTag} (hr : RefillsOk c (r.tag ::ₘ tags)) :
    SameShape c (c.deliverBelowResponse r) ∧ (c.deliverBelowResponse r).work k ≤ c.work k := by
  have hd := delivers c r
  generalize c.deliverBelowResponse r = c' at hd
  cases hd with
  | ack _ heq =>
      rw [heq]
      exact ⟨.refl c, Nat.le_refl _⟩
  | @fill i ht h =>
      rw [RefillsOk, ht, Multiset.filterMap_cons_some refillOf _ _ (b := i) rfl, Multiset.cons_add] at hr
      have hs : i ∈ c.refillsSent := by
        rw [hr]
        exact Multiset.mem_cons_self _ _
      obtain ⟨h1, -, h2⟩ := tryInstall_work (k := k) h (mem_refillsSent.mp hs).1
      exact ⟨h1, Nat.le_of_lt h2⟩
  | wait _ heq =>
      rw [heq]
      exact ⟨⟨rfl, rfl⟩, Nat.le_refl _⟩

/-- An install that was put off and succeeds lowers the work. -/
theorem retries_work (hc : CacheOk P c) (hr : RefillsOk c tags) (h : Retries c c') :
    SameShape c c' ∧ c'.work k < c.work k := by
  obtain ⟨-, -, -, -, p, ps, -, -, -, hp, hs, -, -⟩ := hc.retries hr h
  obtain ⟨p', ps', c₁, hp', h₁, rfl⟩ := h
  rw [hp] at hp'
  obtain ⟨rfl, rfl⟩ := List.cons.inj hp'
  obtain ⟨h1, -, h2⟩ := tryInstall_work (k := k) h₁ (mem_refillsSent.mp hs).1
  exact ⟨⟨h1.cfg, h1.mshrs⟩, h2⟩

/-- What the loop over the deferred installs keeps. -/
structure Retried (P : Nat → Prop) (tags : Multiset LineTag) (k : Nat) (c c' : Cache τ) : Prop where
  ok : CacheOk P c'
  refills : RefillsOk c' tags
  shape : SameShape c c'
  work : c'.work k ≤ c.work k

theorem retryInstalls_work (hc : CacheOk P c) (hr : RefillsOk c tags) (n : Nat) :
    Retried P tags k c (retryInstalls n c) := by
  refine retryInstalls_preserve (I := Retried P tags k c) (fun {c₁ c₂} hret h => ?_) n
    ⟨hc, hr, .refl c, Nat.le_refl _⟩
  obtain ⟨h1, -, -, h2, -⟩ := h.ok.retries h.refills hret
  obtain ⟨h3, h4⟩ := retries_work (k := k) h.ok h.refills hret
  exact ⟨h1, h2, h.shape.trans h3, Nat.le_trans (Nat.le_of_lt h4) h.work⟩

/-- When the loop lowers nothing there is nothing to install, or the writeback queue is full. -/
theorem retryInstalls_stuck (hc : CacheOk P c) (hr : RefillsOk c tags) {n : Nat}
    (hn : c.pendingInstalls.length ≤ n) (hle : c.work k ≤ (retryInstalls n c).work k) :
    retryInstalls n c = c ∧ (c.pendingInstalls = [] ∨ c.cfg.wbq ≤ c.wbq.length) := by
  cases hp : c.pendingInstalls with
  | nil =>
      refine ⟨?_, .inl rfl⟩
      cases n with
      | zero => rfl
      | succ n => rw [retryInstalls, hp]
  | cons p ps =>
      obtain ⟨n, rfl⟩ : ∃ m, n = m + 1 := ⟨n - 1, by rw [hp, List.length_cons] at hn; omega⟩
      rw [retryInstalls, hp] at hle ⊢
      dsimp only at hle ⊢
      cases ht : c.tryInstall p.mshrIdx p.line with
      | none =>
          refine ⟨rfl, .inr (Nat.le_of_not_lt fun hroom => ?_)⟩
          unfold tryInstall at ht
          dsimp only at ht
          rw [if_pos (installOk_of_room hroom _)] at ht
          cases ht
      | some c' =>
          have hret : Retries c { c' with pendingInstalls := ps } := ⟨p, ps, c', hp, ht, rfl⟩
          obtain ⟨h1, -, -, h2, -⟩ := hc.retries hr hret
          have hlt := (retries_work (k := k) hc hr hret).2
          have hrest := (retryInstalls_work (k := k) h1 h2 n).work
          rw [ht] at hle
          exact absurd hle (Nat.not_le_of_lt (Nat.lt_of_le_of_lt hrest hlt))

/-- A cycle brings hits closer to their answers. -/
theorem drainHits_work (c : Cache τ) :
    (({ c with tickCount := c.tickCount + 1 } : Cache τ).drainHits).work k +
      (if c.hitPipe = [] then 0 else 1) ≤ c.work k := by
  have h := delays_tick c.tickCount c.hitPipe
  unfold drainHits work
  dsimp only
  rw [List.length_append, List.length_map]
  omega

/-- A request to the level below pays for what that level makes of it. -/
theorem issueBelow_work (c : Cache τ) (below : Bool) : SameShape c (c.issueBelow below).1 ∧
    (c.issueBelow below).1.work k + (if (c.issueBelow below).2 = none then 0 else k + 1) ≤ c.work k := by
  have hi := issues c below
  generalize c.issueBelow below = r at hi
  cases hi with
  | nothing => exact ⟨.refl c, Nat.le_refl _⟩
  | @writeback e rest _ hw =>
      refine ⟨⟨rfl, rfl⟩, ?_⟩
      rw [if_neg nofun]
      unfold work
      dsimp only
      rw [hw, List.length_cons, Nat.mul_succ]
      omega
  | @refill i _ hv hs =>
      refine ⟨⟨rfl, List.length_modify _ _ _⟩, ?_⟩
      rw [if_neg nofun]
      have hsum := sum_map_modify (mshrCost k) (mshrAt_of_lt (valid_lt hv)) fun m => { m with refillSent := true }
      have hold : mshrCost k (c.mshrAt i) = 2 * k + 3 + (c.mshrAt i).waiting.length := by
        unfold mshrCost
        rw [if_pos hv, if_neg (by rw [hs]; exact Bool.false_ne_true)]
      have hnew : mshrCost k { c.mshrAt i with refillSent := true } = k + 2 + (c.mshrAt i).waiting.length := by
        unfold mshrCost
        rw [if_pos hv]
        rfl
      unfold work
      dsimp only at hsum hnew ⊢
      omega

/-- A cache that can send and sends nothing has nothing to send. -/
theorem issueBelow_none (h : (c.issueBelow true).2 = none) :
    (c.issueBelow true).1 = c ∧ c.wbq = [] ∧ (c.pendingMisses = 0 ∨ c.unsentMshr = none) := by
  unfold issueBelow at h ⊢
  split at h
  · rename_i hbusy
    rw [if_pos hbusy]
    dsimp only at h ⊢
    cases hw : c.wbq with
    | nil =>
        rw [hw] at h
        cases hu : c.unsentMshr with
        | none => exact ⟨rfl, rfl, .inr rfl⟩
        | some i =>
            rw [hu] at h
            cases h
    | cons e rest =>
        rw [hw] at h
        cases hu : c.unsentMshr with
        | none =>
            rw [hu] at h
            cases h
        | some i =>
            rw [hu] at h
            dsimp only at h
            split at h
            · cases h
            · cases h
  · rename_i hidle
    rw [if_neg hidle]
    have hboth : c.pendingMisses = 0 ∧ c.wbq = [] := by
      constructor
      · by_contra h0
        exact hidle ⟨.inl h0, rfl⟩
      · by_contra h0
        exact hidle ⟨.inr h0, rfl⟩
    exact ⟨rfl, hboth.2, .inl hboth.1⟩

/-- No miss, no deferred install, no writeback, and no hit on its way. -/
structure Quiet (c : Cache τ) : Prop where
  misses : ∀ i, (c.mshrAt i).valid = false
  installs : c.pendingInstalls = []
  wbq : c.wbq = []
  hitPipe : c.hitPipe = []

/-- Without misses to send, with all refills back and nothing to write back, a cache is quiet. -/
theorem CacheOk.no_misses (hc : CacheOk P c) (hr : RefillsOk c 0) (hp : c.pendingInstalls = [])
    (hu : c.pendingMisses = 0 ∨ c.unsentMshr = none) (i : Nat) : (c.mshrAt i).valid = false := by
  by_contra hv
  rw [Bool.not_eq_false] at hv
  rcases hu with h0 | hnone
  · have hcard := hc.pending
    rw [h0] at hcard
    have hmem : i ∈ c.inUse := by
      unfold inUse
      exact mem_tally.mpr ⟨i, List.mem_range.mpr (valid_lt hv), hv, rfl⟩
    rw [Multiset.card_eq_zero.mp hcard.symm] at hmem
    exact absurd hmem (Multiset.notMem_zero _)
  · -- every miss was sent, and no refill is on its way
    have hsent : (c.mshrAt i).refillSent = true := by
      have hall := List.findIdx?_eq_none_iff.mp hnone _ (List.mem_of_getElem? (mshrAt_of_lt (valid_lt hv)))
      simpa [hv] using hall
    have hmem := mem_refillsSent.mpr ⟨hv, hsent⟩
    rw [hr, hp] at hmem
    exact absurd hmem (Multiset.notMem_zero _)

/-- The clock edge, with the request it makes. -/
theorem tick_work (hc : CacheOk P c) (hr : RefillsOk c tags) (below : Bool) : SameShape c (c.tick below).1 ∧
    (c.tick below).1.work k + (if (c.tick below).2 = none then 0 else k + 1) ≤ c.work k := by
  have hret : Retried P tags k _ _ := retryInstalls_work hc.drainHits hr c.pendingInstalls.length
  have hdrain := drainHits_work (k := k) c
  obtain ⟨h1, h2⟩ := issueBelow_work (k := k) (retryInstalls c.pendingInstalls.length
    ({ c with tickCount := c.tickCount + 1 } : Cache τ).drainHits) below
  have hwork := hret.work
  have htick : c.tick below = (retryInstalls c.pendingInstalls.length
    ({ c with tickCount := c.tickCount + 1 } : Cache τ).drainHits).issueBelow below := rfl
  rw [htick]
  exact ⟨⟨h1.cfg.trans hret.shape.cfg, h1.mshrs.trans hret.shape.mshrs⟩, by omega⟩

/-- The request made at a clock edge is for a whole line of the cache. -/
theorem CacheOk.tick_request (hc : CacheOk P c)
    (hr : RefillsOk c tags) {below : Bool} {req : MemRequest LineTag} (h : (c.tick below).2 = some req) :
    c.IsLine req.addr ∧ P req.addr ∧ req.size = c.cfg.lineBytes := by
  have hret : Retried P tags 0 _ _ := retryInstalls_work hc.drainHits hr c.pendingInstalls.length
  have htick : c.tick below = (retryInstalls c.pendingInstalls.length
    ({ c with tickCount := c.tickCount + 1 } : Cache τ).drainHits).issueBelow below := rfl
  rw [htick] at h
  obtain ⟨-, -, -, -, hreq⟩ := (issues _ below).cacheOk hret.ok hret.refills
  obtain ⟨-, -, -, hl, hP, hs⟩ := hreq req h
  have hcfg : (retryInstalls c.pendingInstalls.length
    ({ c with tickCount := c.tickCount + 1 } : Cache τ).drainHits).cfg = c.cfg := hret.shape.cfg
  refine ⟨?_, hP, by rw [hs, hcfg]⟩
  unfold IsLine lineBase offsetOf at hl ⊢
  rw [hcfg] at hl
  exact hl

/-- A cache that can send, is owed nothing and has lowered nothing is quiet. -/
theorem tick_stuck (hc : CacheOk P c) (hr : RefillsOk c 0) (hroom : 1 ≤ c.cfg.wbq)
    (hle : c.work k ≤ (c.tick true).1.work k) :
    (c.tick true).2 = none ∧ (c.tick true).1.Quiet ∧ (c.tick true).1.respQ = c.respQ := by
  have hdrain := drainHits_work (k := k) c
  have hok : CacheOk P ({ c with tickCount := c.tickCount + 1 } : Cache τ).drainHits := hc.drainHits
  have hro : RefillsOk ({ c with tickCount := c.tickCount + 1 } : Cache τ).drainHits 0 := hr
  have htick : c.tick true = (retryInstalls c.pendingInstalls.length
    ({ c with tickCount := c.tickCount + 1 } : Cache τ).drainHits).issueBelow true := rfl
  have hret := retryInstalls_work (k := k) hok hro c.pendingInstalls.length
  obtain ⟨-, hissue⟩ := issueBelow_work (k := k) (retryInstalls c.pendingInstalls.length
    ({ c with tickCount := c.tickCount + 1 } : Cache τ).drainHits) true
  have hwork := hret.work
  rw [htick] at hle ⊢
  -- an answered hit would have lowered the work
  have hhit : c.hitPipe = [] := by
    by_contra h0
    rw [if_neg h0] at hdrain
    omega
  have hretry : ({ c with tickCount := c.tickCount + 1 } : Cache τ).drainHits.work k ≤
      (retryInstalls c.pendingInstalls.length
        ({ c with tickCount := c.tickCount + 1 } : Cache τ).drainHits).work k := by omega
  have hlen : ({ c with tickCount := c.tickCount + 1 } : Cache τ).drainHits.pendingInstalls.length ≤
    c.pendingInstalls.length := Nat.le_refl _
  obtain ⟨hsame, hstuck⟩ := retryInstalls_stuck hok hro hlen hretry
  rw [hsame] at hle hissue ⊢
  -- and so would a request
  have hnone : ((({ c with tickCount := c.tickCount + 1 } : Cache τ).drainHits).issueBelow true).2 = none := by
    by_contra h0
    rw [if_neg h0] at hissue
    omega
  obtain ⟨h1, hwb, hu⟩ := issueBelow_none hnone
  -- an install waits only for room in the queue, which is empty
  have hinstalls : c.pendingInstalls = [] := by
    rcases hstuck with h | h
    · exact h
    · rw [hwb] at h
      exact absurd h (by
        have hcfg : ({ c with tickCount := c.tickCount + 1 } : Cache τ).drainHits.cfg = c.cfg := rfl
        rw [hcfg, List.length_nil]
        omega)
  rw [h1]
  refine ⟨hnone, ⟨hok.no_misses hro hinstalls hu, hinstalls, hwb, ?_⟩, ?_⟩
  · show c.hitPipe.dropWhile _ = []
    rw [hhit]
    rfl
  · show c.respQ ++ (c.hitPipe.takeWhile _).map _ = c.respQ
    rw [hhit]
    exact List.append_nil _

end Invariant

end Cache

end RvO3
