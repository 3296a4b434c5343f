import RvO3.Memory.Latency
import RvO3.Memory.Moves
import RvO3.Memory.Ports

/-!
# Hits on time

A cache answers out of order: a hit may pass an older miss. Among themselves the requests that need no
refill (`immediate`) are answered in order, and each exactly `hitLatency - 1` ticks after it was
accepted (`Cache.hits_on_time`), whatever misses, refills, evictions and deferred installs come
between: nothing but the clock moves the pipe (`PipeKeeps`). In every run of the memory system its three
caches go through such runs (`PortRun.cacheRuns`).
-/

set_option autoImplicit false

namespace RvO3

namespace Cache

variable {τ : Type} {c c' c₁ c₂ : Cache τ} {req : MemRequest τ} {r : MemResponse τ} {line : Line}
  {more more' : List (MemResponse τ)}

/-- The line of entry `i` of the writeback queue. -/
def wbqLine (c : Cache τ) (i : Nat) : Line :=
  match c.wbq[i]? with
  | some e => e.line
  | none => fun _ => 0

/-- The response to a request that waits for no refill: its line is in the arrays or in the writeback
queue, or it writes a whole line that nobody is fetching. -/
def immediate (c : Cache τ) (req : MemRequest τ) : Option (MemResponse τ) :=
  match c.findWay (c.setOf req.addr) (c.tagOf req.addr) with
  | some way => some (c.respond req (c.data (c.lineIdx (c.setOf req.addr) way)))
  | none =>
    match c.wbq.findIdx? fun e => e.addr == c.lineBase req.addr with
    | some i => some (c.respond req (c.wbqLine i))
    | none =>
      match c.mshrFor (c.lineBase req.addr) with
      | some _ => none
      | none =>
        if req.isWrite ∧ req.size = c.cfg.lineBytes then some { src := req.src, tag := req.tag } else none

/-! ## What leaves the pipe alone -/

/-- Clock, pipe and configuration stay, and responses may join the queue. -/
structure PipeKeeps (c c' : Cache τ) (more : List (MemResponse τ)) : Prop where
  cfg : c'.cfg = c.cfg
  tickCount : c'.tickCount = c.tickCount
  hitPipe : c'.hitPipe = c.hitPipe
  respQ : c'.respQ = c.respQ ++ more

theorem PipeKeeps.refl (c : Cache τ) : PipeKeeps c c [] := ⟨rfl, rfl, rfl, (List.append_nil _).symm⟩

theorem PipeKeeps.trans (h : PipeKeeps c c₁ more) (h' : PipeKeeps c₁ c₂ more') : PipeKeeps c c₂ (more ++ more') :=
  ⟨h'.cfg.trans h.cfg, h'.tickCount.trans h.tickCount, h'.hitPipe.trans h.hitPipe, by
    rw [h'.respQ, h.respQ, List.append_assoc]⟩

theorem installLine_pipe (c : Cache τ) (la : Nat) (line : Line) (d : Bool) : PipeKeeps c (c.installLine la line d) [] := by
  simp only [installLine]
  split <;> exact ⟨rfl, rfl, rfl, (List.append_nil _).symm⟩

/-- An access to a resident line leaves the hit pipe, the answers and the clock alone. -/
theorem performOnLine_pipe (c : Cache τ) (req : MemRequest τ) (set way : Nat) :
    PipeKeeps c (c.performOnLine req set way).1 [] := by
  simp only [performOnLine, touchLRU]
  split <;> exact ⟨rfl, rfl, rfl, (List.append_nil _).symm⟩

/-- Replayed accesses answer at once, past the hit pipe; they append to the answers and nothing else
here. -/
theorem replays_pipe (set way : Nat) (ws : List (Waiting τ)) (c : Cache τ) :
    ∃ more, PipeKeeps c (ws.foldl (replayOne set way) c) more := by
  induction ws generalizing c with
  | nil => exact ⟨[], .refl c⟩
  | cons w ws ih =>
      have hp := performOnLine_pipe c w.req set way
      have hone : PipeKeeps c (replayOne set way c w) [(c.performOnLine w.req set way).2] :=
        ⟨hp.cfg, hp.tickCount, hp.hitPipe, congrArg (· ++ _) (hp.respQ.trans (List.append_nil _))⟩
      obtain ⟨more, hrest⟩ := ih (replayOne set way c w)
      exact ⟨_, hone.trans hrest⟩

/-- A refill may append answers of the accesses that waited for it, and leaves the hit pipe alone.
-/
theorem tryInstall_pipe {i : Nat} (h : c.tryInstall i line = some c') : ∃ more, PipeKeeps c c' more := by
  simp only [tryInstall] at h
  split at h
  · obtain rfl := Option.some.inj h
    obtain ⟨more, hrest⟩ := replays_pipe (c.setOf (c.mshrs[i]?.getD {}).lineAddr)
      (c.victimWay (c.setOf (c.mshrs[i]?.getD {}).lineAddr)) (c.mshrs[i]?.getD {}).waiting
      (c.installLine (c.mshrs[i]?.getD {}).lineAddr line false)
    have hall := (installLine_pipe c (c.mshrs[i]?.getD {}).lineAddr line false).trans hrest
    exact ⟨_, hall.cfg, hall.tickCount, hall.hitPipe, hall.respQ⟩
  · cases h

theorem deliver_pipe (c : Cache τ) (r : MemResponse LineTag) :
    ∃ more, PipeKeeps c (c.deliverBelowResponse r) more := by
  cases delivers c r with
  | ack _ heq =>
      rw [heq]
      exact ⟨[], .refl c⟩
  | fill _ hi => exact tryInstall_pipe hi
  | wait _ heq =>
      rw [heq]
      exact ⟨[], rfl, rfl, rfl, (List.append_nil _).symm⟩

theorem retry_pipe (n : Nat) (c : Cache τ) : ∃ more, PipeKeeps c (retryInstalls n c) more := by
  apply retryInstalls_preserve (I := fun c' => ∃ more, PipeKeeps c c' more) ?_ n ⟨[], .refl c⟩
  rintro c₁ c₂ ⟨p, ps, c₃, -, hi, rfl⟩ ⟨more, h⟩
  obtain ⟨more', h'⟩ := tryInstall_pipe hi
  have hall := h.trans h'
  exact ⟨_, hall.cfg, hall.tickCount, hall.hitPipe, hall.respQ⟩

theorem issue_pipe (c : Cache τ) (below : Bool) : PipeKeeps c (c.issueBelow below).1 [] := by
  have h := issues c below
  generalize c.issueBelow below = x at h
  cases h with
  | nothing => exact .refl c
  | writeback _ _ => exact ⟨rfl, rfl, rfl, (List.append_nil _).symm⟩
  | refill _ _ _ => exact ⟨rfl, rfl, rfl, (List.append_nil _).symm⟩

/-! ## Accepting a request -/

theorem respond_congr (h : c'.cfg = c.cfg) (req : MemRequest τ) (line : Line) : c'.respond req line = c.respond req line := by
  simp only [respond, offsetOf, h]

/-- A hit reserves one place in the hit pipe, for the answer the line gives at that moment. -/
theorem serveHit_pipe (c : Cache τ) (req : MemRequest τ) (set way : Nat) :
    ∃ c₁, PipeKeeps c c₁ [] ∧ c.serveHit req set way = c₁.reserveHit (c.respond req (c.data (c.lineIdx set way))) :=
  ⟨_, performOnLine_pipe c req set way, rfl⟩

/-- The line pulled back is the one that is served. -/
theorem restore_pipe (hroom : c.wbq.length < c.cfg.wbq) (la i : Nat) :
    ∃ c₁, PipeKeeps c c₁ [] ∧ c.restore req la i = c₁.reserveHit (c.respond req (c.wbqLine i)) := by
  have hp := installLine_pipe c la (c.wbqLine i) true
  have hdata : (c.installLine la (c.wbqLine i) true).data
      ((c.installLine la (c.wbqLine i) true).lineIdx (c.setOf la) (c.victimWay (c.setOf la))) = c.wbqLine i := by
    rw [lineIdx, hp.cfg]
    simp only [installLine, installOk_of_room hroom, if_true]
    exact Function.update_self ..
  obtain ⟨c₁, hk, heq⟩ := serveHit_pipe
    ({ c.installLine la (c.wbqLine i) true with wbq := (c.installLine la (c.wbqLine i) true).wbq.eraseIdx i } : Cache τ)
    req (c.setOf la) (c.victimWay (c.setOf la))
  have hrestore : c.restore req la i = c₁.reserveHit _ := heq
  refine ⟨c₁, ⟨hk.cfg.trans hp.cfg, hk.tickCount.trans hp.tickCount, hk.hitPipe.trans hp.hitPipe,
    hk.respQ.trans (congrArg (· ++ []) (hp.respQ.trans (List.append_nil _)))⟩, hrestore.trans ?_⟩
  exact congrArg _ ((respond_congr hp.cfg req _).trans (congrArg _ hdata))

/-- A request that waits for no refill reserves its response. -/
theorem access_immediate (hacc : c.canAccept = true) (h : c.immediate req = some r) :
    ∃ c₁, PipeKeeps c c₁ [] ∧ c.access req = c₁.reserveHit r := by
  simp only [canAccept, Bool.and_eq_true, decide_eq_true_eq] at hacc
  simp only [immediate] at h
  simp only [access]
  cases hway : c.findWay (c.setOf req.addr) (c.tagOf req.addr) with
  | some way =>
      rw [hway] at h
      obtain rfl := Option.some.inj h
      exact serveHit_pipe c req _ way
  | none =>
      rw [hway] at h
      dsimp only at h ⊢
      cases hi : c.wbq.findIdx? fun e => e.addr == c.lineBase req.addr with
      | some i =>
          rw [hi] at h
          obtain rfl := Option.some.inj h
          exact restore_pipe hacc.2 _ i
      | none =>
          rw [hi] at h
          dsimp only at h ⊢
          cases hm : c.mshrFor (c.lineBase req.addr) with
          | some i =>
              rw [hm] at h
              cases h
          | none =>
              rw [hm] at h
              dsimp only at h ⊢
              by_cases hw : req.isWrite ∧ req.size = c.cfg.lineBytes
              · rw [if_pos hw] at h ⊢
                obtain rfl := Option.some.inj h
                have hp := installLine_pipe c (c.lineBase req.addr) req.wline true
                exact ⟨(c.installLine (c.lineBase req.addr) req.wline true).touchLRU (c.setOf (c.lineBase req.addr))
                  (c.victimWay (c.setOf (c.lineBase req.addr))), ⟨hp.cfg, hp.tickCount, hp.hitPipe, hp.respQ⟩, rfl⟩
              · rw [if_neg hw] at h
                cases h

/-- Any other waits in an MSHR. -/
theorem access_waits (h : c.immediate req = none) : PipeKeeps c (c.access req) [] := by
  simp only [immediate] at h
  simp only [access]
  cases hway : c.findWay (c.setOf req.addr) (c.tagOf req.addr) with
  | some way =>
      rw [hway] at h
      cases h
  | none =>
      rw [hway] at h
      dsimp only at h ⊢
      cases hi : c.wbq.findIdx? fun e => e.addr == c.lineBase req.addr with
      | some i =>
          rw [hi] at h
          cases h
      | none =>
          rw [hi] at h
          dsimp only at h ⊢
          cases hm : c.mshrFor (c.lineBase req.addr) with
          | some i => exact ⟨rfl, rfl, rfl, (List.append_nil _).symm⟩
          | none =>
              rw [hm] at h
              dsimp only at h ⊢
              by_cases hw : req.isWrite ∧ req.size = c.cfg.lineBytes
              · rw [if_pos hw] at h
                cases h
              · rw [if_neg hw]
                cases c.freeMshr with
                | some i => exact ⟨rfl, rfl, rfl, (List.append_nil _).symm⟩
                | none => exact .refl c

end Cache

/-! ## Every run -/

/-- The runs of a cache, with any traffic above and below. `hits` are the responses that waited for no
refill, each with the tick at which its request was accepted, and `got` the responses taken. -/
inductive CacheRun {τ : Type} (cfg : CacheConfig) (srcId : Src) :
    List (Nat × MemResponse τ) → List (MemResponse τ) → Cache τ → Prop
  | reset : CacheRun cfg srcId [] [] (Cache.init cfg srcId)
  | tick {hits : List (Nat × MemResponse τ)} {got : List (MemResponse τ)} {c : Cache τ} (below : Bool) :
      CacheRun cfg srcId hits got c → CacheRun cfg srcId hits got (c.tick below).1
  | hit {hits : List (Nat × MemResponse τ)} {got : List (MemResponse τ)} {c : Cache τ} {req : MemRequest τ}
      {r : MemResponse τ} : CacheRun cfg srcId hits got c → c.canAccept = true → c.immediate req = some r →
      CacheRun cfg srcId (hits ++ [(c.tickCount, r)]) got (c.access req)
  | miss {hits : List (Nat × MemResponse τ)} {got : List (MemResponse τ)} {c : Cache τ} {req : MemRequest τ} :
      CacheRun cfg srcId hits got c → c.canAccept = true → c.immediate req = none →
      CacheRun cfg srcId hits got (c.access req)
  | deliver {hits : List (Nat × MemResponse τ)} {got : List (MemResponse τ)} {c : Cache τ} (r : MemResponse LineTag) :
      CacheRun cfg srcId hits got c → CacheRun cfg srcId hits got (c.deliverBelowResponse r)
  | pop {hits : List (Nat × MemResponse τ)} {got : List (MemResponse τ)} {c : Cache τ} {r : MemResponse τ} :
      CacheRun cfg srcId hits got c → c.respQ.head? = some r → CacheRun cfg srcId hits (got ++ [r]) c.popResponse

section Runs

variable {τ : Type} {cfg : CacheConfig} {srcId : Src} {hits : List (Nat × MemResponse τ)} {got : List (MemResponse τ)}
  {c c' : Cache τ} {out : List (Txn τ)} {latency : Nat} {more : List (MemResponse τ)} {r : MemResponse τ}

/-- The latency that the constructor keeps. -/
def hitLatencyOf (cfg : CacheConfig) : Nat := if cfg.hitLatency = 0 then 1 else cfg.hitLatency

/-- The pipe as a delay line: the responses of `out` have joined the queue, among others. -/
structure HitsOnTime (latency : Nat) (hits : List (Nat × MemResponse τ)) (got : List (MemResponse τ)) (c : Cache τ)
    (out : List (Txn τ)) : Prop where
  delay : c.cfg.hitLatency = latency ∧ 1 ≤ latency
  visible : (out.map (·.resp)).Sublist (got ++ c.respQ)
  line : Delayed Txn.readyAt (latency - 1) c.tickCount (hits.map (DRAM.txnOf latency)) out c.hitPipe

/-- The timing of hits survives every step that leaves the hit pipe and the clock alone. -/
theorem HitsOnTime.keep (h : HitsOnTime latency hits got c out) (hk : c.PipeKeeps c' more) :
    HitsOnTime latency hits got c' out := by
  refine ⟨by rw [hk.cfg]; exact h.delay, ?_, by rw [hk.tickCount, hk.hitPipe]; exact h.line⟩
  rw [hk.respQ, ← List.append_assoc]
  exact h.visible.trans (List.sublist_append_left _ _)

/-- A hit taken now enters the pipe with the present tick. -/
theorem HitsOnTime.reserve (h : HitsOnTime latency hits got c out) (r : MemResponse τ) :
    ∃ out, HitsOnTime latency (hits ++ [(c.tickCount, r)]) got (c.reserveHit r) out := by
  obtain ⟨rfl, hpos⟩ := h.delay
  have hhits : (hits ++ [(c.tickCount, r)]).map (DRAM.txnOf c.cfg.hitLatency) =
      hits.map (DRAM.txnOf c.cfg.hitLatency) ++ [DRAM.txnOf c.cfg.hitLatency (c.tickCount, r)] := List.map_append
  by_cases hone : c.cfg.hitLatency = 1
  · have heq : c.reserveHit r = { c with respQ := c.respQ ++ [r] } := if_pos hone
    rw [heq]
    refine ⟨out ++ [DRAM.txnOf c.cfg.hitLatency (c.tickCount, r)], ⟨rfl, hpos⟩, ?_, ?_⟩
    · rw [List.map_append, ← List.append_assoc]
      exact h.visible.append (List.Sublist.refl _)
    · rw [hhits]
      have hline := h.line
      rw [hone] at hline ⊢
      exact hline.pass (show c.tickCount + 1 - 1 = c.tickCount by omega)
  · have heq : c.reserveHit r = { c with hitPipe := c.hitPipe ++ [⟨r, c.tickCount + c.cfg.hitLatency - 1⟩] } := if_neg hone
    rw [heq]
    refine ⟨out, ⟨rfl, hpos⟩, h.visible, ?_⟩
    rw [hhits]
    exact h.line.enter (by omega)
      (show c.tickCount + c.cfg.hitLatency - 1 = c.tickCount + (c.cfg.hitLatency - 1) by omega)

/-- One tick takes out of the pipe exactly the hits whose latency is over. -/
theorem HitsOnTime.clock (h : HitsOnTime latency hits got c out) :
    ∃ out, HitsOnTime latency hits got ({ c with tickCount := c.tickCount + 1 } : Cache τ).drainHits out := by
  refine ⟨_, h.delay, ?_, h.line.tick⟩
  rw [List.map_append]
  have hq := h.visible.append (List.Sublist.refl ((leaving Txn.readyAt (c.tickCount + 1) c.hitPipe).map (·.resp)))
  rw [List.append_assoc] at hq
  exact hq

/-- In every run of a cache the hits are on time. By induction on the run, one case for each use of
the cache. -/
theorem CacheRun.onTime (h : CacheRun cfg srcId hits got c) : ∃ out, HitsOnTime (hitLatencyOf cfg) hits got c out := by
  induction h with
  | reset =>
      refine ⟨[], ⟨rfl, ?_⟩, List.nil_sublist _, .start⟩
      unfold hitLatencyOf
      split <;> omega
  | @tick hits got c below _ ih =>
      obtain ⟨out, h⟩ := ih
      obtain ⟨out', h'⟩ := h.clock
      obtain ⟨more, hr⟩ := Cache.retry_pipe c.pendingInstalls.length
        ({ c with tickCount := c.tickCount + 1 } : Cache τ).drainHits
      exact ⟨out', (h'.keep hr).keep (Cache.issue_pipe _ below)⟩
  | @hit hits got c req r _ hacc hi ih =>
      obtain ⟨out, h⟩ := ih
      obtain ⟨c₁, hk, heq⟩ := Cache.access_immediate hacc hi
      rw [heq, ← hk.tickCount]
      exact (h.keep hk).reserve r
  | miss _ _ hi ih =>
      obtain ⟨out, h⟩ := ih
      exact ⟨out, h.keep (Cache.access_waits hi)⟩
  | @deliver hits got c r _ ih =>
      obtain ⟨out, h⟩ := ih
      obtain ⟨more, hk⟩ := Cache.deliver_pipe c r
      exact ⟨out, h.keep hk⟩
  | @pop hits got c r _ hr ih =>
      obtain ⟨out, h⟩ := ih
      refine ⟨out, h.delay, ?_, h.line⟩
      obtain ⟨rest, hq⟩ := List.head?_eq_some_iff.mp hr
      have hsame : got ++ [r] ++ c.popResponse.respQ = got ++ c.respQ := by
        rw [Cache.popResponse, hq, List.append_assoc]
        rfl
      rw [hsame]
      exact h.visible

/-- **Hits on time.** In every run, the requests that waited for no refill are answered in order: those
accepted at least `hitLatency - 1` ticks ago have been, and exactly the others are still in the pipe. -/
theorem Cache.hits_on_time (h : CacheRun cfg srcId hits got c) :
    c.hitPipe.map (·.resp) = (hits.filter fun x => c.tickCount + 1 < x.1 + hitLatencyOf cfg).map Prod.snd ∧
      ((hits.filter fun x => x.1 + hitLatencyOf cfg ≤ c.tickCount + 1).map Prod.snd).Sublist (got ++ c.respQ) := by
  obtain ⟨out, ht⟩ := h.onTime
  obtain ⟨hout, hline⟩ := ht.line.out_eq
  have hvisible := ht.visible
  rw [hout, DRAM.filter_due _ _ ht.delay.2] at hvisible
  refine ⟨?_, hvisible⟩
  rw [hline, DRAM.filter_waiting _ _ ht.delay.2]

end Runs

/-! ## Runs that can be evaluated -/

/-- What the levels around a cache can do to it. -/
inductive CacheUse (τ : Type) where
  | tick (below : Bool)
  | access (req : MemRequest τ)
  | deliver (r : MemResponse LineTag)
  | pop

/-- The hits and the responses so far, and the cache after one use, where it allows this use. -/
def Cache.use {τ : Type} (hits : List (Nat × MemResponse τ)) (got : List (MemResponse τ)) (c : Cache τ) :
    CacheUse τ → Option (List (Nat × MemResponse τ) × List (MemResponse τ) × Cache τ)
  | .tick below => some (hits, got, (c.tick below).1)
  | .access req =>
      if c.canAccept = true then
        some (hits ++ ((c.immediate req).map fun r => (c.tickCount, r)).toList, got, c.access req)
      else none
  | .deliver r => some (hits, got, c.deliverBelowResponse r)
  | .pop => c.respQ.head?.map fun r => (hits, got ++ [r], c.popResponse)

/-- One use after the other. -/
def Cache.uses {τ : Type} : List (CacheUse τ) → List (Nat × MemResponse τ) → List (MemResponse τ) → Cache τ →
    Option (List (Nat × MemResponse τ) × List (MemResponse τ) × Cache τ)
  | [], hits, got, c => some (hits, got, c)
  | u :: us, hits, got, c => (c.use hits got u).bind fun r => Cache.uses us r.1 r.2.1 r.2.2

section Eval

variable {τ : Type} {cfg : CacheConfig} {srcId : Src} {hits hits' : List (Nat × MemResponse τ)}
  {got got' : List (MemResponse τ)} {c c' : Cache τ}

theorem CacheRun.use (h : CacheRun cfg srcId hits got c) (u : CacheUse τ)
    (hu : c.use hits got u = some (hits', got', c')) : CacheRun cfg srcId hits' got' c' := by
  cases u with
  | tick below =>
      cases hu
      exact h.tick below
  | access req =>
      by_cases hacc : c.canAccept = true
      · rw [Cache.use, if_pos hacc] at hu
        cases hi : c.immediate req with
        | none =>
            rw [hi] at hu
            cases hu
            rw [Option.map_none, Option.toList_none, List.append_nil]
            exact h.miss hacc hi
        | some r =>
            rw [hi] at hu
            cases hu
            exact h.hit hacc hi
      · rw [Cache.use, if_neg hacc] at hu
        cases hu
  | deliver r =>
      cases hu
      exact h.deliver r
  | pop =>
      obtain ⟨r, hr, he⟩ := Option.map_eq_some_iff.mp hu
      cases he
      exact h.pop hr

/-- A list of uses that the cache allows extends a run. -/
theorem CacheRun.uses (us : List (CacheUse τ)) : ∀ {hits hits' : List (Nat × MemResponse τ)}
    {got got' : List (MemResponse τ)} {c c' : Cache τ}, CacheRun cfg srcId hits got c →
    Cache.uses us hits got c = some (hits', got', c') → CacheRun cfg srcId hits' got' c' := by
  induction us with
  | nil =>
      intro hits hits' got got' c c' h hu
      cases hu
      exact h
  | cons u us ih =>
      intro hits hits' got got' c c' h hu
      obtain ⟨r, hr, hu⟩ := Option.bind_eq_some_iff.mp hu
      exact ih (h.use u hr) hu

/-- What an evaluation of the uses shows, some run has. -/
theorem CacheRun.eval (cfg : CacheConfig) (srcId : Src) (us : List (CacheUse τ))
    {p : List (Nat × MemResponse τ) → List (MemResponse τ) → Cache τ → Bool}
    (h : ((Cache.uses us [] [] (Cache.init cfg srcId)).any fun r => p r.1 r.2.1 r.2.2) = true) :
    ∃ hits got c, CacheRun cfg srcId hits got c ∧ p hits got c = true := by
  obtain ⟨r, hr, hp⟩ := (Option.any_eq_true _ _).mp h
  exact ⟨r.1, r.2.1, r.2.2, CacheRun.uses us .reset hr, hp⟩

/-- A hit latency of three. A whole line is written (5) and another is read and misses (6); the first is
read (7) while the refill is under way, and the second (8) when it has come. -/
def hitsAroundMiss : List (CacheUse Nat) :=
  [.access { tag := 5, addr := 16, size := 16, isWrite := true }, .access { tag := 6, addr := 64, size := 4 },
    .tick true, .access { tag := 7, addr := 16, size := 4 }, .deliver { tag := .refill 0 }, .tick true, .pop,
    .access { tag := 8, addr := 64, size := 4 }]

/-- The miss is answered first. Two ticks after the write its response has left the pipe, and those to the
two reads have not. -/
theorem Cache.hits_on_time_miss : ∃ (hits : List (Nat × MemResponse Nat)) (got : List (MemResponse Nat)) (c : Cache Nat),
    hits.map (fun x => (x.1, x.2.tag)) = [(0, 5), (1, 7), (2, 8)] ∧ c.tickCount = 2 ∧ got.map (·.tag) = [6] ∧
      c.hitPipe.map (·.resp.tag) = [7, 8] ∧ List.Sublist [5] ((got ++ c.respQ).map (·.tag)) := by
  obtain ⟨hits, got, c, hrun, hp⟩ := CacheRun.eval
    { sizeBytes := 64, ways := 1, lineBytes := 16, mshrs := 2, hitLatency := 3, wbq := 1 } .L1D hitsAroundMiss
    (p := fun hits got c => decide (hits.map (fun x => (x.1, x.2.tag)) = [(0, 5), (1, 7), (2, 8)] ∧
      c.tickCount = 2 ∧ got.map (·.tag) = [6])) (by decide +kernel)
  obtain ⟨hhits, htick, hgot⟩ := of_decide_eq_true hp
  obtain ⟨hpipe, hq⟩ := Cache.hits_on_time hrun
  -- the tags of the hits that a condition on the ticks keeps
  have htags : ∀ q : Nat → Bool, ((hits.filter fun x => q x.1).map Prod.snd).map (·.tag) =
      ([(0, 5), (1, 7), (2, 8)].filter fun x : Nat × Nat => q x.1).map Prod.snd := by
    intro q
    rw [← hhits, List.filter_map, List.map_map, List.map_map]
    rfl
  rw [htick] at hpipe hq
  refine ⟨hits, got, c, hhits, htick, hgot, ?_, ?_⟩
  · have hp := congrArg (List.map (·.tag)) hpipe
    rw [List.map_map] at hp
    exact hp.trans (htags fun t => decide (2 + 1 < t + 3))
  · have hs := hq.map fun x : MemResponse Nat => x.tag
    change List.Sublist (List.map (·.tag) (List.map Prod.snd (hits.filter fun x => decide (x.1 + 3 ≤ 2 + 1)))) _ at hs
    rw [htags fun t => decide (t + 3 ≤ 2 + 1)] at hs
    exact hs

end Eval

/-! ## The three levels -/

section Levels

variable {τ : Type} {cfg : CacheConfig} {srcId : Src} {hits : List (Nat × MemResponse τ)} {got : List (MemResponse τ)}
  {c : Cache τ} {sim : SimConfig} {m m' : CacheHierarchy τ}

/-- The cache is in a run. -/
def Cache.Runs (cfg : CacheConfig) (srcId : Src) (c : Cache τ) : Prop := ∃ hits got, CacheRun cfg srcId hits got c

theorem Cache.Runs.access (h : c.Runs cfg srcId) (hacc : c.canAccept = true) (req : MemRequest τ) :
    (c.access req).Runs cfg srcId := by
  obtain ⟨hits, got, h⟩ := h
  cases hi : c.immediate req with
  | none => exact ⟨_, _, h.miss hacc hi⟩
  | some r => exact ⟨_, _, h.hit hacc hi⟩

theorem Cache.Runs.tick (h : c.Runs cfg srcId) (below : Bool) : (c.tick below).1.Runs cfg srcId := by
  obtain ⟨hits, got, h⟩ := h
  exact ⟨_, _, h.tick below⟩

theorem Cache.Runs.deliver (h : c.Runs cfg srcId) (r : MemResponse LineTag) :
    (c.deliverBelowResponse r).Runs cfg srcId := by
  obtain ⟨hits, got, h⟩ := h
  exact ⟨_, _, h.deliver r⟩

theorem Cache.Runs.deliverAll (rs : List (MemResponse LineTag)) (h : c.Runs cfg srcId) :
    (rs.foldl (fun c r => c.deliverBelowResponse r) c).Runs cfg srcId := by
  induction rs generalizing c with
  | nil => exact h
  | cons r rs ih => exact ih (h.deliver r)

/-- All responses are taken, one after the other. -/
theorem CacheRun.drained (h : CacheRun cfg srcId hits got c) :
    CacheRun cfg srcId hits (got ++ c.respQ) { c with respQ := [] } := by
  generalize hq : c.respQ = rs
  induction rs generalizing c got with
  | nil =>
      rw [← hq, hq, List.append_nil]
      rw [show ({ c with respQ := [] } : Cache τ) = c by rw [← hq]]
      exact h
  | cons r rs ih =>
      have hnext := ih (h.pop (by rw [hq]; rfl)) (by rw [Cache.popResponse, hq]; rfl)
      rw [List.append_assoc] at hnext
      exact hnext

/-- A request goes down only when the level below accepts it. -/
theorem Cache.tick_sends {below : Bool} {r : MemRequest LineTag} (h : (c.tick below).2 = some r) : below = true := by
  simp only [Cache.tick] at h
  have hi := Cache.issues (Cache.retryInstalls ({ c with tickCount := c.tickCount + 1 } : Cache τ).drainHits.pendingInstalls.length
    ({ c with tickCount := c.tickCount + 1 } : Cache τ).drainHits) below
  generalize Cache.issueBelow _ below = x at h hi
  cases hi with
  | nothing => cases h
  | writeback hb _ => exact hb
  | refill hb _ _ => exact hb

/-- Each of the three caches goes through a run of its own. -/
structure CacheHierarchy.LevelsRun (sim : SimConfig) (m : CacheHierarchy τ) : Prop where
  l2 : m.l2.Runs sim.l2 .L2
  l1i : m.l1i.Runs sim.l1i .L1I
  l1d : m.l1d.Runs sim.l1d .L1D

namespace CacheHierarchy

theorem LevelsRun.drainDram (h : LevelsRun sim m) : LevelsRun sim m.drainDram := ⟨h.l2.deliverAll _, h.l1i, h.l1d⟩

/-- The L2's tick is a use of the L2 alone. -/
theorem LevelsRun.tickL2 (h : LevelsRun sim m) (ht : m.tickL2 = .ok m') : LevelsRun sim m' := by
  have hl2 := h.l2.tick m.dram.canAccept
  simp only [CacheHierarchy.tickL2] at ht
  generalize m.l2.tick m.dram.canAccept = x at ht hl2
  obtain ⟨l2, _ | req⟩ := x
  · obtain rfl := Except.ok.inj ht
    exact ⟨hl2, h.l1i, h.l1d⟩
  · dsimp only at ht
    cases ha : m.dram.access m.backing req with
    | error e =>
        rw [ha] at ht
        cases ht
    | ok y =>
        rw [ha] at ht
        obtain rfl := Except.ok.inj ht
        exact ⟨hl2, h.l1i, h.l1d⟩

theorem LevelsRun.routeL2 (h : LevelsRun sim m) (r : MemResponse LineTag) : LevelsRun sim (m.routeL2 r) := by
  simp only [CacheHierarchy.routeL2]
  split
  · exact ⟨h.l2, h.l1i.deliver r, h.l1d⟩
  · exact ⟨h.l2, h.l1i, h.l1d.deliver r⟩

/-- The L2's answers are delivered to the cache they are for, one at a time. -/
theorem LevelsRun.drainL2 (h : LevelsRun sim m) : LevelsRun sim m.drainL2 := by
  have hroute : ∀ (rs : List (MemResponse LineTag)) (m : CacheHierarchy τ), LevelsRun sim m →
      LevelsRun sim (rs.foldl CacheHierarchy.routeL2 m) := by
    intro rs
    induction rs with
    | nil => exact fun m h => h
    | cons r rs ih => exact fun m h => ih _ (h.routeL2 r)
  obtain ⟨hits, got, hl2⟩ := h.l2
  exact hroute _ _ ⟨⟨_, _, hl2.drained⟩, h.l1i, h.l1d⟩

/-- The L2 takes the request of an L1. -/
theorem LevelsRun.sendL2 (h : LevelsRun sim m) {req : Option (MemRequest LineTag)}
    (hacc : ∀ r, req = some r → m.l2.canAccept = true) : LevelsRun sim (m.sendL2 req) := by
  cases req with
  | none => exact h
  | some r => exact ⟨h.l2.access (hacc r rfl) r, h.l1i, h.l1d⟩

theorem LevelsRun.tickL1I (h : LevelsRun sim m) : LevelsRun sim m.tickL1I :=
  LevelsRun.sendL2 (m := { m with l1i := (m.l1i.tick m.l2.canAccept).1 }) ⟨h.l2, h.l1i.tick _, h.l1d⟩
    fun _ hr => Cache.tick_sends hr

theorem LevelsRun.tickL1D (h : LevelsRun sim m) : LevelsRun sim m.tickL1D :=
  LevelsRun.sendL2 (m := { m with l1d := (m.l1d.tick m.l2.canAccept).1 }) ⟨h.l2, h.l1i, h.l1d.tick _⟩
    fun _ hr => Cache.tick_sends hr

/-- A tick of the hierarchy uses each of the three caches as a run of its own does. -/
theorem LevelsRun.tick (h : LevelsRun sim m) (ht : m.tick = .ok m') : LevelsRun sim m' := by
  simp only [CacheHierarchy.tick] at ht
  have hd : LevelsRun sim ({ m with dram := m.dram.tick } : CacheHierarchy τ).drainDram :=
    LevelsRun.drainDram ⟨h.l2, h.l1i, h.l1d⟩
  cases hl2 : ({ m with dram := m.dram.tick } : CacheHierarchy τ).drainDram.tickL2 with
  | error e =>
      rw [hl2] at ht
      cases ht
  | ok m₁ =>
      rw [hl2] at ht
      obtain rfl := Except.ok.inj ht
      exact (hd.tickL2 hl2).drainDram.drainL2.tickL1I.tickL1D.drainL2

end CacheHierarchy

/-- Every level of the hierarchy goes through a run of its own. -/
theorem PortRun.cacheRuns {n bound : Nat} {image : Nat → Byte} {evs : List (PortEvent τ)} {s : MemorySystem τ}
    (h : PortRun n bound (.cached (CacheHierarchy.init sim image)) evs s) : ∃ m, s = .cached m ∧ m.LevelsRun sim := by
  induction h with
  | reset => exact ⟨_, rfl, ⟨_, _, .reset⟩, ⟨_, _, .reset⟩, ⟨_, _, .reset⟩⟩
  | tick _ ht ih =>
      obtain ⟨m, rfl, h⟩ := ih
      simp only [MemorySystem.tick] at ht
      cases hm : m.tick with
      | error e =>
          rw [hm] at ht
          cases ht
      | ok m' =>
          rw [hm] at ht
          exact ⟨m', (Except.ok.inj ht).symm, h.tick hm⟩
  | dAccess _ hacc _ ha ih =>
      obtain ⟨m, rfl, h⟩ := ih
      exact ⟨_, (Except.ok.inj ha).symm, h.l2, h.l1i, h.l1d.access hacc _⟩
  | iAccess _ hacc _ ha ih =>
      obtain ⟨m, rfl, h⟩ := ih
      exact ⟨_, (Except.ok.inj ha).symm, h.l2, h.l1i.access hacc _, h.l1d⟩
  | dPop _ hr ih =>
      obtain ⟨m, rfl, h⟩ := ih
      obtain ⟨hits, got, hl⟩ := h.l1d
      exact ⟨_, rfl, h.l2, h.l1i, _, _, hl.pop hr⟩
  | iPop _ hr ih =>
      obtain ⟨m, rfl, h⟩ := ih
      obtain ⟨hits, got, hl⟩ := h.l1i
      exact ⟨_, rfl, h.l2, ⟨_, _, hl.pop hr⟩, h.l1d⟩

end Levels

end RvO3
