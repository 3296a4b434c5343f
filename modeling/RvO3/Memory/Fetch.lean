import RvO3.Memory.View
import Mathlib.Data.Multiset.ZeroCons

/-!
# A cache that is only read

L1I is never written, but other caches write the level below it, and the copy that a fetch
returns may have been made before such a write. What holds is about the bytes that nobody
writes (`same`): every copy on the way has the byte of the image there. `asked` are the
requests accepted and not popped; each is matched with its response, or still waits for a
line.
-/

set_option autoImplicit false

namespace RvO3

namespace Cache

variable {τ : Type} {c c' : Cache τ} {req : MemRequest τ} {la : Nat} {line : Line}
  {P same : Nat → Prop} {image : Nat → Byte}

/-- A response to a read that has the image's bytes where nothing was written. -/
structure Answers (same : Nat → Prop) (image : Nat → Byte) (req : MemRequest τ)
    (r : MemResponse τ) : Prop where
  tag : r.tag = req.tag
  src : r.src = req.src
  bytes : ∀ b, b < req.size → same (req.addr + b) → r.byteOf req.size b = image (req.addr + b)

/-- A line that has the image's bytes where nothing was written. -/
def AgreesOn (c : Cache τ) (same : Nat → Prop) (image : Nat → Byte) (line : Line) (la : Nat) : Prop :=
  ∀ b, b < c.cfg.lineBytes → same (la + b) → line b = image (la + b)

/-- The requests that wait for a line. -/
def waitingReqs (c : Cache τ) : Multiset (MemRequest τ) := bag c.mshrs fun m => ↑(m.waiting.map (·.req))

/-- A cache that serves reads only, such as the L1I: its lines are clean, and each of them, there or
on its way, has the image's bytes where nothing was written. -/
structure FetchOk (c : Cache τ) (same : Nat → Prop) (image : Nat → Byte)
    (asked : Multiset (MemRequest τ)) (refills : Multiset (MemResponse LineTag)) : Prop where
  noWriteback : c.wbq = []
  clean : ∀ a, a < 2 ^ 32 → c.dirtyAt a = false
  reads : ∀ i, ∀ w ∈ (c.mshrAt i).waiting, w.req.isWrite = false
  lines : ∀ a line, a < 2 ^ 32 → c.lineAt a = some line → same a → line (c.offsetOf a) = image a
  coming : ∀ r ∈ refills, ∀ i, r.tag = .refill i →
    c.AgreesOn same image r.rline (c.mshrAt i).lineAddr
  deferred : ∀ p ∈ c.pendingInstalls, c.AgreesOn same image p.line (c.mshrAt p.mshrIdx).lineAddr
  ledger : ∃ done, asked = done + c.waitingReqs ∧ Multiset.Rel (Answers same image) done c.answered

section Laws

variable {asked : Multiset (MemRequest τ)} {refills : Multiset (MemResponse LineTag)}

/-- A read served from a line. -/
theorem AgreesOn.respond (hg : c.Geometry) (h : c.AgreesOn same image line la) (hf : c.Fits req)
    (hb : c.lineBase req.addr = la) (hr : req.isWrite = false) :
    Answers same image req (c.respond req line) := by
  have hbyte : ∀ b, b < req.size → same (req.addr + b) →
      line (c.offsetOf req.addr + b) = image (req.addr + b) := by
    intro b hlt hs
    have hin := hf.inLine
    rw [Fits.addr_eq hg hb] at hs ⊢
    exact h _ (by omega) hs
  unfold Cache.respond
  dsimp only
  rw [if_neg (by simp [hr])]
  refine ⟨by split <;> rfl, by split <;> rfl, fun b hlt hs => ?_⟩
  split
  · unfold MemResponse.byteOf
    rw [if_neg (by omega)]
    dsimp only
    rw [if_pos hlt]
    exact hbyte b hlt hs
  · unfold MemResponse.byteOf
    rw [if_pos (by omega)]
    dsimp only
    rw [wordByte_scalarOf _ (by omega) hlt]
    exact hbyte b hlt hs

/-- The reads that waited for a line, replayed on it. -/
theorem AgreesOn.replies (hg : c.Geometry) (h : c.AgreesOn same image line la)
    (ws : List (Waiting τ)) (hws : ∀ w ∈ ws, c.Fits w.req ∧ c.lineBase w.req.addr = la)
    (hr : ∀ w ∈ ws, w.req.isWrite = false) :
    c.replayed line ws = line ∧
      Multiset.Rel (Answers same image) (↑(ws.map (·.req)) : Multiset (MemRequest τ))
        (↑(Cache.replies c line ws) : Multiset (MemResponse τ)) := by
  induction ws with
  | nil => exact ⟨rfl, Multiset.Rel.zero⟩
  | cons w ws ih =>
      obtain ⟨h1, h2⟩ := ih (fun w' hw' => hws w' (List.mem_cons_of_mem _ hw'))
        fun w' hw' => hr w' (List.mem_cons_of_mem _ hw')
      obtain ⟨hf, hb⟩ := hws w List.mem_cons_self
      have hw := hr w List.mem_cons_self
      rw [replayed, Cache.replies, if_neg (by simp [hw])]
      refine ⟨h1, ?_⟩
      rw [List.map_cons, ← Multiset.cons_coe, ← Multiset.cons_coe]
      exact .cons (h.respond hg hf hb hw) h2

/-- Fewer bytes are promised. -/
theorem FetchOk.mono {same' : Nat → Prop} (h : FetchOk c same image asked refills)
    (hs : ∀ a, same' a → same a) : FetchOk c same' image asked refills := by
  obtain ⟨done, heq, hrel⟩ := h.ledger
  refine ⟨h.noWriteback, h.clean, h.reads, fun a line ha hl hsa => h.lines a line ha hl (hs a hsa),
    fun r hr i hi b hb hsb => h.coming r hr i hi b hb (hs _ hsb),
    fun p hp b hb hsb => h.deferred p hp b hb (hs _ hsb), done, heq, ?_⟩
  exact hrel.mono fun q _ r _ hqr => ⟨hqr.tag, hqr.src, fun b hb hsb => hqr.bytes b hb (hs _ hsb)⟩

/-- A read that hits is answered from its line. -/
theorem FetchOk.hit {c₁ : Cache τ} (h : FetchOk c same image asked refills) (hc : CacheOk P c)
    (hf : c.Fits req) (hr : req.isWrite = false) (hl : c.lineAt req.addr = some line) (hp : Performed c c₁ req line)
    (ht : SameTags c₁ c') (hdat : c'.data = c₁.data) (hdy : c'.dirty = c₁.dirty) (hs : SameMisses c c')
    (hwb : c'.wbq = c.wbq) (hans : c'.answered = c.respond req line ::ₘ c.answered) :
    FetchOk c' same image (req ::ₘ asked) refills := by
  obtain ⟨done, hasked, hrel⟩ := h.ledger
  have hg := hc.arrays.geometry
  have hline' : ∀ a, a < 2 ^ 32 → c'.lineAt a = c.lineAt a := by
    intro a ha
    rw [ht.lineAt a hdat, hp.lineAt a ha, if_neg (by simp [hr])]
  have hdirty' : ∀ a, a < 2 ^ 32 → c'.dirtyAt a = c.dirtyAt a := by
    intro a ha
    rw [ht.dirtyAt a hdy, hp.dirtyAt a ha, if_neg (by simp [hr])]
  have hagree : c.AgreesOn same image line (c.lineBase req.addr) := by
    intro b hb hsb
    have hla := isLine_lineBase hg hf.addr
    have hend := IsLine.end_le hg hla
    obtain ⟨h1, h2⟩ := lineBase_add hg hla.1 hb
    rw [← h.lines _ line (by omega) ?_ hsb, h2]
    rw [← lineAt_lineBase hc.arrays (by omega), h1, lineAt_lineBase hc.arrays hf.addr, hl]
  have hm := hs.mshrAt
  refine ⟨by rw [hwb, h.noWriteback], fun a ha => by rw [hdirty' a ha]; exact h.clean a ha,
    fun i => by rw [hm]; exact h.reads i, fun a l ha hla hsa => ?_, fun r hr i hi => ?_,
    fun p hpm => ?_, req ::ₘ done, ?_, ?_⟩
  · rw [hline' a ha] at hla
    rw [offsetOf, hs.cfg]
    exact h.lines a l ha hla hsa
  · rw [hm, AgreesOn, hs.cfg]
    exact h.coming r hr i hi
  · rw [hs.pendingInstalls] at hpm
    rw [hm, AgreesOn, hs.cfg]
    exact h.deferred p hpm
  · rw [waitingReqs, hs.mshrs, hasked, Multiset.cons_add]
    rfl
  · rw [hans]
    exact .cons (hagree.respond hg hf rfl hr) hrel

/-- A read of a line that is being fetched waits for it. -/
theorem FetchOk.merge {i : Nat} (h : FetchOk c same image asked refills) (hr : req.isWrite = false)
    (hv : (c.mshrAt i).valid = true)
    (heq : c' = { c with mshrs := c.mshrs.modify i fun m =>
      { m with waiting := m.waiting ++ [⟨req, c.tickCount⟩] } }) :
    FetchOk c' same image (req ::ₘ asked) refills := by
  obtain ⟨done, hasked, hrel⟩ := h.ledger
  have hi := valid_lt hv
  have hmsh := mshrAt_modify (congrArg Cache.mshrs heq) hi
  have haddr : ∀ j, (c'.mshrAt j).lineAddr = (c.mshrAt j).lineAddr := by
    intro j
    rw [hmsh]
    split
    · rename_i hji
      rw [hji]
    · rfl
  have hbag := bag_modify (fun m : Mshr τ => { m with
    waiting := m.waiting ++ [⟨req, c.tickCount⟩] })
    (fun m => (↑(m.waiting.map (·.req)) : Multiset (MemRequest τ))) (mshrAt_of_lt hi)
  dsimp only at hbag
  rw [List.map_append, ← Multiset.coe_add, ← add_assoc, add_right_comm] at hbag
  have hbag := add_right_cancel hbag
  refine ⟨by rw [heq]; exact h.noWriteback, fun a ha => by rw [heq]; exact h.clean a ha,
    fun j w hw => ?_, fun a l ha hla => by rw [heq] at hla ⊢; exact h.lines a l ha hla,
    fun r hr j hj => ?_, fun p hp => ?_, done, ?_, by rw [heq]; exact hrel⟩
  · rw [hmsh] at hw
    split at hw
    · rcases List.mem_append.mp hw with hw | hw
      · exact h.reads i w hw
      · rw [List.mem_singleton.mp hw]
        exact hr
    · exact h.reads j w hw
  · rw [haddr, AgreesOn, heq]
    exact h.coming r hr j hj
  · rw [haddr, AgreesOn, heq]
    rw [heq] at hp
    exact h.deferred p hp
  · rw [waitingReqs, heq, hasked]
    dsimp only
    rw [hbag, waitingReqs]
    simp [← Multiset.singleton_add, add_comm, add_left_comm]

/-- A read that misses opens an entry that no copy is on its way for. -/
theorem FetchOk.miss {i : Nat} (h : FetchOk c same image asked refills) (hc : CacheOk P c)
    (hr : req.isWrite = false) (hsent : RefillsOk c (refills.map (·.tag)))
    (hi : i < c.mshrs.length) (hinv : (c.mshrAt i).valid = false)
    (heq : c' = { c with
      pendingMisses := c.pendingMisses + 1
      mshrs := c.mshrs.set i { valid := true, lineAddr := c.lineBase req.addr, refillSent := false
                               waiting := [⟨req, c.tickCount⟩] } }) :
    FetchOk c' same image (req ::ₘ asked) refills := by
  obtain ⟨done, hasked, hrel⟩ := h.ledger
  have hmsh := mshrAt_set (congrArg Cache.mshrs heq) hi
  have hnot : i ∉ c.refillsSent := fun hm => by
    rw [(mem_refillsSent.mp hm).1] at hinv
    cases hinv
  have hother : ∀ j, j ∈ c.refillsSent → c'.mshrAt j = c.mshrAt j := by
    intro j hj
    rw [hmsh, if_neg]
    rintro rfl
    exact hnot hj
  have hbag := bag_set (fun m : Mshr τ => (↑(m.waiting.map (·.req)) : Multiset (MemRequest τ)))
    (mshrAt_of_lt hi) { valid := true, lineAddr := c.lineBase req.addr, refillSent := false
                        waiting := [⟨req, c.tickCount⟩] }
  dsimp only at hbag
  rw [hc.idle i hinv, List.map_nil, Multiset.coe_nil, add_zero] at hbag
  refine ⟨by rw [heq]; exact h.noWriteback, fun a ha => by rw [heq]; exact h.clean a ha,
    fun j w hw => ?_, fun a l ha hla => by rw [heq] at hla ⊢; exact h.lines a l ha hla,
    fun r hr j hj => ?_, fun p hp => ?_, done, ?_, by rw [heq]; exact hrel⟩
  · rw [hmsh] at hw
    split at hw
    · rw [List.mem_singleton.mp hw]
      exact hr
    · exact h.reads j w hw
  · rw [hother j (hsent.coming hr hj), AgreesOn, heq]
    exact h.coming r hr j hj
  · rw [heq] at hp
    rw [hother p.mshrIdx (hsent.deferred hp), AgreesOn, heq]
    exact h.deferred p hp
  · rw [waitingReqs, heq, hasked]
    dsimp only
    rw [hbag, waitingReqs]
    simp [← Multiset.singleton_add, add_comm, add_left_comm]

theorem FetchOk.accepts (h : FetchOk c same image asked refills) (hc : CacheOk P c)
    (hf : c.Fits req) (hr : req.isWrite = false)
    (hsent : RefillsOk c (refills.map (·.tag))) (ha : Accepts c req c') :
    FetchOk c' same image (req ::ₘ asked) refills := by
  cases ha with
  | hit hl hp ht hdat hdy hs hwb hans => exact h.hit hc hf hr hl hp ht hdat hdy hs hwb hans
  | @restore e i _ _ hi _ _ _ _ _ =>
      -- nothing waits to be written back
      rw [h.noWriteback] at hi
      simp at hi
  | merge _ _ hv _ heq => exact h.merge hr hv heq
  | write hw =>
      rw [hr] at hw
      cases hw
  | miss _ _ _ _ hi hinv heq => exact h.miss hc hr hsent hi hinv heq

/-- A fill moves the requests that waited for the line to the answers. -/
theorem Fills.ledger {i : Nat} {victim : Option Nat} {out : List WbEntry} {c₁ : Cache τ}
    (hf : Fills c c₁ i line victim out) (hi : i < c.mshrs.length) :
    c.waitingReqs = c₁.waitingReqs + ↑((c.mshrAt i).waiting.map (·.req)) ∧
      c₁.answered = c.answered + ↑(Cache.replies c line (c.mshrAt i).waiting) := by
  constructor
  · have hbag := bag_set (fun m : Mshr τ => (↑(m.waiting.map (·.req)) : Multiset (MemRequest τ)))
      (mshrAt_of_lt hi) {}
    dsimp only at hbag
    rw [List.map_nil, Multiset.coe_nil, add_zero] at hbag
    rw [waitingReqs, waitingReqs, hf.mshrs]
    exact hbag.symm
  · unfold answered
    rw [hf.respQ, hf.hitPipe, Multiset.coe_add, Multiset.coe_eq_coe, List.append_assoc,
      List.append_assoc]
    exact List.perm_append_comm.append_left _

/-- No line that the array holds is dirty, so none is written back. -/
theorem FetchOk.evictsNothing {victim : Option Nat} {out : List WbEntry}
    (h : FetchOk c same image asked refills) (he : c.Evicts victim out) : out = [] := by
  cases he with
  | nothing => rfl
  | clean _ _ _ => rfl
  | dirty hl _ hd _ =>
      rw [h.clean _ hl.2] at hd
      cases hd

/-- The line that enters agrees with the image, and the others were there before. -/
theorem FetchOk.linesEnter {la : Nat} {isDirty : Bool} {victim : Option Nat} {out : List WbEntry}
    {c₁ : Cache τ} (h : FetchOk c same image asked refills) (hc : CacheOk P c)
    (hag : c.AgreesOn same image line la) (he : LineEnters c c₁ la line isDirty victim out)
    {a : Nat} {l : Line} (ha : a < 2 ^ 32) (hla : c₁.lineAt a = some l) (hsa : same a) :
    l (c.offsetOf a) = image a := by
  have hg := hc.arrays.geometry
  rw [he.lineAt a ha] at hla
  split at hla
  · rename_i hb
    cases hla
    have haddr := lineBase_add_offset hg a
    rw [hb] at haddr
    rw [← haddr] at hsa
    rw [hag _ (offset_lt hg a) hsa, haddr]
  · split at hla
    · cases hla
    · exact h.lines a l ha hla hsa

/-- A refill is installed; `rest` and `ps` are the copies still on their way. -/
theorem FetchOk.fills {i : Nat} {victim : Option Nat} {out : List WbEntry} {c₁ : Cache τ}
    {ps : List PendingInstall} {rest : Multiset (MemResponse LineTag)}
    (h : FetchOk c same image asked refills) (hc : CacheOk P c) (hs : i ∈ c.refillsSent)
    (hag : c.AgreesOn same image line (c.mshrAt i).lineAddr) (hf : Fills c c₁ i line victim out)
    (hc' : c' = { c₁ with pendingInstalls := ps }) (hps : ∀ p ∈ ps, p ∈ c.pendingInstalls)
    (hrest : ∀ r ∈ rest, r ∈ refills) (hr : RefillsOk c' (rest.map (·.tag))) :
    FetchOk c' same image asked rest := by
  obtain ⟨done, hasked, hrel⟩ := h.ledger
  obtain ⟨hv, -⟩ := mem_refillsSent.mp hs
  have hi := valid_lt hv
  have hreads := h.reads i
  have hany : (c.mshrAt i).waiting.any (·.req.isWrite) = false := by
    rw [List.any_eq_false]
    intro w hw
    rw [hreads w hw]
    exact Bool.false_ne_true
  obtain ⟨hkeep, hans⟩ := hag.replies hc.arrays.geometry (c.mshrAt i).waiting (hc.misses i hv).fits hreads
  obtain ⟨hwaiting, hanswered⟩ := hf.ledger hi
  have hent := hf.enters
  rw [hkeep, hany] at hent
  have hmsh : ∀ j, c'.mshrAt j = if j = i then {} else c.mshrAt j := by
    intro j
    rw [hc']
    exact mshrAt_set hf.mshrs hi j
  have hcfg : c'.cfg = c.cfg := by
    rw [hc']
    exact hent.cfg
  -- the copies still on their way are for other MSHRs
  have hother : ∀ j, j ∈ c'.refillsSent → c'.mshrAt j = c.mshrAt j := by
    intro j hj
    rw [hmsh, if_neg]
    rintro rfl
    have hvj := (mem_refillsSent.mp hj).1
    rw [hmsh, if_pos rfl] at hvj
    cases hvj
  refine ⟨?_, fun a ha => ?_, fun j w hw => ?_, fun a l ha hla hsa => ?_, fun r hrm j hj => ?_,
    fun p hp => ?_, done + ↑((c.mshrAt i).waiting.map (·.req)), ?_, ?_⟩
  · rw [hc']
    show c₁.wbq = []
    rw [hf.wbq, h.noWriteback, h.evictsNothing hent.evicts]
    rfl
  · rw [hc']
    show c₁.dirtyAt a = false
    rw [hent.dirtyAt a ha, h.clean a ha]
    split
    · rfl
    · exact ite_self _
  · rw [hmsh] at hw
    split at hw
    · cases hw
    · exact h.reads j w hw
  · rw [offsetOf, hcfg, ← offsetOf]
    rw [hc'] at hla
    exact h.linesEnter hc hag hent ha hla hsa
  · rw [hother j (hr.coming hrm hj), AgreesOn, hcfg]
    exact h.coming r (hrest r hrm) j hj
  · have hps' : p ∈ ps := by
      rw [hc'] at hp
      exact hp
    rw [hother p.mshrIdx (hr.deferred hp), AgreesOn, hcfg]
    exact h.deferred p (hps p hps')
  · have hwait' : c'.waitingReqs = c₁.waitingReqs := by
      rw [hc']
      rfl
    rw [hwait', hasked, hwaiting, add_assoc]
    congr 1
    exact add_comm _ _
  · have hans' : c'.answered = c₁.answered := by
      rw [hc']
      rfl
    rw [hans', hanswered]
    exact Multiset.Rel.add hrel hans

/-- A completion from below arrives. -/
theorem FetchOk.deliver {r : MemResponse LineTag} (h : FetchOk c same image asked (r ::ₘ refills))
    (hc : CacheOk P c) (hr : RefillsOk c (r.tag ::ₘ refills.map (·.tag))) :
    FetchOk (c.deliverBelowResponse r) same image asked refills := by
  obtain ⟨-, -, -, hr'⟩ := hc.deliver hr
  have hdel := delivers c r
  generalize c.deliverBelowResponse r = c' at hdel hr' ⊢
  have hweak : ∀ r' ∈ refills, r' ∈ r ::ₘ refills := fun r' hm => Multiset.mem_cons_of_mem hm
  cases hdel with
  | ack _ heq =>
      subst heq
      exact ⟨h.noWriteback, h.clean, h.reads, h.lines, fun r' hm => h.coming r' (hweak r' hm),
        h.deferred, h.ledger⟩
  | @fill i ht hf =>
      have hs : i ∈ c.refillsSent := by
        unfold RefillsOk at hr
        rw [ht, Multiset.filterMap_cons_some refillOf _ _ (b := i) rfl, Multiset.cons_add] at hr
        rw [hr]
        exact Multiset.mem_cons_self _ _
      obtain ⟨victim, out, hf⟩ := hc.fills (mem_refillsSent.mp hs).1 hf
      exact h.fills hc hs (h.coming r (Multiset.mem_cons_self _ _) i ht) hf rfl
        (fun p hp => by rwa [hf.pendingInstalls] at hp) hweak hr'
  | @wait i ht heq =>
      subst heq
      refine ⟨h.noWriteback, h.clean, h.reads, h.lines, fun r' hm => h.coming r' (hweak r' hm),
        fun p hp => ?_, h.ledger⟩
      rcases List.mem_append.mp hp with hp | hp
      · exact h.deferred p hp
      · rw [List.mem_singleton.mp hp]
        exact h.coming r (Multiset.mem_cons_self _ _) i ht

theorem FetchOk.retries (h : FetchOk c same image asked refills) (hc : CacheOk P c)
    (hr : RefillsOk c (refills.map (·.tag))) (hret : Retries c c') :
    FetchOk c' same image asked refills := by
  obtain ⟨-, -, -, hr', p, ps, c₁, victim, out, hp, hs, hf, rfl⟩ := hc.retries hr hret
  exact h.fills hc hs (h.deferred p (by rw [hp]; exact List.mem_cons_self)) hf rfl
    (fun p' hp' => by rw [hp]; exact List.mem_cons_of_mem _ hp') (fun _ hm => hm) hr'

theorem FetchOk.drainHits (h : FetchOk c same image asked refills) :
    FetchOk ({ c with tickCount := c.tickCount + 1 } : Cache τ).drainHits same image asked refills := by
  refine ⟨h.noWriteback, h.clean, h.reads, h.lines, h.coming, h.deferred, ?_⟩
  rw [drainHits_answered]
  exact h.ledger

/-- The response that is popped answers one of the requests. -/
theorem FetchOk.pop {r : MemResponse τ} (h : FetchOk c same image asked refills)
    (hq : c.respQ.head? = some r) :
    ∃ q asked', asked = q ::ₘ asked' ∧ Answers same image q r ∧
      FetchOk c.popResponse same image asked' refills := by
  obtain ⟨done, hasked, hrel⟩ := h.ledger
  rw [popResponse_answered hq, Multiset.rel_cons_right] at hrel
  obtain ⟨q, done', hqr, hrel, rfl⟩ := hrel
  exact ⟨q, done' + c.waitingReqs, by rw [hasked, Multiset.cons_add], hqr,
    h.noWriteback, h.clean, h.reads, h.lines, h.coming, h.deferred, done', rfl, hrel⟩

/-- L1I only sends refills; the answer is a copy of the level below as it is now. -/
theorem FetchOk.issues {b : Bool} {below : Nat → Byte} {r : Cache τ × Option (MemRequest LineTag)}
    (h : FetchOk c same image asked refills) (hc : CacheOk P c) (hi : Issues c b r)
    (hbelow : ∀ a, same a → below a = image a) :
    (r.2 = none → r.1 = c) ∧ ∀ req, r.2 = some req → req.isWrite = false ∧
      FetchOk r.1 same image asked (req.answer below ::ₘ refills) := by
  cases hi with
  | nothing => exact ⟨fun _ => rfl, nofun⟩
  -- a cache that is never written has nothing to write back
  | writeback _ hw =>
      rw [h.noWriteback] at hw
      cases hw
  | @refill i _ hv hs =>
      refine ⟨nofun, ?_⟩
      rintro _ ⟨rfl⟩
      obtain ⟨done, hasked, hrel⟩ := h.ledger
      have h8 := eight_le hc.arrays.geometry
      let c' : Cache τ := { c with mshrs := c.mshrs.modify i fun m => { m with refillSent := true } }
      have hmsh := mshrAt_modify
        (show c'.mshrs = c.mshrs.modify i fun m => { m with refillSent := true } from rfl) (valid_lt hv)
      -- sending a refill changes neither its line nor who waits for it
      have haddr : ∀ j, (c'.mshrAt j).lineAddr = (c.mshrAt j).lineAddr ∧
          (c'.mshrAt j).waiting = (c.mshrAt j).waiting := by
        intro j
        rw [hmsh]
        split
        · rename_i hj
          rw [hj]
          exact ⟨rfl, rfl⟩
        · exact ⟨rfl, rfl⟩
      -- the answer is the line as the level below has it now
      have hans : (c.refillReq i).answer below =
          { src := c.srcId, tag := .refill i
            rline := fun b => if b < c.cfg.lineBytes then below ((c.mshrAt i).lineAddr + b) else 0 } := by
        unfold MemRequest.answer refillReq
        dsimp only
        rw [if_neg Bool.false_ne_true, if_pos (by omega)]
      have hbag := bag_modify (fun m : Mshr τ => { m with refillSent := true })
        (fun m => (↑(m.waiting.map (·.req)) : Multiset (MemRequest τ))) (mshrAt_of_lt (valid_lt hv))
      refine ⟨rfl, h.noWriteback, h.clean, fun j w hw => h.reads j w ?_, h.lines, fun r hr j hj => ?_,
        fun p hp => ?_, done, ?_, hrel⟩
      · rw [← (haddr j).2]
        exact hw
      · show AgreesOn c same image r.rline (c'.mshrAt j).lineAddr
        rw [(haddr j).1]
        rcases Multiset.mem_cons.mp hr with rfl | hr
        · rw [hans] at hj ⊢
          cases hj
          intro b hb hsb
          dsimp only
          rw [if_pos hb]
          exact hbelow _ hsb
        · exact h.coming r hr j hj
      · show AgreesOn c same image p.line (c'.mshrAt p.mshrIdx).lineAddr
        rw [(haddr p.mshrIdx).1]
        exact h.deferred p hp
      · rw [hasked, waitingReqs, waitingReqs]
        dsimp only
        rw [add_right_cancel hbag]

end Laws

end Cache

end RvO3
