import RvO3.Memory.Arrays
import RvO3.Lib.Tally

/-!
# What each cache operation moves

Accepting a request, installing a refill and the clock edge, each with what it does to the
arrays, the writeback queue, the MSHRs and the responses that wait to be popped. These are
the facts about the operations that the invariants below use; nothing after this module
unfolds one of them.
-/

set_option autoImplicit false

namespace RvO3

namespace Cache

variable {τ : Type} {c c' c₁ c₂ : Cache τ} {req : MemRequest τ} {la : Nat} {line : Line}

/-- The MSHR at an index; past the end, an invalid one. -/
def mshrAt (c : Cache τ) (i : Nat) : Mshr τ := c.mshrs[i]?.getD {}

/-- The responses that were produced and not popped. -/
def answered (c : Cache τ) : Multiset (MemResponse τ) := ↑(c.respQ ++ c.hitPipe.map (·.resp))

/-! ## A line enters the arrays -/

/-- The line `la` enters the arrays, and `victim` leaves them. -/
structure LineEnters (c c' : Cache τ) (la : Nat) (line : Line) (isDirty : Bool)
    (victim : Option Nat) (out : List WbEntry) : Prop where
  arrays : c'.ArraysOk
  cfg : c'.cfg = c.cfg
  fresh : c.slotOf la = none
  isLine : c.IsLine la
  evicts : c.Evicts victim out
  lineAt : ∀ a, a < 2 ^ 32 → c'.lineAt a =
    if c.lineBase a = la then some line
    else if victim = some (c.lineBase a) then none else c.lineAt a
  dirtyAt : ∀ a, a < 2 ^ 32 → c'.dirtyAt a =
    if c.lineBase a = la then isDirty
    else if victim = some (c.lineBase a) then false else c.dirtyAt a

theorem lineBase_congr (h : c'.cfg = c.cfg) (a : Nat) : c'.lineBase a = c.lineBase a := by
  rw [lineBase, lineBase, offsetOf, offsetOf, h]

theorem Installed.enters {src : Line} {isDirty : Bool} {victim : Option Nat} {out : List WbEntry}
    (h : Installed c c' la src isDirty victim out) (hl : c.IsLine la) (hnone : c.slotOf la = none) :
    LineEnters c c' la src isDirty victim out := by
  obtain ⟨_, _, _, hf⟩ := h.frame
  exact ⟨h.arrays, by rw [hf], hnone, hl, h.evicts, h.lineAt, h.dirtyAt⟩

section Enters

variable {isDirty : Bool} {victim : Option Nat} {out : List WbEntry}

/-- A request is performed on the line that entered. -/
theorem LineEnters.perform (h : LineEnters c c₁ la line isDirty victim out)
    (hp : Performed c₁ c₂ req line) (hreq : c.lineBase req.addr = la) :
    LineEnters c c₂ la (if req.isWrite then c.writeOnLine req line else line)
      (isDirty || req.isWrite) victim out := by
  obtain ⟨_, _, _, _, hf⟩ := hp.frame
  have hcfg : c₂.cfg = c₁.cfg := by rw [hf]
  have hw : c₁.writeOnLine req line = c.writeOnLine req line := by
    unfold writeOnLine offsetOf
    rw [h.cfg]
  refine ⟨hp.arrays, hcfg.trans h.cfg, h.fresh, h.isLine, h.evicts, fun a ha => ?_, fun a ha => ?_⟩
  · rw [hp.lineAt a ha, h.lineAt a ha, lineBase_congr h.cfg, lineBase_congr h.cfg, hreq, hw]
    by_cases hb : c.lineBase a = la
    · cases hwr : req.isWrite <;> simp [hb]
    · simp [hb]
  · rw [hp.dirtyAt a ha, h.dirtyAt a ha, lineBase_congr h.cfg, lineBase_congr h.cfg, hreq]
    by_cases hb : c.lineBase a = la
    · cases hwr : req.isWrite <;> simp [hb]
    · simp [hb]

/-- The requests that waited for the line are replayed on it. -/
theorem LineEnters.replay {ws : List (Waiting τ)} (h : LineEnters c c₁ la line isDirty victim out)
    (hr : Replayed c₁ c₂ la line ws) :
    LineEnters c c₂ la (c₁.replayed line ws) (isDirty || ws.any (·.req.isWrite)) victim out := by
  obtain ⟨_, _, _, _, _, hf⟩ := hr.frame
  have hcfg : c₂.cfg = c₁.cfg := by rw [hf]
  refine ⟨hr.arrays, hcfg.trans h.cfg, h.fresh, h.isLine, h.evicts, fun a ha => ?_, fun a ha => ?_⟩
  · rw [hr.lineAt a ha, h.lineAt a ha, lineBase_congr h.cfg]
    split <;> rfl
  · rw [hr.dirtyAt a ha, h.dirtyAt a ha, lineBase_congr h.cfg, h.dirtyAt la h.isLine.2, h.isLine.1]
    simp only [if_true]
    split <;> rfl

/-- What lies outside the arrays may change afterwards. -/
theorem LineEnters.same (h : LineEnters c c₁ la line isDirty victim out) (hs : SameTags c₁ c₂)
    (hd : c₂.data = c₁.data) (hdy : c₂.dirty = c₁.dirty) :
    LineEnters c c₂ la line isDirty victim out := by
  refine ⟨h.arrays.of_tags hs, hs.cfg.trans h.cfg, h.fresh, h.isLine, h.evicts, fun a ha => ?_,
    fun a ha => ?_⟩
  · rw [← h.lineAt a ha, hs.lineAt a hd]
  · rw [← h.dirtyAt a ha, hs.dirtyAt a hdy]

end Enters

/-! ## Accepting a request -/

/-- What stays of a cache when only arrays, LRU state and answers change. -/
structure SameMisses (c c' : Cache τ) : Prop where
  cfg : c'.cfg = c.cfg
  srcId : c'.srcId = c.srcId
  mshrs : c'.mshrs = c.mshrs
  pendingMisses : c'.pendingMisses = c.pendingMisses
  pendingInstalls : c'.pendingInstalls = c.pendingInstalls

theorem reserveHit_answered (c : Cache τ) (r : MemResponse τ) :
    (c.reserveHit r).answered = r ::ₘ c.answered := by
  unfold reserveHit answered
  split
  · rw [Multiset.cons_coe, Multiset.coe_eq_coe]
    simp only [List.append_assoc, List.singleton_append]
    exact List.perm_middle
  · rw [Multiset.cons_coe, Multiset.coe_eq_coe]
    simp only [List.map_append, List.map_cons, List.map_nil, ← List.append_assoc]
    exact List.perm_append_singleton _ _

theorem reserveHit_frame (c : Cache τ) (r : MemResponse τ) :
    ∃ respQ hitPipe, c.reserveHit r = { c with respQ := respQ, hitPipe := hitPipe } := by
  unfold reserveHit
  split <;> exact ⟨_, _, rfl⟩

/-- What accepting a request does. -/
inductive Accepts (c : Cache τ) (req : MemRequest τ) (c' : Cache τ) : Prop
  /-- The line is in the arrays. -/
  | hit {line : Line} {c₁ : Cache τ} : c.lineAt req.addr = some line → Performed c c₁ req line →
      SameTags c₁ c' → c'.data = c₁.data → c'.dirty = c₁.dirty → SameMisses c c' →
      c'.wbq = c.wbq → c'.answered = c.respond req line ::ₘ c.answered → Accepts c req c'
  /-- The line waits to be written back: it returns to the arrays. -/
  | restore {e : WbEntry} {i : Nat} {victim : Option Nat} {out : List WbEntry} : c.wbq[i]? = some e →
      e.addr = c.lineBase req.addr →
      LineEnters c c' e.addr (if req.isWrite then c.writeOnLine req e.line else e.line) true
        victim out → SameMisses c c' → c'.wbq = c.wbq.eraseIdx i ++ out →
      c'.answered = c.respond req e.line ::ₘ c.answered → Accepts c req c'
  /-- The line is being fetched: the request waits for it. -/
  | merge {i : Nat} : c.slotOf req.addr = none → (∀ e ∈ c.wbq, e.addr ≠ c.lineBase req.addr) →
      (c.mshrAt i).valid = true → (c.mshrAt i).lineAddr = c.lineBase req.addr →
      c' = { c with mshrs := c.mshrs.modify i fun m =>
        { m with waiting := m.waiting ++ [⟨req, c.tickCount⟩] } } → Accepts c req c'
  /-- A full-line write needs no refill. -/
  | write {victim : Option Nat} {out : List WbEntry} : req.isWrite = true →
      req.size = c.cfg.lineBytes → (∀ e ∈ c.wbq, e.addr ≠ c.lineBase req.addr) →
      (∀ i, (c.mshrAt i).valid = true → (c.mshrAt i).lineAddr ≠ c.lineBase req.addr) →
      LineEnters c c' (c.lineBase req.addr) req.wline true victim out → SameMisses c c' →
      c'.wbq = c.wbq ++ out → c'.answered = { src := req.src, tag := req.tag } ::ₘ c.answered →
      Accepts c req c'
  /-- A new miss. -/
  | miss {i : Nat} : c.slotOf req.addr = none → (∀ e ∈ c.wbq, e.addr ≠ c.lineBase req.addr) →
      (∀ i, (c.mshrAt i).valid = true → (c.mshrAt i).lineAddr ≠ c.lineBase req.addr) →
      ¬ (req.isWrite = true ∧ req.size = c.cfg.lineBytes) → i < c.mshrs.length →
      (c.mshrAt i).valid = false →
      c' = { c with
        pendingMisses := c.pendingMisses + 1
        mshrs := c.mshrs.set i
          { valid := true, lineAddr := c.lineBase req.addr, refillSent := false
            waiting := [⟨req, c.tickCount⟩] } } → Accepts c req c'

theorem mshrAt_of_lt {i : Nat} (h : i < c.mshrs.length) : c.mshrs[i]? = some (c.mshrAt i) := by
  rw [mshrAt, List.getElem?_eq_getElem h]
  rfl

theorem valid_lt {i : Nat} (h : (c.mshrAt i).valid = true) : i < c.mshrs.length := by
  rw [← Nat.not_le]
  intro hle
  rw [mshrAt, List.getElem?_eq_none hle] at h
  cases h

theorem mshrFor_some {i : Nat} (h : c.mshrFor la = some i) :
    (c.mshrAt i).valid = true ∧ (c.mshrAt i).lineAddr = la := by
  obtain ⟨hlt, hp, -⟩ := List.findIdx?_eq_some_iff_getElem.mp h
  rw [mshrAt, List.getElem?_eq_getElem hlt, Option.getD_some]
  simpa using hp

theorem mshrFor_none (h : c.mshrFor la = none) :
    ∀ i, (c.mshrAt i).valid = true → (c.mshrAt i).lineAddr ≠ la := by
  intro i hv he
  have hmem : c.mshrAt i ∈ c.mshrs := List.mem_of_getElem? (mshrAt_of_lt (valid_lt hv))
  have := List.findIdx?_eq_none_iff.mp h _ hmem
  rw [hv, he] at this
  simp at this

theorem freeMshr_some {i : Nat} (h : c.freeMshr = some i) :
    i < c.mshrs.length ∧ (c.mshrAt i).valid = false := by
  obtain ⟨hlt, hp, -⟩ := List.findIdx?_eq_some_iff_getElem.mp h
  rw [mshrAt, List.getElem?_eq_getElem hlt, Option.getD_some]
  exact ⟨hlt, by simpa using hp⟩

theorem freeMshr_none (h : c.freeMshr = none) : ∀ m ∈ c.mshrs, m.valid = true := by
  intro m hm
  have := List.findIdx?_eq_none_iff.mp h m hm
  simpa using this

theorem installOk_of_room (h : c.wbq.length < c.cfg.wbq) (la : Nat) : c.installOk la = true := by
  unfold installOk
  dsimp only
  rw [decide_eq_false (by omega), Bool.and_false]
  rfl

/-- Serving a request from a line in the arrays. -/
theorem ArraysOk.serveHit (h : c.ArraysOk) {way : Nat} (hreq : req.addr < 2 ^ 32)
    (hs : c.slotOf req.addr = some (c.lineIdx (c.setOf req.addr) way))
    (hl : c.lineAt req.addr = some line) :
    ∃ c₁, Performed c c₁ req line ∧ SameTags c₁ (c.serveHit req (c.setOf req.addr) way) ∧
      (c.serveHit req (c.setOf req.addr) way).data = c₁.data ∧
      (c.serveHit req (c.setOf req.addr) way).dirty = c₁.dirty ∧
      SameMisses c (c.serveHit req (c.setOf req.addr) way) ∧
      (c.serveHit req (c.setOf req.addr) way).wbq = c.wbq ∧
      (c.serveHit req (c.setOf req.addr) way).answered = c.respond req line ::ₘ c.answered := by
  obtain ⟨hp, hr⟩ := h.performed hreq hs hl
  refine ⟨_, hp, ?_⟩
  unfold Cache.serveHit
  rw [hr]
  have hans := reserveHit_answered (c.performOnLine req (c.setOf req.addr) way).1 (c.respond req line)
  obtain ⟨respQ, hitPipe, hf⟩ := reserveHit_frame (c.performOnLine req (c.setOf req.addr) way).1
    (c.respond req line)
  obtain ⟨data, dirty, lru, lruTick, hf₁⟩ := hp.frame
  refine ⟨by rw [hf]; exact ⟨rfl, rfl, rfl, rfl, rfl⟩, by rw [hf], by rw [hf], ?_, ?_, ?_⟩
  · rw [hf, hf₁]
    exact ⟨rfl, rfl, rfl, rfl, rfl⟩
  · rw [hf, hf₁]
  · rw [hans, hf₁]
    rfl

/-- The line of entry `i` of the writeback queue goes back to the arrays and is served. -/
theorem ArraysOk.restores (h : c.ArraysOk) (hroom : c.wbq.length < c.cfg.wbq) {i : Nat} {e : WbEntry}
    (hi : c.wbq[i]? = some e) (hline : c.IsLine e.addr) (hnone : c.slotOf e.addr = none)
    (hreq : req.addr < 2 ^ 32) (hbase : c.lineBase req.addr = e.addr) :
    ∃ victim out, LineEnters c (c.restore req e.addr i) e.addr
        (if req.isWrite then c.writeOnLine req e.line else e.line) true victim out ∧
      SameMisses c (c.restore req e.addr i) ∧
      (c.restore req e.addr i).wbq = c.wbq.eraseIdx i ++ out ∧
      (c.restore req e.addr i).answered = c.respond req e.line ::ₘ c.answered := by
  obtain ⟨victim, out, hin⟩ := h.installed e.line true hline hnone
    (installOk_of_room hroom e.addr)
  have hent := hin.enters hline hnone
  obtain ⟨data, tags, dirty, hf⟩ := hin.frame
  generalize hc₁ : c.installLine e.addr e.line true = c₁ at hin hent hf
  -- the cache in which the request is served
  let c₂ : Cache τ := { c₁ with wbq := c₁.wbq.eraseIdx i }
  have hrestore : c.restore req e.addr i =
      c₂.serveHit req (c.setOf e.addr) (c.victimWay (c.setOf e.addr)) := by
    unfold restore
    dsimp only
    rw [hi]
    dsimp only
    rw [hc₁]
  have hent₂ : LineEnters c c₂ e.addr e.line true victim out :=
    hent.same ⟨rfl, rfl, rfl, rfl, rfl⟩ rfl rfl
  have hcfg₂ : c₂.cfg = c.cfg := hent₂.cfg
  have hset₂ : ∀ a, c₂.setOf a = c.setOf a := by
    intro a
    show c₁.setOf a = c.setOf a
    rw [hf]
    rfl
  have hset : c₂.setOf req.addr = c.setOf e.addr := by
    rw [hset₂, ← hbase, setOf_lineBase h.geometry]
  have hbase₂ : c₂.lineBase req.addr = e.addr := by rw [lineBase_congr hcfg₂, hbase]
  have hslot : c₂.slotOf req.addr =
      some (c₂.lineIdx (c₂.setOf req.addr) (c.victimWay (c.setOf e.addr))) := by
    rw [← slotOf_lineBase hent₂.arrays hreq, hbase₂, hset]
    have hsl : c₂.slotOf e.addr = c₁.slotOf e.addr := rfl
    rw [hsl, hin.slot]
    have hs1 : c₁.setOf e.addr = c.setOf e.addr := by rw [hf]; rfl
    rw [hs1]
    rfl
  have hline₂ : c₂.lineAt req.addr = some e.line := by
    rw [hent₂.lineAt _ hreq, if_pos hbase]
  obtain ⟨c₃, hp, hsame, hd, hdy, hmiss, hwb, hans⟩ :=
    hent₂.arrays.serveHit hreq hslot hline₂
  rw [hset] at hsame hd hdy hmiss hwb hans
  rw [hrestore]
  have hfinal := ((hent₂.perform hp hbase).same hsame hd hdy)
  rw [Bool.true_or] at hfinal
  have hi' : i < c.wbq.length := by
    rw [← Nat.not_le]
    intro hle
    rw [List.getElem?_eq_none hle] at hi
    cases hi
  refine ⟨victim, out, hfinal, ?_, ?_, ?_⟩
  · have h₁ : SameMisses c c₂ := by
      show SameMisses c { c₁ with wbq := c₁.wbq.eraseIdx i }
      rw [hf]
      exact ⟨rfl, rfl, rfl, rfl, rfl⟩
    exact ⟨hmiss.cfg.trans h₁.cfg, hmiss.srcId.trans h₁.srcId, hmiss.mshrs.trans h₁.mshrs,
      hmiss.pendingMisses.trans h₁.pendingMisses, hmiss.pendingInstalls.trans h₁.pendingInstalls⟩
  · rw [hwb]
    show c₁.wbq.eraseIdx i = _
    rw [hf]
    exact List.eraseIdx_append_of_lt_length hi' out
  · have hresp : c₂.respond req e.line = c.respond req e.line := by
      unfold respond offsetOf
      rw [hcfg₂]
    have ha : c₂.answered = c.answered := by
      show ({ c₁ with wbq := c₁.wbq.eraseIdx i } : Cache τ).answered = c.answered
      rw [hf]
      rfl
    rw [hans, hresp, ha]

/-- A full-line write that misses. -/
theorem ArraysOk.writes (h : c.ArraysOk) (req : MemRequest τ) (hroom : c.wbq.length < c.cfg.wbq) (hline : c.IsLine la)
    (hnone : c.slotOf la = none) :
    ∃ victim out, LineEnters c (c.installWrite req la) la req.wline true victim out ∧
      SameMisses c (c.installWrite req la) ∧ (c.installWrite req la).wbq = c.wbq ++ out ∧
      (c.installWrite req la).answered = { src := req.src, tag := req.tag } ::ₘ c.answered := by
  obtain ⟨victim, out, hin⟩ := h.installed req.wline true hline hnone
    (installOk_of_room hroom la)
  have hent := hin.enters hline hnone
  obtain ⟨data, tags, dirty, hf⟩ := hin.frame
  refine ⟨victim, out, ?_⟩
  unfold installWrite
  dsimp only
  generalize c.installLine la req.wline true = c₁ at hin hent hf ⊢
  have hans := reserveHit_answered (c₁.touchLRU (c.setOf la) (c.victimWay (c.setOf la)))
    { src := req.src, tag := req.tag }
  obtain ⟨respQ, hitPipe, hf₂⟩ := reserveHit_frame (c₁.touchLRU (c.setOf la) (c.victimWay (c.setOf la)))
    { src := req.src, tag := req.tag }
  refine ⟨hent.same ?_ ?_ ?_, ?_, ?_, ?_⟩
  · rw [hf₂]
    exact ⟨rfl, rfl, rfl, rfl, rfl⟩
  · rw [hf₂]
    rfl
  · rw [hf₂]
    rfl
  · rw [hf₂, hf]
    exact ⟨rfl, rfl, rfl, rfl, rfl⟩
  · rw [hf₂, hf]
    rfl
  · rw [hans, hf]
    rfl

/-- What the arrays and the writeback queue hold is apart, and there is room. -/
theorem ArraysOk.accepts (h : c.ArraysOk) (hroom : c.wbq.length < c.cfg.wbq)
    (hfree : c.freeMshr ≠ none) (hwb : ∀ e ∈ c.wbq, c.IsLine e.addr ∧ c.slotOf e.addr = none)
    (hreq : req.addr < 2 ^ 32) : Accepts c req (c.access req) := by
  unfold access
  dsimp only
  split
  · -- a hit
    rename_i way hway
    have hs : c.slotOf req.addr = some (c.lineIdx (c.setOf req.addr) way) := by
      rw [slotOf, if_pos hreq, hway]
      rfl
    obtain ⟨c₁, hp, h1, h2, h3, h4, h5, h6⟩ := h.serveHit hreq hs (lineAt_eq hs)
    exact .hit (lineAt_eq hs) hp h1 h2 h3 h4 h5 h6
  · rename_i hway
    -- a miss: the queue first, which may still hold the line
    have hnone : c.slotOf req.addr = none := (slotOf_eq_none hreq).mpr hway
    have hnone' : c.slotOf (c.lineBase req.addr) = none := by
      rw [slotOf_lineBase h hreq, hnone]
    split
    · rename_i i hi
      obtain ⟨hlt, hp, -⟩ := List.findIdx?_eq_some_iff_getElem.mp hi
      have haddr : (c.wbq[i]).addr = c.lineBase req.addr := by simpa using hp
      have hget : c.wbq[i]? = some c.wbq[i] := List.getElem?_eq_getElem hlt
      obtain ⟨hline, habs⟩ := hwb _ (List.getElem_mem hlt)
      obtain ⟨victim, out, h1, h2, h3, h4⟩ := h.restores hroom hget hline habs hreq haddr.symm
      rw [← haddr]
      exact .restore hget haddr h1 h2 h3 h4
    · rename_i hi
      have hout : ∀ e ∈ c.wbq, e.addr ≠ c.lineBase req.addr := by
        intro e he
        have := List.findIdx?_eq_none_iff.mp hi e he
        simpa using this
      split
      · rename_i i hm
        obtain ⟨hv, hla⟩ := mshrFor_some hm
        exact .merge hnone hout hv hla rfl
      · rename_i hm
        -- nobody has the line: a whole line to write needs no refill
        have hno := mshrFor_none hm
        split
        · rename_i hw
          obtain ⟨victim, out, h1, h2, h3, h4⟩ := h.writes req hroom
            (isLine_lineBase h.geometry hreq) hnone'
          exact .write hw.1 hw.2 hout hno h1 h2 h3 h4
        · rename_i hw
          split
          · rename_i i hf
            obtain ⟨hlt, hinv⟩ := freeMshr_some hf
            exact .miss hnone hout hno hw hlt hinv rfl
          · rename_i hf
            -- there is room for the miss, since the cache accepts requests
            exact absurd hf hfree

/-! ## A refill comes back -/

/-- What installing the refill of MSHR `i` does. -/
structure Fills (c c' : Cache τ) (i : Nat) (line : Line) (victim : Option Nat)
    (out : List WbEntry) : Prop where
  enters : LineEnters c c' (c.mshrAt i).lineAddr (c.replayed line (c.mshrAt i).waiting)
    ((c.mshrAt i).waiting.any (·.req.isWrite)) victim out
  srcId : c'.srcId = c.srcId
  wbq : c'.wbq = c.wbq ++ out
  respQ : c'.respQ = c.respQ ++ c.replies line (c.mshrAt i).waiting
  hitPipe : c'.hitPipe = c.hitPipe
  mshrs : c'.mshrs = c.mshrs.set i {}
  pendingMisses : c'.pendingMisses = c.pendingMisses - 1
  pendingInstalls : c'.pendingInstalls = c.pendingInstalls

theorem ArraysOk.fills (h : c.ArraysOk) {i : Nat} (hline : c.IsLine (c.mshrAt i).lineAddr)
    (hnone : c.slotOf (c.mshrAt i).lineAddr = none)
    (hws : ∀ w ∈ (c.mshrAt i).waiting, w.req.addr < 2 ^ 32 ∧
      c.lineBase w.req.addr = (c.mshrAt i).lineAddr)
    (h' : c.tryInstall i line = some c') : ∃ victim out, Fills c c' i line victim out := by
  unfold tryInstall at h'
  dsimp only at h'
  split at h'
  · rename_i hok
    obtain ⟨victim, out, hin⟩ := h.installed line false hline hnone hok
    have hent := hin.enters hline hnone
    obtain ⟨data, tags, dirty, hf⟩ := hin.frame
    have hc' := (Option.some.inj h').symm
    have hm : c.mshrs[i]?.getD {} = c.mshrAt i := rfl
    rw [hm] at hc'
    generalize c.installLine (c.mshrAt i).lineAddr line false = c₁ at hin hent hf hc'
    have hset : c₁.setOf (c.mshrAt i).lineAddr = c.setOf (c.mshrAt i).lineAddr := by rw [hf]; rfl
    -- the requests that waited are replayed on the line just installed
    have hslot : c₁.slotOf (c.mshrAt i).lineAddr = some (c₁.lineIdx
        (c₁.setOf (c.mshrAt i).lineAddr) (c.victimWay (c.setOf (c.mshrAt i).lineAddr))) := hin.slot
    have hl₁ : c₁.lineAt (c.mshrAt i).lineAddr = some line := by
      rw [hent.lineAt _ hline.2, if_pos hline.1]
    have hline₁ : c₁.IsLine (c.mshrAt i).lineAddr := by
      rw [IsLine, lineBase_congr hent.cfg]
      exact hline
    have hrep := hent.arrays.replay (c.mshrAt i).waiting hline₁ hslot hl₁ fun w hw => by
      rw [lineBase_congr hent.cfg]
      exact hws w hw
    rw [hset] at hrep
    have hfin := hent.replay hrep
    -- replaying depends on the line and the requests, not on the rest of the cache
    have hpure := replayed_congr hent.cfg (c.mshrAt i).waiting line
    have hresp := hrep.respQ
    rw [Bool.false_or, hpure.1] at hfin
    rw [hpure.2] at hresp
    obtain ⟨d', dy', l', lt', rq', hf₂⟩ := hrep.frame
    generalize (c.mshrAt i).waiting.foldl (replayOne (c.setOf (c.mshrAt i).lineAddr)
      (c.victimWay (c.setOf (c.mshrAt i).lineAddr))) c₁ = c₂ at hfin hresp hf₂ hc'
    subst hc'
    refine ⟨victim, out, ⟨hfin.same ⟨rfl, rfl, rfl, rfl, rfl⟩ rfl rfl, ?_, ?_, ?_, ?_, ?_, ?_, ?_⟩⟩
    · rw [hf₂, hf]
    · rw [hf₂, hf]
    · show c₂.respQ = _
      rw [hresp, hf]
    · rw [hf₂, hf]
    · rw [hf₂, hf]
    · rw [hf₂, hf]
    · rw [hf₂, hf]
  · cases h'

/-! ## A completion from below -/

/-- What a completion from the level below does. -/
inductive Delivers (c : Cache τ) (r : MemResponse LineTag) (c' : Cache τ) : Prop
  /-- A writeback's ack. -/
  | ack : r.tag = .wb → c' = c → Delivers c r c'
  /-- A refill is installed. -/
  | fill {i : Nat} : r.tag = .refill i → c.tryInstall i r.rline = some c' → Delivers c r c'
  /-- A refill waits for room in the writeback queue. -/
  | wait {i : Nat} : r.tag = .refill i →
      c' = { c with pendingInstalls := c.pendingInstalls ++ [⟨i, r.rline⟩] } → Delivers c r c'

theorem delivers (c : Cache τ) (r : MemResponse LineTag) : Delivers c r (c.deliverBelowResponse r) := by
  unfold deliverBelowResponse
  split
  · rename_i ht
    exact .ack ht rfl
  · rename_i i ht
    split
    · rename_i c' h
      exact .fill ht h
    · exact .wait ht rfl

/-! ## The clock edge -/

/-- One deferred install is done. -/
def Retries (c c' : Cache τ) : Prop :=
  ∃ p ps c₁, c.pendingInstalls = p :: ps ∧ c.tryInstall p.mshrIdx p.line = some c₁ ∧
    c' = { c₁ with pendingInstalls := ps }

/-- What each deferred install keeps, the loop keeps. -/
theorem retryInstalls_preserve {I : Cache τ → Prop} (hI : ∀ {c c' : Cache τ}, Retries c c' → I c → I c')
    (n : Nat) : ∀ {c : Cache τ}, I c → I (retryInstalls n c) := by
  induction n with
  | zero => exact fun h => h
  | succ n ih =>
      intro c h
      unfold retryInstalls
      split
      · exact h
      · rename_i p ps hp
        split
        · rename_i c' hc
          exact ih (hI ⟨p, ps, c', hp, hc, rfl⟩ h)
        · exact h

/-- The writeback of a queue entry, and the refill of an MSHR, as requests to the level
below. -/
def writebackReq (c : Cache τ) (e : WbEntry) : MemRequest LineTag :=
  { addr := e.addr, size := c.cfg.lineBytes, isWrite := true, wline := e.line, src := c.srcId, tag := .wb }

/-- The refill that the MSHR sends. -/
def refillReq (c : Cache τ) (i : Nat) : MemRequest LineTag :=
  { addr := (c.mshrAt i).lineAddr, size := c.cfg.lineBytes, src := c.srcId, tag := .refill i }

/-- What a cache does with the port below in a cycle. -/
inductive Issues (c : Cache τ) (below : Bool) : Cache τ × Option (MemRequest LineTag) → Prop
  | nothing : Issues c below (c, none)
  | writeback {e : WbEntry} {rest : List WbEntry} : below = true → c.wbq = e :: rest →
      Issues c below ({ c with wbq := rest }, some (c.writebackReq e))
  | refill {i : Nat} : below = true → (c.mshrAt i).valid = true → (c.mshrAt i).refillSent = false →
      Issues c below ({ c with mshrs := c.mshrs.modify i fun m => { m with refillSent := true } },
        some (c.refillReq i))

theorem unsentMshr_some {i : Nat} (h : c.unsentMshr = some i) :
    (c.mshrAt i).valid = true ∧ (c.mshrAt i).refillSent = false := by
  obtain ⟨hlt, hp, -⟩ := List.findIdx?_eq_some_iff_getElem.mp h
  rw [mshrAt, List.getElem?_eq_getElem hlt, Option.getD_some]
  simpa using hp

theorem issues (c : Cache τ) (below : Bool) : Issues c below (c.issueBelow below) := by
  unfold issueBelow
  split
  · rename_i hc
    dsimp only
    split
    · rename_i e rest _ hw _
      exact .writeback hc.2 hw
    · rename_i e rest i hw hu
      obtain ⟨h1, h2⟩ := unsentMshr_some hu
      split
      · exact .writeback hc.2 hw
      · exact .refill hc.2 h1 h2
    · rename_i i _ hu
      obtain ⟨h1, h2⟩ := unsentMshr_some hu
      exact .refill hc.2 h1 h2
    · exact .nothing
  · exact .nothing

theorem drainHits_answered (c : Cache τ) : c.drainHits.answered = c.answered := by
  unfold drainHits answered
  rw [Multiset.coe_eq_coe]
  dsimp only
  rw [List.append_assoc, ← List.map_append, List.takeWhile_append_dropWhile]

theorem popResponse_answered {r : MemResponse τ} (h : c.respQ.head? = some r) :
    c.answered = r ::ₘ c.popResponse.answered := by
  obtain ⟨rest, hr⟩ := List.head?_eq_some_iff.mp h
  unfold popResponse answered
  rw [hr]
  rfl

end Cache

end RvO3
