import RvO3.Memory.Residency

/-!
# A cache over a flat memory is a flat memory

`below` are the bytes of the level below. The newest byte at an address is the one in the
arrays, in the writeback queue, or after the writes that wait for the line, else the one
below (`view`). Accepting a request changes the view as the request changes a flat memory,
and adds the answer a flat memory would give to what the cache owes (`owed`); nothing else
changes either of them. So the answers are fixed when a request is accepted, whatever the
order in which lines move.
-/

set_option autoImplicit false

namespace RvO3

variable {τ : Type}

/-! ## Flat memory -/

/-- The response of a flat memory. -/
def MemRequest.answer (req : MemRequest τ) (mem : Nat → Byte) : MemResponse τ :=
  if req.isWrite then { src := req.src, tag := req.tag }
  else if req.size > 4 then
    { src := req.src, tag := req.tag
      rline := fun b => if b < req.size then mem (req.addr + b) else 0 }
  else { src := req.src, tag := req.tag, rdata := scalarOf req.size fun b => mem (req.addr + b) }

/-- An answer depends on the bytes of the request only. -/
theorem MemRequest.answer_congr {req : MemRequest τ} {mem mem' : Nat → Byte}
    (h : ∀ b, b < req.size → mem (req.addr + b) = mem' (req.addr + b)) :
    req.answer mem = req.answer mem' := by
  unfold answer
  split
  · rfl
  · split
    · congr 1
      funext b
      split
      · rename_i hb
        exact h b hb
      · rfl
    · rw [scalarOf_congr h]

@[simp] theorem MemRequest.answer_tag (req : MemRequest τ) (mem : Nat → Byte) :
    (req.answer mem).tag = req.tag := by
  unfold answer
  split
  · rfl
  · split <;> rfl

@[simp] theorem MemRequest.answer_src (req : MemRequest τ) (mem : Nat → Byte) :
    (req.answer mem).src = req.src := by
  unfold answer
  split
  · rfl
  · split <;> rfl

/-- A request changes the bytes it covers, by its own data. -/
theorem MemRequest.apply_congr {req : MemRequest τ} {mem mem' : Nat → Byte} {a : Nat}
    (h : mem a = mem' a) : req.apply mem a = req.apply mem' a := by
  unfold apply
  split
  · rfl
  · exact h

/-- A flat memory after requests, in order. -/
def applyAll (ws : List (Waiting τ)) (mem : Nat → Byte) : Nat → Byte :=
  ws.foldl (fun mem w => w.req.apply mem) mem

/-- The answers to them. -/
def promised : (Nat → Byte) → List (Waiting τ) → List (MemResponse τ)
  | _, [] => []
  | mem, w :: ws => w.req.answer mem :: promised (w.req.apply mem) ws

@[simp] theorem applyAll_nil (mem : Nat → Byte) : applyAll ([] : List (Waiting τ)) mem = mem := rfl

@[simp] theorem applyAll_cons (w : Waiting τ) (ws : List (Waiting τ)) (mem : Nat → Byte) :
    applyAll (w :: ws) mem = applyAll ws (w.req.apply mem) := rfl

theorem applyAll_append (ws : List (Waiting τ)) (w : Waiting τ) (mem : Nat → Byte) :
    applyAll (ws ++ [w]) mem = w.req.apply (applyAll ws mem) := by
  simp [applyAll]

theorem applyAll_congr (ws : List (Waiting τ)) {a : Nat} : ∀ {mem mem' : Nat → Byte},
    mem a = mem' a → applyAll ws mem a = applyAll ws mem' a := by
  induction ws with
  | nil => exact fun h => h
  | cons w ws ih => exact fun h => ih (w.req.apply_congr h)

/-- Reads change nothing. -/
theorem applyAll_reads {ws : List (Waiting τ)} (h : ws.any (·.req.isWrite) = false) :
    ∀ mem, applyAll ws mem = mem := by
  induction ws with
  | nil => exact fun _ => rfl
  | cons w ws ih =>
      intro mem
      rw [List.any_cons, Bool.or_eq_false_iff] at h
      rw [applyAll_cons, ih h.2]
      funext a
      unfold MemRequest.apply
      rw [if_neg (by simp [h.1])]

theorem promised_append (ws : List (Waiting τ)) (w : Waiting τ) : ∀ mem,
    promised mem (ws ++ [w]) = promised mem ws ++ [w.req.answer (applyAll ws mem)] := by
  induction ws with
  | nil => exact fun _ => rfl
  | cons w' ws ih => exact fun mem => congrArg (_ :: ·) (ih _)

namespace Cache

variable {c c' : Cache τ} {req : MemRequest τ} {la : Nat} {line : Line} {below : Nat → Byte}
  {P : Nat → Prop}

/-! ## One line -/

/-- A line that holds the bytes of a flat memory. -/
def Agrees (c : Cache τ) (line : Line) (la : Nat) (mem : Nat → Byte) : Prop :=
  ∀ b, b < c.cfg.lineBytes → line b = mem (la + b)

theorem Fits.addr_eq (hg : c.Geometry) (hf : c.lineBase req.addr = la) (b : Nat) :
    req.addr + b = la + (c.offsetOf req.addr + b) := by
  have h := lineBase_add_offset hg req.addr
  omega

/-- A request served from a line that holds a flat memory's bytes is answered as by it. -/
theorem Agrees.respond (hg : c.Geometry) (h : c.Agrees line la below) (hf : c.Fits req)
    (hb : c.lineBase req.addr = la) : c.respond req line = req.answer below := by
  have hbyte : ∀ b, b < req.size → line (c.offsetOf req.addr + b) = below (req.addr + b) := by
    intro b hlt
    have hin := hf.inLine
    rw [h _ (by omega), Fits.addr_eq hg hb]
  unfold Cache.respond MemRequest.answer
  dsimp only
  split
  · rfl
  · split
    · congr 1
      funext b
      split
      · rename_i hlt
        exact hbyte b hlt
      · rfl
    · rw [scalarOf_congr hbyte]

/-- A write to the line is a write to the flat memory. -/
theorem Agrees.write (hg : c.Geometry) (h : c.Agrees line la below) (hf : c.Fits req)
    (hb : c.lineBase req.addr = la) :
    c.Agrees (if req.isWrite then c.writeOnLine req line else line) la (req.apply below) := by
  intro b hlt
  have haddr : req.addr + 0 = _ := Fits.addr_eq hg hb 0
  have hin := hf.inLine
  have h8 := eight_le hg
  unfold MemRequest.apply MemRequest.covers
  cases hw : req.isWrite with
  | false =>
      simp only [Bool.false_eq_true, false_and, if_false]
      exact h b hlt
  | true =>
      simp only [if_true, true_and]
      unfold writeOnLine
      split
      · -- the whole line
        rename_i hs
        have hoff : c.offsetOf req.addr = 0 := by omega
        dsimp only
        rw [if_pos hlt, if_pos (by omega), MemRequest.writeByte, if_neg (by omega)]
        congr 1
        omega
      · -- a scalar inside it
        rename_i hs
        have h4 : req.size ≤ 4 := (hf.write hw).resolve_right hs
        dsimp only
        by_cases hc : c.offsetOf req.addr ≤ b ∧ b < c.offsetOf req.addr + req.size
        · rw [if_pos hc, if_pos (by omega), MemRequest.writeByte, if_pos h4]
          congr 1
          omega
        · rw [if_neg hc, if_neg (by omega)]
          exact h b hlt

/-- Replaying requests on a line that holds a flat memory's bytes. -/
theorem Agrees.replay (hg : c.Geometry) (ws : List (Waiting τ)) :
    ∀ {line : Line} {below : Nat → Byte}, c.Agrees line la below →
      (∀ w ∈ ws, c.Fits w.req ∧ c.lineBase w.req.addr = la) →
      c.Agrees (c.replayed line ws) la (applyAll ws below) ∧
        c.replies line ws = promised below ws := by
  induction ws with
  | nil => exact fun h _ => ⟨h, rfl⟩
  | cons w ws ih =>
      intro line below h hws
      obtain ⟨hf, hb⟩ := hws w List.mem_cons_self
      obtain ⟨h1, h2⟩ := ih (h.write hg hf hb) fun w' hw' => hws w' (List.mem_cons_of_mem _ hw')
      refine ⟨h1, ?_⟩
      rw [replies, promised, h.respond hg hf hb, h2]

/-- The answers to requests for a line depend on the bytes of that line. -/
theorem promised_congr (hg : c.Geometry) {below below' : Nat → Byte}
    {ws : List (Waiting τ)} (h : ∀ b, b < c.cfg.lineBytes → below (la + b) = below' (la + b))
    (hws : ∀ w ∈ ws, c.Fits w.req ∧ c.lineBase w.req.addr = la) :
    promised below ws = promised below' ws := by
  have h1 : c.replies (fun b => below (la + b)) ws = promised below ws :=
    (Agrees.replay hg ws (fun b _ => rfl) hws).2
  have h2 : c.replies (fun b => below (la + b)) ws = promised below' ws :=
    (Agrees.replay hg ws (fun b hb => h b hb) hws).2
  exact h1.symm.trans h2

/-! ## The newest byte -/

/-- Where the newest byte at an address is, and its value. -/
inductive Newest (c : Cache τ) (below : Nat → Byte) (a : Nat) : Byte → Prop
  | here {line : Line} : c.lineAt a = some line → Newest c below a (line (c.offsetOf a))
  | leaving {e : WbEntry} : e ∈ c.wbq → e.addr = c.lineBase a → Newest c below a (e.line (c.offsetOf a))
  | fetching {i : Nat} : (c.mshrAt i).valid = true → (c.mshrAt i).lineAddr = c.lineBase a →
      Newest c below a (applyAll (c.mshrAt i).waiting below a)
  | below : c.lineAt a = none → (∀ e ∈ c.wbq, e.addr ≠ c.lineBase a) →
      (∀ i, (c.mshrAt i).valid = true → (c.mshrAt i).lineAddr ≠ c.lineBase a) →
      Newest c below a (below a)

/-- The newest byte, as a function. -/
def view (c : Cache τ) (below : Nat → Byte) (a : Nat) : Byte :=
  if a < 2 ^ 32 then
    match c.lineAt a with
    | some line => line (c.offsetOf a)
    | none =>
      match c.wbq.find? fun e => e.addr == c.lineBase a with
      | some e => e.line (c.offsetOf a)
      | none =>
        match c.mshrFor (c.lineBase a) with
        | some i => applyAll (c.mshrAt i).waiting below a
        | none => below a
  else below a

theorem newest_view {a : Nat} (ha : a < 2 ^ 32) : Newest c below a (c.view below a) := by
  unfold view
  rw [if_pos ha]
  split
  · rename_i line hl
    exact .here hl
  · rename_i hl
    split
    · rename_i e he
      have hp := List.find?_some he
      exact .leaving (List.mem_of_find?_eq_some he) (by simpa using hp)
    · rename_i he
      have hout : ∀ e ∈ c.wbq, e.addr ≠ c.lineBase a := by
        intro e hm
        have := List.find?_eq_none.mp he e hm
        simpa using this
      split
      · rename_i i hi
        obtain ⟨hv, hla⟩ := mshrFor_some hi
        exact .fetching hv hla
      · rename_i hi
        exact .below hl hout (mshrFor_none hi)

/-- A line is in one place, so the newest byte is determined. -/
theorem Newest.unique (hc : CacheOk P c) {a : Nat} (ha : a < 2 ^ 32) {x y : Byte}
    (hx : Newest c below a x) (hy : Newest c below a y) : x = y := by
  have hbase := slotOf_lineBase hc.arrays ha
  -- no two tables hold the line
  have h1 : ∀ {line : Line} {e : WbEntry}, c.lineAt a = some line → e ∈ c.wbq →
      e.addr = c.lineBase a → False := by
    intro line e hl he hea
    have hn := (hc.leaving e he).2.2
    rw [hea, hbase, ← lineAt_eq_none, hl] at hn
    cases hn
  have h2 : ∀ {line : Line} {i : Nat}, c.lineAt a = some line → (c.mshrAt i).valid = true →
      (c.mshrAt i).lineAddr = c.lineBase a → False := by
    intro line i hl hv hla
    have hn := (hc.misses i hv).notHere
    rw [hla, hbase, ← lineAt_eq_none, hl] at hn
    cases hn
  have h3 : ∀ {e : WbEntry} {i : Nat}, e ∈ c.wbq → e.addr = c.lineBase a →
      (c.mshrAt i).valid = true → (c.mshrAt i).lineAddr = c.lineBase a → False :=
    fun he hea hv hla => (hc.misses _ hv).notLeaving _ he (hea.trans hla.symm)
  cases hx with
  | here hl =>
      cases hy with
      | here hl' =>
          rw [hl] at hl'
          cases hl'
          rfl
      | leaving he hea => exact (h1 hl he hea).elim
      | fetching hv hla => exact (h2 hl hv hla).elim
      | below hl' => rw [hl] at hl'; cases hl'
  | @leaving e he hea =>
      cases hy with
      | here hl => exact (h1 hl he hea).elim
      | @leaving e' he' hea' =>
          rw [List.inj_on_of_nodup_map hc.leavingOnce he he' (hea.trans hea'.symm)]
      | fetching hv hla => exact (h3 he hea hv hla).elim
      | below _ hout _ => exact absurd hea (hout _ he)
  | @fetching i hv hla =>
      cases hy with
      | here hl => exact (h2 hl hv hla).elim
      | leaving he hea => exact (h3 he hea hv hla).elim
      | @fetching j hv' hla' => rw [hc.missOnce i j hv hv' (hla.trans hla'.symm)]
      | below _ _ hno => exact absurd hla (hno _ hv)
  | below hl hout hno =>
      cases hy with
      | here hl' => rw [hl] at hl'; cases hl'
      | leaving he hea => exact absurd hea (hout _ he)
      | fetching hv hla => exact absurd hla (hno _ hv)
      | below _ _ _ => rfl

theorem Newest.view_eq (hc : CacheOk P c) {a : Nat} (ha : a < 2 ^ 32) {x : Byte}
    (h : Newest c below a x) : c.view below a = x := (newest_view ha).unique hc ha h

/-! ## What the cache owes and what it holds -/

/-- The answers to the requests accepted and not popped. -/
def owed (c : Cache τ) (below : Nat → Byte) : Multiset (MemResponse τ) :=
  c.answered + bag c.mshrs fun m => ↑(promised below m.waiting)

/-- A clean line, and a refill on its way, are copies of the level below. `refills` are the
answers that the level below owes. -/
structure DataOk (c : Cache τ) (below : Nat → Byte) (refills : Multiset (MemResponse LineTag)) :
    Prop where
  clean : ∀ a line, a < 2 ^ 32 → c.lineAt a = some line → c.dirtyAt a = false →
    line (c.offsetOf a) = below a
  coming : ∀ r ∈ refills, ∀ i, r.tag = .refill i → c.Agrees r.rline (c.mshrAt i).lineAddr below
  deferred : ∀ p ∈ c.pendingInstalls, c.Agrees p.line (c.mshrAt p.mshrIdx).lineAddr below

/-! ### A line enters -/

section Enters

variable {isDirty : Bool} {victim : Option Nat} {out rest : List WbEntry}
  {refills : Multiset (MemResponse LineTag)}

/-- The view outside a line that enters is kept: a clean victim is below, a dirty one in the
queue. -/
theorem LineEnters.view (h : LineEnters c c' la line isDirty victim out) (hc : CacheOk P c)
    (hc' : CacheOk P c')
    (hclean : ∀ a line, a < 2 ^ 32 → c.lineAt a = some line → c.dirtyAt a = false →
      line (c.offsetOf a) = below a)
    (hrest : ∀ e, e ∈ rest ↔ e ∈ c.wbq ∧ e.addr ≠ la) (hwb : c'.wbq = rest ++ out)
    (hm : ∀ i, (c.mshrAt i).lineAddr ≠ la → c'.mshrAt i = c.mshrAt i)
    (hm' : ∀ i, (c'.mshrAt i).valid = true → c'.mshrAt i = c.mshrAt i) {a : Nat} (ha : a < 2 ^ 32) :
    c'.view below a = if c.lineBase a = la then line (c.offsetOf a) else c.view below a := by
  have hoff : c'.offsetOf a = c.offsetOf a := by rw [offsetOf, offsetOf, h.cfg]
  have hbase := lineBase_congr h.cfg a
  have hline := h.lineAt a ha
  have hfind : ∀ {x}, Newest c' below a x → c'.view below a = x := fun hx => hx.view_eq hc' ha
  by_cases hb : c.lineBase a = la
  · rw [if_pos hb] at hline ⊢
    rw [← hoff]
    exact hfind (.here hline)
  · rw [if_neg hb] at hline ⊢
    have hview : c.Newest below a (c.view below a) := newest_view ha
    generalize c.view below a = x at hview ⊢
    apply hfind
    -- by where the newest copy of `a` was before
    cases hview with
    | @here l hl =>
        -- it was in the line that leaves: clean, so the level below agrees; dirty, so queued
        by_cases hv : victim = some (c.lineBase a)
        · rw [if_pos hv] at hline
          subst hv
          cases hev : h.evicts with
          | clean hl₁ hs hd =>
              rw [hclean a l ha hl (by rw [← dirtyAt_lineBase hc.arrays ha]; exact hd)]
              refine .below hline (fun e he => ?_) fun i hv => ?_
              · rw [hbase]
                rw [hwb, List.append_nil] at he
                intro heq
                have hn := (hc.leaving e ((hrest e).mp he).1).2.2
                rw [heq, slotOf_lineBase hc.arrays ha, ← lineAt_eq_none, hl] at hn
                cases hn
              · rw [hbase]
                have hvm := hm' i hv
                rw [hvm] at hv ⊢
                intro heq
                have hn := (hc.misses i hv).notHere
                rw [heq, slotOf_lineBase hc.arrays ha, ← lineAt_eq_none, hl] at hn
                cases hn
          | @dirty _ l' hl₁ hs hd hr =>
              rw [lineAt_lineBase hc.arrays ha, hl] at hs
              cases hs
              have hmem : (⟨c.lineBase a, l⟩ : WbEntry) ∈ c'.wbq := by
                rw [hwb]
                exact List.mem_append_right _ List.mem_cons_self
              have hnew : c'.Newest below a _ := .leaving hmem hbase.symm
              rw [hoff] at hnew
              exact hnew
        · rw [if_neg hv, hl] at hline
          rw [← hoff]
          exact .here hline
    | @leaving e he hea =>
        rw [← hoff]
        refine .leaving ?_ (hea.trans hbase.symm)
        rw [hwb]
        exact List.mem_append_left _ ((hrest e).mpr ⟨he, by rw [hea]; exact hb⟩)
    | @fetching i hv hla =>
        have hsame := hm i (by rw [hla]; exact hb)
        rw [← hsame]
        refine .fetching ?_ ?_
        · rw [hsame]
          exact hv
        · rw [hsame, hbase]
          exact hla
    | below hl hout hno =>
        refine .below ?_ (fun e he => ?_) fun i hv => ?_
        · rw [hline, hl]
          split <;> rfl
        · rw [hbase]
          rw [hwb] at he
          rcases List.mem_append.mp he with he | he
          · exact hout e ((hrest e).mp he).1
          · obtain ⟨h1, -, h3, -⟩ := h.evicts.out_mem he
            intro heq
            rw [heq, lineAt_lineBase hc.arrays ha, hl] at h3
            cases h3
        · rw [hbase]
          have hvm := hm' i hv
          rw [hvm] at hv ⊢
          exact hno i hv

/-- A clean line after the move is a copy of the level below. -/
theorem LineEnters.clean (h : LineEnters c c' la line isDirty victim out)
    (hclean : ∀ a line, a < 2 ^ 32 → c.lineAt a = some line → c.dirtyAt a = false →
      line (c.offsetOf a) = below a)
    (hnew : isDirty = false → ∀ a, c.lineBase a = la → line (c.offsetOf a) = below a) :
    ∀ a line, a < 2 ^ 32 → c'.lineAt a = some line → c'.dirtyAt a = false →
      line (c'.offsetOf a) = below a := by
  intro a l ha hl hd
  have hoff : c'.offsetOf a = c.offsetOf a := by rw [offsetOf, offsetOf, h.cfg]
  rw [hoff]
  rw [h.lineAt a ha] at hl
  rw [h.dirtyAt a ha] at hd
  by_cases hb : c.lineBase a = la
  · rw [if_pos hb] at hl hd
    cases hl
    exact hnew hd a hb
  · rw [if_neg hb] at hl hd
    by_cases hv : victim = some (c.lineBase a)
    · rw [if_pos hv] at hl
      cases hl
    · rw [if_neg hv] at hl hd
      exact hclean a l ha hl hd

end Enters

/-! ### Accepting a request -/

section Accept

variable {refills : Multiset (MemResponse LineTag)}

/-- The line that serves a request, in the view. -/
theorem agrees_view (hg : c.Geometry) (hla : c.IsLine la)
    (h : ∀ a, a < 2 ^ 32 → c.lineBase a = la → c.view below a = line (c.offsetOf a)) :
    c.Agrees line la (c.view below) := by
  intro b hb
  have hend := IsLine.end_le hg hla
  obtain ⟨h1, h2⟩ := lineBase_add hg hla.1 hb
  rw [h (la + b) (by omega) h1, h2]

/-- The bytes of a request lie in one line. -/
theorem Fits.byte (hg : c.Geometry) (hf : c.Fits req) {b : Nat} (hb : b < req.size) :
    req.addr + b < 2 ^ 32 ∧ c.lineBase (req.addr + b) = c.lineBase req.addr := by
  have hline := isLine_lineBase hg hf.addr
  have hin := hf.inLine
  have hend := IsLine.end_le hg hline
  have haddr : req.addr + b = _ := Fits.addr_eq hg rfl b
  rw [haddr]
  exact ⟨by omega, (lineBase_add hg hline.1 (by omega)).1⟩

/-- A request outside a line does not change it. -/
theorem Fits.apply_other (hg : c.Geometry) (hf : c.Fits req) {a : Nat}
    (hb : c.lineBase a ≠ c.lineBase req.addr) (mem : Nat → Byte) : req.apply mem a = mem a := by
  unfold MemRequest.apply
  rw [if_neg]
  rintro ⟨-, h1, h2⟩
  apply hb
  have hin := hf.inLine
  have hoff := lineBase_add_offset hg req.addr
  obtain ⟨h3, -⟩ := lineBase_add hg (lineBase_lineBase hg req.addr)
    (b := a - c.lineBase req.addr) (by omega)
  rwa [show c.lineBase req.addr + (a - c.lineBase req.addr) = a by omega] at h3

/-- Accepting a request changes the view as the request does, and promises its answer. -/
structure AcceptsData (c c' : Cache τ) (below : Nat → Byte) (req : MemRequest τ)
    (refills : Multiset (MemResponse LineTag)) : Prop where
  data : DataOk c' below refills
  view : ∀ a, a < 2 ^ 32 → c'.view below a = req.apply (c.view below) a
  owed : c'.owed below = req.answer (c.view below) ::ₘ c.owed below

theorem SameMisses.owed (h : SameMisses c c') {r : MemResponse τ}
    (ha : c'.answered = r ::ₘ c.answered) : c'.owed below = r ::ₘ c.owed below := by
  unfold Cache.owed
  rw [ha, h.mshrs, Multiset.cons_add]

theorem SameMisses.data (h : SameMisses c c')
    (hclean : ∀ a line, a < 2 ^ 32 → c'.lineAt a = some line → c'.dirtyAt a = false →
      line (c'.offsetOf a) = below a) (hd : DataOk c below refills) : DataOk c' below refills := by
  have hm := h.mshrAt
  refine ⟨hclean, fun r hr i hi => ?_, fun p hp => ?_⟩
  · rw [hm]
    intro b hb
    rw [h.cfg] at hb
    exact hd.coming r hr i hi b hb
  · rw [hm]
    rw [h.pendingInstalls] at hp
    intro b hb
    rw [h.cfg] at hb
    exact hd.deferred p hp b hb

/-- A line that enters with a request performed on it. -/
theorem LineEnters.acceptsData {victim : Option Nat} {out rest : List WbEntry}
    {line' : Line} {r : MemResponse τ} (hg : c.Geometry) (hf : c.Fits req)
    (h : LineEnters c c' la line' true victim out) (hb : c.lineBase req.addr = la)
    (hc : CacheOk P c) (hc' : CacheOk P c') (hd : DataOk c below refills) (hs : SameMisses c c')
    (hrest : ∀ e, e ∈ rest ↔ e ∈ c.wbq ∧ e.addr ≠ la) (hwb : c'.wbq = rest ++ out)
    (hnew : ∀ b, b < c.cfg.lineBytes → line' b = req.apply (c.view below) (la + b))
    (hans : c'.answered = r ::ₘ c.answered) (hr : r = req.answer (c.view below)) :
    AcceptsData c c' below req refills := by
  refine ⟨hs.data (h.clean hd.clean nofun) hd, fun a ha => ?_, by rw [hs.owed hans, hr]⟩
  rw [h.view hc hc' hd.clean hrest hwb (fun i _ => hs.mshrAt i) (fun i _ => hs.mshrAt i) ha]
  split
  · rename_i hba
    have haddr := lineBase_add_offset hg a
    rw [hba] at haddr
    rw [hnew _ (offset_lt hg a), haddr]
  · rename_i hba
    exact (hf.apply_other hg (by rw [hb]; exact hba) _).symm

/-- The view after MSHR `i` changed its waiting list, or was opened. -/
theorem view_mshrChange {i : Nat} {m : Mshr τ} (hc' : CacheOk P c')
    (hmsh : ∀ j, c'.mshrAt j = if j = i then m else c.mshrAt j) (hcfg : c'.cfg = c.cfg)
    (hline : ∀ a, c'.lineAt a = c.lineAt a) (hwb : c'.wbq = c.wbq) (hv : m.valid = true)
    (hold : (c.mshrAt i).valid = true → (c.mshrAt i).lineAddr = m.lineAddr)
    {a : Nat} (ha : a < 2 ^ 32) : c'.view below a =
      if c.lineBase a = m.lineAddr then applyAll m.waiting below a else c.view below a := by
  have hbase := lineBase_congr hcfg a
  have hoff : c'.offsetOf a = c.offsetOf a := by rw [offsetOf, offsetOf, hcfg]
  have hself := hmsh i
  rw [if_pos rfl] at hself
  split
  · rename_i hb
    apply Newest.view_eq hc' ha
    rw [← hself] at hv hb ⊢
    exact .fetching hv (hb.symm.trans hbase.symm)
  · rename_i hb
    have hview : c.Newest below a (c.view below a) := newest_view ha
    generalize c.view below a = x at hview ⊢
    apply Newest.view_eq hc' ha
    cases hview with
    | here hl =>
        rw [← hoff]
        exact .here ((hline a).trans hl)
    | leaving he hea =>
        rw [← hoff]
        exact .leaving (by rw [hwb]; exact he) (hea.trans hbase.symm)
    | @fetching j hvj hla =>
        -- the line of `a` is not that of MSHR `i`, before or after
        have hji : j ≠ i := by
          rintro rfl
          exact hb (hla.symm.trans (hold hvj))
        have hm := hmsh j
        rw [if_neg hji] at hm
        rw [← hm] at hvj hla ⊢
        exact .fetching hvj (hla.trans hbase.symm)
    | below hl hout hno =>
        refine .below ((hline a).trans hl) ?_ fun j hvj => ?_
        · rw [hwb, hbase]
          exact hout
        · rw [hbase]
          rw [hmsh] at hvj ⊢
          split
          · exact fun he => hb he.symm
          · rename_i hji
            rw [if_neg hji] at hvj
            exact hno j hvj

/-- Data law when an MSHR changed and its line and that of its refill did not. -/
theorem DataOk.mshrChange {i : Nat} {m : Mshr τ} (hd : DataOk c below refills) (hr : RefillsOk c (refills.map (·.tag)))
    (hmsh : ∀ j, c'.mshrAt j = if j = i then m else c.mshrAt j) (hcfg : c'.cfg = c.cfg)
    (hline : ∀ a, c'.lineAt a = c.lineAt a) (hdirty : ∀ a, c'.dirtyAt a = c.dirtyAt a)
    (hp : c'.pendingInstalls = c.pendingInstalls)
    (hsame : i ∈ c.refillsSent → m.lineAddr = (c.mshrAt i).lineAddr) :
    DataOk c' below refills := by
  have haddr : ∀ j, j ∈ c.refillsSent → (c'.mshrAt j).lineAddr = (c.mshrAt j).lineAddr := by
    intro j hj
    rw [hmsh]
    split
    · rename_i hji
      rw [hji] at hj ⊢
      exact hsame hj
    · rfl
  refine ⟨fun a line ha hl hdy => ?_, fun r hrm j hj => ?_, fun p hpm => ?_⟩
  · rw [hline] at hl
    rw [hdirty] at hdy
    rw [offsetOf, hcfg]
    exact hd.clean a line ha hl hdy
  · rw [haddr j (hr.coming hrm hj)]
    intro b hb
    rw [hcfg] at hb
    exact hd.coming r hrm j hj b hb
  · rw [hp] at hpm
    rw [haddr p.mshrIdx (hr.deferred hpm)]
    intro b hb
    rw [hcfg] at hb
    exact hd.deferred p hpm b hb

/-- A request that hits is performed on its line. -/
theorem acceptsData_hit {line : Line} {c₁ : Cache τ} (hc : CacheOk P c) (hc' : CacheOk P c') (hf : c.Fits req)
    (hd : DataOk c below refills) (hl : c.lineAt req.addr = some line) (hp : Performed c c₁ req line)
    (ht : SameTags c₁ c') (hdat : c'.data = c₁.data) (hdy : c'.dirty = c₁.dirty) (hs : SameMisses c c')
    (hwb : c'.wbq = c.wbq) (hans : c'.answered = c.respond req line ::ₘ c.answered) :
    AcceptsData c c' below req refills := by
  have hg := hc.arrays.geometry
  have hsame : ∀ a, a < 2 ^ 32 → c.lineBase a = c.lineBase req.addr → c.lineAt a = some line := by
    intro a ha hb
    rw [← lineAt_lineBase hc.arrays ha, hb, lineAt_lineBase hc.arrays hf.addr, hl]
  have hagree : c.Agrees line (c.lineBase req.addr) (c.view below) :=
    agrees_view hg (isLine_lineBase hg hf.addr) fun a ha hb => Newest.view_eq hc ha (.here (hsame a ha hb))
  have hline' : ∀ a, a < 2 ^ 32 → c'.lineAt a =
      if req.isWrite ∧ c.lineBase a = c.lineBase req.addr then some (c.writeOnLine req line)
      else c.lineAt a := by
    intro a ha
    rw [← hp.lineAt a ha, ht.lineAt a hdat]
  have hdirty' : ∀ a, a < 2 ^ 32 → c'.dirtyAt a =
      if req.isWrite ∧ c.lineBase a = c.lineBase req.addr then true else c.dirtyAt a := by
    intro a ha
    rw [← hp.dirtyAt a ha, ht.dirtyAt a hdy]
  have hoff : ∀ a, c'.offsetOf a = c.offsetOf a := fun a => by rw [offsetOf, offsetOf, hs.cfg]
  have hbase := lineBase_congr hs.cfg
  -- no clean line changes; the view changes in the line of the request only
  refine ⟨hs.data (fun a l ha hl' hd' => ?_) hd, fun a ha => ?_, ?_⟩
  · rw [hline' a ha] at hl'
    rw [hdirty' a ha] at hd'
    by_cases hw : req.isWrite ∧ c.lineBase a = c.lineBase req.addr
    · rw [if_pos hw] at hd'
      cases hd'
    · rw [if_neg hw] at hl' hd'
      rw [hoff]
      exact hd.clean a l ha hl' hd'
  · by_cases hb : c.lineBase a = c.lineBase req.addr
    · have haddr := lineBase_add_offset hg a
      rw [hb] at haddr
      have hw := hagree.write hg hf rfl (c.offsetOf a) (offset_lt hg a)
      rw [haddr] at hw
      rw [← hw]
      apply Newest.view_eq hc' ha
      have hl' := hline' a ha
      cases hwr : req.isWrite with
      | true =>
          rw [if_pos ⟨hwr, hb⟩] at hl'
          rw [if_pos rfl, ← hoff]
          exact .here hl'
      | false =>
          rw [if_neg (fun hx => by rw [hwr] at hx; cases hx.1), hsame a ha hb] at hl'
          rw [if_neg Bool.false_ne_true, ← hoff]
          exact .here hl'
    · rw [hf.apply_other hg hb]
      have hview : c.Newest below a (c.view below a) := newest_view ha
      generalize c.view below a = x at hview ⊢
      apply Newest.view_eq hc' ha
      have hl' := hline' a ha
      rw [if_neg (fun hx => hb hx.2)] at hl'
      cases hview with
      | here hl₁ =>
          rw [hl₁] at hl'
          rw [← hoff]
          exact .here hl'
      | leaving he hea =>
          rw [← hoff]
          exact .leaving (by rw [hwb]; exact he) (by rw [hbase]; exact hea)
      | @fetching i hv hla₁ =>
          have hm := hs.mshrAt i
          rw [← hm] at hv hla₁ ⊢
          exact .fetching hv (by rw [hbase]; exact hla₁)
      | below hl₁ hout hno =>
          refine .below (hl'.trans hl₁) ?_ ?_
          · rw [hwb, hbase]
            exact hout
          · intro i
            rw [hs.mshrAt, hbase]
            exact hno i
  · rw [hs.owed hans, hagree.respond hg hf rfl]

/-- A request for a line that is being fetched waits, and is promised the answer that the line
will give it. -/
theorem acceptsData_merge {i : Nat} (hc : CacheOk P c) (hc' : CacheOk P c') (hf : c.Fits req)
    (hd : DataOk c below refills) (hr : RefillsOk c (refills.map (·.tag))) (hv : (c.mshrAt i).valid = true) (hla₁ : (c.mshrAt i).lineAddr = c.lineBase req.addr)
    (heq : c' = { c with mshrs := c.mshrs.modify i fun m =>
      { m with waiting := m.waiting ++ [⟨req, c.tickCount⟩] } }) : AcceptsData c c' below req refills := by
  have hg := hc.arrays.geometry
  have hi := valid_lt hv
  have hmsh := mshrAt_modify (congrArg Cache.mshrs heq) hi
  have hsame : ∀ a, a < 2 ^ 32 → c.lineBase a = c.lineBase req.addr →
      c.view below a = applyAll (c.mshrAt i).waiting below a :=
    fun a ha hb => Newest.view_eq hc ha (.fetching hv (hla₁.trans hb.symm))
  refine ⟨hd.mshrChange hr hmsh (by rw [heq]) (fun a => by rw [heq]; rfl) (fun a => by rw [heq]; rfl)
    (by rw [heq]) (fun _ => rfl), fun a ha => ?_, ?_⟩
  · rw [view_mshrChange hc' hmsh (by rw [heq]) (fun a => by rw [heq]; rfl) (by rw [heq]) hv
      (fun _ => rfl) ha]
    dsimp only
    split
    · rename_i hb
      rw [applyAll_append]
      exact req.apply_congr (hsame a ha (hb.trans hla₁)).symm
    · rename_i hb
      exact (hf.apply_other hg (by rw [← hla₁]; exact hb) _).symm
  · have hbag := bag_modify (fun m : Mshr τ => { m with
        waiting := m.waiting ++ [⟨req, c.tickCount⟩] })
      (fun m => (↑(promised below m.waiting) : Multiset (MemResponse τ))) (mshrAt_of_lt hi)
    have hans : req.answer (applyAll (c.mshrAt i).waiting below) = req.answer (c.view below) :=
      MemRequest.answer_congr fun b hb => by
        have hbyte := Fits.byte hg hf hb
        exact (hsame _ hbyte.1 hbyte.2).symm
    dsimp only at hbag
    rw [promised_append, hans, ← Multiset.coe_add, Multiset.coe_singleton,
      add_comm (↑(promised below (c.mshrAt i).waiting) : Multiset (MemResponse τ)) {_},
      ← add_assoc] at hbag
    have hbag := add_right_cancel hbag
    unfold Cache.owed
    rw [heq]
    dsimp only
    rw [hbag, ← add_assoc, add_comm _ {_}, Multiset.singleton_add]
    rfl

/-- A request that misses opens an entry, and is promised the answer of the level below. -/
theorem acceptsData_miss {i : Nat} (hc : CacheOk P c) (hc' : CacheOk P c') (hf : c.Fits req)
    (hd : DataOk c below refills) (hr : RefillsOk c (refills.map (·.tag))) (hnone : c.slotOf req.addr = none)
    (hout : ∀ e ∈ c.wbq, e.addr ≠ c.lineBase req.addr)
    (hno : ∀ i, (c.mshrAt i).valid = true → (c.mshrAt i).lineAddr ≠ c.lineBase req.addr)
    (hi : i < c.mshrs.length) (hinv : (c.mshrAt i).valid = false)
    (heq : c' = { c with
      pendingMisses := c.pendingMisses + 1
      mshrs := c.mshrs.set i { valid := true, lineAddr := c.lineBase req.addr, refillSent := false
                               waiting := [⟨req, c.tickCount⟩] } }) : AcceptsData c c' below req refills := by
  have hg := hc.arrays.geometry
  have hmsh := mshrAt_set (congrArg Cache.mshrs heq) hi
  -- the line is nowhere in the cache, so the level below has its newest bytes
  have hnoline : ∀ a, a < 2 ^ 32 → c.lineBase a = c.lineBase req.addr → c.view below a = below a := by
    intro a ha hb
    refine Newest.view_eq hc ha (.below ?_ (by rw [hb]; exact hout) (by rw [hb]; exact hno))
    rw [← lineAt_lineBase hc.arrays ha, hb, lineAt_lineBase hc.arrays hf.addr, lineAt_eq_none]
    exact hnone
  have hnot : i ∉ c.refillsSent := fun hm => by
    rw [(mem_refillsSent.mp hm).1] at hinv
    cases hinv
  refine ⟨hd.mshrChange hr hmsh (by rw [heq]) (fun a => by rw [heq]; rfl) (fun a => by rw [heq]; rfl)
    (by rw [heq]) (fun hm => absurd hm hnot), fun a ha => ?_, ?_⟩
  · rw [view_mshrChange hc' hmsh (by rw [heq]) (fun a => by rw [heq]; rfl) (by rw [heq]) rfl
      (fun hx => by rw [hinv] at hx; cases hx) ha]
    dsimp only
    split
    · rename_i hb
      exact req.apply_congr (hnoline a ha hb).symm
    · rename_i hb
      exact (hf.apply_other hg hb _).symm
  · have hbag := bag_set (fun m : Mshr τ => (↑(promised below m.waiting) : Multiset (MemResponse τ)))
      (mshrAt_of_lt hi) { valid := true, lineAddr := c.lineBase req.addr, refillSent := false
                          waiting := [⟨req, c.tickCount⟩] }
    have hans : req.answer below = req.answer (c.view below) :=
      MemRequest.answer_congr fun b hb => by
        have hbyte := Fits.byte hg hf hb
        exact (hnoline _ hbyte.1 hbyte.2).symm
    -- the MSHR was idle, so it was owed nothing
    have hold : promised below (c.mshrAt i).waiting = [] := by
      rw [hc.idle i hinv]
      rfl
    dsimp only at hbag
    rw [hold, Multiset.coe_nil, add_zero, promised, promised, hans] at hbag
    unfold Cache.owed
    rw [heq]
    dsimp only
    rw [hbag, ← add_assoc, Multiset.coe_singleton, add_comm _ {_}, Multiset.singleton_add]
    rfl

theorem Accepts.data (h : Accepts c req c') (hc : CacheOk P c) (hc' : CacheOk P c') (hf : c.Fits req)
    (hd : DataOk c below refills) (hr : RefillsOk c (refills.map (·.tag))) : AcceptsData c c' below req refills := by
  have hg := hc.arrays.geometry
  cases h with
  | hit hl hp ht hdat hdy hs hwb hans => exact acceptsData_hit hc hc' hf hd hl hp ht hdat hdy hs hwb hans
  | @restore e i victim out hi he hin hs hwb hans =>
      have hmem := List.mem_of_getElem? hi
      have hagree : c.Agrees e.line e.addr (c.view below) := by
        rw [he]
        apply agrees_view hg (isLine_lineBase hg hf.addr)
        intro a ha hb
        exact Newest.view_eq hc ha (.leaving hmem (he.trans hb.symm))
      refine LineEnters.acceptsData hg hf hin he.symm hc hc' hd hs ?_ hwb
        (hagree.write hg hf he.symm) hans (hagree.respond hg hf he.symm)
      exact fun e' => mem_eraseIdx_key hc.leavingOnce hi
  | merge _ _ hv hla heq => exact acceptsData_merge hc hc' hf hd hr hv hla heq
  | @write victim out hw hsz hout hno hin hs hwb hans =>
      refine LineEnters.acceptsData hg hf hin rfl hc hc' hd hs ?_ hwb ?_ hans ?_
      · exact fun e => ⟨fun he => ⟨he, hout e he⟩, fun he => he.1⟩
      · intro b hb
        have haddr : req.addr + 0 = _ := Fits.addr_eq hg rfl 0
        have hin := hf.inLine
        have h8 := eight_le hg
        unfold MemRequest.apply MemRequest.covers
        rw [if_pos ⟨hw, by omega, by omega⟩, MemRequest.writeByte, if_neg (by omega)]
        congr 1
        omega
      · rw [MemRequest.answer, if_pos hw]
  | miss hnone hout hno _ hi hinv heq => exact acceptsData_miss hc hc' hf hd hr hnone hout hno hi hinv heq

end Accept

/-! ### Refills -/

section Refill

variable {refills : Multiset (MemResponse LineTag)} {victim : Option Nat} {out : List WbEntry} {i : Nat}

/-- Installing a refill that is a copy of the level below changes neither the view nor what
the cache owes. -/
theorem Fills.data (h : Fills c c' i line victim out) (hc : CacheOk P c) (hs : i ∈ c.refillsSent)
    (hline : c.Agrees line (c.mshrAt i).lineAddr below)
    (hclean : ∀ a line, a < 2 ^ 32 → c.lineAt a = some line → c.dirtyAt a = false →
      line (c.offsetOf a) = below a) :
    (∀ a line, a < 2 ^ 32 → c'.lineAt a = some line → c'.dirtyAt a = false →
      line (c'.offsetOf a) = below a) ∧
    (∀ a, a < 2 ^ 32 → c'.view below a = c.view below a) ∧ c'.owed below = c.owed below ∧
    ∀ j, j ∈ c'.refillsSent → c'.mshrAt j = c.mshrAt j := by
  have hok := h.cacheOk hc hs
  obtain ⟨hv, -⟩ := mem_refillsSent.mp hs
  have hi := valid_lt hv
  have hg := hc.arrays.geometry
  have hm := hc.misses i hv
  have hmsh := mshrAt_set h.mshrs hi
  have hother : ∀ j, j ≠ i → c'.mshrAt j = c.mshrAt j := fun j hj => by rw [hmsh, if_neg hj]
  have hvalid : ∀ j, (c'.mshrAt j).valid = true → c'.mshrAt j = c.mshrAt j := by
    intro j hj
    apply hother j
    rintro rfl
    rw [hmsh, if_pos rfl] at hj
    cases hj
  obtain ⟨hrep, hreplies⟩ := hline.replay hg (c.mshrAt i).waiting hm.fits
  -- after the replay the line holds what the waiting requests make of the level below
  have hbyte : ∀ a, c.lineBase a = (c.mshrAt i).lineAddr →
      c.replayed line (c.mshrAt i).waiting (c.offsetOf a) = applyAll (c.mshrAt i).waiting below a := by
    intro a hb
    have haddr := lineBase_add_offset hg a
    rw [hrep _ (offset_lt hg a), ← hb, haddr]
  refine ⟨h.enters.clean hclean fun hno a hb => ?_, fun a ha => ?_, ?_, fun j hj => ?_⟩
  · rw [hbyte a hb, applyAll_reads hno]
  · have hrest : ∀ e, e ∈ c.wbq ↔ e ∈ c.wbq ∧ e.addr ≠ (c.mshrAt i).lineAddr :=
      fun e => ⟨fun he => ⟨he, hm.notLeaving e he⟩, fun he => he.1⟩
    rw [h.enters.view hc hok.ok hclean hrest h.wbq
      (fun j hj => hother j (fun he => hj (by rw [he]))) hvalid ha]
    split
    · rename_i hb
      rw [hbyte a hb]
      exact (Newest.view_eq hc ha (.fetching hv hb.symm)).symm
    · rfl
  · have hbag := bag_set (fun m : Mshr τ => (↑(promised below m.waiting) : Multiset (MemResponse τ)))
      (mshrAt_of_lt hi) {}
    dsimp only at hbag
    rw [show promised below ([] : List (Waiting τ)) = [] from rfl, Multiset.coe_nil, add_zero] at hbag
    -- the replies leave the MSHR and join the answers
    have hans : c'.answered = c.answered + ↑(promised below (c.mshrAt i).waiting) := by
      unfold answered
      rw [h.respQ, h.hitPipe, hreplies, Multiset.coe_add, Multiset.coe_eq_coe, List.append_assoc,
        List.append_assoc]
      exact List.perm_append_comm.append_left _
    unfold Cache.owed
    rw [hans, h.mshrs, add_assoc, ← hbag]
    congr 1
    exact add_comm _ _
  · exact hvalid j (mem_refillsSent.mp hj).1

theorem DataOk.deliver (hc : CacheOk P c) {r : MemResponse LineTag}
    (hd : DataOk c below (r ::ₘ refills)) (hr : RefillsOk c (r.tag ::ₘ refills.map (·.tag))) :
    DataOk (c.deliverBelowResponse r) below refills ∧
      (∀ a, a < 2 ^ 32 → (c.deliverBelowResponse r).view below a = c.view below a) ∧
      (c.deliverBelowResponse r).owed below = c.owed below := by
  obtain ⟨-, hcfg, -, hr'⟩ := hc.deliver hr
  have hdel := delivers c r
  generalize c.deliverBelowResponse r = c' at hdel hcfg hr' ⊢
  cases hdel with
  | ack _ heq =>
      subst heq
      exact ⟨⟨hd.clean, fun r' hm => hd.coming r' (Multiset.mem_cons_of_mem hm), hd.deferred⟩,
        fun _ _ => rfl, rfl⟩
  | @fill i ht h =>
      have hs : i ∈ c.refillsSent := by
        unfold RefillsOk at hr
        rw [ht, Multiset.filterMap_cons_some refillOf _ _ (b := i) rfl, Multiset.cons_add] at hr
        rw [hr]
        exact Multiset.mem_cons_self _ _
      obtain ⟨victim, out, hf⟩ := hc.fills (mem_refillsSent.mp hs).1 h
      obtain ⟨h1, h2, h3, h4⟩ := hf.data hc hs (hd.coming r (Multiset.mem_cons_self _ _) i ht) hd.clean
      refine ⟨⟨h1, fun r' hm j hj => ?_, fun p hp => ?_⟩, h2, h3⟩
      · rw [h4 j ?_]
        · intro b hb
          rw [hcfg] at hb
          exact hd.coming r' (Multiset.mem_cons_of_mem hm) j hj b hb
        · exact hr'.coming hm hj
      · rw [h4 p.mshrIdx ?_]
        · intro b hb
          rw [hcfg] at hb
          rw [hf.pendingInstalls] at hp
          exact hd.deferred p hp b hb
        · exact hr'.deferred hp
  | @wait i ht heq =>
      subst heq
      refine ⟨⟨hd.clean, fun r' hm => hd.coming r' (Multiset.mem_cons_of_mem hm), fun p hp => ?_⟩,
        fun _ _ => rfl, rfl⟩
      rcases List.mem_append.mp hp with hp | hp
      · exact hd.deferred p hp
      · rw [List.mem_singleton.mp hp]
        exact hd.coming r (Multiset.mem_cons_self _ _) i ht

theorem DataOk.retries (hc : CacheOk P c) (hd : DataOk c below refills)
    (hr : RefillsOk c (refills.map (·.tag))) (h : Retries c c') :
    DataOk c' below refills ∧ (∀ a, a < 2 ^ 32 → c'.view below a = c.view below a) ∧
      c'.owed below = c.owed below := by
  obtain ⟨-, hcfg, -, hr', p, ps, c₁, victim, out, hp, hs, hf, rfl⟩ := hc.retries hr h
  obtain ⟨h1, h2, h3, h4⟩ := hf.data hc hs
    (hd.deferred p (by rw [hp]; exact List.mem_cons_self)) hd.clean
  refine ⟨⟨h1, fun r hm j hj => ?_, fun p' hp' => ?_⟩, h2, h3⟩
  · show Agrees _ _ (c₁.mshrAt j).lineAddr below
    rw [h4 j ?_]
    · intro b hb
      rw [hcfg] at hb
      exact hd.coming r hm j hj b hb
    · exact hr'.coming hm hj
  · show Agrees _ _ (c₁.mshrAt p'.mshrIdx).lineAddr below
    rw [h4 p'.mshrIdx ?_]
    · intro b hb
      rw [hcfg] at hb
      exact hd.deferred p' (by rw [hp]; exact List.mem_cons_of_mem _ hp') b hb
    · exact hr'.deferred hp'

end Refill

/-! ### A request to the level below -/

section Issue

variable {refills : Multiset (MemResponse LineTag)}

/-- A level below that changes outside this cache's copies changes nothing in it. -/
theorem owed_congr {below' : Nat → Byte} (hc : CacheOk P c)
    (h : ∀ i, (c.mshrAt i).valid = true → ∀ a, c.lineBase a = (c.mshrAt i).lineAddr →
      below' a = below a) : c.owed below' = c.owed below := by
  unfold Cache.owed
  congr 1
  apply bag_congr
  intro m hm
  obtain ⟨i, hi, rfl⟩ := List.getElem_of_mem hm
  have hat : c.mshrAt i = c.mshrs[i] := by
    rw [mshrAt, List.getElem?_eq_getElem hi]
    rfl
  rw [← hat]
  cases hv : (c.mshrAt i).valid with
  | false =>
      rw [hc.idle i hv]
      rfl
  | true =>
      have hmi := hc.misses i hv
      have hg := hc.arrays.geometry
      rw [promised_congr hg (fun b hb => h i hv _ (lineBase_add hg hmi.line.1 hb).1) hmi.fits]

/-- A whole line is a request that one line serves. -/
theorem IsLine.fits {σ : Type} {req : MemRequest σ} (hg : c.Geometry) (hl : c.IsLine req.addr) (hs : req.size = c.cfg.lineBytes) :
    c.Fits req := by
  have h := lineBase_add_offset hg req.addr
  rw [hl.1] at h
  exact ⟨hl.2, by rw [hs]; exact lineBytes_pos hg, by omega, fun _ => .inr hs⟩

/-- What a request to the level below keeps: the view, and what is owed. -/
structure IssuesData (c c' : Cache τ) (below : Nat → Byte) (refills : Multiset (MemResponse LineTag))
    (req : MemRequest LineTag) : Prop where
  data : DataOk c' (req.apply below) (req.answer below ::ₘ refills)
  view : ∀ a, a < 2 ^ 32 → c'.view (req.apply below) a = c.view below a
  owed : c'.owed (req.apply below) = c.owed below
  /-- A byte below changes to the newest copy only. -/
  newest : ∀ a, a < 2 ^ 32 → req.apply below a = below a ∨ req.apply below a = c.view below a

/-- A writeback replaces the bytes of its line. -/
theorem writeback_inside (hg : c.Geometry) {e : WbEntry} {a : Nat} (hb : c.lineBase a = e.addr) :
    (c.writebackReq e).apply below a = e.line (c.offsetOf a) := by
  have h8 := eight_le hg
  have haddr := lineBase_add_offset hg a
  have hlt := offset_lt hg a
  rw [hb] at haddr
  unfold MemRequest.apply MemRequest.covers writebackReq
  dsimp only
  rw [if_pos ⟨rfl, by omega, by omega⟩, MemRequest.writeByte]
  dsimp only
  rw [if_neg (by omega)]
  congr 1
  omega

/-- It leaves the other bytes alone. -/
theorem writeback_outside (hg : c.Geometry) {e : WbEntry} {a : Nat} (hl : c.lineBase e.addr = e.addr)
    (hb : c.lineBase a ≠ e.addr) : (c.writebackReq e).apply below a = below a := by
  unfold MemRequest.apply MemRequest.covers writebackReq
  dsimp only
  rw [if_neg]
  rintro ⟨-, h1, h2⟩
  apply hb
  obtain ⟨h3, -⟩ := lineBase_add hg hl (b := a - e.addr) (by omega)
  rwa [show e.addr + (a - e.addr) = a by omega] at h3

/-- Sending a writeback moves its bytes from the queue to the level below. -/
theorem issuesData_writeback {e : WbEntry} {rest : List WbEntry} (hc : CacheOk P c)
    (hc' : CacheOk P ({ c with wbq := rest } : Cache τ)) (hd : DataOk c below refills)
    (hr : RefillsOk c (refills.map (·.tag))) (hw : c.wbq = e :: rest) :
    IssuesData c { c with wbq := rest } below refills (c.writebackReq e) := by
  have hg := hc.arrays.geometry
  have hmem : e ∈ c.wbq := by rw [hw]; exact List.mem_cons_self
  obtain ⟨hl, -, hnone⟩ := hc.leaving e hmem
  have hnd := hc.leavingOnce
  rw [hw, List.map_cons, List.nodup_cons] at hnd
  have hin : ∀ a, c.lineBase a = e.addr → (c.writebackReq e).apply below a = e.line (c.offsetOf a) :=
    fun a hb => writeback_inside hg hb
  have hout : ∀ a, c.lineBase a ≠ e.addr → (c.writebackReq e).apply below a = below a :=
    fun a hb => writeback_outside hg hl.1 hb
  -- a line is not written back while it is being fetched
  have hmiss : ∀ i, (c.mshrAt i).valid = true → ∀ a, c.lineBase a = (c.mshrAt i).lineAddr →
      (c.writebackReq e).apply below a = below a := by
    intro i hv a hb
    apply hout a
    intro he
    exact (hc.misses i hv).notLeaving e hmem (he.symm.trans hb)
  have hcopy : ∀ {line : Line} {i : Nat}, i ∈ c.refillsSent →
      c.Agrees line (c.mshrAt i).lineAddr below →
      c.Agrees line (c.mshrAt i).lineAddr ((c.writebackReq e).apply below) := by
    intro line i hi hag b hb
    have hv := (mem_refillsSent.mp hi).1
    rw [hag b hb, hmiss i hv _ (lineBase_add hg (hc.misses i hv).line.1 hb).1]
  refine ⟨⟨fun a line ha hla hdy => ?_, fun r hm i hi => ?_, fun p hp => ?_⟩, fun a ha => ?_, ?_,
    fun a ha => ?_⟩
  · rw [hout a (fun he => ?_)]
    · exact hd.clean a line ha hla hdy
    · have hla' : c.lineAt a = some line := hla
      rw [← he, slotOf_lineBase hc.arrays ha, ← lineAt_eq_none, hla'] at hnone
      cases hnone
  · rcases Multiset.mem_cons.mp hm with rfl | hm
    · cases hi
    · exact hcopy (hr.coming hm hi) (hd.coming r hm i hi)
  · exact hcopy (hr.deferred hp) (hd.deferred p hp)
  · have hview : c.Newest below a (c.view below a) := newest_view ha
    generalize c.view below a = x at hview ⊢
    apply Newest.view_eq hc' ha
    -- the bytes of the entry are now below; every other newest copy stays where it is
    cases hview with
    | here hla => exact .here hla
    | @leaving e' he' hea =>
        rw [hw] at he'
        rcases List.mem_cons.mp he' with rfl | he'
        · rw [← hin a hea.symm]
          refine .below ?_ (fun e'' he'' heq => ?_) fun i hv heq => ?_
          · show c.lineAt a = none
            rw [lineAt_eq_none, ← slotOf_lineBase hc.arrays ha, ← hea, hnone]
          · exact hnd.1 (by rw [hea, ← show e''.addr = c.lineBase a from heq]; exact List.mem_map_of_mem he'')
          · exact (hc.misses i hv).notLeaving _ hmem (hea.trans (show _ = c.lineBase a from heq).symm)
        · exact .leaving he' hea
    | @fetching i hv hla =>
        rw [← applyAll_congr (c.mshrAt i).waiting (hmiss i hv a hla.symm)]
        exact .fetching hv hla
    | below hla hno hnom =>
        rw [← hout a (fun he => hno e hmem he.symm)]
        refine .below hla (fun e' he' => hno e' ?_) hnom
        rw [hw]
        exact List.mem_cons_of_mem _ he'
  · have howed : ({ c with wbq := rest } : Cache τ).owed ((c.writebackReq e).apply below) =
        c.owed ((c.writebackReq e).apply below) := rfl
    rw [howed]
    exact owed_congr hc hmiss
  · by_cases hb : c.lineBase a = e.addr
    · right
      rw [hin a hb]
      exact (Newest.view_eq hc ha (.leaving hmem hb.symm)).symm
    · exact .inl (hout a hb)

/-- Sending a refill changes no byte, and what the level below owes for it is a copy of the line. -/
theorem issuesData_refill {i : Nat} (hc : CacheOk P c)
    (hc' : CacheOk P ({ c with mshrs := c.mshrs.modify i fun m => { m with refillSent := true } } : Cache τ))
    (hd : DataOk c below refills) (hr : RefillsOk c (refills.map (·.tag))) (hv : (c.mshrAt i).valid = true) :
    IssuesData c { c with mshrs := c.mshrs.modify i fun m => { m with refillSent := true } } below refills
      (c.refillReq i) := by
  have hg := hc.arrays.geometry
  have hi := valid_lt hv
  have hm := hc.misses i hv
  have h8 := eight_le hg
  -- a refill is a read
  have happly : (c.refillReq i).apply below = below := by
    funext a
    unfold MemRequest.apply refillReq
    rw [if_neg (by simp)]
  have hans : (c.refillReq i).answer below =
      { src := c.srcId, tag := .refill i
        rline := fun b => if b < c.cfg.lineBytes then below ((c.mshrAt i).lineAddr + b) else 0 } := by
    unfold MemRequest.answer refillReq
    dsimp only
    rw [if_neg Bool.false_ne_true, if_pos (by omega)]
  let c' : Cache τ := { c with mshrs := c.mshrs.modify i fun m => { m with refillSent := true } }
  have hmsh := mshrAt_modify (show c'.mshrs = c.mshrs.modify i fun m => { m with refillSent := true } from rfl) hi
  have hd' : DataOk c' below refills := hd.mshrChange hr hmsh rfl (fun _ => rfl) (fun _ => rfl) rfl fun _ => rfl
  have hself := hmsh i
  rw [if_pos rfl] at hself
  refine ⟨?_, fun a ha => ?_, ?_, fun a _ => .inl (by rw [happly])⟩
  · rw [happly]
    refine ⟨hd'.clean, fun r hr j hj => ?_, hd'.deferred⟩
    rcases Multiset.mem_cons.mp hr with rfl | hr
    · rw [hans] at hj
      cases hj
      show c'.Agrees _ (c'.mshrAt i).lineAddr below
      rw [hself, hans]
      intro b hb
      exact if_pos hb
    · exact hd'.coming r hr j hj
  · rw [happly]
    show c'.view below a = _
    rw [view_mshrChange (c := c) hc' hmsh rfl (fun _ => rfl) rfl hv (fun _ => rfl) ha]
    -- an MSHR whose refill is sent is still where the line's newest bytes come from
    split
    · rename_i hb
      exact (Newest.view_eq hc ha (.fetching hv hb.symm)).symm
    · rfl
  · rw [happly]
    show c'.answered + bag c'.mshrs _ = _
    have hbag := bag_modify (fun m : Mshr τ => { m with refillSent := true })
      (fun m => (↑(promised below m.waiting) : Multiset (MemResponse τ))) (mshrAt_of_lt hi)
    rw [add_right_cancel hbag]
    rfl

theorem Issues.data {b : Bool} {r : Cache τ × Option (MemRequest LineTag)} (h : Issues c b r)
    (hc : CacheOk P c) (hd : DataOk c below refills) (hr : RefillsOk c (refills.map (·.tag))) :
    (r.2 = none → r.1 = c) ∧ ∀ req, r.2 = some req → IssuesData c r.1 below refills req := by
  have hc' := (h.cacheOk hc hr).1
  cases h with
  | nothing => exact ⟨fun _ => rfl, nofun⟩
  | writeback _ hw =>
      refine ⟨nofun, ?_⟩
      rintro _ ⟨rfl⟩
      exact issuesData_writeback hc hc' hd hr hw
  | refill _ hv _ =>
      refine ⟨nofun, ?_⟩
      rintro _ ⟨rfl⟩
      exact issuesData_refill hc hc' hd hr hv

end Issue

end Cache

end RvO3
