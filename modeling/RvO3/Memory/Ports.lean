import RvO3.Memory.Reset

/-!
# Runs of the memory system

A run is a sequence of events at the two ports: accesses made when `canAccept` allows,
responses popped, and clock edges. What a flat byte memory does with the same events is
read off the events alone: `memAfter` are its bytes and `dAnswers` its answers to the data
port. A run keeps three things (`Tracks`): the invariant of the hierarchy, the newest bytes
are those of the flat memory, and the answers given and owed are the answers of the flat
memory.
-/

set_option autoImplicit false

namespace RvO3

variable {τ : Type}

/-! ## Events -/

/-- What happens at the ports, and the clock. -/
inductive PortEvent (τ : Type) where
  | tick
  | dAccess (req : MemRequest τ)
  | iAccess (req : MemRequest τ)
  | dResponse (r : MemResponse τ)
  | iResponse (r : MemResponse τ)

/-- What an event does to a flat memory. -/
def PortEvent.apply : PortEvent τ → (Nat → Byte) → Nat → Byte
  | .dAccess req, mem => req.apply mem
  | _, mem => mem

/-- The bytes after the data port's writes, in the order they were accepted. -/
def memAfter (image : Nat → Byte) (evs : List (PortEvent τ)) : Nat → Byte :=
  evs.foldl (fun mem ev => ev.apply mem) image

/-- The accesses that the data port accepted, each with the memory it met. -/
def dAccepts : (Nat → Byte) → List (PortEvent τ) → List (MemRequest τ × (Nat → Byte))
  | _, [] => []
  | mem, .dAccess req :: evs => (req, mem) :: dAccepts (req.apply mem) evs
  | mem, .tick :: evs => dAccepts mem evs
  | mem, .iAccess _ :: evs => dAccepts mem evs
  | mem, .dResponse _ :: evs => dAccepts mem evs
  | mem, .iResponse _ :: evs => dAccepts mem evs

/-- The answers of a flat memory to them. -/
def dAnswers (image : Nat → Byte) (evs : List (PortEvent τ)) : Multiset (MemResponse τ) :=
  ↑((dAccepts image evs).map fun p => p.1.answer p.2)

/-- The responses popped at the data port, and the fetches and their responses. -/
def dResponses (evs : List (PortEvent τ)) : List (MemResponse τ) :=
  evs.filterMap fun | .dResponse r => some r | _ => none

/-- The accepted fetches. -/
def iRequests (evs : List (PortEvent τ)) : List (MemRequest τ) :=
  evs.filterMap fun | .iAccess req => some req | _ => none

/-- The responses taken from the fetch port. -/
def iResponses (evs : List (PortEvent τ)) : List (MemResponse τ) :=
  evs.filterMap fun | .iResponse r => some r | _ => none

/-- No write of the data port covered this byte. -/
def unwritten (evs : List (PortEvent τ)) (a : Nat) : Prop :=
  ∀ req, .dAccess req ∈ evs → ¬(req.isWrite = true ∧ req.covers a)

section Events

variable {image : Nat → Byte} {evs : List (PortEvent τ)} {ev : PortEvent τ}

@[simp] theorem memAfter_append : memAfter image (evs ++ [ev]) = ev.apply (memAfter image evs) := by
  simp [memAfter]

theorem dAccepts_append : ∀ (mem : Nat → Byte) (evs : List (PortEvent τ)),
    dAccepts mem (evs ++ [ev]) = dAccepts mem evs ++ dAccepts (memAfter mem evs) [ev] := by
  intro mem evs
  induction evs generalizing mem with
  | nil => rfl
  | cons e evs ih =>
      cases e with
      | dAccess req => exact congrArg ((req, mem) :: ·) (ih _)
      | tick => exact ih mem
      | iAccess req => exact ih mem
      | dResponse r => exact ih mem
      | iResponse r => exact ih mem

/-- An access adds its own answer, computed on the memory as it is then. -/
theorem dAnswers_access {req : MemRequest τ} : dAnswers image (evs ++ [.dAccess req]) =
    req.answer (memAfter image evs) ::ₘ dAnswers image evs := by
  unfold dAnswers
  rw [dAccepts_append, List.map_append, ← Multiset.coe_add, add_comm]
  rfl

theorem dAnswers_other (h : ∀ req, ev ≠ .dAccess req) :
    dAnswers image (evs ++ [ev]) = dAnswers image evs := by
  unfold dAnswers
  rw [dAccepts_append]
  cases ev with
  | dAccess req => exact absurd rfl (h req)
  | tick => rw [dAccepts, dAccepts, List.append_nil]
  | iAccess req => rw [dAccepts, dAccepts, List.append_nil]
  | dResponse r => rw [dAccepts, dAccepts, List.append_nil]
  | iResponse r => rw [dAccepts, dAccepts, List.append_nil]

/-- The memory that an accepted access met is that of the writes accepted before it. -/
theorem mem_dAccepts {p : MemRequest τ × (Nat → Byte)} : ∀ {mem : Nat → Byte} {evs : List (PortEvent τ)},
    p ∈ dAccepts mem evs → ∃ evs₁ evs₂, evs = evs₁ ++ .dAccess p.1 :: evs₂ ∧ p.2 = memAfter mem evs₁ := by
  intro mem evs
  induction evs generalizing mem with
  | nil => exact nofun
  | cons e evs ih =>
      have hstep : p ∈ dAccepts (e.apply mem) evs →
          ∃ evs₁ evs₂, e :: evs = evs₁ ++ .dAccess p.1 :: evs₂ ∧ p.2 = memAfter mem evs₁ := by
        intro h
        obtain ⟨evs₁, evs₂, h1, h2⟩ := ih h
        exact ⟨e :: evs₁, evs₂, by rw [h1, List.cons_append], h2⟩
      cases e with
      | dAccess req =>
          intro h
          rcases List.mem_cons.mp h with rfl | h
          · exact ⟨[], evs, rfl, rfl⟩
          · exact hstep h
      | tick => exact hstep
      | iAccess req => exact hstep
      | dResponse r => exact hstep
      | iResponse r => exact hstep

/-- Reading one byte of a flat memory's answer. -/
theorem MemRequest.answer_byte {req : MemRequest τ} {mem : Nat → Byte} (hr : req.isWrite = false)
    {b : Nat} (hb : b < req.size) : (req.answer mem).byteOf req.size b = mem (req.addr + b) := by
  have hw : ¬req.isWrite = true := by simp [hr]
  unfold MemRequest.answer MemResponse.byteOf
  by_cases hs : req.size ≤ 4
  · rw [if_pos hs, if_neg hw, if_neg (Nat.not_lt.mpr hs)]
    exact wordByte_scalarOf (fun b => mem (req.addr + b)) hs hb
  · rw [if_neg hs, if_neg hw, if_pos (Nat.not_le.mp hs)]
    exact if_pos hb

theorem unwritten_append {a : Nat} : unwritten (evs ++ [ev]) a ↔
    unwritten evs a ∧ ∀ req, ev = .dAccess req → ¬(req.isWrite = true ∧ req.covers a) := by
  unfold unwritten
  simp only [List.mem_append, List.mem_singleton]
  constructor
  · exact fun h => ⟨fun req hreq => h req (.inl hreq), fun req hreq => h req (.inr hreq.symm)⟩
  · rintro ⟨h1, h2⟩ req (hreq | hreq)
    · exact h1 req hreq
    · exact h2 req hreq.symm

theorem unwritten_other (h : ∀ req, ev ≠ .dAccess req) (a : Nat) :
    unwritten (evs ++ [ev]) a ↔ unwritten evs a := by
  rw [unwritten_append]
  exact ⟨fun h' => h'.1, fun h' => ⟨h', fun req hreq => absurd hreq (h req)⟩⟩

end Events

/-! ## Legal runs -/

/-- An aligned access of 1, 2 or 4 of the first `bound` bytes. -/
structure MemRequest.Scalar (bound : Nat) (req : MemRequest τ) : Prop where
  size : req.size = 1 ∨ req.size = 2 ∨ req.size = 4
  aligned : req.addr % req.size = 0
  inside : req.addr + req.size ≤ bound

/-- A read of one aligned block of `n` of the first `bound` bytes. -/
structure MemRequest.Block (n bound : Nat) (req : MemRequest τ) : Prop where
  read : req.isWrite = false
  size : req.size = n
  aligned : req.addr % n = 0
  inside : req.addr + n ≤ bound

/-- The runs from `s₀` in which the ports are used as `canAccept` allows, with scalars and
fetch blocks of `n` bytes. -/
inductive PortRun (n bound : Nat) (s₀ : MemorySystem τ) : List (PortEvent τ) → MemorySystem τ → Prop
  | reset : PortRun n bound s₀ [] s₀
  | tick {evs : List (PortEvent τ)} {s s' : MemorySystem τ} : PortRun n bound s₀ evs s →
      s.tick = .ok s' → PortRun n bound s₀ (evs ++ [.tick]) s'
  | dAccess {evs : List (PortEvent τ)} {s s' : MemorySystem τ} {req : MemRequest τ} :
      PortRun n bound s₀ evs s → s.dCanAccept = true → req.Scalar bound → s.dAccess req = .ok s' →
      PortRun n bound s₀ (evs ++ [.dAccess req]) s'
  | iAccess {evs : List (PortEvent τ)} {s s' : MemorySystem τ} {req : MemRequest τ} :
      PortRun n bound s₀ evs s → s.iCanAccept = true → req.Block n bound → s.iAccess req = .ok s' →
      PortRun n bound s₀ (evs ++ [.iAccess req]) s'
  | dPop {evs : List (PortEvent τ)} {s : MemorySystem τ} {r : MemResponse τ} :
      PortRun n bound s₀ evs s → s.dQueue.head? = some r →
      PortRun n bound s₀ (evs ++ [.dResponse r]) s.dPop
  | iPop {evs : List (PortEvent τ)} {s : MemorySystem τ} {r : MemResponse τ} :
      PortRun n bound s₀ evs s → s.iQueue.head? = some r →
      PortRun n bound s₀ (evs ++ [.iResponse r]) s.iPop

/-! ### Runs by evaluation -/

instance (bound : Nat) (req : MemRequest τ) : Decidable (req.Scalar bound) :=
  decidable_of_iff ((req.size = 1 ∨ req.size = 2 ∨ req.size = 4) ∧ req.addr % req.size = 0 ∧
    req.addr + req.size ≤ bound)
    ⟨fun h => ⟨h.1, h.2.1, h.2.2⟩, fun h => ⟨h.size, h.aligned, h.inside⟩⟩

instance (n bound : Nat) (req : MemRequest τ) : Decidable (req.Block n bound) :=
  decidable_of_iff (req.isWrite = false ∧ req.size = n ∧ req.addr % n = 0 ∧ req.addr + n ≤ bound)
    ⟨fun h => ⟨h.1, h.2.1, h.2.2.1, h.2.2.2⟩, fun h => ⟨h.read, h.size, h.aligned, h.inside⟩⟩

/-- What is done with the ports next. -/
inductive PortUse (τ : Type) where
  | tick
  | dAccess (req : MemRequest τ)
  | iAccess (req : MemRequest τ)
  | dPop
  | iPop

namespace MemorySystem

/-- The event and the state after it, where the ports allow this use. -/
def use (n bound : Nat) (s : MemorySystem τ) : PortUse τ → Option (PortEvent τ × MemorySystem τ)
  | .tick => s.tick.toOption.map fun s' => (.tick, s')
  | .dAccess req =>
      if s.dCanAccept = true ∧ req.Scalar bound then
        (s.dAccess req).toOption.map fun s' => (.dAccess req, s')
      else none
  | .iAccess req =>
      if s.iCanAccept = true ∧ req.Block n bound then
        (s.iAccess req).toOption.map fun s' => (.iAccess req, s')
      else none
  | .dPop => s.dQueue.head?.map fun r => (.dResponse r, s.dPop)
  | .iPop => s.iQueue.head?.map fun r => (.iResponse r, s.iPop)

/-- One use after the other, each where the ports allow it. -/
def uses (n bound : Nat) : List (PortUse τ) → List (PortEvent τ) → MemorySystem τ →
    Option (List (PortEvent τ) × MemorySystem τ)
  | [], evs, s => some (evs, s)
  | u :: us, evs, s => (s.use n bound u).bind fun r => uses n bound us (evs ++ [r.1]) r.2

/-- The caches, where there are any. -/
def caches : MemorySystem τ → Option (CacheHierarchy τ)
  | .flat _ => none
  | .cached m => some m

theorem eq_cached {s : MemorySystem τ} {m : CacheHierarchy τ} (h : s.caches = some m) : s = .cached m := by
  cases s with
  | flat m' => cases h
  | cached m' =>
      cases h
      rfl

end MemorySystem

section Eval

open MemorySystem

variable {n bound : Nat} {s₀ s s' : MemorySystem τ} {evs : List (PortEvent τ)} {ev : PortEvent τ}

theorem map_toOption_ok {x : Except Fatal (MemorySystem τ)} {ev' : PortEvent τ}
    (h : (x.toOption.map fun s => (ev', s)) = some (ev, s')) : x = .ok s' ∧ ev = ev' := by
  cases x with
  | error e => cases h
  | ok d =>
      cases h
      exact ⟨rfl, rfl⟩

/-- A use of the ports that the memory system allows extends its run. -/
theorem PortRun.use (h : PortRun n bound s₀ evs s) (u : PortUse τ)
    (hu : s.use n bound u = some (ev, s')) : PortRun n bound s₀ (evs ++ [ev]) s' := by
  cases u with
  | tick =>
      obtain ⟨hs, rfl⟩ := map_toOption_ok hu
      exact .tick h hs
  | dAccess req =>
      by_cases hc : s.dCanAccept = true ∧ req.Scalar bound
      · rw [MemorySystem.use, if_pos hc] at hu
        obtain ⟨hs, rfl⟩ := map_toOption_ok hu
        exact .dAccess h hc.1 hc.2 hs
      · rw [MemorySystem.use, if_neg hc] at hu
        cases hu
  | iAccess req =>
      by_cases hc : s.iCanAccept = true ∧ req.Block n bound
      · rw [MemorySystem.use, if_pos hc] at hu
        obtain ⟨hs, rfl⟩ := map_toOption_ok hu
        exact .iAccess h hc.1 hc.2 hs
      · rw [MemorySystem.use, if_neg hc] at hu
        cases hu
  | dPop =>
      obtain ⟨r, hr, he⟩ := Option.map_eq_some_iff.mp hu
      cases he
      exact .dPop h hr
  | iPop =>
      obtain ⟨r, hr, he⟩ := Option.map_eq_some_iff.mp hu
      cases he
      exact .iPop h hr

theorem PortRun.uses (us : List (PortUse τ)) : ∀ {evs evs' : List (PortEvent τ)} {s s' : MemorySystem τ},
    PortRun n bound s₀ evs s → MemorySystem.uses n bound us evs s = some (evs', s') →
    PortRun n bound s₀ evs' s' := by
  induction us with
  | nil =>
      intro evs evs' s s' h hu
      cases hu
      exact h
  | cons u us ih =>
      intro evs evs' s s' h hu
      obtain ⟨r, hr, hu⟩ := Option.bind_eq_some_iff.mp hu
      exact ih (h.use u hr) hu

/-- What an evaluation of the uses shows, some run has. -/
theorem PortRun.eval (n bound : Nat) (s₀ : MemorySystem τ) (us : List (PortUse τ))
    {p : List (PortEvent τ) → MemorySystem τ → Bool}
    (h : ((MemorySystem.uses n bound us [] s₀).any fun r => p r.1 r.2) = true) :
    ∃ evs s, PortRun n bound s₀ evs s ∧ p evs s = true := by
  obtain ⟨r, hr, hp⟩ := (Option.any_eq_true _ _).mp h
  exact ⟨r.1, r.2, PortRun.uses us .reset hr, hp⟩

end Eval

/-! ## What a run keeps -/

namespace MemorySystem

open Cache

/-- The newest byte at each address. -/
def newest : MemorySystem τ → Nat → Byte
  | .flat m => m.backing.bytes
  | .cached m => m.dataView

/-- The answers that the data port owes. -/
def owed : MemorySystem τ → Multiset (MemResponse τ)
  | .flat m => ↑m.dram.held
  | .cached m => m.dataOwed

/-- The invariant of either mode, with lines of `L` bytes. -/
def Ok (size L : Nat) (P same : Nat → Prop) (image : Nat → Byte) (asked : Multiset (MemRequest τ)) :
    MemorySystem τ → Prop
  | .flat m => m.backing.size = size ∧ (∀ a, same a → m.backing.bytes a = image a) ∧
      Multiset.Rel (Answers same image) asked ↑m.flatI.held
  | .cached m => m.backing.size = size ∧ m.l2.cfg.lineBytes = L ∧ m.HierOk P same image asked

/-- Fetch blocks and scalars do not cross lines, and lines of accessed bytes are allowed. -/
structure Grid (n bound L : Nat) (P : Nat → Prop) : Prop where
  block : n ∣ L
  scalar : 8 ∣ L
  top : bound ≤ 2 ^ 32
  blockPos : 1 ≤ n
  lines : ∀ a, a < bound → P (a - a % L)

/-- What the state of the memory system has to do with the events so far. -/
structure Tracks (size L : Nat) (P : Nat → Prop) (image : Nat → Byte) (evs : List (PortEvent τ))
    (s : MemorySystem τ) : Prop where
  newest : s.newest = memAfter image evs
  owed : dAnswers image evs = ↑(dResponses evs) + s.owed
  fetches : ∃ asked done, s.Ok size L P (unwritten evs) image asked ∧
    (↑(iRequests evs) : Multiset (MemRequest τ)) = done + asked ∧
    Multiset.Rel (Answers (unwritten evs) image) done ↑(iResponses evs)

section Steps

variable {size L n bound : Nat} {P same : Nat → Prop} {image : Nat → Byte}
  {asked : Multiset (MemRequest τ)} {s s' : MemorySystem τ} {req : MemRequest τ} {r : MemResponse τ}

/-- An aligned range of `k` bytes does not cross the end of a line. -/
theorem fits_of_aligned {c : Cache τ} {k : Nat} (hg : c.Geometry) (hk : k ∣ c.cfg.lineBytes)
    (hpos : 1 ≤ k) (ha : req.addr % k = 0) (hs : req.size = k) (htop : req.addr < 2 ^ 32)
    (hw : req.isWrite = true → k ≤ 4) : c.Fits req := by
  refine ⟨htop, by omega, ?_, fun h => .inl (by rw [hs]; exact hw h)⟩
  rw [offsetOf_eq hg, hs]
  obtain ⟨q, hq⟩ := hk
  have hdvd : k ∣ req.addr % c.cfg.lineBytes := by
    rw [hq]
    exact (Nat.dvd_mod_iff ⟨q, rfl⟩).mpr (Nat.dvd_of_mod_eq_zero ha)
  obtain ⟨p, hp⟩ := hdvd
  have hlt : req.addr % c.cfg.lineBytes < c.cfg.lineBytes := Nat.mod_lt _ (lineBytes_pos hg)
  rw [hp, hq] at hlt ⊢
  have hpq : p < q := Nat.lt_of_mul_lt_mul_left hlt
  calc k * p + k = k * (p + 1) := by ring
    _ ≤ k * q := Nat.mul_le_mul_left _ hpq

/-- A scalar access lies in one line, for its size divides the line's. -/
theorem Scalar.fits {c : Cache τ} (hg : c.Geometry) (h8 : 8 ∣ c.cfg.lineBytes)
    (h : req.Scalar bound) (htop : bound ≤ 2 ^ 32) : c.Fits req := by
  have hin := h.inside
  have hsize := h.size
  have hdvd : req.size ∣ 8 := by rcases hsize with hs | hs | hs <;> rw [hs] <;> decide
  exact fits_of_aligned hg (Nat.dvd_trans hdvd h8) (by omega) h.aligned rfl (by omega) fun _ => by omega

/-- A fetch block lies in one line, for its size divides the line's. -/
theorem Block.fits {c : Cache τ} (hg : c.Geometry) (hn : n ∣ c.cfg.lineBytes) (hpos : 1 ≤ n)
    (h : req.Block n bound) (htop : bound ≤ 2 ^ 32) : c.Fits req := by
  have hin := h.inside
  apply fits_of_aligned hg hn hpos h.aligned h.size (by omega)
  intro hw
  rw [h.read] at hw
  cases hw

theorem lineBase_eq_sub {c : Cache τ} (hg : c.Geometry) (a : Nat) :
    c.lineBase a = a - a % c.cfg.lineBytes := by
  rw [lineBase, offsetOf_eq hg]

/-- A tick changes neither the newest memory nor what is owed to the data port. -/
theorem Ok.tick (h : s.Ok size L P same image asked) (ht : s.tick = .ok s') :
    s'.Ok size L P same image asked ∧ s'.newest = s.newest ∧ s'.owed = s.owed := by
  cases s with
  | flat m =>
      cases ht
      obtain ⟨h1, h2, h3⟩ := h
      refine ⟨⟨h1, h2, ?_⟩, rfl, ?_⟩
      · show Multiset.Rel _ _ (↑m.flatI.tick.held : Multiset (MemResponse τ))
        rw [DRAM.held_tick]
        exact h3
      · show (↑m.dram.tick.held : Multiset (MemResponse τ)) = _
        rw [DRAM.held_tick]
        rfl
  | cached m =>
      obtain ⟨h1, h2, h3⟩ := h
      simp only [MemorySystem.tick] at ht
      split at ht
      · cases ht
      · rename_i m' hm'
        cases ht
        obtain ⟨h4, h5⟩ := h3.tick hm'
        exact ⟨⟨h5.size.trans h1, h5.line.trans h2, h4⟩, h5.view, h5.owed⟩

/-- An access to the data port changes the newest memory as the access says, and adds its answer to
what is owed. -/
theorem Ok.dAccess (hgrid : Grid n bound L P) (h : s.Ok size L P same image asked)
    (ha : s.dCanAccept = true) (hreq : req.Scalar bound) (hs : s.dAccess req = .ok s') :
    s'.Ok size L P (fun a => same a ∧ ¬(req.isWrite = true ∧ req.covers a)) image asked ∧
      s'.newest = req.apply s.newest ∧ s'.owed = req.answer s.newest ::ₘ s.owed := by
  cases s with
  | flat m =>
      obtain ⟨h1, h2, h3⟩ := h
      simp only [MemorySystem.dAccess, FlatMemory.dAccess] at hs
      split at hs
      · cases hs
      · rename_i m' hm'
        cases hs
        split at hm'
        · cases hm'
        · rename_i d backing hacc
          cases hm'
          obtain ⟨hsz, hbytes, hheld⟩ := DRAM.access_ok hacc
          refine ⟨⟨hsz.trans h1, fun a hsame => ?_, ?_⟩, hbytes, hheld⟩
          · show backing.bytes a = image a
            rw [hbytes, MemRequest.apply, if_neg hsame.2]
            exact h2 a hsame.1
          · exact h3.mono fun q _ r _ hqr => ⟨hqr.tag, hqr.src, fun b hb hsb => hqr.bytes b hb hsb.1⟩
  | cached m =>
      obtain ⟨h1, h2, h3⟩ := h
      cases hs
      have hg := h3.l1d.arrays.geometry
      have hline : m.l1d.cfg.lineBytes = L := h3.lineD.trans h2
      have hfit : m.l1d.Fits req := Scalar.fits hg (hline ▸ hgrid.scalar) hreq hgrid.top
      have hin := hreq.inside
      have hsize := hreq.size
      have hP : P (m.l1d.lineBase req.addr) := by
        rw [lineBase_eq_sub hg, hline]
        exact hgrid.lines _ (by omega)
      obtain ⟨h4, h5, h6⟩ := h3.dAccess ha hfit hP rfl
      exact ⟨⟨h1, h2, h4⟩, h5, h6⟩

theorem Ok.iAccess (hgrid : Grid n bound L P) (h : s.Ok size L P same image asked)
    (ha : s.iCanAccept = true) (hreq : req.Block n bound) (hs : s.iAccess req = .ok s') :
    s'.Ok size L P same image (req ::ₘ asked) ∧ s'.newest = s.newest ∧ s'.owed = s.owed := by
  cases s with
  | flat m =>
      obtain ⟨h1, h2, h3⟩ := h
      simp only [MemorySystem.iAccess, FlatMemory.iAccess] at hs
      split at hs
      · cases hs
      · rename_i m' hm'
        cases hs
        split at hm'
        · cases hm'
        · rename_i d backing hacc
          cases hm'
          obtain ⟨hsz, hbytes, hheld⟩ := DRAM.access_ok hacc
          -- a fetch is a read: memory stays as it is
          have happly : req.apply m.backing.bytes = m.backing.bytes := by
            funext a
            unfold MemRequest.apply
            rw [if_neg (by simp [hreq.read])]
          rw [happly] at hbytes
          refine ⟨⟨hsz.trans h1, fun a hsame => ?_, ?_⟩, hbytes, rfl⟩
          · show backing.bytes a = image a
            rw [hbytes]
            exact h2 a hsame
          · show Multiset.Rel _ _ (↑d.held : Multiset (MemResponse τ))
            rw [hheld]
            refine .cons ⟨MemRequest.answer_tag _ _, MemRequest.answer_src _ _, fun b hb hsb => ?_⟩ h3
            rw [MemRequest.answer_byte hreq.read hb]
            exact h2 _ hsb
  | cached m =>
      obtain ⟨h1, h2, h3⟩ := h
      cases hs
      have hg := h3.l1i.arrays.geometry
      -- the block that is fetched lies in one line of L1I
      have hline : m.l1i.cfg.lineBytes = L := h3.lineI.trans h2
      have hfit : m.l1i.Fits req :=
        Block.fits hg (hline ▸ hgrid.block) hgrid.blockPos hreq hgrid.top
      have hin := hreq.inside
      have hpos := hgrid.blockPos
      have hP : P (m.l1i.lineBase req.addr) := by
        rw [lineBase_eq_sub hg, hline]
        exact hgrid.lines _ (by omega)
      obtain ⟨h4, h5⟩ := h3.iAccess ha hfit hreq.read hP rfl
      exact ⟨⟨h1, h2, h4⟩, h5.view, h5.owed⟩

/-- Popping an answer takes it off what is owed, and changes the memory no further. -/
theorem Ok.dPop (h : s.Ok size L P same image asked) (hq : s.dQueue.head? = some r) :
    s.dPop.Ok size L P same image asked ∧ s.dPop.newest = s.newest ∧ s.owed = r ::ₘ s.dPop.owed := by
  cases s with
  | flat m =>
      obtain ⟨rest, hrest⟩ := List.head?_eq_some_iff.mp (show m.dram.respQ.head? = some r from hq)
      refine ⟨h, rfl, ?_⟩
      show (↑m.dram.held : Multiset (MemResponse τ)) = r ::ₘ ↑m.dram.popResponse.held
      rw [Multiset.cons_coe]
      congr 1
      simp [DRAM.held, DRAM.popResponse, hrest]
  | cached m =>
      obtain ⟨h1, h2, h3⟩ := h
      obtain ⟨h4, h5, h6⟩ := h3.dPop hq rfl
      exact ⟨⟨h1, h2, h4⟩, h5, h6⟩

/-- Popping a fetched block answers one of the requests that were made. -/
theorem Ok.iPop (h : s.Ok size L P same image asked) (hq : s.iQueue.head? = some r) :
    ∃ q rest, asked = q ::ₘ rest ∧ Answers same image q r ∧ s.iPop.Ok size L P same image rest ∧
      s.iPop.newest = s.newest ∧ s.iPop.owed = s.owed := by
  cases s with
  | flat m =>
      obtain ⟨h1, h2, h3⟩ := h
      obtain ⟨rs, hrs⟩ := List.head?_eq_some_iff.mp (show m.flatI.respQ.head? = some r from hq)
      have hheld : (↑m.flatI.held : Multiset (MemResponse τ)) = r ::ₘ ↑m.flatI.popResponse.held := by
        rw [Multiset.cons_coe]
        congr 1
        simp [DRAM.held, DRAM.popResponse, hrs]
      rw [hheld, Multiset.rel_cons_right] at h3
      obtain ⟨q, rest, hqr, hrel, hasked⟩ := h3
      exact ⟨q, rest, hasked, hqr, ⟨h1, h2, hrel⟩, rfl, rfl⟩
  | cached m =>
      obtain ⟨h1, h2, h3⟩ := h
      obtain ⟨q, rest, h4, h5, h6, h7⟩ := h3.iPop hq rfl
      exact ⟨q, rest, h4, h5, ⟨h1, h2, h6⟩, h7.view, h7.owed⟩

theorem Ok.mono {same' : Nat → Prop} (h : s.Ok size L P same image asked) (hs : ∀ a, same' a ↔ same a) :
    s.Ok size L P same' image asked := by
  have : same' = same := funext fun a => propext (hs a)
  rw [this]
  exact h

end Steps

/-! ## Runs -/

section Runs

variable {size L n bound : Nat} {P : Nat → Prop} {image : Nat → Byte} {s₀ s : MemorySystem τ}
  {evs : List (PortEvent τ)}

/-- An event that is no access of the data port writes nothing and asks the port for nothing. -/
theorem Tracks.other {s' : MemorySystem τ} {e : PortEvent τ} (ht : Tracks size L P image evs s)
    (he : ∀ req, e ≠ .dAccess req) (hnew : s'.newest = s.newest)
    (howed : s.owed = ↑(dResponses [e]) + s'.owed)
    (hfetches : ∃ asked done, s'.Ok size L P (unwritten evs) image asked ∧
      (↑(iRequests (evs ++ [e])) : Multiset (MemRequest τ)) = done + asked ∧
      Multiset.Rel (Answers (unwritten evs) image) done ↑(iResponses (evs ++ [e]))) :
    Tracks size L P image (evs ++ [e]) s' := by
  obtain ⟨asked, done, hok, hreqs, hrel⟩ := hfetches
  have hun : ∀ a, unwritten (evs ++ [e]) a ↔ unwritten evs a := unwritten_other he
  refine ⟨?_, ?_, asked, done, hok.mono hun, hreqs, ?_⟩
  · rw [hnew, ht.newest, memAfter_append]
    cases e with
    | dAccess req => exact absurd rfl (he req)
    | tick => rfl
    | iAccess req => rfl
    | dResponse r => rfl
    | iResponse r => rfl
  · have happ : dResponses (evs ++ [e]) = dResponses evs ++ dResponses [e] := List.filterMap_append
    rw [dAnswers_other he, ht.owed, howed, happ, ← Multiset.coe_add, add_assoc]
  · rw [funext fun a => propext (hun a)]
    exact hrel

/-- Over every run of the ports the memory system holds the memory that the accesses so far make,
and owes their answers. By induction on the run. -/
theorem PortRun.tracks (hgrid : Grid n bound L P)
    (h₀ : s₀.Ok size L P (fun _ => True) image 0 ∧ s₀.newest = image ∧ s₀.owed = 0)
    (h : PortRun n bound s₀ evs s) : Tracks size L P image evs s := by
  -- on the events, with the fetches asked for and answered so far
  induction h with
  | reset =>
      refine ⟨h₀.2.1, ?_, 0, 0, h₀.1.mono fun a => ?_, rfl, .zero⟩
      · rw [h₀.2.2]
        rfl
      · exact ⟨fun _ => trivial, fun _ req hreq => by cases hreq⟩
  | @tick evs s s' _ ht ih =>
      obtain ⟨asked, done, hok, hreqs, hrel⟩ := ih.fetches
      obtain ⟨h1, h2, h3⟩ := hok.tick ht
      refine ih.other (fun _ => nofun) h2 (h3.symm.trans (zero_add _).symm) ⟨asked, done, h1, ?_, ?_⟩
      · rw [← hreqs]
        simp [iRequests]
      · simpa [iResponses] using hrel
  | @dAccess evs s s' req _ ha hreq hs ih =>
      obtain ⟨asked, done, hok, hreqs, hrel⟩ := ih.fetches
      obtain ⟨h1, h2, h3⟩ := hok.dAccess hgrid ha hreq hs
      -- a byte that is written now is one the fetches are promised nothing about
      have hun : ∀ a, unwritten (evs ++ [.dAccess req]) a ↔
          unwritten evs a ∧ ¬(req.isWrite = true ∧ req.covers a) := fun a => by
        rw [unwritten_append]
        exact ⟨fun h => ⟨h.1, h.2 req rfl⟩, fun h => ⟨h.1, by rintro _ ⟨rfl⟩; exact h.2⟩⟩
      refine ⟨?_, ?_, asked, done, h1.mono hun, ?_, ?_⟩
      · rw [h2, ih.newest, memAfter_append]
        rfl
      · rw [dAnswers_access, ih.owed, h3, ih.newest]
        simp [dResponses]
      · rw [← hreqs]
        simp [iRequests]
      · -- fewer bytes are promised to the fetches on their way
        have hmono := hrel.mono (p := Answers (unwritten (evs ++ [.dAccess req])) image)
          fun q _ r _ hqr => ⟨hqr.tag, hqr.src, fun b hb hsb => hqr.bytes b hb ((hun _).mp hsb).1⟩
        simpa [iResponses] using hmono
  | @iAccess evs s s' req _ ha hreq hs ih =>
      obtain ⟨asked, done, hok, hreqs, hrel⟩ := ih.fetches
      obtain ⟨h1, h2, h3⟩ := hok.iAccess hgrid ha hreq hs
      refine ih.other (fun _ => nofun) h2 (h3.symm.trans (zero_add _).symm) ⟨req ::ₘ asked, done, h1, ?_, ?_⟩
      · rw [Multiset.add_cons, ← hreqs, iRequests, List.filterMap_append, ← Multiset.coe_add, add_comm]
        rfl
      · simpa [iResponses] using hrel
  | @dPop evs s r _ hq ih =>
      obtain ⟨asked, done, hok, hreqs, hrel⟩ := ih.fetches
      obtain ⟨h1, h2, h3⟩ := hok.dPop hq
      refine ih.other (fun _ => nofun) h2 h3 ⟨asked, done, h1, ?_, ?_⟩
      · rw [← hreqs]
        simp [iRequests]
      · simpa [iResponses] using hrel
  | @iPop evs s r _ hq ih =>
      obtain ⟨asked, done, hok, hreqs, hrel⟩ := ih.fetches
      obtain ⟨q, rest, hasked, hqr, h1, h2, h3⟩ := hok.iPop hq
      refine ih.other (fun _ => nofun) h2 (h3.symm.trans (zero_add _).symm) ⟨rest, q ::ₘ done, h1, ?_, ?_⟩
      · rw [Multiset.cons_add, ← Multiset.add_cons, ← hasked, ← hreqs]
        simp [iRequests]
      · rw [iResponses, List.filterMap_append, ← Multiset.coe_add, add_comm]
        exact .cons hqr hrel

end Runs

end MemorySystem

end RvO3
