import RvO3.Core.Accesses

/-!
# Overlapping accesses

`overlaps` adds in 32 bits. Below 2 ^ 32 bytes of memory no access that passes the fault
check ends at the wrap, and it says exactly whether two such accesses share a byte; an
access that ends at 2 ^ 32 it finds to touch nothing. The violation scan and the search for
an older store are exact under the same condition.
-/

set_option autoImplicit false

namespace RvO3

open OoOCore

/-! ## Two accesses -/

/-- The ranges of `m` bytes at `a` and `n` bytes at `b` have a byte in common. -/
def SharesByte (a m b n : Nat) : Prop := ∃ x, (a ≤ x ∧ x < a + m) ∧ b ≤ x ∧ x < b + n

/-- An access that passes the fault check. -/
structure Sound (memBytes : Nat) (a : Word) (m : Nat) : Prop where
  size : m = 1 ∨ m = 2 ∨ m = 4
  noFault : faultOf memBytes a m = 0

/-- `overlaps` says whether two accesses inside memory share a byte. -/
def OverlapsExact (memBytes : Nat) : Prop :=
  ∀ a b m n, Sound memBytes a m → Sound memBytes b n →
    (overlaps a m b n = true ↔ SharesByte a.toNat m b.toNat n)

theorem sharesByte_iff {a m b n : Nat} (hm : 0 < m) (hn : 0 < n) :
    SharesByte a m b n ↔ a < b + n ∧ b < a + m := by
  constructor
  · rintro ⟨x, ⟨h1, h2⟩, h3, h4⟩
    omega
  · rintro ⟨h1, h2⟩
    rcases Nat.le_total a b with h | h
    · exact ⟨b, ⟨h, h2⟩, Nat.le_refl b, by omega⟩
    · exact ⟨a, ⟨Nat.le_refl a, by omega⟩, h, h1⟩

theorem Sound.inside {memBytes m : Nat} {a : Word} (h : Sound memBytes a m) :
    a.toNat % m = 0 ∧ a.toNat + m ≤ memBytes := faultOf_eq_zero.mp h.noFault

/-- Without a wrap the comparison is the one on naturals. -/
theorem overlaps_iff {a b : Word} {m n : Nat} (ha : a.toNat + m < 2 ^ 32) (hb : b.toNat + n < 2 ^ 32) :
    overlaps a m b n = true ↔ a.toNat < b.toNat + n ∧ b.toNat < a.toNat + m := by
  have hm : (a + BitVec.ofNat 32 m).toNat = a.toNat + m := by
    rw [BitVec.toNat_add, BitVec.toNat_ofNat]
    omega
  have hn : (b + BitVec.ofNat 32 n).toNat = b.toNat + n := by
    rw [BitVec.toNat_add, BitVec.toNat_ofNat]
    omega
  unfold overlaps
  rw [Bool.and_eq_true, BitVec.ult_eq_decide, BitVec.ult_eq_decide, hm, hn, decide_eq_true_eq,
    decide_eq_true_eq]
  exact And.comm

theorem overlapsExact {memBytes : Nat} (h : memBytes < 2 ^ 32) : OverlapsExact memBytes := by
  intro a b m n ha hb
  have hain := ha.inside
  have hbin := hb.inside
  have hm := ha.size
  have hn := hb.size
  rw [overlaps_iff (by omega) (by omega), sharesByte_iff (by omega) (by omega)]

/-- A word at the top of the address space, and a byte inside it. -/
theorem overlaps_wraps : Sound (2 ^ 32) 0xFFFFFFFC#32 4 ∧ Sound (2 ^ 32) 0xFFFFFFFD#32 1 ∧
    SharesByte (0xFFFFFFFC#32).toNat 4 (0xFFFFFFFD#32).toNat 1 ∧
    overlaps 0xFFFFFFFC#32 4 0xFFFFFFFD#32 1 = false :=
  ⟨⟨by decide, by decide⟩, ⟨by decide, by decide⟩, ⟨0xFFFFFFFD, by decide⟩, by decide⟩

/-- A larger memory admits the accesses of a smaller one. -/
theorem Sound.mono {memBytes memBytes' m : Nat} {a : Word} (h : Sound memBytes a m)
    (hle : memBytes ≤ memBytes') : Sound memBytes' a m := by
  have hin := h.inside
  exact ⟨h.size, faultOf_eq_zero.mpr ⟨hin.1, Nat.le_trans hin.2 hle⟩⟩

theorem overlapsExact_iff {memBytes : Nat} : OverlapsExact memBytes ↔ memBytes < 2 ^ 32 := by
  refine ⟨fun h => ?_, overlapsExact⟩
  rw [← Nat.not_le]
  intro hbig
  obtain ⟨ha, hb, hshare, hno⟩ := overlaps_wraps
  have htrue := (h _ _ _ _ (ha.mono hbig) (hb.mono hbig)).mpr hshare
  rw [hno] at htrue
  cases htrue

/-! ## The scan and the search -/

/-- What the violation scan asks of a load. -/
def scanHits (store le : LsqEntry) : Bool :=
  decide (le.seq > store.seq) && overlaps store.addr store.size le.addr le.size

theorem violationVictim_eq {M : Type} (c : OoOCore M) (store : LsqEntry) : c.violationVictim store =
    c.lsq.visitAccessedLoads.find? fun slot => scanHits store (c.lsq.at' slot) := rfl

/-- A live memory operation with a known address and no fault. -/
structure OoOCore.Clean {M : Type} (c : OoOCore M) (j : Nat) : Prop where
  live : j ∈ c.lsq.ring.slots
  known : (c.lsq.at' j).addrValid = true
  noFault : (c.rob.e (c.lsq.at' j).robIdx).fault = 0

/-- Two LSQ entries share a byte. -/
def LsqEntry.Meets (le le' : LsqEntry) : Prop :=
  SharesByte le.addr.toNat le.size le'.addr.toNat le'.size

/-- The violation scan for the store at slot `s` is exact. -/
structure ScanExact {M : Type} (c : OoOCore M) (s : Nat) : Prop where
  hits : ∀ l, c.Clean l → (c.lsq.at' l).isAccessed = true → (c.lsq.at' s).seq < (c.lsq.at' l).seq →
    (scanHits (c.lsq.at' s) (c.lsq.at' l) = true ↔ (c.lsq.at' s).Meets (c.lsq.at' l))
  /-- The victim is a younger accessed load and, if it has no fault, shares a byte. -/
  victim : ∀ v, c.violationVictim (c.lsq.at' s) = some v → v ∈ c.lsq.ring.slots ∧
    (c.lsq.at' v).isAccessed = true ∧ (c.lsq.at' s).seq < (c.lsq.at' v).seq ∧
    (c.Clean v → (c.lsq.at' s).Meets (c.lsq.at' v))
  /-- Every such load that shares a byte is squashed with the victim. -/
  found : ∀ l, c.Clean l → (c.lsq.at' l).isAccessed = true → (c.lsq.at' s).seq < (c.lsq.at' l).seq →
    (c.lsq.at' s).Meets (c.lsq.at' l) →
    ∃ v, c.violationVictim (c.lsq.at' s) = some v ∧ (c.lsq.at' v).seq ≤ (c.lsq.at' l).seq

/-- The search for an older store to the load at slot `l` stops where a byte is shared. -/
structure SearchExact {M : Type} (c : OoOCore M) (l : Nat) : Prop where
  lsq : ∀ s, c.Clean s → (olderStore (c.lsq.at' l) (c.lsq.at' s).addr (c.lsq.at' s).size
    (c.lsq.at' s).dataReady (c.lsq.at' s).data ≠ none ↔ (c.lsq.at' s).Meets (c.lsq.at' l))
  /-- The word filter skips no such store. -/
  words : ∀ s, c.Clean s → (c.lsq.at' s).isStore = true → (c.lsq.at' s).Meets (c.lsq.at' l) →
    c.lsq.mayStoreToWord (c.lsq.at' l).addr = true
  sb : ∀ st ∈ c.sb.ring.entries, (olderStore (c.lsq.at' l) st.addr st.size true st.data ≠ none ↔
    SharesByte st.addr.toNat st.size (c.lsq.at' l).addr.toNat (c.lsq.at' l).size)

section Searches

variable {M : Type} [MemPorts Nat M] {cfg : SimConfig} {c : OoOCore M} {memBytes : Nat}

omit [MemPorts Nat M] in
theorem OoOCore.Clean.sound {j : Nat} (h : c.Clean j) (hk : AddrsKnown memBytes c.rob c.lsq) :
    Sound memBytes (c.lsq.at' j).addr (c.lsq.at' j).size := by
  obtain ⟨h1, h2⟩ := hk j h.live h.known
  refine ⟨?_, h2.symm.trans h.noFault⟩
  rw [h1]
  exact accessSize_cases _

/-- The search stops at a store exactly when it shares a byte. -/
theorem olderStore_iff {le : LsqEntry} {addr data : Word} {size : Nat} {ready : Bool}
    (hx : OverlapsExact memBytes) (hle : Sound memBytes le.addr le.size)
    (hst : Sound memBytes addr size) :
    olderStore le addr size ready data ≠ none ↔ SharesByte addr.toNat size le.addr.toNat le.size := by
  have hiff := hx _ _ _ _ hst hle
  have hsize := hle.size
  unfold olderStore
  split
  · rename_i hexact
    rw [hexact.1, hexact.2, sharesByte_iff (by omega) (by omega)]
    simp only [ne_eq, reduceCtorEq, not_false_eq_true, true_iff]
    omega
  · split
    · rename_i ho
      simpa using hiff.mp ho
    · rename_i ho
      simpa using fun hs => ho (hiff.mpr hs)

/-- A byte of an aligned access lies in its word. -/
theorem Sound.sameWord {a b : Word} {m n : Nat} (ha : Sound memBytes a m) (hb : Sound memBytes b n)
    (hs : SharesByte a.toNat m b.toNat n) : a.toNat / 4 = b.toNat / 4 := by
  have hin := ha.inside.1
  have hin' := hb.inside.1
  obtain ⟨x, h1, h2⟩ := hs
  rcases ha.size with rfl | rfl | rfl <;> rcases hb.size with rfl | rfl | rfl <;> omega

theorem word_eq {a b : Word} (h : a.toNat / 4 = b.toNat / 4) : a >>> 2 = b >>> 2 := by
  apply BitVec.eq_of_toNat_eq
  simp only [BitVec.toNat_ushiftRight, Nat.shiftRight_eq_div_pow]
  exact h

omit [MemPorts Nat M] in
theorem scanExact (ho : c.lsq.Ordered) (hk : AddrsKnown memBytes c.rob c.lsq) (hmem : memBytes < 2 ^ 32)
    {s : Nat} (hs : c.Clean s) : ScanExact c s := by
  have hx := overlapsExact hmem
  have hvis := ho.workSetsExact.accessed
  have hhits : ∀ l, c.Clean l → (c.lsq.at' s).seq < (c.lsq.at' l).seq →
      (scanHits (c.lsq.at' s) (c.lsq.at' l) = true ↔ (c.lsq.at' s).Meets (c.lsq.at' l)) := by
    intro l hl hlt
    unfold scanHits
    rw [Bool.and_eq_true, decide_eq_true_eq]
    exact (and_iff_right hlt).trans (hx _ _ _ _ (hs.sound hk) (hl.sound hk))
  refine ⟨fun l hl _ hlt => hhits l hl hlt, fun v hv => ?_, fun l hl hacc hlt hmeet => ?_⟩
  · rw [violationVictim_eq, hvis] at hv
    have hp := List.find?_some hv
    obtain ⟨hmem', hacc⟩ := List.mem_filter.mp (List.mem_of_find?_eq_some hv)
    have hlt : (c.lsq.at' s).seq < (c.lsq.at' v).seq := by
      unfold scanHits at hp
      rw [Bool.and_eq_true, decide_eq_true_eq] at hp
      exact hp.1
    exact ⟨hmem', hacc, hlt, fun hcl => (hhits v hcl hlt).mp hp⟩
  · rw [violationVictim_eq, hvis]
    have hhit := (hhits l hl hlt).mpr hmeet
    have hin : l ∈ c.lsq.ring.slots.filter fun j => (c.lsq.at' j).isAccessed :=
      List.mem_filter.mpr ⟨hl.live, hacc⟩
    -- the visit is in program order, so the first hit is the oldest
    cases hf : List.find? (fun slot => scanHits (c.lsq.at' s) (c.lsq.at' slot))
        (c.lsq.ring.slots.filter fun j => (c.lsq.at' j).isAccessed) with
    | none => exact absurd hhit (by simpa using List.find?_eq_none.mp hf l hin)
    | some v =>
        refine ⟨v, rfl, ?_⟩
        obtain ⟨-, as, bs, hsplit, hbefore⟩ := List.find?_eq_some_iff_append.mp hf
        have hsort : ((c.lsq.ring.slots.filter fun j => (c.lsq.at' j).isAccessed).map
            fun j => (c.lsq.at' j).seq).Pairwise (· < ·) := ho.sorted.sublist (List.filter_sublist.map _)
        rw [hsplit] at hin hsort
        rcases List.mem_append.mp hin with hin | hin
        · have hno := hbefore l hin
          rw [hhit] at hno
          cases hno
        · rcases List.mem_cons.mp hin with rfl | hin
          · exact Nat.le_refl _
          · rw [List.map_append, List.map_cons, List.pairwise_append] at hsort
            have hhead := List.rel_of_pairwise_cons hsort.2.1 (List.mem_map_of_mem hin)
            exact Nat.le_of_lt hhead

omit [MemPorts Nat M] in
theorem searchExact (ho : c.lsq.Ordered) (hk : AddrsKnown memBytes c.rob c.lsq)
    (hsb : StoresLegal memBytes c.sb) (hmem : memBytes < 2 ^ 32) {l : Nat} (hl : c.Clean l) :
    SearchExact c l := by
  have hx := overlapsExact hmem
  have hsound := hl.sound hk
  refine ⟨fun s hs => olderStore_iff hx hsound (hs.sound hk), fun s hs hst hmeet => ?_, fun st hst => ?_⟩
  · rw [← Bool.not_eq_false]
    intro hno
    refine ho.workSetsExact.wordFilter _ hno s hs.live ?_ ?_
    · rw [LsqEntry.isKnownStore, hst, hs.known]
      rfl
    · have hw := (hs.sound hk).sameWord hsound hmeet
      have hsize := (hs.sound hk).size
      exact ⟨0, by omega, by rw [BitVec.add_zero]; exact word_eq hw⟩
  · have hleg := hsb st hst
    exact olderStore_iff hx hsound ⟨hleg.size, faultOf_eq_zero.mpr ⟨hleg.aligned, hleg.inside⟩⟩

end Searches

/-! ## In a run -/

section Run

variable {cfg : SimConfig}

/-- In every state of a run the scan is exact for a store whose address has just resolved, and
the search for an older store is exact for every load; faulting accesses apart. -/
structure SearchesExact (c : OoOCore (MemorySystem Nat)) : Prop where
  scan : ∀ i, c.readyAgu = some i → (c.fillOne i).Clean (c.agus[i]?.getD default).out.lsqIdx →
    ScanExact (c.fillOne i) (c.agus[i]?.getD default).out.lsqIdx
  search : ∀ l, c.Clean l → SearchExact c l

/-- `overlaps` and the searches that use it are exact for memories below 2 ^ 32 bytes, and for no
larger one. In these an access that ends at the last address has an end of zero. -/
theorem overlaps_exact (hcfg : cfg.Accepted) (frames : Bool) (inputs : Nat → Word)
    (histLen : Nat → Nat) (image : Nat → Byte) :
    (OverlapsExact cfg.memBytes ∧
      ∀ c, Actions (OoOCore.init cfg frames inputs histLen (MemorySystem.init cfg image)) c →
        SearchesExact c) ↔ cfg.memBytes < 2 ^ 32 := by
  refine ⟨fun h => overlapsExact_iff.mp h.1, fun hmem => ⟨overlapsExact hmem, fun c hc => ?_⟩⟩
  have hok := hc.accessesOk hcfg MemorySystem.keepsSize (MemorySystem.memSize_init cfg image)
  refine ⟨fun i hi hs => ?_, fun l hl => searchExact hok.lsq hok.addrs hok.stores hmem hl⟩
  have ho : (c.fillOne i).lsq.Ordered :=
    LsqSteps.preserve (I := LSQ.Ordered) (fun _ ha hq => hq.run ha)
      (fillOne_once hok.core.back hi).to_reflTransGen hok.lsq
  exact scanExact ho (hok.addrs.fillOne hok.core.back hok.size hi) hmem hs

theorem overlaps_exact_default : OverlapsExact defaultConfig.memBytes :=
  ((overlaps_exact defaultConfig_accepted false (fun _ => 0) (fun _ => 0) fun _ => 0).mpr (by decide)).1

/-- The default machine with the whole address space as memory. -/
def fullConfig : SimConfig := { defaultConfig with memBytes := 2 ^ 32 }

/-- At the top of a memory of 2 ^ 32 bytes a byte load does not see that it reads the word just
stored there. -/
theorem top_word_overlaps_nothing : validateConfig fullConfig = .ok fullConfig ∧
    Sound fullConfig.memBytes 0xFFFFFFFC#32 4 ∧ Sound fullConfig.memBytes 0xFFFFFFFD#32 1 ∧
    ¬ (overlaps 0xFFFFFFFC#32 4 0xFFFFFFFD#32 1 = true ↔
      SharesByte (0xFFFFFFFC#32).toNat 4 (0xFFFFFFFD#32).toNat 1) := by
  obtain ⟨ha, hb, hs, hno⟩ := overlaps_wraps
  refine ⟨by decide, ha, hb, fun h => ?_⟩
  rw [h.mpr hs] at hno
  cases hno

end Run

end RvO3
