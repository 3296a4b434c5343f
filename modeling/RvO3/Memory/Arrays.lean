import RvO3.Memory.Cache
import Mathlib.Data.Nat.Bitwise
import Mathlib.Tactic.Ring

/-!
# The arrays of a cache as a map from line addresses

A line address determines a set and a tag, and the set and the tag determine it. So the
arrays are a partial map from line addresses to indices (`slotOf`), and serving a hit,
installing a line and evicting a victim are one-point changes of that map.
-/

set_option autoImplicit false

namespace RvO3

namespace Cache

variable {τ : Type}

/-! ## Address geometry -/

/-- Lines of `2 ^ lineShift` bytes, of at least 8 and at most 128, in a power-of-two
number of sets. -/
structure Geometry (c : Cache τ) : Prop where
  lineBytes : c.cfg.lineBytes = 2 ^ c.lineShift
  sets : c.sets = 2 ^ (c.tagShift - c.lineShift)
  shifts : c.lineShift ≤ c.tagShift
  lineMin : 3 ≤ c.lineShift
  lineMax : c.lineShift ≤ 7
  tagMax : c.tagShift ≤ 32
  ways : 1 ≤ c.cfg.ways

/-- The address of a line. -/
def IsLine (c : Cache τ) (a : Nat) : Prop := c.lineBase a = a ∧ a < 2 ^ 32

section Geometry

variable {c : Cache τ}

theorem offsetOf_eq (hg : c.Geometry) (a : Nat) : c.offsetOf a = a % c.cfg.lineBytes := by
  rw [offsetOf, hg.lineBytes, Nat.and_two_pow_sub_one_eq_mod]

theorem lineBytes_pos (hg : c.Geometry) : 0 < c.cfg.lineBytes := by
  rw [hg.lineBytes]
  exact Nat.two_pow_pos _

theorem eight_le (hg : c.Geometry) : 8 ≤ c.cfg.lineBytes := by
  rw [hg.lineBytes]
  exact Nat.pow_le_pow_right (n := 2) (by decide) hg.lineMin

theorem offset_lt (hg : c.Geometry) (a : Nat) : c.offsetOf a < c.cfg.lineBytes := by
  rw [offsetOf_eq hg]
  exact Nat.mod_lt _ (lineBytes_pos hg)

theorem lineBase_eq (hg : c.Geometry) (a : Nat) :
    c.lineBase a = c.cfg.lineBytes * (a / c.cfg.lineBytes) := by
  have h := Nat.div_add_mod a c.cfg.lineBytes
  rw [lineBase, offsetOf_eq hg]
  omega

/-- An address is the base of its line and its offset in it. -/
theorem lineBase_add_offset (hg : c.Geometry) (a : Nat) : c.lineBase a + c.offsetOf a = a := by
  have h := Nat.mod_le a c.cfg.lineBytes
  rw [lineBase, offsetOf_eq hg]
  omega

theorem lineBase_le (c : Cache τ) (a : Nat) : c.lineBase a ≤ a := Nat.sub_le _ _

/-- Every byte of a line has that line's address as its base. -/
theorem lineBase_add (hg : c.Geometry) {la : Nat} (hl : c.lineBase la = la) {b : Nat}
    (hb : b < c.cfg.lineBytes) : c.lineBase (la + b) = la ∧ c.offsetOf (la + b) = b := by
  rw [lineBase_eq hg] at hl
  have hdiv : (la + b) / c.cfg.lineBytes = la / c.cfg.lineBytes := by
    rw [← hl, Nat.mul_add_div (lineBytes_pos hg), Nat.div_eq_of_lt hb,
      Nat.mul_div_cancel_left _ (lineBytes_pos hg), Nat.add_zero]
  have hbase : c.lineBase (la + b) = la := by rw [lineBase_eq hg, hdiv, hl]
  refine ⟨hbase, ?_⟩
  have h := lineBase_add_offset hg (la + b)
  omega

theorem lineBase_lineBase (hg : c.Geometry) (a : Nat) : c.lineBase (c.lineBase a) = c.lineBase a := by
  have h := lineBase_eq hg a
  rw [lineBase_eq hg (c.lineBase a), h, Nat.mul_div_cancel_left _ (lineBytes_pos hg)]

/-- The base of an address is the base of a line. -/
theorem isLine_lineBase (hg : c.Geometry) {a : Nat} (ha : a < 2 ^ 32) : c.IsLine (c.lineBase a) :=
  ⟨lineBase_lineBase hg a, Nat.lt_of_le_of_lt (lineBase_le c a) ha⟩

/-- The bytes of a line lie below the top of the address space. -/
theorem IsLine.end_le (hg : c.Geometry) {la : Nat} (h : c.IsLine la) :
    la + c.cfg.lineBytes ≤ 2 ^ 32 := by
  have hl := h.1
  have hlt := h.2
  rw [lineBase_eq hg] at hl
  have hpow : 2 ^ 32 = c.cfg.lineBytes * 2 ^ (32 - c.lineShift) := by
    rw [hg.lineBytes, ← Nat.pow_add, Nat.add_sub_cancel' (Nat.le_trans hg.lineMax (by decide))]
  rw [hpow] at hlt ⊢
  rw [← hl] at hlt ⊢
  have hq : la / c.cfg.lineBytes < 2 ^ (32 - c.lineShift) := Nat.lt_of_mul_lt_mul_left hlt
  calc c.cfg.lineBytes * (la / c.cfg.lineBytes) + c.cfg.lineBytes
      = c.cfg.lineBytes * (la / c.cfg.lineBytes + 1) := by ring
    _ ≤ c.cfg.lineBytes * 2 ^ (32 - c.lineShift) := Nat.mul_le_mul_left _ hq

theorem setOf_eq (hg : c.Geometry) (a : Nat) : c.setOf a = a / c.cfg.lineBytes % c.sets := by
  rw [setOf, hg.sets, Nat.and_two_pow_sub_one_eq_mod, Nat.shiftRight_eq_div_pow, hg.lineBytes]

theorem tagOf_eq (hg : c.Geometry) (a : Nat) : c.tagOf a = a / c.cfg.lineBytes / c.sets := by
  rw [tagOf, Nat.shiftRight_eq_div_pow, hg.lineBytes, hg.sets, Nat.div_div_eq_div_mul, ← Nat.pow_add,
    Nat.add_sub_cancel' hg.shifts]

theorem setOf_lt (hg : c.Geometry) (a : Nat) : c.setOf a < c.sets := by
  rw [setOf_eq hg]
  apply Nat.mod_lt _
  rw [hg.sets]
  exact Nat.two_pow_pos _

/-- The set and the tag of an address determine its line. -/
theorem lineBase_inj (hg : c.Geometry) {a b : Nat} (hs : c.setOf a = c.setOf b)
    (ht : c.tagOf a = c.tagOf b) : c.lineBase a = c.lineBase b := by
  rw [setOf_eq hg, setOf_eq hg] at hs
  rw [tagOf_eq hg, tagOf_eq hg] at ht
  have ha := Nat.div_add_mod (a / c.cfg.lineBytes) c.sets
  have hb := Nat.div_add_mod (b / c.cfg.lineBytes) c.sets
  rw [lineBase_eq hg, lineBase_eq hg, ← ha, ← hb, hs, ht]

/-- A line lies in one set. -/
theorem setOf_lineBase (hg : c.Geometry) (a : Nat) : c.setOf (c.lineBase a) = c.setOf a := by
  rw [setOf_eq hg, setOf_eq hg, lineBase_eq hg, Nat.mul_div_cancel_left _ (lineBytes_pos hg)]

/-- A line has one tag. -/
theorem tagOf_lineBase (hg : c.Geometry) (a : Nat) : c.tagOf (c.lineBase a) = c.tagOf a := by
  rw [tagOf_eq hg, tagOf_eq hg, lineBase_eq hg, Nat.mul_div_cancel_left _ (lineBytes_pos hg)]

/-- A valid address cannot produce the invalid tag. -/
theorem tagOf_ne_invalid (hg : c.Geometry) {a : Nat} (ha : a < 2 ^ 32) : c.tagOf a ≠ invalidTag := by
  have h1 : a / c.cfg.lineBytes < 2 ^ 29 := by
    rw [Nat.div_lt_iff_lt_mul (lineBytes_pos hg)]
    have h8 := eight_le hg
    calc a < 2 ^ 29 * 8 := ha
      _ ≤ 2 ^ 29 * c.cfg.lineBytes := Nat.mul_le_mul_left _ h8
  have h2 : c.tagOf a ≤ a / c.cfg.lineBytes := by
    rw [tagOf_eq hg]
    exact Nat.div_le_self _ _
  unfold invalidTag
  omega

/-- The address rebuilt from the tag and the set of an address is its line. -/
theorem rebuild (hg : c.Geometry) {a : Nat} (ha : a < 2 ^ 32) :
    ((c.tagOf a <<< c.tagShift) ||| (c.setOf a <<< c.lineShift)) % 2 ^ 32 = c.lineBase a := by
  have hset : c.setOf a <<< c.lineShift < 2 ^ c.tagShift := by
    rw [Nat.shiftLeft_eq]
    calc c.setOf a * 2 ^ c.lineShift
        < 2 ^ (c.tagShift - c.lineShift) * 2 ^ c.lineShift :=
          Nat.mul_lt_mul_of_pos_right (hg.sets ▸ setOf_lt hg a) (Nat.two_pow_pos _)
      _ = 2 ^ c.tagShift := by rw [← Nat.pow_add, Nat.sub_add_cancel hg.shifts]
  have hsplit := Nat.two_pow_add_eq_or_of_lt hset (c.tagOf a)
  have hpow : 2 ^ c.tagShift = c.cfg.lineBytes * c.sets := by
    rw [hg.lineBytes, hg.sets, ← Nat.pow_add, Nat.add_sub_cancel' hg.shifts]
  have hval : 2 ^ c.tagShift * c.tagOf a + c.setOf a <<< c.lineShift = c.lineBase a := by
    have hd := Nat.div_add_mod (a / c.cfg.lineBytes) c.sets
    rw [← setOf_eq hg, ← tagOf_eq hg] at hd
    rw [lineBase_eq hg, ← hd, hpow, Nat.shiftLeft_eq, ← hg.lineBytes]
    ring
  rw [Nat.shiftLeft_eq (c.tagOf a), Nat.mul_comm, ← hsplit, hval]
  exact Nat.mod_eq_of_lt (Nat.lt_of_le_of_lt (lineBase_le c a) ha)

end Geometry

/-! ## Ways -/

section Ways

variable {c : Cache τ}

/-- The way that is found is a way of the set, and holds the tag. -/
theorem findWay_some {set tag w : Nat} (h : c.findWay set tag = some w) :
    w < c.cfg.ways ∧ c.tags (c.lineIdx set w) = tag := by
  have hm := List.mem_of_find?_eq_some h
  have hp := List.find?_some h
  exact ⟨List.mem_range.mp hm, by simpa using hp⟩

/-- When no way is found, no way of the set holds the tag. -/
theorem findWay_none {set tag : Nat} (h : c.findWay set tag = none) :
    ∀ w, w < c.cfg.ways → c.tags (c.lineIdx set w) ≠ tag := by
  intro w hw
  have := List.find?_eq_none.mp h w (List.mem_range.mpr hw)
  simpa using this

/-- Two ways of two sets have different places in the arrays. -/
theorem lineIdx_inj {c : Cache τ} {s s' w w' : Nat} (hw : w < c.cfg.ways) (hw' : w' < c.cfg.ways)
    (h : c.lineIdx s w = c.lineIdx s' w') : s = s' ∧ w = w' := by
  unfold lineIdx at h
  have hpos : 0 < c.cfg.ways := Nat.lt_of_le_of_lt (Nat.zero_le _) hw
  have hs : s = s' := by
    have h1 : (s * c.cfg.ways + w) / c.cfg.ways = s := by
      rw [Nat.mul_comm, Nat.mul_add_div hpos, Nat.div_eq_of_lt hw, Nat.add_zero]
    have h2 : (s' * c.cfg.ways + w') / c.cfg.ways = s' := by
      rw [Nat.mul_comm, Nat.mul_add_div hpos, Nat.div_eq_of_lt hw', Nat.add_zero]
    rw [← h1, h, h2]
  subst hs
  exact ⟨rfl, by omega⟩

theorem oldestWay_lt (hw : 1 ≤ c.cfg.ways) (set : Nat) : c.oldestWay set < c.cfg.ways := by
  unfold oldestWay
  apply List.foldlRecOn (motive := fun p : Nat × Nat => p.1 < c.cfg.ways)
  · exact hw
  · intro p hp w hmem
    dsimp only
    split
    · exact List.mem_range.mp hmem
    · exact hp

theorem victimWay_lt (hw : 1 ≤ c.cfg.ways) (set : Nat) : c.victimWay set < c.cfg.ways := by
  unfold victimWay
  split
  · rename_i w h
    exact List.mem_range.mp (List.mem_of_find?_eq_some h)
  · exact oldestWay_lt hw set

end Ways

/-! ## The map -/

/-- The index of the array line that holds `a`. -/
def slotOf (c : Cache τ) (a : Nat) : Option Nat :=
  if a < 2 ^ 32 then (c.findWay (c.setOf a) (c.tagOf a)).map (c.lineIdx (c.setOf a)) else none

/-- Each address has at most one way, and each valid tag belongs to an address. -/
structure ArraysOk (c : Cache τ) : Prop where
  geometry : c.Geometry
  distinct : ∀ s w w', w < c.cfg.ways → w' < c.cfg.ways →
    c.tags (c.lineIdx s w) = c.tags (c.lineIdx s w') → c.tags (c.lineIdx s w) ≠ invalidTag → w = w'
  owned : ∀ s w, s < c.sets → w < c.cfg.ways → c.tags (c.lineIdx s w) ≠ invalidTag →
    ∃ a, a < 2 ^ 32 ∧ c.setOf a = s ∧ c.tagOf a = c.tags (c.lineIdx s w)

section Slots

variable {c : Cache τ}

/-- The place of an address is the way of its set that holds its tag. -/
theorem slotOf_eq_some (h : c.ArraysOk) {a i : Nat} :
    c.slotOf a = some i ↔ a < 2 ^ 32 ∧ ∃ w, w < c.cfg.ways ∧ i = c.lineIdx (c.setOf a) w ∧
      c.tags i = c.tagOf a := by
  unfold slotOf
  constructor
  · intro hs
    split at hs
    · rename_i ha
      obtain ⟨w, hf, hi⟩ := Option.map_eq_some_iff.mp hs
      obtain ⟨hw, ht⟩ := findWay_some hf
      exact ⟨ha, w, hw, hi.symm, by rw [← hi, ht]⟩
    · cases hs
  · rintro ⟨ha, w, hw, rfl, ht⟩
    rw [if_pos ha]
    cases hf : c.findWay (c.setOf a) (c.tagOf a) with
    | none => exact absurd ht (findWay_none hf w hw)
    | some w' =>
        obtain ⟨hw', ht'⟩ := findWay_some hf
        have hne : c.tags (c.lineIdx (c.setOf a) w) ≠ invalidTag := by
          rw [ht]
          exact tagOf_ne_invalid h.geometry ha
        rw [h.distinct _ w w' hw hw' (ht.trans ht'.symm) hne]
        rfl

theorem slotOf_eq_none {a : Nat} (ha : a < 2 ^ 32) :
    c.slotOf a = none ↔ c.findWay (c.setOf a) (c.tagOf a) = none := by
  rw [slotOf, if_pos ha, Option.map_eq_none_iff]

/-- All addresses of a line have one place. -/
theorem slotOf_lineBase (h : c.ArraysOk) {a : Nat} (ha : a < 2 ^ 32) :
    c.slotOf (c.lineBase a) = c.slotOf a := by
  rw [slotOf, slotOf, if_pos ha, if_pos (Nat.lt_of_le_of_lt (lineBase_le c a) ha),
    setOf_lineBase h.geometry, tagOf_lineBase h.geometry]

/-- Two addresses in one array line are of one memory line. -/
theorem slotOf_inj (h : c.ArraysOk) {a b i : Nat} (ha : c.slotOf a = some i)
    (hb : c.slotOf b = some i) : c.lineBase a = c.lineBase b := by
  obtain ⟨-, w, hw, hi, ht⟩ := (slotOf_eq_some h).mp ha
  obtain ⟨-, w', hw', hi', ht'⟩ := (slotOf_eq_some h).mp hb
  obtain ⟨hs, -⟩ := lineIdx_inj hw hw' (hi.symm.trans hi')
  exact lineBase_inj h.geometry hs (ht.symm.trans ht')

/-- The array line that holds `a`, and whether it is dirty. -/
def lineAt (c : Cache τ) (a : Nat) : Option Line := (c.slotOf a).map c.data

/-- The dirty bit of an address, false when its line is not in the arrays. -/
def dirtyAt (c : Cache τ) (a : Nat) : Bool :=
  match c.slotOf a with
  | some i => c.dirty i
  | none => false

theorem lineAt_eq_none {a : Nat} : c.lineAt a = none ↔ c.slotOf a = none := Option.map_eq_none_iff

theorem dirtyAt_eq {a i : Nat} (h : c.slotOf a = some i) : c.dirtyAt a = c.dirty i := by
  rw [dirtyAt, h]

theorem lineAt_eq {a i : Nat} (h : c.slotOf a = some i) : c.lineAt a = some (c.data i) := by
  rw [lineAt, h]
  rfl

theorem lineAt_lineBase (h : c.ArraysOk) {a : Nat} (ha : a < 2 ^ 32) :
    c.lineAt (c.lineBase a) = c.lineAt a := by
  rw [lineAt, lineAt, slotOf_lineBase h ha]

theorem dirtyAt_lineBase (h : c.ArraysOk) {a : Nat} (ha : a < 2 ^ 32) :
    c.dirtyAt (c.lineBase a) = c.dirtyAt a := by
  rw [dirtyAt, dirtyAt, slotOf_lineBase h ha]

/-- An occupied way holds some memory line. -/
theorem ArraysOk.occupant (h : c.ArraysOk) {s w : Nat} (hs : s < c.sets) (hw : w < c.cfg.ways)
    (ht : c.tags (c.lineIdx s w) ≠ invalidTag) :
    ∃ v, c.IsLine v ∧ c.slotOf v = some (c.lineIdx s w) ∧ c.lineAddrOf s w = v := by
  obtain ⟨a, ha, hset, htag⟩ := h.owned s w hs hw ht
  refine ⟨c.lineBase a, isLine_lineBase h.geometry ha, ?_, ?_⟩
  · rw [slotOf_lineBase h ha, slotOf_eq_some h]
    exact ⟨ha, w, hw, by rw [hset], htag.symm⟩
  · rw [lineAddrOf, ← htag, ← hset]
    exact rebuild h.geometry ha

end Slots

/-! ## Serving a request -/

section Perform

variable {c : Cache τ} {req : MemRequest τ} {way : Nat} {line : Line}

/-- The arrays after a request was performed on its line. -/
structure Performed (c c' : Cache τ) (req : MemRequest τ) (line : Line) : Prop where
  arrays : c'.ArraysOk
  slotOf : ∀ a, c'.slotOf a = c.slotOf a
  lineAt : ∀ a, a < 2 ^ 32 → c'.lineAt a =
    if req.isWrite ∧ c.lineBase a = c.lineBase req.addr then some (c.writeOnLine req line)
    else c.lineAt a
  dirtyAt : ∀ a, a < 2 ^ 32 → c'.dirtyAt a =
    if req.isWrite ∧ c.lineBase a = c.lineBase req.addr then true else c.dirtyAt a
  frame : ∃ data dirty lru lruTick, c' =
    { c with data := data, dirty := dirty, lru := lru, lruTick := lruTick }

/-- The shape and the tags are what `ArraysOk` and `slotOf` depend on. -/
structure SameTags (c c' : Cache τ) : Prop where
  cfg : c'.cfg = c.cfg
  sets : c'.sets = c.sets
  lineShift : c'.lineShift = c.lineShift
  tagShift : c'.tagShift = c.tagShift
  tags : c'.tags = c.tags

section SameTags

variable {c' : Cache τ} (h : SameTags c c') (a : Nat)
include h

theorem SameTags.slotOf : c'.slotOf a = c.slotOf a := by
  unfold Cache.slotOf setOf tagOf findWay lineIdx
  rw [h.cfg, h.sets, h.lineShift, h.tagShift, h.tags]

theorem SameTags.lineAt (hd : c'.data = c.data) : c'.lineAt a = c.lineAt a := by
  rw [Cache.lineAt, h.slotOf, hd, Cache.lineAt]

theorem SameTags.dirtyAt (hd : c'.dirty = c.dirty) : c'.dirtyAt a = c.dirtyAt a := by
  rw [Cache.dirtyAt, h.slotOf, hd, Cache.dirtyAt]

end SameTags

/-- The arrays' invariant is about tags only, so it survives writes of data and of dirty bits. -/
theorem ArraysOk.of_tags {c' : Cache τ} (h : c.ArraysOk) (hs : SameTags c c') : c'.ArraysOk := by
  obtain ⟨cfg, sets, lineShift, tagShift, tags⟩ := hs
  cases c
  cases c'
  cases cfg
  cases sets
  cases lineShift
  cases tagShift
  cases tags
  exact ⟨⟨h.geometry.lineBytes, h.geometry.sets, h.geometry.shifts, h.geometry.lineMin,
    h.geometry.lineMax, h.geometry.tagMax, h.geometry.ways⟩, h.distinct, h.owned⟩

/-- An access to a resident line reads and writes that line and no other. A write makes it dirty. -/
theorem ArraysOk.performed (h : c.ArraysOk) (hreq : req.addr < 2 ^ 32)
    (hs : c.slotOf req.addr = some (c.lineIdx (c.setOf req.addr) way))
    (hl : c.lineAt req.addr = some line) :
    Performed c (c.performOnLine req (c.setOf req.addr) way).1 req line ∧
      (c.performOnLine req (c.setOf req.addr) way).2 = c.respond req line := by
  have hline : c.data (c.lineIdx (c.setOf req.addr) way) = line := by
    rw [lineAt_eq hs] at hl
    exact Option.some.inj hl
  refine ⟨?_, by rw [← hline]; rfl⟩
  have hslot : ∀ a, (c.performOnLine req (c.setOf req.addr) way).1.slotOf a = c.slotOf a := by
    intro a
    unfold performOnLine touchLRU
    dsimp only
    split <;> rfl
  have hframe : ∃ data dirty lru lruTick, (c.performOnLine req (c.setOf req.addr) way).1 =
      { c with data := data, dirty := dirty, lru := lru, lruTick := lruTick } := by
    unfold performOnLine touchLRU
    dsimp only
    split <;> exact ⟨_, _, _, _, rfl⟩
  have hdata : (c.performOnLine req (c.setOf req.addr) way).1.data =
      if req.isWrite then Function.update c.data (c.lineIdx (c.setOf req.addr) way)
        (c.writeOnLine req line) else c.data := by
    rw [← hline]
    unfold performOnLine touchLRU
    dsimp only
    split <;> rfl
  have hdirty : (c.performOnLine req (c.setOf req.addr) way).1.dirty =
      if req.isWrite then Function.update c.dirty (c.lineIdx (c.setOf req.addr) way) true
        else c.dirty := by
    unfold performOnLine touchLRU
    dsimp only
    split <;> rfl
  -- only addresses of the line of the request map to its index
  have hself : ∀ a, a < 2 ^ 32 → c.lineBase a = c.lineBase req.addr →
      c.slotOf a = some (c.lineIdx (c.setOf req.addr) way) := by
    intro a ha hb
    rw [← slotOf_lineBase h ha, hb, slotOf_lineBase h hreq, hs]
  have hother : ∀ a i, a < 2 ^ 32 → c.lineBase a ≠ c.lineBase req.addr → c.slotOf a = some i →
      i ≠ c.lineIdx (c.setOf req.addr) way := by
    rintro a i _ hb hi rfl
    exact hb (slotOf_inj h hi hs)
  have hsame : SameTags c (c.performOnLine req (c.setOf req.addr) way).1 := by
    obtain ⟨_, _, _, _, hf⟩ := hframe
    rw [hf]
    exact ⟨rfl, rfl, rfl, rfl, rfl⟩
  refine ⟨h.of_tags hsame, hslot, fun a ha => ?_, fun a ha => ?_, hframe⟩
  · rw [Cache.lineAt, hslot, hdata]
    cases hw : req.isWrite with
    | false => rfl
    | true =>
        by_cases hb : c.lineBase a = c.lineBase req.addr
        · rw [hself a ha hb]
          simp [hb]
        · simp only [hb, and_false, if_false, if_true]
          cases hi : c.slotOf a with
          | none => rw [lineAt, hi]; rfl
          | some i =>
              rw [lineAt_eq hi, Option.map_some, Function.update_of_ne (hother a i ha hb hi)]
  · rw [Cache.dirtyAt, hslot, hdirty]
    cases hw : req.isWrite with
    | false => rfl
    | true =>
        by_cases hb : c.lineBase a = c.lineBase req.addr
        · rw [hself a ha hb]
          simp [hb]
        · simp only [hb, and_false, if_false, if_true]
          cases hi : c.slotOf a with
          | none => rw [dirtyAt, hi]
          | some i =>
              rw [dirtyAt_eq hi]
              exact Function.update_of_ne (hother a i ha hb hi) _ _

/-! ### Replaying waiting requests -/

/-- A line after requests that waited for it. -/
def replayed (c : Cache τ) : Line → List (Waiting τ) → Line
  | line, [] => line
  | line, w :: ws =>
      c.replayed (if w.req.isWrite then c.writeOnLine w.req line else line) ws

/-- The responses to them, in order. -/
def replies (c : Cache τ) : Line → List (Waiting τ) → List (MemResponse τ)
  | _, [] => []
  | line, w :: ws => c.respond w.req line ::
      c.replies (if w.req.isWrite then c.writeOnLine w.req line else line) ws

/-- The arrays and the response queue after requests to one line were replayed on it. -/
structure Replayed (c c' : Cache τ) (la : Nat) (line : Line) (ws : List (Waiting τ)) : Prop where
  arrays : c'.ArraysOk
  slotOf : ∀ a, c'.slotOf a = c.slotOf a
  lineAt : ∀ a, a < 2 ^ 32 → c'.lineAt a =
    if c.lineBase a = la then some (c.replayed line ws) else c.lineAt a
  dirtyAt : ∀ a, a < 2 ^ 32 → c'.dirtyAt a =
    if c.lineBase a = la then c.dirtyAt la || ws.any (·.req.isWrite) else c.dirtyAt a
  respQ : c'.respQ = c.respQ ++ c.replies line ws
  frame : ∃ data dirty lru lruTick respQ, c' =
    { c with data := data, dirty := dirty, lru := lru, lruTick := lruTick, respQ := respQ }

/-- The pure part of a replay depends on the line size only. -/
theorem replayed_congr {c' : Cache τ} (h : c'.cfg = c.cfg) (ws : List (Waiting τ)) : ∀ line,
    c'.replayed line ws = c.replayed line ws ∧ c'.replies line ws = c.replies line ws := by
  have hw : ∀ (req : MemRequest τ) line, c'.writeOnLine req line = c.writeOnLine req line := by
    intro req line
    unfold writeOnLine offsetOf
    rw [h]
  have hr : ∀ (req : MemRequest τ) line, c'.respond req line = c.respond req line := by
    intro req line
    unfold respond offsetOf
    rw [h]
  induction ws with
  | nil => exact fun _ => ⟨rfl, rfl⟩
  | cons w ws ih =>
      intro line
      rw [replayed, replayed, replies, replies, hw, hr, (ih _).1, (ih _).2]
      exact ⟨rfl, rfl⟩

/-- Replaying one request performs it on the line that arrived. -/
theorem ArraysOk.replaysOne {la way : Nat} {w : Waiting τ} {line : Line} (h : c.ArraysOk)
    (hs : c.slotOf la = some (c.lineIdx (c.setOf la) way)) (hline : c.lineAt la = some line)
    (haddr : w.req.addr < 2 ^ 32) (hbase : c.lineBase w.req.addr = la) :
    ∃ c₁, Performed c c₁ w.req line ∧
      replayOne (c.setOf la) way c w = { c₁ with respQ := c.respQ ++ [c.respond w.req line] } := by
  have hset : c.setOf la = c.setOf w.req.addr := by rw [← hbase, setOf_lineBase h.geometry]
  have hs' : c.slotOf w.req.addr = some (c.lineIdx (c.setOf w.req.addr) way) := by
    rw [← slotOf_lineBase h haddr, hbase, hs, hset]
  have hl' : c.lineAt w.req.addr = some line := by
    rw [← lineAt_lineBase h haddr, hbase, hline]
  obtain ⟨hp, hr⟩ := h.performed haddr hs' hl'
  refine ⟨_, hp, ?_⟩
  have hq : (c.performOnLine w.req (c.setOf w.req.addr) way).1.respQ = c.respQ := by
    obtain ⟨_, _, _, _, hf⟩ := hp.frame
    rw [hf]
  rw [hset, ← hr, ← hq]
  rfl

/-- Replaying the accesses that wait for a line applies them to that line in the order they came. By
induction on the list of waiting accesses. -/
theorem ArraysOk.replay {la way : Nat} (ws : List (Waiting τ)) : ∀ {c : Cache τ} {line : Line},
    c.ArraysOk → c.IsLine la → c.slotOf la = some (c.lineIdx (c.setOf la) way) →
    c.lineAt la = some line →
    (∀ w ∈ ws, w.req.addr < 2 ^ 32 ∧ c.lineBase w.req.addr = la) →
    Replayed c (ws.foldl (replayOne (c.setOf la) way) c) la line ws := by
  induction ws with
  | nil =>
      intro c line h hla _ hline _
      refine ⟨h, fun _ => rfl, fun a ha => ?_, fun a ha => ?_, (List.append_nil _).symm,
        ⟨_, _, _, _, _, rfl⟩⟩
      · split
        · rename_i hb
          rw [← hb, lineAt_lineBase h ha] at hline
          exact hline
        · rfl
      · split
        · rename_i hb
          rw [← hb, dirtyAt_lineBase h ha, List.any_nil, Bool.or_false]
          rfl
        · rfl
  | cons w ws ih =>
      intro c line h hla hs hline hws
      obtain ⟨haddr, hbase⟩ := hws w List.mem_cons_self
      -- the cache in which the rest is replayed
      obtain ⟨cp, hp, hone⟩ := h.replaysOne hs hline haddr hbase
      generalize hc₁ : replayOne (c.setOf la) way c w = c₁ at hone
      obtain ⟨data, dirty, lru, lruTick, hf⟩ := hp.frame
      have hframe : c₁ = { c with
          data := data
          dirty := dirty
          lru := lru
          lruTick := lruTick
          respQ := c.respQ ++ [c.respond w.req line] } := by rw [hone, hf]
      have hslot₁ : ∀ a, c₁.slotOf a = c.slotOf a := by
        intro a
        rw [hone]
        exact hp.slotOf a
      have hline₁ : ∀ a, a < 2 ^ 32 → c₁.lineAt a =
          if w.req.isWrite ∧ c.lineBase a = la then some (c.writeOnLine w.req line)
          else c.lineAt a := by
        intro a ha
        rw [hone, ← hbase]
        exact hp.lineAt a ha
      have hdirty₁ : ∀ a, a < 2 ^ 32 → c₁.dirtyAt a =
          if w.req.isWrite ∧ c.lineBase a = la then true else c.dirtyAt a := by
        intro a ha
        rw [hone, ← hbase]
        exact hp.dirtyAt a ha
      have harr₁ : c₁.ArraysOk := by
        rw [hone]
        exact hp.arrays.of_tags ⟨rfl, rfl, rfl, rfl, rfl⟩
      have hbase₁ : ∀ a, c₁.lineBase a = c.lineBase a := by
        intro a
        rw [hframe]
        rfl
      have hset₁ : c₁.setOf la = c.setOf la := by
        rw [hframe]
        rfl
      have hrec := ih harr₁ (by rw [IsLine, hbase₁]; exact hla) (by rw [hslot₁, hframe]; exact hs)
        (show c₁.lineAt la = some (if w.req.isWrite then c.writeOnLine w.req line else line) by
          rw [hline₁ la hla.2, hline]; simp only [hla.1, and_true]; split <;> rfl)
        (fun w' hw' => by rw [hbase₁]; exact hws w' (List.mem_cons_of_mem _ hw'))
      rw [List.foldl_cons, hc₁]
      rw [hset₁] at hrec
      have hpure := replayed_congr (show c₁.cfg = c.cfg by rw [hframe]) ws
        (if w.req.isWrite then c.writeOnLine w.req line else line)
      refine ⟨hrec.arrays, fun a => (hrec.slotOf a).trans (hslot₁ a), fun a ha => ?_, fun a ha => ?_, ?_, ?_⟩
      · rw [hrec.lineAt a ha, hbase₁, hpure.1]
        split
        · rfl
        · rename_i hb
          rw [hline₁ a ha, if_neg (fun hc => hb hc.2)]
      · rw [hrec.dirtyAt a ha, hbase₁, hdirty₁ la hla.2, hla.1]
        split
        · cases hw : w.req.isWrite <;> simp [hw]
        · rename_i hb
          rw [hdirty₁ a ha, if_neg (fun hc => hb hc.2)]
      · rw [hrec.respQ, hpure.2, hframe]
        simp [replies]
      · obtain ⟨d', dy', l', lt', rq', hfin⟩ := hrec.frame
        rw [hfin, hframe]
        exact ⟨d', dy', l', lt', rq', rfl⟩

end Perform

/-! ## Installing a line -/

/-- What leaves the arrays for a new line: nothing, a clean line, or a dirty line, which goes
to the writeback queue when it has room. -/
inductive Evicts (c : Cache τ) : Option Nat → List WbEntry → Prop
  | nothing : Evicts c none []
  | clean {v : Nat} {line : Line} : c.IsLine v → c.lineAt v = some line → c.dirtyAt v = false →
      Evicts c (some v) []
  | dirty {v : Nat} {line : Line} : c.IsLine v → c.lineAt v = some line → c.dirtyAt v = true →
      c.wbq.length < c.cfg.wbq → Evicts c (some v) [⟨v, line⟩]

/-- The cache after the line `la` was installed. -/
structure Installed (c c' : Cache τ) (la : Nat) (src : Line) (isDirty : Bool)
    (victim : Option Nat) (out : List WbEntry) : Prop where
  arrays : c'.ArraysOk
  evicts : c.Evicts victim out
  slot : c'.slotOf la = some (c'.lineIdx (c'.setOf la) (c.victimWay (c.setOf la)))
  lineAt : ∀ a, a < 2 ^ 32 → c'.lineAt a =
    if c.lineBase a = la then some src
    else if victim = some (c.lineBase a) then none else c.lineAt a
  dirtyAt : ∀ a, a < 2 ^ 32 → c'.dirtyAt a =
    if c.lineBase a = la then isDirty
    else if victim = some (c.lineBase a) then false else c.dirtyAt a
  frame : ∃ data tags dirty, c' =
    { c with data := data, tags := tags, dirty := dirty, wbq := c.wbq ++ out }

section Install

variable {c : Cache τ} {la : Nat} {src : Line} {isDirty : Bool}

/-- The arrays after the way picked for `la` was overwritten. -/
def overwrite (c : Cache τ) (la : Nat) (src : Line) (isDirty : Bool) (out : List WbEntry) :
    Cache τ :=
  let i := c.lineIdx (c.setOf la) (c.victimWay (c.setOf la))
  { c with
    wbq := c.wbq ++ out
    data := Function.update c.data i src
    tags := Function.update c.tags i (c.tagOf la)
    dirty := Function.update c.dirty i isDirty }

/-- A line that is not resident may take the place of its set's victim. -/
theorem ArraysOk.overwrite (h : c.ArraysOk) (hl : c.IsLine la) (hnone : c.slotOf la = none)
    (out : List WbEntry) : (c.overwrite la src isDirty out).ArraysOk := by
  have hw := victimWay_lt h.geometry.ways (c.setOf la)
  -- no way of the set has the tag yet
  have hfree : ∀ w, w < c.cfg.ways → c.tags (c.lineIdx (c.setOf la) w) ≠ c.tagOf la :=
    findWay_none ((slotOf_eq_none hl.2).mp hnone)
  refine ⟨⟨h.geometry.lineBytes, h.geometry.sets, h.geometry.shifts, h.geometry.lineMin,
    h.geometry.lineMax, h.geometry.tagMax, h.geometry.ways⟩, ?_, ?_⟩
  · -- two equal tags in a set: one of them would be the new one, which no other way had
    intro s w w' hw₁ hw₂ ht hne
    have hw₁' : w < c.cfg.ways := hw₁
    have hw₂' : w' < c.cfg.ways := hw₂
    have ht' : Function.update c.tags (c.lineIdx (c.setOf la) (c.victimWay (c.setOf la))) (c.tagOf la)
        (c.lineIdx s w) =
      Function.update c.tags (c.lineIdx (c.setOf la) (c.victimWay (c.setOf la))) (c.tagOf la)
        (c.lineIdx s w') := ht
    have hne' : Function.update c.tags (c.lineIdx (c.setOf la) (c.victimWay (c.setOf la)))
        (c.tagOf la) (c.lineIdx s w) ≠ invalidTag := hne
    rw [Function.update_apply, Function.update_apply] at ht'
    rw [Function.update_apply] at hne'
    split at ht'
    · rename_i h₁
      obtain ⟨hs, hv⟩ := lineIdx_inj hw₁' hw h₁
      split at ht'
      · rename_i h₂
        exact hv.trans (lineIdx_inj hw₂' hw h₂).2.symm
      · rw [hs] at ht'
        exact absurd ht'.symm (hfree w' hw₂')
    · rename_i h₁
      split at ht'
      · rename_i h₂
        obtain ⟨hs, -⟩ := lineIdx_inj hw₂' hw h₂
        rw [hs] at ht'
        exact absurd ht' (hfree w hw₁')
      · rw [if_neg h₁] at hne'
        exact h.distinct s w w' hw₁' hw₂' ht' hne'
  · intro s w hs hw₁ hne
    have hw₁' : w < c.cfg.ways := hw₁
    have htag : (c.overwrite la src isDirty out).tags (c.lineIdx s w) =
        if c.lineIdx s w = c.lineIdx (c.setOf la) (c.victimWay (c.setOf la)) then c.tagOf la
        else c.tags (c.lineIdx s w) := Function.update_apply _ _ _ _
    show ∃ a, a < 2 ^ 32 ∧ c.setOf a = s ∧
      c.tagOf a = (c.overwrite la src isDirty out).tags (c.lineIdx s w)
    have hne' : (c.overwrite la src isDirty out).tags (c.lineIdx s w) ≠ invalidTag := hne
    rw [htag] at hne' ⊢
    split
    · -- the line written is `la` itself; every other line has its old owner
      rename_i h₁
      exact ⟨la, hl.2, (lineIdx_inj hw₁' hw h₁).1.symm, rfl⟩
    · rename_i h₁
      rw [if_neg h₁] at hne'
      exact h.owned s w hs hw₁' hne'

/-- The map after the overwrite: the new line, without the old occupant of its way. -/
theorem ArraysOk.slotOf_overwrite (h : c.ArraysOk) (hl : c.IsLine la) (hnone : c.slotOf la = none)
    (out : List WbEntry) {a : Nat} (ha : a < 2 ^ 32) :
    (c.overwrite la src isDirty out).slotOf a =
      if c.lineBase a = la then some (c.lineIdx (c.setOf la) (c.victimWay (c.setOf la)))
      else if c.slotOf a = some (c.lineIdx (c.setOf la) (c.victimWay (c.setOf la))) then none
      else c.slotOf a := by
  have h' : (c.overwrite la src isDirty out).ArraysOk := h.overwrite hl hnone out
  have hw := victimWay_lt h.geometry.ways (c.setOf la)
  have htag : ∀ i, (c.overwrite la src isDirty out).tags i =
      if i = c.lineIdx (c.setOf la) (c.victimWay (c.setOf la)) then c.tagOf la
      else c.tags i := fun i => Function.update_apply _ _ _ _
  split
  · rename_i hb
    have hset : c.setOf a = c.setOf la := by rw [← hb, setOf_lineBase h.geometry]
    have htg : c.tagOf a = c.tagOf la := by rw [← hb, tagOf_lineBase h.geometry]
    rw [slotOf_eq_some h']
    refine ⟨ha, c.victimWay (c.setOf la), hw, ?_, ?_⟩
    · show _ = c.lineIdx (c.setOf a) _
      rw [hset]
    · rw [htag, if_pos rfl]
      exact htg.symm
  · rename_i hb
    -- another line keeps its index unless it was the overwritten one
    have hiff : ∀ i, (c.overwrite la src isDirty out).slotOf a = some i ↔
        c.slotOf a = some i ∧ i ≠ c.lineIdx (c.setOf la) (c.victimWay (c.setOf la)) := by
      intro i
      rw [slotOf_eq_some h', slotOf_eq_some h]
      constructor
      · rintro ⟨-, w, hw', hi, ht⟩
        have hw₁ : w < c.cfg.ways := hw'
        have hi₁ : i = c.lineIdx (c.setOf a) w := hi
        have ht₁ : (c.overwrite la src isDirty out).tags i = c.tagOf a := ht
        rw [htag] at ht₁
        split at ht₁
        · rename_i hv
          obtain ⟨hs, -⟩ := lineIdx_inj hw₁ hw (hi₁.symm.trans hv)
          have hbase := lineBase_inj h.geometry hs ht₁.symm
          rw [hl.1] at hbase
          exact absurd hbase hb
        · rename_i hv
          exact ⟨⟨ha, w, hw₁, hi₁, ht₁⟩, hv⟩
      · rintro ⟨⟨-, w, hw₁, hi, ht⟩, hv⟩
        refine ⟨ha, w, hw₁, hi, ?_⟩
        rw [htag, if_neg hv]
        exact ht
    split
    · rename_i hv
      rw [Option.eq_none_iff_forall_not_mem]
      intro i hi
      obtain ⟨h₁, h₂⟩ := (hiff i).mp hi
      rw [hv] at h₁
      exact h₂ (Option.some.inj h₁).symm
    · rename_i hv
      cases hs : c.slotOf a with
      | none =>
          rw [Option.eq_none_iff_forall_not_mem]
          intro i hi
          rw [((hiff i).mp hi).1] at hs
          cases hs
      | some i =>
          rw [hiff]
          refine ⟨hs, ?_⟩
          rintro rfl
          exact hv hs

/-- Overwriting the victim installs the line there and takes the victim's line out; the dirty data
go to the entries that are to be written back. -/
theorem installed_overwrite (h : c.ArraysOk) (hl : c.IsLine la) (hnone : c.slotOf la = none)
    {victim : Option Nat} {out : List WbEntry} (he : c.Evicts victim out)
    (hv : ∀ a, a < 2 ^ 32 → (victim = some (c.lineBase a) ↔
      c.slotOf a = some (c.lineIdx (c.setOf la) (c.victimWay (c.setOf la))))) :
    Installed c (c.overwrite la src isDirty out) la src isDirty victim out := by
  have hslot : ∀ {a}, a < 2 ^ 32 → (c.overwrite la src isDirty out).slotOf a = _ :=
    fun ha => h.slotOf_overwrite hl hnone out ha
  refine ⟨h.overwrite hl hnone out, he, ?_, fun a ha => ?_, fun a ha => ?_, ⟨_, _, _, rfl⟩⟩
  · rw [hslot hl.2, if_pos hl.1]
    rfl
  · unfold Cache.lineAt
    rw [hslot ha]
    split
    · exact congrArg some (Function.update_self _ _ _)
    · split
      · rename_i hs
        rw [if_pos ((hv a ha).mpr hs)]
        rfl
      · rename_i hs
        rw [if_neg (fun hvic => hs ((hv a ha).mp hvic))]
        cases hi : c.slotOf a with
        | none => rfl
        | some i =>
            refine congrArg some (Function.update_of_ne ?_ _ _)
            rintro rfl
            exact hs hi
  · unfold Cache.dirtyAt
    rw [hslot ha]
    by_cases hb : c.lineBase a = la
    · rw [if_pos hb, if_pos hb]
      exact Function.update_self _ _ _
    · rw [if_neg hb, if_neg hb]
      by_cases hs : c.slotOf a = some (c.lineIdx (c.setOf la) (c.victimWay (c.setOf la)))
      · rw [if_pos hs, if_pos ((hv a ha).mpr hs)]
      · rw [if_neg hs, if_neg (fun hvic => hs ((hv a ha).mp hvic))]
        cases hi : c.slotOf a with
        | none => rfl
        | some i =>
            refine Function.update_of_ne ?_ _ _
            rintro rfl
            exact hs hi

/-- `installLine` succeeds when it says so, and evicts one line at most. -/
theorem ArraysOk.installed (h : c.ArraysOk) (src : Line) (isDirty : Bool) (hl : c.IsLine la) (hnone : c.slotOf la = none)
    (hok : c.installOk la = true) :
    ∃ victim out, Installed c (c.installLine la src isDirty) la src isDirty victim out := by
  have hw := victimWay_lt h.geometry.ways (c.setOf la)
  have hset := setOf_lt h.geometry la
  have heq : ∀ out, (if c.tags (c.lineIdx (c.setOf la) (c.victimWay (c.setOf la))) ≠ invalidTag ∧
      c.dirty (c.lineIdx (c.setOf la) (c.victimWay (c.setOf la))) = true then
        c.wbq ++ [⟨c.lineAddrOf (c.setOf la) (c.victimWay (c.setOf la)),
          c.data (c.lineIdx (c.setOf la) (c.victimWay (c.setOf la)))⟩] else c.wbq) = c.wbq ++ out →
      c.installLine la src isDirty = c.overwrite la src isDirty out := by
    intro out ho
    unfold installLine Cache.overwrite
    dsimp only
    rw [if_pos hok, ho]
  by_cases ht : c.tags (c.lineIdx (c.setOf la) (c.victimWay (c.setOf la))) = invalidTag
  · -- a free way
    refine ⟨none, [], ?_⟩
    rw [heq [] (by rw [if_neg (fun hc => hc.1 ht), List.append_nil])]
    refine installed_overwrite h hl hnone .nothing fun a ha => ⟨nofun, fun hs => ?_⟩
    obtain ⟨-, w, -, -, htag⟩ := (slotOf_eq_some h).mp hs
    rw [ht] at htag
    exact absurd htag.symm (tagOf_ne_invalid h.geometry ha)
  · obtain ⟨v, hv, hvs, hva⟩ := h.occupant hset hw ht
    have hvic : ∀ a, a < 2 ^ 32 → (some v = some (c.lineBase a) ↔
        c.slotOf a = some (c.lineIdx (c.setOf la) (c.victimWay (c.setOf la)))) := by
      intro a ha
      constructor
      · intro he
        rw [← slotOf_lineBase h ha, ← Option.some.inj he, hvs]
      · intro hs
        rw [← slotOf_inj h hvs hs, hv.1]
    by_cases hd : c.dirty (c.lineIdx (c.setOf la) (c.victimWay (c.setOf la))) = true
    · refine ⟨some v, [⟨v, c.data (c.lineIdx (c.setOf la) (c.victimWay (c.setOf la)))⟩], ?_⟩
      rw [heq [⟨v, _⟩] (by rw [if_pos ⟨ht, hd⟩, hva])]
      refine installed_overwrite h hl hnone (.dirty hv (lineAt_eq hvs) ?_ ?_) hvic
      · rw [dirtyAt_eq hvs, hd]
      · simpa [installOk, ht, hd] using hok
    · refine ⟨some v, [], ?_⟩
      rw [heq [] (by rw [if_neg (fun hc => hd hc.2), List.append_nil])]
      refine installed_overwrite h hl hnone (.clean hv (lineAt_eq hvs) ?_) hvic
      rw [dirtyAt_eq hvs]
      simpa using hd

end Install

end Cache

end RvO3
