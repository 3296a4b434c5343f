import Mathlib.Data.List.Nodup
import Mathlib.Data.List.Pairwise

/-!
# Lists that are searched, cut and compacted

The first element that fails a test, the part of a sorted list below a bound, and removal
by overwriting with the last element.
-/

set_option autoImplicit false

namespace RvO3

section

variable {α : Type}

/-- `takeWhile` stops at an element that fails the test. -/
theorem getElem?_length_takeWhile (p : α → Bool) {l : List α}
    (h : (l.takeWhile p).length < l.length) :
    ∃ x, l[(l.takeWhile p).length]? = some x ∧ p x = false := by
  induction l with
  | nil => simp at h
  | cons a l ih =>
      by_cases hp : p a = true
      · rw [List.takeWhile_cons_of_pos hp] at h ⊢
        exact ih (by simpa using h)
      · rw [List.takeWhile_cons_of_neg hp]
        exact ⟨a, rfl, by simpa using hp⟩

/-- The last element of a list sorted by `f` is the largest. -/
theorem le_of_sorted_append {f : α → Nat} {l : List α} {x : α}
    (h : ((l ++ [x]).map f).Pairwise (· < ·)) {a : α} (ha : a ∈ l) : f a < f x := by
  rw [List.map_append, List.pairwise_append] at h
  exact h.2.2 (f a) (List.mem_map_of_mem ha) (f x) (by simp)

theorem sorted_of_append {f : α → Nat} {l m : List α}
    (h : ((l ++ m).map f).Pairwise (· < ·)) : (l.map f).Pairwise (· < ·) := by
  rw [List.map_append, List.pairwise_append] at h
  exact h.1

/-- A sorted list whose last element is within the bound is within the bound. -/
theorem filter_le_of_last {f : α → Nat} {l : List α} {x : α} {s : Nat}
    (h : ((l ++ [x]).map f).Pairwise (· < ·)) (hx : f x ≤ s) :
    (l ++ [x]).filter (fun i => decide (f i ≤ s)) = l ++ [x] := by
  rw [List.filter_eq_self]
  intro a ha
  rcases List.mem_append.mp ha with ha | ha
  · have := le_of_sorted_append h ha
    simp
    omega
  · rw [List.mem_singleton] at ha
    subst ha
    simpa using hx

/-- The element above the bound at the end of a list is filtered out. -/
theorem filter_le_append_of_lt {f : α → Nat} {l : List α} {x : α} {s : Nat} (hx : s < f x) :
    (l ++ [x]).filter (fun i => decide (f i ≤ s)) = l.filter fun i => decide (f i ≤ s) := by
  rw [List.filter_append]
  simp [hx]

/-- A sorted list is its part within the bound followed by its part above. -/
theorem sorted_eq_filter_append {f : α → Nat} (s : Nat) {l : List α}
    (h : (l.map f).Pairwise (· < ·)) :
    l = l.filter (fun i => decide (f i ≤ s)) ++ l.filter fun i => decide (s < f i) := by
  induction l with
  | nil => rfl
  | cons a l ih =>
      rw [List.map_cons, List.pairwise_cons] at h
      by_cases ha : f a ≤ s
      · rw [List.filter_cons_of_pos (by simpa using ha),
          List.filter_cons_of_neg (by simpa using ha), List.cons_append, ← ih h.2]
      · have hnil : l.filter (fun i => decide (f i ≤ s)) = [] := by
          rw [List.filter_eq_nil_iff]
          intro b hb
          have := h.1 (f b) (List.mem_map_of_mem hb)
          simp
          omega
        have hall : l.filter (fun i => decide (s < f i)) = l := by
          rw [List.filter_eq_self]
          intro b hb
          have := h.1 (f b) (List.mem_map_of_mem hb)
          simp
          omega
        rw [List.filter_cons_of_neg (by simpa using ha),
          List.filter_cons_of_pos (by simp; omega), hnil, hall, List.nil_append]

/-- Overwriting an element with the last one and dropping the last one removes it. -/
theorem perm_overwrite {l : List α} {i : Nat} {x y : α} (hi : l[i]? = some x)
    (hl : l.getLast? = some y) : l.Perm (x :: (l.set i y).dropLast) := by
  obtain ⟨m, rfl⟩ : ∃ m, l = m ++ [y] := by
    have hne : l ≠ [] := by
      intro h0
      subst h0
      simp at hl
    refine ⟨l.dropLast, ?_⟩
    have := List.dropLast_append_getLast hne
    rw [List.getLast?_eq_some_getLast hne] at hl
    cases hl
    exact this.symm
  by_cases him : i < m.length
  · rw [List.set_append_left _ _ him, List.dropLast_concat]
    rw [List.getElem?_append_left him] at hi
    obtain ⟨h1, h2⟩ := List.getElem?_eq_some_iff.mp hi
    subst h2
    have hset : (m ++ [y]).Perm (y :: m) := List.perm_append_singleton _ _
    apply hset.trans
    rw [List.set_eq_take_append_cons_drop, if_pos him]
    have hm : m = m.take i ++ m[i] :: m.drop (i + 1) := by
      rw [← List.drop_eq_getElem_cons him, List.take_append_drop]
    conv_lhs => rw [hm]
    refine (List.Perm.cons y List.perm_middle).trans ((List.Perm.swap _ _ _).trans ?_)
    exact List.Perm.cons _ List.perm_middle.symm
  · have hlen : i = m.length := by
      have := (List.getElem?_eq_some_iff.mp hi).1
      simp at this
      omega
    subst hlen
    have hxy : x = y := by simpa using hi.symm
    subst hxy
    rw [List.set_append_right _ _ (Nat.le_refl _), Nat.sub_self]
    simp

end

/-- Where keys are distinct, removing one position removes its key. -/
theorem mem_eraseIdx_key {α β : Type} {f : α → β} {l : List α} (h : (l.map f).Nodup) {i : Nat} {e x : α}
    (hi : l[i]? = some e) : x ∈ l.eraseIdx i ↔ x ∈ l ∧ f x ≠ f e := by
  obtain ⟨hlt, rfl⟩ := List.getElem?_eq_some_iff.mp hi
  have hinj : ∀ j (hj : j < l.length), f l[j] = f l[i] → j = i := by
    intro j hj he
    have hj' : j < (l.map f).length := by simpa using hj
    have hi' : i < (l.map f).length := by simpa using hlt
    have hget : (l.map f)[j] = (l.map f)[i] := by simpa using he
    exact (List.Nodup.getElem_inj_iff h).mp hget
  rw [List.mem_eraseIdx_iff_getElem]
  constructor
  · rintro ⟨j, hj, hji, rfl⟩
    exact ⟨List.getElem_mem hj, fun he => hji (hinj j hj he)⟩
  · rintro ⟨hx, hne⟩
    obtain ⟨j, hj, rfl⟩ := List.getElem_of_mem hx
    refine ⟨j, hj, ?_, rfl⟩
    rintro rfl
    exact hne rfl

/-- A search in which only elements that agree with `x` succeed. -/
theorem findSome?_eq_of_mem {α β : Type} {f : α → Option β} {l : List α} {x : α} (hx : x ∈ l)
    (h : ∀ y ∈ l, f y = none ∨ f y = f x) : l.findSome? f = f x := by
  induction l with
  | nil => cases hx
  | cons y l ih =>
      rw [List.findSome?_cons]
      cases hy : f y with
      | some v =>
          have hh := h y List.mem_cons_self
          rw [hy] at hh
          exact hh.resolve_left nofun
      | none =>
          rcases List.mem_cons.mp hx with rfl | hx
          · dsimp only
            rw [hy, List.findSome?_eq_none_iff]
            intro z hz
            rcases h z (List.mem_cons_of_mem _ hz) with hz' | hz'
            · exact hz'
            · rw [hz', hy]
          · exact ih hx fun z hz => h z (List.mem_cons_of_mem _ hz)

/-- A search sees its test on the elements of the list only, and so does `dropWhile`. -/
theorem findSome?_congr_mem {α β : Type} {f g : α → Option β} {l : List α} (h : ∀ x ∈ l, f x = g x) :
    l.findSome? f = l.findSome? g := by
  induction l with
  | nil => rfl
  | cons x l ih =>
      rw [List.findSome?_cons, List.findSome?_cons, h x List.mem_cons_self,
        ih fun y hy => h y (List.mem_cons_of_mem _ hy)]

theorem dropWhile_congr_mem {α : Type} {p q : α → Bool} {l : List α} (h : ∀ x ∈ l, p x = q x) :
    l.dropWhile p = l.dropWhile q := by
  induction l with
  | nil => rfl
  | cons x l ih =>
      rw [List.dropWhile_cons, List.dropWhile_cons, h x List.mem_cons_self,
        ih fun y hy => h y (List.mem_cons_of_mem _ hy)]

end RvO3
