import Mathlib.Data.Fintype.BigOperators
import Mathlib.Data.Multiset.AddSub
import Mathlib.Tactic.Abel

/-!
# Maps with an undo log

A map updated in place, with a log of the updates that can still be taken back. Each
logged `Write` keeps the value it displaced, so a suffix of the log is undone by walking
it backwards. `Logged m₀ ws m` says that the writes `ws` lead from `m₀` to `m` and
recorded what they displaced.

Two facts matter. Undoing a suffix gives back the map as it was before it
(`Logged.undoAll`). And writes only move values around: what a map holds and what its log
displaced is, together, what the first map held and what was written
(`Logged.conserved`).
-/

set_option autoImplicit false

namespace RvO3

/-- One logged update of a map. -/
structure Write (κ α : Type) where
  key : κ
  /-- The value displaced. -/
  old : α
  /-- The value written. -/
  new : α

section Values

variable {κ α : Type}

/-- What the writes displaced. -/
def displaced (ws : List (Write κ α)) : Multiset α := ↑(ws.map Write.old)

/-- What the writes wrote. -/
def written (ws : List (Write κ α)) : Multiset α := ↑(ws.map Write.new)

@[simp] theorem displaced_nil : displaced ([] : List (Write κ α)) = 0 := rfl

@[simp] theorem written_nil : written ([] : List (Write κ α)) = 0 := rfl

@[simp] theorem displaced_cons (w : Write κ α) (ws : List (Write κ α)) :
    displaced (w :: ws) = w.old ::ₘ displaced ws := rfl

@[simp] theorem written_cons (w : Write κ α) (ws : List (Write κ α)) :
    written (w :: ws) = w.new ::ₘ written ws := rfl

theorem displaced_append (ws vs : List (Write κ α)) :
    displaced (ws ++ vs) = displaced ws + displaced vs := by
  rw [displaced, List.map_append]
  rfl

end Values

section Log

variable {κ α : Type} [DecidableEq κ]

/-- Make a write. -/
def Write.apply (w : Write κ α) (m : κ → α) : κ → α := Function.update m w.key w.new

/-- Take it back. -/
def Write.undo (w : Write κ α) (m : κ → α) : κ → α := Function.update m w.key w.old

/-- The map with a suffix of the log undone, the youngest write first. -/
def undoAll (ws : List (Write κ α)) (m : κ → α) : κ → α := ws.foldr Write.undo m

/-- The writes `ws` lead from `m₀` to `m`. -/
def Logged (m₀ : κ → α) : List (Write κ α) → (κ → α) → Prop
  | [], m => m = m₀
  | w :: ws, m => w.old = m₀ w.key ∧ Logged (w.apply m₀) ws m

@[simp] theorem undoAll_nil (m : κ → α) : undoAll [] m = m := rfl

@[simp] theorem undoAll_cons (w : Write κ α) (ws : List (Write κ α)) (m : κ → α) :
    undoAll (w :: ws) m = w.undo (undoAll ws m) := rfl

theorem undoAll_append (ws vs : List (Write κ α)) (m : κ → α) :
    undoAll (ws ++ vs) m = undoAll ws (undoAll vs m) := List.foldr_append

/-- Undoing a write right after it restores the map. -/
theorem Write.undo_apply (w : Write κ α) {m : κ → α} (h : w.old = m w.key) :
    w.undo (w.apply m) = m := by
  rw [Write.undo, Write.apply, Function.update_idem, h, Function.update_eq_self]

namespace Logged

variable {m₀ m : κ → α} {ws vs : List (Write κ α)}

theorem append : Logged m₀ (ws ++ vs) m ↔ ∃ m₁, Logged m₀ ws m₁ ∧ Logged m₁ vs m := by
  induction ws generalizing m₀ with
  | nil =>
      constructor
      · exact fun h => ⟨m₀, rfl, h⟩
      · rintro ⟨m₁, rfl, h⟩
        exact h
  | cons w ws ih =>
      constructor
      · rintro ⟨hw, h⟩
        obtain ⟨m₁, h₁, h₂⟩ := ih.mp h
        exact ⟨m₁, ⟨hw, h₁⟩, h₂⟩
      · rintro ⟨m₁, ⟨hw, h₁⟩, h₂⟩
        exact ⟨hw, ih.mpr ⟨m₁, h₁, h₂⟩⟩

/-- The log determines the map it started from. -/
theorem undoAll_eq (h : Logged m₀ ws m) : undoAll ws m = m₀ := by
  induction ws generalizing m₀ with
  | nil => exact h
  | cons w ws ih =>
      rw [undoAll_cons, ih h.2]
      exact w.undo_apply h.1

/-- Undoing a suffix of the log leaves the map the rest of the log leads to. -/
theorem undoAll (h : Logged m₀ (ws ++ vs) m) : Logged m₀ ws (undoAll vs m) := by
  obtain ⟨m₁, h₁, h₂⟩ := append.mp h
  rw [h₂.undoAll_eq]
  exact h₁

/-- The suffix starts from the map that undoing it gives. -/
theorem suffix (h : Logged m₀ (ws ++ vs) m) : Logged (RvO3.undoAll vs m) vs m := by
  obtain ⟨m₁, h₁, h₂⟩ := append.mp h
  rw [h₂.undoAll_eq]
  exact h₂

/-- A new write that records what it displaces. -/
theorem snoc (h : Logged m₀ ws m) {w : Write κ α} (hw : w.old = m w.key) :
    Logged m₀ (ws ++ [w]) (w.apply m) := append.mpr ⟨m, h, hw, rfl⟩

/-- Retiring the oldest write moves the first map forward. -/
theorem tail {w : Write κ α} (h : Logged m₀ (w :: ws) m) : Logged (w.apply m₀) ws m := h.2

/-- The newest write of a key determines its value. -/
theorem apply_eq (h : Logged m₀ ws m) (k : κ) :
    m k = ((ws.reverse.find? fun w => decide (w.key = k)).map Write.new).getD (m₀ k) := by
  induction ws generalizing m₀ with
  | nil => rw [show m = m₀ from h]; rfl
  | cons w ws ih =>
      rw [ih h.2, List.reverse_cons, List.find?_append]
      cases List.find? (fun w => decide (w.key = k)) ws.reverse with
      | some v => rfl
      | none =>
          by_cases hk : w.key = k
          · subst hk
            simp [Write.apply]
          · simp [Write.apply, hk, Ne.symm hk]

end Logged

end Log

/-! ## Conservation -/

section Conservation

variable {κ α : Type} [Fintype κ]

/-- What a map holds, each key counted. -/
def heldValues (m : κ → α) : Multiset α := Finset.univ.val.map m

theorem mem_heldValues {m : κ → α} {a : α} : a ∈ heldValues m ↔ ∃ k, m k = a := by
  simp [heldValues]

/-- A map that holds nothing twice has no two keys with one value. -/
theorem eq_of_heldValues_nodup {m : κ → α} (h : (heldValues m).Nodup) {j k : κ} (he : m j = m k) : j = k :=
  Multiset.inj_on_of_nodup_map h j (Finset.mem_univ j) k (Finset.mem_univ k) he

variable [DecidableEq κ] {m₀ m : κ → α}

theorem heldValues_update (m : κ → α) (k : κ) (a : α) :
    heldValues (Function.update m k a) + {m k} = heldValues m + {a} := by
  have hk : (Finset.univ : Finset κ).val = k ::ₘ (Finset.univ.erase k).val :=
    (congrArg Finset.val (Finset.insert_erase (Finset.mem_univ k)).symm).trans
      (Finset.insert_val_of_notMem (Finset.notMem_erase k _))
  have hrest : (Finset.univ.erase k).val.map (Function.update m k a) =
      (Finset.univ.erase k).val.map m := by
    apply Multiset.map_congr rfl
    intro j hj
    exact Function.update_of_ne (Finset.ne_of_mem_erase (Finset.mem_val.mp hj)) a m
  rw [heldValues, heldValues, hk, Multiset.map_cons, Multiset.map_cons, hrest, Function.update_self,
    ← Multiset.singleton_add, ← Multiset.singleton_add]
  abel

/-- Writes move values: nothing is lost and nothing is made. -/
theorem Logged.conserved {ws : List (Write κ α)} (h : Logged m₀ ws m) :
    heldValues m + displaced ws = heldValues m₀ + written ws := by
  induction ws generalizing m₀ with
  | nil => rw [show m = m₀ from h]; rfl
  | cons w ws ih =>
      have hw : heldValues (w.apply m₀) + {w.old} = heldValues m₀ + {w.new} := by
        rw [h.1]
        exact heldValues_update m₀ w.key w.new
      calc heldValues m + displaced (w :: ws)
          = (heldValues m + displaced ws) + {w.old} := by
            rw [displaced_cons, ← Multiset.singleton_add]
            abel
        _ = (heldValues (w.apply m₀) + {w.old}) + written ws := by
            rw [ih h.2]
            abel
        _ = heldValues m₀ + written (w :: ws) := by
            rw [hw, written_cons, ← Multiset.singleton_add]
            abel

end Conservation

end RvO3
