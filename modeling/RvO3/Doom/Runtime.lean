import Mathlib.Data.List.FinRange
import Mathlib.Logic.Function.Basic
import Mathlib.Tactic.Common
import RvO3.Isa.Instr

/-!
# The file layer of the Doom guest

`open`, `close`, `read`, `lseek`, `fstat`, `stat` and `access` of `doom/runtime.c`, over the one file that
there is, the WAD linked into the guest. Each of the eight descriptors is free or holds a read
position.

The client of these calls knows a descriptor by the answers it got: where it was opened, moved
and read on to (`cursor`). In every session the answers are those that a file with these
positions gives (`Session.meets`), so calls on other descriptors never move a position
(`Session.reads_prefix`). A call that fails sets `errno` and returns `-1`: here, it returns the error.
-/

set_option autoImplicit false

namespace RvO3.Doom

/-! ## The calls -/

/-- The error numbers that the file layer returns. -/
inductive Errno
  | ENOENT | EROFS | EMFILE | EBADF | EINVAL
  deriving DecidableEq, Repr

/-- The number of descriptors. -/
def MAX_FILES : Nat := 8

/-- The largest position. -/
def INT32_MAX : Int := 2 ^ 31 - 1

/-- An element of `files`. The position of a free one is left over. -/
structure FileSlot where
  used : Bool
  position : Nat
  deriving DecidableEq, Repr

/-- The table of descriptors. -/
abbrev Files := Fin MAX_FILES → FileSlot

/-- No descriptor is open. -/
def Files.boot : Files := fun _ => ⟨false, 0⟩

/-- What `open` looks at in its flags: the access mode, `O_CREAT` and `O_TRUNC`. -/
structure OpenFlags where
  rdonly : Bool
  creat : Bool
  trunc : Bool
  deriving DecidableEq, Repr

/-- The origin of a seek; `other` stands for every invalid one. -/
inductive Whence
  | SEEK_SET | SEEK_CUR | SEEK_END | other
  deriving DecidableEq, Repr

/-- There is one file, under two names. -/
def isWad (path : String) : Bool := path = "game.wad" || path = "./game.wad"

namespace Files

/-- The slot of a descriptor, when it is open. -/
def validFd (files : Files) (fd : Int) : Option (Fin MAX_FILES) :=
  if h : 3 ≤ fd ∧ fd < 3 + MAX_FILES then
    if (files ⟨(fd - 3).toNat, by omega⟩).used then some ⟨(fd - 3).toNat, by omega⟩ else none
  else none

/-- The loop of `open`: the first descriptor that is free. -/
def freeSlot (files : Files) : Option (Fin MAX_FILES) := (List.finRange MAX_FILES).find? fun i => !(files i).used

/-- `open`: the WAD, for reading, at the lowest descriptor that is free. Descriptors start at 3. -/
def openFile (files : Files) (path : String) (flags : OpenFlags) : Except Errno Int × Files :=
  if !isWad path then (.error .ENOENT, files)
  else if !flags.rdonly || (flags.creat || flags.trunc) then (.error .EROFS, files)
  else match files.freeSlot with
    | some i => (.ok (i.val + 3), Function.update files i ⟨true, 0⟩)
    | none => (.error .EMFILE, files)

/-- `close`: the position stays in the slot, and the next `open` resets it. -/
def close (files : Files) (fd : Int) : Except Errno Unit × Files :=
  match files.validFd fd with
  | none => (.error .EBADF, files)
  | some i => (.ok (), Function.update files i { files i with used := false })

/-- The bytes that are copied to the buffer; the count that is returned is their number. -/
def read (wad : List Byte) (files : Files) (fd : Int) (count : Nat) : Except Errno (List Byte) × Files :=
  match files.validFd fd with
  | none => (.error .EBADF, files)
  | some i =>
      let pos := (files i).position
      let remaining := if pos < wad.length then wad.length - pos else 0
      let count := if count > remaining then remaining else count
      (.ok ((wad.drop pos).take count), Function.update files i { files i with position := pos + count })

/-- `base`, or no such `whence`. -/
def seekBase (wad : List Byte) (position : Nat) : Whence → Option Int
  | .SEEK_SET => some 0
  | .SEEK_CUR => some position
  | .SEEK_END => some wad.length
  | .other => none

/-- `lseek`: the new position is from 0 to `INT32_MAX`, and may lie beyond the end of the file. -/
def lseek (wad : List Byte) (files : Files) (fd offset : Int) (whence : Whence) : Except Errno Int × Files :=
  match files.validFd fd with
  | none => (.error .EBADF, files)
  | some i =>
      match seekBase wad (files i).position whence with
      | none => (.error .EINVAL, files)
      | some base =>
          let pos := base + offset
          if pos < 0 ∨ INT32_MAX < pos then (.error .EINVAL, files)
          else (.ok pos, Function.update files i { files i with position := pos.toNat })

/-- `st_size`: the other fields are constant. -/
def fstat (wad : List Byte) (files : Files) (fd : Int) : Except Errno Nat :=
  match files.validFd fd with
  | none => .error .EBADF
  | some _ => .ok wad.length

/-- A descriptor is taken for the time of the call. -/
def stat (wad : List Byte) (files : Files) (path : String) : Except Errno Nat × Files :=
  match files.openFile path ⟨true, false, false⟩ with
  | (.error e, files) => (.error e, files)
  | (.ok fd, files) => (files.fstat wad fd, (files.close fd).2)

/-- `access`: the WAD can be read and not written. -/
def access (path : String) (wOk : Bool) : Except Errno Unit :=
  if !isWad path then .error .ENOENT else if wOk then .error .EROFS else .ok ()

end Files

/-- `wad_read` of `doom/wad_io.c`, which asks for no descriptor. -/
def wadRead (wad : List Byte) (offset length : Nat) : List Byte :=
  if offset ≥ wad.length then []
  else
    let length := if length > wad.length - offset then wad.length - offset else length
    (wad.drop offset).take length

/-- The next block of the heap, and the new `top`, which is null before the first call. -/
def sbrk (heapStart heapEnd top : Nat) (increment : Int) : Option Nat × Nat :=
  let top := if top = 0 then heapStart else top
  if increment < 0 ∨ (heapEnd : Int) - top < increment then (none, top) else (some top, top + increment.toNat)

/-! ## Sessions -/

/-- The calls of the file layer, with their arguments. -/
inductive Call
  | openFile (path : String) (flags : OpenFlags)
  | close (fd : Int)
  | read (fd : Int) (count : Nat)
  | lseek (fd offset : Int) (whence : Whence)
  | fstat (fd : Int)
  | stat (path : String)
  | access (path : String) (wOk : Bool)
  deriving DecidableEq, Repr

/-- What a call that succeeds returns. -/
inductive Reply
  | fd (n : Int)
  | bytes (data : List Byte)
  | pos (p : Int)
  | size (n : Nat)
  | done
  deriving DecidableEq, Repr

/-- What a call returns: a reply, or the error in `errno`. -/
abbrev Answer := Except Errno Reply

/-- The table after a call, and what the call returns. -/
def Files.call (wad : List Byte) (files : Files) : Call → Answer × Files
  | .openFile path flags => (files.openFile path flags).map (·.map .fd) id
  | .close fd => (files.close fd).map (·.map fun _ => .done) id
  | .read fd count => (files.read wad fd count).map (·.map .bytes) id
  | .lseek fd offset whence => (files.lseek wad fd offset whence).map (·.map .pos) id
  | .fstat fd => ((files.fstat wad fd).map .size, files)
  | .stat path => (files.stat wad path).map (·.map .size) id
  | .access path wOk => ((Files.access path wOk).map fun _ => .done, files)

/-- The calls from the start on, each with its answer, and the descriptors after them. -/
inductive Session (wad : List Byte) : List (Call × Answer) → Files → Prop
  | boot : Session wad [] .boot
  | call {log : List (Call × Answer)} {files : Files} (h : Session wad log files) (c : Call) :
      Session wad (log ++ [(c, (files.call wad c).1)]) (files.call wad c).2

/-! ## What the client sees -/

/-- A position is known from the answers: `none` for a descriptor that is not open. -/
def follow (cur : Int → Option Nat) : Call → Answer → Int → Option Nat
  | .openFile _ _, .ok (.fd n) => Function.update cur n (some 0)
  | .close fd, .ok .done => Function.update cur fd none
  | .read fd _, .ok (.bytes data) => Function.update cur fd ((cur fd).map (· + data.length))
  | .lseek fd _ _, .ok (.pos p) => Function.update cur fd (some p.toNat)
  | _, _ => cur

/-- The read position of each open descriptor, as a client works it out from its own calls and their
answers. This knows nothing of the table. -/
def cursor (log : List (Call × Answer)) : Int → Option Nat :=
  log.foldl (fun cur e => follow cur e.1 e.2) fun _ => none

/-- A descriptor that `open` may give. -/
def Descriptor (n : Int) : Prop := 3 ≤ n ∧ n < 3 + MAX_FILES

/-- Where a seek leads. -/
def seeked (wad : List Byte) (p : Nat) (offset : Int) (whence : Whence) : Answer :=
  match Files.seekBase wad p whence with
  | none => .error .EINVAL
  | some base => if 0 ≤ base + offset ∧ base + offset ≤ INT32_MAX then .ok (.pos (base + offset)) else .error .EINVAL

/-- The answer of a file whose open descriptors have the positions `cur`. -/
def Meets (wad : List Byte) (cur : Int → Option Nat) : Call → Answer → Prop
  | .openFile path flags, a =>
      if isWad path = false then a = .error .ENOENT
      else if flags ≠ ⟨true, false, false⟩ then a = .error .EROFS
      else (∃ n, a = .ok (.fd n) ∧ Descriptor n ∧ cur n = none ∧ ∀ k, 3 ≤ k → k < n → cur k ≠ none) ∨
        a = .error .EMFILE ∧ ∀ n, Descriptor n → cur n ≠ none
  | .close fd, a => a = (cur fd).elim (.error .EBADF) fun _ => .ok .done
  | .read fd count, a => a = (cur fd).elim (.error .EBADF) fun p => .ok (.bytes ((wad.drop p).take count))
  | .lseek fd offset whence, a => a = (cur fd).elim (.error .EBADF) fun p => seeked wad p offset whence
  | .fstat fd, a => a = (cur fd).elim (.error .EBADF) fun _ => .ok (.size wad.length)
  | .stat path, a =>
      if isWad path = false then a = .error .ENOENT
      else a = .ok (.size wad.length) ∧ (∃ n, Descriptor n ∧ cur n = none) ∨
        a = .error .EMFILE ∧ ∀ n, Descriptor n → cur n ≠ none
  | .access path wOk, a =>
      a = if isWad path then (if wOk then .error .EROFS else .ok .done) else .error .ENOENT

/-! ## Descriptors and positions -/

section View

variable {wad : List Byte} {files : Files} {fd n : Int} {i : Fin MAX_FILES}

/-- The positions of the open descriptors. -/
def Files.view (files : Files) (fd : Int) : Option Nat :=
  (files.validFd fd).map fun i => (files i).position

theorem validFd_eq_some : files.validFd fd = some i ↔ fd = i.val + 3 ∧ (files i).used = true := by
  constructor
  · intro h
    unfold Files.validFd at h
    split at h
    · split at h
      · obtain rfl := Option.some.inj h
        refine ⟨?_, by assumption⟩
        show fd = ((fd - 3).toNat : Int) + 3
        omega
      · cases h
    · cases h
  · rintro ⟨rfl, hu⟩
    have hi : (⟨((i.val : Int) + 3 - 3).toNat, by omega⟩ : Fin MAX_FILES) = i := by
      apply Fin.ext
      show ((i.val : Int) + 3 - 3).toNat = i.val
      omega
    unfold Files.validFd
    rw [dif_pos ⟨by omega, by omega⟩]
    simp only [hi, hu, if_true]

theorem descriptor_iff : Descriptor n ↔ ∃ i : Fin MAX_FILES, n = i.val + 3 := by
  constructor
  · intro h
    exact ⟨⟨(n - 3).toNat, by have := h.1; have := h.2; omega⟩, by have := h.1; show n = ((n - 3).toNat : Int) + 3; omega⟩
  · rintro ⟨i, rfl⟩
    exact ⟨by omega, by omega⟩

/-- A descriptor that is not open is none, or its slot is free. -/
theorem view_slot : files.view (i.val + 3) = if (files i).used then some (files i).position else none := by
  unfold Files.view
  by_cases hu : (files i).used = true
  · rw [validFd_eq_some.mpr ⟨rfl, hu⟩, if_pos hu]
    rfl
  · rw [if_neg hu, Option.map_eq_none_iff, Option.eq_none_iff_forall_ne_some]
    intro j hj
    obtain ⟨hij, huj⟩ := validFd_eq_some.mp hj
    have heq : i = j := Fin.ext (by omega)
    exact hu (heq ▸ huj)

theorem view_of_not_descriptor (h : ¬ Descriptor fd) : files.view fd = none := by
  unfold Files.view
  rw [Option.map_eq_none_iff, Option.eq_none_iff_forall_ne_some]
  intro j hj
  exact h (descriptor_iff.mpr ⟨j, (validFd_eq_some.mp hj).1⟩)

/-- A change of one slot is a change of one descriptor. -/
theorem view_update (s : FileSlot) : Files.view (Function.update files i s) =
    Function.update files.view (i.val + 3) (if s.used then some s.position else none) := by
  funext n
  by_cases hd : Descriptor n
  · obtain ⟨j, rfl⟩ := descriptor_iff.mp hd
    by_cases hj : j = i
    · subst hj
      rw [view_slot, Function.update_self, Function.update_self]
    · have hne : (j.val : Int) + 3 ≠ i.val + 3 := by
        intro h
        exact hj (Fin.ext (by omega))
      rw [view_slot, Function.update_of_ne hj, Function.update_of_ne hne, view_slot]
  · have hne : n ≠ i.val + 3 := by
      rintro rfl
      exact hd (descriptor_iff.mpr ⟨i, rfl⟩)
    rw [view_of_not_descriptor hd, Function.update_of_ne hne, view_of_not_descriptor hd]

theorem view_boot : Files.boot.view = fun _ => none := by
  funext n
  by_cases hd : Descriptor n
  · obtain ⟨j, rfl⟩ := descriptor_iff.mp hd
    rw [view_slot]
    rfl
  · exact view_of_not_descriptor hd

theorem freeSlot_eq_some (h : files.freeSlot = some i) :
    (files i).used = false ∧ ∀ j < i, (files j).used = true := by
  obtain ⟨hi, k, hk, rfl, hlow⟩ := List.find?_eq_some_iff_getElem.mp h
  rw [Bool.not_eq_true'] at hi
  refine ⟨hi, fun j hj => ?_⟩
  rw [Fin.lt_def, List.getElem_finRange] at hj
  have hlast := hlow j.val hj
  rw [List.getElem_finRange, Bool.not_not] at hlast
  exact hlast

theorem freeSlot_eq_none (h : files.freeSlot = none) (i : Fin MAX_FILES) : (files i).used = true := by
  have hi := List.find?_eq_none.mp h i (List.mem_finRange i)
  rwa [Bool.not_eq_true, Bool.not_eq_false'] at hi

/-- All descriptors are open when there is no free slot. -/
theorem view_full (h : files.freeSlot = none) : ∀ n, Descriptor n → files.view n ≠ none := by
  intro n hn
  obtain ⟨i, rfl⟩ := descriptor_iff.mp hn
  rw [view_slot, if_pos (freeSlot_eq_none h i)]
  exact Option.some_ne_none _

theorem view_free (h : files.freeSlot = some i) : files.view (i.val + 3) = none := by
  rw [view_slot, (freeSlot_eq_some h).1]
  exact if_neg Bool.false_ne_true

/-- A descriptor is given by the first free slot. -/
theorem view_below (h : files.freeSlot = some i) : ∀ k, 3 ≤ k → k < (i.val : Int) + 3 → files.view k ≠ none := by
  intro k hk hlt
  obtain ⟨j, rfl⟩ := descriptor_iff.mp ⟨hk, by omega⟩
  rw [view_slot, if_pos ((freeSlot_eq_some h).2 j (Fin.lt_def.mpr (by omega)))]
  exact Option.some_ne_none _

/-- An open descriptor and its slot. -/
theorem view_of_validFd (h : files.validFd fd = some i) :
    fd = i.val + 3 ∧ (files i).used = true ∧ files.view fd = some (files i).position := by
  obtain ⟨hfd, hu⟩ := validFd_eq_some.mp h
  exact ⟨hfd, hu, by rw [Files.view, h]; rfl⟩

theorem view_of_invalid (h : files.validFd fd = none) : files.view fd = none := by
  rw [Files.view, h]
  rfl

end View

/-! ## One call -/

section Calls

variable {wad : List Byte} {files : Files}

/-- The bytes up to the end of the file. -/
theorem take_remaining (wad : List Byte) (pos count : Nat) :
    (wad.drop pos).take (if count > (if pos < wad.length then wad.length - pos else 0) then
      (if pos < wad.length then wad.length - pos else 0) else count) = (wad.drop pos).take count := by
  have hlen : (wad.drop pos).length = if pos < wad.length then wad.length - pos else 0 := by
    rw [List.length_drop]
    split <;> omega
  rw [← hlen]
  split
  · rw [List.take_length, List.take_of_length_le (by omega)]
  · rfl

theorem openFile_view (path : String) (flags : OpenFlags) : (files.call wad (.openFile path flags)).2.view =
    follow files.view (.openFile path flags) (files.call wad (.openFile path flags)).1 := by
  simp only [Files.call, Files.openFile]
  split
  · rfl
  · split
    · rfl
    · split
      · exact view_update _
      · rfl

theorem close_view (fd : Int) : (files.call wad (.close fd)).2.view =
    follow files.view (.close fd) (files.call wad (.close fd)).1 := by
  simp only [Files.call, Files.close]
  split
  · rfl
  · rename_i i hi
    obtain ⟨rfl, -, -⟩ := view_of_validFd hi
    exact view_update _

theorem read_view (fd : Int) (count : Nat) : (files.call wad (.read fd count)).2.view =
    follow files.view (.read fd count) (files.call wad (.read fd count)).1 := by
  simp only [Files.call, Files.read]
  split
  · rfl
  · rename_i i hi
    obtain ⟨rfl, hu, hv⟩ := view_of_validFd hi
    have hlen : (List.take count ((wad.drop (files i).position))).length =
        if count > (if (files i).position < wad.length then wad.length - (files i).position else 0) then
          (if (files i).position < wad.length then wad.length - (files i).position else 0) else count := by
      rw [List.length_take, List.length_drop]
      split <;> split at * <;> omega
    apply (view_update _).trans
    simp only [Prod.map, Except.map, follow, hv, Option.map_some, take_remaining, hlen, hu, if_true]

theorem lseek_view (fd offset : Int) (whence : Whence) : (files.call wad (.lseek fd offset whence)).2.view =
    follow files.view (.lseek fd offset whence) (files.call wad (.lseek fd offset whence)).1 := by
  simp only [Files.call, Files.lseek]
  split
  · rfl
  · rename_i i hi
    obtain ⟨rfl, hu, -⟩ := view_of_validFd hi
    split
    · rfl
    · split
      · rfl
      · apply (view_update _).trans
        simp only [Prod.map, Except.map, follow, hu, if_true]

/-- The descriptor that `stat` takes is free again after it. -/
theorem stat_view (path : String) : (files.call wad (.stat path)).2.view = files.view := by
  have hrest : (files.stat wad path).2.view = files.view := by
    unfold Files.stat Files.openFile
    split
    · rename_i hres
      split at hres
      · obtain ⟨-, rfl⟩ := Prod.mk.inj hres
        rfl
      · split at hres
        · obtain ⟨-, rfl⟩ := Prod.mk.inj hres
          rfl
        · split at hres
          · cases hres
          · obtain ⟨-, rfl⟩ := Prod.mk.inj hres
            rfl
    · rename_i fd files' hres
      split at hres
      · cases hres
      · split at hres
        · cases hres
        · split at hres
          · rename_i i hi
            obtain ⟨hfd, rfl⟩ := Prod.mk.inj hres
            obtain rfl := Except.ok.inj hfd
            have hv : Files.validFd (Function.update files i ⟨true, 0⟩) (i.val + 3) = some i :=
              validFd_eq_some.mpr ⟨rfl, by rw [Function.update_self]⟩
            dsimp only
            unfold Files.close
            rw [hv]
            dsimp only
            rw [Function.update_idem, view_update, Function.update_eq_self_iff]
            exact (view_free hi).symm
          · cases hres
  exact hrest

/-! ### The answers -/

theorem openFile_meets (path : String) (flags : OpenFlags) :
    Meets wad files.view (.openFile path flags) (files.call wad (.openFile path flags)).1 := by
  have hflags : flags ≠ ⟨true, false, false⟩ ↔ (!flags.rdonly || (flags.creat || flags.trunc)) = true := by
    rcases flags with ⟨_ | _, _ | _, _ | _⟩ <;> decide
  simp only [Files.call, Files.openFile, Meets]
  by_cases hp : isWad path = true
  · have hp' : ¬ isWad path = false := by rw [hp]; decide
    have hq : ¬ (!isWad path) = true := by rw [hp]; decide
    rw [if_neg hp', if_neg hq]
    by_cases hf : flags ≠ ⟨true, false, false⟩
    · rw [if_pos hf, if_pos (hflags.mp hf)]
      rfl
    · rw [if_neg hf, if_neg fun h => hf (hflags.mpr h)]
      cases hs : files.freeSlot with
      | none => exact .inr ⟨rfl, view_full hs⟩
      | some i => exact .inl ⟨_, rfl, descriptor_iff.mpr ⟨i, rfl⟩, view_free hs, view_below hs⟩
  · rw [Bool.not_eq_true] at hp
    rw [if_pos hp, if_pos (show (!isWad path) = true by rw [hp]; rfl)]
    rfl

theorem close_meets (fd : Int) : Meets wad files.view (.close fd) (files.call wad (.close fd)).1 := by
  simp only [Files.call, Files.close, Meets]
  cases hi : files.validFd fd with
  | none => rw [view_of_invalid hi]; rfl
  | some i => rw [(view_of_validFd hi).2.2]; rfl

theorem read_meets (fd : Int) (count : Nat) :
    Meets wad files.view (.read fd count) (files.call wad (.read fd count)).1 := by
  simp only [Files.call, Files.read, Meets]
  cases hi : files.validFd fd with
  | none => rw [view_of_invalid hi]; rfl
  | some i =>
      rw [(view_of_validFd hi).2.2]
      dsimp only
      rw [take_remaining]
      rfl

theorem lseek_meets (fd offset : Int) (whence : Whence) :
    Meets wad files.view (.lseek fd offset whence) (files.call wad (.lseek fd offset whence)).1 := by
  simp only [Files.call, Files.lseek, Meets]
  cases hi : files.validFd fd with
  | none => rw [view_of_invalid hi]; rfl
  | some i =>
      rw [(view_of_validFd hi).2.2, Option.elim_some]
      simp only [seeked]
      cases hb : Files.seekBase wad (files i).position whence with
      | none => rfl
      | some base =>
          dsimp only
          by_cases hpos : 0 ≤ base + offset ∧ base + offset ≤ INT32_MAX
          · rw [if_pos hpos, if_neg (by omega)]
            rfl
          · rw [if_neg hpos, if_pos (by omega)]
            rfl

theorem stat_meets (path : String) : Meets wad files.view (.stat path) (files.call wad (.stat path)).1 := by
  simp only [Files.call, Files.stat, Files.openFile, Meets]
  by_cases hp : isWad path = true
  · have hp' : ¬ isWad path = false := by rw [hp]; decide
    have hq : ¬ (!isWad path) = true := by rw [hp]; decide
    rw [if_neg hp', if_neg hq, if_neg (show ¬ (!true || (false || false)) = true by decide)]
    cases hs : files.freeSlot with
    | none => exact .inr ⟨rfl, view_full hs⟩
    | some i =>
        have hv : Files.validFd (Function.update files i ⟨true, 0⟩) (i.val + 3) = some i :=
          validFd_eq_some.mpr ⟨rfl, by rw [Function.update_self]⟩
        refine .inl ⟨?_, _, descriptor_iff.mpr ⟨i, rfl⟩, view_free hs⟩
        dsimp only [Prod.map]
        rw [Files.fstat, hv]
        rfl
  · rw [Bool.not_eq_true] at hp
    rw [if_pos hp, if_pos (show (!isWad path) = true by rw [hp]; rfl)]
    rfl

/-- Every answer is that of a file with the positions before the call. -/
theorem call_meets (c : Call) : Meets wad files.view c (files.call wad c).1 := by
  cases c with
  | openFile path flags => exact openFile_meets path flags
  | close fd => exact close_meets fd
  | read fd count => exact read_meets fd count
  | lseek fd offset whence => exact lseek_meets fd offset whence
  | stat path => exact stat_meets path
  | fstat fd =>
      simp only [Files.call, Files.fstat, Meets]
      cases hi : files.validFd fd with
      | none => rw [view_of_invalid hi]; rfl
      | some i => rw [(view_of_validFd hi).2.2]; rfl
  | access path wOk =>
      simp only [Files.call, Files.access, Meets]
      cases isWad path <;> cases wOk <;> rfl

/-- The positions after a call are those that its answer tells. -/
theorem call_view (c : Call) : (files.call wad c).2.view = follow files.view c (files.call wad c).1 := by
  cases c with
  | openFile path flags => exact openFile_view path flags
  | close fd => exact close_view fd
  | read fd count => exact read_view fd count
  | lseek fd offset whence => exact lseek_view fd offset whence
  | stat path => exact stat_view path
  | fstat fd => rfl
  | access path wOk => rfl

end Calls

/-! ## Whole sessions -/

section Sessions

variable {wad : List Byte} {log before after : List (Call × Answer)} {files : Files} {fd : Int}

theorem cursor_snoc (log : List (Call × Answer)) (c : Call) (a : Answer) :
    cursor (log ++ [(c, a)]) = follow (cursor log) c a := by
  unfold cursor
  rw [List.foldl_append]
  rfl

/-- The client knows the positions. -/
theorem Session.cursor_eq (h : Session wad log files) : cursor log = files.view := by
  induction h with
  | boot => exact view_boot.symm
  | call _ c ih => rw [cursor_snoc, ih, call_view]

/-- **The file layer.** In every session, each call is answered as a file with the client's
positions answers it. -/
theorem Session.meets (h : Session wad log files) (c : Call) : Meets wad (cursor log) c (files.call wad c).1 := by
  rw [h.cursor_eq]
  exact call_meets c

/-- After two bytes of a file of three, the third. -/
theorem Session.meets_last : ∃ log files, Session [1, 2, 3] log files ∧ cursor log 3 = some 2 ∧
    Meets [1, 2, 3] (cursor log) (.read 3 2) (files.call [1, 2, 3] (.read 3 2)).1 := by
  have h := ((@Session.boot [1, 2, 3]).call (.openFile "game.wad" ⟨true, false, false⟩)).call (.read 3 2)
  exact ⟨_, _, h, by decide, Session.meets h _⟩

/-- The bytes that reads of a descriptor returned, in order. -/
def bytesRead (fd : Int) (log : List (Call × Answer)) : List Byte :=
  log.flatMap fun e =>
    match e with
    | (.read n _, .ok (.bytes data)) => if n = fd then data else []
    | _ => []

/-- The call neither moves nor closes the descriptor. -/
def Call.leaves (fd : Int) : Call → Bool
  | .close n => n != fd
  | .lseek n _ _ => n != fd
  | _ => true

theorem bytesRead_snoc (fd : Int) (log : List (Call × Answer)) (e : Call × Answer) :
    bytesRead fd (log ++ [e]) = bytesRead fd log ++ bytesRead fd [e] := List.flatMap_append

/-- A call that leaves the descriptor alone moves it by what it reads. -/
theorem follow_of_leaves {cur : Int → Option Nat} {c : Call} {a : Answer} {p : Nat} (hcur : cur fd = some p)
    (hc : c.leaves fd = true) (ha : Meets wad cur c a) :
    follow cur c a fd = some (p + (bytesRead fd [(c, a)]).length) ∧
      bytesRead fd [(c, a)] = (wad.drop p).take (bytesRead fd [(c, a)]).length := by
  have hquiet : bytesRead fd [(c, a)] = [] → follow cur c a fd = cur fd →
      follow cur c a fd = some (p + (bytesRead fd [(c, a)]).length) ∧
        bytesRead fd [(c, a)] = (wad.drop p).take (bytesRead fd [(c, a)]).length := by
    intro hb hf
    rw [hb, hf, hcur]
    exact ⟨rfl, rfl⟩
  cases c with
  | openFile path flags =>
      apply hquiet rfl
      unfold Meets at ha
      dsimp only at ha
      split at ha
      · rw [ha]; rfl
      · split at ha
        · rw [ha]; rfl
        · rcases ha with ⟨n, rfl, -, hn, -⟩ | ⟨rfl, -⟩
          · -- the new descriptor was not open
            apply Function.update_of_ne
            rintro rfl
            rw [hn] at hcur
            cases hcur
          · rfl
  | close n =>
      apply hquiet rfl
      cases hn : cur n with
      | none => rw [show a = _ from ha, hn]; rfl
      | some q =>
          rw [show a = _ from ha, hn]
          exact Function.update_of_ne (bne_iff_ne.mp hc).symm _ _
  | read n count =>
      cases hn : cur n with
      | none =>
          rw [show a = _ from ha, hn] at hquiet ⊢
          exact hquiet rfl rfl
      | some q =>
          rw [show a = _ from ha, hn] at hquiet ⊢
          by_cases heq : n = fd
          · subst heq
            obtain rfl : q = p := Option.some.inj (hn.symm.trans hcur)
            have hb : bytesRead n [(.read n count, .ok (.bytes ((wad.drop q).take count)))] =
                (wad.drop q).take count := (List.append_nil _).trans (if_pos rfl)
            refine ⟨?_, ?_⟩
            · apply (Function.update_self ..).trans
              rw [hn, Option.elim_some, hb]
              rfl
            · rw [Option.elim_some, hb, List.length_take, ← List.take_take, List.take_length]
          · apply hquiet
            · exact (List.append_nil _).trans (if_neg heq)
            · exact Function.update_of_ne (Ne.symm heq) _ _
  | lseek n offset whence =>
      apply hquiet rfl
      cases hn : cur n with
      | none => rw [show a = _ from ha, hn]; rfl
      | some q =>
          rw [show a = _ from ha, hn, Option.elim_some]
          unfold seeked
          split
          · rfl
          · split
            · exact Function.update_of_ne (bne_iff_ne.mp hc).symm _ _
            · rfl
  | fstat n => exact hquiet rfl rfl
  | stat path => exact hquiet rfl rfl
  | access path wOk => exact hquiet rfl rfl

/-- What one descriptor reads after its `open`, in the midst of whatever else the session does, is
a prefix of the file. -/
theorem Session.reads_prefix (h : Session wad log files) {path : String} {flags : OpenFlags}
    (hlog : log = before ++ (.openFile path flags, .ok (.fd fd)) :: after) (hafter : ∀ e ∈ after, e.1.leaves fd = true) :
    bytesRead fd after = wad.take (bytesRead fd after).length ∧
      cursor log fd = some (bytesRead fd after).length := by
  induction h generalizing after with
  | boot => exact absurd hlog.symm (List.append_ne_nil_of_right_ne_nil _ (List.cons_ne_nil _ _))
  | @call log files h c ih =>
      rcases List.eq_nil_or_concat after with rfl | ⟨rest, e, rfl⟩
      · -- the `open` itself
        obtain ⟨-, he⟩ := List.append_inj' hlog rfl
        rw [cursor_snoc]
        obtain ⟨hc, ha⟩ := Prod.mk.inj (List.cons.inj he).1
        rw [ha, hc]
        exact ⟨rfl, Function.update_self ..⟩
      · rw [List.concat_eq_append] at hlog hafter ⊢
        rw [← List.cons_append, ← List.append_assoc] at hlog
        obtain ⟨hinit, he⟩ := List.append_inj' hlog rfl
        obtain rfl := (List.cons.inj he).1
        obtain ⟨hpre, hcur⟩ := ih hinit fun e he => hafter e (List.mem_append_left _ he)
        obtain ⟨hnext, hdata⟩ := follow_of_leaves hcur (hafter _ (List.mem_append_right _ (List.mem_singleton.mpr rfl)))
          (h.meets c)
        rw [cursor_snoc, bytesRead_snoc, List.length_append, hnext]
        refine ⟨?_, rfl⟩
        rw [List.take_add, ← hpre, ← hdata]

/-- Two reads, and an `open` of another descriptor between them. -/
theorem Session.reads_prefix_twice : ∃ log files, Session [1, 2, 3] log files ∧ cursor log 3 = some 3 ∧
    bytesRead 3 log = [1, 2, 3] := by
  have h := ((((@Session.boot [1, 2, 3]).call (.openFile "game.wad" ⟨true, false, false⟩)).call
    (.read 3 2)).call (.openFile "game.wad" ⟨true, false, false⟩)).call (.read 3 2)
  obtain ⟨hbytes, hcur⟩ := @Session.reads_prefix _ _ [] _ _ 3 h "game.wad" ⟨true, false, false⟩ rfl (by decide)
  exact ⟨_, _, h, hcur, hbytes⟩

/-! ### Positions in range -/

theorem follow_le (hwad : (wad.length : Int) ≤ INT32_MAX) {cur : Int → Option Nat} {c : Call} {a : Answer}
    (hcur : ∀ fd p, cur fd = some p → (p : Int) ≤ INT32_MAX) (ha : Meets wad cur c a) :
    ∀ fd p, follow cur c a fd = some p → (p : Int) ≤ INT32_MAX := by
  have hupdate : ∀ (n : Int) (o : Option Nat), (∀ p, o = some p → (p : Int) ≤ INT32_MAX) →
      ∀ fd p, Function.update cur n o fd = some p → (p : Int) ≤ INT32_MAX := by
    intro n o ho fd p hp
    rw [Function.update_apply] at hp
    split at hp
    · exact ho p hp
    · exact hcur fd p hp
  unfold follow
  split
  · apply hupdate
    intro p hp
    cases hp
    exact Int.le_trans (Int.natCast_nonneg _) hwad
  · exact hupdate _ _ fun p hp => absurd hp (Option.some_ne_none p).symm
  · rename_i n count data
    apply hupdate
    intro p hp
    obtain ⟨q, hq, rfl⟩ := Option.map_eq_some_iff.mp hp
    have hdata : data = (wad.drop q).take count := by
      have heq : (Except.ok (.bytes data) : Answer) = _ := ha
      rw [hq] at heq
      exact Reply.bytes.inj (Except.ok.inj heq)
    -- a read does not go past the end
    have hlen : data.length ≤ wad.length - q := by
      rw [hdata, List.length_take, List.length_drop]
      exact Nat.min_le_right _ _
    have hq' := hcur n q hq
    omega
  · rename_i n offset whence pos
    apply hupdate
    intro p hp
    cases hp
    have heq : (Except.ok (.pos pos) : Answer) = _ := ha
    cases hq : cur n with
    | none => rw [hq] at heq; cases heq
    | some q =>
        rw [hq, Option.elim_some] at heq
        unfold seeked at heq
        split at heq
        · cases heq
        · split at heq
          · rename_i hrange
            obtain rfl := Reply.pos.inj (Except.ok.inj heq)
            rw [Int.toNat_of_nonneg hrange.1]
            exact hrange.2
          · cases heq
  · exact hcur

/-- No position overflows `off_t`, whatever is read and wherever it is moved. -/
theorem Session.position_le (h : Session wad log files) (hwad : (wad.length : Int) ≤ INT32_MAX) :
    ∀ fd p, cursor log fd = some p → (p : Int) ≤ INT32_MAX := by
  induction h with
  | boot => exact fun fd p hp => absurd hp (Option.some_ne_none p).symm
  | call h c ih =>
      rw [cursor_snoc]
      exact follow_le hwad ih (h.meets c)

/-! ### Reading around the descriptors -/

theorem wadRead_eq (wad : List Byte) (offset length : Nat) :
    wadRead wad offset length = (wad.drop offset).take length := by
  unfold wadRead
  split
  · rw [List.drop_eq_nil_of_le (by omega), List.take_nil]
  · have hrest := take_remaining wad offset length
    rw [if_pos (show offset < wad.length by omega)] at hrest
    exact hrest

/-- `wad_read` copies what a seek and a read of an open descriptor copy. -/
theorem Session.seek_read (h : Session wad log files) (hfd : cursor log fd ≠ none) {offset : Nat}
    (hoff : (offset : Int) ≤ INT32_MAX) (count : Nat) :
    ((files.call wad (.lseek fd offset .SEEK_SET)).2.call wad (.read fd count)).1 =
      .ok (.bytes (wadRead wad offset count)) := by
  obtain ⟨p, hp⟩ := Option.ne_none_iff_exists'.mp hfd
  have hseek : (files.call wad (.lseek fd offset .SEEK_SET)).1 = .ok (.pos offset) := by
    have hm : (files.call wad (.lseek fd offset .SEEK_SET)).1 = _ := h.meets (.lseek fd offset .SEEK_SET)
    rw [hm, hp, Option.elim_some]
    simp only [seeked, Files.seekBase]
    rw [if_pos ⟨by omega, by omega⟩, Int.zero_add]
  have hcur := cursor_snoc log (.lseek fd offset .SEEK_SET) (files.call wad (.lseek fd offset .SEEK_SET)).1
  have hread : ((files.call wad (.lseek fd offset .SEEK_SET)).2.call wad (.read fd count)).1 = _ :=
    (h.call (.lseek fd offset .SEEK_SET)).meets (.read fd count)
  have hmoved : follow (cursor log) (.lseek fd offset .SEEK_SET) (.ok (.pos offset)) fd = some offset :=
    Function.update_self ..
  rw [hread, hcur, hseek, hmoved, wadRead_eq]
  rfl

end Sessions

/-! ## The heap -/

section Heap

variable {heapStart heapEnd top : Nat} {increments : List Int}

/-- The blocks that a sequence of calls gets: where they start, and their sizes. -/
def sbrks (heapStart heapEnd : Nat) : Nat → List Int → List (Nat × Nat)
  | _, [] => []
  | top, n :: ns =>
      match sbrk heapStart heapEnd top n with
      | (some a, top) => (a, n.toNat) :: sbrks heapStart heapEnd top ns
      | (none, top) => sbrks heapStart heapEnd top ns

/-- Blocks lie in the heap and do not meet, in the order of the calls. -/
theorem sbrks_disjoint (h0 : 0 < heapStart) (htop : top = 0 ∧ heapStart ≤ heapEnd ∨ heapStart ≤ top ∧ top ≤ heapEnd) :
    (sbrks heapStart heapEnd top increments).Pairwise (fun a b => a.1 + a.2 ≤ b.1) ∧
      ∀ b ∈ sbrks heapStart heapEnd top increments, heapStart ≤ b.1 ∧ top ≤ b.1 ∧ b.1 + b.2 ≤ heapEnd := by
  induction increments generalizing top with
  | nil => exact ⟨.nil, fun b hb => absurd hb List.not_mem_nil⟩
  | cons n ns ih =>
      have hstart : ∃ t, (if top = 0 then heapStart else top) = t ∧ heapStart ≤ t ∧ top ≤ t ∧ t ≤ heapEnd := by
        refine ⟨_, rfl, ?_⟩
        split <;> omega
      obtain ⟨t, ht, hlow, hle, hhigh⟩ := hstart
      unfold sbrks sbrk
      rw [ht]
      dsimp only
      split
      · rename_i a top' hs
        split at hs
        · cases hs
        · rename_i hfits
          obtain ⟨ha, rfl⟩ := Prod.mk.inj hs
          obtain rfl := Option.some.inj ha
          obtain ⟨hpair, hin⟩ := @ih (t + n.toNat) (.inr ⟨by omega, by omega⟩)
          refine ⟨List.pairwise_cons.mpr ⟨fun b hb => (hin b hb).2.1, hpair⟩, ?_⟩
          intro b hb
          rcases List.mem_cons.mp hb with rfl | hb
          · exact ⟨hlow, hle, by dsimp only; omega⟩
          · obtain ⟨h1, h2, h3⟩ := hin b hb
            exact ⟨h1, by omega, h3⟩
      · rename_i top' hs
        split at hs
        · obtain ⟨-, rfl⟩ := Prod.mk.inj hs
          obtain ⟨hpair, hin⟩ := @ih t (.inr ⟨hlow, hhigh⟩)
          refine ⟨hpair, ?_⟩
          intro b hb
          obtain ⟨h1, h2, h3⟩ := hin b hb
          exact ⟨h1, by omega, h3⟩
        · cases hs

end Heap

end RvO3.Doom
