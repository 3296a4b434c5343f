import RvO3.Memory.Request

/-!
# The syscall interface

`sim/syscall.h` and the descriptor checks of `sim/display.h`: what an `ecall` does to
`a0`, whether it ends the run, and which fatal errors it can raise. The characters and
pixels it prints are left out; no modelled function reads them. `readByte` fetches
program memory, `quiet` is the silent shadow of a differential check, and `input` is the
external value a read syscall obtains (in quiet mode the replayed one).
-/

set_option autoImplicit false

namespace RvO3

/-- What a syscall leaves: the new `a0`, and the exit status if the program asked to
exit. -/
structure SysResult where
  arg : Word
  exit : Option Nat := none
  deriving DecidableEq, Repr

/-- The two calls that read a value. -/
def syscallReturnsInput (num : Word) : Bool := num == 5#32 || num == 7#32

/-- The printing loop of syscall 3: read from `a` up to a zero byte. An address space of
`2 ^ 32` nonzero bytes would never end; `fuel` bounds the addresses it can visit. -/
def scanString (readByte : Word → Except Fatal Byte) : Nat → Word → Except Fatal Unit
  | 0, _ => .error (.display "unterminated string")
  | fuel + 1, a =>
      match readByte a with
      | .error e => .error e
      | .ok b => if b = 0 then .ok () else scanString readByte fuel (a + 1)

/-- The widest frame. -/
def RV_MAX_WIDTH : Nat := 640
/-- The highest frame. -/
def RV_MAX_HEIGHT : Nat := 480
/-- Pixels of four bytes. -/
def RV_PIXEL_XRGB8888 : Word := 1
/-- Pixels of one byte, with a palette. -/
def RV_PIXEL_INDEXED8 : Word := 2

/-- A little-endian word read byte by byte. -/
def readWord (readByte : Word → Except Fatal Byte) (addr : Word) : Except Fatal Word := do
  let b0 ← readByte addr
  let b1 ← readByte (addr + 1)
  let b2 ← readByte (addr + 2)
  let b3 ← readByte (addr + 3)
  .ok (scalarOf 4 fun b => if b = 0 then b0 else if b = 1 then b1 else if b = 2 then b2 else b3)

/-- `check` of `present`. -/
def presentCheck (memoryBytes : Nat) (addr : Word) (size : Nat) : Except Fatal Unit :=
  if addr.toNat + size > memoryBytes then
    .error (.display "frame descriptor or pixels outside guest memory")
  else .ok ()

/-- The checks on the pixels and, for an indexed frame, on the palette. -/
def presentPixels (memoryBytes : Nat) (readByte : Word → Except Fatal Byte)
    (descriptor pixels width height format : Word) : Except Fatal Unit :=
  let count := width.toNat * height.toNat
  if format = RV_PIXEL_INDEXED8 then do
    presentCheck memoryBytes descriptor 20
    let palette ← readWord readByte (descriptor + 16)
    presentCheck memoryBytes palette (256 * 4)
    presentCheck memoryBytes pixels count
  else presentCheck memoryBytes pixels (count * 4)

/-- `display::present`; `frames` says whether the frame pipe is configured. -/
def present (memoryBytes : Nat) (readByte : Word → Except Fatal Byte) (quiet frames : Bool)
    (descriptor : Word) : Except Fatal Unit := do
  presentCheck memoryBytes descriptor 16
  let pixels ← readWord readByte descriptor
  let width ← readWord readByte (descriptor + 4)
  let height ← readWord readByte (descriptor + 8)
  let format ← readWord readByte (descriptor + 12)
  if width.toNat = 0 ∨ width.toNat > RV_MAX_WIDTH ∨ height.toNat = 0 ∨
      height.toNat > RV_MAX_HEIGHT ∨
      (format ≠ RV_PIXEL_XRGB8888 ∧ format ≠ RV_PIXEL_INDEXED8) then
    .error (.display "invalid dimensions or pixel format")
  else do
    presentPixels memoryBytes readByte descriptor pixels width height format
    if quiet then .ok ()
    else if frames then .ok ()
    else .error (.display "frame syscall requires --frame-fd and --key-fd")

/-- Run one syscall. -/
def runSyscall (num arg : Word) (quiet frames : Bool) (readByte : Word → Except Fatal Byte)
    (memoryBytes : Nat) (input : Word) : Except Fatal SysResult :=
  match num.toNat with
  | 3 =>
      if quiet then .ok { arg := arg }
      else match scanString readByte (2 ^ 32) arg with
        | .error e => .error e
        | .ok _ => .ok { arg := arg }
  | 5 => .ok { arg := input }
  | 6 =>
      match present memoryBytes readByte quiet frames arg with
      | .error e => .error e
      | .ok _ => .ok { arg := arg }
  | 7 => .ok { arg := input }
  | 10 => .ok { arg := arg, exit := some (arg &&& 0xFF#32).toNat }
  | 93 => .ok { arg := arg, exit := some (arg &&& 0xFF#32).toNat }
  | _ => .ok { arg := arg }

/-- Only the read syscalls change `a0`. -/
theorem runSyscall_arg {num arg : Word} {quiet frames : Bool}
    {readByte : Word → Except Fatal Byte} {memoryBytes : Nat} {input : Word} {r : SysResult}
    (h : runSyscall num arg quiet frames readByte memoryBytes input = .ok r) :
    r.arg = if syscallReturnsInput num then input else arg := by
  have hnum : syscallReturnsInput num = decide (num.toNat = 5 ∨ num.toNat = 7) := by
    unfold syscallReturnsInput
    rw [Bool.eq_iff_iff]
    simp [← BitVec.toNat_inj]
  rw [hnum]
  unfold runSyscall at h
  split at h
  · split at h
    · cases h
      simp_all
    · split at h
      · cases h
      · cases h
        simp_all
  · cases h
    simp_all
  · split at h
    · cases h
    · cases h
      simp_all
  all_goals
    cases h
    simp_all

/-- Whether a syscall fails, and how, does not depend on what it would read. -/
theorem runSyscall_error {num arg input : Word} {quiet frames : Bool} {readByte : Word → Except Fatal Byte}
    {memoryBytes : Nat} {e : Fatal}
    (h : runSyscall num arg quiet frames readByte memoryBytes input = .error e) (input' : Word) :
    runSyscall num arg quiet frames readByte memoryBytes input' = .error e := by
  unfold runSyscall at h ⊢
  split at h
  · exact h
  · cases h
  · exact h
  all_goals cases h

/-! ## The silent shadow -/

section Quiet

variable {f g : Word → Except Fatal Byte} {memoryBytes : Nat} {frames frames' : Bool}

theorem bind_eq_ok {α β : Type} {x : Except Fatal α} {k : α → Except Fatal β} {b : β}
    (h : (x >>= k) = .ok b) : ∃ a, x = .ok a ∧ k a = .ok b := by
  cases x with
  | error e => cases h
  | ok a => exact ⟨a, rfl, h⟩

theorem readWord_mono (hfg : ∀ a b, f a = .ok b → g a = .ok b) {addr v : Word}
    (h : readWord f addr = .ok v) : readWord g addr = .ok v := by
  obtain ⟨b0, h0, h⟩ := bind_eq_ok h
  obtain ⟨b1, h1, h⟩ := bind_eq_ok h
  obtain ⟨b2, h2, h⟩ := bind_eq_ok h
  obtain ⟨b3, h3, h⟩ := bind_eq_ok h
  unfold readWord
  rw [hfg _ _ h0, hfg _ _ h1, hfg _ _ h2, hfg _ _ h3]
  exact h

theorem presentPixels_mono (hfg : ∀ a b, f a = .ok b → g a = .ok b)
    {descriptor pixels width height format : Word}
    (h : presentPixels memoryBytes f descriptor pixels width height format = .ok ()) :
    presentPixels memoryBytes g descriptor pixels width height format = .ok () := by
  unfold presentPixels at h ⊢
  dsimp only at h ⊢
  split at h
  · rename_i hf
    obtain ⟨_, hd, h⟩ := bind_eq_ok h
    obtain ⟨palette, hp, h⟩ := bind_eq_ok h
    rw [if_pos hf, hd, readWord_mono hfg hp]
    exact h
  · rename_i hf
    rw [if_neg hf]
    exact h

/-- A frame that was presented passes the checks of the shadow. -/
theorem present_quiet (hfg : ∀ a b, f a = .ok b → g a = .ok b) {descriptor : Word}
    (h : present memoryBytes f false frames descriptor = .ok ()) :
    present memoryBytes g true frames' descriptor = .ok () := by
  unfold present at h ⊢
  obtain ⟨_, hd, h⟩ := bind_eq_ok h
  obtain ⟨pixels, hpx, h⟩ := bind_eq_ok h
  obtain ⟨width, hw, h⟩ := bind_eq_ok h
  obtain ⟨height, hh, h⟩ := bind_eq_ok h
  obtain ⟨format, hf, h⟩ := bind_eq_ok h
  rw [hd, readWord_mono hfg hpx, readWord_mono hfg hw, readWord_mono hfg hh, readWord_mono hfg hf]
  change (if _ then _ else _) = _ at h
  change (if _ then _ else _) = _
  split at h
  · cases h
  · rename_i hdim
    obtain ⟨_, hpix, -⟩ := bind_eq_ok h
    rw [if_neg hdim, presentPixels_mono hfg hpix]
    rfl

/-- What a syscall did, the shadow does too when it reads the same memory and the same input. -/
theorem runSyscall_quiet {num arg input input' : Word} {r : SysResult} (hfg : ∀ a b, f a = .ok b → g a = .ok b)
    (hin : syscallReturnsInput num = true → input' = input)
    (h : runSyscall num arg false frames f memoryBytes input = .ok r) :
    runSyscall num arg true frames' g memoryBytes input' = .ok r := by
  have hnum : ∀ {n : Nat}, num.toNat = n → n = 5 ∨ n = 7 → input' = input := by
    intro n hn hor
    apply hin
    unfold syscallReturnsInput
    rw [Bool.or_eq_true, beq_iff_eq, beq_iff_eq, ← BitVec.toNat_inj, ← BitVec.toNat_inj, hn]
    exact hor
  unfold runSyscall at h ⊢
  split at h
  · rw [if_neg Bool.false_ne_true] at h
    split at h
    · cases h
    · exact h
  · rename_i hn
    rw [hnum hn (.inl rfl)]
    exact h
  · split at h
    · cases h
    · rename_i hp
      rw [present_quiet hfg hp]
      exact h
  · rename_i hn
    rw [hnum hn (.inr rfl)]
    exact h
  all_goals exact h

end Quiet

end RvO3
