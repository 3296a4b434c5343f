import RvO3.Isa.Instr
import Mathlib.Logic.Function.Basic

/-!
# Requests, responses and the backing store

`memory/request.h` and `memory/memory.h`. A request carries a `tag` chosen by the
requester and echoed in the response; no level looks inside the tag of a request it
serves, so the vocabulary is generic in the type of tags. Addresses and sizes are
naturals below `2 ^ 32`; a line is a function from offsets to bytes, of which the
first `kMaxLineBytes` exist.
-/

set_option autoImplicit false

namespace RvO3

/-- A line-sized payload. -/
abbrev Line := Nat → Byte

/-- Requester ids, for response routing. -/
inductive Src where
  | L1I | L1D | L2
  deriving DecidableEq, Repr

/-- A request (`MemRequest` of `memory/request.h`). A scalar write carries its data in `wdata`, one
of more than four bytes in `wline`. -/
structure MemRequest (τ : Type) where
  wline : Line := fun _ => 0
  tag : τ
  addr : Nat := 0
  size : Nat := 0
  wdata : Word := 0
  src : Src := .L1I
  isWrite : Bool := false

/-- The answer to a request, with its tag and source echoed. -/
structure MemResponse (τ : Type) where
  rline : Line := fun _ => 0
  tag : τ
  rdata : Word := 0
  src : Src := .L1I

/-- The fatal errors that end a run (`exit(1)`), with the data their messages print. -/
inductive Fatal where
  | outOfRange (what : String) (addr : Nat)
  | misaligned (what : String) (addr : Nat) (pc : Word)
  | misalignedTarget (target pc : Word)
  | misalignedFetch (pc : Word)
  | display (message : String)
  deriving DecidableEq, Repr

/-! ## Little-endian scalars -/

/-- Byte `b` of a word: `(uint8_t)(w >> (8 * b))`. -/
def wordByte (w : Word) (b : Nat) : Byte := (w >>> (8 * b)).setWidth 8

/-- The little-endian scalar of `size` bytes: the loop `v |= (uint32_t)byte << (8 * b)`. -/
def scalarOf (size : Nat) (f : Nat → Byte) : Word :=
  (List.range size).foldl (fun v b => v ||| ((f b).setWidth 32 <<< (8 * b))) 0

/-! ## The backing store -/

/-- Main memory: `size` bytes, zero-initialised. -/
structure Memory where
  bytes : Nat → Byte
  size : Nat

namespace Memory

/-- The range check of a functional access. `what` names it in the message. -/
def check (m : Memory) (addr len : Nat) (what : String) : Except Fatal Unit :=
  if addr + len > m.size then .error (.outOfRange what addr) else .ok ()

/-- A little-endian scalar of up to four bytes. The access may not leave memory. -/
def load (m : Memory) (a size : Nat) : Except Fatal Word :=
  if a + size > m.size then .error (.outOfRange "load" a)
  else .ok (scalarOf size fun b => m.bytes (a + b))

/-- The bytes after a scalar store. -/
def storeBytes (bytes : Nat → Byte) (a size : Nat) (v : Word) : Nat → Byte :=
  fun x => if a ≤ x ∧ x < a + size then wordByte v (x - a) else bytes x

/-- Store the low `size` bytes of a word. -/
def store (m : Memory) (a size : Nat) (v : Word) : Except Fatal Memory :=
  if a + size > m.size then .error (.outOfRange "store" a)
  else .ok { m with bytes := storeBytes m.bytes a size v }

/-- One byte. -/
def load8 (m : Memory) (a : Nat) : Except Fatal Byte :=
  match m.load a 1 with
  | .ok v => .ok (v.setWidth 8)
  | .error e => .error e

/-- One word. -/
def load32 (m : Memory) (a : Nat) : Except Fatal Word := m.load a 4

end Memory

/-! ## What a request does to a flat memory -/

/-- The bytes a request covers. -/
def MemRequest.covers {τ : Type} (req : MemRequest τ) (a : Nat) : Prop :=
  req.addr ≤ a ∧ a < req.addr + req.size

instance {τ : Type} (req : MemRequest τ) (a : Nat) : Decidable (req.covers a) :=
  inferInstanceAs (Decidable (_ ∧ _))

/-- The byte a write puts at offset `b` of its range. -/
def MemRequest.writeByte {τ : Type} (req : MemRequest τ) (b : Nat) : Byte :=
  if req.size ≤ 4 then wordByte req.wdata b else req.wline b

/-- A flat memory after a request: a write replaces the bytes it covers. -/
def MemRequest.apply {τ : Type} (req : MemRequest τ) (mem : Nat → Byte) : Nat → Byte :=
  fun a => if req.isWrite ∧ req.covers a then req.writeByte (a - req.addr) else mem a

/-- The byte of a response at offset `b` of the request it answers. -/
def MemResponse.byteOf {τ : Type} (r : MemResponse τ) (size b : Nat) : Byte :=
  if size ≤ 4 then wordByte r.rdata b else r.rline b

/-! ## Bytes of a little-endian scalar -/

theorem scalarOf_congr {size : Nat} {f g : Nat → Byte} (h : ∀ b, b < size → f b = g b) :
    scalarOf size f = scalarOf size g := by
  unfold scalarOf
  apply List.foldl_ext
  intro v b hb
  rw [h b (List.mem_range.mp hb)]

/-- A byte of a little-endian scalar is the byte it was built from. -/
theorem wordByte_scalarOf {size b : Nat} (f : Nat → Byte) (hs : size ≤ 4) (hb : b < size) :
    wordByte (scalarOf size f) b = f b := by
  have h : size = 1 ∨ size = 2 ∨ size = 3 ∨ size = 4 := by omega
  rcases h with rfl | rfl | rfl | rfl
  all_goals
    have hb' : b = 0 ∨ b = 1 ∨ b = 2 ∨ b = 3 := by omega
    rcases hb' with rfl | rfl | rfl | rfl <;> try omega
  all_goals
    ext i hi
    simp only [wordByte, scalarOf, List.range_succ, List.range_zero, List.nil_append,
      List.foldl_cons, List.foldl_nil, List.cons_append]
    simp
    try grind

end RvO3
