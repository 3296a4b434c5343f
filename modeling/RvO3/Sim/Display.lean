import RvO3.Sim.Config
import RvO3.Sim.Syscall

/-!
# The display pipes

The pipe bridge of `sim/display.h`, which `present` of `Sim.Syscall` only checks for its fatal
errors: the packet that a frame is sent as, the loop that writes it, and `pollKey`. Both pipes
carry little-endian words, and both ends of a pipe go on in the middle of one after a short
read or write.
-/

set_option autoImplicit false

namespace RvO3.Display

/-- The first word of every packet, `RVF1` in little-endian order. -/
def RV_FRAME_MAGIC : Word := 0x31465652

/-- The value of a poll without an event (`UINT32_MAX`). -/
def noEvent : Word := 0xFFFFFFFF

/-- The word that starts a byte string. -/
def readWord (p : List Byte) : Word := scalarOf 4 fun b => p.getD b 0

/-- The bytes that a word is appended as. -/
def appendWord (v : Word) : List Byte := (List.range 4).map fun b => wordByte v b

/-! ## Pipes -/

/-- What a nonblocking `read` meets: up to `n + 1` bytes, no byte, or a signal. -/
inductive ReadResult where
  | ready (n : Nat)
  | again
  | interrupted
  deriving DecidableEq, Repr

/-- The bytes of a `read` that asks for `want`. None means that the pipe is empty (`EAGAIN`). -/
def takeReady (want n : Nat) (pipe : List Byte) : List Byte := pipe.take (min (n + 1) want)

/-- The reads that get something from a pipe that is not empty. -/
def readies : List ReadResult → Nat
  | [] => 0
  | .ready _ :: rs => readies rs + 1
  | _ :: rs => readies rs

/-- What a `write` meets: up to `n + 1` bytes are taken, a signal, or a reader that is gone. -/
inductive WriteResult where
  | wrote (n : Nat)
  | interrupted
  | closed
  deriving DecidableEq, Repr

/-- The loop that sends a packet: what is written, and whether all of it is. -/
def sendPacket (packet : List Byte) : List WriteResult → List Byte × Bool
  | [] => ([], packet.isEmpty)
  | .interrupted :: rs => sendPacket packet rs
  | .closed :: _ => ([], packet.isEmpty)
  | .wrote n :: rs =>
      let sent := packet.take (n + 1)
      (sent ++ (sendPacket (packet.drop (n + 1)) rs).1, (sendPacket (packet.drop (n + 1)) rs).2)

/-- A packet is sent in order and once, in whatever pieces. -/
theorem sendPacket_append (packet : List Byte) (rs : List WriteResult) :
    ∃ unsent, (sendPacket packet rs).1 ++ unsent = packet := by
  induction rs generalizing packet with
  | nil => exact ⟨packet, rfl⟩
  | cons r rs ih =>
      cases r with
      | interrupted => exact ih packet
      | closed => exact ⟨packet, rfl⟩
      | wrote n =>
          obtain ⟨unsent, h⟩ := ih (packet.drop (n + 1))
          refine ⟨unsent, ?_⟩
          show packet.take (n + 1) ++ (sendPacket (packet.drop (n + 1)) rs).1 ++ unsent = packet
          rw [List.append_assoc, h, List.take_append_drop]

/-- The loop ends only when nothing is left. -/
theorem sendPacket_done {packet : List Byte} {rs : List WriteResult} (h : (sendPacket packet rs).2 = true) :
    (sendPacket packet rs).1 = packet := by
  induction rs generalizing packet with
  | nil => exact (List.isEmpty_iff.mp h).symm
  | cons r rs ih =>
      cases r with
      | interrupted => exact ih h
      | closed => exact (List.isEmpty_iff.mp h).symm
      | wrote n =>
          show packet.take (n + 1) ++ (sendPacket (packet.drop (n + 1)) rs).1 = packet
          rw [ih h, List.take_append_drop]

/-! ## Keys -/

/-- The reading end of the key pipe: the bytes of an unfinished event, and those in the pipe. -/
structure KeyPipe where
  partialKey : List Byte := []
  pipe : List Byte
  deriving DecidableEq, Repr

/-- `pollKey`, over the results of its reads: the value it returns, or none while it still reads. -/
def pollKey (k : KeyPipe) : List ReadResult → Except Fatal (Option Word × KeyPipe × List ReadResult)
  | [] => .ok (none, k, [])
  | .interrupted :: rs => pollKey k rs
  | .again :: rs => .ok (some noEvent, k, rs)
  | .ready n :: rs =>
      let bytes := takeReady (4 - k.partialKey.length) n k.pipe
      if bytes = [] then .ok (some noEvent, k, rs)
      else
        let key := k.partialKey ++ bytes
        let pipe := k.pipe.drop bytes.length
        if key.length < 4 then pollKey ⟨key, pipe⟩ rs
        else
          let event := readWord key
          if event.toNat > 0x1FF then .error (.display "invalid key event")
          else .ok (some event, ⟨[], pipe⟩, rs)

/-- The results of some calls in a row. -/
def polls : Nat → KeyPipe → List ReadResult → Except Fatal (List Word × KeyPipe)
  | 0, k, _ => .ok ([], k)
  | calls + 1, k, rs =>
      match pollKey k rs with
      | .error e => .error e
      | .ok (none, k, _) => .ok ([], k)
      | .ok (some v, k, rs) =>
          match polls calls k rs with
          | .error e => .error e
          | .ok (vs, k) => .ok (v :: vs, k)

/-! ## Frames -/

/-- The colour of an indexed pixel: four bytes of the palette. -/
def colorBytes (colors : List Byte) (b : Byte) : List Byte := (colors.drop (4 * b.toNat)).take 4

/-- The pixel bytes of a packet. -/
def pixelBytes (readByte : Word → Except Fatal Byte) (descriptor pixels format : Word) (count : Nat) :
    Except Fatal (List Byte) :=
  if format = RV_PIXEL_INDEXED8 then do
    let palette ← RvO3.readWord readByte (descriptor + 16)
    let colors ← (List.range (256 * 4)).mapM fun i => readByte (palette + BitVec.ofNat 32 i)
    let packet ← (List.range count).mapM fun i => do
      let b ← readByte (pixels + BitVec.ofNat 32 i)
      return colorBytes colors b
    return packet.flatten
  else (List.range (count * 4)).mapM fun i => readByte (pixels + BitVec.ofNat 32 i)

/-- The packet that `present` sends for a descriptor that passes its checks. -/
def framePacket (memoryBytes : Nat) (readByte : Word → Except Fatal Byte) (descriptor : Word) :
    Except Fatal (List Byte) := do
  present memoryBytes readByte false true descriptor
  -- reading the descriptor again has no effect
  let pixels ← RvO3.readWord readByte descriptor
  let width ← RvO3.readWord readByte (descriptor + 4)
  let height ← RvO3.readWord readByte (descriptor + 8)
  let format ← RvO3.readWord readByte (descriptor + 12)
  let bytes ← pixelBytes readByte descriptor pixels format (width.toNat * height.toNat)
  return appendWord RV_FRAME_MAGIC ++ appendWord width ++ appendWord height ++ bytes

/-- A guest memory in which a program presents the frame at a descriptor. -/
structure Call where
  memoryBytes : Nat
  readByte : Word → Except Fatal Byte
  descriptor : Word

/-- The bytes that some frames in a row are sent as, and whether all of them are sent. A packet
that is not all sent is the last: the guest is still in the loop, or the viewer is gone. -/
def presents : List (Call × List WriteResult) → Except Fatal (List Byte × Bool)
  | [] => .ok ([], true)
  | (c, ws) :: calls =>
      match framePacket c.memoryBytes c.readByte c.descriptor with
      | .error e => .error e
      | .ok packet =>
          if (sendPacket packet ws).2 then
            match presents calls with
            | .error e => .error e
            | .ok (bytes, done) => .ok ((sendPacket packet ws).1 ++ bytes, done)
          else .ok ((sendPacket packet ws).1, false)

/-! ## Words and their bytes -/

section Words

variable {v : Word} {p rest : List Byte}

theorem appendWord_length (v : Word) : (appendWord v).length = 4 := rfl

/-- Words with the same bytes are the same. -/
theorem word_ext {w : Word} (h : ∀ b < 4, wordByte v b = wordByte w b) : v = w := by
  apply BitVec.eq_of_getLsbD_eq
  intro i hi
  -- bit `i` is in byte `i / 8`
  have hbit : ∀ x : Word, (wordByte x (i / 8)).getLsbD (i % 8) = x.getLsbD i := by
    intro x
    have hlt : i % 8 < 8 := Nat.mod_lt i (by decide)
    rw [wordByte, BitVec.getLsbD_setWidth, BitVec.getLsbD_ushiftRight, Nat.div_add_mod, decide_eq_true hlt, Bool.true_and]
  rw [← hbit v, ← hbit w, h (i / 8) (by omega)]

/-- The bytes of a scalar. -/
theorem appendWord_scalarOf (f : Nat → Byte) : appendWord (scalarOf 4 f) = [f 0, f 1, f 2, f 3] := by
  have h : ∀ b < 4, wordByte (scalarOf 4 f) b = f b := fun b hb => wordByte_scalarOf f (Nat.le_refl 4) hb
  have hlist : (List.range 4).map (fun b => wordByte (scalarOf 4 f) b) = (List.range 4).map f :=
    List.map_congr_left fun b hb => h b (List.mem_range.mp hb)
  exact hlist

/-- A word that is appended is read again, whatever follows it. -/
theorem readWord_appendWord (v : Word) (rest : List Byte) : readWord (appendWord v ++ rest) = v := by
  apply word_ext
  intro b hb
  rw [readWord, wordByte_scalarOf _ (Nat.le_refl 4) hb]
  have h : b = 0 ∨ b = 1 ∨ b = 2 ∨ b = 3 := by omega
  rcases h with rfl | rfl | rfl | rfl <;> rfl

/-- Words in a row take four bytes each. -/
theorem flatMap_appendWord_length (vs : List Word) : (vs.flatMap appendWord).length = 4 * vs.length := by
  induction vs with
  | nil => rfl
  | cons v vs ih =>
      rw [List.flatMap_cons, List.length_append, ih, appendWord_length, List.length_cons]
      omega

/-- A byte string that continues to some words starts with the first of them. -/
theorem take_word {vs : List Word} (hp : p ++ rest = vs.flatMap appendWord) (hlen : p.length = 4) :
    ∃ v us, vs = v :: us ∧ p = appendWord v ∧ rest = us.flatMap appendWord := by
  cases vs with
  | nil =>
      rw [(List.append_eq_nil_iff.mp hp).1] at hlen
      cases hlen
  | cons v us =>
      rw [List.flatMap_cons] at hp
      obtain ⟨h1, h2⟩ := List.append_inj hp hlen
      exact ⟨v, us, rfl, h1, h2⟩

end Words

/-! ## Key events arrive once and in order -/

/-- What is read and what is not are the events that are still to come. -/
structure Pending (events : List Word) (k : KeyPipe) : Prop where
  bytes : k.partialKey ++ k.pipe = events.flatMap appendWord
  short : k.partialKey.length < 4

section Keys

variable {events : List Word} {k : KeyPipe} {rs : List ReadResult}

theorem takeReady_length (want n : Nat) (pipe : List Byte) : (takeReady want n pipe).length ≤ want := by
  rw [takeReady, List.length_take]
  omega

theorem takeReady_drop (want n : Nat) (pipe : List Byte) :
    takeReady want n pipe ++ pipe.drop (takeReady want n pipe).length = pipe := by
  rw [takeReady, List.length_take]
  rcases Nat.le_total (min (n + 1) want) pipe.length with h | h
  · rw [Nat.min_eq_left h, List.take_append_drop]
  · rw [Nat.min_eq_right h, List.take_of_length_le h, List.drop_length, List.append_nil]

/-- A poll without an event loses nothing, and one with an event returns the next one. -/
theorem pollKey_pending (rs : List ReadResult) (hev : ∀ e ∈ events, e.toNat ≤ 0x1FF) (h : Pending events k) :
    ∃ v k' rs', pollKey k rs = .ok (v, k', rs') ∧
      (((v = none ∨ v = some noEvent) ∧ Pending events k') ∨
        ∃ e rest, events = e :: rest ∧ v = some e ∧ Pending rest k') := by
  induction rs generalizing k with
  | nil => exact ⟨none, k, [], rfl, .inl ⟨.inl rfl, h⟩⟩
  | cons r rs ih =>
      cases r with
      | interrupted => exact ih h
      | again => exact ⟨some noEvent, k, rs, rfl, .inl ⟨.inr rfl, h⟩⟩
      | ready n =>
          unfold pollKey
          dsimp only
          by_cases hempty : takeReady (4 - k.partialKey.length) n k.pipe = []
          · rw [if_pos hempty]
            exact ⟨some noEvent, k, rs, rfl, .inl ⟨.inr rfl, h⟩⟩
          · rw [if_neg hempty]
            have hbytes := h.bytes
            rw [← takeReady_drop (4 - k.partialKey.length) n k.pipe, ← List.append_assoc] at hbytes
            have hshort := takeReady_length (4 - k.partialKey.length) n k.pipe
            have hlt := h.short
            by_cases hfour : (k.partialKey ++ takeReady (4 - k.partialKey.length) n k.pipe).length < 4
            · -- still in the middle of an event
              rw [if_pos hfour]
              exact ih ⟨hbytes, hfour⟩
            · rw [if_neg hfour]
              rw [List.length_append] at hfour
              obtain ⟨e, rest, hevents, hkey, hrest⟩ := take_word hbytes (by rw [List.length_append]; omega)
              have hword : readWord (k.partialKey ++ takeReady (4 - k.partialKey.length) n k.pipe) = e := by
                rw [hkey, ← List.append_nil (appendWord e)]
                exact readWord_appendWord e []
              have hsmall : ¬ e.toNat > 0x1FF := by
                have he := hev e (by rw [hevents]; exact List.mem_cons_self)
                omega
              rw [hword, if_neg hsmall]
              exact ⟨some e, _, rs, rfl, .inr ⟨e, rest, hevents, rfl, ⟨hrest, Nat.zero_lt_succ 3⟩⟩⟩

theorem takeReady_pos {want n : Nat} {pipe : List Byte} (hw : 0 < want) (hpipe : pipe ≠ []) :
    0 < (takeReady want n pipe).length := by
  have hlen := List.length_pos_iff.mpr hpipe
  rw [takeReady, List.length_take]
  omega

/-- A poll takes a byte for each read that can get one, and it reads. -/
theorem pollKey_progress {v : Option Word} {k' : KeyPipe} {rs' : List ReadResult} (hk : k.partialKey.length < 4)
    (h : pollKey k rs = .ok (v, k', rs')) :
    (k'.pipe = [] ∨ k'.pipe.length + readies rs ≤ k.pipe.length + readies rs') ∧ k'.partialKey.length < 4 ∧
      (v = none → rs' = []) ∧ (v ≠ none → rs'.length < rs.length) := by
  -- on the results that the reads return
  induction rs generalizing k with
  | nil =>
      cases h
      exact ⟨.inr (Nat.le_refl _), hk, fun _ => rfl, fun hne => absurd rfl hne⟩
  | cons r rs ih =>
      cases r with
      | interrupted =>
          obtain ⟨hpipe, hk', hnone, hsome⟩ := ih hk h
          exact ⟨hpipe, hk', hnone, fun hne => Nat.lt_succ_of_lt (hsome hne)⟩
      | again =>
          cases h
          exact ⟨.inr (Nat.le_refl _), hk, (fun e => nomatch e), fun _ => Nat.lt_succ_self _⟩
      | ready n =>
          unfold pollKey at h
          dsimp only at h
          by_cases hpipe : k.pipe = []
          · have hempty : takeReady (4 - k.partialKey.length) n k.pipe = [] := by
              rw [hpipe, takeReady, List.take_nil]
            rw [if_pos hempty] at h
            cases h
            exact ⟨.inl hpipe, hk, (fun e => nomatch e), fun _ => Nat.lt_succ_self _⟩
          · have hpos := takeReady_pos (n := n) (Nat.sub_pos_of_lt hk) hpipe
            -- a read that gets bytes takes at least one
            have hdrop : (k.pipe.drop (takeReady (4 - k.partialKey.length) n k.pipe).length).length + 1 ≤ k.pipe.length := by
              have hlen := List.length_pos_iff.mpr hpipe
              rw [List.length_drop]
              omega
            rw [if_neg (List.length_pos_iff.mp hpos)] at h
            split at h
            · rename_i hfour
              obtain ⟨hrest, hk', hnone, hsome⟩ := ih hfour h
              refine ⟨hrest.imp_right fun hle => ?_, hk', hnone, fun hne => Nat.lt_succ_of_lt (hsome hne)⟩
              dsimp only at hle
              show k'.pipe.length + (readies rs + 1) ≤ _
              omega
            · split at h
              · cases h
              · cases h
                refine ⟨.inr ?_, Nat.zero_lt_succ 3, (fun e => nomatch e), fun _ => Nat.lt_succ_self _⟩
                show (k.pipe.drop _).length + (readies rs' + 1) ≤ k.pipe.length + readies rs'
                omega

/-- Enough polls with enough reads empty the pipe. -/
theorem polls_drained {calls : Nat} {vs : List Word} {k' : KeyPipe} (hk : k.partialKey.length < 4)
    (hcalls : rs.length ≤ calls) (hreads : k.pipe.length ≤ readies rs) (h : polls calls k rs = .ok (vs, k')) :
    k'.pipe = [] := by
  induction calls generalizing k rs vs with
  | zero =>
      cases h
      rw [List.length_eq_zero_iff.mp (Nat.le_zero.mp hcalls)] at hreads
      exact List.length_eq_zero_iff.mp (Nat.le_zero.mp hreads)
  | succ calls ih =>
      unfold polls at h
      split at h
      · cases h
      · rename_i k₁ rs₁ hpoll
        cases h
        obtain ⟨hpipe, -, hnone, -⟩ := pollKey_progress hk hpoll
        rw [hnone rfl] at hpipe
        rcases hpipe with hpipe | hle
        · exact hpipe
        · have hzero : readies [] = 0 := rfl
          exact List.length_eq_zero_iff.mp (by omega)
      · rename_i v k₁ rs₁ hpoll
        obtain ⟨hpipe, hk₁, -, hsome⟩ := pollKey_progress hk hpoll
        have hlt := hsome (Option.some_ne_none v)
        have hreads₁ : k₁.pipe.length ≤ readies rs₁ := by
          rcases hpipe with hpipe | hle
          · rw [hpipe]
            exact Nat.zero_le _
          · omega
        split at h
        · cases h
        · rename_i hrec
          cases h
          exact ih hk₁ (by omega) hreads₁ hrec

/-- The results of some polls other than `noEvent` are the first events; the rest is still on
its way. -/
theorem polls_pending (calls : Nat) (rs : List ReadResult) (hev : ∀ e ∈ events, e.toNat ≤ 0x1FF) (h : Pending events k) :
    ∃ vs k' rest, polls calls k rs = .ok (vs, k') ∧ events = vs.filter (fun v => v ≠ noEvent) ++ rest ∧
      Pending rest k' := by
  induction calls generalizing events k rs with
  | zero => exact ⟨[], k, events, rfl, rfl, h⟩
  | succ calls ih =>
      obtain ⟨v, k₁, rs₁, hpoll, hcase⟩ := pollKey_pending rs hev h
      unfold polls
      rw [hpoll]
      rcases hcase with ⟨rfl | rfl, h₁⟩ | ⟨e, rest, rfl, rfl, h₁⟩
      · exact ⟨[], k₁, events, rfl, rfl, h₁⟩
      · obtain ⟨vs, k', rest, hvs, hev', hk'⟩ := ih rs₁ hev h₁
        dsimp only
        rw [hvs]
        exact ⟨_, k', rest, rfl, by simpa using hev', hk'⟩
      · obtain ⟨vs, k', rest', hvs, hev', hk'⟩ := ih rs₁ (fun e' h => hev e' (List.mem_cons_of_mem _ h)) h₁
        dsimp only
        rw [hvs]
        have hne : e ≠ noEvent := by
          rintro rfl
          exact absurd (hev noEvent List.mem_cons_self) (by decide)
        refine ⟨_, k', rest', rfl, ?_, hk'⟩
        rw [List.filter_cons, if_pos (decide_eq_true hne), List.cons_append, ← hev']

/-- Once the pipe is empty, no event is left. -/
theorem Pending.drained (h : Pending events k) (hpipe : k.pipe = []) : events = [] := by
  have hlen := congrArg List.length h.bytes
  rw [hpipe, List.append_nil, flatMap_appendWord_length] at hlen
  have hshort := h.short
  exact List.length_eq_zero_iff.mp (by omega)

end Keys

/-! ## The packet of a frame -/

/-- A picture: its size, and its pixels row by row. -/
structure Frame where
  width : Word
  height : Word
  pixels : List Word
  deriving DecidableEq, Repr

/-- The dimensions that both ends accept. -/
structure Frame.Valid (f : Frame) : Prop where
  width : f.width.toNat ≠ 0 ∧ f.width.toNat ≤ RV_MAX_WIDTH
  height : f.height.toNat ≠ 0 ∧ f.height.toNat ≤ RV_MAX_HEIGHT
  count : f.pixels.length = f.width.toNat * f.height.toNat

/-- The header and the pixels, as words. -/
def Frame.packet (f : Frame) : List Byte :=
  appendWord RV_FRAME_MAGIC ++ appendWord f.width ++ appendWord f.height ++ f.pixels.flatMap appendWord

/-- The bytes of the memory can be read, and `present` accepts the descriptor. -/
structure Call.Accepted (c : Call) : Prop where
  readable : ∀ a : Word, a.toNat < c.memoryBytes → ∃ b, c.readByte a = .ok b
  accepts : present c.memoryBytes c.readByte false true c.descriptor = .ok ()

/-- The frame that the guest means: pixel `i` is word `i` of the guest's pixels, or the word of
the palette that byte `i` of them selects. -/
def FrameOf (c : Call) (f : Frame) : Prop :=
  ∃ pixels format, RvO3.readWord c.readByte c.descriptor = .ok pixels ∧
    RvO3.readWord c.readByte (c.descriptor + 4) = .ok f.width ∧
    RvO3.readWord c.readByte (c.descriptor + 8) = .ok f.height ∧
    RvO3.readWord c.readByte (c.descriptor + 12) = .ok format ∧
    (format = RV_PIXEL_XRGB8888 → ∀ i < f.width.toNat * f.height.toNat, ∃ v, f.pixels[i]? = some v ∧
      RvO3.readWord c.readByte (pixels + BitVec.ofNat 32 (4 * i)) = .ok v) ∧
    (format = RV_PIXEL_INDEXED8 → ∃ palette, RvO3.readWord c.readByte (c.descriptor + 16) = .ok palette ∧
      ∀ i < f.width.toNat * f.height.toNat, ∃ b v, c.readByte (pixels + BitVec.ofNat 32 i) = .ok b ∧
        f.pixels[i]? = some v ∧ RvO3.readWord c.readByte (palette + BitVec.ofNat 32 (4 * b.toNat)) = .ok v)

section Packet

variable {c : Call} {mem : Word → Byte}

/-- The word of a memory at an address. -/
def memWord (mem : Word → Byte) (a : Word) : Word := scalarOf 4 fun b => mem (a + BitVec.ofNat 32 b)

/-- An address at an offset is no further than the offset says. -/
theorem add_ofNat_le (a : Word) (i : Nat) : (a + BitVec.ofNat 32 i).toNat ≤ a.toNat + i := by
  rw [BitVec.toNat_add, BitVec.toNat_ofNat]
  calc (a.toNat + i % 2 ^ 32) % 2 ^ 32 ≤ a.toNat + i % 2 ^ 32 := Nat.mod_le _ _
    _ ≤ a.toNat + i := Nat.add_le_add_left (Nat.mod_le _ _) _

theorem readWord_mem (hmem : ∀ a : Word, a.toNat < c.memoryBytes → c.readByte a = .ok (mem a)) {a : Word}
    (ha : a.toNat + 4 ≤ c.memoryBytes) : RvO3.readWord c.readByte a = .ok (memWord mem a) := by
  have hbyte : ∀ b < 4, c.readByte (a + BitVec.ofNat 32 b) = .ok (mem (a + BitVec.ofNat 32 b)) := by
    intro b hb
    have hle := add_ofNat_le a b
    exact hmem _ (by omega)
  have h0 : c.readByte a = .ok (mem a) := hmem a (by omega)
  have h1 : c.readByte (a + 1) = .ok (mem (a + 1)) := hbyte 1 (by decide)
  have h2 : c.readByte (a + 2) = .ok (mem (a + 2)) := hbyte 2 (by decide)
  have h3 : c.readByte (a + 3) = .ok (mem (a + 3)) := hbyte 3 (by decide)
  unfold RvO3.readWord
  rw [h0, h1, h2, h3]
  show Except.ok _ = Except.ok _
  congr 1
  apply scalarOf_congr
  intro b hb
  have h : b = 0 ∨ b = 1 ∨ b = 2 ∨ b = 3 := by omega
  rcases h with rfl | rfl | rfl | rfl
  · show mem a = mem (a + 0#32)
    rw [BitVec.add_zero]
  · rfl
  · rfl
  · rfl

theorem ok_bind {α β ε : Type} (a : α) (f : α → Except ε β) : (Except.ok a >>= f) = f a := rfl

theorem mapM_ok {α β ε : Type} {l : List α} {g : α → Except ε β} {h : α → β} (hg : ∀ x ∈ l, g x = .ok (h x)) :
    l.mapM g = .ok (l.map h) := by
  induction l with
  | nil => rfl
  | cons x l ih =>
      rw [List.mapM_cons, hg x List.mem_cons_self, ih fun y hy => hg y (List.mem_cons_of_mem _ hy)]
      rfl

/-- Four bytes in a row, `n` times. -/
theorem range_mul_four {α : Type} (g : Nat → α) (n : Nat) :
    (List.range (n * 4)).map g =
      (List.range n).flatMap fun i => [g (4 * i), g (4 * i + 1), g (4 * i + 2), g (4 * i + 3)] := by
  induction n with
  | zero => rfl
  | succ n ih =>
      rw [List.range_succ, List.flatMap_append, ← ih, Nat.succ_mul, List.range_add, List.map_append]
      rw [Nat.mul_comm n 4]
      rfl

/-- The bytes of a memory that can be read. -/
def Call.byte (c : Call) (a : Word) : Byte :=
  match c.readByte a with
  | .ok b => b
  | .error _ => 0

theorem Call.Accepted.readByte_eq (h : c.Accepted) {a : Word} (ha : a.toNat < c.memoryBytes) :
    c.readByte a = .ok (c.byte a) := by
  obtain ⟨b, hb⟩ := h.readable a ha
  rw [Call.byte, hb]

theorem presentCheck_ok {memoryBytes size : Nat} {addr : Word} {u : Unit} (h : presentCheck memoryBytes addr size = .ok u) :
    addr.toNat + size ≤ memoryBytes := by
  unfold presentCheck at h
  split at h
  · cases h
  · omega

/-- What `present` has checked when it accepts a descriptor. -/
theorem present_ok {memoryBytes : Nat} {readByte : Word → Except Fatal Byte} {descriptor : Word}
    (h : present memoryBytes readByte false true descriptor = .ok ()) :
    descriptor.toNat + 16 ≤ memoryBytes ∧ ∃ pixels width height format,
      RvO3.readWord readByte descriptor = .ok pixels ∧ RvO3.readWord readByte (descriptor + 4) = .ok width ∧
      RvO3.readWord readByte (descriptor + 8) = .ok height ∧ RvO3.readWord readByte (descriptor + 12) = .ok format ∧
      (width.toNat ≠ 0 ∧ width.toNat ≤ RV_MAX_WIDTH) ∧ (height.toNat ≠ 0 ∧ height.toNat ≤ RV_MAX_HEIGHT) ∧
      (format = RV_PIXEL_XRGB8888 ∨ format = RV_PIXEL_INDEXED8) ∧
      presentPixels memoryBytes readByte descriptor pixels width height format = .ok () := by
  unfold present at h
  obtain ⟨_, hcheck, h⟩ := except_bind_ok h
  obtain ⟨pixels, hpixels, h⟩ := except_bind_ok h
  obtain ⟨width, hwidth, h⟩ := except_bind_ok h
  obtain ⟨height, hheight, h⟩ := except_bind_ok h
  obtain ⟨format, hformat, h⟩ := except_bind_ok h
  refine ⟨presentCheck_ok hcheck, pixels, width, height, format, hpixels, hwidth, hheight, hformat, ?_⟩
  split at h
  · cases h
  · rename_i hbad
    obtain ⟨_, hrest, _⟩ := except_bind_ok h
    push Not at hbad
    obtain ⟨hw0, hw, hh0, hh, hf⟩ := hbad
    refine ⟨⟨hw0, hw⟩, ⟨hh0, hh⟩, ?_, hrest⟩
    by_cases hx : format = RV_PIXEL_XRGB8888
    · exact .inl hx
    · exact .inr (hf hx)

/-- The bytes of a word in memory, one at a time. -/
theorem appendWord_memWord (mem : Word → Byte) (a : Word) (i : Nat) :
    appendWord (memWord mem (a + BitVec.ofNat 32 i)) = [mem (a + BitVec.ofNat 32 i), mem (a + BitVec.ofNat 32 (i + 1)),
      mem (a + BitVec.ofNat 32 (i + 2)), mem (a + BitVec.ofNat 32 (i + 3))] := by
  rw [memWord, appendWord_scalarOf]
  have hstep : ∀ b, a + BitVec.ofNat 32 i + BitVec.ofNat 32 b = a + BitVec.ofNat 32 (i + b) := by
    intro b
    rw [BitVec.add_assoc, ← BitVec.ofNat_add]
  rw [hstep, hstep, hstep, hstep, Nat.add_zero]

/-- Any four bytes in a row of the palette. -/
theorem range_window {α : Type} (g : Nat → α) {k n : Nat} (hk : k + 4 ≤ n) :
    (((List.range n).map g).drop k).take 4 = [g k, g (k + 1), g (k + 2), g (k + 3)] := by
  obtain ⟨r, rfl⟩ := Nat.exists_eq_add_of_le hk
  rw [Nat.add_assoc, List.range_add, List.map_append, List.drop_left' (by rw [List.length_map, List.length_range])]
  rw [List.range_add, List.map_append, List.map_append, List.take_left' (by rfl)]
  rfl

/-- The pixels of an `XRGB8888` frame are sent as they are. -/
theorem pixelBytes_xrgb (h : c.Accepted) {pixels : Word} {count : Nat}
    (hpixels : pixels.toNat + count * 4 ≤ c.memoryBytes) :
    pixelBytes c.readByte c.descriptor pixels RV_PIXEL_XRGB8888 count =
      .ok (((List.range count).map fun i => memWord c.byte (pixels + BitVec.ofNat 32 (4 * i))).flatMap appendWord) := by
  unfold pixelBytes
  rw [if_neg (by decide)]
  rw [mapM_ok (h := fun i => c.byte (pixels + BitVec.ofNat 32 i))]
  · rw [range_mul_four, List.flatMap_map]
    apply congrArg Except.ok
    apply List.flatMap_congr
    intro i _
    exact (appendWord_memWord c.byte pixels (4 * i)).symm
  · intro i hi
    have hlt := List.mem_range.mp hi
    have hle := add_ofNat_le pixels i
    exact h.readByte_eq (by omega)

/-- The pixels of an `INDEXED8` frame are sent as their colours. -/
theorem pixelBytes_indexed (h : c.Accepted) {pixels palette : Word} {count : Nat}
    (hread : RvO3.readWord c.readByte (c.descriptor + 16) = .ok palette)
    (hpalette : palette.toNat + 256 * 4 ≤ c.memoryBytes) (hpixels : pixels.toNat + count ≤ c.memoryBytes) :
    pixelBytes c.readByte c.descriptor pixels RV_PIXEL_INDEXED8 count =
      .ok (((List.range count).map fun i =>
        memWord c.byte (palette + BitVec.ofNat 32 (4 * (c.byte (pixels + BitVec.ofNat 32 i)).toNat))).flatMap
          appendWord) := by
  unfold pixelBytes
  rw [if_pos rfl, hread]
  have hcolors : ((List.range (256 * 4)).mapM fun i => c.readByte (palette + BitVec.ofNat 32 i)) =
      .ok ((List.range (256 * 4)).map fun i => c.byte (palette + BitVec.ofNat 32 i)) := by
    apply mapM_ok
    intro i hi
    have hlt := List.mem_range.mp hi
    have hle := add_ofNat_le palette i
    exact h.readByte_eq (by omega)
  have hbytes : ∀ colors, ((List.range count).mapM fun i => do
      let b ← c.readByte (pixels + BitVec.ofNat 32 i)
      return colorBytes colors b) =
      .ok ((List.range count).map fun i => colorBytes colors (c.byte (pixels + BitVec.ofNat 32 i))) := by
    intro colors
    apply mapM_ok
    intro i hi
    have hlt := List.mem_range.mp hi
    have hle := add_ofNat_le pixels i
    rw [h.readByte_eq (by omega)]
    rfl
  rw [ok_bind, hcolors, ok_bind, hbytes, ok_bind]
  apply congrArg Except.ok
  rw [List.flatMap_map, ← List.flatMap_def]
  apply List.flatMap_congr
  intro i _
  -- a byte selects one of 256 colours
  have hb := (c.byte (pixels + BitVec.ofNat 32 i)).isLt
  rw [colorBytes, range_window _ (by omega)]
  exact (appendWord_memWord c.byte palette _).symm

/-- The pixels that the packet of an accepted descriptor carries. -/
theorem pixelBytes_frame (h : c.Accepted) {pixels width height format : Word}
    (hformat : format = RV_PIXEL_XRGB8888 ∨ format = RV_PIXEL_INDEXED8)
    (hrest : presentPixels c.memoryBytes c.readByte c.descriptor pixels width height format = .ok ()) :
    ∃ g : Nat → Word,
      pixelBytes c.readByte c.descriptor pixels format (width.toNat * height.toNat) =
        .ok (((List.range (width.toNat * height.toNat)).map g).flatMap appendWord) ∧
      (format = RV_PIXEL_XRGB8888 → ∀ i < width.toNat * height.toNat,
        RvO3.readWord c.readByte (pixels + BitVec.ofNat 32 (4 * i)) = .ok (g i)) ∧
      (format = RV_PIXEL_INDEXED8 → ∃ palette, RvO3.readWord c.readByte (c.descriptor + 16) = .ok palette ∧
        ∀ i < width.toNat * height.toNat, ∃ b, c.readByte (pixels + BitVec.ofNat 32 i) = .ok b ∧
          RvO3.readWord c.readByte (palette + BitVec.ofNat 32 (4 * b.toNat)) = .ok (g i)) := by
  unfold presentPixels at hrest
  dsimp only at hrest
  rcases hformat with rfl | rfl
  · rw [if_neg (by decide)] at hrest
    have hpixels := presentCheck_ok hrest
    refine ⟨_, pixelBytes_xrgb h hpixels, ?_, fun hf => absurd hf (by decide)⟩
    intro _ i hi
    have hle := add_ofNat_le pixels (4 * i)
    exact readWord_mem (fun a ha => h.readByte_eq ha) (by omega)
  · rw [if_pos rfl] at hrest
    obtain ⟨_, _, hrest⟩ := except_bind_ok hrest
    obtain ⟨palette, hread, hrest⟩ := except_bind_ok hrest
    obtain ⟨_, hpalette, hrest⟩ := except_bind_ok hrest
    have hpalette := presentCheck_ok hpalette
    have hpixels := presentCheck_ok hrest
    refine ⟨_, pixelBytes_indexed h hread hpalette hpixels, fun hf => absurd hf (by decide), ?_⟩
    refine fun _ => ⟨palette, hread, fun i hi => ?_⟩
    have hle := add_ofNat_le pixels i
    refine ⟨c.byte (pixels + BitVec.ofNat 32 i), h.readByte_eq (by omega), ?_⟩
    have hb := (c.byte (pixels + BitVec.ofNat 32 i)).isLt
    have hle' := add_ofNat_le palette (4 * (c.byte (pixels + BitVec.ofNat 32 i)).toNat)
    exact readWord_mem (fun a ha => h.readByte_eq ha) (by omega)

/-- The packet of an accepted descriptor is that of the frame the guest means. -/
theorem framePacket_frame (h : c.Accepted) :
    ∃ f : Frame, framePacket c.memoryBytes c.readByte c.descriptor = .ok f.packet ∧ f.Valid ∧ FrameOf c f := by
  obtain ⟨_, pixels, width, height, format, hp, hw, hh, hf, hwidth, hheight, hformat, hrest⟩ := present_ok h.accepts
  obtain ⟨g, hbytes, hxrgb, hindexed⟩ := pixelBytes_frame h hformat hrest
  refine ⟨⟨width, height, (List.range (width.toNat * height.toNat)).map g⟩, ?_, ?_, ?_⟩
  · unfold framePacket
    rw [h.accepts, ok_bind, hp, ok_bind, hw, ok_bind, hh, ok_bind, hf, ok_bind, hbytes, ok_bind]
    rfl
  · constructor
    · exact hwidth
    · exact hheight
    · rw [List.length_map, List.length_range]
  · have hget : ∀ i < width.toNat * height.toNat, ((List.range (width.toNat * height.toNat)).map g)[i]? = some (g i) := by
      intro i hi
      rw [List.getElem?_map, List.getElem?_range hi]
      rfl
    refine ⟨pixels, format, hp, hw, hh, hf, ?_, ?_⟩
    · intro hx i hi
      exact ⟨g i, hget i hi, hxrgb hx i hi⟩
    · intro hx
      obtain ⟨palette, hread, hpixel⟩ := hindexed hx
      refine ⟨palette, hread, fun i hi => ?_⟩
      obtain ⟨b, hb, hword⟩ := hpixel i hi
      exact ⟨b, g i, hb, hget i hi, hword⟩

/-- Some accepted frames in a row: what is sent is a part of their packets, up to the end if all of
it is. -/
theorem presents_frames {calls : List (Call × List WriteResult)} (h : ∀ call ∈ calls, call.1.Accepted) :
    ∃ frames bytes unsent done, presents calls = .ok (bytes, done) ∧
      List.Forall₂ (fun call f => FrameOf call.1 f) calls frames ∧ (∀ f ∈ frames, f.Valid) ∧
      bytes ++ unsent = frames.flatMap Frame.packet ∧ (done = true → unsent = []) := by
  induction calls with
  | nil => exact ⟨[], [], [], true, rfl, .nil, fun _ hf => absurd hf List.not_mem_nil, rfl, fun _ => rfl⟩
  | cons call calls ih =>
      obtain ⟨f, hpacket, hvalid, hframe⟩ := framePacket_frame (h call List.mem_cons_self)
      obtain ⟨frames, bytes, unsent, done, hrec, hframes, hvalids, hbytes, hdone⟩ :=
        ih fun call' hcall => h call' (List.mem_cons_of_mem _ hcall)
      have hall : ∀ g ∈ f :: frames, g.Valid := List.forall_mem_cons.mpr ⟨hvalid, hvalids⟩
      have hcons : List.Forall₂ (fun call f => FrameOf call.1 f) (call :: calls) (f :: frames) := .cons hframe hframes
      unfold presents
      rw [hpacket]
      dsimp only
      by_cases hsent : (sendPacket f.packet call.2).2 = true
      · rw [if_pos hsent, hrec, sendPacket_done hsent]
        refine ⟨f :: frames, f.packet ++ bytes, unsent, done, rfl, hcons, hall, ?_, hdone⟩
        rw [List.append_assoc, hbytes, List.flatMap_cons]
      · obtain ⟨left, hleft⟩ := sendPacket_append f.packet call.2
        rw [if_neg hsent]
        refine ⟨f :: frames, _, left ++ frames.flatMap Frame.packet, false, rfl, hcons, hall, ?_, fun e => nomatch e⟩
        rw [← List.append_assoc, hleft, List.flatMap_cons]

end Packet

end RvO3.Display
