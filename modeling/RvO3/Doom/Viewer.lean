import RvO3.Sim.Display

/-!
# The viewer

The frame reader and the key writer of `doom/viewer.cpp`, the other ends of the pipes of
`Sim.Display`. The frame reader has one buffer, which grows from a header to a whole frame when
the header is complete, and a read fills it at most to its end. The window, and the texture that
a frame goes to, are left out.
-/

set_option autoImplicit false

namespace RvO3.Display

/-- `queueKey`. -/
def queueKey (key : Word) (down : Bool) : List Byte := appendWord (key ||| ((if down then 1#32 else 0#32) <<< 8))

/-- The frame reader: the first bytes of its buffer, the size of the buffer, the dimensions of the
frame in it, and the frames shown. -/
structure Viewer where
  frame : List Byte := []
  size : Nat := 12
  width : Word := 0
  height : Word := 0
  shown : List Frame := []
  running : Bool := true
  deriving DecidableEq, Repr

/-- What follows a `read` that returned some bytes. -/
def Viewer.receive (v : Viewer) (bytes : List Byte) : Viewer :=
  let frame := v.frame ++ bytes
  if frame.length ≠ v.size then { v with frame }
  else if v.size = 12 then
    let width := readWord (frame.drop 4)
    let height := readWord (frame.drop 8)
    if readWord frame ≠ RV_FRAME_MAGIC ∨ width.toNat = 0 ∨ width.toNat > RV_MAX_WIDTH ∨
        height.toNat = 0 ∨ height.toNat > RV_MAX_HEIGHT then { v with frame, width, height, running := false }
    else { v with frame, width, height, size := 12 + width.toNat * height.toNat * 4 }
  else
    let pixels := (List.range (v.width.toNat * v.height.toNat)).map fun p => readWord (frame.drop (12 + p * 4))
    { v with frame := [], size := 12, shown := v.shown ++ [⟨v.width, v.height, pixels⟩] }

/-- The loop over the results of its reads, and what it leaves in the pipe. -/
def Viewer.run : Viewer → List Byte → List ReadResult → Viewer × List Byte
  | v, pipe, [] => (v, pipe)
  | v, pipe, .again :: rs => v.run pipe rs
  | v, pipe, .interrupted :: rs => v.run pipe rs
  | v, pipe, .ready n :: rs =>
      let bytes := takeReady (v.size - v.frame.length) n pipe
      if v.running = false ∨ bytes = [] then v.run pipe rs
      else (v.receive bytes).run (pipe.drop bytes.length) rs

/-! ## Both ends agree on a packet -/

section Packet

variable {f : Frame} {v : Viewer} {todo : List Frame} {pipe unsent bytes : List Byte} {rs : List ReadResult}

/-- The first 12 bytes of a packet. -/
def Frame.header (f : Frame) : List Byte :=
  appendWord RV_FRAME_MAGIC ++ appendWord f.width ++ appendWord f.height

theorem Frame.packet_eq (f : Frame) : f.packet = f.header ++ f.pixels.flatMap appendWord := rfl

theorem Frame.header_length (f : Frame) : f.header.length = 12 := rfl

theorem Frame.packet_length (hf : f.Valid) : f.packet.length = 12 + f.width.toNat * f.height.toNat * 4 := by
  rw [packet_eq, List.length_append, header_length, flatMap_appendWord_length, hf.count, Nat.mul_comm]

theorem Frame.header_words (f : Frame) : readWord f.header = RV_FRAME_MAGIC ∧
    readWord (f.header.drop 4) = f.width ∧ readWord (f.header.drop 8) = f.height := by
  refine ⟨?_, ?_, ?_⟩
  · rw [header, List.append_assoc]
    exact readWord_appendWord _ _
  · exact readWord_appendWord f.width (appendWord f.height)
  · exact readWord_appendWord f.height []

/-- Words at every fourth byte are the ones that were appended. -/
theorem map_readWord (vs : List Word) :
    (List.range vs.length).map (fun p => readWord ((vs.flatMap appendWord).drop (p * 4))) = vs := by
  induction vs with
  | nil => rfl
  | cons v vs ih =>
      rw [List.length_cons, List.range_succ_eq_map, List.map_cons, List.map_map, List.flatMap_cons]
      congr 1
      · exact readWord_appendWord v _
      · calc (List.range vs.length).map ((fun p => readWord ((appendWord v ++ vs.flatMap appendWord).drop (p * 4))) ∘ Nat.succ)
            = (List.range vs.length).map (fun p => readWord ((vs.flatMap appendWord).drop (p * 4))) := by
              apply List.map_congr_left
              intro p _
              show readWord ((appendWord v ++ vs.flatMap appendWord).drop ((p + 1) * 4)) = _
              rw [Nat.succ_mul, Nat.add_comm, ← List.drop_drop, List.drop_left' (appendWord_length v)]
          _ = vs := ih

/-- The pixels of a packet are read back. -/
theorem Frame.read_pixels (hf : f.Valid) :
    (List.range (f.width.toNat * f.height.toNat)).map (fun p => readWord (f.packet.drop (12 + p * 4))) = f.pixels := by
  rw [← hf.count]
  have hdrop : ∀ p, f.packet.drop (12 + p * 4) = (f.pixels.flatMap appendWord).drop (p * 4) := by
    intro p
    rw [← List.drop_drop, packet_eq, List.drop_left' f.header_length]
  simp only [hdrop]
  exact map_readWord f.pixels

/-! ## Reading in pieces -/

/-- The reader waits for a header. -/
structure Viewer.InHeader (v : Viewer) : Prop where
  size : v.size = 12
  short : v.frame.length < 12

/-- The reader has the header of a frame and waits for its pixels. -/
structure Viewer.InPixels (v : Viewer) (f : Frame) : Prop where
  size : v.size = f.packet.length
  header : 12 ≤ v.frame.length
  short : v.frame.length < v.size
  width : v.width = f.width
  height : v.height = f.height

/-- The frames still to come are those that the received bytes start and the other bytes go on. -/
structure Viewer.Reads (v : Viewer) (frames todo : List Frame) (rest : List Byte) : Prop where
  running : v.running = true
  frames : v.shown ++ todo = frames
  bytes : v.frame ++ rest = todo.flatMap Frame.packet
  valid : ∀ f ∈ todo, f.Valid
  place : v.InHeader ∨ ∃ f fs, todo = f :: fs ∧ v.InPixels f

theorem Viewer.Reads.short {frames : List Frame} (h : v.Reads frames todo unsent) : v.frame.length < v.size := by
  rcases h.place with hp | ⟨_, _, _, hp⟩
  · rw [hp.size]
    exact hp.short
  · exact hp.short

/-- Bytes that do not fill the buffer leave the reader where it is. -/
theorem receive_short {frames : List Frame} (h : v.Reads frames todo (bytes ++ unsent))
    (hshort : (v.frame ++ bytes).length < v.size) : (v.receive bytes).Reads frames todo unsent := by
  have hrec : v.receive bytes = { v with frame := v.frame ++ bytes } := if_pos (Nat.ne_of_lt hshort)
  rw [hrec]
  constructor
  · exact h.running
  · exact h.frames
  · rw [← h.bytes]
    exact List.append_assoc _ _ _
  · exact h.valid
  · rcases h.place with hp | ⟨f, fs, htodo, hp⟩
    · left
      exact ⟨hp.size, hp.size ▸ hshort⟩
    · right
      refine ⟨f, fs, htodo, hp.size, ?_, hshort, hp.width, hp.height⟩
      have hheader := hp.header
      show 12 ≤ (v.frame ++ bytes).length
      rw [List.length_append]
      omega

/-- A complete header is that of the next frame. -/
theorem receive_header {frames : List Frame} (h : v.Reads frames todo (bytes ++ unsent)) (hp : v.InHeader)
    (hfull : (v.frame ++ bytes).length = 12) : (v.receive bytes).Reads frames todo unsent := by
  have hbytes := h.bytes
  rw [← List.append_assoc] at hbytes
  -- no frame is left: then there are no bytes either
  cases htodo : todo with
  | nil =>
      rw [htodo] at hbytes
      rw [(List.append_eq_nil_iff.mp hbytes).1] at hfull
      cases hfull
  | cons f fs =>
      rw [htodo, List.flatMap_cons, Frame.packet_eq, List.append_assoc f.header] at hbytes
      have hf : f.Valid := h.valid f (by rw [htodo]; exact List.mem_cons_self)
      obtain ⟨hheader, -⟩ := List.append_inj hbytes (hfull.trans f.header_length.symm)
      obtain ⟨hmagic, hwidth, hheight⟩ := f.header_words
      have hw := hf.width
      have hh := hf.height
      -- the header that was sent passes every check of the viewer
      have hgood : ¬ (readWord (v.frame ++ bytes) ≠ RV_FRAME_MAGIC ∨ (readWord ((v.frame ++ bytes).drop 4)).toNat = 0 ∨
          (readWord ((v.frame ++ bytes).drop 4)).toNat > RV_MAX_WIDTH ∨ (readWord ((v.frame ++ bytes).drop 8)).toNat = 0 ∨
          (readWord ((v.frame ++ bytes).drop 8)).toNat > RV_MAX_HEIGHT) := by
        rw [hheader, hmagic, hwidth, hheight]
        rintro (hne | hbad)
        · exact hne rfl
        · omega
      have hrec : v.receive bytes = { v with
          frame := v.frame ++ bytes, width := readWord ((v.frame ++ bytes).drop 4),
          height := readWord ((v.frame ++ bytes).drop 8), size := 12 +
            (readWord ((v.frame ++ bytes).drop 4)).toNat * (readWord ((v.frame ++ bytes).drop 8)).toNat * 4 } := by
        unfold Viewer.receive
        dsimp only
        rw [if_neg (fun hne => hne (hfull.trans hp.size.symm)), if_pos hp.size, if_neg hgood]
      rw [hrec, hheader, hwidth, hheight]
      have hpos : 0 < f.width.toNat * f.height.toNat :=
        Nat.mul_pos (Nat.pos_of_ne_zero hw.1) (Nat.pos_of_ne_zero hh.1)
      have hlen := Frame.packet_length hf
      constructor
      · exact h.running
      · rw [← htodo]
        exact h.frames
      · rw [List.flatMap_cons, Frame.packet_eq, List.append_assoc f.header, ← hbytes, hheader]
      · rw [← htodo]
        exact h.valid
      · right
        refine ⟨f, fs, rfl, hlen.symm, ?_, ?_, rfl, rfl⟩
        · exact Nat.le_of_eq f.header_length.symm
        · show f.header.length < 12 + f.width.toNat * f.height.toNat * 4
          rw [f.header_length]
          omega

/-- A complete frame is the next one, and is shown. -/
theorem receive_pixels {frames fs : List Frame} (h : v.Reads frames todo (bytes ++ unsent)) (htodo : todo = f :: fs)
    (hp : v.InPixels f) (hfull : (v.frame ++ bytes).length = v.size) : (v.receive bytes).Reads frames fs unsent := by
  have hbytes := h.bytes
  rw [← List.append_assoc, htodo, List.flatMap_cons] at hbytes
  have hf : f.Valid := h.valid f (by rw [htodo]; exact List.mem_cons_self)
  obtain ⟨hpacket, hrest⟩ := List.append_inj hbytes (hfull.trans hp.size)
  have hsize : v.size ≠ 12 := by
    have hheader := hp.header
    have hshort := hp.short
    omega
  have hrec : v.receive bytes = { v with frame := [], size := 12, shown := v.shown ++ [f] } := by
    unfold Viewer.receive
    dsimp only
    rw [if_neg (fun hne => hne hfull), if_neg hsize, hpacket, hp.width, hp.height, Frame.read_pixels hf]
  rw [hrec]
  constructor
  · exact h.running
  · show v.shown ++ [f] ++ fs = frames
    rw [List.append_assoc, ← h.frames, htodo]
    rfl
  · exact hrest
  · intro g hg
    exact h.valid g (by rw [htodo]; exact List.mem_cons_of_mem _ hg)
  · left
    exact ⟨rfl, Nat.zero_lt_succ 11⟩

/-- One read. -/
theorem receive_reads {frames : List Frame} (h : v.Reads frames todo (bytes ++ unsent))
    (hroom : bytes.length ≤ v.size - v.frame.length) : ∃ todo', (v.receive bytes).Reads frames todo' unsent := by
  have hle : (v.frame ++ bytes).length ≤ v.size := by
    have hshort := h.short
    rw [List.length_append]
    omega
  rcases Nat.lt_or_eq_of_le hle with hlt | hfull
  · exact ⟨todo, receive_short h hlt⟩
  · rcases h.place with hp | ⟨f, fs, htodo, hp⟩
    · exact ⟨todo, receive_header h hp (hfull.trans hp.size)⟩
    · exact ⟨fs, receive_pixels h htodo hp hfull⟩

/-- Any number of reads. -/
theorem run_reads {frames : List Frame} (rs : List ReadResult) (h : v.Reads frames todo (pipe ++ unsent)) :
    ∃ todo', (v.run pipe rs).1.Reads frames todo' ((v.run pipe rs).2 ++ unsent) := by
  induction rs generalizing v todo pipe with
  | nil => exact ⟨todo, h⟩
  | cons r rs ih =>
      cases r with
      | again => exact ih h
      | interrupted => exact ih h
      | ready n =>
          unfold Viewer.run
          dsimp only
          split
          · exact ih h
          · rw [← takeReady_drop (v.size - v.frame.length) n pipe, List.append_assoc] at h
            obtain ⟨todo', h'⟩ := receive_reads h (takeReady_length _ n pipe)
            exact ih h'

/-- Enough reads empty the pipe. -/
theorem run_drained {frames : List Frame} (h : v.Reads frames todo (pipe ++ unsent))
    (hreads : pipe.length ≤ readies rs) : (v.run pipe rs).2 = [] := by
  induction rs generalizing v todo pipe with
  | nil => exact List.length_eq_zero_iff.mp (Nat.le_zero.mp hreads)
  | cons r rs ih =>
      cases r with
      | again => exact ih h hreads
      | interrupted => exact ih h hreads
      | ready n =>
          unfold Viewer.run
          dsimp only
          have hshort := h.short
          by_cases hpipe : pipe = []
          · have hempty : takeReady (v.size - v.frame.length) n pipe = [] := by
              rw [hpipe, takeReady, List.take_nil]
            rw [if_pos (.inr hempty)]
            exact ih h (by rw [hpipe]; exact Nat.zero_le _)
          · have hpos := takeReady_pos (n := n) (Nat.sub_pos_of_lt hshort) hpipe
            have hgo : ¬ (v.running = false ∨ takeReady (v.size - v.frame.length) n pipe = []) := by
              rintro (hstop | hempty)
              · rw [h.running] at hstop
                cases hstop
              · exact List.length_pos_iff.mp hpos hempty
            rw [if_neg hgo]
            rw [← takeReady_drop (v.size - v.frame.length) n pipe, List.append_assoc] at h
            obtain ⟨todo', h'⟩ := receive_reads h (takeReady_length _ n pipe)
            apply ih h'
            have hone : readies (.ready n :: rs) = readies rs + 1 := rfl
            rw [hone] at hreads
            rw [List.length_drop]
            omega

/-- A frame that is complete is shown: with no byte left, there is none still to come. -/
theorem Viewer.Reads.drained {frames : List Frame} (h : v.Reads frames todo []) : todo = [] := by
  cases htodo : todo with
  | nil => rfl
  | cons f fs =>
      exfalso
      have hlen := congrArg List.length h.bytes
      rw [htodo, List.append_nil, List.flatMap_cons, List.length_append] at hlen
      have hf : f.Valid := h.valid f (by rw [htodo]; exact List.mem_cons_self)
      rcases h.place with hp | ⟨g, gs, hg, hp⟩
      · have hshort := hp.short
        have hpacket := Frame.packet_length hf
        omega
      · rw [htodo] at hg
        cases hg
        have hshort := hp.short
        rw [hp.size] at hshort
        omega

end Packet

/-- What the viewer queues for a key is one event. -/
theorem queueKey_event {key : Word} (down : Bool) (hkey : key.toNat < 256) :
    ∃ e : Word, e.toNat ≤ 0x1FF ∧ queueKey key down = appendWord e := by
  refine ⟨_, ?_, rfl⟩
  rw [BitVec.toNat_or]
  have hdown : ((if down then 1#32 else 0#32) <<< 8 : Word).toNat < 2 ^ 9 := by
    cases down <;> decide
  exact Nat.le_of_lt_succ (Nat.or_lt_two_pow (Nat.lt_of_lt_of_le hkey (by decide)) hdown)

/-! ## Main result -/

/-- **The display pipes.** The frames that the viewer shows are those that the guest presents, in
order: whatever is sent and read in whatever pieces, the frames shown are the first ones, and all
of them are shown once all is sent and read. The same holds of the events that `pollKey` returns
for those that are written. -/
theorem pipes_exact :
    (∀ calls : List (Call × List WriteResult), (∀ call ∈ calls, call.1.Accepted) →
      ∃ frames bytes done, presents calls = .ok (bytes, done) ∧
        List.Forall₂ (fun call f => FrameOf call.1 f) calls frames ∧ (∀ f ∈ frames, f.Valid) ∧
        ∀ rs, ((Viewer.run {} bytes rs).1.running = true ∧ (Viewer.run {} bytes rs).1.shown <+: frames) ∧
          (bytes.length ≤ readies rs → (Viewer.run {} bytes rs).2 = []) ∧
          (done = true → (Viewer.run {} bytes rs).2 = [] → (Viewer.run {} bytes rs).1.shown = frames)) ∧
    (∀ events : List Word, (∀ e ∈ events, e.toNat ≤ 0x1FF) → ∀ calls rs,
      ∃ vs k, polls calls ⟨[], events.flatMap appendWord⟩ rs = .ok (vs, k) ∧
        vs.filter (fun v => v ≠ noEvent) <+: events ∧
        (rs.length ≤ calls → 4 * events.length ≤ readies rs → k.pipe = []) ∧
        (k.pipe = [] → vs.filter (fun v => v ≠ noEvent) = events)) := by
  constructor
  · intro calls hcalls
    obtain ⟨frames, bytes, unsent, done, hsend, hframes, hvalid, hbytes, hdone⟩ := presents_frames hcalls
    refine ⟨frames, bytes, done, hsend, hframes, hvalid, fun rs => ?_⟩
    have hstart : Viewer.Reads {} frames frames (bytes ++ unsent) := by
      constructor
      · rfl
      · rfl
      · exact hbytes
      · exact hvalid
      · exact .inl ⟨rfl, Nat.zero_lt_succ 11⟩
    obtain ⟨todo, h⟩ := run_reads rs hstart
    refine ⟨⟨h.running, todo, h.frames⟩, run_drained hstart, ?_⟩
    intro hd hempty
    rw [hempty, hdone hd] at h
    rw [← h.frames, h.drained, List.append_nil]
  · intro events hev calls rs
    have hstart : Pending events ⟨[], events.flatMap appendWord⟩ := ⟨rfl, Nat.zero_lt_succ 3⟩
    obtain ⟨vs, k, rest, hpolls, hevents, hk⟩ := polls_pending calls rs hev hstart
    refine ⟨vs, k, hpolls, ⟨rest, hevents.symm⟩, ?_, ?_⟩
    · intro hlen hreads
      exact polls_drained hstart.short hlen (by rw [flatMap_appendWord_length]; exact hreads) hpolls
    · intro hempty
      rw [hk.drained hempty, List.append_nil] at hevents
      exact hevents.symm

/-- A guest that presents one pixel. -/
def onePixel : Call where
  memoryBytes := 24
  readByte a := .ok ([20, 0, 0, 0, 1, 0, 0, 0, 1, 0, 0, 0, 1, 0, 0, 0, 0, 0, 0, 0, 0x33, 0x22, 0x11, 0].getD a.toNat 0)
  descriptor := 0

/-- A guest that presents two pixels of a palette in which colour `k` is the grey of level `k`. -/
def twoGreys : Call where
  memoryBytes := 24 + 256 * 4
  readByte a := .ok (
    if a.toNat < 24 then [20, 0, 0, 0, 2, 0, 0, 0, 1, 0, 0, 0, 2, 0, 0, 0, 24, 0, 0, 0, 0x90, 0x40, 0, 0].getD a.toNat 0
    else if a.toNat % 4 = 3 then 0
    else BitVec.ofNat 8 ((a.toNat - 24) / 4))
  descriptor := 0

/-- The packets leave in two writes each, the first with a signal between them. -/
def writtenFrames : List (Call × List WriteResult) :=
  [(onePixel, [.wrote 6, .interrupted, .wrote 8]), (twoGreys, [.wrote 3, .wrote 15])]

/-- What the two guests mean. -/
def shownFrames : List Frame := [⟨1, 1, [0x112233]⟩, ⟨2, 1, [0x909090, 0x404040]⟩]

/-- The pixel goes as it is and the greys as the palette has them, and 36 reads show both frames. The
press and the release of a key arrive in whatever pieces they are read. -/
theorem pipes_exact_frames :
    (∃ bytes f g, presents writtenFrames = .ok (bytes, true) ∧ shownFrames = [f, g] ∧ FrameOf onePixel f ∧
      FrameOf twoGreys g ∧ ∀ rs, 36 ≤ readies rs → (Viewer.run {} bytes rs).1.shown = shownFrames) ∧
    ∃ press release, press ≠ release ∧ ∀ calls rs, rs.length ≤ calls → 8 ≤ readies rs →
      ∃ vs k, polls calls ⟨[], queueKey 0x41 true ++ queueKey 0x41 false⟩ rs = .ok (vs, k) ∧
        vs.filter (fun v => v ≠ noEvent) = [press, release] := by
  constructor
  · have haccepted : ∀ call ∈ writtenFrames, call.1.Accepted := by
      intro call hcall
      have hpresent : present call.1.memoryBytes call.1.readByte false true call.1.descriptor = .ok () := by
        rcases List.mem_cons.mp hcall with rfl | hcall
        · decide +kernel
        · rw [List.mem_singleton.mp hcall]
          decide +kernel
      refine ⟨fun a _ => ?_, hpresent⟩
      rcases List.mem_cons.mp hcall with rfl | hcall
      · exact ⟨_, rfl⟩
      · rw [List.mem_singleton.mp hcall]
        exact ⟨_, rfl⟩
    obtain ⟨frames, bytes, done, hsend, hframes, -, hrun⟩ := pipes_exact.1 _ haccepted
    have hsent : ((presents writtenFrames).toOption.any fun r => r.2 && (r.1.length == 36) &&
        decide ((Viewer.run {} r.1 (List.replicate 36 (.ready 4))).1.shown = shownFrames)) = true := by decide +kernel
    rw [hsend] at hsent
    change (done && (bytes.length == 36) && decide (_ = shownFrames)) = true at hsent
    simp only [Bool.and_eq_true, beq_iff_eq, decide_eq_true_eq] at hsent
    obtain ⟨⟨hdone, hlen⟩, hshown⟩ := hsent
    have hall : ∀ rs, 36 ≤ readies rs → (Viewer.run {} bytes rs).1.shown = frames := fun rs hrs =>
      (hrun rs).2.2 hdone ((hrun rs).2.1 (by rw [hlen]; exact hrs))
    have hsame : shownFrames = frames := hshown.symm.trans (hall _ (by decide))
    rw [hdone] at hsend
    rw [← hsame] at hframes hall
    obtain ⟨hf, hrest⟩ := List.forall₂_cons.mp hframes
    exact ⟨bytes, _, _, hsend, rfl, hf, (List.forall₂_cons.mp hrest).1, hall⟩
  · have hkey : (0x41 : Word).toNat < 256 := by decide
    obtain ⟨press, hpress, hdown⟩ := queueKey_event true hkey
    obtain ⟨release, hrelease, hup⟩ := queueKey_event false hkey
    refine ⟨press, release, fun h => ?_, fun calls rs hcalls hrs => ?_⟩
    · rw [h, ← hup] at hdown
      revert hdown
      decide
    · have hevents : ∀ e ∈ [press, release], e.toNat ≤ 0x1FF := by
        simp only [List.mem_cons, List.not_mem_nil, or_false, forall_eq_or_imp, forall_eq]
        exact ⟨hpress, hrelease⟩
      obtain ⟨vs, k, hpolls, -, hdrained, hall⟩ := pipes_exact.2 [press, release] hevents calls rs
      rw [hdown, hup]
      exact ⟨vs, k, hpolls, hall (hdrained hcalls hrs)⟩

end RvO3.Display
