import SmartQ.Usb.RoundTrip

/-!
# Frames and jumps

The bulk OUT packets as the host means them: frames of a target address, a size,
a payload and two checksum bytes. `Framing` reads them off the packets, without
the device; the device follows it.

* `Framing.Matches.next`: the device after one event.
* `usbRead_jumped_iff`: `usb_read` jumps exactly when a frame is complete.
* `jump_checksum_iff`: the runs in which every jump is to a frame whose checksum
  is right.
-/

namespace SmartQ.Usb

open SmartQ.Lib

/-! ## Frames -/

/-- How far the host is: in front of a frame, in a frame that began before
    `usb_read` was entered, or behind the bytes `bytes` of a frame of `size` bytes
    for `addr`. -/
inductive Framing
  | idle
  | before
  | busy (addr size : ℕ) (bytes : List Byte)
  deriving DecidableEq

namespace Framing

/-- A frame begins with the packet `p`. One that announces no bytes is none. -/
def begin (p : OutPkt) : Framing :=
  if u32At (readOutFifo p 0 8) 4 = 0 then .idle
  else .busy (evenAddr (u32At (readOutFifo p 0 8) 0)) (u32At (readOutFifo p 0 8) 4) p.data

/-- What an event is to the host. A packet of ten bytes in front of a frame is an
    upload request; after an enumeration everything begins anew. -/
def next : Framing → Event → Framing
  | f, .reset => f
  | _, .enumDone _ => .idle
  | .idle, .out p => if p.fifoCntByte = 10 then .idle else begin p
  | .before, .out _ => .before
  | .busy addr size bytes, .out p => .busy addr size (bytes ++ p.data)

end Framing

/-- The host after the events `es`, when `usb_read` was entered in state `s`. -/
def framing (s : Dev) (es : List Event) : Framing :=
  es.foldl Framing.next (if s.otg.dnFilesize = 0 then .idle else .before)

/-- The frame `frame` of `size` bytes is there: of what it announces nothing but
    the header is missing in the count. -/
def FrameDone (size : ℕ) (frame : List Byte) : Prop := sub32 size 8 ≤ sub32 frame.length 8

/-- A frame with a right checksum: the two bytes behind the payload are its sum. -/
structure FrameRight (size : ℕ) (frame : List Byte) : Prop where
  checksum : 10 ≤ size
  whole : size ≤ frame.length
  sum : byteSum ((frame.drop 8).take (size - 10)) % 2 ^ 16 = u16At frame (size - 2)

instance (size : ℕ) (frame : List Byte) : Decidable (FrameRight size frame) :=
  decidable_of_iff (10 ≤ size ∧ size ≤ frame.length ∧
      byteSum ((frame.drop 8).take (size - 10)) % 2 ^ 16 = u16At frame (size - 2))
    ⟨fun h => ⟨h.1, h.2.1, h.2.2⟩, fun h => ⟨h.1, h.2, h.3⟩⟩

/-! ## The device follows -/

namespace Framing

/-- The device `u` is where the host is. Of a frame, the bytes that do not reach
    the end of memory stand where they belong. -/
structure Busy (u : Dev) (addr size : ℕ) (bytes : List Byte) : Prop where
  size_ne : size ≠ 0
  addr_lt : addr < 2 ^ 32
  dnAddr : u.otg.dnAddr = addr
  dnFilesize : u.otg.dnFilesize = size
  usbdDnAddr : u.usbdDnAddr = addr
  usbdDnCnt : u.usbdDnCnt = size
  dnPtr : u.otg.dnPtr = (addr + 2 ^ 32 - 8 + bytes.length) % 2 ^ 32
  ram : addr + bytes.length ≤ 2 ^ 32 → ∀ i, 8 ≤ i → i < bytes.length →
    u.ram.get (addr + 2 ^ 32 - 8 + i) = byteAt bytes i

/-- The device `u` is where the host is. -/
def Matches (u : Dev) : Framing → Prop
  | .idle => u.otg.dnFilesize = 0
  | .before => u.otg.dnFilesize ≠ 0 ∧ u.usbdDnCnt = 0
  | .busy addr size bytes => Busy u addr size bytes

/-- A packet as it comes out of the FIFO behind its first `pos` bytes. -/
theorem byteAt_readOutFifo {p : OutPkt} {pos i : ℕ} {num : ℤ} (hi : i < 4 * fifoWords num)
    (hdata : pos + i < p.data.length) :
    byteAt (readOutFifo p pos num) i = byteAt p.data (pos + i) := by
  have hlen : i < (readOutFifo p pos num).length := by
    rw [length_readOutFifo]
    exact hi
  rw [byteAt_of_lt hlen]
  simp only [readOutFifo, List.getElem_map, List.getElem_range, OutPkt.fifo]
  exact if_pos hdata

/-- The first packet of a frame. -/
theorem Busy.begin {s : Dev} {p : OutPkt} (hsize : u32At (readOutFifo p 0 8) 4 ≠ 0) :
    Busy (downloadStart s p) (evenAddr (u32At (readOutFifo p 0 8) 0))
      (u32At (readOutFifo p 0 8) 4) p.data := by
  have heven : evenAddr (u32At (readOutFifo p 0 8) 0) < 2 ^ 32 := by
    unfold evenAddr
    split_ifs
    · exact add32_lt _ _
    · exact u32At_lt _ _
  refine ⟨hsize, heven, rfl, rfl, rfl, rfl, ?_, fun hend i h8 hi => ?_⟩
  · show add32 _ (sub32 p.data.length 8) = _
    unfold add32 sub32
    omega
  · have hlt := p.lt
    have hrest : sub32 p.fifoCntByte 8 = p.data.length - 8 := by
      show sub32 p.data.length 8 = _
      exact sub32_of_le (by omega) (by omega)
    have hint : int32 (p.data.length - 8 : ℕ) = (p.data.length - 8 : ℕ) :=
      int32_of_range (by omega) (by omega)
    have hwords := le_fifoWords (p.data.length - 8)
    have hget : (s.ram.set (evenAddr (u32At (readOutFifo p 0 8) 0))
        (readOutFifo p 8 (p.data.length - 8 : ℕ))).get
          (evenAddr (u32At (readOutFifo p 0 8) 0) + (i - 8)) =
        byteAt (readOutFifo p 8 (p.data.length - 8 : ℕ)) (i - 8) :=
      Ram.get_set_at (by rw [length_readOutFifo]; omega) (by rw [length_readOutFifo]; omega)
    rw [byteAt_readOutFifo (by omega) (by omega), Nat.add_sub_cancel' h8] at hget
    have hram : (downloadStart s p).ram = s.ram.set (evenAddr (u32At (readOutFifo p 0 8) 0))
        (readOutFifo p 8 (p.data.length - 8 : ℕ)) := by rw [downloadStart, hrest, hint]
    rw [hram, ← hget]
    exact Ram.get_congr (by omega)

/-- A further packet. -/
theorem Busy.stored {u : Dev} {addr size : ℕ} {bytes : List Byte} (h : Busy u addr size bytes)
    (p : OutPkt) : Busy (stored u p) addr size (bytes ++ p.data) := by
  refine ⟨h.size_ne, h.addr_lt, h.dnAddr, h.dnFilesize, h.usbdDnAddr, h.usbdDnCnt, ?_,
    fun hend i h8 hi => ?_⟩
  · show add32 u.otg.dnPtr p.data.length = _
    rw [h.dnPtr, add32, Nat.mod_add_mod, List.length_append, Nat.add_assoc]
  · rw [List.length_append] at hend hi
    have hlt := p.lt
    have hwords := le_fifoWords p.data.length
    show (u.ram.set u.otg.dnPtr (readOutFifo p 0 (p.data.length : ℕ))).get _ = _
    rw [h.dnPtr, Ram.set_mod]
    rcases Nat.lt_or_ge i bytes.length with hold | hnew
    · -- The store lies behind the byte and does not come round to it.
      rw [byteAt_append_left _ hold, ← h.ram (by omega) i h8 hold]
      apply Ram.get_set_off
      rw [length_readOutFifo]
      unfold sub32
      omega
    · have hget : (u.ram.set (addr + 2 ^ 32 - 8 + bytes.length)
          (readOutFifo p 0 (p.data.length : ℕ))).get
            (addr + 2 ^ 32 - 8 + bytes.length + (i - bytes.length)) =
          byteAt (readOutFifo p 0 (p.data.length : ℕ)) (i - bytes.length) :=
        Ram.get_set_at (by rw [length_readOutFifo]; omega) (by rw [length_readOutFifo]; omega)
      rw [byteAt_readOutFifo (by omega) (by omega), Nat.zero_add, Nat.add_assoc,
        Nat.add_sub_cancel' hnew] at hget
      rw [byteAt_append_right _ hnew, hget]

/-- The completion test counts the bytes of the frame. -/
theorem Busy.done_iff {u : Dev} {addr size : ℕ} {bytes : List Byte}
    (h : Busy u addr size bytes) : Complete u ↔ FrameDone size bytes := by
  have haddr := h.addr_lt
  have hptr : sub32 u.otg.dnPtr u.otg.dnAddr = sub32 bytes.length 8 := by
    rw [h.dnPtr, h.dnAddr]
    unfold sub32
    omega
  unfold Complete FrameDone
  rw [hptr, h.dnFilesize]

/-- One event that does not end the polling. -/
theorem Matches.next {f : Framing} {u u' : Dev} {e : Event} (h : f.Matches u)
    (hstep : udcIntHndlr u e = some u') (hwait : u'.receiveDone = false) : (f.next e).Matches u' := by
  rcases e with p | _ | speed
  · have hstep : intBulkout u p = some u' := hstep
    have hfurther : u.otg.dnFilesize ≠ 0 → u' = Usb.stored u p := by
      intro hz
      rw [intBulkout, if_neg hz] at hstep
      by_cases hc : Complete (Usb.stored u p)
      · rcases hcs : dnCS (Usb.stored u p).ram u.otg.dnAddr u.otg.dnFilesize with _ | cs
        · rw [downloadContinue_abort hc hcs] at hstep
          cases hstep
        · rw [downloadContinue_complete hc hcs, Option.some.injEq] at hstep
          subst hstep
          cases hwait
      · rw [downloadContinue_incomplete hc, Option.some.injEq] at hstep
        exact hstep.symm
    cases f with
    | idle =>
      have hz : u.otg.dnFilesize = 0 := h
      rw [intBulkout, if_pos hz] at hstep
      rw [Framing.next]
      split_ifs at hstep ⊢ with h10
      · cases hstep
        rfl
      · cases hstep
        unfold Framing.begin
        split_ifs with hsize
        · exact hsize
        · exact Busy.begin hsize
    | before =>
      obtain ⟨hz, hcnt⟩ := h
      rw [hfurther hz]
      exact ⟨by rw [stored_dnFilesize]; exact hz, hcnt⟩
    | busy addr size bytes =>
      have hz : u.otg.dnFilesize ≠ 0 := by
        rw [Busy.dnFilesize h]
        exact Busy.size_ne h
      rw [hfurther hz]
      exact Busy.stored h p
  · cases hstep
    exact h
  · cases hstep
    rfl

end Framing

/-- While `usb_read` polls, the device is where the host is. -/
theorem framing_matches {s u : Dev} {es : List Event} (h : usbRead s es = .waiting u) :
    (framing s es).Matches u ∧ u.receiveDone = false := by
  have hall : ∀ (es : List Event) (f : Framing) (t : Dev), f.Matches t → t.receiveDone = false →
      pollLoop t es = .waiting u →
        (es.foldl Framing.next f).Matches u ∧ u.receiveDone = false := by
    intro es
    induction es with
    | nil =>
      intro f t hf ht hrun
      cases hrun
      exact ⟨hf, ht⟩
    | cons e es ih =>
      intro f t hf ht hrun
      unfold pollLoop at hrun
      rcases hstep : udcIntHndlr t e with _ | t'
      · simp only [hstep] at hrun
        cases hrun
      · simp only [hstep] at hrun
        split_ifs at hrun with hdone
        have hwait : t'.receiveDone = false := by simpa using hdone
        exact ih _ _ (hf.next hstep hwait) hwait hrun
  refine hall es _ _ ?_ rfl h
  split_ifs with hz
  · exact hz
  · exact ⟨hz, rfl⟩

/-! ## Jumps -/

/-- After the events `pre` the packet `p` completes the frame `frame` of `size`
    bytes for `addr`, while `usb_read` polls. -/
structure CompletesAt (s : Dev) (pre : List Event) (p : OutPkt) (addr size : ℕ)
    (frame : List Byte) : Prop where
  waiting : ∃ u, usbRead s pre = .waiting u
  busy : ∃ bytes, framing s pre = .busy addr size bytes ∧ frame = bytes ++ p.data
  done : FrameDone size frame

/-- The two checksum bytes can be read without a data abort. -/
def ChecksumReadable (addr size : ℕ) : Prop := csEnd addr size % 4 ≠ 3

/-- Otherwise the load is off its boundary. -/
theorem dnCS_eq_none_iff {m : Ram} {addr size : ℕ} :
    dnCS m addr size = none ↔ ¬ ChecksumReadable addr size := by
  unfold dnCS ChecksumReadable ldr ldrh
  by_cases hodd : csEnd addr size % 2 = 1
  · simp only [if_pos hodd, Option.map_eq_none_iff, ite_eq_right_iff, reduceCtorEq, imp_false]
    omega
  · simp only [if_neg hodd, ite_eq_right_iff, reduceCtorEq, imp_false]
    omega

section Jump

variable {s : Dev} {pre : List Event} {p : OutPkt} {addr size : ℕ} {frame : List Byte}

/-- The device at such a packet. -/
theorem CompletesAt.dev (h : CompletesAt s pre p addr size frame) :
    ∃ u, usbRead s pre = .waiting u ∧ u.otg.dnFilesize ≠ 0 ∧ u.usbdDnCnt ≠ 0 ∧
      u.usbdDnAddr = addr ∧ Complete (stored u p) ∧ Framing.Busy (stored u p) addr size frame := by
  obtain ⟨⟨u, hu⟩, ⟨bytes, hbytes, rfl⟩, hdone⟩ := h
  have hbusy : Framing.Busy u addr size bytes := by
    have hmatch := (framing_matches hu).1
    rw [hbytes] at hmatch
    exact hmatch
  refine ⟨u, hu, ?_, ?_, hbusy.usbdDnAddr, ?_, hbusy.stored p⟩
  · rw [hbusy.dnFilesize]
    exact hbusy.size_ne
  · rw [hbusy.usbdDnCnt]
    exact hbusy.size_ne
  · exact (hbusy.stored p).done_iff.mpr hdone

/-- A frame whose checksum can be read is jumped to, whatever its checksum is. -/
theorem CompletesAt.jumps (h : CompletesAt s pre p addr size frame)
    (hread : ChecksumReadable addr size) (post : List Event) :
    ∃ t, usbRead s (pre ++ .out p :: post) = .jumped addr t := by
  obtain ⟨u, hu, hz, hcnt, rfl, hc, hbusy⟩ := h.dev
  have hdn : dnCS (stored u p).ram u.otg.dnAddr u.otg.dnFilesize ≠ none := by
    rw [← stored_dnAddr u p, ← stored_dnFilesize u p, hbusy.dnAddr, hbusy.dnFilesize, ne_eq,
      dnCS_eq_none_iff]
    exact not_not.mpr hread
  obtain ⟨cs, hcs⟩ := Option.ne_none_iff_exists'.mp hdn
  exact ⟨_, (pollLoop_append hu).trans (pollLoop_complete post hz hcnt hc hcs)⟩

/-- One whose checksum cannot be read ends the program. -/
theorem CompletesAt.aborts (h : CompletesAt s pre p addr size frame)
    (hread : ¬ ChecksumReadable addr size) (post : List Event) :
    ∃ t, usbRead s (pre ++ .out p :: post) = .aborted t := by
  obtain ⟨u, hu, hz, -, -, hc, hbusy⟩ := h.dev
  have hdn : dnCS (stored u p).ram u.otg.dnAddr u.otg.dnFilesize = none := by
    rw [← stored_dnAddr u p, ← stored_dnFilesize u p, hbusy.dnAddr, hbusy.dnFilesize,
      dnCS_eq_none_iff]
    exact hread
  exact ⟨_, (pollLoop_append hu).trans (pollLoop_abort post hz hc hdn)⟩

/-- Either way the polling is over. -/
theorem CompletesAt.not_waiting (h : CompletesAt s pre p addr size frame) (post : List Event) :
    ¬ ∃ u, usbRead s (pre ++ .out p :: post) = .waiting u := by
  rintro ⟨u, hu⟩
  by_cases hread : ChecksumReadable addr size
  · obtain ⟨t, ht⟩ := h.jumps hread post
    rw [ht] at hu
    cases hu
  · obtain ⟨t, ht⟩ := h.aborts hread post
    rw [ht] at hu
    cases hu

/-- Every jump is to a complete frame; what `s3c_usb_verify_checksum` found is on
    the LEDs. -/
theorem usbRead_jumped {es : List Event} {t : Dev} (h : usbRead s es = .jumped addr t) :
    ∃ pre p post size frame, es = pre ++ .out p :: post ∧ CompletesAt s pre p addr size frame ∧
      ChecksumReadable addr size ∧ Framing.Busy t addr size frame ∧
      ∃ cs, dnCS t.ram addr size = some cs ∧
        t.led = if checkSum t.ram addr size = cs then 1 else 2 := by
  obtain ⟨pre, p, post, u, cs, rfl, hpre, hz, hcnt, rfl, hc, hcs, rfl⟩ := pollLoop_jumped rfl h
  obtain ⟨hmatch, -⟩ := framing_matches (s := s) hpre
  rcases hf : framing s pre with _ | _ | ⟨addr, size, bytes⟩
  · rw [hf] at hmatch
    exact absurd hmatch hz
  · rw [hf] at hmatch
    exact absurd hmatch.2 hcnt
  · rw [hf] at hmatch
    have hbusy : Framing.Busy u addr size bytes := hmatch
    have hstored := hbusy.stored p
    rw [hbusy.dnAddr, hbusy.dnFilesize] at hcs
    have hled : (doneWith u p cs).led =
        if checkSum (stored u p).ram addr size = cs then 1 else 2 := by
      rw [← hbusy.dnAddr, ← hbusy.dnFilesize]
      rfl
    rw [hbusy.usbdDnAddr]
    refine ⟨pre, p, post, size, bytes ++ p.data, rfl, ⟨⟨u, hpre⟩, ⟨bytes, hf, rfl⟩, ?_⟩, ?_, ?_,
      cs, hcs, hled⟩
    · exact hstored.done_iff.mp hc
    · by_contra hread
      rw [dnCS_eq_none_iff.mpr hread] at hcs
      cases hcs
    · exact ⟨hstored.size_ne, hstored.addr_lt, hstored.dnAddr, hstored.dnFilesize,
        hstored.usbdDnAddr, hstored.usbdDnCnt, hstored.dnPtr, hstored.ram⟩

end Jump

/-! ## The verdict -/

section Verdict

variable {t : Dev} {addr size : ℕ} {frame : List Byte}

/-- Parts of a frame that does not reach the end of memory. -/
theorem Framing.Busy.bytes_eq (h : Framing.Busy t addr size frame)
    (hend : addr + frame.length ≤ 2 ^ 32) {j k : ℕ} (hk : 8 + j + k ≤ frame.length) :
    t.ram.bytes (addr + j) k = (frame.drop (8 + j)).take k := by
  have hlen : ((frame.drop (8 + j)).take k).length = k := by
    rw [List.length_take, List.length_drop]
    omega
  have hbytes : t.ram.bytes (addr + j) ((frame.drop (8 + j)).take k).length =
      (frame.drop (8 + j)).take k := by
    apply Ram.bytes_eq_of_get
    intro i hi
    rw [hlen] at hi
    have hget := h.ram hend (8 + j + i) (by omega) (by omega)
    rw [Ram.get_congr (show (addr + j + i) % 2 ^ 32 = (addr + 2 ^ 32 - 8 + (8 + j + i)) % 2 ^ 32 by
      omega), hget, byteAt_of_lt (by omega), byteAt_of_lt (by omega), List.getElem_take,
      List.getElem_drop]
  rwa [hlen] at hbytes

/-- `s3c_usb_verify_checksum` compares what the frame says to compare. -/
theorem Framing.Busy.checkSum_iff (h : Framing.Busy t addr size frame) {cs : ℕ}
    (hcs : dnCS t.ram addr size = some cs) (h10 : 10 ≤ size) (hwhole : size ≤ frame.length)
    (hend : addr + frame.length ≤ 2 ^ 32) :
    checkSum t.ram addr size = cs ↔ FrameRight size frame := by
  obtain ⟨n, rfl⟩ := Nat.exists_eq_add_of_le' h10
  have hpayload : t.ram.bytes addr n = (frame.drop 8).take n := h.bytes_eq hend (j := 0) (by omega)
  have htail : t.ram.bytes (addr + n) 2 = [byteAt frame (8 + n), byteAt frame (8 + n + 1)] := by
    rw [h.bytes_eq hend (by omega), byteAt_of_lt (by omega), byteAt_of_lt (by omega),
      List.drop_eq_getElem_cons (by omega), List.drop_eq_getElem_cons (by omega)]
    rfl
  rw [dnCS_eq htail] at hcs
  split_ifs at hcs
  cases hcs
  rw [checkSum_eq h.addr_lt (by omega), if_pos (by omega), hpayload]
  have hat : u16At frame (n + 10 - 2) =
      (byteAt frame (8 + n)).toNat + (byteAt frame (8 + n + 1)).toNat * 2 ^ 8 := by
    rw [show n + 10 - 2 = 8 + n by omega, u16At]
  rw [← hat]
  constructor
  · intro hsum
    exact ⟨h10, hwhole, by rw [Nat.add_sub_cancel]; exact hsum⟩
  · intro hright
    have hsum := hright.sum
    rwa [Nat.add_sub_cancel] at hsum

end Verdict

/-! ## The runs in which the checksum holds -/

/-- What is asked of a run of `usb_read`: it jumps to a frame with a right checksum
    only, and after one with a wrong checksum only once a new frame with a right
    one is complete. -/
structure ChecksumGuards (s : Dev) (es : List Event) : Prop where
  jump : ∀ addr t, usbRead s es = .jumped addr t → ∃ pre p post size frame,
    es = pre ++ .out p :: post ∧ CompletesAt s pre p addr size frame ∧ FrameRight size frame
  mismatch : ∀ pre p post addr size frame, es = pre ++ .out p :: post →
    CompletesAt s pre p addr size frame → ¬ FrameRight size frame →
    ∀ addr' t, usbRead s es = .jumped addr' t → ∃ mid q post' size' frame',
      post = mid ++ .out q :: post' ∧
      CompletesAt s (pre ++ .out p :: mid) q addr' size' frame' ∧ FrameRight size' frame'

/-- A run keeps to that exactly if every frame that is completed in it, and whose
    checksum can be read, is right: the result of `s3c_usb_verify_checksum` reaches
    the LEDs, not the loop. The LEDs tell it of every frame that has a checksum and
    does not reach the end of memory. -/
theorem jump_checksum_iff (s : Dev) (es : List Event) :
    (ChecksumGuards s es ↔ ∀ pre p post addr size frame, es = pre ++ .out p :: post →
      CompletesAt s pre p addr size frame → ChecksumReadable addr size → FrameRight size frame) ∧
    ∀ addr t, usbRead s es = .jumped addr t → ∃ pre p post size frame,
      es = pre ++ .out p :: post ∧ CompletesAt s pre p addr size frame ∧
      (10 ≤ size → size ≤ frame.length → addr + frame.length ≤ 2 ^ 32 →
        (t.led = 1 ↔ FrameRight size frame)) := by
  refine ⟨⟨?_, ?_⟩, ?_⟩
  · intro h pre p post addr size frame hes hdone hread
    by_contra hwrong
    subst hes
    obtain ⟨t, ht⟩ := hdone.jumps hread post
    obtain ⟨mid, q, _, _, _, _, hnew, _⟩ :=
      h.mismatch pre p post addr size frame rfl hdone hwrong addr t ht
    exact hdone.not_waiting mid hnew.waiting
  · intro h
    constructor
    · intro addr t ht
      obtain ⟨pre, p, post, size, frame, hes, hdone, hread, -⟩ := usbRead_jumped ht
      exact ⟨pre, p, post, size, frame, hes, hdone, h _ _ _ _ _ _ hes hdone hread⟩
    · intro pre p post addr size frame hes hdone hwrong addr' t ht
      have hread : ¬ ChecksumReadable addr size := fun hread =>
        hwrong (h _ _ _ _ _ _ hes hdone hread)
      subst hes
      obtain ⟨u, hu⟩ := hdone.aborts hread post
      rw [hu] at ht
      cases ht
  · intro addr t ht
    obtain ⟨pre, p, post, size, frame, hes, hdone, -, hbusy, cs, hcs, hled⟩ := usbRead_jumped ht
    refine ⟨pre, p, post, size, frame, hes, hdone, fun h10 hwhole hend => ?_⟩
    rw [← hbusy.checkSum_iff hcs h10 hwhole hend, hled]
    split_ifs with heq
    · exact iff_of_true rfl heq
    · exact iff_of_false (by decide) heq

/-- The header of a one-byte file for `0x50000000`, and its byte. -/
def headPkt : OutPkt := .ofBytes [0, 0, 0, 0x50, 11, 0, 0, 0, 5] (by decide) (by decide)

/-- The last packet of a frame, which has only the checksum 1 in it. -/
def tailPkt : OutPkt := .ofBytes [1, 0] (by decide) (by decide)

/-- The frame of the two is complete and wrong. -/
theorem completesAt_tailPkt :
    CompletesAt (Dev.init .high fun _ => 0) [.out headPkt] tailPkt 0x50000000 11
      [0, 0, 0, 0x50, 11, 0, 0, 0, 5, 1, 0] := by
  refine ⟨⟨_, rfl⟩, ⟨headPkt.data, ?_, rfl⟩, ?_⟩
  · decide +kernel
  · unfold FrameDone
    decide

/-- The byte 5 with the checksum 1 is jumped to. -/
theorem jump_wrong_checksum :
    ¬ ChecksumGuards (Dev.init .high fun _ => 0) [.out headPkt, .out tailPkt] := by
  intro h
  have hdone := completesAt_tailPkt
  have hread : ChecksumReadable 0x50000000 11 := by
    unfold ChecksumReadable
    decide
  obtain ⟨t, ht⟩ := hdone.jumps hread []
  obtain ⟨mid, q, _, _, _, hnil, _⟩ :=
    h.mismatch [.out headPkt] tailPkt [] _ _ _ rfl hdone (by decide) _ t ht
  cases mid <;> cases hnil

end SmartQ.Usb
