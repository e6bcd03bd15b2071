import SmartQ.Lib.Ram

/-!
# USB downloads: the bulk OUT endpoint and `usb_read`

The receiving side of `usbd-otg-hs.c` in CPU mode (`op_mode` is `USB_CPU` and
nothing changes it) and the polling loop `usb_read` of `smartq.c`. The state is
what a download reads and writes: the `otg` fields of the two bulk endpoints, the
three `s3c_` variables the loop looks at, the memory and the LEDs. The writes to
the endpoint registers only arm the next transfer and are left out.

* `udcIntHndlr_done`: the only step that ends the polling.
* `pollLoop_jumped`, `pollLoop_complete`: the runs that end with a jump.
-/

namespace SmartQ.Usb

open SmartQ.Lib

/-! ## State -/

/-- `USB_SPEED`: the speed the host and the device have agreed on. -/
inductive Speed
  | high | full
  deriving DecidableEq, Repr

/-- `HS_BULK_PKT_SIZE` and `FS_BULK_PKT_SIZE`: the largest packet of a bulk endpoint. -/
def Speed.bulkPktSize : Speed → ℕ
  | .high => 512
  | .full => 64

/-- The fields of `otg_dev_t` the bulk endpoints use. -/
structure Otg where
  bulkoutMaxPktsize : ℕ
  upAddr : ℕ
  upSize : ℕ
  upPtr : ℕ
  dnAddr : ℕ
  dnFilesize : ℕ
  dnPtr : ℕ

/-- The device, as the interrupt handlers leave it from one packet to the next. -/
structure Dev where
  otg : Otg
  /-- `s3c_receive_done`. -/
  receiveDone : Bool
  /-- `s3c_usbd_dn_addr`. -/
  usbdDnAddr : ℕ
  /-- `s3c_usbd_dn_cnt`. -/
  usbdDnCnt : ℕ
  /-- The last argument of `led_set`. -/
  led : ℕ
  ram : Ram

/-- A received bulk OUT packet. The FIFO is read a word at a time; `stray` is
    what it returns past the packet. The count has 11 bits in `GRXSTSP`, and
    `s3c_usb_pkt_receive` ignores a packet without data. -/
structure OutPkt where
  data : List Byte
  stray : ℕ → Byte
  pos : 0 < data.length
  lt : data.length < 2 ^ 11

/-- The byte count the controller reports. -/
def OutPkt.fifoCntByte (p : OutPkt) : ℕ := p.data.length

/-- Byte `i` read from `S3C_OTG_OUT_FIFO`: of the packet, or behind it whatever the FIFO gives.
    -/
def OutPkt.fifo (p : OutPkt) (i : ℕ) : Byte :=
  if i < p.data.length then byteAt p.data i else p.stray i

/-- A packet with zeros behind it. -/
def OutPkt.ofBytes (data : List Byte) (pos : 0 < data.length) (lt : data.length < 2 ^ 11) :
    OutPkt := ⟨data, fun _ => 0, pos, lt⟩

/-! ## Receiving -/

/-- How often the loop of `s3c_usb_read_out_fifo` runs. -/
def fifoWords (num : ℤ) : ℕ := ((num + 3) / 4).toNat

/-- The bytes `s3c_usb_read_out_fifo(buf, num)` stores at `buf` when `pos` bytes
    were read before. -/
def readOutFifo (p : OutPkt) (pos : ℕ) (num : ℤ) : List Byte :=
  (List.range (4 * fifoWords num)).map fun i => p.fifo (pos + i)

/-- `s3c_usb_upload_start`: a header of ten bytes asks for memory to be sent back. -/
def uploadStart (s : Dev) (p : OutPkt) : Dev :=
  let tmpBuf := readOutFifo p 0 10
  let check := u16At tmpBuf 8
  let otg :=
    if check = 1 then
      { s.otg with upAddr := u32At tmpBuf 0, upSize := u32At tmpBuf 4, upPtr := u32At tmpBuf 0 }
    else s.otg
  { s with otg := { otg with dnFilesize := 0 } }

/-- The download address for the one in the header: it is made even. -/
def evenAddr (addr : ℕ) : ℕ := if addr % 2 = 1 then add32 addr 1 else addr

/-- `s3c_usb_download_start`: the header of a download, and what of the file comes with it. -/
def downloadStart (s : Dev) (p : OutPkt) : Dev :=
  let tmpBuf := readOutFifo p 0 8
  let addr := evenAddr (u32At tmpBuf 0)
  let cnt := u32At tmpBuf 4
  let rest := sub32 p.fifoCntByte 8
  { s with
    usbdDnAddr := addr
    usbdDnCnt := cnt
    otg := { s.otg with dnAddr := addr, dnFilesize := cnt, dnPtr := add32 addr rest }
    ram := s.ram.set addr (readOutFifo p 8 (int32 rest)) }

/-- The loop of `s3c_usb_verify_checksum` from `csStart` on; `checkSum` is a
    `u16`. -/
def sumLoop (m : Ram) (csStart csEnd checkSum : ℕ) : ℕ :=
  if csStart < csEnd then
    sumLoop m (csStart + 1) csEnd ((checkSum + (m.get csStart).toNat) % 2 ^ 16)
  else checkSum
termination_by csEnd - csStart

theorem sumLoop_eq (m : Ram) {a e : ℕ} (h : a ≤ e) (c : ℕ) (hc : c < 2 ^ 16) :
    sumLoop m a e c = (c + byteSum (m.bytes a (e - a))) % 2 ^ 16 := by
  induction hn : e - a generalizing a c with
  | zero =>
    have hae : ¬ a < e := by omega
    rw [sumLoop, if_neg hae]
    show c = (c + byteSum []) % 2 ^ 16
    rw [byteSum_nil, Nat.add_zero, Nat.mod_eq_of_lt hc]
  | succ n ih =>
    have hae : a < e := by omega
    have hfirst : m.bytes a 1 = [m.get a] := rfl
    rw [sumLoop, if_pos hae, ih (by omega) _ (Nat.mod_lt _ (by norm_num)) (by omega),
      Nat.mod_add_mod, show n + 1 = 1 + n from Nat.add_comm n 1, Ram.bytes_add, hfirst,
      byteSum_append, byteSum_cons, byteSum_nil, Nat.add_zero (m.get a).toNat, Nat.add_assoc]

/-- A halfword load; `none` is the data abort of an odd address, `start.S` sets
    the alignment bit of the system control register. -/
def ldrh (m : Ram) (a : ℕ) : Option ℕ :=
  if a % 2 = 0 then some (u16At (m.bytes a 2) 0) else none

/-- A word load; `none` is the data abort of an address off a word boundary. -/
def ldr (m : Ram) (a : ℕ) : Option ℕ :=
  if a % 4 = 0 then some (u32At (m.bytes a 4) 0) else none

/-- `cs_end`: where the checksum of a download stands. -/
def csEnd (dnAddr dnFilesize : ℕ) : ℕ := sub32 (add32 dnAddr dnFilesize) 10

/-- `checkSum`, computed over the payload where it is stored. -/
def checkSum (m : Ram) (dnAddr dnFilesize : ℕ) : ℕ :=
  sumLoop m dnAddr (csEnd dnAddr dnFilesize) 0

/-- `dnCS`, as received: the two bytes behind the file, which may lie at an odd address. -/
def dnCS (m : Ram) (dnAddr dnFilesize : ℕ) : Option ℕ :=
  let e := csEnd dnAddr dnFilesize
  if e % 2 = 1 then (ldr m (e - 1)).map fun w => w % 2 ^ 24 / 2 ^ 8 else ldrh m e

/-- `s3c_usb_verify_checksum`: the LEDs are all it tells. -/
def verifyChecksum (s : Dev) : Option Dev :=
  (dnCS s.ram s.otg.dnAddr s.otg.dnFilesize).map fun cs =>
    { s with led := if checkSum s.ram s.otg.dnAddr s.otg.dnFilesize = cs then 1 else 2 }

/-- The device once the data of a further packet is stored. -/
def stored (s : Dev) (p : OutPkt) : Dev :=
  { s with
    ram := s.ram.set s.otg.dnPtr (readOutFifo p 0 p.fifoCntByte)
    otg := { s.otg with dnPtr := add32 s.otg.dnPtr p.fifoCntByte } }

@[simp] theorem stored_dnAddr (s : Dev) (p : OutPkt) :
    (stored s p).otg.dnAddr = s.otg.dnAddr := by unfold stored; rfl

@[simp] theorem stored_dnFilesize (s : Dev) (p : OutPkt) :
    (stored s p).otg.dnFilesize = s.otg.dnFilesize := by unfold stored; rfl

@[simp] theorem stored_receiveDone (s : Dev) (p : OutPkt) :
    (stored s p).receiveDone = s.receiveDone := by unfold stored; rfl

/-- The completion test of `s3c_usb_download_continue`: the bytes of the file and its checksum
    have come. -/
def Complete (s : Dev) : Prop :=
  sub32 s.otg.dnFilesize 8 ≤ sub32 s.otg.dnPtr s.otg.dnAddr

instance (s : Dev) : Decidable (Complete s) := by unfold Complete; infer_instance

/-- `s3c_usb_download_continue`: a packet is stored, and the last one is followed by the check.
    -/
def downloadContinue (s : Dev) (p : OutPkt) : Option Dev :=
  let s := stored s p
  if Complete s then (verifyChecksum s).map fun s => { s with receiveDone := true } else some s

/-- `s3c_usb_int_bulkout`: a packet begins an upload or a download, or goes on with one. -/
def intBulkout (s : Dev) (p : OutPkt) : Option Dev :=
  if s.otg.dnFilesize = 0 then
    if p.fifoCntByte = 10 then some (uploadStart s p) else some (downloadStart s p)
  else downloadContinue s p

/-- `s3c_usb_set_init`, on the fields of `Otg`. -/
def setInit (s : Dev) (speed : Speed) : Dev :=
  { s with
    otg := { s.otg with
      bulkoutMaxPktsize := speed.bulkPktSize, dnAddr := 0, dnFilesize := 0, dnPtr := 0 } }

/-- The device after enumeration at `speed`. -/
def Dev.init (speed : Speed) (ram : Ram) : Dev where
  otg :=
    { bulkoutMaxPktsize := speed.bulkPktSize, upAddr := 0, upSize := 0, upPtr := 0,
      dnAddr := 0, dnFilesize := 0, dnPtr := 0 }
  receiveDone := false
  usbdDnAddr := 0
  usbdDnCnt := 0
  led := 0
  ram := ram

/-! ## The polling loop -/

/-- What `s3c_udc_int_hndlr` finds: a packet, a reset of the bus, or the end of the enumeration.
    -/
inductive Event
  | out (p : OutPkt)
  | reset
  | enumDone (speed : Speed)

/-- `s3c_udc_int_hndlr`; `none` is a data abort. A bus reset concerns the control
    endpoint. -/
def udcIntHndlr (s : Dev) : Event → Option Dev
  | .out p => intBulkout s p
  | .reset => some s
  | .enumDone speed => some (setInit s speed)

/-- How `usb_read` stands once the events are handled. -/
inductive Outcome
  | waiting (s : Dev)
  | aborted (s : Dev)
  | returned (s : Dev)
  | jumped (addr : ℕ) (s : Dev)

/-- The loop of `usb_read` and what follows it. -/
def pollLoop (s : Dev) : List Event → Outcome
  | [] => .waiting s
  | e :: es =>
    match udcIntHndlr s e with
    | none => .aborted s
    | some s' =>
      if s'.receiveDone then
        if s'.usbdDnCnt ≠ 0 then .jumped s'.usbdDnAddr s' else .returned s'
      else pollLoop s' es

/-- `usb_read` entered in state `s`, with the device initialised. -/
def usbRead (s : Dev) (es : List Event) : Outcome :=
  pollLoop { s with receiveDone := false, usbdDnCnt := 0 } es

/-! ## One event -/

section Step

variable {s s' : Dev} {p : OutPkt} {e : Event}

theorem receiveDone_intBulkout_start (hz : s.otg.dnFilesize = 0)
    (h : intBulkout s p = some s') : s'.receiveDone = s.receiveDone := by
  rw [intBulkout, if_pos hz] at h
  split_ifs at h
  · rw [← Option.some.inj h, uploadStart]
  · rw [← Option.some.inj h, downloadStart]

/-- The device once a further packet has completed a download with the checksum
    `cs`: the LEDs show the result, and the download is done in any case. -/
def doneWith (s : Dev) (p : OutPkt) (cs : ℕ) : Dev :=
  { stored s p with
    led := if checkSum (stored s p).ram s.otg.dnAddr s.otg.dnFilesize = cs then 1 else 2
    receiveDone := true }

theorem downloadContinue_complete {cs : ℕ} (hc : Complete (stored s p))
    (hcs : dnCS (stored s p).ram s.otg.dnAddr s.otg.dnFilesize = some cs) :
    downloadContinue s p = some (doneWith s p cs) := by
  unfold downloadContinue verifyChecksum
  rw [if_pos hc, stored_dnAddr, stored_dnFilesize, hcs]
  rfl

/-- A load off its boundary ends the program. -/
theorem downloadContinue_abort (hc : Complete (stored s p))
    (hcs : dnCS (stored s p).ram s.otg.dnAddr s.otg.dnFilesize = none) :
    downloadContinue s p = none := by
  unfold downloadContinue verifyChecksum
  rw [if_pos hc, stored_dnAddr, stored_dnFilesize, hcs]
  rfl

theorem downloadContinue_incomplete (hc : ¬ Complete (stored s p)) :
    downloadContinue s p = some (stored s p) := by
  unfold downloadContinue
  rw [if_neg hc]

/-- The only step that ends the polling is a packet that completes a download. -/
theorem udcIntHndlr_done (hs : s.receiveDone = false) (h : udcIntHndlr s e = some s')
    (hdone : s'.receiveDone = true) :
    ∃ p cs, e = .out p ∧ s.otg.dnFilesize ≠ 0 ∧ Complete (stored s p) ∧
      dnCS (stored s p).ram s.otg.dnAddr s.otg.dnFilesize = some cs ∧ s' = doneWith s p cs := by
  have hkeep : s'.receiveDone = s.receiveDone → False := by
    intro hk
    rw [hk, hs] at hdone
    cases hdone
  rcases e with p | _ | speed
  · have h : intBulkout s p = some s' := h
    by_cases hz : s.otg.dnFilesize = 0
    · exact (hkeep (receiveDone_intBulkout_start hz h)).elim
    · rw [intBulkout, if_neg hz] at h
      by_cases hc : Complete (stored s p)
      · rcases hcs : dnCS (stored s p).ram s.otg.dnAddr s.otg.dnFilesize with _ | cs
        · rw [downloadContinue_abort hc hcs] at h
          cases h
        · rw [downloadContinue_complete hc hcs, Option.some.injEq] at h
          exact ⟨p, cs, rfl, hz, hc, hcs, h.symm⟩
      · rw [downloadContinue_incomplete hc, Option.some.injEq] at h
        subst h
        exact (hkeep (stored_receiveDone s p)).elim
  · cases h
    exact (hkeep rfl).elim
  · cases h
    exact (hkeep rfl).elim

end Step

/-! ## Runs -/

theorem pollLoop_append {s t : Dev} {pre es : List Event} (h : pollLoop s pre = .waiting t) :
    pollLoop s (pre ++ es) = pollLoop t es := by
  induction pre generalizing s with
  | nil =>
    cases h
    rfl
  | cons e pre ih =>
    unfold pollLoop at h
    rw [List.cons_append, pollLoop]
    rcases hs : udcIntHndlr s e with _ | s'
    · simp only [hs] at h
      cases h
    · simp only [hs] at h ⊢
      split_ifs at h ⊢
      exact ih h

/-- A jump comes from a packet that completes a download. -/
theorem pollLoop_jumped {s t : Dev} {es : List Event} {addr : ℕ} (hs : s.receiveDone = false)
    (h : pollLoop s es = .jumped addr t) :
    ∃ pre p post u cs, es = pre ++ .out p :: post ∧ pollLoop s pre = .waiting u ∧
      u.otg.dnFilesize ≠ 0 ∧ u.usbdDnCnt ≠ 0 ∧ u.usbdDnAddr = addr ∧ Complete (stored u p) ∧
      dnCS (stored u p).ram u.otg.dnAddr u.otg.dnFilesize = some cs ∧ t = doneWith u p cs := by
  induction es generalizing s with
  | nil => cases h
  | cons e es ih =>
    unfold pollLoop at h
    rcases hs' : udcIntHndlr s e with _ | s'
    · simp only [hs'] at h
      cases h
    · simp only [hs'] at h
      by_cases hd : s'.receiveDone = true
      · obtain ⟨p, cs, rfl, hz, hc, hcs, rfl⟩ := udcIntHndlr_done hs hs' hd
        rw [if_pos hd] at h
        split_ifs at h with hn
        cases h
        exact ⟨[], p, es, s, cs, rfl, rfl, hz, hn, rfl, hc, hcs, rfl⟩
      · rw [if_neg hd] at h
        obtain ⟨pre, p, post, u, cs, rfl, hpre, hrest⟩ := ih (by simpa using hd) h
        refine ⟨e :: pre, p, post, u, cs, rfl, ?_, hrest⟩
        rw [pollLoop, hs']
        simpa only [if_neg hd] using hpre

/-- The loop ends with a packet that completes a download. -/
theorem pollLoop_complete {s : Dev} {p : OutPkt} {cs : ℕ} (es : List Event)
    (hz : s.otg.dnFilesize ≠ 0) (hn : s.usbdDnCnt ≠ 0) (hc : Complete (stored s p))
    (hcs : dnCS (stored s p).ram s.otg.dnAddr s.otg.dnFilesize = some cs) :
    pollLoop s (.out p :: es) = .jumped s.usbdDnAddr (doneWith s p cs) := by
  have hstep : udcIntHndlr s (.out p) = some (doneWith s p cs) := by
    show intBulkout s p = _
    rw [intBulkout, if_neg hz, downloadContinue_complete hc hcs]
  rw [pollLoop, hstep]
  exact (if_pos rfl).trans (if_pos hn)

/-- So it does, without a jump, when the checksum of the download cannot be read. -/
theorem pollLoop_abort {s : Dev} {p : OutPkt} (es : List Event) (hz : s.otg.dnFilesize ≠ 0)
    (hc : Complete (stored s p))
    (hcs : dnCS (stored s p).ram s.otg.dnAddr s.otg.dnFilesize = none) :
    pollLoop s (.out p :: es) = .aborted s := by
  have hstep : udcIntHndlr s (.out p) = none := by
    show intBulkout s p = _
    rw [intBulkout, if_neg hz, downloadContinue_abort hc hcs]
  rw [pollLoop, hstep]

end SmartQ.Usb
