import SmartQ.Usb.RoundTrip
import Mathlib.Data.List.Infix

/-!
# Uploads: the bulk IN endpoint

The sending side of `usbd-otg-hs.c` in CPU mode. The host announces a region with
a packet of ten bytes; every bulk IN interrupt after that sends the next packet of
it. Both bulk endpoints have the maximum packet size of the bus speed.

* `Uploading.step`: one interrupt sends the next bytes of the region, or nothing.
* `upload_exact`: what any number of interrupts sends.
-/

namespace SmartQ.Usb

open SmartQ.Lib

/-! ## The interrupt -/

/-- The bytes `s3c_usb_write_in_fifo(buf, num)` puts into the FIFO, in whole
    words. -/
def writeInFifo (m : Ram) (buf : ℕ) (num : ℤ) : List Byte := m.bytes buf (4 * fifoWords num)

/-- A transfer: the size programmed for it and what the FIFO gets. -/
structure InTransfer where
  xfersize : ℕ
  fifo : List Byte

/-- The packet the controller makes of it. -/
def InTransfer.packet (t : InTransfer) : List Byte := t.fifo.take t.xfersize

/-- `s3c_usb_int_bulkin`; without a transfer the endpoint answers NAK. -/
def intBulkin (speed : Speed) (s : Dev) : Option InTransfer × Dev :=
  let bulkinBuf := s.otg.upPtr
  let remainCnt := sub32 s.otg.upSize (sub32 s.otg.upPtr s.otg.upAddr)
  if speed.bulkPktSize < remainCnt then
    (some ⟨speed.bulkPktSize, writeInFifo s.ram bulkinBuf speed.bulkPktSize⟩,
      { s with otg := { s.otg with upPtr := add32 s.otg.upPtr speed.bulkPktSize } })
  else if 0 < remainCnt then
    (some ⟨remainCnt, writeInFifo s.ram bulkinBuf remainCnt⟩,
      { s with otg := { s.otg with upPtr := add32 s.otg.upPtr remainCnt } })
  else (none, s)

/-- The transfers of `n` bulk IN interrupts, and the device after them. -/
def bulkinRun (speed : Speed) (s : Dev) : ℕ → List (Option InTransfer) × Dev
  | 0 => ([], s)
  | n + 1 =>
    let r := bulkinRun speed s n
    let o := intBulkin speed r.2
    (r.1 ++ [o.1], o.2)

/-- The packets of a run. -/
def packets (ts : List (Option InTransfer)) : List (List Byte) :=
  ts.filterMap fun t => t.map InTransfer.packet

@[simp] theorem packets_append_none (ts : List (Option InTransfer)) :
    packets (ts ++ [none]) = packets ts := by simp [packets]

@[simp] theorem packets_append_some (ts : List (Option InTransfer)) (t : InTransfer) :
    packets (ts ++ [some t]) = packets ts ++ [t.packet] := by simp [packets]

/-! ## An upload under way -/

/-- `k` bytes of the region of `size` bytes at `addr` are sent. -/
structure Uploading (s : Dev) (m : Ram) (addr size k : ℕ) : Prop where
  addr_eq : s.otg.upAddr = addr
  size_eq : s.otg.upSize = size
  ptr_eq : s.otg.upPtr = (addr + k) % 2 ^ 32
  ram_eq : s.ram = m
  le : k ≤ size
  size_lt : size < 2 ^ 32

/-- The ten bytes of an upload request. -/
def uploadRequest (addr size : ℕ) : List Byte := le32 addr ++ (le32 size ++ [1, 0])

@[simp] theorem length_uploadRequest (addr size : ℕ) : (uploadRequest addr size).length = 10 := rfl

/-- The words of a request, whatever the FIFO returned behind it. -/
theorem uploadRequest_words (addr size : ℕ) (stray : List Byte) :
    u32At (uploadRequest addr size ++ stray) 0 = addr % 2 ^ 32 ∧
      u32At (uploadRequest addr size ++ stray) 4 = size % 2 ^ 32 ∧
      u16At (uploadRequest addr size ++ stray) 8 = 1 := by
  refine ⟨?_, ?_, ?_⟩
  · rw [u32At_append_left _ (by rw [length_uploadRequest]; omega)]
    exact u32At_le32 [] (le32 size ++ [1, 0]) addr
  · rw [u32At_append_left _ (by rw [length_uploadRequest]; omega)]
    exact u32At_le32 (le32 addr) [1, 0] size
  · have h8 : byteAt (uploadRequest addr size ++ stray) 8 = 1 := by
      rw [byteAt_append_left _ (by rw [length_uploadRequest]; omega)]
      rfl
    have h9 : byteAt (uploadRequest addr size ++ stray) (8 + 1) = 0 := by
      rw [byteAt_append_left _ (by rw [length_uploadRequest]; omega)]
      rfl
    rw [u16At, h8, h9]
    rfl

section Upload

variable {s t : Dev} {p : OutPkt} {m : Ram} {speed : Speed} {addr size k n : ℕ}

/-- The FIFO holds the packet and stray bytes behind it. -/
theorem packet_writeInFifo (m : Ram) (a c : ℕ) :
    InTransfer.packet ⟨c, writeInFifo m a c⟩ = m.bytes a c := by
  obtain ⟨hle, -⟩ := le_fifoWords c
  obtain ⟨d, hd⟩ := Nat.exists_eq_add_of_le hle
  show (m.bytes a (4 * fifoWords c)).take c = _
  rw [hd, Ram.bytes_add]
  exact List.take_left' (Ram.length_bytes m a c)

/-- What is left is the unsigned difference of size and progress. -/
theorem Uploading.remain_eq (h : Uploading s m addr size k) :
    sub32 s.otg.upSize (sub32 s.otg.upPtr s.otg.upAddr) = size - k := by
  have hle := h.le
  have hlt := h.size_lt
  rw [h.size_eq, h.ptr_eq, h.addr_eq, Ram.sub32_add_mod (by omega)]
  exact sub32_of_le hle hlt

/-- The next bytes are sent. -/
theorem Uploading.advance (h : Uploading s m addr size k) {c : ℕ} (hc : k + c ≤ size) :
    Uploading { s with otg := { s.otg with upPtr := add32 s.otg.upPtr c } } m addr size
      (k + c) := by
  refine ⟨h.addr_eq, h.size_eq, ?_, h.ram_eq, hc, h.size_lt⟩
  show add32 s.otg.upPtr c = _
  rw [h.ptr_eq, add32, Nat.mod_add_mod, Nat.add_assoc]

variable (speed) in
/-- An interrupt before the end of the region. -/
theorem Uploading.step (h : Uploading s m addr size k) (hk : k < size) :
    ∃ tr t, intBulkin speed s = (some tr, t) ∧
      tr.packet = m.bytes (addr + k) (min speed.bulkPktSize (size - k)) ∧
      Uploading t m addr size (k + min speed.bulkPktSize (size - k)) := by
  have hbytes : ∀ c, m.bytes s.otg.upPtr c = m.bytes (addr + k) c := by
    intro c
    rw [h.ptr_eq, Ram.bytes_mod]
  unfold intBulkin
  simp only [h.remain_eq]
  by_cases hfull : speed.bulkPktSize < size - k
  · rw [if_pos hfull, Nat.min_eq_left hfull.le]
    refine ⟨_, _, rfl, ?_, h.advance (by omega)⟩
    rw [packet_writeInFifo, h.ram_eq, hbytes]
  · rw [if_neg hfull, if_pos (by omega), Nat.min_eq_right (by omega)]
    refine ⟨_, _, rfl, ?_, h.advance (by omega)⟩
    rw [packet_writeInFifo, h.ram_eq, hbytes]

/-- An interrupt after it. -/
theorem Uploading.finished (h : Uploading s m addr size size) :
    intBulkin speed s = (none, s) := by
  unfold intBulkin
  simp only [h.remain_eq, Nat.sub_self]
  rw [if_neg (Nat.not_lt_zero _), if_neg (Nat.lt_irrefl 0)]

/-- The bytes that `n` interrupts send: full packets up to the end of the region. -/
theorem Uploading.run (h : Uploading s m addr size 0) (speed : Speed) (n : ℕ) :
    Uploading (bulkinRun speed s n).2 m addr size (min (n * speed.bulkPktSize) size) ∧
      (packets (bulkinRun speed s n).1).flatten =
        m.bytes addr (min (n * speed.bulkPktSize) size) ∧
      ∀ pkt ∈ packets (bulkinRun speed s n).1, pkt.length ≤ speed.bulkPktSize := by
  induction n with
  | zero =>
    rw [Nat.zero_mul, Nat.zero_min]
    refine ⟨h, rfl, ?_⟩
    intro pkt hpkt
    cases hpkt
  | succ n ih =>
    obtain ⟨hstate, hsent, hlen⟩ := ih
    have hmul : (n + 1) * speed.bulkPktSize = n * speed.bulkPktSize + speed.bulkPktSize :=
      Nat.succ_mul n _
    by_cases hk : n * speed.bulkPktSize < size
    · rw [Nat.min_eq_left hk.le] at hstate hsent
      obtain ⟨tr, t, hstep, hpkt, hnext⟩ := hstate.step speed hk
      have hsum : min ((n + 1) * speed.bulkPktSize) size =
          n * speed.bulkPktSize + min speed.bulkPktSize (size - n * speed.bulkPktSize) := by
        omega
      rw [bulkinRun, hstep, hsum]
      refine ⟨hnext, ?_, ?_⟩
      · rw [packets_append_some, List.flatten_append, hsent, Ram.bytes_add, hpkt]
        simp only [List.flatten_cons, List.flatten_nil, List.append_nil]
      · intro pkt hmem
        rw [packets_append_some, List.mem_append, List.mem_singleton] at hmem
        rcases hmem with hmem | rfl
        · exact hlen pkt hmem
        · rw [hpkt, Ram.length_bytes]
          exact Nat.min_le_left _ _
    · have hdone : min (n * speed.bulkPktSize) size = size := Nat.min_eq_right (by omega)
      have hdone' : min ((n + 1) * speed.bulkPktSize) size = size := Nat.min_eq_right (by omega)
      rw [hdone] at hstate hsent
      rw [bulkinRun, hstate.finished, hdone', packets_append_none]
      exact ⟨hstate, hsent, hlen⟩

/-- `ceil(size / max)` packets hold the region. -/
theorem le_packets (hn : (size + speed.bulkPktSize - 1) / speed.bulkPktSize ≤ n) :
    size ≤ n * speed.bulkPktSize := by
  have hmps : 0 < speed.bulkPktSize := by
    cases speed <;> decide
  have hlt : size + speed.bulkPktSize - 1 < (n + 1) * speed.bulkPktSize :=
    (Nat.div_lt_iff_lt_mul hmps).mp (Nat.lt_succ_of_le hn)
  rw [Nat.succ_mul] at hlt
  omega

/-- The request for a region starts its upload. -/
theorem Uploading.start (hz : s.otg.dnFilesize = 0) (hp : p.data = uploadRequest addr size)
    (haddr : addr < 2 ^ 32) (hsize : size < 2 ^ 32) (h : intBulkout s p = some t) :
    Uploading t s.ram addr size 0 := by
  have hlen : p.data.length = 10 := by rw [hp, length_uploadRequest]
  have h10 : p.fifoCntByte = 10 := hlen
  rw [intBulkout, if_pos hz, if_pos h10, Option.some.injEq] at h
  -- The first ten of the twelve bytes read are those of the packet.
  obtain ⟨stray, htmp⟩ : ∃ stray, readOutFifo p 0 10 = uploadRequest addr size ++ stray := by
    refine ⟨(readOutFifo p 0 10).drop 10, ?_⟩
    have htake : (readOutFifo p 0 (10 : ℕ)).take 10 = p.data.drop 0 :=
      take_readOutFifo p (by rw [hlen])
    rw [List.drop_zero, hp] at htake
    rw [← htake]
    exact (List.take_append_drop 10 _).symm
  obtain ⟨haddr', hsize', hcheck⟩ := uploadRequest_words addr size stray
  rw [Nat.mod_eq_of_lt haddr] at haddr'
  rw [Nat.mod_eq_of_lt hsize] at hsize'
  unfold uploadStart at h
  simp only [htmp, hcheck, haddr', hsize', if_true] at h
  subst h
  exact ⟨rfl, rfl, (Nat.mod_eq_of_lt haddr).symm, rfl, Nat.zero_le _, hsize⟩

/-- What `n` interrupts make of an upload: the packets are a part of the region from
    its start on, all of it once there are enough; none is longer than the endpoint
    takes, the pointer stays in the region, and after the last one nothing is sent. -/
structure SendsRegion (speed : Speed) (s : Dev) (addr size n : ℕ) : Prop where
  sent_prefix : (packets (bulkinRun speed s n).1).flatten <+: s.ram.bytes addr size
  sent_all : (size + speed.bulkPktSize - 1) / speed.bulkPktSize ≤ n →
    (packets (bulkinRun speed s n).1).flatten = s.ram.bytes addr size
  length_le : ∀ pkt ∈ packets (bulkinRun speed s n).1, pkt.length ≤ speed.bulkPktSize
  ptr_le : (bulkinRun speed s n).2.otg.upPtr ≤ addr + size ∧
    sub32 (bulkinRun speed s n).2.otg.upPtr addr ≤ size
  silent : (size + speed.bulkPktSize - 1) / speed.bulkPktSize ≤ n →
    (intBulkin speed (bulkinRun speed s n).2).1 = none

theorem Uploading.sendsRegion (h : Uploading s s.ram addr size 0) (speed : Speed) (n : ℕ) :
    SendsRegion speed s addr size n := by
  obtain ⟨hstate, hsent, hlen⟩ := h.run speed n
  have hsize := h.size_lt
  refine ⟨?_, ?_, hlen, ?_, ?_⟩
  · obtain ⟨d, hd⟩ := Nat.exists_eq_add_of_le (Nat.min_le_right (n * speed.bulkPktSize) size)
    rw [hsent]
    nth_rewrite 2 [hd]
    rw [Ram.bytes_add]
    exact List.prefix_append _ _
  · intro hn
    rw [hsent, Nat.min_eq_right (le_packets hn)]
  · have hle := Nat.min_le_right (n * speed.bulkPktSize) size
    rw [hstate.ptr_eq]
    constructor
    · exact (Nat.mod_le _ _).trans (Nat.add_le_add_left hle addr)
    · rw [Ram.sub32_add_mod (by omega)]
      exact hle
  · intro hn
    rw [Nat.min_eq_right (le_packets hn)] at hstate
    rw [hstate.finished]

/-- An upload request has the region it announces sent, by any number of interrupts
    that suffices. -/
theorem upload_exact (s t : Dev) (p : OutPkt) (addr size : ℕ) (hz : s.otg.dnFilesize = 0)
    (hp : p.data = uploadRequest addr size) (haddr : addr < 2 ^ 32) (hsize : size < 2 ^ 32)
    (ht : intBulkout s p = some t) (speed : Speed) (n : ℕ) :
    SendsRegion speed t addr size n ∧ t.ram = s.ram := by
  have hstart := Uploading.start hz hp haddr hsize ht
  have hram : t.ram = s.ram := hstart.ram_eq
  rw [← hram] at hstart
  exact ⟨hstart.sendsRegion speed n, hram⟩

end Upload

/-- The request for a packet and one byte more. -/
def requestPkt : OutPkt :=
  .ofBytes (uploadRequest 0x50000000 65) (by decide) (by decide)

/-- At full speed two interrupts send them. -/
theorem upload_exact_two :
    ∃ t, intBulkout (Dev.init .full fun _ => 0) requestPkt = some t ∧
      SendsRegion .full t 0x50000000 65 2 ∧ (65 + Speed.full.bulkPktSize - 1) /
        Speed.full.bulkPktSize ≤ 2 := by
  have hz : (Dev.init .full fun _ => 0).otg.dnFilesize = 0 := rfl
  have h10 : requestPkt.fifoCntByte = 10 := by decide
  have ht : intBulkout (Dev.init .full fun _ => 0) requestPkt =
      some (uploadStart (Dev.init .full fun _ => 0) requestPkt) := by
    rw [intBulkout, if_pos hz, if_pos h10]
  refine ⟨_, ht, ?_, by decide⟩
  exact (upload_exact _ _ requestPkt 0x50000000 65 hz rfl (by decide) (by decide) ht
    .full 2).1

end SmartQ.Usb
