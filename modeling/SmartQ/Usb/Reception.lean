import SmartQ.Lib.Runs
import SmartQ.Usb.RoundTrip
import Mathlib.Data.Set.Basic

/-!
# The receive cursor

Where the packets of a bulk OUT stream are stored, next to what the frame they
belong to announces. The device is carried along with the bytes of the frame it
has received and the addresses it has written.

* `Reception.ram_eq`: memory changes at these addresses only.
* `reception_iff`: the streams in which the cursor counts the frame and stays in
  its region, with every store.
-/

namespace SmartQ.Usb

open SmartQ.Lib

/-! ## One packet -/

section Packet

variable {s t : Dev} {p : OutPkt}

/-- The device once the data of a packet is taken, before the completion test. -/
def taken (s : Dev) (p : OutPkt) : Dev :=
  if s.otg.dnFilesize = 0 then
    if p.fifoCntByte = 10 then uploadStart s p else downloadStart s p
  else stored s p

theorem taken_upload (hz : s.otg.dnFilesize = 0) (h10 : p.fifoCntByte = 10) :
    taken s p = uploadStart s p := by
  rw [taken, if_pos hz, if_pos h10]

theorem taken_first (hz : s.otg.dnFilesize = 0) (h10 : p.fifoCntByte ≠ 10) :
    taken s p = downloadStart s p := by
  rw [taken, if_pos hz, if_neg h10]

theorem taken_further (hz : s.otg.dnFilesize ≠ 0) : taken s p = stored s p := by
  rw [taken, if_neg hz]

/-- What a completed download does after that concerns the LEDs and the polling
    loop. -/
theorem intBulkout_taken (h : intBulkout s p = some t) :
    t.otg = (taken s p).otg ∧ t.ram = (taken s p).ram := by
  unfold intBulkout at h
  unfold taken
  by_cases hz : s.otg.dnFilesize = 0
  · rw [if_pos hz] at h ⊢
    split_ifs at h ⊢
    · cases h
      exact ⟨rfl, rfl⟩
    · cases h
      exact ⟨rfl, rfl⟩
  · rw [if_neg hz] at h ⊢
    by_cases hc : Complete (stored s p)
    · rcases hcs : dnCS (stored s p).ram s.otg.dnAddr s.otg.dnFilesize with _ | cs
      · rw [downloadContinue_abort hc hcs] at h
        cases h
      · rw [downloadContinue_complete hc hcs, Option.some.injEq] at h
        subst h
        exact ⟨rfl, rfl⟩
    · rw [downloadContinue_incomplete hc, Option.some.injEq] at h
      subst h
      exact ⟨rfl, rfl⟩

@[simp] theorem uploadStart_dnAddr (s : Dev) (p : OutPkt) :
    (uploadStart s p).otg.dnAddr = s.otg.dnAddr := by
  unfold uploadStart
  dsimp only
  split_ifs <;> rfl

@[simp] theorem uploadStart_dnFilesize (s : Dev) (p : OutPkt) :
    (uploadStart s p).otg.dnFilesize = 0 := by rw [uploadStart]

@[simp] theorem uploadStart_dnPtr (s : Dev) (p : OutPkt) :
    (uploadStart s p).otg.dnPtr = s.otg.dnPtr := by
  unfold uploadStart
  dsimp only
  split_ifs <;> rfl

/-- The one store of a packet: where it starts and what it stores. -/
def storeOf (s : Dev) (p : OutPkt) : ℕ × List Byte :=
  if s.otg.dnFilesize = 0 then
    if p.fifoCntByte = 10 then (0, [])
    else (evenAddr (u32At (readOutFifo p 0 8) 0), readOutFifo p 8 (int32 (sub32 p.fifoCntByte 8)))
  else (s.otg.dnPtr, readOutFifo p 0 p.fifoCntByte)

theorem storeOf_upload (hz : s.otg.dnFilesize = 0) (h10 : p.fifoCntByte = 10) :
    storeOf s p = (0, []) := by
  rw [storeOf, if_pos hz, if_pos h10]

theorem storeOf_first (hz : s.otg.dnFilesize = 0) (h10 : p.fifoCntByte ≠ 10) :
    storeOf s p = (evenAddr (u32At (readOutFifo p 0 8) 0),
      readOutFifo p 8 (int32 (sub32 p.fifoCntByte 8))) := by
  rw [storeOf, if_pos hz, if_neg h10]

theorem storeOf_further (hz : s.otg.dnFilesize ≠ 0) :
    storeOf s p = (s.otg.dnPtr, readOutFifo p 0 p.fifoCntByte) := by
  rw [storeOf, if_neg hz]

theorem ram_taken (s : Dev) (p : OutPkt) :
    (taken s p).ram = s.ram.set (storeOf s p).1 (storeOf s p).2 := by
  by_cases hz : s.otg.dnFilesize = 0
  · by_cases h10 : p.fifoCntByte = 10
    · rw [taken_upload hz h10, storeOf_upload hz h10, Ram.set_nil, uploadStart]
    · rw [taken_first hz h10, storeOf_first hz h10, downloadStart]
  · rw [taken_further hz, storeOf_further hz]
    rfl

/-- The addresses of the `r` bytes from `start` on. -/
def bytesAt (start r : ℕ) : Set ℕ := {a | a < 2 ^ 32 ∧ sub32 a start < r}

theorem bytesAt_mod (start r : ℕ) : bytesAt (start % 2 ^ 32) r = bytesAt start r := by
  unfold bytesAt sub32
  rw [Nat.mod_mod]

/-- The addresses a packet is stored at. -/
def writtenBy (s : Dev) (p : OutPkt) : Set ℕ := bytesAt (storeOf s p).1 (storeOf s p).2.length

end Packet

/-! ## A stream of packets -/

/-- The device, the bytes it has received of a frame, and the addresses it has
    written. -/
structure Reception where
  dev : Dev
  received : ℕ
  written : Set ℕ

namespace Reception

/-- No frame has begun. -/
def start (s : Dev) : Reception := ⟨s, 0, ∅⟩

/-- The bytes received of the frame, with those of the packet. A packet of ten
    bytes in front of a frame is an upload request, one shorter than the header
    no frame. -/
def receivedWith (x : Reception) (p : OutPkt) : ℕ :=
  if x.dev.otg.dnFilesize = 0 then
    if p.fifoCntByte < 8 ∨ p.fifoCntByte = 10 then 0 else p.fifoCntByte
  else x.received + p.fifoCntByte

/-- A packet is taken: the device goes on, and the bytes received and written so far are kept.
    -/
def take (x : Reception) (p : OutPkt) : Reception where
  dev := taken x.dev p
  received := x.receivedWith p
  written := x.written ∪ writtenBy x.dev p

/-- `s3c_usb_int_bulkout`; `none` is a data abort. -/
def next (x : Reception) (p : OutPkt) : Option Reception :=
  (intBulkout x.dev p).map fun t => { x.take p with dev := t }

/-- The cursor counts the bytes after the header, stays in the announced region,
    and so does every store. -/
structure InRegion (x : Reception) : Prop where
  cursor : 0 < x.received →
    (sub32 x.dev.otg.dnPtr x.dev.otg.dnAddr : ℤ) = (x.received : ℤ) - 8
  bound : 0 < x.received →
    (sub32 x.dev.otg.dnPtr x.dev.otg.dnAddr : ℤ) ≤ (x.dev.otg.dnFilesize : ℤ) - 8
  written_mem : ∀ a ∈ x.written, x.dev.otg.dnAddr ≤ a ∧
    (a : ℤ) < (x.dev.otg.dnAddr : ℤ) + ((x.dev.otg.dnFilesize : ℤ) - 8)

/-- What is asked of a packet: taken, it leaves the cursor and the stores in the
    region, and a first packet shorter than the header leaves the endpoint as it
    was. -/
structure Meets (x : Reception) (p : OutPkt) : Prop where
  short : x.dev.otg.dnFilesize = 0 → p.fifoCntByte < 8 → (x.take p).dev.otg = x.dev.otg
  inRegion : (x.take p).InRegion

/-- The `len` bytes at `off` in a region, and the stray bytes behind them up to a
    whole word, lie in the region and below the end of memory. -/
def WordsFit (addr size off len : ℕ) : Prop :=
  off + 4 * fifoWords len + 8 ≤ size ∧ addr + off + 4 * fifoWords len ≤ 2 ^ 32

/-- The packets that are stored where they belong: a first one that is an upload
    request, or has the header and announces room for its words, and a further one
    whose words fit into what is left. -/
def Fits (s : Dev) (p : OutPkt) : Prop :=
  if s.otg.dnFilesize = 0 then
    p.fifoCntByte = 10 ∨
      8 ≤ p.fifoCntByte ∧
        WordsFit (evenAddr (u32At p.data 0)) (u32At p.data 4) 0 (p.fifoCntByte - 8)
  else WordsFit s.otg.dnAddr s.otg.dnFilesize (sub32 s.otg.dnPtr s.otg.dnAddr) p.fifoCntByte

/-- Memory is as it was where nothing is written. -/
theorem ram_eq {s : Dev} {pkts : List OutPkt} {x : Reception}
    (h : pkts.foldlM next (start s) = some x) {a : ℕ} (ha : a < 2 ^ 32) (hoff : a ∉ x.written) :
    x.dev.ram.get a = s.ram.get a := by
  have hall : ∀ b < 2 ^ 32, b ∉ x.written → x.dev.ram.get b = s.ram.get b := by
    apply foldlM_invariant (I := fun x =>
      ∀ b < 2 ^ 32, b ∉ x.written → x.dev.ram.get b = s.ram.get b) ?_ ?_ h
    · intro y p z hy hstep b hb hoff
      obtain ⟨t, ht, rfl⟩ := Option.map_eq_some_iff.mp hstep
      have hoff : b ∉ y.written ∪ writtenBy y.dev p := hoff
      rw [Set.mem_union, not_or] at hoff
      rw [← hy b hb hoff.1]
      show t.ram.get b = _
      rw [(intBulkout_taken ht).2, ram_taken]
      apply Ram.get_set_off
      rw [Nat.mod_eq_of_lt hb]
      by_contra hlt
      exact hoff.2 ⟨hb, by omega⟩
    · intro b _ _
      rfl
  exact hall a ha hoff

/-! ## The region -/

/-- The state between packets that fit. -/
inductive Receiving (x : Reception) : Prop
  | idle (addr : x.dev.otg.dnAddr = 0) (size : x.dev.otg.dnFilesize = 0)
      (ptr : x.dev.otg.dnPtr = 0) (received : x.received = 0) (written : x.written = ∅)
  | busy (off : ℕ) (addr : x.dev.otg.dnAddr < 2 ^ 32) (size : x.dev.otg.dnFilesize < 2 ^ 32)
      (ptr : x.dev.otg.dnPtr = (x.dev.otg.dnAddr + off) % 2 ^ 32) (received : x.received = off + 8)
      (bound : off + 8 ≤ x.dev.otg.dnFilesize) (nowrap : x.dev.otg.dnAddr + off ≤ 2 ^ 32)
      (written : ∀ a ∈ x.written, x.dev.otg.dnAddr ≤ a ∧
        a + 8 < x.dev.otg.dnAddr + x.dev.otg.dnFilesize)

section Region

variable {addr size off len r : ℕ}

/-- A store of `r` bytes at `off` stays in a region of `size - 8` bytes. -/
theorem store_inside_iff (haddr : addr < 2 ^ 32) (hsize : size < 2 ^ 32)
    (hoff : off + 8 < 2 ^ 32) (hnowrap : addr + off ≤ 2 ^ 32) (hr : r < 2 ^ 32) :
    (∀ a ∈ bytesAt (addr + off) r, addr ≤ a ∧ a + 8 < addr + size) ↔
      r = 0 ∨ off + r + 8 ≤ size ∧ addr + off + r ≤ 2 ^ 32 := by
  unfold bytesAt sub32
  constructor
  · intro h
    by_cases hr0 : r = 0
    · exact Or.inl hr0
    · right
      have hend : addr + off + r ≤ 2 ^ 32 := by
        by_contra hwrap
        -- The store runs over the end of memory: it writes the last byte, or the first.
        rcases Nat.eq_zero_or_pos addr with h0 | hpos
        · have hlast := h (2 ^ 32 - 1) ⟨by omega, by omega⟩
          omega
        · have hfirst := h 0 ⟨by omega, by omega⟩
          omega
      have hlast := h (addr + off + r - 1) ⟨by omega, by omega⟩
      omega
  · rintro (h0 | ⟨hle, hend⟩) a ⟨ha, hlt⟩
    · omega
    · omega

/-- A cursor inside, and its store inside, are the words inside. -/
theorem wordsFit_iff (haddr : addr < 2 ^ 32) (hsize : size < 2 ^ 32)
    (hoff : off + 8 < 2 ^ 32) (hnowrap : addr + off ≤ 2 ^ 32) (hlen : len < 2 ^ 11) :
    (off + len + 8 ≤ size ∧
      ∀ a ∈ bytesAt (addr + off) (4 * fifoWords len), addr ≤ a ∧ a + 8 < addr + size) ↔
      WordsFit addr size off len := by
  obtain ⟨hlo, hhi⟩ := le_fifoWords len
  rw [store_inside_iff haddr hsize hoff hnowrap (by omega), WordsFit]
  omega

end Region

/-! ## One packet -/

section Step

variable {x y : Reception} {p : OutPkt}

/-- The header of a first packet that has one. -/
theorem header_eq (h : 8 ≤ p.data.length) :
    u32At (readOutFifo p 0 8) 0 = u32At p.data 0 ∧
      u32At (readOutFifo p 0 8) 4 = u32At p.data 4 := by
  rw [readOutFifo_header p h]
  unfold u32At byteAt
  simp only [List.getD_eq_getElem?_getD, List.getElem?_take]
  exact ⟨rfl, rfl⟩

theorem evenAddr_lt (addr : ℕ) (h : addr < 2 ^ 32) : evenAddr addr < 2 ^ 32 := by
  unfold evenAddr add32
  split_ifs
  · exact Nat.mod_lt _ (Nat.two_pow_pos 32)
  · exact h

theorem rest_first (h8 : 8 ≤ p.fifoCntByte) : sub32 p.fifoCntByte 8 = p.fifoCntByte - 8 := by
  have hlt : p.fifoCntByte < 2 ^ 11 := p.lt
  unfold sub32
  omega

section First

variable (hz : x.dev.otg.dnFilesize = 0) (h8 : 8 ≤ p.fifoCntByte) (h10 : p.fifoCntByte ≠ 10)

include hz h8 h10

/-- The fields of the endpoint after a first packet with a header. -/
theorem take_first :
    (x.take p).dev.otg.dnAddr = evenAddr (u32At p.data 0) ∧
    (x.take p).dev.otg.dnFilesize = u32At p.data 4 ∧
    (x.take p).dev.otg.dnPtr =
      (evenAddr (u32At p.data 0) + (p.fifoCntByte - 8)) % 2 ^ 32 := by
  refine ⟨?_, ?_, ?_⟩
  · show (taken x.dev p).otg.dnAddr = _
    rw [taken_first hz h10, downloadStart, (header_eq h8).1]
  · show (taken x.dev p).otg.dnFilesize = _
    rw [taken_first hz h10, downloadStart, (header_eq h8).2]
  · show (taken x.dev p).otg.dnPtr = _
    rw [taken_first hz h10, downloadStart, (header_eq h8).1, rest_first h8, add32]

theorem received_first : (x.take p).received = p.fifoCntByte := by
  show x.receivedWith p = _
  rw [receivedWith, if_pos hz, if_neg (by omega)]

theorem writtenBy_first : writtenBy x.dev p =
    bytesAt (evenAddr (u32At p.data 0)) (4 * fifoWords (p.fifoCntByte - 8 : ℕ)) := by
  have hlt : p.fifoCntByte < 2 ^ 11 := p.lt
  have hint : int32 (p.fifoCntByte - 8 : ℕ) = (p.fifoCntByte - 8 : ℕ) :=
    int32_of_range (by omega) (by omega)
  have hstore : storeOf x.dev p =
      (evenAddr (u32At p.data 0), readOutFifo p 8 (p.fifoCntByte - 8 : ℕ)) := by
    rw [storeOf_first hz h10, (header_eq h8).1, rest_first h8, hint]
  rw [writtenBy, hstore, length_readOutFifo]

end First

/-- A first packet with a header. -/
theorem inRegion_first_iff (hx : Receiving x) (hz : x.dev.otg.dnFilesize = 0)
    (h8 : 8 ≤ p.fifoCntByte) (h10 : p.fifoCntByte ≠ 10) :
    (x.take p).InRegion ↔
      WordsFit (evenAddr (u32At p.data 0)) (u32At p.data 4) 0 (p.fifoCntByte - 8) := by
  have hlt : p.fifoCntByte < 2 ^ 11 := p.lt
  have hsmall : evenAddr (u32At p.data 0) < 2 ^ 32 := evenAddr_lt _ (u32At_lt _ _)
  have hnone : x.written = ∅ := by
    rcases hx with ⟨-, -, -, -, hw⟩ | ⟨off, -, -, -, -, hbound⟩
    · exact hw
    · omega
  obtain ⟨haddr, hsize, hptr⟩ := take_first hz h8 h10
  have hreceived := received_first hz h8 h10
  have hwritten := writtenBy_first hz h8 h10
  have hall : (x.take p).written = writtenBy x.dev p := by
    show x.written ∪ _ = _
    rw [hnone, Set.empty_union]
  have hcursor : sub32 (x.take p).dev.otg.dnPtr (x.take p).dev.otg.dnAddr =
      p.fifoCntByte - 8 := by
    rw [hptr, haddr]
    exact Ram.sub32_add_mod (by omega)
  rw [← wordsFit_iff hsmall (u32At_lt _ _) (by omega) (by omega) (by omega),
    Nat.add_zero (evenAddr _)]
  constructor
  · intro h
    have hbound := h.bound (by omega)
    rw [hcursor, hsize] at hbound
    refine ⟨by omega, ?_⟩
    intro a ha
    have hmem := h.written_mem a (by rwa [hall, hwritten])
    rw [haddr, hsize] at hmem
    omega
  · rintro ⟨hbound, hinside⟩
    refine ⟨?_, ?_, ?_⟩
    · intro _
      rw [hcursor, hreceived]
      omega
    · intro _
      rw [hcursor, hsize]
      omega
    · intro a ha
      rw [hall, hwritten] at ha
      have hin := hinside a ha
      rw [haddr, hsize]
      omega

/-- The fields of the endpoint after a further packet. -/
theorem take_further {off : ℕ} (hz : x.dev.otg.dnFilesize ≠ 0)
    (hptr : x.dev.otg.dnPtr = (x.dev.otg.dnAddr + off) % 2 ^ 32) :
    (x.take p).dev.otg.dnAddr = x.dev.otg.dnAddr ∧
    (x.take p).dev.otg.dnFilesize = x.dev.otg.dnFilesize ∧
    (x.take p).dev.otg.dnPtr = (x.dev.otg.dnAddr + (off + p.fifoCntByte)) % 2 ^ 32 := by
  refine ⟨?_, ?_, ?_⟩
  · show (taken x.dev p).otg.dnAddr = _
    rw [taken_further hz, stored_dnAddr]
  · show (taken x.dev p).otg.dnFilesize = _
    rw [taken_further hz, stored_dnFilesize]
  · show (taken x.dev p).otg.dnPtr = _
    rw [taken_further hz, stored, hptr, add32, Nat.mod_add_mod, Nat.add_assoc]

theorem received_further (hz : x.dev.otg.dnFilesize ≠ 0) :
    (x.take p).received = x.received + p.fifoCntByte := by
  show x.receivedWith p = _
  rw [receivedWith, if_neg hz]

/-- A further packet. -/
theorem inRegion_further_iff (hx : Receiving x) (hz : x.dev.otg.dnFilesize ≠ 0) :
    (x.take p).InRegion ↔ WordsFit x.dev.otg.dnAddr x.dev.otg.dnFilesize
      (sub32 x.dev.otg.dnPtr x.dev.otg.dnAddr) p.fifoCntByte := by
  have hlt : p.fifoCntByte < 2 ^ 11 := p.lt
  have hpos : 0 < p.fifoCntByte := p.pos
  rcases hx with ⟨-, hzero, -, -, -⟩ | ⟨off, haddr, hsize, hptr, hreceived, hbound, hnowrap, hw⟩
  · exact (hz hzero).elim
  have hoff : sub32 x.dev.otg.dnPtr x.dev.otg.dnAddr = off := by
    rw [hptr]
    exact Ram.sub32_add_mod (by omega)
  have hnext : (x.take p).received = off + 8 + p.fifoCntByte := by
    rw [received_further hz, hreceived]
  obtain ⟨haddr', hsize', hptr'⟩ := take_further (p := p) hz hptr
  have hstore : writtenBy x.dev p =
      bytesAt (x.dev.otg.dnAddr + off) (4 * fifoWords p.fifoCntByte) := by
    rw [writtenBy, storeOf_further hz, length_readOutFifo, hptr, bytesAt_mod]
  rw [hoff, ← wordsFit_iff haddr hsize (by omega) hnowrap hlt]
  constructor
  · intro h
    have hcursor := h.cursor (by omega)
    have hin := h.bound (by omega)
    rw [hcursor, hnext, hsize'] at hin
    refine ⟨by omega, ?_⟩
    intro a ha
    have hmem := h.written_mem a (Or.inr (by rwa [hstore]))
    rw [haddr', hsize'] at hmem
    omega
  · rintro ⟨hle, hinside⟩
    have hcursor : sub32 (x.take p).dev.otg.dnPtr (x.take p).dev.otg.dnAddr =
        off + p.fifoCntByte := by
      rw [hptr', haddr']
      exact Ram.sub32_add_mod (by omega)
    refine ⟨?_, ?_, ?_⟩
    · intro _
      rw [hcursor, hnext]
      omega
    · intro _
      rw [hcursor, hsize']
      omega
    · intro a ha
      rw [haddr', hsize']
      rcases ha with ha | ha
      · have hold := hw a ha
        omega
      · rw [hstore] at ha
        have hin := hinside a ha
        omega

/-- A first packet shorter than the header moves the cursor all the same. -/
theorem not_short (hx : Receiving x) (hz : x.dev.otg.dnFilesize = 0) (h8 : p.fifoCntByte < 8) :
    (x.take p).dev.otg ≠ x.dev.otg := by
  have hpos : 0 < p.fifoCntByte := p.pos
  intro heq
  rcases hx with ⟨haddr, -, hptr, -, -⟩ | ⟨off, -, -, -, -, hbound⟩
  · have haddr' : evenAddr (u32At (readOutFifo p 0 8) 0) = 0 := by
      have hfield := congrArg Otg.dnAddr heq
      rw [haddr] at hfield
      have hstart : (taken x.dev p).otg.dnAddr = 0 := hfield
      rwa [taken_first hz (by omega), downloadStart] at hstart
    have hptr' : add32 (evenAddr (u32At (readOutFifo p 0 8) 0)) (sub32 p.fifoCntByte 8) = 0 := by
      have hfield := congrArg Otg.dnPtr heq
      rw [hptr] at hfield
      have hstart : (taken x.dev p).otg.dnPtr = 0 := hfield
      rwa [taken_first hz (by omega), downloadStart] at hstart
    rw [haddr'] at hptr'
    unfold add32 sub32 at hptr'
    omega
  · omega

/-- An upload request leaves the region alone. -/
theorem inRegion_upload (hx : Receiving x) (hz : x.dev.otg.dnFilesize = 0)
    (h10 : p.fifoCntByte = 10) : (x.take p).received = 0 ∧ (x.take p).written = ∅ := by
  rcases hx with ⟨-, -, -, -, hw⟩ | ⟨off, -, -, -, -, hbound⟩
  · constructor
    · show x.receivedWith p = 0
      rw [receivedWith, if_pos hz, if_pos (Or.inr h10)]
    · show x.written ∪ writtenBy x.dev p = ∅
      have hnone : writtenBy x.dev p = ∅ := by
        rw [writtenBy, storeOf_upload hz h10]
        exact Set.eq_empty_of_forall_notMem fun a ha => Nat.not_lt_zero _ ha.2
      rw [hw, hnone, Set.empty_union]
  · omega

/-- The packets that keep to the region are those that fit. -/
theorem meets_iff (hx : Receiving x) : x.Meets p ↔ Fits x.dev p := by
  unfold Fits
  by_cases hz : x.dev.otg.dnFilesize = 0
  · rw [if_pos hz]
    by_cases h10 : p.fifoCntByte = 10
    · obtain ⟨hnone, hempty⟩ := inRegion_upload hx hz h10
      apply iff_of_true _ (Or.inl h10)
      refine ⟨?_, ?_, ?_, ?_⟩
      · intro _ h8
        omega
      · intro h
        omega
      · intro h
        omega
      · intro a ha
        rw [hempty] at ha
        exact ha.elim
    · by_cases h8 : 8 ≤ p.fifoCntByte
      · rw [or_iff_right h10, and_iff_right h8, ← inRegion_first_iff hx hz h8 h10]
        constructor
        · intro h
          exact h.inRegion
        · intro h
          refine ⟨?_, h⟩
          intro _ hlt
          omega
      · apply iff_of_false
        · intro h
          exact not_short hx hz (by omega) (h.short hz (by omega))
        · rintro (h | h)
          · exact h10 h
          · exact h8 h.1
  · rw [if_neg hz, ← inRegion_further_iff hx hz]
    constructor
    · intro h
      exact h.inRegion
    · intro h
      refine ⟨?_, h⟩
      intro h0
      exact (hz h0).elim

/-- A packet that fits leaves the cursor where the next one is to be stored. -/
theorem receiving_take (hx : Receiving x) (h : Fits x.dev p) : Receiving (x.take p) := by
  have hin := ((meets_iff hx).mpr h).inRegion
  have hlt : p.fifoCntByte < 2 ^ 11 := p.lt
  have hwritten : ∀ a ∈ (x.take p).written, (x.take p).dev.otg.dnAddr ≤ a ∧
      a + 8 < (x.take p).dev.otg.dnAddr + (x.take p).dev.otg.dnFilesize := by
    intro a ha
    have hmem := hin.written_mem a ha
    omega
  unfold Fits at h
  by_cases hz : x.dev.otg.dnFilesize = 0
  · rw [if_pos hz] at h
    by_cases h10 : p.fifoCntByte = 10
    · obtain ⟨hnone, hempty⟩ := inRegion_upload hx hz h10
      have hkeep : (x.take p).dev = uploadStart x.dev p := taken_upload hz h10
      rcases hx with ⟨haddr, -, hptr, -, -⟩ | ⟨off, -, -, -, -, hbound⟩
      · apply Receiving.idle
        · rw [hkeep, uploadStart_dnAddr, haddr]
        · rw [hkeep, uploadStart_dnFilesize]
        · rw [hkeep, uploadStart_dnPtr, hptr]
        · exact hnone
        · exact hempty
      · omega
    · obtain ⟨h8, hfit, hend⟩ := h.resolve_left h10
      have hsmall : evenAddr (u32At p.data 0) < 2 ^ 32 := evenAddr_lt _ (u32At_lt _ _)
      have hbytes : u32At p.data 4 < 2 ^ 32 := u32At_lt _ _
      have hwords := le_fifoWords (p.fifoCntByte - 8)
      obtain ⟨haddr, hsize, hptr⟩ := take_first hz h8 h10
      apply Receiving.busy (p.fifoCntByte - 8)
      · rw [haddr]
        exact hsmall
      · rw [hsize]
        exact hbytes
      · rw [hptr, haddr]
      · rw [received_first hz h8 h10]
        omega
      · rw [hsize]
        omega
      · rw [haddr]
        omega
      · exact hwritten
  · rw [if_neg hz] at h
    obtain ⟨hfit, hend⟩ := h
    have hwords := le_fifoWords p.fifoCntByte
    rcases hx with ⟨-, hzero, -, -, -⟩ | ⟨off, haddr, hsize, hptr, hreceived, hbound, hnowrap, hw⟩
    · exact (hz hzero).elim
    · have hoff : sub32 x.dev.otg.dnPtr x.dev.otg.dnAddr = off := by
        rw [hptr]
        exact Ram.sub32_add_mod (by omega)
      obtain ⟨haddr', hsize', hptr'⟩ := take_further (p := p) hz hptr
      apply Receiving.busy (off + p.fifoCntByte)
      · rw [haddr']
        exact haddr
      · rw [hsize']
        exact hsize
      · rw [hptr', haddr']
      · rw [received_further hz, hreceived]
        omega
      · rw [hsize']
        omega
      · rw [haddr']
        omega
      · exact hwritten

/-- The completion test leaves the cursor alone. -/
theorem receiving_next (hx : Receiving x) (h : Fits x.dev p) (hy : x.next p = some y) :
    Receiving y := by
  obtain ⟨t, ht, rfl⟩ := Option.map_eq_some_iff.mp hy
  have hotg : t.otg = (x.take p).dev.otg := (intBulkout_taken ht).1
  rcases receiving_take hx h with ⟨haddr, hsize, hptr, hreceived, hw⟩ |
    ⟨off, haddr, hsize, hptr, hreceived, hbound, hnowrap, hw⟩
  · rw [← hotg] at haddr hsize hptr
    exact Receiving.idle haddr hsize hptr hreceived hw
  · rw [← hotg] at haddr hsize hptr hbound hnowrap hw
    exact Receiving.busy off haddr hsize hptr hreceived hbound hnowrap hw

end Step

/-! ## The stream -/

theorem receiving_start (s : Dev) (speed : Speed) : Receiving (start (setInit s speed)) :=
  .idle rfl rfl rfl rfl rfl

/-- From the enumeration on, a stream of packets keeps the cursor and the stores in
    the region exactly if each of its packets fits. -/
theorem reception_iff (s : Dev) (speed : Speed) (pkts : List OutPkt) :
    Throughout next Meets (start (setInit s speed)) pkts ↔
      Throughout next (fun x p => Fits x.dev p) (start (setInit s speed)) pkts :=
  throughout_iff (fun _ _ hx => meets_iff hx) (fun _ _ _ hx h hy => receiving_next hx h hy)
    (receiving_start s speed)

/-- The frame of the one byte 5 for `0x50000000`, with its checksum. -/
def oneBytePkt : OutPkt :=
  .ofBytes (le32 0x50000000 ++ le32 11 ++ [5, 5, 0]) (by decide) (by decide)

/-- Its three bytes are stored as a word. -/
theorem oneByte_not_inRegion :
    ¬ ∀ (s : Dev) (speed : Speed) (pkts : List OutPkt),
      (∀ p ∈ pkts, p.data.length ≤ (setInit s speed).otg.bulkoutMaxPktsize) →
      Throughout next Meets (start (setInit s speed)) pkts := by
  intro h
  have hmps : ∀ p ∈ [oneBytePkt], p.data.length ≤ 512 := by
    simp only [List.forall_mem_singleton]
    decide
  have hmeets := h (Dev.init .high fun _ => 0) .high [oneBytePkt] hmps
  rw [reception_iff, throughout_cons] at hmeets
  have hfits : Fits (setInit (Dev.init .high fun _ => 0) .high) oneBytePkt := hmeets.1
  have hz : (setInit (Dev.init .high fun _ => 0) .high).otg.dnFilesize = 0 := rfl
  rw [Fits, if_pos hz] at hfits
  rcases hfits with h10 | ⟨-, hle, -⟩
  · exact absurd h10 (by decide)
  · exact absurd hle (by decide)

end Reception

end SmartQ.Usb
