import SmartQ.Usb.Dltool

/-!
# When a file arrives

The frame of `dltool`, cut into packets, run through the receiver.

* `Loading`: a download under way; the bytes after the header stand at the target.
* `Loading.run`: the packets that complete it.
* `roundTrip_iff`: the files that arrive with a checksum that is right.
-/

namespace SmartQ.Usb

open SmartQ.Lib Dltool

/-! ## The FIFO -/

section Fifo

variable (p : OutPkt)

@[simp] theorem length_readOutFifo (pos : ℕ) (num : ℤ) :
    (readOutFifo p pos num).length = 4 * fifoWords num := by simp [readOutFifo]

theorem le_fifoWords (k : ℕ) : k ≤ 4 * fifoWords k ∧ 4 * fifoWords k ≤ k + 3 := by
  unfold fifoWords
  omega

/-- The FIFO returns the packet, up to its end. -/
theorem take_readOutFifo {pos k : ℕ} (h : pos + k = p.data.length) :
    (readOutFifo p pos k).take k = p.data.drop pos := by
  have hk := le_fifoWords k
  apply List.ext_getElem
  · rw [List.length_take, length_readOutFifo, List.length_drop]
    omega
  · intro i hi hi'
    rw [List.length_drop] at hi'
    rw [List.getElem_take, List.getElem_drop]
    simp only [readOutFifo, List.getElem_map, List.getElem_range, OutPkt.fifo]
    rw [if_pos (by omega), byteAt_of_lt]

/-- The first eight bytes of a packet that has them. -/
theorem readOutFifo_header (h : 8 ≤ p.data.length) : readOutFifo p 0 8 = p.data.take 8 := by
  apply List.ext_getElem
  · rw [length_readOutFifo, List.length_take]
    show 8 = _
    omega
  · intro i hi hi'
    rw [List.length_take] at hi'
    rw [List.getElem_take]
    simp only [readOutFifo, List.getElem_map, List.getElem_range, OutPkt.fifo]
    rw [if_pos (by omega), byteAt_of_lt (by omega)]
    simp only [Nat.zero_add]

end Fifo

/-! ## A download under way -/

/-- The device has taken the header of a download of `size` bytes for `addr` and
    then the bytes `got`. -/
structure Loading (s : Dev) (addr size : ℕ) (got : List Byte) : Prop where
  addr_eq : s.otg.dnAddr = addr
  size_eq : s.otg.dnFilesize = size
  ptr_eq : s.otg.dnPtr = (addr + got.length) % 2 ^ 32
  bytes_eq : s.ram.bytes addr got.length = got
  waits : s.receiveDone = false

/-- The first packet of a download. -/
theorem Loading.start {s : Dev} {p : OutPkt} {addr size : ℕ} {got : List Byte}
    (hs : s.receiveDone = false) (hp : p.data = le32 addr ++ le32 size ++ got)
    (heven : addr % 2 = 0) (hsize : size < 2 ^ 32) :
    Loading (downloadStart s p) (addr % 2 ^ 32) size got := by
  have hlen : p.data.length = 8 + got.length := by
    rw [hp, List.length_append, List.length_append, length_le32, length_le32]
  have hlt := p.lt
  have htmp : readOutFifo p 0 8 = le32 addr ++ le32 size := by
    rw [readOutFifo_header p (by omega), hp]
    rfl
  have haddr : evenAddr (u32At (readOutFifo p 0 8) 0) = addr % 2 ^ 32 := by
    have hword := u32At_le32 [] (le32 size) addr
    rw [htmp]
    show evenAddr (u32At (le32 addr ++ le32 size) 0) = _
    rw [show u32At (le32 addr ++ le32 size) 0 = addr % 2 ^ 32 from hword]
    exact if_neg (by omega)
  have hcnt : u32At (readOutFifo p 0 8) 4 = size := by
    have hword := u32At_le32 (le32 addr) [] size
    rw [length_le32, List.append_nil, Nat.mod_eq_of_lt hsize] at hword
    rw [htmp, hword]
  have hrest : sub32 p.fifoCntByte 8 = got.length := by
    rw [OutPkt.fifoCntByte, hlen]
    unfold sub32
    omega
  have hint : int32 (got.length : ℕ) = (got.length : ℕ) := int32_of_range (by omega) (by omega)
  have htake : (readOutFifo p 8 got.length).take got.length = got := by
    rw [take_readOutFifo p hlen.symm, hp]
    rfl
  have hwords := le_fifoWords got.length
  refine ⟨?_, ?_, ?_, ?_, ?_⟩
  · rw [downloadStart, haddr]
  · rw [downloadStart, hcnt]
  · rw [downloadStart, haddr, hrest, add32]
  · rw [downloadStart, haddr, hrest, hint]
    show (s.ram.set _ _).bytes _ _ = _
    rw [Ram.bytes_set_self (by simpa using hwords.1) (by rw [length_readOutFifo]; omega), htake]
  · rw [downloadStart, hs]

section Loading

variable {s : Dev} {p : OutPkt} {addr size : ℕ} {got : List Byte}

/-- A further packet. -/
theorem Loading.stored (h : Loading s addr size got)
    (hlen : got.length + p.data.length + 3 ≤ 2 ^ 32) :
    Loading (stored s p) addr size (got ++ p.data) := by
  have hwords := le_fifoWords p.data.length
  have htake : (readOutFifo p 0 p.fifoCntByte).take p.data.length = p.data := by
    have h0 : (readOutFifo p 0 (p.data.length : ℕ)).take p.data.length = p.data.drop 0 :=
      take_readOutFifo p (Nat.zero_add _)
    rwa [List.drop_zero] at h0
  refine ⟨h.addr_eq, h.size_eq, ?_, ?_, h.waits⟩
  · show add32 s.otg.dnPtr p.data.length = _
    rw [h.ptr_eq, add32, Nat.mod_add_mod, List.length_append, Nat.add_assoc]
  · show (s.ram.set s.otg.dnPtr _).bytes addr _ = _
    rw [h.ptr_eq, Ram.set_mod, List.length_append,
      Ram.bytes_set_append (by rw [length_readOutFifo]; exact hwords.1)
        (by rw [length_readOutFifo]; show _ + 4 * fifoWords (p.data.length : ℕ) ≤ _; omega),
      h.bytes_eq, htake]

/-- The completion test counts the bytes after the header. -/
theorem Loading.completes_iff (h : Loading s addr size got) (hsize : 8 ≤ size)
    (hlt : size < 2 ^ 32) (hgot : got.length < 2 ^ 32) :
    Complete s ↔ size ≤ got.length + 8 := by
  unfold Complete
  rw [h.addr_eq, h.size_eq, h.ptr_eq, Ram.sub32_add_mod hgot, sub32_of_le hsize hlt]
  omega

theorem Dltool.Split.pos {mps : ℕ} {bs : List Byte} {ps : List (List Byte)} (h : Split mps bs ps) :
    0 < bs.length := by
  induction h with
  | last hpos _ => exact hpos
  | more _ _ ih =>
    rw [List.length_append]
    omega

/-- The packets after the first one. The last one, and no other, completes the
    download. -/
theorem Loading.run {mps : ℕ} {rest : List Byte} {pkts : List OutPkt}
    (hsplit : Split mps rest (pkts.map OutPkt.data)) (h : Loading s addr size got)
    (hsize : size = got.length + rest.length + 8) (hlt : size + 3 ≤ 2 ^ 32) :
    ∃ u, Loading u addr size (got ++ rest) ∧
      pkts.foldlM intBulkout s =
        (verifyChecksum u).map fun t => { t with receiveDone := true } := by
  generalize hds : pkts.map OutPkt.data = ds at hsplit
  induction hsplit generalizing s got pkts with
  | @last bs hpos hle =>
    obtain ⟨p, rfl, hp⟩ : ∃ p, pkts = [p] ∧ p.data = bs := by
      simpa [List.map_eq_cons_iff] using hds
    have hz : s.otg.dnFilesize ≠ 0 := by
      rw [h.size_eq]
      omega
    have hnext : Loading (Usb.stored s p) addr size (got ++ bs) := hp ▸ h.stored (by rw [hp]; omega)
    have hc : Complete (Usb.stored s p) :=
      (hnext.completes_iff (by omega) (by omega) (by rw [List.length_append]; omega)).mpr
        (by rw [List.length_append]; omega)
    refine ⟨Usb.stored s p, hnext, ?_⟩
    rw [List.foldlM_cons, intBulkout, if_neg hz, downloadContinue]
    simp only [if_pos hc, List.foldlM_nil]
    exact bind_pure _
  | @more d bs ps hd hbs ih =>
    obtain ⟨p, qs, rfl, hp, hqs⟩ : ∃ p qs, pkts = p :: qs ∧ p.data = d ∧
        qs.map OutPkt.data = ps := by
      simpa [List.map_eq_cons_iff] using hds
    rw [List.length_append] at hsize
    have hpos := hbs.pos
    have hz : s.otg.dnFilesize ≠ 0 := by
      rw [h.size_eq]
      omega
    have hnext : Loading (Usb.stored s p) addr size (got ++ d) := hp ▸ h.stored (by rw [hp]; omega)
    have hc : ¬ Complete (Usb.stored s p) := by
      rw [hnext.completes_iff (by omega) (by omega) (by rw [List.length_append]; omega),
        List.length_append]
      omega
    obtain ⟨u, hu, hrun⟩ := ih hnext (by rw [List.length_append]; omega) hqs
    rw [List.append_assoc] at hu
    refine ⟨u, hu, ?_⟩
    rw [List.foldlM_cons, intBulkout, if_neg hz, downloadContinue_incomplete hc]
    exact hrun

end Loading

/-! ## The checksum -/

section Checksum

variable {m : Ram} {addr n : ℕ}

theorem csEnd_eq (addr n : ℕ) : csEnd addr (n + 10) = (addr + n) % 2 ^ 32 := by
  unfold csEnd sub32 add32
  omega

/-- The checksum is read if no load is off its boundary. -/
theorem dnCS_eq {lo hi : Byte} (h : m.bytes (addr + n) 2 = [lo, hi]) :
    dnCS m addr (n + 10) =
      if (addr + n) % 4 = 3 then none else some (lo.toNat + hi.toNat * 2 ^ 8) := by
  have hmod : (addr + n) % 2 ^ 32 % 4 = (addr + n) % 4 :=
    Nat.mod_mod_of_dvd _ ⟨2 ^ 30, by norm_num⟩
  have hlo := lo.toNat_lt
  have hhi := hi.toNat_lt
  unfold dnCS
  simp only [csEnd_eq]
  by_cases hodd : (addr + n) % 2 ^ 32 % 2 = 1
  · rw [if_pos hodd, ldr]
    by_cases h3 : (addr + n) % 4 = 3
    · rw [if_neg (by omega), if_pos h3]
      rfl
    · -- The word that starts a byte before the checksum.
      obtain ⟨b0, b3, hword⟩ : ∃ b0 b3, m.bytes ((addr + n) % 2 ^ 32 - 1) 4 = [b0, lo, hi, b3] := by
        have hpair : m.bytes ((addr + n) % 2 ^ 32 - 1 + 1) 2 = [lo, hi] := by
          rw [Nat.sub_add_cancel (by omega), Ram.bytes_mod, h]
        refine ⟨m.get ((addr + n) % 2 ^ 32 - 1), m.get ((addr + n) % 2 ^ 32 - 1 + 1 + 2), ?_⟩
        rw [show 4 = 1 + (2 + 1) from rfl, Ram.bytes_add, Ram.bytes_add, hpair]
        rfl
      have hval : u32At [b0, lo, hi, b3] 0 = word32 b0 lo hi b3 := rfl
      have hb0 := b0.toNat_lt
      rw [if_pos (by omega), if_neg h3, hword, hval, Option.map_some, Option.some.injEq, word32]
      omega
  · rw [if_neg hodd, ldrh, if_pos (by omega), if_neg (by omega), Ram.bytes_mod, h]
    rfl

/-- The sum over the payload; it is empty when the payload runs into the end of
    the address space. -/
theorem checkSum_eq (haddr : addr < 2 ^ 32) (hn : n ≤ 2 ^ 32) :
    checkSum m addr (n + 10) =
      if addr + n < 2 ^ 32 then byteSum (m.bytes addr n) % 2 ^ 16 else 0 := by
  unfold checkSum
  rw [csEnd_eq]
  by_cases hwrap : addr + n < 2 ^ 32
  · rw [if_pos hwrap, Nat.mod_eq_of_lt hwrap, sumLoop_eq m (by omega) 0 (by norm_num),
      Nat.zero_add, Nat.add_sub_cancel_left]
  · have hend : ¬ addr < (addr + n) % 2 ^ 32 := by omega
    rw [if_neg hwrap, sumLoop, if_neg hend]

end Checksum

/-! ## The round trip -/

section RoundTrip

variable {heap : Heap} {addr : ℕ} {file : List Byte} {s : Dev} {speed : Speed}
  {pkts : List OutPkt}

/-- The download of `file` for `addr` is done, its bytes are at the target and its
    checksum is right. -/
structure Arrived (t : Dev) (addr : ℕ) (file : List Byte) : Prop where
  done : t.receiveDone = true
  bytes_eq : t.ram.bytes addr file.length = file
  checksum : dnCS t.ram t.otg.dnAddr t.otg.dnFilesize =
    some (checkSum t.ram t.otg.dnAddr t.otg.dnFilesize)

/-- The files that arrive: `dltool` reads them, their frame takes more than one
    packet, the checksum is not read across a word boundary, and what
    `calc_cksum` adds to the sum of the file is zero. -/
structure Arrives (heap : Heap) (addr : ℕ) (file : List Byte) (speed : Speed) : Prop where
  read : file.length ≤ readMax
  packets : speed.bulkPktSize < file.length + 10
  aligned : (addr + file.length) % 4 ≠ 3
  stray : if addr % 2 ^ 32 + file.length < 2 ^ 32 then strayBytes heap file = [0, 0, 0]
    else cksum heap file = 0

/-- The checksum of the frame is that of the file only if the three stray bytes
    are zero. -/
theorem cksum_eq_iff : cksum heap file = byteSum file % 2 ^ 16 ↔ strayBytes heap file = [0, 0, 0] := by
  have hstray : strayBytes heap file =
      [heap (file.length + 8), heap (file.length + 8 + 1), heap (file.length + 8 + 2)] := rfl
  have h0 := (heap (file.length + 8)).toNat_lt
  have h1 := (heap (file.length + 8 + 1)).toNat_lt
  have h2 := (heap (file.length + 8 + 2)).toNat_lt
  have hzero : ∀ b : Byte, b = 0 ↔ b.toNat = 0 := fun b => by
    rw [← UInt8.toNat_inj]
    rfl
  rw [cksum, hstray]
  simp only [byteSum_cons, byteSum_nil, List.cons.injEq, and_true, hzero]
  omega

theorem length_frame (heap : Heap) (addr : ℕ) (file : List Byte) :
    (le32 addr ++ le32 (file.length + 10) ++ file ++ cksumBytes heap file).length =
      file.length + 10 := by
  have hck : (cksumBytes heap file).length = 2 := rfl
  simp only [List.length_append, length_le32, hck]
  omega

/-- The first packet never completes a download. -/
theorem intBulkout_first {p : OutPkt} (hs : s.receiveDone = false) (hz : s.otg.dnFilesize = 0) :
    ∀ t, intBulkout s p = some t → t.receiveDone = false := by
  intro t ht
  rw [receiveDone_intBulkout_start hz ht, hs]

/-- A frame that fits is one packet. -/
theorem single_packet (hfew : file.length + 10 ≤ speed.bulkPktSize)
    (hsplit : Split speed.bulkPktSize
      (le32 addr ++ le32 (file.length + 10) ++ file ++ cksumBytes heap file)
      (pkts.map OutPkt.data)) : ∃ p, pkts = [p] := by
  generalize hbs : le32 addr ++ le32 (file.length + 10) ++ file ++ cksumBytes heap file = bs
    at hsplit
  have hlen : bs.length = file.length + 10 := by
    rw [← hbs]
    exact length_frame heap addr file
  generalize hds : pkts.map OutPkt.data = ds at hsplit
  rcases hsplit with - | @⟨d, rest, ps, hd, hps⟩
  · obtain ⟨p, rfl, -⟩ : ∃ p, pkts = [p] ∧ p.data = bs := by
      simpa [List.map_eq_cons_iff] using hds
    exact ⟨p, rfl⟩
  · have hpos := hps.pos
    rw [List.length_append] at hlen
    omega

/-- A frame of more than one packet. -/
theorem receive_eq (heven : addr % 2 = 0) (hs : s.receiveDone = false)
    (hz : s.otg.dnFilesize = 0) (hread : file.length ≤ readMax)
    (hmany : speed.bulkPktSize < file.length + 10)
    (hsplit : Split speed.bulkPktSize
      (le32 addr ++ le32 (file.length + 10) ++ file ++ cksumBytes heap file)
      (pkts.map OutPkt.data)) :
    ∃ u, Loading u (addr % 2 ^ 32) (file.length + 10) (file ++ cksumBytes heap file) ∧
      pkts.foldlM intBulkout s =
        (verifyChecksum u).map fun t => { t with receiveDone := true } := by
  have hmps : 64 ≤ speed.bulkPktSize := by
    cases speed <;> decide
  have hmax : readMax + 10 + 3 ≤ 2 ^ 32 := by decide
  generalize hbs : le32 addr ++ le32 (file.length + 10) ++ file ++ cksumBytes heap file = bs
    at hsplit
  have hlen : bs.length = file.length + 10 := by
    rw [← hbs]
    exact length_frame heap addr file
  generalize hds : pkts.map OutPkt.data = ds at hsplit
  rcases hsplit with ⟨-, hle⟩ | @⟨d, rest, ps, hd, hps⟩
  · omega
  · obtain ⟨p, qs, rfl, hp, rfl⟩ : ∃ p qs, pkts = p :: qs ∧ p.data = d ∧
        qs.map OutPkt.data = ps := by
      simpa [List.map_eq_cons_iff] using hds
    -- The header lies in the first packet.
    obtain ⟨got, hgot, hrest⟩ : ∃ got, d = le32 addr ++ le32 (file.length + 10) ++ got ∧
        got ++ rest = file ++ cksumBytes heap file := by
      rw [List.append_assoc] at hbs
      rcases List.append_eq_append_iff.mp hbs with ⟨got, h1, h2⟩ | ⟨got, h1, h2⟩
      · exact ⟨got, h1, h2.symm⟩
      · have h8 := congrArg List.length h1
        simp only [List.length_append, length_le32] at h8
        have hgot : got = [] := List.eq_nil_of_length_eq_zero (by omega)
        subst hgot
        refine ⟨[], ?_, ?_⟩
        · simpa using h1.symm
        · simpa using h2
    have hfirst : intBulkout s p = some (downloadStart s p) := by
      have h10 : p.fifoCntByte ≠ 10 := by
        rw [OutPkt.fifoCntByte, hp]
        omega
      rw [intBulkout, if_pos hz, if_neg h10]
    have hload := Loading.start hs (hp.trans hgot) heven (by omega)
    have hgotlen := congrArg List.length hgot
    simp only [List.length_append, length_le32] at hgotlen hlen
    obtain ⟨u, hu, hrun⟩ := hload.run hps (by omega) (by omega)
    rw [hrest] at hu
    refine ⟨u, hu, ?_⟩
    rw [List.foldlM_cons, hfirst]
    exact hrun

/-! The device that has taken a whole frame. -/

section Loaded

variable {u : Dev} (hu : Loading u (addr % 2 ^ 32) (file.length + 10) (file ++ cksumBytes heap file))

include hu

theorem Loading.bytes_file : u.ram.bytes (addr % 2 ^ 32) file.length = file := by
  have hboth := hu.bytes_eq
  rw [List.length_append, Ram.bytes_add] at hboth
  exact (List.append_inj hboth (Ram.length_bytes _ _ _)).1

theorem Loading.dnCS_eq : dnCS u.ram u.otg.dnAddr u.otg.dnFilesize =
    if (addr + file.length) % 4 = 3 then none else some (cksum heap file) := by
  have hck : u.ram.bytes (addr % 2 ^ 32 + file.length) 2 =
      [UInt8.ofNat (cksum heap file), UInt8.ofNat (cksum heap file / 2 ^ 8)] := by
    have hboth := hu.bytes_eq
    rw [List.length_append, Ram.bytes_add] at hboth
    exact (List.append_inj hboth (Ram.length_bytes _ _ _)).2
  have hval : (UInt8.ofNat (cksum heap file)).toNat +
      (UInt8.ofNat (cksum heap file / 2 ^ 8)).toNat * 2 ^ 8 = cksum heap file := by
    have hlt : cksum heap file < 2 ^ 16 := Nat.mod_lt _ (by norm_num)
    simp only [UInt8.toNat_ofNat']
    omega
  have hmod : (addr % 2 ^ 32 + file.length) % 4 = (addr + file.length) % 4 := by omega
  rw [hu.addr_eq, hu.size_eq, Usb.dnCS_eq hck, hval, hmod]

theorem Loading.checkSum_eq (hread : file.length ≤ readMax) :
    checkSum u.ram u.otg.dnAddr u.otg.dnFilesize =
      if addr % 2 ^ 32 + file.length < 2 ^ 32 then byteSum file % 2 ^ 16 else 0 := by
  have hmax : readMax ≤ 2 ^ 32 := by decide
  rw [hu.addr_eq, hu.size_eq, Usb.checkSum_eq (Nat.mod_lt _ (by norm_num)) (by omega),
    hu.bytes_file]

/-- The completing packet leaves the download done if its checksum can be read, and
    the checksum right if the stray bytes do not change the sum. -/
theorem Loading.arrived_iff (hread : file.length ≤ readMax) :
    (∃ t, (verifyChecksum u).map (fun t => { t with receiveDone := true }) = some t ∧
        Arrived t addr file) ↔
      (addr + file.length) % 4 ≠ 3 ∧
      if addr % 2 ^ 32 + file.length < 2 ^ 32 then strayBytes heap file = [0, 0, 0]
      else cksum heap file = 0 := by
  have hdn := hu.dnCS_eq
  have hsum := hu.checkSum_eq hread
  have hsame : cksum heap file = checkSum u.ram u.otg.dnAddr u.otg.dnFilesize ↔
      if addr % 2 ^ 32 + file.length < 2 ^ 32 then strayBytes heap file = [0, 0, 0]
      else cksum heap file = 0 := by
    rw [hsum]
    split_ifs
    · exact cksum_eq_iff
    · rfl
  rw [← hsame]
  by_cases h3 : (addr + file.length) % 4 = 3
  · rw [if_pos h3] at hdn
    have hnone : verifyChecksum u = none := by
      rw [verifyChecksum, hdn]
      rfl
    rw [hnone]
    constructor
    · rintro ⟨t, ht, -⟩
      cases ht
    · rintro ⟨h, -⟩
      exact (h h3).elim
  · rw [if_neg h3] at hdn
    constructor
    · rintro ⟨t, ht, harr⟩
      have hck := harr.checksum
      rw [verifyChecksum, hdn] at ht
      cases ht
      exact ⟨h3, Option.some.inj (hdn.symm.trans hck)⟩
    · rintro ⟨-, hck⟩
      rw [verifyChecksum, hdn]
      refine ⟨_, rfl, ⟨rfl, ?_, ?_⟩⟩
      · exact (Ram.bytes_mod _ _ _).symm.trans hu.bytes_file
      · exact hdn.trans (congrArg some hck)

end Loaded

theorem not_arrived_of_waits {t : Dev} (ht : t.receiveDone = false) : ¬ Arrived t addr file := by
  intro h
  rw [h.done] at ht
  cases ht

/-- A file arrives exactly if it is one of those. -/
theorem roundTrip_iff (heap : Heap) (file : List Byte) (addr : ℕ) (heven : addr % 2 = 0)
    (s : Dev) (hs : s.receiveDone = false) (speed : Speed) (pkts : List OutPkt)
    (hsent : Sent (setInit s speed).otg.bulkoutMaxPktsize (main heap addr file) pkts) :
    (∃ t, pkts.foldlM intBulkout (setInit s speed) = some t ∧ Arrived t addr file) ↔
      Arrives heap addr file speed := by
  have hwait : (setInit s speed).receiveDone = false := hs
  have hzero : (setInit s speed).otg.dnFilesize = 0 := rfl
  have hsent : Sent speed.bulkPktSize (main heap addr file) pkts := hsent
  by_cases hread : file.length ≤ readMax
  · rw [main_eq _ _ _ hread] at hsent
    by_cases hmany : speed.bulkPktSize < file.length + 10
    · obtain ⟨u, hu, hrun⟩ := receive_eq heven hwait hzero hread hmany hsent
      rw [hrun, hu.arrived_iff hread]
      constructor
      · rintro ⟨h3, hstray⟩
        exact ⟨hread, hmany, h3, hstray⟩
      · intro h
        exact ⟨h.aligned, h.stray⟩
    · obtain ⟨p, rfl⟩ := single_packet (by omega) hsent
      constructor
      · rintro ⟨t, ht, harr⟩
        rw [List.foldlM_cons] at ht
        have hfirst : intBulkout (setInit s speed) p = some t := by
          simpa using ht
        exact (not_arrived_of_waits (intBulkout_first hwait hzero t hfirst) harr).elim
      · intro h
        exact (hmany h.packets).elim
  · rw [main_none _ _ _ (by omega)] at hsent
    have hsent : pkts = [] := hsent
    subst hsent
    constructor
    · rintro ⟨t, ht, harr⟩
      cases ht
      exact (not_arrived_of_waits hwait harr).elim
    · intro h
      exact (hread h.read).elim

end RoundTrip

/-- 56 zeros for `0x50000000`, in the two packets they take at full speed. -/
def zerosFile : List Byte := List.replicate 56 0

/-- The frame that `dltool` makes of a file of zeros for the address 0x50000000. -/
def zerosFrame : List Byte := le32 0x50000000 ++ le32 66 ++ zerosFile ++ [0, 0]

/-- The packets of that frame. -/
def zerosPkts : List OutPkt :=
  [.ofBytes (zerosFrame.take 64) (by decide) (by decide),
    .ofBytes (zerosFrame.drop 64) (by decide) (by decide)]

/-- They arrive if memory was clear on the host. -/
theorem zeros_arrive :
    ∃ t, zerosPkts.foldlM intBulkout (setInit (Dev.init .full fun _ => 0) .full) = some t ∧
      Arrived t 0x50000000 zerosFile := by
  have hmain : main (fun _ => 0) 0x50000000 zerosFile = some zerosFrame := by
    rw [main_eq _ _ _ (by decide)]
    decide
  have hsent : Sent 64 (main (fun _ => 0) 0x50000000 zerosFile) zerosPkts := by
    have htwo : Split 64 (zerosFrame.take 64 ++ zerosFrame.drop 64)
        [zerosFrame.take 64, zerosFrame.drop 64] :=
      Split.more (by decide) (Split.last (by decide) (by decide))
    rw [hmain]
    rwa [List.take_append_drop] at htwo
  exact (roundTrip_iff (fun _ => 0) zerosFile 0x50000000 (by decide) (Dev.init .full fun _ => 0)
    rfl .full zerosPkts hsent).mpr
    ⟨by decide, by decide, by decide, by decide⟩

/-- The frame of the empty file, whatever `malloc` left behind it. -/
def emptyPkt (heap : Heap) : OutPkt :=
  .ofBytes (le32 0x50000000 ++ le32 10 ++ [] ++ cksumBytes heap []) (by simp)
    ((length_frame heap 0x50000000 []).trans_lt (by decide))

/-- The empty file never arrives: its ten bytes are taken for an upload request. -/
theorem empty_not_arrived :
    ¬ ∀ (heap : Heap) (file : List Byte) (addr : ℕ), addr % 2 = 0 → ∀ (s : Dev),
      s.receiveDone = false → ∀ (speed : Speed) (pkts : List OutPkt),
      Sent (setInit s speed).otg.bulkoutMaxPktsize (main heap addr file) pkts →
      ∃ t, pkts.foldlM intBulkout (setInit s speed) = some t ∧ Arrived t addr file := by
  intro h
  have hsent : Sent 512 (main (fun _ => 0) 0x50000000 []) [emptyPkt fun _ => 0] := by
    rw [main_eq _ _ _ (by decide)]
    exact Split.last (by decide) (by decide)
  obtain ⟨t, ht, harr⟩ := h (fun _ => 0) [] 0x50000000 (by decide) (Dev.init .high fun _ => 0) rfl
    .high [emptyPkt fun _ => 0] hsent
  rw [List.foldlM_cons] at ht
  have hfirst : intBulkout (setInit (Dev.init .high fun _ => 0) .high) (emptyPkt fun _ => 0) =
      some t := by
    simpa using ht
  exact not_arrived_of_waits (intBulkout_first rfl rfl t hfirst) harr

end SmartQ.Usb
