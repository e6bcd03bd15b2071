import SmartQ.Lib.Disk
import SmartQ.Lib.CInt

/-!
# Qi: what the SD card drivers report

Models of `mmc_bread` in `qi/src/drivers/glamo-mmc.c` behind `sd_card_block_read_gta02`
and of `s3c24xx_mmc_bread` in `qi/src/cpu/s3c2410/s3c24xx-mci.c` behind
`sd_card_block_read_gta01`. What the registers of the controllers hold at each read of them
is a parameter, and so are the data that come in; a run has a result if its polling loops
end.

* `Glamo.reports_iff`: the driver of the GTA02 is right if the destination is even and a
  command fails or every one brings the sectors asked for.
* `S3c24xx.reports_iff`: the one of the GTA01 only if nothing fails.
* `drivers_report_iff`: both.
-/

namespace SmartQ.Qi.SdReads

open SmartQ.Lib

/-! ## Polling -/

/-- A loop that reads a register until `p` holds of what it reads; the number of the
    reads before. -/
def poll (p : ℕ → Bool) : (fuel i : ℕ) → Option ℕ
  | 0, _ => none
  | fuel + 1, i => if p i then some i else poll p fuel (i + 1)

/-- Read `i` ends the loop. -/
def EndsAt (p : ℕ → Bool) (i : ℕ) : Prop := p i ∧ ∀ j < i, ¬ p j

theorem EndsAt.unique {p : ℕ → Bool} {i j : ℕ} (hi : EndsAt p i) (hj : EndsAt p j) : i = j := by
  rcases Nat.lt_trichotomy i j with hlt | heq | hgt
  · exact absurd hi.1 (hj.2 i hlt)
  · exact heq
  · exact absurd hj.1 (hi.2 j hgt)

theorem poll_some {p : ℕ → Bool} {fuel i n : ℕ} (hn : ∀ j < n, ¬ p j)
    (h : poll p fuel n = some i) : EndsAt p i := by
  induction fuel generalizing n with
  | zero => cases h
  | succ fuel ih =>
    by_cases hp : p n = true
    · rw [poll, if_pos hp] at h
      cases h
      exact ⟨hp, hn⟩
    · rw [poll, if_neg hp] at h
      refine ih (fun j hj => ?_) h
      rcases Nat.lt_succ_iff_lt_or_eq.mp hj with hlt | rfl
      · exact hn j hlt
      · exact hp

/-! ## What a read reports -/

/-- A read: the value returned and the stores to memory. -/
structure Read where
  ret : ℤ
  stores : List Write

/-- A value that is not negative is the number of blocks, and the sectors asked for have been
    stored, whatever the memory held. -/
def Reports (card : Disk) (start n dst : ℕ) (r : Read) : Prop :=
  0 ≤ r.ret → r.ret = n ∧
    ∀ d, load (applyWrites r.stores d) dst (512 * n) = load card (512 * start) (512 * n)

/-! ## The Glamo -/

namespace Glamo

/-- What the registers of the controller hold: `RB_STAT1` before a command and at each read
    after it, the bit `GLAMO_IRQ_MMC` of `IRQ_STATUS`, and the memory of the controller after a
    read command with this argument. Commands are told apart by `ccnt`. -/
structure Controller where
  before : ℕ → BitVec 16
  status : ℕ → ℕ → BitVec 16
  irq : ℕ → ℕ → Bool
  mem : ℕ → ℕ → Disk

/-- `GLAMO_STAT1_MMC_RTOUT | GLAMO_STAT1_MMC_DTOUT`: no response, or no data, within the time.
    -/
def timeouts : BitVec 16 := 0x0030

/-- `GLAMO_STAT1_MMC_BWERR | GLAMO_STAT1_MMC_BRERR`: the checksum of a block is wrong. -/
def crcErrors : BitVec 16 := 0x0006

/-- The status is that of command `ccnt` and says how it went (lines 301–309). -/
def done (ccnt : ℕ) (status : BitVec 16) : Bool :=
  status.getLsbD 15 == decide (ccnt % 2 = 1) && status &&& (0x0200 ||| timeouts ||| crcErrors) != 0

/-- The error behind the response (lines 311–314). -/
def cmdError (status : BitVec 16) : ℤ :=
  if status &&& crcErrors ≠ 0 then -5 else if status &&& timeouts ≠ 0 then -4 else 0

/-- The error behind the data (lines 362–367), from the same status. -/
def dataError (status : BitVec 16) : ℤ :=
  if status &&& 0x0020 ≠ 0 then -5
  else if status &&& crcErrors ≠ 0 then -2
  else if status &&& 0x0010 ≠ 0 then -1 else 0

variable (g : Controller)

/-- `mmc_cmd` (lines 136–405), for a command that stops a transfer or is to bring data. -/
def mmcCmd (fuel ccnt : ℕ) (cmdIsStop data : Bool) : Option ℤ :=
  -- `!` binds tighter than `&`, so that no command is ever rejected
  if (if g.before ccnt = 0 then 1 else 0 : BitVec 16) &&& 0x4000 ≠ 0 then some (-1)
  else match poll (fun i => done ccnt (g.status ccnt i)) fuel 0 with
    | none => none
    | some i =>
      if cmdIsStop then some 0
      else if cmdError (g.status ccnt i) ≠ 0 then some (cmdError (g.status ccnt i))
      else if data then (poll (g.irq ccnt) fuel 0).map fun _ => dataError (g.status ccnt i)
      else some 0

/-- The argument of a read command (lines 450–464); `src` itself is not cut to 32 bits. -/
def readArg (sdhc : Bool) (src : ℕ) : ℕ := (if sdhc then src else src * 512) % 2 ^ 32

/-- The loop of `mmc_read` (lines 443–485) with `size` blocks to go. -/
def readLumps (fuel : ℕ) (sdhc : Bool) (sizeOriginal size ccnt src dst : ℕ) : Option Read :=
  if _h : size = 0 then some ⟨sizeOriginal, []⟩
  else
    let lump := min 64 size
    match mmcCmd g fuel (ccnt + 1) false true with
    | none => none
    | some resp =>
      if resp ≠ 0 then some ⟨resp, []⟩
      else
        let w : Write := (dst, load (g.mem (ccnt + 1) (readArg sdhc src)) 0 (lump * 512))
        match mmcCmd g fuel (ccnt + 2) true false with
        | none => none
        | some resp =>
          if resp ≠ 0 then some ⟨resp, [w]⟩
          else (readLumps fuel sdhc sizeOriginal (size - lump) (ccnt + 2) (src + lump)
            (dst + lump * 512)).map fun r => ⟨r.ret, w :: r.stores⟩
termination_by size

/-- `mmc_read` (lines 423–488): nothing at an odd address, else a first command and the data in
    lumps. -/
def mmcRead (fuel : ℕ) (sdhc : Bool) (ccnt src dst size : ℕ) : Option Read :=
  if dst % 2 = 1 then some ⟨0, []⟩
  else match mmcCmd g fuel (ccnt + 1) false false with
    | none => none
    | some resp =>
      if resp ≠ 0 then some ⟨resp, []⟩ else readLumps g fuel sdhc size size (ccnt + 1) src dst

/-- `mmc_bread` (lines 99–113); it returns an `unsigned long`. -/
def mmcBread (fuel : ℕ) (sdhc : Bool) (ccnt blknr blkcnt dst : ℕ) : Option Read :=
  if blkcnt = 0 then some ⟨0, []⟩
  else (mmcRead g fuel sdhc ccnt blknr dst blkcnt).map fun r =>
    ⟨if r.ret ≠ 0 then toU32 r.ret else blkcnt, r.stores⟩

/-- `sd_card_block_read_gta02`: the count of the driver is returned as an `int`. -/
def sdCardBlockRead (fuel : ℕ) (sdhc : Bool) (ccnt start512 blocks512 buf : ℕ) : Option Read :=
  (mmcBread g fuel sdhc ccnt start512 blocks512 buf).map fun r => ⟨int32 r.ret, r.stores⟩

/-- Command `ccnt` ends with an error in its status. -/
def Controller.Fails (ccnt : ℕ) : Prop :=
  ∃ i, EndsAt (fun i => done ccnt (g.status ccnt i)) i ∧ cmdError (g.status ccnt i) ≠ 0

variable {g}

theorem cmdError_range (status : BitVec 16) : -5 ≤ cmdError status ∧ cmdError status ≤ 0 := by
  unfold cmdError
  split_ifs <;> decide

/-- A status without an error behind the response has none behind the data. -/
theorem dataError_of_cmdError {status : BitVec 16} (h : cmdError status = 0) :
    dataError status = 0 := by
  unfold cmdError at h
  by_cases hcrc : status &&& crcErrors ≠ 0
  · rw [if_pos hcrc] at h
    cases h
  · by_cases htime : status &&& timeouts ≠ 0
    · rw [if_neg hcrc, if_pos htime] at h
      cases h
    · have hbits : ∀ mask, timeouts &&& mask = mask → ¬ status &&& mask ≠ 0 := by
        intro mask hmask hne
        apply hne
        rw [← hmask, ← BitVec.and_assoc, not_not.mp htime]
        exact BitVec.zero_and
      unfold dataError
      rw [if_neg (hbits _ (by decide)), if_neg hcrc, if_neg (hbits _ (by decide))]

/-- What a command returns. -/
theorem mmcCmd_some {fuel ccnt : ℕ} {stop data : Bool} {r : ℤ}
    (h : mmcCmd g fuel ccnt stop data = some r) :
    stop = true ∧ r = 0 ∨ stop = false ∧ (g.Fails ccnt ∧ -5 ≤ r ∧ r < 0 ∨
      ¬ g.Fails ccnt ∧ r = 0) := by
  have hidle : ¬ (if g.before ccnt = 0 then 1 else 0 : BitVec 16) &&& 0x4000 ≠ 0 := by
    split_ifs <;> decide
  rw [mmcCmd, if_neg hidle] at h
  rcases hpoll : poll (fun i => done ccnt (g.status ccnt i)) fuel 0 with _ | i
  · rw [hpoll] at h
    cases h
  · rw [hpoll] at h
    dsimp only at h
    have hend := poll_some (fun j hj => absurd hj (Nat.not_lt_zero j)) hpoll
    by_cases hstop : stop = true
    · rw [if_pos hstop] at h
      cases h
      exact .inl ⟨hstop, rfl⟩
    · rw [if_neg hstop] at h
      refine .inr ⟨Bool.eq_false_iff.mpr hstop, ?_⟩
      by_cases herr : cmdError (g.status ccnt i) ≠ 0
      · rw [if_pos herr] at h
        cases h
        obtain ⟨hlo, hhi⟩ := cmdError_range (g.status ccnt i)
        exact .inl ⟨⟨i, hend, herr⟩, hlo, lt_of_le_of_ne hhi herr⟩
      · rw [if_neg herr] at h
        have hnot : ¬ g.Fails ccnt := by
          rintro ⟨j, hj, herr'⟩
          rw [hj.unique hend] at herr'
          exact herr herr'
        refine .inr ⟨hnot, ?_⟩
        by_cases hdata : data = true
        · rw [if_pos hdata] at h
          obtain ⟨-, -, rfl⟩ := Option.map_eq_some_iff.mp h
          exact dataError_of_cmdError (not_not.mp herr)
        · rw [if_neg hdata] at h
          exact (Option.some.inj h).symm

/-- How the loop ends: with the error of a read command, or with all lumps stored. -/
theorem readLumps_some {fuel sizeOriginal size ccnt src dst : ℕ} {sdhc : Bool} {r : Read}
    (h : readLumps g fuel sdhc sizeOriginal size ccnt src dst = some r) :
    (∃ k, 64 * k < size ∧ g.Fails (ccnt + 1 + 2 * k)) ∧ -5 ≤ r.ret ∧ r.ret < 0 ∨
      (∀ k, 64 * k < size → ¬ g.Fails (ccnt + 1 + 2 * k)) ∧ r.ret = sizeOriginal ∧
      (∀ w ∈ r.stores, dst ≤ w.1) ∧
      ∀ k, 64 * k < size → ∀ i < 512 * min 64 (size - 64 * k),
        overlay r.stores (dst + 512 * (64 * k) + i) =
          some (g.mem (ccnt + 1 + 2 * k) (readArg sdhc (src + 64 * k)) i) := by
  induction size using Nat.strong_induction_on generalizing ccnt src dst r with
  | _ size ih =>
    rw [readLumps] at h
    by_cases hzero : size = 0
    · rw [dif_pos hzero] at h
      cases h
      exact .inr ⟨fun k hk => by omega, rfl, by simp, fun k hk => by omega⟩
    · rw [dif_neg hzero] at h
      dsimp only at h
      rcases hread : mmcCmd g fuel (ccnt + 1) false true with _ | resp
      · rw [hread] at h
        cases h
      · rw [hread] at h
        dsimp only at h
        rcases (mmcCmd_some hread).resolve_left (by simp) with ⟨-, ⟨hfail, hlo, hhi⟩ | ⟨hok, rfl⟩⟩
        · rw [if_pos (by omega)] at h
          cases h
          exact .inl ⟨⟨0, by omega, hfail⟩, hlo, hhi⟩
        · rw [if_neg (by decide)] at h
          rcases hstop : mmcCmd g fuel (ccnt + 2) true false with _ | resp
          · rw [hstop] at h
            cases h
          · rw [hstop] at h
            have hresp : resp = 0 := by
              rcases mmcCmd_some hstop with ⟨-, hresp⟩ | ⟨hfalse, -⟩
              · exact hresp
              · cases hfalse
            dsimp only at h
            rw [if_neg (not_not.mpr hresp)] at h
            obtain ⟨r', hrest, rfl⟩ := Option.map_eq_some_iff.mp h
            have hnext : ∀ k, ccnt + 1 + 2 * (k + 1) = ccnt + 2 + 1 + 2 * k := by
              intro k
              omega
            rcases ih (size - min 64 size) (by omega) hrest with
              ⟨⟨k, hk, hfail⟩, hlo, hhi⟩ | ⟨hnone, hret, hfrom, hov⟩
            · exact .inl ⟨⟨k + 1, by omega, hnext k ▸ hfail⟩, hlo, hhi⟩
            · refine .inr ⟨?_, hret, ?_, ?_⟩
              · intro k hk
                rcases k with _ | k
                · exact hok
                · rw [hnext k]
                  exact hnone k (by omega)
              · intro w hw
                rcases List.mem_cons.mp hw with rfl | hw
                · exact le_rfl
                · exact (Nat.le_add_right _ _).trans (hfrom w hw)
              · intro k hk i hi
                rw [overlay]
                rcases k with _ | k
                · rw [overlay_of_avoids fun w hw => .inr ?_, Option.none_or, length_load,
                    if_pos (by omega), byteAt_load (by omega)]
                  · congr 2
                    omega
                  · have hw' := hfrom w hw
                    omega
                · have hk' : 64 * k < size - min 64 size := by omega
                  have hone := hov k hk' i (by omega)
                  have hdst : dst + 512 * (64 * (k + 1)) + i =
                      dst + min 64 size * 512 + 512 * (64 * k) + i := by omega
                  have hsrc : src + 64 * (k + 1) = src + min 64 size + 64 * k := by omega
                  rw [hdst, hsrc, hnext k, hone]
                  rfl

variable (g)

/-- `MMC_SET_BLOCKLEN` or a read command fails. -/
def Controller.SomeFails (ccnt n : ℕ) : Prop :=
  g.Fails (ccnt + 1) ∨ ∃ k, 64 * k < n ∧ g.Fails (ccnt + 2 + 2 * k)

/-- Every read command leaves the sectors asked for in the memory of the controller. -/
def Controller.Brings (card : Disk) (sdhc : Bool) (ccnt start n : ℕ) : Prop :=
  ∀ k, 64 * k < n →
    load (g.mem (ccnt + 2 + 2 * k) (readArg sdhc (start + 64 * k))) 0 (512 * min 64 (n - 64 * k)) =
      load card (512 * (start + 64 * k)) (512 * min 64 (n - 64 * k))

variable {g}

/-- `mmc_bread` at an even destination. -/
theorem mmcBread_some {fuel ccnt start n dst : ℕ} {sdhc : Bool} {r : Read} (hn : 0 < n)
    (hn' : n < 2 ^ 31) (heven : dst % 2 = 0) (h : mmcBread g fuel sdhc ccnt start n dst = some r) :
    g.SomeFails ccnt n ∧ (∃ e : ℤ, -5 ≤ e ∧ e < 0 ∧ r.ret = toU32 e) ∨
      ¬ g.SomeFails ccnt n ∧ r.ret = n ∧
      ∀ k, 64 * k < n → ∀ i < 512 * min 64 (n - 64 * k),
        overlay r.stores (dst + 512 * (64 * k) + i) =
          some (g.mem (ccnt + 2 + 2 * k) (readArg sdhc (start + 64 * k)) i) := by
  rw [mmcBread, if_neg (by omega)] at h
  obtain ⟨r', hread, rfl⟩ := Option.map_eq_some_iff.mp h
  rw [mmcRead, if_neg (by omega)] at hread
  rcases hlen : mmcCmd g fuel (ccnt + 1) false false with _ | resp
  · rw [hlen] at hread
    cases hread
  · rw [hlen] at hread
    dsimp only at hread
    rcases (mmcCmd_some hlen).resolve_left (by simp) with ⟨-, ⟨hfail, hlo, hhi⟩ | ⟨hok, rfl⟩⟩
    · rw [if_pos (by omega)] at hread
      cases hread
      exact .inl ⟨.inl hfail, resp, hlo, hhi, if_pos (show resp ≠ 0 by omega)⟩
    · rw [if_neg (by decide)] at hread
      rcases readLumps_some hread with ⟨hfail, hlo, hhi⟩ | ⟨hnone, hret, -, hov⟩
      · exact .inl ⟨.inr hfail, r'.ret, hlo, hhi, if_pos (by omega)⟩
      · refine .inr ⟨?_, ?_, hov⟩
        · rintro (hfail | ⟨k, hk, hfail⟩)
          · exact hok hfail
          · exact hnone k hk hfail
        · show (if r'.ret ≠ 0 then (toU32 r'.ret : ℤ) else n) = n
          rw [hret]
          split_ifs
          · unfold toU32
            omega
          · rfl

/-- The sectors are stored iff every read command brings its part of them. -/
theorem stored_iff_brings {card : Disk} {ccnt start n dst : ℕ} {sdhc : Bool} {ws : List Write}
    (h : ∀ k, 64 * k < n → ∀ i < 512 * min 64 (n - 64 * k),
      overlay ws (dst + 512 * (64 * k) + i) =
        some (g.mem (ccnt + 2 + 2 * k) (readArg sdhc (start + 64 * k)) i)) :
    (∀ d, load (applyWrites ws d) dst (512 * n) = load card (512 * start) (512 * n)) ↔
      g.Brings card sdhc ccnt start n := by
  rw [load_applyWrites_eq_iff]
  constructor
  · intro hall k hk
    apply load_ext
    intro i hi
    have hone := hall (512 * (64 * k) + i) (by omega)
    rw [← Nat.add_assoc, h k hk i hi] at hone
    have haddr : 512 * start + (512 * (64 * k) + i) = 512 * (start + 64 * k) + i := by omega
    rw [Nat.zero_add, Option.some.inj hone, haddr]
  · intro hbrings j hj
    -- byte `j` is byte `j % 2 ^ 15` of lump `j / 2 ^ 15`
    have hk : 64 * (j / 32768) < n := by omega
    have hi : j % 32768 < 512 * min 64 (n - 64 * (j / 32768)) := by omega
    have hdst : dst + j = dst + 512 * (64 * (j / 32768)) + j % 32768 := by omega
    have haddr : 512 * start + j = 512 * (start + 64 * (j / 32768)) + j % 32768 := by omega
    have hbyte := congrArg (fun bs => byteAt bs (j % 32768)) (hbrings _ hk)
    rw [byteAt_load hi, byteAt_load hi, Nat.zero_add] at hbyte
    rw [hdst, haddr, h _ hk _ hi, hbyte]

/-- The driver of the GTA02 reports rightly iff the destination is even and a command fails or
    every read command brings the sectors asked for. -/
theorem reports_iff {card : Disk} {fuel ccnt start n dst : ℕ} {sdhc : Bool} {r : Read}
    (hn : 0 < n) (hn' : n < 2 ^ 31) (h : sdCardBlockRead g fuel sdhc ccnt start n dst = some r) :
    Reports card start n dst r ↔
      dst % 2 = 0 ∧ (g.SomeFails ccnt n ∨ g.Brings card sdhc ccnt start n) := by
  obtain ⟨r', hread, rfl⟩ := Option.map_eq_some_iff.mp h
  by_cases heven : dst % 2 = 0
  · rw [and_iff_right heven]
    rcases mmcBread_some hn hn' heven hread with
      ⟨hfail, e, hlo, hhi, hret⟩ | ⟨hnone, hret, hov⟩
    · refine iff_of_true (fun hpos => ?_) (.inl hfail)
      have hneg : int32 (toU32 e : ℤ) < 0 := by
        unfold int32 toU32
        omega
      have hpos' : 0 ≤ int32 r'.ret := hpos
      rw [hret] at hpos'
      omega
    · rw [or_iff_right hnone, ← stored_iff_brings hov]
      have hint : int32 r'.ret = n := by
        rw [hret]
        exact int32_natCast hn'
      constructor
      · intro hreports
        exact (hreports (by rw [hint]; exact Int.natCast_nonneg n)).2
      · intro hstored _
        exact ⟨hint, hstored⟩
  · refine iff_of_false (fun hreports => ?_) (fun hcond => heven hcond.1)
    have hodd : r' = ⟨n, []⟩ := by
      rw [mmcBread, if_neg (by omega), mmcRead, if_pos (by omega)] at hread
      exact (Option.some.inj hread).symm
    rw [hodd] at hreports
    have hint : int32 (n : ℤ) = n := int32_natCast hn'
    obtain ⟨-, hstored⟩ := hreports (by rw [hint]; exact Int.natCast_nonneg n)
    have hfirst := load_applyWrites_eq_iff.mp hstored 0 (by omega)
    cases hfirst

end Glamo

/-! ## The S3C24xx -/

namespace S3c24xx

/-- What the registers of the controller hold at each read of them: `SDICSTA` after a command,
    `SDIDSTA` and `SDIFSTA` while a block comes in, and `SDIDSTA` behind it; and the words
    `SDIDAT` gives for a block that is asked for with this argument. Blocks are counted, and
    there are two commands for each. -/
structure Controller where
  mmcReady : Bool
  csta : ℕ → ℕ → BitVec 32
  dsta : ℕ → ℕ → BitVec 32
  fsta : ℕ → ℕ → BitVec 32
  final : ℕ → ℕ → BitVec 32
  dat : ℕ → ℕ → ℕ → ℕ

/-- `CFG_MMC_BASE`, which the callers add to an address on the card. -/
def mmcBase : ℕ := 0xff000000

/-- The words taken from the FIFO (lines 181–190): the bytes stored so far and what is left of
    `len`. A word is stored before `len` is looked at. -/
def drain (dat : ℕ → ℕ) : (fifo : ℕ) → List Byte → (len : ℕ) → List Byte × ℕ
  | 0, bs, len => (bs, len)
  | fifo + 1, bs, len =>
    let bs := bs ++ le32 (dat (bs.length / 4))
    if 4 ≤ len then drain dat fifo bs (len - 4) else (bs, 0)

variable (m : Controller)

/-- `FIFO_FILL` at read `i` of `SDIFSTA`. -/
def Controller.fill (k i : ℕ) : ℕ := ((m.fsta k i &&& 0x7f) >>> 2).toNat

/-- Read `i` of `SDIDSTA` shows an error. -/
def Controller.Err (k i : ℕ) : Prop := m.dsta k i &&& 0x1e0 ≠ 0

instance (k i : ℕ) : Decidable (m.Err k i) := instDecidableNot

/-- The loop of `mmc_block_read` (lines 166–203) from read `i` of the status on: what it
    returns and the bytes stored. Alignment checks are on (`start.S`, line 289), so that a
    store of a word to another address does not come back. -/
def fifoLoop (k src dst : ℕ) : (fuel i : ℕ) → List Byte → (len : ℕ) → Option (ℤ × List Byte)
  | 0, _, _, _ => none
  | fuel + 1, i, bs, len =>
    if len = 0 then some (0, bs)
    else if m.Err k i then some (-1, bs)
    else if dst % 4 ≠ 0 ∧ m.fill k i ≠ 0 then none
    else
      let r := drain (m.dat k src) (m.fill k i) bs len
      fifoLoop k src dst fuel (i + 1) r.1 r.2

/-- `mmc_cmd` (lines 78–131) with a response: it is over with `S3C2410_SDICMDSTAT_RSPFIN` or
    `S3C2410_SDICMDSTAT_CMDTIMEOUT`, and which of the two it is goes unnoticed. -/
def mmcCmd (fuel c : ℕ) : Option ℕ := poll (fun i => m.csta c i &&& 0x600 != 0) fuel 0

/-- `mmc_block_read` (lines 135–215) of block `k`: what it returns and the bytes stored. That
    the transfer is not finished is only printed. -/
def mmcBlockRead (fuel k src dst len : ℕ) : Option (ℤ × List Byte) :=
  if len = 0 then some (0, [])
  else match mmcCmd m fuel (2 * k), mmcCmd m fuel (2 * k + 1) with
    | some _, some _ =>
      match fifoLoop m k src dst fuel 0 [] len with
      | none => none
      | some (ret, bs) =>
        if ret < 0 then some (ret, bs)
        else (poll (fun i => m.final k i &&& 0x10 != 0) fuel 0).map fun _ => (ret, bs)
    | _, _ => none

/-- The last, partial block of `s3c24xx_mmc_read` (lines 271–278); `mmcBuf` is the address of
    `mmc_buf`. -/
def readPartEnd (fuel mmcBuf end_ k src dst : ℕ) : Option Read :=
  if end_ % 512 ≠ 0 ∧ src < end_ then
    match mmcBlockRead m fuel k (end_ - end_ % 512) mmcBuf 512 with
    | none => none
    | some (ret, bs) =>
      if ret < 0 then some ⟨-1, [(mmcBuf, bs)]⟩
      else some ⟨0, [(mmcBuf, bs), (dst, bs.take (end_ % 512))]⟩
  else some ⟨0, []⟩

/-- The loop over whole blocks (lines 263–268) and what is behind it. -/
def readBlocks (fuel mmcBuf end_ k src dst : ℕ) : Option Read :=
  if _h : src < end_ - end_ % 512 then
    match mmcBlockRead m fuel k src dst 512 with
    | none => none
    | some (ret, bs) =>
      if ret < 0 then some ⟨-1, [(dst, bs)]⟩
      else (readBlocks fuel mmcBuf end_ (k + 1) (src + 512) (dst + 512)).map fun r =>
        ⟨r.ret, (dst, bs) :: r.stores⟩
  else readPartEnd m fuel mmcBuf end_ k src dst
termination_by end_ - src
decreasing_by omega

/-- `s3c24xx_mmc_read` (lines 224–280): the blocks go through the buffer of the driver, one
    after the other. -/
def mmcRead (fuel mmcBuf src dst size : ℕ) : Option Read :=
  if size = 0 then some ⟨0, []⟩
  else if m.mmcReady = false then some ⟨-1, []⟩
  else
    let src := sub32 src mmcBase
    let end_ := add32 src size
    if src % 512 ≠ 0 then
      let partLen := 512 - src % 512
      match mmcBlockRead m fuel 0 (src - src % 512) mmcBuf 512 with
      | none => none
      | some (ret, bs) =>
        if ret < 0 then some ⟨-1, [(mmcBuf, bs)]⟩
        else (readBlocks m fuel mmcBuf end_ 1 (add32 src partLen) (dst + partLen)).map fun r =>
          ⟨r.ret, (mmcBuf, bs) :: (dst, (bs.drop (src % 512)).take partLen) :: r.stores⟩
    else readBlocks m fuel mmcBuf end_ 0 src dst

/-- `s3c24xx_mmc_bread` (lines 347–354), which does not look at what the read returns. -/
def mmcBread (fuel mmcBuf blknr blkcnt dst : ℕ) : Option Read :=
  (mmcRead m fuel mmcBuf ((blknr * 512 + mmcBase) % 2 ^ 32) dst (blkcnt * 512 % 2 ^ 32)).map
    fun r => ⟨blkcnt, r.stores⟩

/-- `sd_card_block_read_gta01`: the count of the driver is returned as an `int`. -/
def sdCardBlockRead (fuel mmcBuf start512 blocks512 buf : ℕ) : Option Read :=
  (mmcBread m fuel mmcBuf start512 blocks512 buf).map fun r => ⟨int32 r.ret, r.stores⟩

/-! ### One block -/

/-- The bytes of the first `n` words. -/
def words (dat : ℕ → ℕ) (n : ℕ) : List Byte := (List.range n).flatMap fun i => le32 (dat i)

/-- The words there have been at read `i` of the status, had all been taken. -/
def Controller.filled (k : ℕ) : ℕ → ℕ
  | 0 => 0
  | i + 1 => Controller.filled k i + m.fill k i

/-- No error shows before the last word of block `k` is there. -/
def Controller.Clean (k : ℕ) : Prop := ∀ i, m.filled k i < 128 → ¬ m.Err k i

section Block

variable {m} (dat : ℕ → ℕ)

theorem words_succ (n : ℕ) : words dat (n + 1) = words dat n ++ le32 (dat n) := by
  unfold words
  rw [List.range_succ, List.flatMap_append, List.flatMap_singleton]

@[simp] theorem length_words (n : ℕ) : (words dat n).length = 4 * n := by
  induction n with
  | zero => rfl
  | succ n ih =>
    rw [words_succ, List.length_append, ih, length_le32]
    omega

theorem byteAt_words {n i : ℕ} (h : i < 4 * n) :
    byteAt (words dat n) i = byteAt (le32 (dat (i / 4))) (i % 4) := by
  induction n with
  | zero => omega
  | succ n ih =>
    rw [words_succ]
    by_cases hi : i < 4 * n
    · rw [byteAt_append_left _ (by simpa using hi), ih hi]
    · have hword : i / 4 = n := by omega
      have hbyte : i - 4 * n = i % 4 := by omega
      rw [byteAt_append_right _ (by simpa using hi), length_words, hword, hbyte]

/-- From the FIFO come the words that are due, and one more if it is there. -/
theorem drain_words {n : ℕ} (hn : n ≤ 128) (fifo : ℕ) :
    drain dat fifo (words dat n) (512 - 4 * n) =
      (words dat (min (n + fifo) 129), 512 - 4 * min (n + fifo) 128) := by
  induction fifo generalizing n with
  | zero =>
    rw [drain, Nat.add_zero, Nat.min_eq_left (by omega), Nat.min_eq_left hn]
  | succ fifo ih =>
    have hnext : words dat n ++ le32 (dat ((words dat n).length / 4)) = words dat (n + 1) := by
      rw [words_succ, length_words, Nat.mul_div_cancel_left n (by decide)]
    rw [drain, hnext]
    by_cases hlast : n = 128
    · have htaken : min (n + (fifo + 1)) 129 = n + 1 := by omega
      have hleft : 512 - 4 * min (n + (fifo + 1)) 128 = 0 := by omega
      rw [if_neg (by omega), htaken, hleft]
    · have hlen : 512 - 4 * n - 4 = 512 - 4 * (n + 1) := by omega
      rw [if_pos (by omega), hlen, ih (by omega), Nat.add_right_comm, Nat.add_assoc]

theorem filled_mono {k i j : ℕ} (h : i ≤ j) : m.filled k i ≤ m.filled k j :=
  monotone_nat_of_le_succ (fun i => Nat.le_add_right (m.filled k i) (m.fill k i)) h

/-- What is stored of a block: all of it if no error shows, and less otherwise. -/
def Stored (m : Controller) (k src : ℕ) (ret : ℤ) (bs : List Byte) : Prop :=
  m.Clean k ∧ ret = 0 ∧ (∃ n, 128 ≤ n ∧ n ≤ 129 ∧ bs = words (m.dat k src) n) ∨
    ¬ m.Clean k ∧ ret = -1 ∧ ∃ n < 128, bs = words (m.dat k src) n

theorem fifoLoop_some {k src dst fuel i : ℕ} {ret : ℤ} {bs : List Byte}
    (hi : ∀ j < i, ¬ m.Err k j)
    (h : fifoLoop m k src dst fuel i (words (m.dat k src) (min (m.filled k i) 129))
      (512 - 4 * min (m.filled k i) 128) = some (ret, bs)) : Stored m k src ret bs := by
  induction fuel generalizing i with
  | zero => cases h
  | succ fuel ih =>
    rw [fifoLoop] at h
    by_cases hfull : 128 ≤ m.filled k i
    · rw [if_pos (by omega)] at h
      cases h
      refine .inl ⟨fun j hj => hi j ?_, rfl, _, by omega, by omega, rfl⟩
      by_contra hle
      have hmono := filled_mono (m := m) (k := k) (Nat.le_of_not_lt hle)
      omega
    · rw [if_neg (by omega)] at h
      by_cases herr : m.Err k i
      · rw [if_pos herr] at h
        cases h
        exact .inr ⟨fun hclean => hclean i (by omega) herr, rfl, _, by omega, rfl⟩
      · rw [if_neg herr] at h
        by_cases halign : dst % 4 ≠ 0 ∧ m.fill k i ≠ 0
        · rw [if_pos halign] at h
          cases h
        · rw [if_neg halign] at h
          have htaken : min (m.filled k i) 129 = m.filled k i := Nat.min_eq_left (by omega)
          have hleft : min (m.filled k i) 128 = m.filled k i := Nat.min_eq_left (by omega)
          dsimp only at h
          rw [htaken, hleft, drain_words _ (by omega)] at h
          refine ih (fun j hj => ?_) h
          rcases Nat.lt_succ_iff_lt_or_eq.mp hj with hlt | rfl
          · exact hi j hlt
          · exact herr

theorem mmcBlockRead_some {k src dst fuel : ℕ} {ret : ℤ} {bs : List Byte}
    (h : mmcBlockRead m fuel k src dst 512 = some (ret, bs)) : Stored m k src ret bs := by
  rw [mmcBlockRead, if_neg (by decide)] at h
  rcases hlen : mmcCmd m fuel (2 * k) with _ | c0
  · rw [hlen] at h
    cases h
  · rcases hcmd : mmcCmd m fuel (2 * k + 1) with _ | c1
    · rw [hlen, hcmd] at h
      cases h
    · rw [hlen, hcmd] at h
      dsimp only at h
      rcases hloop : fifoLoop m k src dst fuel 0 [] 512 with _ | ⟨ret', bs'⟩
      · rw [hloop] at h
        cases h
      · rw [hloop] at h
        have hstored : Stored m k src ret' bs' :=
          fifoLoop_some (fun j hj => absurd hj (Nat.not_lt_zero j)) hloop
        dsimp only at h
        by_cases hneg : ret' < 0
        · rw [if_pos hneg] at h
          cases h
          exact hstored
        · rw [if_neg hneg] at h
          obtain ⟨-, -, hpair⟩ := Option.map_eq_some_iff.mp h
          cases hpair
          exact hstored

end Block

/-! ### All blocks -/

section Blocks

variable {m}

/-- A block that is read in full: its stores, and what is behind it in the list is behind it in
    memory, too. -/
theorem overlay_block {dat : ℕ → ℕ} {n dst i : ℕ} {ws : List Write}
    (hn : 128 ≤ n) (hi : i < 512) (hws : ∀ w ∈ ws, dst + 512 ≤ w.1) :
    overlay ((dst, words dat n) :: ws) (dst + i) =
      some (byteAt (le32 (dat (i / 4))) (i % 4)) := by
  rw [overlay, overlay_of_avoids fun w hw => .inr ?_, Option.none_or, if_pos ?_,
    Nat.add_sub_cancel_left, byteAt_words _ (by omega)]
  · simp only [length_words]
    omega
  · have hw' := hws w hw
    omega

/-- The loop over `c` whole blocks: all are stored, or the last byte of one is not. The extra
    word of a block is in the next one. -/
theorem readBlocks_some {fuel mmcBuf end_ k src dst c : ℕ} {r : Read} (haligned : end_ % 512 = 0)
    (hc : end_ - src = 512 * c)
    (h : readBlocks m fuel mmcBuf end_ k src dst = some r) :
    (∀ w ∈ r.stores, dst ≤ w.1 ∧ w.1 + w.2.length ≤ dst + 512 * c + 4) ∧
      ((∀ j < c, m.Clean (k + j)) ∧ (∀ j < c, ∀ i < 512, overlay r.stores (dst + 512 * j + i) =
          some (byteAt (le32 (m.dat (k + j) (src + 512 * j) (i / 4))) (i % 4))) ∨
        ∃ j < c, ¬ m.Clean (k + j) ∧ overlay r.stores (dst + 512 * j + 511) = none) := by
  induction c generalizing k src dst r with
  | zero =>
    rw [readBlocks, dif_neg (by omega), readPartEnd, if_neg (by omega)] at h
    cases h
    exact ⟨by simp, .inl ⟨fun j hj => by omega, fun j hj => by omega⟩⟩
  | succ c ih =>
    rw [readBlocks, dif_pos (by omega)] at h
    rcases hblock : mmcBlockRead m fuel k src dst 512 with _ | ⟨ret, bs⟩
    · rw [hblock] at h
      cases h
    · rw [hblock] at h
      dsimp only at h
      rcases mmcBlockRead_some hblock with ⟨hclean, rfl, n, hn, hn', rfl⟩ | ⟨hbad, rfl, n, hn, rfl⟩
      · rw [if_neg (by decide)] at h
        obtain ⟨r', hrest, rfl⟩ := Option.map_eq_some_iff.mp h
        obtain ⟨hin, hall⟩ := ih (by omega) hrest
        have hshift : ∀ j, k + (j + 1) = k + 1 + j ∧ src + 512 * (j + 1) = src + 512 + 512 * j ∧
            dst + 512 * (j + 1) = dst + 512 + 512 * j := by
          intro j
          omega
        constructor
        · intro w hw
          rcases List.mem_cons.mp hw with rfl | hw
          · simp only [length_words]
            omega
          · have hw' := hin w hw
            omega
        · rcases hall with ⟨hcleans, hov⟩ | ⟨j, hj, hbad, hnone⟩
          · refine .inl ⟨fun j hj => ?_, fun j hj i hi => ?_⟩
            · rcases j with _ | j
              · exact hclean
              · rw [(hshift j).1]
                exact hcleans j (by omega)
            · rcases j with _ | j
              · exact overlay_block hn hi fun w hw => (hin w hw).1
              · rw [(hshift j).1, (hshift j).2.1, (hshift j).2.2]
                rw [overlay, hov j (by omega) i hi]
                rfl
          · refine .inr ⟨j + 1, by omega, (hshift j).1 ▸ hbad, ?_⟩
            rw [overlay, (hshift j).2.2, hnone, Option.none_or, if_neg]
            simp only [length_words]
            omega
      · rw [if_pos (by decide)] at h
        cases h
        constructor
        · intro w hw
          rw [List.mem_singleton.mp hw]
          simp only [length_words]
          omega
        · refine .inr ⟨0, by omega, hbad, ?_⟩
          rw [overlay, overlay_nil, Option.none_or, if_neg]
          simp only [length_words]
          omega

variable (m)

/-- The words that come in are those of the sectors asked for. -/
def Controller.Brings (card : Disk) (start n : ℕ) : Prop :=
  ∀ j < n, words (m.dat j (512 * (start % 2 ^ 23 + j))) 128 = load card (512 * (start + j)) 512

variable {m}

/-- The sectors are stored iff they come in. -/
theorem stored_iff_brings {card : Disk} {start n dst : ℕ} {ws : List Write}
    (h : ∀ j < n, ∀ i < 512, overlay ws (dst + 512 * j + i) =
      some (byteAt (le32 (m.dat j (512 * (start % 2 ^ 23 + j)) (i / 4))) (i % 4))) :
    (∀ d, load (applyWrites ws d) dst (512 * n) = load card (512 * start) (512 * n)) ↔
      m.Brings card start n := by
  have hblock : ∀ j, words (m.dat j (512 * (start % 2 ^ 23 + j))) 128 =
      load card (512 * (start + j)) 512 ↔ ∀ i < 512, card (512 * (start + j) + i) =
        byteAt (le32 (m.dat j (512 * (start % 2 ^ 23 + j)) (i / 4))) (i % 4) := by
    intro j
    have hiff := @load_eq_iff card (512 * (start + j))
      (words (m.dat j (512 * (start % 2 ^ 23 + j))) 128)
    rw [length_words] at hiff
    rw [eq_comm, hiff]
    exact forall₂_congr fun i hi => by rw [byteAt_words _ hi]
  rw [load_applyWrites_eq_iff]
  constructor
  · intro hall j hj
    rw [hblock]
    intro i hi
    have hone := hall (512 * j + i) (by omega)
    have haddr : 512 * start + (512 * j + i) = 512 * (start + j) + i := by omega
    rw [← Nat.add_assoc, h j hj i hi, haddr] at hone
    exact (Option.some.inj hone).symm
  · intro hbrings x hx
    have hdst : dst + x = dst + 512 * (x / 512) + x % 512 := by omega
    have haddr : 512 * start + x = 512 * (start + x / 512) + x % 512 := by omega
    have hi : x % 512 < 512 := Nat.mod_lt _ (by decide)
    rw [hdst, haddr, h _ (by omega) _ hi, (hblock _).mp (hbrings _ (by omega)) _ hi]

/-- The driver of the GTA01 reports rightly iff the card is initialised, the sectors are inside
    the 32 bits of an address, no error shows and every block brings the sector asked for. -/
theorem reports_iff {card : Disk} {fuel mmcBuf start n dst : ℕ} {r : Read} (hn : 0 < n)
    (hn' : n < 2 ^ 31) (h : sdCardBlockRead m fuel mmcBuf start n dst = some r) :
    Reports card start n dst r ↔
      m.mmcReady = true ∧ start % 2 ^ 23 + n < 2 ^ 23 ∧ (∀ j < n, m.Clean j) ∧
        m.Brings card start n := by
  obtain ⟨r1, hbread, rfl⟩ := Option.map_eq_some_iff.mp h
  obtain ⟨r2, hread, rfl⟩ := Option.map_eq_some_iff.mp hbread
  have hint : int32 (n : ℤ) = n := int32_natCast hn'
  have hreports : Reports card start n dst ⟨int32 n, r2.stores⟩ ↔
      ∀ d, load (applyWrites r2.stores d) dst (512 * n) = load card (512 * start) (512 * n) := by
    constructor
    · intro hreports
      exact (hreports (by rw [hint]; exact Int.natCast_nonneg n)).2
    · intro hstored _
      dsimp only
      exact ⟨hint, hstored⟩
  dsimp only
  rw [hreports]
  have hsrc : sub32 ((start * 512 + mmcBase) % 2 ^ 32) mmcBase = 512 * (start % 2 ^ 23) := by
    unfold sub32 mmcBase
    omega
  rw [mmcRead] at hread
  by_cases hzero : n * 512 % 2 ^ 32 = 0
  · rw [if_pos hzero] at hread
    cases hread
    exact iff_of_false (not_load_applyWrites (i := 0) (by omega) rfl) fun hcond => by omega
  · rw [if_neg hzero] at hread
    by_cases hready : m.mmcReady = false
    · rw [if_pos hready] at hread
      cases hread
      refine iff_of_false (not_load_applyWrites (i := 0) (by omega) rfl) fun hcond => ?_
      rw [hready] at hcond
      cases hcond.1
    · rw [if_neg hready] at hread
      dsimp only at hread
      rw [hsrc, if_neg (by omega)] at hread
      have hend : add32 (512 * (start % 2 ^ 23)) (n * 512 % 2 ^ 32) =
          512 * ((start % 2 ^ 23 + n) % 2 ^ 23) := by
        unfold add32
        omega
      rw [hend] at hread
      obtain ⟨hin, hblocks⟩ := readBlocks_some (Nat.mul_mod_right 512 _) (Nat.mul_sub ..).symm hread
      by_cases hfit : start % 2 ^ 23 + n < 2 ^ 23
      · have hcount : (start % 2 ^ 23 + n) % 2 ^ 23 - start % 2 ^ 23 = n := by omega
        rw [hcount] at hin hblocks
        rw [and_iff_right (Bool.not_eq_false _ ▸ hready), and_iff_right hfit]
        rcases hblocks with ⟨hclean, hov⟩ | ⟨j, hj, hbad, hnone⟩
        · simp only [Nat.zero_add] at hclean hov
          rw [and_iff_right hclean]
          refine stored_iff_brings fun j hj i hi => ?_
          rw [hov j hj i hi, Nat.mul_add]
        · refine iff_of_false (not_load_applyWrites (i := 512 * j + 511) (by omega) ?_) fun hcond => ?_
          · rw [← Nat.add_assoc]
            exact hnone
          · exact hbad (by rw [Nat.zero_add]; exact hcond.1 j hj)
      · refine iff_of_false (not_load_applyWrites (i := 512 * n - 1) (by omega) ?_) fun hcond => ?_
        · refine overlay_of_avoids fun w hw => .inl ?_
          have hw' := hin w hw
          omega
        · exact hfit hcond.2.1

end Blocks

end S3c24xx

/-! ## Both drivers -/

section Both

/-- When the drivers report rightly how a read of `n` sectors from `start` on has gone. -/
theorem drivers_report_iff (card : Disk) {start n dst : ℕ} (hn : 0 < n) (hn' : n < 2 ^ 31)
    {g : Glamo.Controller} {fuel ccnt : ℕ} {sdhc : Bool} {r : Read}
    (hg : Glamo.sdCardBlockRead g fuel sdhc ccnt start n dst = some r)
    {m : S3c24xx.Controller} {fuel' mmcBuf : ℕ} {r' : Read}
    (hm : S3c24xx.sdCardBlockRead m fuel' mmcBuf start n dst = some r') :
    (Reports card start n dst r ↔
        dst % 2 = 0 ∧ (g.SomeFails ccnt n ∨ g.Brings card sdhc ccnt start n)) ∧
      (Reports card start n dst r' ↔
        m.mmcReady = true ∧ start % 2 ^ 23 + n < 2 ^ 23 ∧ (∀ j < n, m.Clean j) ∧
          m.Brings card start n) :=
  ⟨Glamo.reports_iff hn hn' hg, S3c24xx.reports_iff hn hn' hm⟩

/-- A Glamo at which every command succeeds and a card of zeros. -/
def Glamo.good : Glamo.Controller where
  before _ := 0x4000
  status ccnt _ := if ccnt % 2 = 1 then 0xc200 else 0x4200
  irq _ _ := true
  mem _ _ _ := 0

/-- An S3C24xx at which every command succeeds and a card of zeros. -/
def S3c24xx.good : S3c24xx.Controller where
  mmcReady := true
  csta _ _ := 0x200
  dsta _ _ := 0
  fsta _ _ := 0x40
  final _ _ := 0x10
  dat _ _ _ := 0

theorem Glamo.sdCardBlockRead_good :
    ∃ r, Glamo.sdCardBlockRead Glamo.good 1 false 0 0 1 0 = some r := by
  have hcmd : ∀ stop data, Glamo.mmcCmd Glamo.good 1 1 stop data = some 0 ∧
      Glamo.mmcCmd Glamo.good 1 2 stop data = some 0 ∧
      Glamo.mmcCmd Glamo.good 1 3 stop data = some 0 := by decide +kernel
  refine ⟨⟨1, [(0, load (fun _ => 0) 0 512)]⟩, ?_⟩
  rw [Glamo.sdCardBlockRead, Glamo.mmcBread, if_neg (by decide), Glamo.mmcRead,
    if_neg (by decide), (hcmd _ _).1]
  dsimp only
  rw [if_neg (by decide), Glamo.readLumps, dif_neg (by decide)]
  dsimp only
  rw [(hcmd _ _).2.1]
  dsimp only
  rw [if_neg (by decide), (hcmd _ _).2.2]
  dsimp only
  rw [if_neg (by decide), Glamo.readLumps, dif_pos (by decide)]
  rfl

theorem S3c24xx.sdCardBlockRead_good :
    ∃ r, S3c24xx.sdCardBlockRead S3c24xx.good 9 0 0 1 0 = some r := by
  have hblock : S3c24xx.mmcBlockRead S3c24xx.good 9 0 0 0 512 =
      some (0, S3c24xx.words (fun _ => 0) 128) := by decide +kernel
  have hend : add32 0 (1 * 512 % 2 ^ 32) = 512 := by decide
  have hsrc : sub32 ((0 * 512 + S3c24xx.mmcBase) % 2 ^ 32) S3c24xx.mmcBase = 0 := by decide
  refine ⟨⟨1, [(0, S3c24xx.words (fun _ => 0) 128)]⟩, ?_⟩
  rw [S3c24xx.sdCardBlockRead, S3c24xx.mmcBread, S3c24xx.mmcRead, if_neg (by decide),
    if_neg (by decide)]
  dsimp only
  rw [hsrc, if_neg (by decide), hend, S3c24xx.readBlocks, dif_pos (by decide), hblock]
  dsimp only
  rw [if_neg (by decide), S3c24xx.readBlocks, dif_neg (by decide), S3c24xx.readPartEnd,
    if_neg (by decide)]
  rfl

/-- Both drivers read the first sector of the card of zeros and say so. -/
theorem drivers_report_good :
    ∃ r r', Glamo.sdCardBlockRead Glamo.good 1 false 0 0 1 0 = some r ∧
      S3c24xx.sdCardBlockRead S3c24xx.good 9 0 0 1 0 = some r' ∧
      Reports (fun _ => 0) 0 1 0 r ∧ Reports (fun _ => 0) 0 1 0 r' := by
  obtain ⟨r, hg⟩ := Glamo.sdCardBlockRead_good
  obtain ⟨r', hm⟩ := S3c24xx.sdCardBlockRead_good
  have hiff := drivers_report_iff (fun _ => 0) (by decide) (by decide) hg hm
  have hclean : ∀ j i, ¬ S3c24xx.good.Err j i := by
    intro j i
    exact not_not.mpr (show (0 : BitVec 32) &&& 0x1e0 = 0 by decide)
  have hwords : S3c24xx.words (fun _ => 0) 128 = (List.range 512).map fun _ => 0 := by
    decide +kernel
  exact ⟨r, r', hg, hm, hiff.1.mpr ⟨by decide, .inr fun k _ => load_ext fun _ _ => rfl⟩,
    hiff.2.mpr ⟨rfl, by decide, fun j _ i _ => hclean j i, fun j _ => hwords⟩⟩

/-- At an odd destination the driver of the GTA02 says that it has read a sector, and so does
    the one of the GTA01 without a card. -/
theorem not_drivers_report :
    (∃ r, Glamo.sdCardBlockRead Glamo.good 1 false 0 0 1 1 = some r ∧
        ¬ Reports (fun _ => 0) 0 1 1 r) ∧
      ∃ r, S3c24xx.sdCardBlockRead { S3c24xx.good with mmcReady := false } 1 0 0 1 0 = some r ∧
        ¬ Reports (fun _ => 0) 0 1 0 r := by
  have hg : Glamo.sdCardBlockRead Glamo.good 1 false 0 0 1 1 = some ⟨1, []⟩ := by
    rw [Glamo.sdCardBlockRead, Glamo.mmcBread, if_neg (by decide), Glamo.mmcRead,
      if_pos (by decide)]
    rfl
  have hm : S3c24xx.sdCardBlockRead { S3c24xx.good with mmcReady := false } 1 0 0 1 0 =
      some ⟨1, []⟩ := by
    rw [S3c24xx.sdCardBlockRead, S3c24xx.mmcBread, S3c24xx.mmcRead, if_neg (by decide),
      if_pos rfl]
    rfl
  refine ⟨⟨_, hg, fun hreports => ?_⟩, ⟨_, hm, fun hreports => ?_⟩⟩
  · exact absurd ((Glamo.reports_iff (by decide) (by decide) hg).mp hreports).1 (by decide)
  · cases ((S3c24xx.reports_iff (by decide) (by decide) hm).mp hreports).1

end Both

end SmartQ.Qi.SdReads
