import SmartQ.Firmware.Extract

/-!
# What `extract` touches

`extract` reads its own header with bounds that the header names: the check sum
runs up to `fh_size`, the listing up to `component_count`, and the vendor is
printed up to its NUL, wherever that is. The bytes a short read did not fill
are looked at as if they came from the file.

* `extract_fault_outside`: where `extract` faults it has left the header or the
  section table before.
* `extract_safe_iff`: the headers on which `extract` stays inside and accepts
  only what is well formed.
-/

namespace SmartQ.Firmware

open SmartQ.Lib

/-! ## Accesses -/

/-- The byte `i` bytes from the header's start, or entry `i` of the section table. -/
inductive Access
  | hdr (i : ℕ)
  | sect (i : ℕ)
  deriving DecidableEq, Repr

/-- In the 176 bytes of the header or the six entries of the table. -/
def Access.Inside : Access → Prop
  | .hdr i => i < fwFileHdrSize
  | .sect i => i < Section.all.length

/-- Fields of the header, `n` bytes from offset `o` on. -/
def fieldTrace (o n : ℕ) : List Access := (List.range' o n).map .hdr

section Model

variable (h : FWFileHdr) (heap : ℕ → Option Byte) (host : Host)

/-- The loop of `get_fw_fh_check_sum` (lines 54–55), `n` iterations from `i` on. -/
def sumTrace : ℕ → ℕ → List Access
  | 0, _ => []
  | n + 1, i =>
    .hdr i :: match hdrByte h heap i with
      | none => []
      | some _ => sumTrace n (i + 1)

/-- A string that is printed, from byte `i` on. -/
def stringTrace : ℕ → ℕ → List Access
  | 0, _ => []
  | fuel + 1, i =>
    .hdr i :: match hdrByte h heap i with
      | none => []
      | some b => if b = 0 then [] else stringTrace fuel (i + 1)

/-- `strcmp` of the string at byte `i` with `cs`. -/
def strcmpTrace : List Byte → ℕ → List Access
  | [], _ => []
  | c :: cs, i => .hdr i :: if byteAt h.bytes i = c then strcmpTrace cs (i + 1) else []

/-- The listing of the components (lines 127–134), `n` iterations from `i` on. Behind
    the table an entry leads anywhere. -/
def listingTrace : ℕ → ℕ → List Access
  | 0, _ => []
  | n + 1, i =>
    .sect i :: if i < Section.all.length then fieldTrace (56 + 20 * i) 16 ++ listingTrace n (i + 1)
      else if host.sectsMapped i then listingTrace n (i + 1)
      else []

/-- `"hhtech"`, the vendor that `extract` compares with, with the zero that ends it. -/
def hhtech : List Byte := [0x68, 0x68, 0x74, 0x65, 0x63, 0x68, 0]

/-- What the tests behind the check sum loop read (`checkFields`). -/
def fieldsTrace (sum : ℕ) : List Access :=
  fieldTrace 4 4 ++
    if sum ≠ h.checkSum then fieldTrace 4 4 ++ sumTrace h host.heap (h.fhSize - 8) 8
    else fieldTrace 48 4 ++
      if wrongPlatform host h then []
      else fieldTrace 8 12 ++ (stringTrace h host.heap addressSpace 20 ++
        if !vendorMapped host h then []
        else strcmpTrace h hhtech 20 ++
          if !vendorOk h then []
          else fieldTrace 48 8 ++ listingTrace host h.componentCount 0)

/-- What the tests on the header read (`checkHdr`). -/
def checkTrace : List Access :=
  fieldTrace 0 4 ++
    if h.magic ≠ headMagic then []
    else sumTrace h host.heap (h.fhSize - 8) 8 ++
      match getFwFhCheckSum h host.heap with
      | none => []
      | some sum => fieldsTrace h host sum

/-- What `extract` touches. The `read` itself is given the header's size. -/
def extractTrace (file : List Byte) (r : IoResult) : List Access :=
  if !openable file then []
  else checkTrace (readHdr host.garbage file (transferred r fwFileHdrSize file.length)) host

end Model

/-! ## What is asked of `extract` -/

/-- A header that may be accepted, `n` being what its `read` returned. -/
structure WellFormed (n : ℤ) (h : FWFileHdr) : Prop where
  whole : n = fwFileHdrSize
  magic : h.magic = headMagic
  checkSum : h.checkSum = byteSum (h.bytes.drop 8)
  vendor : 0 ∈ h.vendor

/-- `extract` touches the header and the section table only, and returns 0 only for a
    header that is well formed. -/
structure ExtractSafe (host : Host) (file : List Byte) (r : IoResult) : Prop where
  inside : ∀ a ∈ extractTrace host file r, a.Inside
  wellFormed : ∀ h, extract host file r = .accepted h →
    WellFormed (transferred r fwFileHdrSize file.length) h

/-- The bytes the header's check sum covers. -/
def FWFileHdr.covered (h : FWFileHdr) : List Byte := (h.bytes.drop 8).take (h.fhSize - 8)

/-- A header with the magic gives a size of 176 bytes at most; if its check sum and its
    platform are right, there is a NUL behind the vendor's first byte; and if the vendor
    is the one asked for, then it counts six components at most, comes from the file as a
    whole and has only zeros behind what its check sum covers. -/
def HdrMeets (host : Host) (n : ℤ) (h : FWFileHdr) : Prop :=
  h.magic = headMagic →
    h.fhSize ≤ fwFileHdrSize ∧
      (byteSum h.covered = h.checkSum → wrongPlatform host h = false →
        0 ∈ h.bytes.drop 20 ∧
          (vendorOk h = true → h.componentCount ≤ Section.all.length ∧ n = fwFileHdrSize ∧
            ∀ b ∈ h.bytes.drop (max 8 h.fhSize), b = 0))

/-! ## Each part -/

theorem fieldTrace_inside {o n : ℕ} (hle : o + n ≤ fwFileHdrSize) :
    ∀ a ∈ fieldTrace o n, a.Inside := by
  intro a ha
  obtain ⟨i, hi, rfl⟩ := List.mem_map.mp ha
  have := List.mem_range'_1.mp hi
  show i < fwFileHdrSize
  omega

section Parts

variable {h : FWFileHdr} {heap : ℕ → Option Byte} {host : Host}

theorem hdrByte_of_lt {i : ℕ} (hi : i < fwFileHdrSize) :
    hdrByte h heap i = some (byteAt h.bytes i) := if_pos hi

/-- The check sum loop stays inside as long as its bound does. -/
theorem sumTrace_inside_iff (h : FWFileHdr) (heap : ℕ → Option Byte) (n i : ℕ) :
    (∀ a ∈ sumTrace h heap n i, a.Inside) ↔ n = 0 ∨ i + n ≤ fwFileHdrSize := by
  induction n generalizing i with
  | zero => simp [sumTrace]
  | succ n ih =>
    rw [sumTrace, List.forall_mem_cons]
    show i < fwFileHdrSize ∧ _ ↔ _
    by_cases hi : i < fwFileHdrSize
    · rw [hdrByte_of_lt hi]
      simp only [ih]
      omega
    · constructor
      · rintro ⟨hin, -⟩
        exact absurd hin hi
      · intro hle
        omega

/-- Printing a string stays inside if there is a NUL in the header. -/
theorem stringTrace_inside_iff (h : FWFileHdr) (heap : ℕ → Option Byte)
    (fuel i : ℕ) (hi : i ≤ fwFileHdrSize)
    (hfuel : fwFileHdrSize < i + fuel) :
    (∀ a ∈ stringTrace h heap fuel i, a.Inside) ↔ 0 ∈ h.bytes.drop i := by
  have hlen := h.length_eq
  induction fuel generalizing i with
  | zero => omega
  | succ fuel ih =>
    rw [stringTrace, List.forall_mem_cons]
    show i < fwFileHdrSize ∧ _ ↔ _
    by_cases hlt : i < fwFileHdrSize
    · rw [hdrByte_of_lt hlt, List.drop_eq_getElem_cons (by omega), byteAt_of_lt (by omega),
        List.mem_cons]
      by_cases hz : h.bytes[i] = 0
      · simp [hlt, hz]
      · simp only [hz, if_false, hlt, true_and]
        have hrest := ih (i + 1) (by omega) (by omega)
        constructor
        · intro hall
          exact .inr (hrest.mp hall)
        · rintro (h0 | hmem)
          · exact absurd h0.symm hz
          · exact hrest.mpr hmem
    · constructor
      · rintro ⟨hin, -⟩
        exact absurd hin hlt
      · intro hmem
        rw [List.drop_of_length_le (by omega)] at hmem
        cases hmem

theorem strcmpTrace_inside (cs : List Byte) (i : ℕ) (hle : i + cs.length ≤ fwFileHdrSize) :
    ∀ a ∈ strcmpTrace h cs i, a.Inside := by
  induction cs generalizing i with
  | nil => simp [strcmpTrace]
  | cons c cs ih =>
    rw [List.length_cons] at hle
    rw [strcmpTrace, List.forall_mem_cons]
    refine ⟨show i < fwFileHdrSize by omega, ?_⟩
    split
    · exact ih (i + 1) (by omega)
    · simp

/-- The listing stays inside as long as its bound does. -/
theorem listingTrace_inside_iff (n i : ℕ) :
    (∀ a ∈ listingTrace host n i, a.Inside) ↔ n = 0 ∨ i + n ≤ Section.all.length := by
  induction n generalizing i with
  | zero => simp [listingTrace]
  | succ n ih =>
    rw [listingTrace, List.forall_mem_cons]
    show i < Section.all.length ∧ _ ↔ _
    by_cases hi : i < Section.all.length
    · have hfield : ∀ a ∈ fieldTrace (56 + 20 * i) 16, a.Inside := by
        have hsix : Section.all.length = 6 := rfl
        apply fieldTrace_inside
        rw [fwFileHdrSize]
        omega
      rw [if_pos hi, List.forall_mem_append, ih]
      constructor
      · rintro ⟨-, -, hle⟩
        omega
      · intro hle
        exact ⟨hi, hfield, by omega⟩
    · constructor
      · rintro ⟨hin, -⟩
        exact absurd hin hi
      · intro hle
        omega

/-! ## The check sum -/

theorem byteSum_le (bs : List Byte) : byteSum bs ≤ 255 * bs.length := by
  induction bs with
  | nil => simp
  | cons b bs ih =>
    have := b.toNat_lt
    rw [byteSum_cons, List.length_cons]
    omega

theorem byteSum_eq_zero {bs : List Byte} : byteSum bs = 0 ↔ ∀ b ∈ bs, b = 0 := by
  induction bs with
  | nil => simp
  | cons b bs ih =>
    rw [byteSum_cons, Nat.add_eq_zero_iff, ih, List.forall_mem_cons, ← UInt8.toNat_inj]
    rfl

/-- Within the header the check sum is the sum of what it covers. -/
theorem getFwFhCheckSum_inside (hsize : h.fhSize ≤ fwFileHdrSize) :
    getFwFhCheckSum h heap = some (byteSum h.covered) := by
  by_cases hle : h.fhSize ≤ 8
  · have h0 : h.fhSize - 8 = 0 := by omega
    rw [getFwFhCheckSum, FWFileHdr.covered, h0]
    rfl
  · have hsum : byteSum h.covered < 2 ^ 32 := by
      have hlen : h.covered.length ≤ fwFileHdrSize := by
        rw [FWFileHdr.covered, List.length_take]
        omega
      have := byteSum_le h.covered
      rw [fwFileHdrSize] at hlen
      omega
    rw [getFwFhCheckSum, foldlM_hdrByte h heap _ _ _ (by omega) (by norm_num), Nat.zero_add,
      ← FWFileHdr.covered, Nat.mod_eq_of_lt hsum]

/-- The check sum covers all of the header but zeros. -/
theorem byteSum_covered_eq_iff : byteSum h.covered = byteSum (h.bytes.drop 8) ↔
      ∀ b ∈ h.bytes.drop (max 8 h.fhSize), b = 0 := by
  have hsplit : h.bytes.drop 8 = h.covered ++ h.bytes.drop (max 8 h.fhSize) := by
    have hmax : max 8 h.fhSize = 8 + (h.fhSize - 8) := by omega
    rw [FWFileHdr.covered, hmax, ← List.drop_drop, List.take_append_drop]
  rw [hsplit, byteSum_append, ← byteSum_eq_zero]
  omega

end Parts

/-! ## The whole -/

section Whole

variable {host : Host} {h : FWFileHdr}

/-- What the tests behind the loop read, with the accesses that are always inside left out. -/
theorem fieldsTrace_inside_iff (sum : ℕ) (hsize : h.fhSize ≤ fwFileHdrSize) :
    (∀ a ∈ fieldsTrace h host sum, a.Inside) ↔
      (sum = h.checkSum → wrongPlatform host h = false → 0 ∈ h.bytes.drop 20 ∧
        (vendorOk h = true → h.componentCount ≤ Section.all.length)) := by
  have hfield : ∀ o n, o + n ≤ fwFileHdrSize → ((∀ a ∈ fieldTrace o n, a.Inside) ↔ True) :=
    fun o n hle => iff_true_intro (fieldTrace_inside hle)
  have hstring := stringTrace_inside_iff h host.heap addressSpace 20 (by decide)
    (by decide)
  have hstrcmp := strcmpTrace_inside (h := h) hhtech 20 (by decide)
  rw [fieldsTrace, List.forall_mem_append, hfield 4 4 (by decide), true_and]
  by_cases hsum : sum = h.checkSum
  · rw [if_neg (not_not.mpr hsum), List.forall_mem_append, hfield 48 4 (by decide), true_and]
    by_cases hplat : wrongPlatform host h = true
    · simp [hplat]
    · rw [if_neg hplat, List.forall_mem_append, hfield 8 12 (by decide), true_and,
        List.forall_mem_append, hstring]
      have hplat' : wrongPlatform host h = false := by simpa using hplat
      simp only [hsum, hplat', true_implies]
      refine and_congr_right ?_
      intro hz
      have hmapped := vendorMapped_of_mem host hz
      rw [hmapped, if_neg (by simp), List.forall_mem_append]
      by_cases hvendor : vendorOk h = true
      · rw [hvendor, if_neg (by simp), List.forall_mem_append, hfield 48 8 (by decide), true_and,
          listingTrace_inside_iff]
        simp only [true_implies]
        constructor
        · rintro ⟨-, hle⟩
          omega
        · intro hle
          exact ⟨hstrcmp, by omega⟩
      · have hvendor' : vendorOk h = false := by simpa using hvendor
        simp only [hvendor', Bool.not_false, if_true, List.not_mem_nil, false_implies, implies_true,
          and_true, Bool.false_eq_true, iff_true]
        exact hstrcmp
  · have hloop := (sumTrace_inside_iff h host.heap (h.fhSize - 8) 8).mpr (by omega)
    rw [if_pos hsum, List.forall_mem_append]
    simp only [hsum, false_implies, iff_true]
    exact ⟨fieldTrace_inside (by decide), hloop⟩

/-- The accesses stay inside. -/
theorem checkTrace_inside_iff :
    (∀ a ∈ checkTrace h host, a.Inside) ↔ (h.magic = headMagic → h.fhSize ≤ fwFileHdrSize ∧
      (byteSum h.covered = h.checkSum → wrongPlatform host h = false → 0 ∈ h.bytes.drop 20 ∧
        (vendorOk h = true → h.componentCount ≤ Section.all.length))) := by
  have hmagicField := fieldTrace_inside (show 0 + 4 ≤ fwFileHdrSize by decide)
  rw [checkTrace, List.forall_mem_append]
  by_cases hmagic : h.magic = headMagic
  · rw [if_neg (not_not.mpr hmagic), List.forall_mem_append, sumTrace_inside_iff]
    simp only [hmagic, true_implies]
    by_cases hsize : h.fhSize ≤ fwFileHdrSize
    · rw [getFwFhCheckSum_inside hsize]
      simp only [fieldsTrace_inside_iff _ hsize, hsize, true_and]
      constructor
      · rintro ⟨-, -, hrest⟩
        exact hrest
      · intro hrest
        exact ⟨hmagicField, by omega, hrest⟩
    · constructor
      · rintro ⟨-, hle, -⟩
        rw [fwFileHdrSize] at hle hsize
        omega
      · rintro ⟨hle, -⟩
        exact absurd hle hsize
  · rw [if_pos hmagic]
    simp only [hmagic, false_implies, iff_true]
    exact ⟨hmagicField, by simp⟩

/-- When `checkHdr` accepts a header of at most 176 bytes. -/
theorem checkHdr_accepted_iff (hsize : h.fhSize ≤ fwFileHdrSize) (h' : FWFileHdr) :
    checkHdr host h = .accepted h' ↔ h' = h ∧ h.magic = headMagic ∧
      byteSum h.covered = h.checkSum ∧ wrongPlatform host h = false ∧ vendorOk h = true ∧
      listingMapped host h = true := by
  constructor
  · intro hx
    obtain ⟨rfl, hmagic, hsum⟩ := checkHdr_of_accepted hx
    rw [getFwFhCheckSum_inside hsize, Option.some.injEq] at hsum
    rw [checkHdr, if_neg (not_not.mpr hmagic), getFwFhCheckSum_inside hsize] at hx
    simp only [checkFields] at hx
    split_ifs at hx with h1 h2 h3 h4 h5
    exact ⟨rfl, hmagic, hsum, by simpa using h2, by simpa using h4, by simpa using h5⟩
  · rintro ⟨rfl, hmagic, hsum, hplat, hvendor, hlist⟩
    rw [checkHdr, if_neg (not_not.mpr hmagic), getFwFhCheckSum_inside hsize]
    simp only [checkFields]
    rw [if_neg (not_not.mpr hsum), hplat, vendorMapped_of_vendorOk host hvendor, hvendor, hlist]
    rfl

/-- What may be accepted. -/
theorem listingMapped_of_le (host : Host) (hle : h.componentCount ≤ Section.all.length) :
    listingMapped host h = true := by
  have h0 : h.componentCount - 6 = 0 := Nat.sub_eq_zero_of_le hle
  rw [listingMapped, h0]
  rfl

/-- The tests stay inside and accept only what is well formed, on the headers that meet
    the condition and on no others. -/
theorem checkHdr_safe_iff (n : ℤ) :
    ((∀ a ∈ checkTrace h host, a.Inside) ∧
      ∀ h', checkHdr host h = .accepted h' → WellFormed n h') ↔ HdrMeets host n h := by
  rw [checkTrace_inside_iff]
  constructor
  · rintro ⟨hinside, hwell⟩ hmagic
    obtain ⟨hsize, hrest⟩ := hinside hmagic
    refine ⟨hsize, ?_⟩
    intro hsum hplat
    obtain ⟨hz, hcount⟩ := hrest hsum hplat
    refine ⟨hz, ?_⟩
    intro hvendor
    have hlist := listingMapped_of_le host (hcount hvendor)
    have hok := hwell h ((checkHdr_accepted_iff hsize h).mpr
      ⟨rfl, hmagic, hsum, hplat, hvendor, hlist⟩)
    have hcovered : byteSum h.covered = byteSum (h.bytes.drop 8) := hsum.trans hok.checkSum
    exact ⟨hcount hvendor, hok.whole, byteSum_covered_eq_iff.mp hcovered⟩
  · intro hmeets
    refine ⟨?_, ?_⟩
    · intro hmagic
      obtain ⟨hsize, hrest⟩ := hmeets hmagic
      refine ⟨hsize, ?_⟩
      intro hsum hplat
      obtain ⟨hz, hvendor⟩ := hrest hsum hplat
      exact ⟨hz, fun hok => (hvendor hok).1⟩
    · intro h' hx
      obtain ⟨hsize, hrest⟩ := hmeets (checkHdr_of_accepted hx).2.1
      obtain ⟨rfl, hmagic, hsum, hplat, hvendor, -⟩ := (checkHdr_accepted_iff hsize h').mp hx
      obtain ⟨-, hall⟩ := hrest hsum hplat
      obtain ⟨-, hwhole, hzeros⟩ := hall hvendor
      exact ⟨hwhole, hmagic, hsum.symm.trans (byteSum_covered_eq_iff.mpr hzeros),
        mem_vendor_of_vendorOk hvendor⟩

theorem checkFields_fault {sum : ℕ} (hx : checkFields host h sum = .fault) :
    sum = h.checkSum ∧ wrongPlatform host h = false ∧
      (vendorMapped host h = false ∨ vendorOk h = true ∧ listingMapped host h = false) := by
  unfold checkFields at hx
  split_ifs at hx with h1 h2 h3 h4 h5
  · exact ⟨not_not.mp h1, by simpa using h2, .inl (by simpa using h3)⟩
  · exact ⟨not_not.mp h1, by simpa using h2, .inr ⟨by simpa using h4, by simpa using h5⟩⟩

/-- A fault is an access outside. -/
theorem checkHdr_fault_outside (hx : checkHdr host h = .fault) :
    ∃ a ∈ checkTrace h host, ¬ a.Inside := by
  by_contra hall
  have hinside : ∀ a ∈ checkTrace h host, a.Inside := by
    intro a ha
    by_contra hout
    exact hall ⟨a, ha, hout⟩
  unfold checkHdr at hx
  split_ifs at hx with hmagic
  obtain ⟨hsize, hrest⟩ := checkTrace_inside_iff.mp hinside (not_not.mp hmagic)
  rw [getFwFhCheckSum_inside hsize] at hx
  obtain ⟨hsum, hplat, hx⟩ := checkFields_fault hx
  obtain ⟨hz, hcount⟩ := hrest hsum hplat
  rcases hx with hmapped | ⟨hvendor, hlist⟩
  · rw [vendorMapped_of_mem host hz] at hmapped
    cases hmapped
  · rw [listingMapped_of_le host (hcount hvendor)] at hlist
    cases hlist

end Whole

/-! ## `extract` -/

/-- Where `extract` faults, it has left the header or the section table. -/
theorem extract_fault_outside {host : Host} {file : List Byte} {r : IoResult}
    (hx : extract host file r = .fault) : ∃ a ∈ extractTrace host file r, ¬ a.Inside := by
  unfold extract at hx
  split_ifs at hx with hopen
  rw [extractTrace, if_neg hopen]
  exact checkHdr_fault_outside hx

/-- `extract` stays in the header and the section table, and returns 0 only for a header
    that is well formed, if and only if the file cannot be opened or the header it is left
    with meets the condition. -/
theorem extract_safe_iff (host : Host) (file : List Byte) (r : IoResult) :
    ExtractSafe host file r ↔ (openable file = true →
      HdrMeets host (transferred r fwFileHdrSize file.length)
        (readHdr host.garbage file (transferred r fwFileHdrSize file.length))) := by
  by_cases hopen : openable file = true
  · have htrace : extractTrace host file r = checkTrace
        (readHdr host.garbage file (transferred r fwFileHdrSize file.length)) host := by
      rw [extractTrace, if_neg (by simp [hopen])]
    have hx : extract host file r = checkHdr host
        (readHdr host.garbage file (transferred r fwFileHdrSize file.length)) := by
      rw [extract, if_neg (by simp [hopen])]
    simp only [hopen, true_implies]
    rw [← checkHdr_safe_iff]
    constructor
    · rintro ⟨hinside, hwell⟩
      rw [htrace] at hinside
      rw [hx] at hwell
      exact ⟨hinside, hwell⟩
    · rintro ⟨hinside, hwell⟩
      rw [← htrace] at hinside
      rw [← hx] at hwell
      exact ⟨hinside, hwell⟩
  · have hopen' : openable file = false := by simpa using hopen
    simp only [hopen', Bool.false_eq_true, false_implies, iff_true]
    constructor
    · rw [extractTrace, hopen']
      simp
    · rw [extract, hopen']
      intro h hx
      cases hx

/-- The magic and an `fh_size` of 177. -/
def oversizedFile : List Byte := le32 headMagic ++ le32 0 ++ le32 177 ++ List.replicate 164 0

/-- `extract` sums up the byte behind the header. -/
theorem oversizedFile_not_safe :
    ¬ ∀ (host : Host) (file : List Byte) (r : IoResult), ExtractSafe host file r := by
  intro hall
  let garbage : FWFileHdr := ⟨List.replicate fwFileHdrSize 0, List.length_replicate⟩
  have hsafe := (hall ⟨2, 2, garbage, fun _ => none, fun _ => false⟩ oversizedFile .full).inside
  have hlen : oversizedFile.length = fwFileHdrSize := rfl
  have hread : readHdr garbage oversizedFile
      (transferred .full fwFileHdrSize oversizedFile.length) = ⟨oversizedFile, hlen⟩ := by
    ext1
    rw [transferred_full (by norm_num [fwFileHdrSize])
      (Nat.le_of_eq hlen.symm), readHdr_full (Nat.le_of_eq hlen.symm),
      List.take_of_length_le (Nat.le_of_eq hlen)]
  have hopen : openable oversizedFile = true := by
    rw [openable, hlen, fwFileHdrSize]
    simp
  rw [extractTrace, hopen] at hsafe
  simp only [Bool.not_true, Bool.false_eq_true, if_false, hread] at hsafe
  rw [checkTrace_inside_iff] at hsafe
  have hmagic : u32At oversizedFile 0 = headMagic := rfl
  have hsize : u32At oversizedFile 8 = 177 := rfl
  obtain ⟨hle, -⟩ := hsafe hmagic
  rw [FWFileHdr.fhSize, hsize] at hle
  exact absurd hle (by decide)

end SmartQ.Firmware
