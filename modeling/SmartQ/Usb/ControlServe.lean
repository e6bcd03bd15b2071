import SmartQ.Usb.Control

/-!
# What the control endpoint serves

The driver only reads a SETUP packet in `EP0_STATE_INIT`. A request sends it along a
chain of states with one IN token a step, and it is back there when the chain is
through; most lengths end the data stage earlier or later than the chain.

* `Path`: the packets of a chain, and what any number of IN tokens does on it.
* `Stage`: the same packets as the host counts them.
* `control_serves`: in a run of transfers that ask for what is served and let the chains
  through, every SETUP is read and every data stage is right.
-/

namespace SmartQ.Usb.Control

open SmartQ.Lib

/-! ## Chains of states -/

/-- Between two transfers: no descriptor is being sent, and none is half sent. -/
structure Ep0.Idle (s : Ep0) : Prop where
  state : s.ep0State = .init
  substate : s.ep0Substate = 0

/-- From `s` the IN tokens send `os`, and then the endpoint is idle. -/
inductive Path : Ep0 → List Out → Prop
  | nil {s : Ep0} (h : s.Idle) : Path s []
  | cons {s : Ep0} {os : List Out} (h : Path (transferEp0 s).1 os) : Path s ((transferEp0 s).2 :: os)

theorem Path.of_eq {s s' : Ep0} {o : Out} {os : List Out} (h : transferEp0 s = (s', o))
    (h' : Path s' os) : Path s (o :: os) := by
  have h1 : s' = (transferEp0 s).1 := by rw [h]
  have h2 : o = (transferEp0 s).2 := by rw [h]
  rw [h1] at h'
  rw [h2]
  exact Path.cons h'

/-- An idle endpoint answers with empty packets. -/
theorem transferEp0_idle {s : Ep0} (h : s.Idle) : transferEp0 s = (s, .zlp) := by
  rw [transferEp0, h.state]

/-- Run lemma of a path: `k` IN tokens send the first `k` of its packets, and empty
    ones behind it; behind it the endpoint is idle. -/
theorem Path.inTokens {s : Ep0} {os : List Out} (h : Path s os) (k : ℕ) :
    (Control.inTokens k s).2 = (os ++ List.replicate k Out.zlp).take k ∧
      (os.length ≤ k → (Control.inTokens k s).1.Idle) := by
  induction k generalizing s os with
  | zero =>
    refine ⟨by simp [Control.inTokens], ?_⟩
    intro hk
    rw [List.length_eq_zero_iff.mp (Nat.le_zero.mp hk)] at h
    cases h with
    | nil hidle => exact hidle
  | succ k ih =>
    cases h with
    | nil hidle =>
      obtain ⟨h1, h2⟩ := ih (Path.nil hidle)
      have hstep := transferEp0_idle hidle
      simp only [Control.inTokens, hstep]
      refine ⟨?_, fun _ => h2 (Nat.zero_le _)⟩
      rw [h1]
      simp [List.replicate_succ]
    | @cons _ os hrest =>
      obtain ⟨h1, h2⟩ := ih hrest
      simp only [Control.inTokens]
      refine ⟨?_, fun hk => h2 (by simpa using hk)⟩
      have hlen : k ≤ (os ++ List.replicate k Out.zlp).length := by
        rw [List.length_append, List.length_replicate]
        omega
      rw [h1, List.cons_append, List.take_succ_cons, List.replicate_succ', ← List.append_assoc,
        List.take_append_of_le_length hlen]

/-! ## The substate -/

/-- A string is being sent. -/
def Ep0.InString (s : Ep0) : Prop := s.ep0State = .gdStrI1 ∨ s.ep0State = .gdStrI2

/-- The substate is kept and no string begins. -/
def Keeps (s : Ep0) (r : Ep0 × Out) : Prop := r.1.ep0Substate = s.ep0Substate ∧ ¬ r.1.InString

theorem keeps_state {s : Ep0} {next : Ep0State} (o : Out) (h : next ≠ .gdStrI1 ∧ next ≠ .gdStrI2) :
    Keeps s ({ s with ep0State := next }, o) := by
  refine ⟨rfl, ?_⟩
  rintro (hin | hin)
  · exact h.1 hin
  · exact h.2 hin

theorem keeps_send {s : Ep0} {src : Src} {off num : ℕ} {next : Ep0State}
    (h : next ≠ .gdStrI1 ∧ next ≠ .gdStrI2) : Keeps s (s.send src off num next) :=
  keeps_state _ h

theorem keeps_sendPart {s : Ep0} {src : Src} {off : ℕ} {next : Ep0State}
    (h : next ≠ .gdStrI1 ∧ next ≠ .gdStrI2) : Keeps s (s.sendPart src off next) := by
  unfold Ep0.sendPart
  split
  · exact keeps_send (by decide)
  · exact keeps_send h

theorem keeps_setOtherspeedConfDesc {s : Ep0} : Keeps s (setOtherspeedConfDesc s) := by
  unfold setOtherspeedConfDesc
  split
  · exact keeps_state _ (by decide)
  · exact keeps_state _ (by decide)

/-- Only the strings use the substate. -/
theorem transferEp0_substate {s : Ep0} (h : ¬ s.InString) : Keeps s (transferEp0 s) := by
  unfold transferEp0
  split <;> try split
  all_goals first
    | exact keeps_send (by decide)
    | exact keeps_sendPart (by decide)
    | exact keeps_state _ (by decide)
    | exact keeps_setOtherspeedConfDesc
    | exact ⟨rfl, h⟩
    | exact absurd (Or.inl ‹_›) h
    | exact absurd (Or.inr ‹_›) h

theorem inTokens_substate (k : ℕ) : ∀ {s : Ep0}, ¬ s.InString →
    (inTokens k s).1.ep0Substate = s.ep0Substate := by
  induction k with
  | zero =>
    intro s _
    rfl
  | succ k ih =>
    intro s h
    obtain ⟨h1, h2⟩ := transferEp0_substate h
    simp only [inTokens]
    rw [ih h2, h1]

/-! ## The data stage -/

section Stage

variable {n mps : ℕ} {bytes : Out → List Byte}

/-- With `acc` received, the packets `os` end the data stage with `d`. -/
inductive Stage (n mps : ℕ) (bytes : Out → List Byte) : List Byte → List Out → List Byte → Prop
  | nak {acc d : List Byte} {os : List Out} (h : Stage n mps bytes acc os d) :
      Stage n mps bytes acc (.nak :: os) d
  | more {acc d : List Byte} {o : Out} {os : List Out} (ho : o ≠ .nak)
      (hfull : ¬ (bytes o).length < mps) (hn : (acc ++ bytes o).length < n)
      (h : Stage n mps bytes (acc ++ bytes o) os d) : Stage n mps bytes acc (o :: os) d
  | last {acc : List Byte} {o : Out} (ho : o ≠ .nak)
      (hend : n ≤ (acc ++ bytes o).length ∨ (bytes o).length < mps) :
      Stage n mps bytes acc [o] (acc ++ bytes o)

/-- What is received behind the end of the data stage does not count. -/
theorem foldl_hostStep_done (d : List Byte) (os : List Out) :
    os.foldl (hostStep n mps bytes) (d, true) = (d, true) := by
  induction os with
  | nil => rfl
  | cons o os ih =>
    rw [List.foldl_cons]
    exact ih

theorem hostStep_nak (acc : List Byte) : hostStep n mps bytes (acc, false) .nak = (acc, false) := by
  simp [hostStep]

theorem hostStep_packet {o : Out} (ho : o ≠ .nak) (acc : List Byte) :
    hostStep n mps bytes (acc, false) o = (acc ++ bytes o,
      decide (n ≤ (acc ++ bytes o).length ∨ (bytes o).length < mps)) := by
  simp [hostStep, ho]

/-- Run lemma of a stage: after `k` packets the host has part of `d`, and all of it when
    the stage is through. -/
theorem Stage.take {acc d : List Byte} {os : List Out} (h : Stage n mps bytes acc os d)
    (rest : List Out) (k : ℕ) :
    ∃ acc', ((os ++ rest).take k).foldl (hostStep n mps bytes) (acc, false) =
        (acc', decide (os.length ≤ k)) ∧ acc' <+: d ∧ (os.length ≤ k → acc' = d) := by
  have hacc : ∀ {acc d : List Byte} {os : List Out}, Stage n mps bytes acc os d → acc <+: d := by
    intro acc d os h
    induction h with
    | nak _ ih => exact ih
    | more _ _ _ _ ih => exact (List.prefix_append _ _).trans ih
    | last _ _ => exact List.prefix_append _ _
  induction h generalizing k with
  | @nak acc d os h ih =>
    cases k with
    | zero => exact ⟨acc, by simp, hacc h, fun hk => absurd hk (by simp)⟩
    | succ k =>
      obtain ⟨acc', h1, h2, h3⟩ := ih k
      refine ⟨acc', ?_, h2, fun hk => h3 (by simpa using hk)⟩
      rw [List.cons_append, List.take_succ_cons, List.foldl_cons, hostStep_nak, h1]
      simp
  | @more acc d o os ho hfull hn h ih =>
    cases k with
    | zero =>
      exact ⟨acc, by simp, (List.prefix_append _ _).trans (hacc h), fun hk => absurd hk (by simp)⟩
    | succ k =>
      obtain ⟨acc', h1, h2, h3⟩ := ih k
      refine ⟨acc', ?_, h2, fun hk => h3 (by simpa using hk)⟩
      have hcont : ¬ (n ≤ (acc ++ bytes o).length ∨ (bytes o).length < mps) := by
        rintro (hcon | hcon)
        · omega
        · exact hfull hcon
      rw [List.cons_append, List.take_succ_cons, List.foldl_cons, hostStep_packet ho,
        decide_eq_false hcont, h1]
      simp
  | @last acc o ho hend =>
    cases k with
    | zero => exact ⟨acc, by simp, List.prefix_append _ _, fun hk => absurd hk (by simp)⟩
    | succ k =>
      refine ⟨acc ++ bytes o, ?_, List.prefix_rfl, fun _ => rfl⟩
      rw [List.singleton_append, List.take_succ_cons, List.foldl_cons, hostStep_packet ho,
        decide_eq_true hend, foldl_hostStep_done]
      simp

end Stage

/-! ## What is served -/

/-- The lengths of a request for the object `src` for which the data stage is right, the
    reads stay in the object and the chain is through when the host has everything. -/
def Served (speed : Speed) (src : Src) (wLength : ℕ) : Prop :=
  match src, speed with
  | .dev, .high => wLength ≤ 16
  | .dev, .full => wLength < 16 ∧ wLength ≠ 8
  | .config, .high => True
  | .config, .full => wLength ≠ 8 ∧ wLength ≠ 16 ∧ wLength ≠ 24 ∧ wLength ≠ 32
  | .stringDesc0, _ => 4 ≤ wLength
  | .stringDesc2, _ => 44 ≤ wLength
  | .qualifierDesc, _ => wLength ≤ 8
  | .configFullTotal, .high => wLength = 32 ∨ wLength = 0
  | _, _ => False

/-- The steps of the chain of a GET_DESCRIPTOR request that is served. -/
def descSteps (speed : Speed) (src : Src) (wLength : ℕ) : ℕ :=
  match src, speed with
  | .dev, .full => wLength / 8 + 1
  | .config, .full => min wLength 32 / 8 + 1
  | .stringDesc2, .full => 6
  | _, _ => 1

/-- The steps of the chain of a request. -/
def chain (speed : Speed) (r : DeviceReq) : ℕ :=
  match requested speed r with
  | some src => descSteps speed src r.wLength
  | none =>
    if r.bRequest = 10 then 1
    else if r.bRequest = 0 ∧ (r.bmRequestType = 0x80 ∨ r.bmRequestType = 0x81 ∨
      r.bmRequestType = 0x82 ∧ r.wIndexL.toNat % 128 ≤ 2) then 1
    else 0

/-- The speed the next transfer runs at. -/
def Transfer.nextSpeed (speed : Speed) (t : Transfer) : Speed :=
  match t.ending with
  | .setup => speed
  | .reset speed => speed

/-- The transfer asks for what is served; a new SETUP does not cut its chain short, and
    neither does a bus reset if it sends the product string. -/
structure Transfer.Meets (speed : Speed) (t : Transfer) : Prop where
  served : ∀ src, requested speed t.req = some src → Served speed src t.req.wLength
  setup : t.ending = .setup → chain speed t.req ≤ t.tokens
  string : requested speed t.req = some .stringDesc2 → t.tokens ≠ 0 →
    chain speed t.req ≤ t.tokens

/-- Every transfer of a run meets the condition at the speed it runs at. -/
def RunMeets : Speed → List Transfer → Prop
  | _, [] => True
  | speed, t :: ts => t.Meets speed ∧ RunMeets (t.nextSpeed speed) ts

/-- What the transfer should do from state `s`: its SETUP packet is read; if it asks for
    a descriptor, the host receives the bytes asked for (a part of them, if it stops
    before the data stage is over), six IN tokens are enough, and the driver reads
    nothing outside the object. -/
structure Transfer.Good (beyond : Src → ℕ → Byte) (s : Ep0) (t : Transfer) : Prop where
  parses : s.Parses
  data : ∀ src, requested s.speed t.req = some src →
    ∃ d done, dataStage t.req.wLength s.ctrlMaxPktsize (Out.bytes beyond s) (t.outs s) = (d, done) ∧
      d <+: (storage s src).take t.req.wLength ∧
      (done = true → d = (storage s src).take t.req.wLength) ∧ (6 ≤ t.tokens → done = true)
  inside : ∀ src, requested s.speed t.req = some src → ∀ o ∈ t.outs s, o.Inside s

/-! ## Each descriptor -/

section Serve

variable {s : Ep0} {src : Src} {off num n : ℕ} {next : Ep0State} {os : List Out}

theorem sendPart_more (h : off + 8 ≤ s.reqLength) :
    s.sendPart src off next = ({ s with ep0State := next }, .packet src off 8) := by
  rw [Ep0.sendPart, if_neg (by omega)]
  rfl

theorem sendPart_end (h : s.reqLength < off + 8) : s.sendPart src off next =
    ({ s with ep0State := .init }, .packet src off (s.reqLength - off)) := by
  rw [Ep0.sendPart, if_pos h]
  rfl

/-- A chain that ends with one packet. -/
theorem Path.single {o : Out} (h : transferEp0 s = ({ s with ep0State := .init }, o))
    (hsub : s.ep0Substate = 0) : Path s [o] :=
  Path.of_eq h (Path.nil ⟨rfl, hsub⟩)

theorem Path.part (next : Ep0State)
    (htr : transferEp0 s = s.sendPart src off next) (h : off + 8 ≤ s.reqLength)
    (hpath : Path { s with ep0State := next } os) : Path s (.packet src off 8 :: os) :=
  Path.of_eq (htr.trans (sendPart_more h)) hpath

theorem Path.partEnd (next : Ep0State)
    (htr : transferEp0 s = s.sendPart src off next) (h : s.reqLength < off + 8)
    (hsub : s.ep0Substate = 0) : Path s [.packet src off (s.reqLength - off)] :=
  Path.single (htr.trans (sendPart_end h)) hsub

variable {beyond : Src → ℕ → Byte}

/-- A packet inside its object. -/
theorem bytes_packet (h : off + num ≤ (storage s src).length) :
    (Out.packet src off num).bytes beyond s = ((storage s src).drop off).take num := by
  refine List.ext_getElem ?_ ?_
  · simp only [Out.bytes, List.length_map, List.length_range, List.length_take, List.length_drop]
    omega
  · intro i h1 h2
    have hi : i < num := by simpa [Out.bytes] using h1
    simp only [Out.bytes, List.getElem_map, List.getElem_range, List.getElem_take,
      List.getElem_drop]
    rw [if_pos (by omega), byteAt, List.getD_eq_getElem _ _ (by omega)]

theorem take_append_packet (beyond : Src → ℕ → Byte) (h : off + num ≤ (storage s src).length) :
    (storage s src).take off ++ (Out.packet src off num).bytes beyond s =
      (storage s src).take (off + num) := by
  rw [bytes_packet h, List.take_add]

theorem length_bytes_packet : ((Out.packet src off num).bytes beyond s).length = num := by
  rw [Out.bytes, List.length_map, List.length_range]

/-- A full packet that does not end the data stage. -/
theorem Stage.part (off mps : ℕ) {d : List Byte} (hlen : off + mps ≤ (storage s src).length)
    (hn : off + mps < n)
    (h : Stage n mps (Out.bytes beyond s) ((storage s src).take (off + mps)) os d) :
    Stage n mps (Out.bytes beyond s) ((storage s src).take off) (.packet src off mps :: os) d := by
  have happ := take_append_packet beyond hlen
  refine Stage.more (by simp) ?_ ?_ ?_
  · rw [length_bytes_packet]
    omega
  · rw [happ, List.length_take]
    omega
  · rw [happ]
    exact h

/-- The packet that ends the data stage. -/
theorem Stage.finish {mps : ℕ} (hlen : off + num ≤ (storage s src).length)
    (hend : n = off + num ∨ num < mps ∧ off + num = min n (storage s src).length) :
    Stage n mps (Out.bytes beyond s) ((storage s src).take off) [.packet src off num]
      ((storage s src).take n) := by
  have happ := take_append_packet beyond hlen
  have hd : (storage s src).take n = (storage s src).take (off + num) := by
    rcases hend with h | ⟨-, h⟩
    · rw [h]
    · rw [h]
      by_cases hle : n ≤ (storage s src).length
      · rw [Nat.min_eq_left hle]
      · rw [Nat.min_eq_right (by omega), List.take_length, List.take_of_length_le (by omega)]
  rw [hd, ← happ]
  refine Stage.last (by simp) ?_
  rw [happ, length_bytes_packet, List.length_take]
  omega

/-- The empty packet behind a descriptor that ends with a full one. -/
theorem Stage.zlp (beyond : Src → ℕ → Byte) {mps : ℕ}
    (hmps : 0 < mps) (hn : (storage s src).length ≤ n) :
    Stage n mps (Out.bytes beyond s) ((storage s src).take (storage s src).length) [.zlp]
      ((storage s src).take n) := by
  rw [List.take_of_length_le hn, List.take_length]
  have h : Stage n mps (Out.bytes beyond s) (storage s src) [.zlp]
      (storage s src ++ Out.zlp.bytes beyond s) := by
    refine Stage.last (by simp) (.inr ?_)
    simpa [Out.bytes] using hmps
  simpa [Out.bytes] using h

theorem inside_of_le (h : off + 4 * ((num + 3) / 4) ≤ (storage s src).length) :
    (Out.packet src off num).Inside s := h

/-- The chain that starts in `s1` sends the first `n` bytes of `src` in `steps` packets,
    and reads nothing else. -/
def Serves (beyond : Src → ℕ → Byte) (s s1 : Ep0) (src : Src) (n steps : ℕ) : Prop :=
  ∃ os j, Path s1 os ∧ os.length = steps ∧ steps + j ≤ 6 ∧ (∀ o ∈ os, o.Inside s) ∧
    Stage n s.ctrlMaxPktsize (Out.bytes beyond s) [] (os ++ List.replicate j .zlp)
      ((storage s src).take n)

/-- A descriptor that fits one packet. -/
theorem serves_single {s1 : Ep0} {m : ℕ}
    (htr : transferEp0 s1 = ({ s1 with ep0State := .init }, .packet src 0 m))
    (hsub : s1.ep0Substate = 0) (hin : (Out.packet src 0 m).Inside s)
    (hend : n = m ∨ m < s.ctrlMaxPktsize ∧ m = min n (storage s src).length) :
    Serves beyond s s1 src n 1 := by
  have hlen : 0 + m ≤ (storage s src).length := by
    unfold Out.Inside at hin
    omega
  refine ⟨[.packet src 0 m], 0, Path.single htr hsub, rfl, by omega, ?_, ?_⟩
  · intro o ho
    rw [List.mem_singleton.mp ho]
    exact hin
  · exact Stage.finish hlen (by omega)

/-- One more packet of eight bytes in front. -/
theorem inside_cons {o : Out} (h : o.Inside s) (hos : ∀ o ∈ os, o.Inside s) :
    ∀ o' ∈ o :: os, o'.Inside s := by
  intro o' ho'
  rcases List.mem_cons.mp ho' with rfl | ho'
  · exact h
  · exact hos o' ho'

end Serve

section Chains

variable {s s1 : Ep0} {beyond : Src → ℕ → Byte} {n : ℕ}

theorem serves_dev (hst : s1.ep0State = .gdDev0) (hspeed : s1.speed = s.speed)
    (hsub : s1.ep0Substate = 0) (hreq : s1.reqLength = n) (hn : Served s.speed .dev n) :
    Serves beyond s s1 .dev n (descSteps s.speed .dev n) := by
  have hlen : (storage s .dev).length = 18 := by
    cases hs : s.speed <;> rw [storage, hs] <;> rfl
  cases hs : s.speed with
  | high =>
    have hle : n ≤ 16 := by simpa only [Served, hs] using hn
    refine serves_single (m := min n 18) ?_ hsub ?_ (.inl (by omega))
    · simp only [transferEp0, hst, hspeed, hs, Ep0.send, hreq]
    · show 0 + 4 * ((min n 18 + 3) / 4) ≤ _
      rw [hlen]
      omega
  | full =>
    have hle : n < 16 ∧ n ≠ 8 := by simpa only [Served, hs] using hn
    have hmps : s.ctrlMaxPktsize = 8 := by rw [Ep0.ctrlMaxPktsize, hs]; rfl
    have htr : transferEp0 s1 = s1.sendPart .dev 0 .gdDev1 := by
      simp only [transferEp0, hst, hspeed, hs]
    by_cases hshort : n < 8
    · have hsteps : descSteps .full .dev n = 1 := by simp only [descSteps]; omega
      rw [hsteps]
      refine serves_single (m := n) ?_ hsub ?_ (.inl rfl)
      · rw [htr, sendPart_end (by omega), hreq, Nat.sub_zero]
      · show 0 + 4 * ((n + 3) / 4) ≤ _
        rw [hlen]
        omega
    · have hsteps : descSteps .full .dev n = 2 := by simp only [descSteps]; omega
      rw [hsteps]
      refine ⟨[.packet .dev 0 8, .packet .dev 8 (n - 8)], 0, ?_, rfl, by omega, ?_, ?_⟩
      · refine Path.part _ htr (by omega) ?_
        rw [← hreq]
        exact Path.partEnd .gdDev2 rfl (by simp only; omega) hsub
      · refine inside_cons ?_ (inside_cons ?_ (by simp))
        · show 0 + 4 * ((8 + 3) / 4) ≤ _
          rw [hlen]
          omega
        · show 8 + 4 * ((n - 8 + 3) / 4) ≤ _
          rw [hlen]
          omega
      · rw [hmps]
        refine Stage.part 0 8 (by omega) (by omega) ?_
        exact Stage.finish (by omega) (.inl (by omega))

theorem length_config : (storage s .config).length = 32 := by
  cases hs : s.speed <;> rw [storage, hs] <;> rfl

/-- A request for at most nine bytes of the configuration. -/
theorem serves_cfgOnly (hst : s1.ep0State = .gdCfgOnly0) (hspeed : s1.speed = s.speed)
    (hsub : s1.ep0Substate = 0) (hreq : s1.reqLength = n) (hn : Served s.speed .config n)
    (hle : n ≤ 9) : Serves beyond s s1 .config n (descSteps s.speed .config n) := by
  cases hs : s.speed with
  | high =>
    refine serves_single (m := min n 9) ?_ hsub ?_ (.inl (by omega))
    · simp only [transferEp0, hst, hspeed, hs, Ep0.send, hreq]
    · show 0 + 4 * ((min n 9 + 3) / 4) ≤ _
      rw [length_config]
      omega
  | full =>
    have hserved : n ≠ 8 ∧ n ≠ 16 ∧ n ≠ 24 ∧ n ≠ 32 := by simpa only [Served, hs] using hn
    have hmps : s.ctrlMaxPktsize = 8 := by rw [Ep0.ctrlMaxPktsize, hs]; rfl
    have htr : transferEp0 s1 = s1.sendPart .config 0 .gdCfgOnly1 := by
      simp only [transferEp0, hst, hspeed, hs]
    by_cases hshort : n < 8
    · have hsteps : descSteps .full .config n = 1 := by simp only [descSteps]; omega
      rw [hsteps]
      refine serves_single (m := n) ?_ hsub ?_ (.inl rfl)
      · rw [htr, sendPart_end (by omega), hreq, Nat.sub_zero]
      · show 0 + 4 * ((n + 3) / 4) ≤ _
        rw [length_config]
        omega
    · have hnine : n = 9 := by omega
      subst hnine
      refine ⟨[.packet .config 0 8, .packet .config 8 1], 0, ?_, rfl, by decide, ?_, ?_⟩
      · refine Path.part _ htr (by omega) ?_
        exact Path.single rfl hsub
      · refine inside_cons ?_ (inside_cons ?_ (by simp))
        · show 0 + 4 * ((8 + 3) / 4) ≤ _
          rw [length_config]
          omega
        · show 8 + 4 * ((1 + 3) / 4) ≤ _
          rw [length_config]
          omega
      · rw [hmps]
        have hlen := length_config (s := s)
        refine Stage.part 0 8 (by omega) (by omega) ?_
        exact Stage.finish (by omega) (.inl (by omega))

/-- A full packet of the configuration. -/
theorem inside_config {off : ℕ} (h : off ≤ 24) : (Out.packet .config off 8).Inside s := by
  have hlen := length_config (s := s)
  show off + 4 * ((8 + 3) / 4) ≤ _
  omega

/-- Its last packet reads up to a multiple of four bytes. -/
theorem inside_configEnd {off : ℕ} (h : off ≤ 24) (hmod : off % 4 = 0) (hlow : off < n)
    (hhigh : n < off + 8) : (Out.packet .config off (n - off)).Inside s := by
  have hlen := length_config (s := s)
  show off + 4 * ((n - off + 3) / 4) ≤ _
  omega

section FullSpeed

variable (hspeed : s.speed = .full) (htr : transferEp0 s1 = s1.sendPart .config 0 .gdCfg1)
  (hsub : s1.ep0Substate = 0) (hreq : s1.reqLength = n)

include hspeed htr hsub hreq

/-- The configuration in two packets of at most eight bytes. -/
theorem serves_cfg_two (hlow : 9 < n) (hhigh : n < 16) : Serves beyond s s1 .config n 2 := by
  have hlen := length_config (s := s)
  have hmps : s.ctrlMaxPktsize = 8 := by rw [Ep0.ctrlMaxPktsize, hspeed]; rfl
  rw [Serves, hmps]
  refine ⟨[.packet .config 0 8, .packet .config 8 (n - 8)], 0, ?_, rfl, by omega, ?_, ?_⟩
  · refine Path.part _ htr (by omega) ?_
    rw [← hreq]
    exact Path.partEnd .gdCfg2 rfl (by simp only; omega) hsub
  · exact inside_cons (inside_config (by omega)) (inside_cons
      (inside_configEnd (by omega) (by omega) (by omega) (by omega)) (by simp))
  · refine Stage.part 0 8 (by omega) (by omega) ?_
    exact Stage.finish (by omega) (.inl (by omega))

theorem serves_cfg_three (hlow : 16 < n) (hhigh : n < 24) : Serves beyond s s1 .config n 3 := by
  have hlen := length_config (s := s)
  have hmps : s.ctrlMaxPktsize = 8 := by rw [Ep0.ctrlMaxPktsize, hspeed]; rfl
  rw [Serves, hmps]
  refine ⟨[.packet .config 0 8, .packet .config 8 8, .packet .config 16 (n - 16)], 0, ?_, rfl,
    by omega, ?_, ?_⟩
  · refine Path.part _ htr (by omega) ?_
    refine Path.part .gdCfg2 rfl (by simp only; omega) ?_
    rw [← hreq]
    exact Path.partEnd .gdCfg3 rfl (by simp only; omega) hsub
  · exact inside_cons (inside_config (by omega)) (inside_cons (inside_config (by omega))
      (inside_cons (inside_configEnd (by omega) (by omega) (by omega) (by omega)) (by simp)))
  · refine Stage.part 0 8 (by omega) (by omega) ?_
    refine Stage.part 8 8 (by omega) (by omega) ?_
    exact Stage.finish (by omega) (.inl (by omega))

theorem serves_cfg_four (hlow : 24 < n) (hhigh : n < 32) : Serves beyond s s1 .config n 4 := by
  have hlen := length_config (s := s)
  have hmps : s.ctrlMaxPktsize = 8 := by rw [Ep0.ctrlMaxPktsize, hspeed]; rfl
  rw [Serves, hmps]
  refine ⟨[.packet .config 0 8, .packet .config 8 8, .packet .config 16 8,
    .packet .config 24 (n - 24)], 0, ?_, rfl, by omega, ?_, ?_⟩
  · refine Path.part _ htr (by omega) ?_
    refine Path.part .gdCfg2 rfl (by simp only; omega) ?_
    refine Path.part .gdCfg3 rfl (by simp only; omega) ?_
    rw [← hreq]
    exact Path.partEnd .gdCfg4 rfl (by simp only; omega) hsub
  · exact inside_cons (inside_config (by omega)) (inside_cons (inside_config (by omega))
      (inside_cons (inside_config (by omega))
        (inside_cons (inside_configEnd (by omega) (by omega) (by omega) (by omega)) (by simp))))
  · refine Stage.part 0 8 (by omega) (by omega) ?_
    refine Stage.part 8 8 (by omega) (by omega) ?_
    refine Stage.part 16 8 (by omega) (by omega) ?_
    exact Stage.finish (by omega) (.inl (by omega))

/-- A request for more than there is: the last full packet leaves the host waiting, and the step
    behind it sends nothing. -/
theorem serves_cfg_whole (hlow : 32 < n) : Serves beyond s s1 .config n 5 := by
  have hlen := length_config (s := s)
  have hmps : s.ctrlMaxPktsize = 8 := by rw [Ep0.ctrlMaxPktsize, hspeed]; rfl
  rw [Serves, hmps]
  refine ⟨[.packet .config 0 8, .packet .config 8 8, .packet .config 16 8, .packet .config 24 8,
    .nak], 1, ?_, rfl, by omega, ?_, ?_⟩
  · refine Path.part _ htr (by omega) ?_
    refine Path.part .gdCfg2 rfl (by simp only; omega) ?_
    refine Path.part .gdCfg3 rfl (by simp only; omega) ?_
    refine Path.part .gdCfg4 rfl (by simp only; omega) ?_
    exact Path.single rfl hsub
  · exact inside_cons (inside_config (by omega)) (inside_cons (inside_config (by omega))
      (inside_cons (inside_config (by omega)) (inside_cons (inside_config (by omega))
        (inside_cons trivial (by simp)))))
  · refine Stage.part 0 8 (by omega) (by omega) ?_
    refine Stage.part 8 8 (by omega) (by omega) ?_
    refine Stage.part 16 8 (by omega) (by omega) ?_
    refine Stage.part 24 8 (by omega) (by omega) ?_
    refine Stage.nak ?_
    rw [show (24 : ℕ) + 8 = (storage s .config).length from hlen.symm]
    exact Stage.zlp beyond (by omega) (by omega)

end FullSpeed

/-- The whole configuration: in packets of eight bytes, up to four, then a step that
    sends nothing. -/
theorem serves_cfg (hst : s1.ep0State = .gdCfg0) (hspeed : s1.speed = s.speed)
    (hsub : s1.ep0Substate = 0) (hreq : s1.reqLength = n) (hn : Served s.speed .config n)
    (hlt : 9 < n) : Serves beyond s s1 .config n (descSteps s.speed .config n) := by
  have hlen := length_config (s := s)
  cases hs : s.speed with
  | high =>
    refine serves_single (m := min n 32) ?_ hsub ?_ (.inr ⟨?_, ?_⟩)
    · simp only [transferEp0, hst, hspeed, hs, Ep0.send, hreq]
    · show 0 + 4 * ((min n 32 + 3) / 4) ≤ _
      rw [hlen]
      omega
    · rw [Ep0.ctrlMaxPktsize, hs]
      show min n 32 < 64
      omega
    · rw [hlen]
  | full =>
    have hserved : n ≠ 8 ∧ n ≠ 16 ∧ n ≠ 24 ∧ n ≠ 32 := by simpa only [Served, hs] using hn
    have htr : transferEp0 s1 = s1.sendPart .config 0 .gdCfg1 := by
      simp only [transferEp0, hst, hspeed, hs]
    have hsteps : descSteps .full .config n = min n 32 / 8 + 1 := rfl
    rw [hsteps]
    rcases Nat.lt_or_ge n 16 with h16 | h16
    · rw [show min n 32 / 8 + 1 = 2 by omega]
      exact serves_cfg_two hs htr hsub hreq hlt h16
    rcases Nat.lt_or_ge n 24 with h24 | h24
    · rw [show min n 32 / 8 + 1 = 3 by omega]
      exact serves_cfg_three hs htr hsub hreq (by omega) h24
    rcases Nat.lt_or_ge n 32 with h32 | h32
    · rw [show min n 32 / 8 + 1 = 4 by omega]
      exact serves_cfg_four hs htr hsub hreq (by omega) h32
    · rw [show min n 32 / 8 + 1 = 5 by omega]
      exact serves_cfg_whole hs htr hsub hreq (by omega)

theorem serves_string0 (hst : s1.ep0State = .gdStrI0) (hsub : s1.ep0Substate = 0)
    (hn : Served s.speed .stringDesc0 n) :
    Serves beyond s s1 .stringDesc0 n (descSteps s.speed .stringDesc0 n) := by
  have hle : 4 ≤ n := hn
  have hsteps : descSteps s.speed .stringDesc0 n = 1 := by cases s.speed <;> rfl
  rw [hsteps]
  have hlen : (storage s .stringDesc0).length = 4 := rfl
  refine serves_single (m := 4) ?_ hsub (inside_of_le (by omega)) (.inr ⟨?_, ?_⟩)
  · simp only [transferEp0, hst, Ep0.send]
  · cases hs : s.speed <;> rw [Ep0.ctrlMaxPktsize, hs] <;> decide
  · omega

theorem serves_qualifier (hst : s1.ep0State = .gdDevQualifier) (hsub : s1.ep0Substate = 0)
    (hreq : s1.reqLength = n) (hn : Served s.speed .qualifierDesc n) :
    Serves beyond s s1 .qualifierDesc n (descSteps s.speed .qualifierDesc n) := by
  have hle : n ≤ 8 := hn
  have hsteps : descSteps s.speed .qualifierDesc n = 1 := by cases s.speed <;> rfl
  have hlen : (storage s .qualifierDesc).length = 10 := rfl
  rw [hsteps]
  refine serves_single (m := min n 10) ?_ hsub ?_ (.inl (by omega))
  · simp only [transferEp0, hst, Ep0.send, hreq]
  · show 0 + 4 * ((min n 10 + 3) / 4) ≤ _
    omega

/-- The other-speed configuration, at high speed: 32 bytes or none. -/
theorem serves_otherSpeed (hst : s1.ep0State = .gdOtherSpeed) (hspeed : s1.speed = s.speed)
    (hsub : s1.ep0Substate = 0) (hreq : s1.reqLength = n) (hs : s.speed = .high)
    (hn : n = 32 ∨ n = 0) : Serves beyond s s1 .configFullTotal n 1 := by
  rcases hn with rfl | rfl
  · have hlen : (storage s .configFullTotal).length = 32 := rfl
    refine serves_single (m := 32) ?_ hsub (inside_of_le (by omega)) (.inl rfl)
    simp only [transferEp0, hst, setOtherspeedConfDesc, hspeed, hs, hreq]
    rfl
  · refine ⟨[.nak], 1, Path.single ?_ hsub, rfl, by omega, inside_cons trivial (by simp), ?_⟩
    · simp only [transferEp0, hst, setOtherspeedConfDesc, hspeed, hs, hreq]
      rfl
    · refine Stage.nak ?_
      show Stage _ _ _ [] [.zlp] ([] ++ Out.zlp.bytes beyond s)
      exact Stage.last (by simp) (.inl (Nat.zero_le _))

/-- The product string: 44 bytes, at full speed in six packets. -/
theorem serves_string2 (hst : s1.ep0State = .gdStrI2) (hspeed : s1.speed = s.speed)
    (hsub : s1.ep0Substate = 0) (hn : Served s.speed .stringDesc2 n) :
    Serves beyond s s1 .stringDesc2 n (descSteps s.speed .stringDesc2 n) := by
  have hle : 44 ≤ n := hn
  have hlen : (storage s .stringDesc2).length = 44 := rfl
  cases hs : s.speed with
  | high =>
    refine serves_single (m := 44) ?_ hsub (inside_of_le (by omega)) (.inr ⟨?_, ?_⟩)
    · simp only [transferEp0, hst, sendString, Ep0.ctrlMaxPktsize, hspeed, hs, hsub, ctrlPktSize]
      norm_num
    · rw [Ep0.ctrlMaxPktsize, hs]
      decide
    · omega
  | full =>
    have hmps : s.ctrlMaxPktsize = 8 := by rw [Ep0.ctrlMaxPktsize, hs]; rfl
    -- one packet of the string, with `k` sent before
    have hstep : ∀ k, k < 5 → ∀ os : List Out,
        Path { s1 with ep0Substate := k + 1 } os →
        Path { s1 with ep0Substate := k } (.packet .stringDesc2 (8 * k) 8 :: os) := by
      intro k hk os h
      refine Path.of_eq ?_ h
      simp only [transferEp0, hst, sendString, Ep0.ctrlMaxPktsize, hspeed, hs, ctrlPktSize]
      rw [if_pos (by omega), Nat.mul_comm]
    have hlast : Path { s1 with ep0Substate := 5 } [.packet .stringDesc2 40 4] := by
      refine Path.of_eq ?_ (Path.nil (s := { s1 with ep0State := .init, ep0Substate := 0 }) ⟨rfl, rfl⟩)
      simp only [transferEp0, hst, sendString, Ep0.ctrlMaxPktsize, hspeed, hs, ctrlPktSize]
      norm_num
    have hfirst : s1 = { s1 with ep0Substate := 0 } := by rw [← hsub]
    refine ⟨[.packet .stringDesc2 0 8, .packet .stringDesc2 8 8, .packet .stringDesc2 16 8,
      .packet .stringDesc2 24 8, .packet .stringDesc2 32 8, .packet .stringDesc2 40 4], 0, ?_, rfl,
      Nat.le_refl 6, ?_, ?_⟩
    · rw [hfirst]
      exact hstep 0 (by omega) _ (hstep 1 (by omega) _ (hstep 2 (by omega) _ (hstep 3 (by omega) _
        (hstep 4 (by omega) _ hlast))))
    · have hin : ∀ off num, off + 4 * ((num + 3) / 4) ≤ 44 →
          (Out.packet .stringDesc2 off num).Inside s := fun _ _ h => inside_of_le (by omega)
      exact inside_cons (hin 0 8 (by omega)) (inside_cons (hin 8 8 (by omega))
        (inside_cons (hin 16 8 (by omega)) (inside_cons (hin 24 8 (by omega))
          (inside_cons (hin 32 8 (by omega)) (inside_cons (hin 40 4 (by omega)) (by simp))))))
    · rw [hmps]
      refine Stage.part 0 8 (by omega) (by omega) ?_
      refine Stage.part 8 8 (by omega) (by omega) ?_
      refine Stage.part 16 8 (by omega) (by omega) ?_
      refine Stage.part 24 8 (by omega) (by omega) ?_
      refine Stage.part 32 8 (by omega) (by omega) ?_
      exact Stage.finish (by omega) (.inr (by omega))

end Chains

/-! ## One transfer -/

section Transfer

variable {s : Ep0} {r : DeviceReq} {src : Src} (beyond : Src → ℕ → Byte)

theorem ep0IntHndlr_desc (h : s.Idle) (hr : r.bRequest = 6) : ep0IntHndlr r s = getDesc r s := by
  rw [ep0IntHndlr, if_pos (show s.Parses from h.state), hr]
  rfl

/-- A request for a descriptor that is served. -/
theorem serves_requested (h : s.Idle) (hreq : requested s.speed r = some src)
    (hserved : Served s.speed src r.wLength) :
    Serves beyond s (ep0IntHndlr r s) src r.wLength (descSteps s.speed src r.wLength) := by
  unfold requested at hreq
  split at hreq
  · cases hreq
  · rename_i hr
    rw [ep0IntHndlr_desc h (not_not.mp hr), getDesc]
    split at hreq
    · cases hreq
      exact serves_dev rfl rfl h.substate rfl hserved
    · cases hreq
      by_cases hlt : 9 < r.wLength
      · exact serves_cfg (if_pos hlt) rfl h.substate rfl hserved hlt
      · exact serves_cfgOnly (if_neg hlt) rfl h.substate rfl hserved (by omega)
    · split at hreq
      · cases hreq
        exact serves_string0 rfl h.substate hserved
      · cases hreq
        cases s.speed <;> exact absurd hserved (by simp [Served])
      · cases hreq
        exact serves_string2 rfl rfl h.substate hserved
      · cases hreq
    · split at hreq
      · cases hreq
        cases s.speed <;> exact absurd hserved (by simp [Served])
      · cases hreq
        cases s.speed <;> exact absurd hserved (by simp [Served])
      · cases hreq
    · cases hreq
      exact serves_qualifier rfl h.substate rfl hserved
    · split at hreq
      · rename_i hs
        cases hreq
        have hn : r.wLength = 32 ∨ r.wLength = 0 := by simpa only [Served, hs] using hserved
        have hsteps : descSteps s.speed .configFullTotal r.wLength = 1 := by rw [hs]; rfl
        rw [hsteps]
        exact serves_otherSpeed rfl rfl h.substate rfl hs hn
      · rename_i hs
        cases hreq
        exact absurd hserved (by simp [Served])
    · cases hreq

theorem not_inString (st : Ep0State) (h : s.ep0State = st) (hst : st ≠ .gdStrI1 ∧ st ≠ .gdStrI2) :
    ¬ s.InString := by
  rintro (hin | hin)
  · exact hst.1 (h.symm.trans hin)
  · exact hst.2 (h.symm.trans hin)

theorem feature_idle (h : s.Idle) (on : Bool) : (feature r on s).Idle := by
  refine ⟨rfl, ?_⟩
  unfold feature
  split
  · split
    · exact h.substate
    · exact h.substate
  · split
    · exact h.substate
    · exact h.substate
  · exact h.substate

/-- A descriptor the driver does not decode. -/
theorem getDesc_undecoded (hr : r.bRequest = 6) (hreq : requested s.speed r = none) :
    getDesc r s = s := by
  unfold requested at hreq
  rw [if_neg (not_not.mpr hr)] at hreq
  unfold getDesc
  split at hreq
  · cases hreq
  · cases hreq
  · split at hreq
    · cases hreq
    · cases hreq
    · cases hreq
    · rfl
  · split at hreq
    · cases hreq
    · cases hreq
    · rfl
  · cases hreq
  · split at hreq
    · cases hreq
    · cases hreq
  · rfl

/-- A request that leaves nothing to send. -/
theorem path_idle {speed : Speed} {s' : Ep0} (hs' : s'.Idle) (hchain : chain speed r = 0) :
    ∃ os, Path s' os ∧ os.length = chain speed r ∧ ¬ s'.InString :=
  ⟨[], Path.nil hs', hchain.symm, not_inString _ hs'.state (by decide)⟩

/-- A request that is answered by one packet. -/
theorem path_single {speed : Speed} (st : Ep0State) {s' : Ep0} {o : Out}
    (htr : transferEp0 s' = ({ s' with ep0State := .init }, o)) (hsub : s'.ep0Substate = 0)
    (hst : s'.ep0State = st) (hne : st ≠ .gdStrI1 ∧ st ≠ .gdStrI2) (hchain : chain speed r = 1) :
    ∃ os, Path s' os ∧ os.length = chain speed r ∧ ¬ s'.InString :=
  ⟨[o], Path.single htr hsub, hchain.symm, not_inString _ hst hne⟩

/-- The packets of a request for no descriptor. -/
theorem chain_other {speed : Speed} (hreq : requested speed r = none) :
    chain speed r = if r.bRequest.toNat = UInt8.toNat 10 then 1
      else if r.bRequest.toNat = UInt8.toNat 0 ∧ (r.bmRequestType.toNat = UInt8.toNat 0x80 ∨
        r.bmRequestType.toNat = UInt8.toNat 0x81 ∨ r.bmRequestType.toNat = UInt8.toNat 0x82 ∧
          r.wIndexL.toNat % 128 ≤ 2) then 1 else 0 := by
  simp only [UInt8.toNat_inj]
  rw [chain, hreq]

/-- GET_STATUS, for each of its recipients. -/
theorem path_getStatus (h : s.Idle) (hreq : requested s.speed r = none)
    (hr : r.bRequest.toNat = 0) :
    ∃ os, Path (getStatus r s) os ∧ os.length = chain s.speed r ∧ ¬ (getStatus r s).InString := by
  have hchain := chain_other hreq
  unfold getStatus
  split
  · rename_i hm
    exact path_single .getStatus0 rfl h.substate rfl (by decide) (by simp [hchain, hr, hm])
  · rename_i hm
    exact path_single .getStatus1 rfl h.substate rfl (by decide) (by simp [hchain, hr, hm])
  · rename_i hm
    split
    · rename_i hw
      exact path_single .getStatus2 rfl h.substate rfl (by decide) (by simp [hchain, hr, hm, hw])
    · rename_i hw
      exact path_single .getStatus3 rfl h.substate rfl (by decide) (by simp [hchain, hr, hm, hw])
    · rename_i hw
      exact path_single .getStatus4 rfl h.substate rfl (by decide) (by simp [hchain, hr, hm, hw])
    · rename_i hw0 hw1 hw2
      refine path_idle h ?_
      have hw : ¬ r.wIndexL.toNat % 128 ≤ 2 := by
        intro hle
        have hcase : r.wIndexL.toNat % 128 = 0 ∨ r.wIndexL.toNat % 128 = 1 ∨
          r.wIndexL.toNat % 128 = 2 := by omega
        rcases hcase with hw | hw | hw
        · exact hw0 hw
        · exact hw1 hw
        · exact hw2 hw
      simp [hchain, hr, hm, hw]
  · rename_i hm0 hm1 hm2
    refine path_idle h ?_
    rw [hchain, if_neg (by rw [hr]; decide), if_neg]
    rintro ⟨-, hm | hm | ⟨hm, -⟩⟩
    · exact hm0 hm
    · exact hm1 hm
    · exact hm2 hm

/-- The chain of any other request. -/
theorem path_other (h : s.Idle) (hreq : requested s.speed r = none) :
    ∃ os, Path (ep0IntHndlr r s) os ∧ os.length = chain s.speed r ∧
      ¬ (ep0IntHndlr r s).InString := by
  have hchain := chain_other hreq
  rw [ep0IntHndlr, if_pos (show s.Parses from h.state)]
  split
  · rename_i hr
    exact path_getStatus h hreq hr
  · rename_i hr
    exact path_idle (feature_idle h _) (by simp [hchain, hr])
  · rename_i hr
    exact path_idle (feature_idle h _) (by simp [hchain, hr])
  · rename_i hr
    exact path_idle ⟨rfl, h.substate⟩ (by simp [hchain, hr])
  · rename_i hr
    rw [getDesc_undecoded (UInt8.toNat_inj.mp hr) hreq]
    exact path_idle h (by simp [hchain, hr])
  · rename_i hr
    exact path_idle ⟨rfl, h.substate⟩ (by simp [hchain, hr])
  · rename_i hr
    exact path_idle ⟨rfl, h.substate⟩ (by simp [hchain, hr])
  · rename_i hr
    exact path_single .interfaceGet rfl h.substate rfl (by decide) (by simp [hchain, hr])
  · rename_i hr
    exact path_idle ⟨rfl, h.substate⟩ (by simp [hchain, hr])
  · rename_i hr
    exact path_idle ⟨rfl, h.substate⟩ (by simp [hchain, hr])
  · rename_i h0 h1 h3 h5 h6 h9 h8 h10 h11 h12
    refine path_idle h ?_
    rw [hchain, if_neg (show ¬ r.bRequest.toNat = UInt8.toNat 10 from h10), if_neg]
    rintro ⟨hr, -⟩
    exact h0 hr

/-- Only the strings start with the substate in use. -/
theorem not_inString_desc (h : s.Idle) (hreq : requested s.speed r = some src)
    (h1 : src ≠ .stringDesc1) (h2 : src ≠ .stringDesc2) : ¬ (ep0IntHndlr r s).InString := by
  unfold requested at hreq
  split at hreq
  · cases hreq
  · rename_i hr
    rw [ep0IntHndlr_desc h (not_not.mp hr), getDesc]
    split at hreq
    · exact not_inString .gdDev0 rfl (by decide)
    · by_cases hlt : 9 < r.wLength
      · exact not_inString _ (if_pos hlt) (by decide)
      · exact not_inString _ (if_neg hlt) (by decide)
    · split at hreq
      · exact not_inString .gdStrI0 rfl (by decide)
      · cases hreq
        exact absurd rfl h1
      · cases hreq
        exact absurd rfl h2
      · cases hreq
    · split at hreq
      · exact not_inString .gdEp0Only0 rfl (by decide)
      · exact not_inString .gdEp1Only0 rfl (by decide)
      · cases hreq
    · exact not_inString .gdDevQualifier rfl (by decide)
    · exact not_inString .gdOtherSpeed rfl (by decide)
    · cases hreq

/-- A SETUP packet keeps the speed and the substate. -/
theorem ep0IntHndlr_keeps :
    (ep0IntHndlr r s).speed = s.speed ∧ (ep0IntHndlr r s).ep0Substate = s.ep0Substate := by
  have hstatus : (getStatus r s).speed = s.speed ∧ (getStatus r s).ep0Substate = s.ep0Substate := by
    unfold getStatus
    repeat' split
    all_goals exact ⟨rfl, rfl⟩
  have hfeature : ∀ on, (feature r on s).speed = s.speed ∧
      (feature r on s).ep0Substate = s.ep0Substate := by
    intro on
    unfold feature
    repeat' split
    all_goals exact ⟨rfl, rfl⟩
  have hdesc : (getDesc r s).speed = s.speed ∧ (getDesc r s).ep0Substate = s.ep0Substate := by
    unfold getDesc
    repeat' split
    all_goals exact ⟨rfl, rfl⟩
  unfold ep0IntHndlr
  split
  · split
    · exact hstatus
    · exact hfeature _
    · exact hfeature _
    · exact ⟨rfl, rfl⟩
    · exact hdesc
    all_goals exact ⟨rfl, rfl⟩
  · exact ⟨rfl, rfl⟩

theorem sendString_speed {src : Src} {size : ℕ} : (sendString s src size).1.speed = s.speed := by
  simp only [sendString]
  split
  · rfl
  · rfl

/-- An IN token keeps the speed. -/
theorem transferEp0_speed : (transferEp0 s).1.speed = s.speed := by
  unfold transferEp0 setOtherspeedConfDesc Ep0.sendPart
  repeat' split
  all_goals first
    | rfl
    | exact sendString_speed

theorem inTokens_speed (k : ℕ) : ∀ {s : Ep0}, (inTokens k s).1.speed = s.speed := by
  induction k with
  | zero =>
    intro s
    rfl
  | succ k ih =>
    intro s
    simp only [inTokens]
    rw [ih, transferEp0_speed]

/-- The packets of a path stay inside the objects, and so do the empty ones behind it. -/
theorem inside_take {os : List Out} {k : ℕ} (hos : ∀ o ∈ os, o.Inside s) :
    ∀ o ∈ (os ++ List.replicate k Out.zlp).take k, o.Inside s := by
  intro o ho
  rcases List.mem_append.mp (List.mem_of_mem_take ho) with ho | ho
  · exact hos o ho
  · rw [(List.mem_replicate.mp ho).2]
    exact trivial

/-- Of empty packets behind a stage, one more or less makes no difference. -/
theorem take_zlps (os : List Out) (j n : ℕ) :
    (os ++ List.replicate n Out.zlp).take n =
      ((os ++ List.replicate j Out.zlp) ++ List.replicate n Out.zlp).take n := by
  rw [List.append_assoc, ← List.replicate_add, List.take_append, List.take_append]
  congr 1
  rw [List.take_replicate, List.take_replicate]
  congr 1
  omega

/-- A descriptor that is sent leaves no string half sent. -/
theorem inTokens_served {t : Transfer} {os : List Out} (h : s.Idle) (hmeets : t.Meets s.speed)
    (hreq : requested s.speed t.req = some src) (hpath : Path (ep0IntHndlr t.req s) os)
    (hchain : chain s.speed t.req = os.length) :
    (inTokens t.tokens (ep0IntHndlr t.req s)).1.ep0Substate = 0 := by
  by_cases hstring : src = .stringDesc2
  · by_cases htok : t.tokens = 0
    · rw [htok]
      exact ep0IntHndlr_keeps.2.trans h.substate
    · have hle := hmeets.string (by rw [hreq, hstring]) htok
      exact ((hpath.inTokens _).2 (by rw [← hchain]; exact hle)).substate
  · have hstring1 : src ≠ .stringDesc1 := by
      rintro rfl
      have hserved := hmeets.served _ hreq
      cases s.speed <;> exact absurd hserved (by simp [Served])
    rw [inTokens_substate _ (not_inString_desc h hreq hstring1 hstring), ep0IntHndlr_keeps.2]
    exact h.substate

/-- A transfer that meets the condition is right, and leaves the endpoint idle. -/
theorem transfer_good {t : Transfer} (h : s.Idle) (hmeets : t.Meets s.speed) :
    t.Good beyond s ∧ (t.finish s).Idle ∧ (t.finish s).speed = t.nextSpeed s.speed := by
  have hspeed : (t.finish s).speed = t.nextSpeed s.speed := by
    unfold Transfer.finish Transfer.nextSpeed
    cases t.ending with
    | setup => exact (inTokens_speed _).trans ep0IntHndlr_keeps.1
    | reset speed => rfl
  -- a bus reset only needs the substate to be zero
  have hfinish : (t.ending = .setup → (inTokens t.tokens (ep0IntHndlr t.req s)).1.Idle) →
      (inTokens t.tokens (ep0IntHndlr t.req s)).1.ep0Substate = 0 → (t.finish s).Idle := by
    intro hsetup hsub
    unfold Transfer.finish
    cases hend : t.ending with
    | setup => exact hsetup hend
    | reset speed => exact ⟨rfl, hsub⟩
  cases hreq : requested s.speed t.req with
  | none =>
    obtain ⟨os, hpath, hlen, hin⟩ := path_other h hreq
    refine ⟨⟨h.state, ?_, ?_⟩, hfinish ?_ ?_, hspeed⟩
    · intro src hsrc
      rw [hreq] at hsrc
      cases hsrc
    · intro src hsrc
      rw [hreq] at hsrc
      cases hsrc
    · intro hend
      exact (hpath.inTokens _).2 (by rw [hlen]; exact hmeets.setup hend)
    · rw [inTokens_substate _ hin, ep0IntHndlr_keeps.2]
      exact h.substate
  | some src =>
    obtain ⟨os, j, hpath, hlen, hsix, hinside, hstage⟩ :=
      serves_requested beyond h hreq (hmeets.served src hreq)
    have hchain : chain s.speed t.req = os.length := by rw [chain, hreq, hlen]
    have houts : t.outs s = (os ++ List.replicate t.tokens Out.zlp).take t.tokens :=
      (hpath.inTokens _).1
    refine ⟨⟨h.state, ?_, ?_⟩, hfinish ?_ ?_, hspeed⟩
    · intro src' hsrc'
      rw [hreq] at hsrc'
      cases hsrc'
      obtain ⟨d, hfold, hprefix, hall⟩ := hstage.take (List.replicate t.tokens .zlp) t.tokens
      refine ⟨d, decide ((os ++ List.replicate j Out.zlp).length ≤ t.tokens), ?_, hprefix, ?_, ?_⟩
      · rw [houts, take_zlps os j]
        exact hfold
      · intro hdone
        exact hall (of_decide_eq_true hdone)
      · intro htok
        refine decide_eq_true ?_
        rw [List.length_append, List.length_replicate, hlen]
        omega
    · intro src' _ o ho
      rw [houts] at ho
      exact inside_take hinside o ho
    · intro hend
      exact (hpath.inTokens _).2 (by rw [← hchain]; exact hmeets.setup hend)
    · exact inTokens_served h hmeets hreq hpath hchain

/-- Run lemma of `transfer_good`. -/
theorem run_good {ts : List Transfer} : ∀ {s : Ep0}, s.Idle → RunMeets s.speed ts →
    ∀ pre t post, ts = pre ++ t :: post → t.Good beyond (run s pre) := by
  induction ts with
  | nil =>
    intro s _ _ pre t post heq
    simp at heq
  | cons t ts ih =>
    intro s h hmeets pre t' post heq
    obtain ⟨hgood, hidle, hspeed⟩ := transfer_good beyond h hmeets.1
    cases pre with
    | nil =>
      cases heq
      exact hgood
    | cons p pre =>
      cases heq
      exact ih hidle (by rw [hspeed]; exact hmeets.2) pre t' post rfl

end Transfer

/-- In a run whose transfers ask for what is served and let the chains through, every
    SETUP packet is read, the host receives what it asks for, and the driver reads
    nothing outside the descriptors. -/
theorem control_serves (beyond : Src → ℕ → Byte) {s : Ep0} (h : s.Idle) {ts : List Transfer}
    (hmeets : RunMeets s.speed ts) {pre post : List Transfer} {t : Transfer}
    (heq : ts = pre ++ t :: post) : t.Good beyond (run s pre) :=
  run_good beyond h hmeets pre t post heq

/-! ## A completed transfer after which the endpoint is deaf -/

/-- GET_DESCRIPTOR for `wLength` bytes of the device descriptor. -/
def getDevice (wLength : Byte) : DeviceReq := ⟨0x80, 6, 0, 1, 0, 0, wLength, 0⟩

/-- The endpoint after the bus came up at `speed`. -/
def Ep0.fresh (speed : Speed) : Ep0 :=
  ⟨speed, .init, 0, 0, false, 0, false, ⟨0, 0, 0, 0, 0⟩, 0⟩

/-- A full-speed host asks for eight bytes and gets them; its next SETUP packet is not
    read. -/
theorem getDevice_deaf (beyond : Src → ℕ → Byte) :
    let t : Transfer := ⟨getDevice 8, 1, .setup⟩
    dataStage 8 8 (Out.bytes beyond (.fresh .full)) (t.outs (.fresh .full)) =
        ((deviceDesc .full).take 8, true) ∧
      ¬ (run (.fresh .full) [t]).Parses := by
  exact ⟨rfl, by decide⟩

/-- So the transfer behind it is not right. -/
theorem getDevice_not_good :
    ¬ ∀ (beyond : Src → ℕ → Byte) (s : Ep0) (ts pre post : List Transfer) (t : Transfer), s.Idle →
      ts = pre ++ t :: post → t.Good beyond (run s pre) := by
  intro h
  have hgood := h (fun _ _ => 0) (.fresh .full)
    [⟨getDevice 8, 1, .setup⟩, ⟨getDevice 18, 3, .setup⟩] [⟨getDevice 8, 1, .setup⟩] []
    ⟨getDevice 18, 3, .setup⟩ ⟨rfl, rfl⟩ rfl
  exact absurd hgood.parses (by decide)

/-- `control_serves` of a run at both speeds: seven bytes of the device descriptor, then
    a bus reset, then the first sixteen. -/
theorem control_serves_getDevice :
    Transfer.Good (fun _ _ => 0) (run (.fresh .full) [⟨getDevice 7, 1, .reset .high⟩])
      ⟨getDevice 16, 1, .setup⟩ := by
  have hmeets : RunMeets (Ep0.fresh .full).speed
      ([⟨getDevice 7, 1, .reset .high⟩] ++ ⟨getDevice 16, 1, .setup⟩ :: []) := ⟨?_, ?_, trivial⟩
  · exact control_serves (fun _ _ => 0) ⟨rfl, rfl⟩ hmeets rfl
  · refine ⟨?_, fun _ => by decide, fun h => by cases h⟩
    intro src h
    cases h
    exact ⟨by decide, by decide⟩
  · refine ⟨?_, fun _ => by decide, fun h => by cases h⟩
    intro src h
    cases h
    exact (by decide : DeviceReq.wLength (getDevice 16) ≤ 16)

end SmartQ.Usb.Control
