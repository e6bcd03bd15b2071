import Mathlib.Data.List.OfFn
import SmartQ.Usb.Printf

/-!
# The console on the framebuffer

Model of `blit_char`, `goNewLine`, `fb_putc` and `fb_init` in
`qi-usb-lcd/src/cpu/s3c6410/fbwrite.c` with the font of 6 by 8 pixels. The state keeps every
access in a trace: the cursor at a character that is drawn, the font bytes read and the pixels
written, these as indices into `fonts` and `fb`.

* `fbPutc_onScreen`: what one character keeps.
* `background_onScreen`: what `fb_init` itself fills.
* `console_onScreen`: all that the calls draw is on the screen.
-/

namespace SmartQ.Usb.FbWrite

open SmartQ.Lib

/-! ## Model -/

/-- An access of the console: the drawing of a character, a byte of the font, a pixel, or the
    blinking of the LED. -/
inductive Access
  | draw (x y : ℕ)
  | font (n : ℕ)
  | pixel (n : ℤ) (color : ℕ)
  | ledBlink
  deriving DecidableEq

/-- `struct fbinfo`, and the accesses so far. -/
structure FbInfo where
  fb : ℕ
  scrx : ℕ
  scry : ℕ
  x : ℕ
  y : ℕ
  maxx : ℕ
  maxy : ℕ
  color : ℕ
  trace : List Access

/-- Record accesses to the frame buffer behind the ones made before. -/
def FbInfo.access (fbi : FbInfo) (as : List Access) : FbInfo :=
  { fbi with trace := fbi.trace ++ as }

/-- The loops of `blit_char` (lines 167–173). -/
def glyph (fonts : ℕ → Byte) (font fbpos scrx color : ℕ) : List Access :=
  (List.range 8).flatMap fun y => (List.range 6).flatMap fun x =>
    .font (font + y) ::
      if (fonts (font + y)).toNat &&& 1 <<< (6 - x - 1) ≠ 0 then
        [.pixel (fbpos + y * scrx + x : ℕ) color]
      else []

/-- `blit_char` (lines 143–175): the glyph of a character is drawn, unless its place is off the
    screen. -/
def blitChar (fonts : ℕ → Byte) (fbi : FbInfo) (c : Byte) : FbInfo :=
  let drawn := fbi.access [.draw fbi.x fbi.y]
  if fbi.x > fbi.maxx ∨ fbi.y > fbi.maxy then drawn.access [.ledBlink]
  else if c &&& 0x80 ≠ 0 then drawn
  else drawn.access (glyph fonts (c.toNat * 8)
    ((fbi.y * 8 * fbi.scrx + fbi.x * 6) % 2 ^ 32) fbi.scrx fbi.color)

/-- `goNewLine`: the cursor goes to the next line, or back to the start of the last one. -/
def goNewLine (fbi : FbInfo) : FbInfo :=
  if fbi.y < fbi.maxy - 1 then { fbi with x := 0, y := (fbi.y + 1) % 2 ^ 16 }
  else { fbi with x := 0 }

/-- `fb_putc`: a character is drawn and the cursor moves on, into the next line at the end of
    one. -/
def fbPutc (fonts : ℕ → Byte) (fbi : FbInfo) (c : Byte) : FbInfo :=
  if c = 10 then goNewLine fbi
  else
    let fbi := blitChar fonts fbi c
    let fbi := { fbi with x := (fbi.x + 1) % 2 ^ 16 }
    if fbi.x ≥ fbi.maxx then goNewLine fbi else fbi

/-- `fb_printf`: nothing happens before the frame buffer is set up. -/
def fbPrintf (fonts : ℕ → Byte) (fbi : FbInfo) (fmt : List Byte) (args : List Arg) :
    Option FbInfo :=
  if fbi.fb = 0 then some fbi
  else Prod.fst <$> printfLoop (fbPutc fonts) (fmt ++ [0]) args fbi

/-- `memset16` of `n` pixels from `p` on. -/
def memset16 (p : ℤ) (c n : ℕ) : List Access :=
  (List.range n).map fun i : ℕ => .pixel (p + i) c

/-- What `fb_init` fills (lines 477–482). -/
def background : List Access :=
  memset16 0 0x7c00 (800 * 480) ++
    (List.range 480).flatMap fun val : ℕ =>
      memset16 ((val : ℤ) * 800 + val) 0 1 ++ memset16 ((480 - (val : ℤ) - 1) * 800 - val) 0 1

/-- The text of `fb_init`. -/
def banner : List Byte :=
  [77, 97, 103, 105, 99, 83, 68, 32, 81, 105, 32, 85, 83, 66, 32, 118, 49, 46, 48, 10]

/-- The console that `fb_init` sets up, before its text (lines 359–520). -/
def fbSetup : FbInfo where
  fb := 0x5ff00000
  scrx := 800
  scry := 480
  x := 0
  y := 0
  maxx := 133
  maxy := 60
  color := 0x7fff
  trace := background

/-- `fb_init`: the frame buffer is set up and cleared, and the banner written. -/
def fbInit (fonts : ℕ → Byte) : FbInfo := fbPuts (fbPutc fonts) fbSetup banner

/-- A call of the console. -/
inductive Call
  | putc (c : Byte)
  | puts (s : List Byte)
  | printf (fmt : List Byte) (args : List Arg)

/-- A call of the console; it has no value where `printf` reads arguments that are not there. -/
def Call.run (fonts : ℕ → Byte) (fbi : FbInfo) : Call → Option FbInfo
  | putc c => some (fbPutc fonts fbi c)
  | puts s => some (fbPuts (fbPutc fonts) fbi s)
  | printf fmt args => fbPrintf fonts fbi fmt args

/-- A format that ends where it should, with arguments of its types. -/
def Call.WellFormed : Call → Prop
  | putc _ => True
  | puts _ => True
  | printf fmt args => 0 ∉ fmt ∧ ¬ Lone fmt ∧ (render (items fmt) args).isSome

/-! ## What is on the screen -/

/-- The access is inside what it is made to. -/
def Access.OnScreen : Access → Prop
  | .draw x y => x < 133 ∧ y < 60
  | .font n => n < 128 * 8
  | .pixel n _ => 0 ≤ n ∧ n < 800 * 480
  | .ledBlink => False

/-- The geometry is as `fb_init` sets it and the cursor is on the screen. -/
structure Inv (fbi : FbInfo) : Prop where
  fb : fbi.fb ≠ 0
  scrx : fbi.scrx = 800
  maxx : fbi.maxx = 133
  maxy : fbi.maxy = 60
  x : fbi.x < 133
  y : fbi.y < 60

/-- From the one state to the other all accesses are on the screen. -/
def Draws (fbi fbi' : FbInfo) : Prop :=
  Inv fbi' ∧ ∃ as, fbi'.trace = fbi.trace ++ as ∧ ∀ a ∈ as, a.OnScreen

section OnScreen

theorem Draws.trans {fbi fbi' fbi'' : FbInfo} (h : Draws fbi fbi') (h' : Draws fbi' fbi'') :
    Draws fbi fbi'' := by
  obtain ⟨_, as, has, hscreen⟩ := h
  obtain ⟨hinv, as', has', hscreen'⟩ := h'
  refine ⟨hinv, as ++ as', ?_, ?_⟩
  · rw [has', has, List.append_assoc]
  · intro a ha
    exact (List.mem_append.mp ha).elim (hscreen a) (hscreen' a)

theorem Draws.refl {fbi : FbInfo} (h : Inv fbi) : Draws fbi fbi :=
  ⟨h, [], (List.append_nil _).symm, fun _ ha => absurd ha List.not_mem_nil⟩

/-- A glyph of the font at a place of the screen. -/
theorem glyph_onScreen (fonts : ℕ → Byte) {c x y : ℕ} (color : ℕ) (hc : c < 128)
    (hx : x < 133) (hy : y < 60) {a : Access}
    (ha : a ∈ glyph fonts (c * 8) (y * 8 * 800 + x * 6) 800 color) : a.OnScreen := by
  obtain ⟨row, hrow, ha⟩ := List.mem_flatMap.mp ha
  obtain ⟨col, hcol, ha⟩ := List.mem_flatMap.mp ha
  rw [List.mem_range] at hrow hcol
  rcases List.mem_cons.mp ha with rfl | ha
  · show c * 8 + row < 128 * 8
    omega
  · split_ifs at ha
    · obtain rfl := List.mem_singleton.mp ha
      constructor
      · exact Int.natCast_nonneg _
      · show ((y * 8 * 800 + x * 6 + row * 800 + col : ℕ) : ℤ) < 800 * 480
        omega
    · exact absurd ha List.not_mem_nil

theorem toNat_lt_of_and {c : Byte} (h : ¬ c &&& 0x80 ≠ 0) : c.toNat < 128 := by
  have hand := congrArg UInt8.toNat (not_not.mp h)
  rw [UInt8.toNat_and] at hand
  have hbit : c.toNat.testBit 7 = false := by
    have h7 := congrArg (Nat.testBit · 7) hand
    simp only [Nat.testBit_and] at h7
    rw [show (0x80 : Byte).toNat.testBit 7 = true from rfl, Bool.and_true] at h7
    exact h7
  have hlt := UInt8.toNat_lt c
  rw [Nat.testBit_eq_decide_div_mod_eq, decide_eq_false_iff_not] at hbit
  omega

/-- `blit_char` moves no cursor. -/
theorem blitChar_draws (fonts : ℕ → Byte) {fbi : FbInfo} (h : Inv fbi) (c : Byte) :
    Draws fbi (blitChar fonts fbi c) ∧ (blitChar fonts fbi c).x = fbi.x ∧
      (blitChar fonts fbi c).y = fbi.y := by
  have hdraw : ∀ as, (∀ a ∈ as, a.OnScreen) →
      Draws fbi ((fbi.access [.draw fbi.x fbi.y]).access as) := by
    intro as has
    refine ⟨⟨h.fb, h.scrx, h.maxx, h.maxy, h.x, h.y⟩, .draw fbi.x fbi.y :: as, ?_, ?_⟩
    · exact List.append_assoc _ _ _
    · intro a ha
      rcases List.mem_cons.mp ha with rfl | ha
      · exact ⟨h.x, h.y⟩
      · exact has a ha
  have hx := h.x
  have hy := h.y
  have hmaxx := h.maxx
  have hmaxy := h.maxy
  unfold blitChar
  simp only
  rw [if_neg (show ¬ (fbi.x > fbi.maxx ∨ fbi.y > fbi.maxy) by omega)]
  by_cases hc : c &&& 0x80 ≠ 0
  · rw [if_pos hc]
    refine ⟨?_, rfl, rfl⟩
    have hkeep := hdraw [] fun _ ha => absurd ha List.not_mem_nil
    rwa [FbInfo.access, List.append_nil] at hkeep
  · rw [if_neg hc]
    refine ⟨hdraw _ ?_, rfl, rfl⟩
    intro a ha
    have hplace : (fbi.y * 8 * fbi.scrx + fbi.x * 6) % 2 ^ 32 =
        fbi.y * 8 * 800 + fbi.x * 6 := by
      rw [h.scrx]
      omega
    refine glyph_onScreen fonts fbi.color (toNat_lt_of_and hc) h.x h.y ?_
    show a ∈ glyph fonts (c.toNat * 8) (fbi.y * 8 * 800 + fbi.x * 6) 800 fbi.color
    rw [hplace, h.scrx] at ha
    exact ha

theorem goNewLine_inv {fbi : FbInfo} (hfb : fbi.fb ≠ 0) (hscrx : fbi.scrx = 800)
    (hmaxx : fbi.maxx = 133) (hmaxy : fbi.maxy = 60) (hy : fbi.y < 60) :
    Inv (goNewLine fbi) := by
  unfold goNewLine
  split_ifs with hlast
  · refine ⟨hfb, hscrx, hmaxx, hmaxy, Nat.zero_lt_succ _, ?_⟩
    show (fbi.y + 1) % 2 ^ 16 < 60
    omega
  · exact ⟨hfb, hscrx, hmaxx, hmaxy, Nat.zero_lt_succ _, hy⟩

theorem goNewLine_trace (fbi : FbInfo) : (goNewLine fbi).trace = fbi.trace := by
  unfold goNewLine
  split_ifs
  · rfl
  · rfl

/-- One character, at any place of the screen. -/
theorem fbPutc_onScreen (fonts : ℕ → Byte) {fbi : FbInfo} (h : Inv fbi) (c : Byte) :
    Draws fbi (fbPutc fonts fbi c) := by
  unfold fbPutc
  by_cases hc : c = 10
  · rw [if_pos hc]
    refine ⟨goNewLine_inv h.fb h.scrx h.maxx h.maxy h.y, [], ?_, fun _ ha =>
      absurd ha List.not_mem_nil⟩
    rw [goNewLine_trace, List.append_nil]
  · rw [if_neg hc]
    obtain ⟨⟨hinv, as, has, hscreen⟩, hx, _⟩ := blitChar_draws fonts h c
    have hlt := h.x
    have hmaxx := hinv.maxx
    simp only
    split_ifs with hwrap
    · refine ⟨goNewLine_inv hinv.fb hinv.scrx hinv.maxx hinv.maxy hinv.y, as, ?_, hscreen⟩
      rw [goNewLine_trace]
      exact has
    · refine ⟨⟨hinv.fb, hinv.scrx, hinv.maxx, hinv.maxy, ?_, hinv.y⟩, as, has, hscreen⟩
      show ((blitChar fonts fbi c).x + 1) % 2 ^ 16 < 133
      omega

/-- A string. -/
theorem fbPuts_onScreen (fonts : ℕ → Byte) (str : List Byte) :
    ∀ {fbi : FbInfo}, Inv fbi → Draws fbi (fbPuts (fbPutc fonts) fbi str) := by
  induction str with
  | nil => exact Draws.refl
  | cons c str ih =>
    intro fbi h
    have hfirst := fbPutc_onScreen fonts h c
    exact hfirst.trans (ih hfirst.1)

/-- One call. -/
theorem run_onScreen (fonts : ℕ → Byte) {fbi : FbInfo} (h : Inv fbi) {call : Call}
    (hcall : call.WellFormed) : ∃ fbi', call.run fonts fbi = some fbi' ∧ Draws fbi fbi' := by
  cases call with
  | putc c => exact ⟨_, rfl, fbPutc_onScreen fonts h c⟩
  | puts s => exact ⟨_, rfl, fbPuts_onScreen fonts s h⟩
  | printf fmt args =>
    obtain ⟨hzero, hlone, htext⟩ := hcall
    obtain ⟨text, htext⟩ := Option.isSome_iff_exists.mp htext
    have hprint := (printfLoop_eq (fbPutc fonts) fmt hzero args fbi).2 hlone text htext
    refine ⟨fbPuts (fbPutc fonts) fbi text, ?_, fbPuts_onScreen fonts text h⟩
    show fbPrintf fonts fbi fmt args = _
    rw [fbPrintf, if_neg h.fb, hprint]
    rfl

/-- Any number of calls. -/
theorem runs_onScreen (fonts : ℕ → Byte) (calls : List Call) :
    ∀ {fbi : FbInfo}, Inv fbi → (∀ call ∈ calls, call.WellFormed) →
      ∃ fbi', calls.foldlM (Call.run fonts) fbi = some fbi' ∧ Draws fbi fbi' := by
  induction calls with
  | nil => exact fun h _ => ⟨_, rfl, Draws.refl h⟩
  | cons call calls ih =>
    intro fbi h hcalls
    obtain ⟨fbi', hrun, hdraws⟩ := run_onScreen fonts h (hcalls call List.mem_cons_self)
    obtain ⟨fbi'', hruns, hdraws'⟩ :=
      ih hdraws.1 fun call' hmem => hcalls call' (List.mem_cons_of_mem call hmem)
    refine ⟨fbi'', ?_, hdraws.trans hdraws'⟩
    rw [List.foldlM_cons, hrun]
    exact hruns

theorem fbSetup_inv : Inv fbSetup := ⟨by decide, rfl, rfl, rfl, by decide, by decide⟩

theorem mem_memset16 {p : ℤ} {c n : ℕ} {a : Access} (ha : a ∈ memset16 p c n) :
    ∃ i : ℕ, i < n ∧ a = .pixel (p + i) c := by
  obtain ⟨i, hi, rfl⟩ := List.mem_map.mp ha
  exact ⟨i, List.mem_range.mp hi, rfl⟩

/-- What `fb_init` fills is on the screen, but for the pixel of its last line: this is in front
    of the framebuffer. -/
theorem background_onScreen {a : Access} (ha : a ∈ background) :
    a.OnScreen ∨ a = .pixel (-479) 0 := by
  rcases List.mem_append.mp ha with hfill | hlines
  · obtain ⟨i, hi, rfl⟩ := mem_memset16 hfill
    exact Or.inl ⟨by omega, by omega⟩
  · obtain ⟨val, hval, hline⟩ := List.mem_flatMap.mp hlines
    rw [List.mem_range] at hval
    rcases List.mem_append.mp hline with hdown | hup
    · obtain ⟨i, hi, rfl⟩ := mem_memset16 hdown
      exact Or.inl ⟨by omega, by omega⟩
    · obtain ⟨i, hi, rfl⟩ := mem_memset16 hup
      by_cases hlast : val = 479
      · subst hlast
        obtain rfl : i = 0 := by omega
        exact Or.inr rfl
      · exact Or.inl ⟨by omega, by omega⟩

/-- From `fb_init` on, every call with a format that ends where it should returns, the cursor is
    on the screen wherever a character is drawn, and so is every pixel that is written; every
    font byte is in the table. -/
theorem console_onScreen (fonts : ℕ → Byte) (calls : List Call)
    (h : ∀ call ∈ calls, call.WellFormed) :
    ∃ fbi, calls.foldlM (Call.run fonts) (fbInit fonts) = some fbi ∧
      fbi.x < 133 ∧ fbi.y < 60 ∧
      ∃ as, fbi.trace = background ++ as ∧ ∀ a ∈ as, a.OnScreen := by
  have hbanner := fbPuts_onScreen fonts banner fbSetup_inv
  obtain ⟨fbi, hrun, hdraws⟩ := runs_onScreen fonts calls hbanner.1 h
  obtain ⟨hinv, hscreen⟩ := hbanner.trans hdraws
  exact ⟨fbi, hrun, hinv.x, hinv.y, hscreen⟩

/-- A number, and a character with its high bit set. -/
theorem console_number :
    ∃ fbi, [Call.printf [37, 100] [.word 7], .putc 0x80].foldlM (Call.run fun _ => 0)
        (fbInit fun _ => 0) = some fbi ∧
      fbi.x < 133 ∧ fbi.y < 60 ∧
      ∃ as, fbi.trace = background ++ as ∧ ∀ a ∈ as, a.OnScreen :=
  console_onScreen (fun _ => 0) _ fun call hcall => by
    rcases List.mem_cons.mp hcall with rfl | hcall
    · exact ⟨by decide, by unfold Lone; decide, by decide⟩
    · obtain rfl := List.mem_singleton.mp hcall
      trivial

end OnScreen

end SmartQ.Usb.FbWrite
