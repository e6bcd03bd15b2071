import Mathlib.Data.List.DropRight
import Mathlib.Data.Nat.Digits.Defs
import Mathlib.Tactic
import SmartQ.Lib.Bytes

/-!
# `fb_printf`

Model of `fb_putuint`, `fb_puthex` and `fb_printf` in `qi-usb-lcd/src/cpu/s3c6410/fbwrite.c`,
over any way to write a character. A format is the list of its bytes up to its terminator; a
read behind that, an argument of another type and a store outside a buffer have no value.

* `fbPutuint_eq`, `fbPuthex_eq`: the digits that are written.
* `printf_iff`: a format is printed as it says exactly if it does not end in a lone `%`.
-/

namespace SmartQ.Usb.FbWrite

open SmartQ.Lib

/-- An argument of `fb_printf`: a word, or a pointer to a string. -/
inductive Arg
  | word (w : BitVec 32)
  | str (s : List Byte)

/-! ## Model -/

section Model

variable {σ : Type} (fbPutc : σ → Byte → σ)

/-- `fb_puts` of a string without its terminator. -/
def fbPuts (s : σ) (str : List Byte) : σ := str.foldl fbPutc s

/-- The string at `d` in a buffer, of which `n` bytes are left. -/
def cString (buf : ℕ → Byte) : (n d : ℕ) → Option (List Byte)
  | 0, _ => none
  | n + 1, d => if buf d = 0 then some [] else (buf d :: ·) <$> cString buf n (d + 1)

/-- The loop of `fb_putuint`: where it stops, and the buffer. -/
def digitLoop : (d val : ℕ) → (ℕ → Byte) → Option (ℕ × (ℕ → Byte))
  | d, val, buf =>
    let buf := Function.update buf d (UInt8.ofNat (48 + val % 10))
    if val / 10 = 0 then some (d, buf)
    else match d with
      | 0 => none
      | d + 1 => digitLoop d (val / 10) buf

/-- `fb_putuint` (lines 219–233): the decimal digits of a number, written from the last one
    backwards. -/
def fbPutuint (s : σ) (val : ℕ) : Option σ := do
  let (d, buf) ← digitLoop 10 val fun _ => 0
  let str ← cString buf (12 - d) d
  pure (fbPuts fbPutc s str)

/-- `fb_putsinglehex`: one hexadecimal digit, in lower case. -/
def fbPutsinglehex (s : σ) (val : ℕ) : σ :=
  fbPutc s (UInt8.ofNat (if val ≤ 9 then 48 + val else 97 + val - 10))

/-- `fb_puthex` (lines 246–257): `0x` and the eight hexadecimal digits of a word. -/
def fbPuthex (s : σ) (val : ℕ) : σ :=
  [28, 24, 20, 16, 12, 8, 4, 0].foldl
    (fun s k => fbPutsinglehex fbPutc s (val >>> k &&& 0xf)) (fbPuts fbPutc s [48, 120])

/-- The case `'d'` (lines 281–288). -/
def fbPutint (s : σ) (val : BitVec 32) : Option σ :=
  if val.toInt < 0 then fbPutuint fbPutc (fbPutc s 45) (-val).toNat
  else fbPutuint fbPutc s val.toNat

/-- The loop of `fb_printf` (lines 272–310) from a place in the format on: the state, and the
    arguments that are left. -/
def printfLoop : List Byte → List Arg → σ → Option (σ × List Arg)
  | [], _, _ => none
  | [c], args, s =>
    if c = 0 then some (s, args)
    -- the next step, or the look behind a `%`, is behind the terminator
    else none
  | c :: n :: fmt, args, s =>
    if c = 0 then some (s, args)
    else if c ≠ 37 then printfLoop (n :: fmt) args (fbPutc s c)
    else if n = 37 then printfLoop fmt args (fbPutc s 37)
    else if n = 100 then
      match args with
      | .word w :: args => do
        let s ← fbPutint fbPutc s w
        printfLoop fmt args s
      | _ => none
    else if n = 117 then
      match args with
      | .word w :: args => do
        let s ← fbPutuint fbPutc s w.toNat
        printfLoop fmt args s
      | _ => none
    else if n = 120 then
      match args with
      | .word w :: args => printfLoop fmt args (fbPuthex fbPutc s w.toNat)
      | _ => none
    else if n = 115 then
      match args with
      | .str t :: args => printfLoop fmt args (fbPuts fbPutc s t)
      | _ => none
    else if n = 0 then printfLoop fmt args s
    else printfLoop (n :: fmt) args (fbPutc s c)

end Model

/-! ## What a format says -/

/-- A conversion of the format that the console knows. -/
inductive Conv
  | d
  | u
  | x
  | s
  deriving DecidableEq

/-- A part of a format: a character to print, or a conversion. -/
inductive Item
  | char (c : Byte)
  | conv (k : Conv)
  deriving DecidableEq

/-- The conversion a character stands for behind a `%`. -/
def conv (n : Byte) : Option Conv :=
  if n = 100 then some .d else if n = 117 then some .u
  else if n = 120 then some .x else if n = 115 then some .s else none

/-- The character of a conversion. -/
def Conv.letter : Conv → Byte
  | .d => 100
  | .u => 117
  | .x => 120
  | .s => 115

/-- The parts of a format. A `%` that begins none is printed. -/
def items : List Byte → List Item
  | [] => []
  | [c] => [.char c]
  | c :: n :: fmt =>
    if c ≠ 37 then .char c :: items (n :: fmt)
    else if n = 37 then .char 37 :: items fmt
    else match conv n with
      | some k => .conv k :: items fmt
      | none => .char 37 :: items (n :: fmt)

/-- A number in decimal. -/
def decimal (n : ℕ) : List Byte :=
  if n = 0 then [48] else (Nat.digits 10 n).reverse.map fun d => UInt8.ofNat (48 + d)

/-- A digit in hexadecimal. -/
def hexDigit (n : ℕ) : Byte := UInt8.ofNat (if n < 10 then 48 + n else 87 + n)

/-- `0x` and eight digits. -/
def hex (n : ℕ) : List Byte :=
  48 :: 120 :: [7, 6, 5, 4, 3, 2, 1, 0].map fun k => hexDigit (n / 16 ^ k % 16)

/-- The text of an argument. -/
def Conv.render : Conv → Arg → Option (List Byte)
  | .d, .word w =>
    some (if w.toInt < 0 then 45 :: decimal w.toInt.natAbs else decimal w.toInt.natAbs)
  | .u, .word w => some (decimal w.toNat)
  | .x, .word w => some (hex w.toNat)
  | .s, .str t => some t
  | _, _ => none

/-- The text of a format with its arguments; none if these do not match it. -/
def render : List Item → List Arg → Option (List Byte)
  | [], _ => some []
  | .char c :: is, args => (c :: ·) <$> render is args
  | .conv k :: is, a :: args => do
    let t ← k.render a
    let u ← render is args
    pure (t ++ u)
  | .conv _ :: _, [] => none

/-- The item is a conversion, and takes an argument. -/
def Item.isConv : Item → Bool
  | .char _ => false
  | .conv _ => true

/-- The number of arguments a format takes. -/
def convCount (is : List Item) : ℕ := is.countP Item.isConv

/-- The format ends in a `%` that begins no pair of two of them. -/
def Lone (fmt : List Byte) : Prop := (fmt.rtakeWhile (· = 37)).length % 2 = 1

/-! ## Numbers -/

section Numbers

theorem decimal_of_lt {n : ℕ} (h : n < 10) : decimal n = [UInt8.ofNat (48 + n)] := by
  unfold decimal
  split_ifs with hzero
  · rw [hzero]
    rfl
  · rw [Nat.digits_of_lt 10 n hzero h]
    rfl

theorem decimal_of_le {n : ℕ} (h : 10 ≤ n) :
    decimal n = decimal (n / 10) ++ [UInt8.ofNat (48 + n % 10)] := by
  unfold decimal
  rw [if_neg (by omega), if_neg (by omega), Nat.digits_def' (by decide) (by omega),
    List.reverse_cons, List.map_append]
  rfl

theorem ofNat_digit_ne_zero {d : ℕ} (h : d < 10) : UInt8.ofNat (48 + d) ≠ 0 := by
  intro hzero
  have hnat := congrArg UInt8.toNat hzero
  rw [UInt8.toNat_ofNat'] at hnat
  simp at hnat
  omega

theorem cString_congr {buf buf' : ℕ → Byte} (n : ℕ) :
    ∀ d : ℕ, (∀ i, d ≤ i → buf i = buf' i) → cString buf n d = cString buf' n d := by
  induction n with
  | zero => exact fun _ _ => rfl
  | succ n ih =>
    intro d h
    rw [cString, cString, h d le_rfl, ih (d + 1) fun i hi => h i (by omega)]

/-- The loop puts the digits of a number in front of the string behind `d`. -/
theorem digitLoop_eq (d : ℕ) :
    ∀ (val : ℕ) (buf : ℕ → Byte) (tail : List Byte), d ≤ 11 → val < 10 ^ (d + 1) →
      cString buf (11 - d) (d + 1) = some tail →
      ∃ d' buf', digitLoop d val buf = some (d', buf') ∧
        cString buf' (12 - d') d' = some (decimal val ++ tail) := by
  induction d with
  | zero =>
    intro val buf tail _ hval htail
    have hdigit : val % 10 = val := Nat.mod_eq_of_lt (by omega)
    have hkept : cString (Function.update buf 0 (UInt8.ofNat (48 + val % 10))) 11 1 =
        some tail := by
      rw [← htail]
      exact cString_congr _ _ fun i hi => Function.update_of_ne (by omega) _ _
    refine ⟨0, Function.update buf 0 (UInt8.ofNat (48 + val % 10)), ?_, ?_⟩
    · rw [digitLoop]
      exact if_pos (by omega)
    · rw [cString, Function.update_self, if_neg (ofNat_digit_ne_zero (by omega)), hkept,
        decimal_of_lt (by omega), hdigit]
      rfl
  | succ d ih =>
    intro val buf tail hd hval htail
    have hkept : cString (Function.update buf (d + 1) (UInt8.ofNat (48 + val % 10)))
        (11 - (d + 1)) (d + 1 + 1) = some tail := by
      rw [← htail]
      exact cString_congr _ _ fun i hi => Function.update_of_ne (by omega) _ _
    have hstring : cString (Function.update buf (d + 1) (UInt8.ofNat (48 + val % 10)))
        (11 - d) (d + 1) = some (UInt8.ofNat (48 + val % 10) :: tail) := by
      rw [show 11 - d = 11 - (d + 1) + 1 by omega, cString, Function.update_self,
        if_neg (ofNat_digit_ne_zero (Nat.mod_lt _ (by decide))), hkept]
      rfl
    by_cases hlast : val / 10 = 0
    · have hdigit : val % 10 = val := Nat.mod_eq_of_lt (by omega)
      refine ⟨d + 1, Function.update buf (d + 1) (UInt8.ofNat (48 + val % 10)), ?_, ?_⟩
      · rw [digitLoop]
        exact if_pos hlast
      · rw [show 12 - (d + 1) = 11 - d by omega, hstring, decimal_of_lt (by omega), hdigit]
        rfl
    · have hpow : 10 ^ (d + 1 + 1) = 10 * 10 ^ (d + 1) := by ring
      obtain ⟨d', buf', hrun, hout⟩ := ih (val / 10) _ _ (by omega)
        (by rw [hpow] at hval; omega) hstring
      refine ⟨d', buf', ?_, ?_⟩
      · rw [digitLoop]
        exact (if_neg hlast).trans hrun
      · have hdecimal : decimal val = _ := decimal_of_le (by omega)
        rw [hout, hdecimal, List.append_assoc]
        rfl

variable {σ : Type} (fbPutc : σ → Byte → σ) (s : σ)

theorem fbPutuint_eq {val : ℕ} (h : val < 2 ^ 32) :
    fbPutuint fbPutc s val = some (fbPuts fbPutc s (decimal val)) := by
  obtain ⟨d, buf, hrun, hout⟩ := digitLoop_eq 10 val (fun _ => 0) [] (by decide)
    (h.trans (by decide)) rfl
  rw [List.append_nil] at hout
  rw [fbPutuint, hrun]
  show (cString buf (12 - d) d).bind _ = _
  rw [hout]
  rfl

theorem fbPutint_eq (w : BitVec 32) :
    fbPutint fbPutc s w = some (fbPuts fbPutc s
      (if w.toInt < 0 then 45 :: decimal w.toInt.natAbs else decimal w.toInt.natAbs)) := by
  have hw := w.isLt
  have hint := BitVec.toInt_eq_toNat_cond w
  unfold fbPutint
  by_cases hneg : w.toInt < 0
  · have hnat : (-w).toNat = w.toInt.natAbs := by
      rw [BitVec.toNat_neg]
      split_ifs at hint <;> omega
    rw [if_pos hneg, if_pos hneg, fbPutuint_eq _ _ (-w).isLt, hnat]
    rfl
  · have hnat : w.toNat = w.toInt.natAbs := by
      split_ifs at hint <;> omega
    rw [if_neg hneg, if_neg hneg, fbPutuint_eq _ _ hw, hnat]

theorem fbPuthex_eq (val : ℕ) : fbPuthex fbPutc s val = fbPuts fbPutc s (hex val) := by
  have hdigit : ∀ k s, fbPutsinglehex fbPutc s (val >>> (4 * k) &&& 0xf) =
      fbPutc s (hexDigit (val / 16 ^ k % 16)) := by
    intro k s
    have hshift : val >>> (4 * k) &&& 0xf = val / 16 ^ k % 16 := by
      rw [Nat.shiftRight_eq_div_pow, show (0xf : ℕ) = 2 ^ 4 - 1 from rfl,
        Nat.and_two_pow_sub_one_eq_mod, pow_mul]
      rfl
    rw [hshift]
    generalize val / 16 ^ k % 16 = n
    unfold fbPutsinglehex hexDigit
    by_cases hn : n ≤ 9
    · rw [if_pos hn, if_pos (by omega)]
    · rw [if_neg hn, if_neg (by omega), show 97 + n - 10 = 87 + n by omega]
  have h := fun s => (⟨hdigit 7 s, hdigit 6 s, hdigit 5 s, hdigit 4 s, hdigit 3 s, hdigit 2 s,
    hdigit 1 s, hdigit 0 s⟩ : _ ∧ _ ∧ _ ∧ _ ∧ _ ∧ _ ∧ _ ∧ _)
  unfold fbPuthex hex fbPuts
  simp only [List.foldl_cons, List.foldl_nil, List.map_cons, List.map_nil]
  simp only [Nat.reduceMul] at h
  simp only [h]

end Numbers

/-! ## The `%` at the end of a format -/

section Trailing

/-- The number of `%` at the end of a format. -/
def trailing (fmt : List Byte) : ℕ := (fmt.rtakeWhile (· = 37)).length

theorem trailing_le (fmt : List Byte) : trailing fmt ≤ fmt.length :=
  (List.rtakeWhile_suffix _ fmt).length_le

theorem trailing_cons (c : Byte) (fmt : List Byte) :
    trailing (c :: fmt) =
      if trailing fmt = fmt.length then fmt.length + (if c = 37 then 1 else 0)
      else trailing fmt := by
  unfold trailing List.rtakeWhile
  rw [List.reverse_cons, List.takeWhile_append, List.length_reverse, List.length_reverse,
    List.length_reverse]
  split_ifs with hall hc
  · rw [hc, List.length_append, List.length_reverse]
    rfl
  · have hstop : List.takeWhile (· = 37) [c] = [] := by
      rw [List.takeWhile_cons_of_neg (by simpa using hc)]
    rw [hstop, List.append_nil, List.length_reverse]
    rfl
  · rfl

theorem trailing_char {c : Byte} (hc : c ≠ 37) (fmt : List Byte) :
    trailing (c :: fmt) = trailing fmt := by
  rw [trailing_cons, if_neg hc]
  split_ifs with h
  · exact h.symm
  · rfl

theorem trailing_percent {n : Byte} (hn : n ≠ 37) (fmt : List Byte) :
    trailing (37 :: n :: fmt) = trailing fmt := by
  have hle := trailing_le fmt
  rw [trailing_cons, trailing_char hn, List.length_cons, if_neg (by omega)]

theorem trailing_pair (fmt : List Byte) :
    trailing (37 :: 37 :: fmt) % 2 = trailing fmt % 2 := by
  have hle := trailing_le fmt
  rw [trailing_cons, trailing_cons, if_pos rfl, List.length_cons]
  split_ifs with h h' h'
  · omega
  · omega
  · omega
  · rfl

end Trailing

/-! ## The loop -/

section Loop

variable {σ : Type} (fbPutc : σ → Byte → σ)

/-- The step of the loop on a `%` that is not the last character. -/
theorem printfLoop_percent (n : Byte) (fmt : List Byte) (args : List Arg) (s : σ) :
    printfLoop fbPutc (37 :: n :: fmt) args s =
      if n = 37 then printfLoop fbPutc fmt args (fbPutc s 37)
      else if n = 100 then
        match args with
        | .word w :: args => do
          let s ← fbPutint fbPutc s w
          printfLoop fbPutc fmt args s
        | _ => none
      else if n = 117 then
        match args with
        | .word w :: args => do
          let s ← fbPutuint fbPutc s w.toNat
          printfLoop fbPutc fmt args s
        | _ => none
      else if n = 120 then
        match args with
        | .word w :: args => printfLoop fbPutc fmt args (fbPuthex fbPutc s w.toNat)
        | _ => none
      else if n = 115 then
        match args with
        | .str t :: args => printfLoop fbPutc fmt args (fbPuts fbPutc s t)
        | _ => none
      else if n = 0 then printfLoop fbPutc fmt args s
      else printfLoop fbPutc (n :: fmt) args (fbPutc s 37) :=
  printfLoop.eq_def fbPutc (37 :: n :: fmt) args s

theorem conv_eq_some {n : Byte} {k : Conv} (h : conv n = some k) : n = k.letter := by
  unfold conv at h
  split_ifs at h with hd hu hx hs
  all_goals
    cases h
    assumption

/-- The step of the loop on a conversion. -/
theorem printfLoop_conv {n : Byte} {k : Conv} (h : conv n = some k) (fmt : List Byte)
    (args : List Arg) (s : σ) :
    printfLoop fbPutc (37 :: n :: fmt) args s =
      match args with
      | [] => none
      | a :: args => (k.render a).bind fun t => printfLoop fbPutc fmt args (fbPuts fbPutc s t) := by
  rw [conv_eq_some h, printfLoop_percent, if_neg (by cases k <;> decide)]
  cases k with
  | d =>
    rw [if_pos (show Conv.letter .d = 100 from rfl)]
    rcases args with _ | ⟨w | t, args⟩
    · rfl
    · simp only [fbPutint_eq]
      rfl
    · rfl
  | u =>
    rw [if_neg (by decide), if_pos (show Conv.letter .u = 117 from rfl)]
    rcases args with _ | ⟨w | t, args⟩
    · rfl
    · simp only [fbPutuint_eq fbPutc s w.isLt]
      rfl
    · rfl
  | x =>
    rw [if_neg (by decide), if_neg (by decide), if_pos (show Conv.letter .x = 120 from rfl)]
    rcases args with _ | ⟨w | t, args⟩
    · rfl
    · simp only [fbPuthex_eq]
      rfl
    · rfl
  | s =>
    rw [if_neg (by decide), if_neg (by decide), if_neg (by decide),
      if_pos (show Conv.letter .s = 115 from rfl)]
    rcases args with _ | ⟨w | t, args⟩
    · rfl
    · rfl
    · rfl

/-- On a character. -/
theorem printfLoop_char {c : Byte} (h0 : c ≠ 0) (hc : c ≠ 37) (n : Byte) (fmt : List Byte)
    (args : List Arg) (s : σ) :
    printfLoop fbPutc (c :: n :: fmt) args s =
      printfLoop fbPutc (n :: fmt) args (fbPutc s c) := by
  exact (printfLoop.eq_def fbPutc (c :: n :: fmt) args s).trans
    ((if_neg h0).trans (if_pos hc))

/-- On a pair of `%`. -/
theorem printfLoop_pair (fmt : List Byte) (args : List Arg) (s : σ) :
    printfLoop fbPutc (37 :: 37 :: fmt) args s = printfLoop fbPutc fmt args (fbPutc s 37) := by
  rw [printfLoop_percent, if_pos rfl]

/-- On a `%` that begins no conversion. -/
theorem printfLoop_other {n : Byte} (h0 : n ≠ 0) (hn : n ≠ 37) (hconv : conv n = none)
    (fmt : List Byte) (args : List Arg) (s : σ) :
    printfLoop fbPutc (37 :: n :: fmt) args s =
      printfLoop fbPutc (n :: fmt) args (fbPutc s 37) := by
  unfold conv at hconv
  split_ifs at hconv with hd hu hx hs
  rw [printfLoop_percent, if_neg hn, if_neg hd, if_neg hu, if_neg hx, if_neg hs, if_neg h0]

/-- A format that ends in a lone `%` is read behind its terminator; any other one is printed. -/
theorem printfLoop_eq (fmt : List Byte) : 0 ∉ fmt → ∀ (args : List Arg) (s : σ),
    (trailing fmt % 2 = 1 → printfLoop fbPutc (fmt ++ [0]) args s = none) ∧
    (trailing fmt % 2 ≠ 1 → ∀ text, render (items fmt) args = some text →
      printfLoop fbPutc (fmt ++ [0]) args s =
        some (fbPuts fbPutc s text, args.drop (convCount (items fmt)))) := by
  fun_induction items fmt with
  | case1 =>
    intro _ args s
    refine ⟨fun h => absurd h (by decide), fun _ text htext => ?_⟩
    cases htext
    rfl
  | case2 c =>
    intro hzero args s
    have h0 : c ≠ 0 := fun h => hzero (List.mem_singleton.mpr h.symm)
    by_cases hc : c = 37
    · subst hc
      refine ⟨fun _ => rfl, fun h => absurd (by decide) h⟩
    · rw [trailing_char hc]
      refine ⟨fun h => absurd h (by decide), fun _ text htext => ?_⟩
      cases htext
      exact printfLoop_char fbPutc h0 hc 0 [] args s
  | case3 c n fmt hc ih =>
    intro hzero args s
    rw [List.mem_cons, not_or] at hzero
    rw [trailing_char hc]
    obtain ⟨hlone, hprint⟩ := ih hzero.2 args (fbPutc s c)
    have hstep := printfLoop_char fbPutc (Ne.symm hzero.1) hc n (fmt ++ [0]) args s
    refine ⟨fun h => hstep.trans (hlone h), fun h text htext => ?_⟩
    obtain ⟨u, hu, rfl⟩ := Option.map_eq_some_iff.mp htext
    exact hstep.trans (hprint h u hu)
  | case4 c fmt hc ih =>
    intro hzero args s
    rw [List.mem_cons, List.mem_cons, not_or, not_or] at hzero
    obtain rfl : c = 37 := not_not.mp hc
    rw [trailing_pair]
    obtain ⟨hlone, hprint⟩ := ih hzero.2.2 args (fbPutc s 37)
    have hstep := printfLoop_pair fbPutc (fmt ++ [0]) args s
    refine ⟨fun h => hstep.trans (hlone h), fun h text htext => ?_⟩
    obtain ⟨u, hu, rfl⟩ := Option.map_eq_some_iff.mp htext
    exact hstep.trans (hprint h u hu)
  | case5 c n fmt hc hn k hk ih =>
    intro hzero args s
    rw [List.mem_cons, List.mem_cons, not_or, not_or] at hzero
    obtain rfl : c = 37 := not_not.mp hc
    rw [trailing_percent hn]
    have hstep := printfLoop_conv fbPutc hk (fmt ++ [0]) args s
    constructor
    · intro h
      cases args with
      | nil => exact hstep
      | cons a args =>
        refine hstep.trans (Option.bind_eq_none_iff.mpr fun t _ => ?_)
        exact (ih hzero.2.2 args (fbPuts fbPutc s t)).1 h
    · intro h text htext
      cases args with
      | nil => cases htext
      | cons a args =>
        obtain ⟨t, ht, htext⟩ := Option.bind_eq_some_iff.mp htext
        obtain ⟨u, hu, htext⟩ := Option.bind_eq_some_iff.mp htext
        cases htext
        have hrest := (ih hzero.2.2 args (fbPuts fbPutc s t)).2 h u hu
        have hcount : convCount (.conv k :: items fmt) = convCount (items fmt) + 1 :=
          List.countP_cons_of_pos rfl
        refine hstep.trans ?_
        simp only
        rw [ht, Option.bind_some, hrest, hcount, List.drop_succ_cons]
        unfold fbPuts
        rw [List.foldl_append]
  | case6 c n fmt hc hn hconv ih =>
    intro hzero args s
    rw [List.mem_cons, List.mem_cons, not_or, not_or] at hzero
    obtain rfl : c = 37 := not_not.mp hc
    rw [trailing_percent hn, ← trailing_char hn]
    obtain ⟨hlone, hprint⟩ := ih (by rw [List.mem_cons, not_or]; exact hzero.2) args (fbPutc s 37)
    have hstep := printfLoop_other fbPutc (Ne.symm hzero.2.1) hn hconv (fmt ++ [0]) args s
    refine ⟨fun h => hstep.trans (hlone h), fun h text htext => ?_⟩
    obtain ⟨u, hu, rfl⟩ := Option.map_eq_some_iff.mp htext
    exact hstep.trans (hprint h u hu)

/-- Every format has arguments of its types. -/
theorem exists_render (is : List Item) : ∃ args text, render is args = some text := by
  induction is with
  | nil => exact ⟨[], [], rfl⟩
  | cons i is ih =>
    obtain ⟨args, text, h⟩ := ih
    cases i with
    | char c =>
      refine ⟨args, c :: text, ?_⟩
      rw [render, h]
      rfl
    | conv k =>
      obtain ⟨a, t, ha⟩ : ∃ a t, k.render a = some t := by
        cases k with
        | d => exact ⟨.word 0, _, rfl⟩
        | u => exact ⟨.word 0, _, rfl⟩
        | x => exact ⟨.word 0, _, rfl⟩
        | s => exact ⟨.str [], _, rfl⟩
      refine ⟨a :: args, t ++ text, ?_⟩
      rw [render, ha, h]
      rfl

/-- `fb_printf` stays inside a format, takes one argument for each conversion and writes what
    the format says, for all arguments of its types, exactly if the format does not end in a
    lone `%`. -/
theorem printf_iff (fmt : List Byte) (hfmt : 0 ∉ fmt) :
    (∀ (σ : Type) (fbPutc : σ → Byte → σ) (s : σ) (args : List Arg) (text : List Byte),
      render (items fmt) args = some text →
      printfLoop fbPutc (fmt ++ [0]) args s =
        some (fbPuts fbPutc s text, args.drop (convCount (items fmt)))) ↔
    ¬ Lone fmt := by
  constructor
  · intro h hlone
    obtain ⟨args, text, htext⟩ := exists_render (items fmt)
    have hsome := h Unit (fun s _ => s) () args text htext
    rw [(printfLoop_eq _ fmt hfmt args ()).1 hlone] at hsome
    cases hsome
  · intro hlone σ fbPutc s args text htext
    exact (printfLoop_eq fbPutc fmt hfmt args s).2 hlone text htext

/-- `%d` with the smallest number. -/
theorem printf_d_min :
    printfLoop (fun s c => s ++ [c]) ([37, 100] ++ [0]) [.word (BitVec.ofInt 32 (-2 ^ 31))] [] =
      some (fbPuts (fun s c => s ++ [c]) []
        [45, 50, 49, 52, 55, 52, 56, 51, 54, 52, 56], []) :=
  ((printf_iff [37, 100] (by decide)).mpr (by unfold Lone; decide)) (List Byte) _ _ _ _
    (by decide)

/-- A `%` alone: the byte behind the terminator is read. -/
theorem printf_lone :
    ¬ ∀ (σ : Type) (fbPutc : σ → Byte → σ) (s : σ) (args : List Arg) (text : List Byte),
      render (items [37]) args = some text →
      printfLoop fbPutc ([37] ++ [0]) args s =
        some (fbPuts fbPutc s text, args.drop (convCount (items [37]))) := by
  intro h
  cases h Unit (fun s _ => s) () [] [37] rfl

end Loop

end SmartQ.Usb.FbWrite
