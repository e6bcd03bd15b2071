import Mathlib.Data.LawfulXor.Basic
import SmartQ.Lib.Crc32

/-!
# Shift registers

A linear feedback shift register of any width that takes bytes in, the least significant bit
first. The CRC-32 of boot images is one of them.

* `feed_eq`: behind a string the register is what its steps make of the string as a number.
* `feed_burst`: two strings that differ in one stretch, no wider than the register, leave it
  different.
-/

namespace SmartQ.Lib.ShiftRegister

/-- One step: the low bit goes out and takes the polynomial `p` in. -/
def shift (p c : ℕ) : ℕ := if c % 2 = 1 then (c / 2) ^^^ p else c / 2

/-- Bytes taken in one after the other. -/
def feed (p c : ℕ) (bs : List Byte) : ℕ :=
  bs.foldl (fun c b => (shift p)^[8] (c ^^^ b.toNat)) c

/-- A string as a number, its first byte the least significant. -/
def word : List Byte → ℕ
  | [] => 0
  | b :: bs => b.toNat + 2 ^ 8 * word bs

section Linear

variable (p : ℕ)

theorem shift_eq (c : ℕ) : shift p c = c / 2 ^^^ c % 2 * p := by
  unfold shift
  obtain h | h := Nat.mod_two_eq_zero_or_one c <;> simp [h]

theorem shift_xor (a b : ℕ) : shift p (a ^^^ b) = shift p a ^^^ shift p b := by
  have hlow : (a ^^^ b) % 2 * p = a % 2 * p ^^^ b % 2 * p := by
    have hmod : (a ^^^ b) % 2 = a % 2 ^^^ b % 2 := Nat.xor_mod_two_pow (n := 1)
    rw [hmod]
    obtain ha | ha := Nat.mod_two_eq_zero_or_one a <;>
      obtain hb | hb := Nat.mod_two_eq_zero_or_one b <;> simp [ha, hb]
  rw [shift_eq, shift_eq, shift_eq, hlow, Nat.xor_div_two]
  ac_rfl

theorem iterate_shift_xor (n a b : ℕ) :
    (shift p)^[n] (a ^^^ b) = (shift p)^[n] a ^^^ (shift p)^[n] b := by
  induction n generalizing a b with
  | zero => rfl
  | succ n ih => rw [Function.iterate_succ_apply, Function.iterate_succ_apply,
      Function.iterate_succ_apply, shift_xor, ih]

/-- Zeros at the low end only move the rest down. -/
theorem iterate_shift_mul (n c : ℕ) : (shift p)^[n] (2 ^ n * c) = c := by
  induction n generalizing c with
  | zero => exact Nat.one_mul c
  | succ n ih =>
    have hstep : shift p (2 ^ (n + 1) * c) = 2 ^ n * c := by
      have heven : 2 ^ (n + 1) * c = 2 * (2 ^ n * c) := by ring
      simp [shift_eq, heven]
    rw [Function.iterate_succ_apply, hstep, ih]

/-- A number below a power of two, and a multiple of that power. -/
theorem add_eq_xor {x n : ℕ} (hx : x < 2 ^ n) (y : ℕ) : x + 2 ^ n * y = x ^^^ 2 ^ n * y := by
  have hor : 2 ^ n * y + x = 2 ^ n * y ||| x := Nat.two_pow_add_eq_or_of_lt hx y
  have hand : 2 ^ n * y &&& x = 0 := by
    apply Nat.eq_of_testBit_eq
    intro i
    by_cases hi : i < n
    · simp [Nat.testBit_two_pow_mul, hi]
    · have hbit := Nat.testBit_lt_two_pow (hx.trans_le (Nat.pow_le_pow_right two_pos (not_lt.mp hi)))
      simp [hbit]
  rw [Nat.add_comm, hor, Nat.xor_comm]
  apply Nat.eq_of_testBit_eq
  intro i
  have hi := congrArg (fun z => z.testBit i) hand
  simp only [Nat.testBit_and, Nat.zero_testBit] at hi
  rw [Nat.testBit_or, Nat.testBit_xor]
  cases h1 : (2 ^ n * y).testBit i <;> cases h2 : x.testBit i <;> simp_all

theorem feed_eq (c : ℕ) (bs : List Byte) :
    feed p c bs = (shift p)^[8 * bs.length] (c ^^^ word bs) := by
  induction bs generalizing c with
  | nil => exact (Nat.xor_zero c).symm
  | cons b bs ih =>
    have hrest : word bs = (shift p)^[8] (2 ^ 8 * word bs) := (iterate_shift_mul p 8 _).symm
    calc feed p c (b :: bs) = feed p ((shift p)^[8] (c ^^^ b.toNat)) bs := rfl
      _ = (shift p)^[8 * bs.length] ((shift p)^[8] (c ^^^ b.toNat) ^^^ word bs) := ih _
      _ = (shift p)^[8 * bs.length]
            ((shift p)^[8] (c ^^^ (b.toNat + 2 ^ 8 * word bs))) := by
        rw [add_eq_xor b.toNat_lt, ← Nat.xor_assoc, iterate_shift_xor p 8 (c ^^^ b.toNat), ← hrest]
      _ = (shift p)^[8 * (b :: bs).length] (c ^^^ word (b :: bs)) := by
        rw [← Function.iterate_add_apply, List.length_cons, Nat.mul_succ]
        rfl

theorem feed_append (c : ℕ) (as bs : List Byte) :
    feed p c (as ++ bs) = feed p (feed p c as) bs := List.foldl_append

end Linear

theorem word_lt (bs : List Byte) : word bs < 2 ^ (8 * bs.length) := by
  induction bs with
  | nil => decide
  | cons b bs ih =>
    have hb := b.toNat_lt
    rw [word, List.length_cons, Nat.mul_succ, Nat.add_comm _ 8, pow_add]
    nlinarith

theorem word_inj {as bs : List Byte} (hlen : as.length = bs.length) (h : word as = word bs) :
    as = bs := by
  induction as generalizing bs with
  | nil => exact (List.length_eq_zero_iff.mp hlen.symm).symm
  | cons a as ih =>
    obtain _ | ⟨b, bs⟩ := bs
    · cases hlen
    · rw [word, word] at h
      have ha := a.toNat_lt
      have hb := b.toNat_lt
      have hhead : a.toNat = b.toNat := by omega
      have hrest : word as = word bs := by omega
      rw [UInt8.toNat_inj.mp hhead, ih (by simpa using hlen) hrest]

/-! ## Errors a register finds -/

section Burst

variable {p w : ℕ} (hlow : 2 ^ w ≤ p) (hhigh : p < 2 ^ (w + 1))

include hhigh in
theorem shift_lt {c : ℕ} (hc : c < 2 ^ (w + 1)) : shift p c < 2 ^ (w + 1) := by
  rw [shift_eq]
  apply Nat.xor_lt_two_pow
  · omega
  · obtain h | h := Nat.mod_two_eq_zero_or_one c <;> simp [h, hhigh]

include hlow in
/-- A register whose polynomial reaches its top bit loses nothing in a step. -/
theorem shift_eq_zero {c : ℕ} (hc : c < 2 ^ (w + 1)) (h : shift p c = 0) : c = 0 := by
  rw [shift_eq, xor_eq_zero_iff] at h
  rw [pow_succ] at hc
  obtain hodd | hodd := Nat.mod_two_eq_zero_or_one c
  · rw [hodd] at h
    omega
  · rw [hodd] at h
    omega

include hlow hhigh in
theorem iterate_shift_eq_zero (n : ℕ) {c : ℕ} (hc : c < 2 ^ (w + 1)) (h : (shift p)^[n] c = 0) :
    c = 0 := by
  induction n generalizing c with
  | zero => exact h
  | succ n ih => exact shift_eq_zero hlow hc (ih (shift_lt hhigh hc) h)

include hlow hhigh in
theorem iterate_shift_inj (n : ℕ) {c d : ℕ} (hc : c < 2 ^ (w + 1)) (hd : d < 2 ^ (w + 1))
    (h : (shift p)^[n] c = (shift p)^[n] d) : c = d := by
  have hzero : (shift p)^[n] (c ^^^ d) = 0 := by
    rw [iterate_shift_xor, h, Nat.xor_self]
  exact xor_eq_zero_iff.mp
    (iterate_shift_eq_zero hlow hhigh n (Nat.xor_lt_two_pow hc hd) hzero)

include hhigh in
theorem iterate_shift_lt (n : ℕ) {c : ℕ} (hc : c < 2 ^ (w + 1)) :
    (shift p)^[n] c < 2 ^ (w + 1) := by
  induction n generalizing c with
  | zero => exact hc
  | succ n ih => exact ih (shift_lt hhigh hc)

include hhigh in
theorem feed_lt (hw : 8 ≤ w + 1) {c : ℕ} (hc : c < 2 ^ (w + 1)) (bs : List Byte) :
    feed p c bs < 2 ^ (w + 1) := by
  induction bs generalizing c with
  | nil => exact hc
  | cons b bs ih =>
    have hb : b.toNat < 2 ^ (w + 1) := b.toNat_lt.trans_le (Nat.pow_le_pow_right two_pos hw)
    exact ih (iterate_shift_lt hhigh 8 (Nat.xor_lt_two_pow hc hb))

include hlow hhigh in
/-- The same string leaves different registers different. -/
theorem feed_inj {c d : ℕ} (hc : c < 2 ^ (w + 1)) (hd : d < 2 ^ (w + 1)) (bs : List Byte)
    (h : feed p c bs = feed p d bs) : c = d := by
  rw [feed_eq, feed_eq, iterate_shift_xor, iterate_shift_xor] at h
  exact iterate_shift_inj hlow hhigh _ hc hd ((xor_left_involutive _).injective h)

include hlow hhigh in
theorem feed_burst {c : ℕ} (hc : c < 2 ^ (w + 1)) {as bs : List Byte}
    (hlen : as.length = bs.length) (hwidth : 8 * as.length ≤ w + 1) (hw : 8 ≤ w + 1)
    (post : List Byte) (h : feed p c (as ++ post) = feed p c (bs ++ post)) : as = bs := by
  have hword : ∀ ds : List Byte, ds.length = as.length → word ds < 2 ^ (w + 1) := by
    intro ds hds
    exact (word_lt ds).trans_le (Nat.pow_le_pow_right two_pos (hds ▸ hwidth))
  rw [feed_append, feed_append] at h
  have hfeed := feed_inj hlow hhigh (feed_lt hhigh hw hc as) (feed_lt hhigh hw hc bs) post h
  rw [feed_eq, feed_eq, hlen] at hfeed
  have hxor := iterate_shift_inj hlow hhigh _ (Nat.xor_lt_two_pow hc (hword as rfl))
    (Nat.xor_lt_two_pow hc (hword bs hlen.symm)) hfeed
  exact word_inj hlen ((xor_right_involutive c).injective hxor)

end Burst

end SmartQ.Lib.ShiftRegister

namespace SmartQ.Lib

/-- The CRC-32 of boot images is a register of 32 bits. -/
theorem crc32_eq_feed (buf : List Byte) :
    crc32 buf = ShiftRegister.feed 0xedb88320 0xffffffff buf ^^^ 0xffffffff := by
  have hbyte : crcByte = fun c b => (ShiftRegister.shift 0xedb88320)^[8] (c ^^^ b.toNat) := by
    funext c b
    rfl
  rw [crc32, hbyte, ShiftRegister.feed]

theorem feed_crc32_lt (buf : List Byte) :
    ShiftRegister.feed 0xedb88320 0xffffffff buf < 2 ^ (31 + 1) :=
  ShiftRegister.feed_lt (by decide) (by decide) (by decide) buf

theorem crc32_lt (buf : List Byte) : crc32 buf < 2 ^ 32 := by
  rw [crc32_eq_feed]
  exact Nat.xor_lt_two_pow (feed_crc32_lt buf) (by decide)

/-- Changed bytes within a stretch of four change the checksum. -/
theorem crc32_burst {pre as bs post : List Byte} (hlen : as.length = bs.length)
    (hfour : as.length ≤ 4) (h : crc32 (pre ++ as ++ post) = crc32 (pre ++ bs ++ post)) :
    as = bs := by
  rw [crc32_eq_feed, crc32_eq_feed] at h
  have hfeed := (xor_left_involutive 0xffffffff).injective h
  rw [List.append_assoc, List.append_assoc, ShiftRegister.feed_append _ _ pre,
    ShiftRegister.feed_append _ _ pre] at hfeed
  exact ShiftRegister.feed_burst (p := 0xedb88320) (by decide) (by decide) (feed_crc32_lt pre)
    hlen (by omega) (by decide) post hfeed

/-- Strings that are the same outside of four consecutive bytes have the same checksum only if
    they are the same. -/
theorem crc32_window {as bs : List Byte} {k : ℕ} (hlen : as.length = bs.length)
    (hsame : ∀ i, i < k ∨ k + 4 ≤ i → as[i]? = bs[i]?) (h : crc32 as = crc32 bs) : as = bs := by
  have hsplit : ∀ ds : List Byte, ds = ds.take k ++ (ds.drop k).take 4 ++ ds.drop (k + 4) := by
    intro ds
    rw [← List.drop_drop, List.append_assoc, List.take_append_drop, List.take_append_drop]
  have hpre : as.take k = bs.take k := by
    apply List.ext_getElem?
    intro i
    by_cases hi : i < k
    · rw [List.getElem?_take_of_lt hi, List.getElem?_take_of_lt hi, hsame i (.inl hi)]
    · rw [List.getElem?_take_eq_none (by omega), List.getElem?_take_eq_none (by omega)]
  have hpost : as.drop (k + 4) = bs.drop (k + 4) := by
    apply List.ext_getElem?
    intro i
    rw [List.getElem?_drop, List.getElem?_drop, hsame _ (.inr (by omega))]
  rw [hsplit as, hsplit bs, hpre, hpost] at h
  have hmid := crc32_burst (by simp [hlen]) (by simp) h
  rw [hsplit as, hsplit bs, hpre, hpost, hmid]

end SmartQ.Lib
