import SmartQ.Lib.Bytes

/-!
# `int` arithmetic of the 32-bit ARM compiler

Shifts and divisions where C leaves them open: a register shift takes its amount
modulo 256 and leaves zero from 32 on, and the run-time library divides by zero to
zero.
-/

namespace SmartQ.Lib

/-- `x << n` on `int`, as the processor shifts: by the low byte of `n`, and from 32 places on
    nothing is left. -/
def shl32 (x n : ℤ) : ℤ := if n % 256 < 32 then int32 (x * 2 ^ (n % 256).toNat) else 0

/-- Conversion to `short`: the low 16 bits, read as a signed number. -/
def int16 (z : ℤ) : ℤ := (z + 2 ^ 15) % 2 ^ 16 - 2 ^ 15

/-- `x / y` on `int`, rounded towards 0. -/
def cdiv (x y : ℤ) : ℤ := int32 (x.tdiv y)

/-- `x % y` on `int`, with the sign of `x`. -/
def cmod (x y : ℤ) : ℤ := if y = 0 then 0 else x.tmod y

theorem int32_natCast {n : ℕ} (h : n < 2 ^ 31) : int32 n = n := int32_of_range (by omega) (by omega)

theorem toU32_natCast {n : ℕ} (h : n < 2 ^ 32) : toU32 n = n := by
  unfold toU32
  omega

theorem shl32_natCast {x n : ℕ} (hn : n < 32) (h : x * 2 ^ n < 2 ^ 31) :
    shl32 x n = (x * 2 ^ n : ℕ) := by
  have hmod : (n : ℤ) % 256 = n := by omega
  unfold shl32
  rw [hmod, if_pos (by omega), Int.toNat_natCast]
  have hcast : (x : ℤ) * 2 ^ n = (x * 2 ^ n : ℕ) := by push_cast; ring
  rw [hcast, int32_natCast h]

theorem shl32_zero {x : ℕ} (h : x < 2 ^ 31) : shl32 x 0 = x := by
  have hshl : shl32 x (0 : ℕ) = (x * 2 ^ 0 : ℕ) := shl32_natCast (by omega) (by omega)
  rw [pow_zero, Nat.mul_one] at hshl
  exact hshl

theorem cdiv_natCast {x y : ℕ} (h : x < 2 ^ 31) : cdiv x y = (x / y : ℕ) := by
  have hdiv : (x : ℤ).tdiv y = (x / y : ℕ) := rfl
  have hle : x / y ≤ x := Nat.div_le_self _ _
  rw [cdiv, hdiv, int32_natCast (by omega)]

theorem cmod_natCast {x y : ℕ} (hy : 0 < y) : cmod x y = (x % y : ℕ) := by
  rw [cmod, if_neg (by omega)]
  rfl

@[simp] theorem toU32_int32 (z : ℤ) : toU32 (int32 z) = toU32 z := by
  unfold toU32 int32
  split_ifs <;> omega

/-- A value that wraps once is negative afterwards. -/
theorem eq_of_int32_eq {z w : ℤ} (h : int32 z = w) (hw : 0 ≤ w) (hz : 0 ≤ z) (hz' : z < 2 ^ 32) :
    z = w := by
  unfold int32 at h
  split_ifs at h <;> omega

end SmartQ.Lib
