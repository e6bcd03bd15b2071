import Mathlib.Data.List.GetD
import Mathlib.Tactic

/-!
# Bytes, little-endian words and byte sums

The data all the programs exchange: byte strings, the little-endian 32-bit
words of their headers, and the byte sums they use as checksums. A word is a
`ℕ`; arithmetic on it is written with an explicit `% 2 ^ 32`.

* `u32At_le32`: reading back a stored word.
* `byteSum_append`: sums of consecutive chunks add up.
-/

namespace SmartQ.Lib

/-- One byte, as the programs read it from a file, a device or a wire. -/
abbrev Byte := UInt8

/-! ## Words -/

/-- The 32-bit word with the four bytes `b0 … b3`, least significant first. -/
def word32 (b0 b1 b2 b3 : Byte) : ℕ :=
  b0.toNat + b1.toNat * 2 ^ 8 + b2.toNat * 2 ^ 16 + b3.toNat * 2 ^ 24

/-- The four bytes of `v mod 2^32`, least significant first. -/
def le32 (v : ℕ) : List Byte :=
  [UInt8.ofNat v, UInt8.ofNat (v / 2 ^ 8), UInt8.ofNat (v / 2 ^ 16), UInt8.ofNat (v / 2 ^ 24)]

/-- Byte `i` of a byte string; zero past its end. -/
def byteAt (bs : List Byte) (i : ℕ) : Byte := bs.getD i 0

/-- The little-endian word at offset `o`. -/
def u32At (bs : List Byte) (o : ℕ) : ℕ :=
  word32 (byteAt bs o) (byteAt bs (o + 1)) (byteAt bs (o + 2)) (byteAt bs (o + 3))

/-- The little-endian halfword at offset `o`. -/
def u16At (bs : List Byte) (o : ℕ) : ℕ :=
  (byteAt bs o).toNat + (byteAt bs (o + 1)).toNat * 2 ^ 8

@[simp] theorem length_le32 (v : ℕ) : (le32 v).length = 4 := rfl

theorem word32_lt (b0 b1 b2 b3 : Byte) : word32 b0 b1 b2 b3 < 2 ^ 32 := by
  have h0 := b0.toNat_lt
  have h1 := b1.toNat_lt
  have h2 := b2.toNat_lt
  have h3 := b3.toNat_lt
  unfold word32
  omega

theorem u32At_lt (bs : List Byte) (o : ℕ) : u32At bs o < 2 ^ 32 := word32_lt _ _ _ _

theorem word32_le32 (v : ℕ) :
    word32 (UInt8.ofNat v) (UInt8.ofNat (v / 2 ^ 8)) (UInt8.ofNat (v / 2 ^ 16))
      (UInt8.ofNat (v / 2 ^ 24)) = v % 2 ^ 32 := by
  simp only [word32, UInt8.toNat_ofNat']
  omega

theorem byteAt_append_left {xs : List Byte} (ys : List Byte) {i : ℕ} (h : i < xs.length) :
    byteAt (xs ++ ys) i = byteAt xs i := by
  unfold byteAt
  rw [List.getD_append _ _ _ _ h]

theorem byteAt_append_right {xs : List Byte} (ys : List Byte) {i : ℕ} (h : xs.length ≤ i) :
    byteAt (xs ++ ys) i = byteAt ys (i - xs.length) := by
  unfold byteAt
  rw [List.getD_append_right _ _ _ _ h]

theorem byteAt_of_lt {bs : List Byte} {i : ℕ} (h : i < bs.length) : byteAt bs i = bs[i] :=
  List.getD_eq_getElem _ _ h

/-- A word stored after a prefix is read back at that offset. -/
theorem u32At_le32 (xs ys : List Byte) (v : ℕ) :
    u32At (xs ++ (le32 v ++ ys)) xs.length = v % 2 ^ 32 := by
  have hbyte : ∀ k, k < 4 → byteAt (xs ++ (le32 v ++ ys)) (xs.length + k) = byteAt (le32 v) k := by
    intro k hk
    rw [byteAt_append_right _ (by omega), Nat.add_sub_cancel_left]
    exact byteAt_append_left _ (by simpa using hk)
  have h0 := hbyte 0 (by omega)
  rw [Nat.add_zero] at h0
  unfold u32At
  rw [h0, hbyte 1 (by omega), hbyte 2 (by omega), hbyte 3 (by omega)]
  exact word32_le32 v

theorem u32At_append_left {xs : List Byte} (ys : List Byte) {o : ℕ} (h : o + 4 ≤ xs.length) :
    u32At (xs ++ ys) o = u32At xs o := by
  unfold u32At
  rw [byteAt_append_left _ (by omega), byteAt_append_left _ (by omega),
    byteAt_append_left _ (by omega), byteAt_append_left _ (by omega)]

/-! ## Byte sums -/

/-- The sum of the bytes, as a natural number. The checksums are this sum
    modulo `2^32` or `2^16`. -/
def byteSum (bs : List Byte) : ℕ := (bs.map UInt8.toNat).sum

@[simp] theorem byteSum_nil : byteSum [] = 0 := rfl

@[simp] theorem byteSum_cons (b : Byte) (bs : List Byte) :
    byteSum (b :: bs) = b.toNat + byteSum bs := by simp [byteSum]

@[simp] theorem byteSum_append (xs ys : List Byte) :
    byteSum (xs ++ ys) = byteSum xs + byteSum ys := by simp [byteSum]

theorem byteSum_take_drop (bs : List Byte) (k : ℕ) :
    byteSum (bs.take k) + byteSum (bs.drop k) = byteSum bs := by
  rw [← byteSum_append, List.take_append_drop]

/-! ## 32-bit arithmetic -/

/-- `a + b` on `uint32_t`: the sum wraps at 2^32. -/
def add32 (a b : ℕ) : ℕ := (a + b) % 2 ^ 32

/-- `a - b` on `uint32_t`: the difference wraps below 0. -/
def sub32 (a b : ℕ) : ℕ := (a + (2 ^ 32 - b % 2 ^ 32)) % 2 ^ 32

/-- The value of an expression of type `int` whose exact value is `z`. -/
def int32 (z : ℤ) : ℤ := if z % 2 ^ 32 < 2 ^ 31 then z % 2 ^ 32 else z % 2 ^ 32 - 2 ^ 32

/-- The value of `z` converted to `uint32_t`. -/
def toU32 (z : ℤ) : ℕ := (z % 2 ^ 32).toNat

theorem int32_of_range {z : ℤ} (h0 : -(2 ^ 31) ≤ z) (h1 : z < 2 ^ 31) : int32 z = z := by
  unfold int32
  split_ifs <;> omega

theorem sub32_of_le {a b : ℕ} (h : b ≤ a) (ha : a < 2 ^ 32) : sub32 a b = a - b := by
  unfold sub32
  omega

theorem add32_lt (a b : ℕ) : add32 a b < 2 ^ 32 := Nat.mod_lt _ (by norm_num)

theorem add32_of_lt {a b : ℕ} (h : a + b < 2 ^ 32) : add32 a b = a + b := Nat.mod_eq_of_lt h

end SmartQ.Lib
