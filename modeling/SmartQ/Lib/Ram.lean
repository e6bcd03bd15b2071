import SmartQ.Lib.Bytes

/-!
# Flat memory

The memory of a 32-bit processor: a byte at every address below `2^32`, with
addresses that wrap. A store of a byte string is one write of all its bytes.

* `Ram.get_set_at`, `Ram.get_set_off`: what a store does to each address.
* `Ram.bytes_set_append`: consecutive stores add up.
-/

namespace SmartQ.Lib

/-- The byte at each address; only those below `2^32` exist. -/
abbrev Ram := ℕ → Byte

namespace Ram

/-- The byte at address `a`, which is taken modulo 2^32. -/
def get (m : Ram) (a : ℕ) : Byte := m (a % 2 ^ 32)

/-- `n` bytes from address `a` on. -/
def bytes (m : Ram) (a n : ℕ) : List Byte := (List.range n).map fun i => m.get (a + i)

/-- Store `bs` from address `a` on. -/
def set (m : Ram) (a : ℕ) (bs : List Byte) : Ram := fun x =>
  if sub32 x a < bs.length then byteAt bs (sub32 x a) else m x

variable {m : Ram} {a n : ℕ} {bs : List Byte}

@[simp] theorem length_bytes (m : Ram) (a n : ℕ) : (m.bytes a n).length = n := by simp [bytes]

theorem get_mod (m : Ram) (a : ℕ) : m.get (a % 2 ^ 32) = m.get a := by
  unfold get
  rw [Nat.mod_mod]

theorem get_congr {b : ℕ} (h : a % 2 ^ 32 = b % 2 ^ 32) : m.get a = m.get b := by
  rw [← get_mod, h, get_mod]

/-- The distance of an address from the start of a store. -/
theorem sub32_add_mod {i : ℕ} (hi : i < 2 ^ 32) : sub32 ((a + i) % 2 ^ 32) a = i := by
  unfold sub32
  omega

theorem get_set_at {i : ℕ} (hi : i < bs.length) (hlen : bs.length ≤ 2 ^ 32) :
    (m.set a bs).get (a + i) = byteAt bs i := by
  unfold get set
  rw [sub32_add_mod (by omega), if_pos hi]

theorem get_set_off {x : ℕ} (hx : bs.length ≤ sub32 (x % 2 ^ 32) a) :
    (m.set a bs).get x = m.get x := by
  unfold get set
  rw [if_neg (by omega)]

/-- A store inside a region leaves the addresses outside of it alone. -/
theorem get_set_outside {x d : ℕ} (hx : n ≤ sub32 (x % 2 ^ 32) a) (hd : d + bs.length ≤ n) :
    (m.set (a + d) bs).get x = m.get x := by
  apply get_set_off
  unfold sub32 at hx ⊢
  omega

theorem getElem_bytes {i : ℕ} (hi : i < n) :
    (m.bytes a n)[i]? = some (m.get (a + i)) := by simp [bytes, hi]

theorem byteAt_bytes {i : ℕ} (hi : i < n) : byteAt (m.bytes a n) i = m.get (a + i) := by
  unfold byteAt
  rw [List.getD_eq_getElem?_getD, getElem_bytes hi, Option.getD_some]

theorem bytes_mod (m : Ram) (a n : ℕ) : m.bytes (a % 2 ^ 32) n = m.bytes a n := by
  unfold bytes
  apply List.map_congr_left
  intro i _
  rw [← get_mod m (a % 2 ^ 32 + i), ← get_mod m (a + i), Nat.mod_add_mod]

theorem bytes_add (m : Ram) (a k n : ℕ) :
    m.bytes a (k + n) = m.bytes a k ++ m.bytes (a + k) n := by
  unfold bytes
  rw [List.range_add, List.map_append, List.map_map]
  congr 1
  apply List.map_congr_left
  intro i _
  show m.get (a + (k + i)) = m.get (a + k + i)
  rw [Nat.add_assoc]

/-- Two memories with the same range have the same parts of it. -/
theorem bytes_split {m' : Ram} {a k n : ℕ} (h : m.bytes a (k + n) = m'.bytes a (k + n)) :
    m.bytes a k = m'.bytes a k ∧ m.bytes (a + k) n = m'.bytes (a + k) n := by
  rw [bytes_add, bytes_add] at h
  exact List.append_inj h (by rw [length_bytes, length_bytes])

/-- The bytes of a range are those of a string that has them at its places. -/
theorem bytes_eq_of_get (h : ∀ i < bs.length, m.get (a + i) = byteAt bs i) :
    m.bytes a bs.length = bs := by
  apply List.ext_getElem
  · simp
  · intro i hi hi'
    rw [← byteAt_of_lt hi, byteAt_bytes (by simpa using hi), h i hi', byteAt_of_lt hi']

/-- The start of a stored string is read back. -/
theorem bytes_set_self {k : ℕ} (hk : k ≤ bs.length) (hlen : bs.length ≤ 2 ^ 32) :
    (m.set a bs).bytes a k = bs.take k := by
  have htake : (bs.take k).length = k := by simpa using hk
  calc (m.set a bs).bytes a k = (m.set a bs).bytes a (bs.take k).length := by rw [htake]
    _ = bs.take k := by
      apply bytes_eq_of_get
      intro i hi
      rw [htake] at hi
      rw [get_set_at (by omega) hlen]
      unfold byteAt
      rw [List.getD_eq_getElem _ _ (by omega), List.getD_eq_getElem _ _ (by omega),
        List.getElem_take]

/-- A part of a stored string is read back. -/
theorem bytes_set_inside {p k : ℕ} (h : p + k ≤ bs.length) (hlen : bs.length ≤ 2 ^ 32) :
    (m.set a bs).bytes (a + p) k = (bs.drop p).take k := by
  have hread := bytes_set_self (m := m) (a := a) h hlen
  rw [bytes_add, List.take_add] at hread
  exact (List.append_inj hread (by simp; omega)).2

/-- A store behind a range leaves the range alone, as long as it does not wrap
    into it. -/
theorem bytes_set_before {k : ℕ} (h : k + bs.length ≤ 2 ^ 32) :
    (m.set (a + k) bs).bytes a k = m.bytes a k := by
  unfold bytes
  apply List.map_congr_left
  intro i hi
  have hik : i < k := List.mem_range.mp hi
  apply get_set_off
  unfold sub32
  omega

/-- A store in front of a range leaves the range alone. -/
theorem bytes_set_behind (h : bs.length + n ≤ 2 ^ 32) :
    (m.set a bs).bytes (a + bs.length) n = m.bytes (a + bs.length) n := by
  unfold bytes
  apply List.map_congr_left
  intro i hi
  have hin : i < n := List.mem_range.mp hi
  apply get_set_off
  unfold sub32
  omega

/-- A store right behind a range extends it. -/
theorem bytes_set_append {k j : ℕ} (hj : j ≤ bs.length) (h : k + bs.length ≤ 2 ^ 32) :
    (m.set (a + k) bs).bytes a (k + j) = m.bytes a k ++ bs.take j := by
  rw [bytes_add, bytes_set_before h, bytes_set_self hj (by omega)]

@[simp] theorem set_nil (m : Ram) (a : ℕ) : m.set a [] = m := by
  funext x
  unfold set
  exact if_neg (Nat.not_lt_zero _)

theorem set_mod (m : Ram) (a : ℕ) (bs : List Byte) : m.set (a % 2 ^ 32) bs = m.set a bs := by
  funext x
  unfold set sub32
  rw [Nat.mod_mod]

end Ram

end SmartQ.Lib
