import Mathlib.Data.List.TakeWhile
import SmartQ.Lib.Bytes

/-!
# Blocks of strings

A block of memory that holds strings one after the other, each with its terminating zero,
and one more zero behind the last of them.

* `untilDouble_pack`: the end of the strings is the first pair of zeros.
* `put_append`: a store at the end of a prefix.
-/

namespace SmartQ.Lib

/-- The bytes of a text in ASCII. -/
def ascii (s : String) : List Byte := s.toList.map fun c => UInt8.ofNat c.toNat

/-- The string at the start of some memory. -/
def cString (bs : List Byte) : List Byte := bs.takeWhile (· ≠ 0)

/-- Strings one after the other, with their terminators. -/
def pack (ss : List (List Byte)) : List Byte := ss.flatMap (· ++ [0])

/-- A string that a block can hold. -/
def IsEntry (s : List Byte) : Prop := s ≠ [] ∧ 0 ∉ s

/-- What follows the strings of a block. -/
def packEnd (ss : List (List Byte)) : List Byte := if ss = [] then [0, 0] else [0]

/-- A block holds the strings `ss`, and anything behind them. -/
def Holds (data : List Byte) (ss : List (List Byte)) : Prop :=
  (∀ s ∈ ss, IsEntry s) ∧ pack ss ++ packEnd ss <+: data

/-- The place of the first pair of zeros. -/
def untilDouble : List Byte → Option ℕ
  | [] => none
  | b :: bs => if b = 0 ∧ bs.head? = some 0 then some 0 else (untilDouble bs).map (· + 1)

/-- Store `bs` at place `i` of a block. -/
def put (data : List Byte) (i : ℕ) (bs : List Byte) : List Byte :=
  data.take i ++ bs ++ data.drop (i + bs.length)

section Pack

variable {s : List Byte} {ss ts : List (List Byte)}

@[simp] theorem pack_nil : pack [] = [] := rfl

@[simp] theorem pack_cons : pack (s :: ss) = s ++ 0 :: pack ss := by simp [pack]

@[simp] theorem pack_append : pack (ss ++ ts) = pack ss ++ pack ts := by simp [pack]

theorem head?_packEnd (ss : List (List Byte)) (junk : List Byte) :
    (packEnd ss ++ junk).head? = some 0 := by
  unfold packEnd
  split_ifs <;> rfl

end Pack

section Strings

variable {s : List Byte} {ss : List (List Byte)} {rest : List Byte}

/-- A string is read up to its terminator. -/
theorem cString_append (h : 0 ∉ s) (rest : List Byte) : cString (s ++ 0 :: rest) = s := by
  unfold cString
  rw [List.takeWhile_append_of_pos (by
    intro b hb
    simpa using fun hb0 : b = 0 => h (hb0 ▸ hb))]
  simp

/-- A string ends at its first zero. -/
theorem cString_append_zero (xs rest : List Byte) : cString (xs ++ 0 :: rest) = cString xs := by
  unfold cString
  induction xs with
  | nil => rfl
  | cons x xs ih =>
    rw [List.cons_append, List.takeWhile_cons, List.takeWhile_cons, ih]

theorem not_mem_cString (xs : List Byte) : 0 ∉ cString xs := by
  intro h
  have hne := List.mem_takeWhile_imp h
  exact absurd rfl (of_decide_eq_true hne)

/-- A string without a zero is read as a whole. -/
theorem cString_of_not_mem (h : 0 ∉ s) : cString s = s := by
  unfold cString
  rw [List.takeWhile_eq_self_iff]
  intro c hc
  exact decide_eq_true (fun hc0 : c = 0 => h (hc0 ▸ hc))

theorem findIdx?_append (h : 0 ∉ s) (rest : List Byte) :
    (s ++ 0 :: rest).findIdx? (· = 0) = some s.length := by
  induction s with
  | nil => rfl
  | cons b s ih =>
    have hb : b ≠ 0 := fun hb => h (hb ▸ List.mem_cons_self)
    rw [List.cons_append, List.findIdx?_cons, if_neg (by simpa using hb),
      ih (fun hmem => h (List.mem_cons_of_mem _ hmem))]
    rfl

/-- There is no pair of zeros inside a string. -/
theorem untilDouble_append (h : IsEntry s) (rest : List Byte) :
    untilDouble (s ++ rest) = (untilDouble rest).map (· + s.length) := by
  obtain ⟨-, h0⟩ := h
  induction s with
  | nil => simp
  | cons b s ih =>
    have hb : b ≠ 0 := fun hb => h0 (hb ▸ List.mem_cons_self)
    rw [List.cons_append, untilDouble, if_neg (fun hpair => hb hpair.1),
      ih (fun hmem => h0 (List.mem_cons_of_mem _ hmem)), Option.map_map]
    congr 1

/-- The strings of a block end at the first pair of zeros. -/
theorem untilDouble_pack (h : ∀ s ∈ ss, IsEntry s) (hne : ss ≠ []) (hrest : rest.head? = some 0) :
    untilDouble (pack ss ++ rest) = some ((pack ss).length - 1) := by
  induction ss with
  | nil => exact (hne rfl).elim
  | cons s ss ih =>
    have hs := h s List.mem_cons_self
    rw [pack_cons, List.append_assoc, untilDouble_append hs, List.cons_append, untilDouble]
    cases ss with
    | nil =>
      rw [if_pos ⟨rfl, hrest⟩]
      simp
    | cons t ss =>
      have ht := h t (by simp)
      obtain ⟨b, t', rfl⟩ := List.exists_cons_of_ne_nil ht.1
      have hb : b ≠ 0 := fun hb => ht.2 (hb ▸ List.mem_cons_self)
      rw [if_neg (fun hpair => hb (Option.some.inj hpair.2)),
        ih (fun u hu => h u (List.mem_cons_of_mem _ hu)) (List.cons_ne_nil _ _)]
      simp only [Option.map_some, Option.some.injEq, List.length_append, List.length_cons,
        pack_cons]
      omega

end Strings

section Put

variable {data xs bs rest : List Byte}

theorem length_put {i : ℕ} (h : i + bs.length ≤ data.length) :
    (put data i bs).length = data.length := by
  unfold put
  simp only [List.length_append, List.length_take, List.length_drop]
  omega

/-- A store behind a prefix. -/
theorem put_append (xs bs ys : List Byte) :
    put (xs ++ ys) xs.length bs = xs ++ (bs ++ ys.drop bs.length) := by
  unfold put
  rw [List.take_left, List.drop_append, List.drop_eq_nil_of_le (by omega), List.nil_append,
    Nat.add_sub_cancel_left, List.append_assoc]

/-- One byte stored behind a prefix. -/
theorem set_append (xs : List Byte) (b c : Byte) (ys : List Byte) :
    (xs ++ b :: ys).set xs.length c = xs ++ c :: ys := by
  rw [List.set_append_right _ _ le_rfl, Nat.sub_self, List.set_cons_zero]

theorem byteAt_append_cons (xs : List Byte) (b : Byte) (ys : List Byte) :
    byteAt (xs ++ b :: ys) xs.length = b := by
  rw [byteAt_append_right _ le_rfl, Nat.sub_self]
  rfl

theorem byteAt_append_length (xs : List Byte) {ys : List Byte} (h : ys.head? = some 0) :
    byteAt (xs ++ ys) xs.length = 0 := by
  rw [byteAt_append_right _ le_rfl, Nat.sub_self]
  cases ys with
  | nil => rfl
  | cons y ys => exact Option.some.inj h

end Put

end SmartQ.Lib
