import SmartQ.Lib.Bytes

/-!
# Lists with a cursor

A list with a cursor in it, kept as its two parts beside the cursor. An array holds such a
list as its first elements, with the place of the cursor and the length as numbers; a row of a
terminal is one where a character replaces the one under the cursor.

* `In.insert`, `In.overwrite`, `In.delete`, `In.backspace`: an array that is changed in place.
* `puts_text`, `puts_back`, `puts_over`: what a terminal shows.
-/

namespace SmartQ.Lib

universe u

/-- What is in front of the cursor, the nearest first, and what is behind it. -/
structure Zipper (α : Type u) where
  left : List α
  right : List α
  deriving DecidableEq

namespace Zipper

variable {α : Type u}

/-- The list without the cursor: what is left of it stands in `left` the other way round. -/
def toList (z : Zipper α) : List α := z.left.reverse ++ z.right

/-- The cursor at the start, and at the end. -/
def atStart (xs : List α) : Zipper α := ⟨[], xs⟩

/-- The list with the cursor behind its last element, as after it has been typed. -/
def atEnd (xs : List α) : Zipper α := ⟨xs.reverse, []⟩

/-- A new element in front of the cursor, which moves behind it. -/
def insert (z : Zipper α) (a : α) : Zipper α := ⟨a :: z.left, z.right⟩

/-- A new element in place of the one at the cursor, or behind the last one at the end. -/
def overwrite (z : Zipper α) (a : α) : Zipper α := ⟨a :: z.left, z.right.tail⟩

/-- Leave out the element at the cursor; at the end there is none. -/
def delete (z : Zipper α) : Zipper α := ⟨z.left, z.right.tail⟩

/-- Leave out the element in front of the cursor; at the start there is none. -/
def backspace (z : Zipper α) : Zipper α := ⟨z.left.tail, z.right⟩

/-- Leave out all elements from the cursor on. -/
def kill (z : Zipper α) : Zipper α := ⟨z.left, []⟩

/-- One place back: the element in front of the cursor moves behind it, unless there is none. -/
def back (z : Zipper α) : Zipper α :=
  match z.left with
  | [] => z
  | a :: left => ⟨left, a :: z.right⟩

/-- One place forth: the element behind the cursor moves in front of it, unless there is none.
    -/
def forth (z : Zipper α) : Zipper α :=
  match z.right with
  | [] => z
  | a :: right => ⟨a :: z.left, right⟩

@[simp] theorem toList_atStart (xs : List α) : (atStart xs).toList = xs := rfl

@[simp] theorem toList_atEnd (xs : List α) : (atEnd xs).toList = xs := by
  simp [atEnd, toList]

@[simp] theorem length_toList (z : Zipper α) :
    z.toList.length = z.left.length + z.right.length := by
  simp [toList]

@[simp] theorem toList_back (z : Zipper α) : z.back.toList = z.toList := by
  obtain ⟨left, right⟩ := z
  cases left with
  | nil => rfl
  | cons a left => simp [back, toList]

@[simp] theorem toList_forth (z : Zipper α) : z.forth.toList = z.toList := by
  obtain ⟨left, right⟩ := z
  cases right with
  | nil => rfl
  | cons a right => simp [forth, toList]

/-- What is in a list with a cursor. -/
theorem mem_toList {z : Zipper α} {a : α} : a ∈ z.toList ↔ a ∈ z.left ∨ a ∈ z.right := by
  simp [toList]

/-! ## Arrays -/

/-- `memmove` in an array; none if it leaves the array. -/
def memmove (buf : List α) (dst src n : ℕ) : Option (List α) :=
  if dst + n ≤ buf.length ∧ src + n ≤ buf.length then
    some (buf.take dst ++ ((buf.drop src).take n ++ buf.drop (dst + n)))
  else none

/-- A store in an array; none if it is not inside. -/
def store (buf : List α) (i : ℕ) (a : α) : Option (List α) :=
  if i < buf.length then some (buf.set i a) else none

/-- An array holds the list, with the cursor at `num` and the end at `eol`. -/
structure In (z : Zipper α) (buf : List α) (num eol : ℕ) : Prop where
  num_eq : num = z.left.length
  eol_eq : eol = z.left.length + z.right.length
  holds : ∃ junk, buf = z.left.reverse ++ (z.right ++ junk)

section Arrays

variable {z : Zipper α} {buf l r junk : List α} {num eol : ℕ} {a b : α}

theorem store_append (l : List α) (b : α) (r : List α) :
    store (l ++ b :: r) l.length a = some (l ++ a :: r) := by
  have hset : (l ++ b :: r).set l.length a = l ++ a :: r := by
    rw [List.set_append_right _ _ le_rfl, Nat.sub_self, List.set_cons_zero]
  rw [store, if_pos (by simp), hset]

/-- Moving no part changes nothing. -/
theorem memmove_if {dst src n : ℕ} (hdst : dst ≤ buf.length) (hsrc : src ≤ buf.length) :
    (if n ≠ 0 then memmove buf dst src n else some buf) = memmove buf dst src n := by
  cases n with
  | zero =>
    rw [if_neg (fun h => h rfl), memmove, if_pos ⟨hdst, hsrc⟩, List.take_zero, List.nil_append,
      Nat.add_zero, List.take_append_drop]
  | succ n => rw [if_pos (Nat.succ_ne_zero n)]

/-- Moving a part one place up opens a place in front of it. -/
theorem memmove_open (l r : List α) (b : α) (junk : List α) :
    ∃ c, memmove (l ++ (r ++ b :: junk)) (l.length + 1) l.length r.length =
      some (l ++ c :: (r ++ junk)) := by
  have hfirst : ∃ c rest, r ++ b :: junk = c :: rest := by
    cases r with
    | nil => exact ⟨b, junk, rfl⟩
    | cons d r => exact ⟨d, r ++ b :: junk, rfl⟩
  obtain ⟨c, rest, hrest⟩ := hfirst
  refine ⟨c, ?_⟩
  have htake : (l ++ (r ++ b :: junk)).take (l.length + 1) = l ++ [c] := by
    rw [hrest, List.take_append, List.take_of_length_le (by omega), Nat.add_sub_cancel_left]
    rfl
  have hdrop : (l ++ (r ++ b :: junk)).drop (l.length + 1 + r.length) = junk := by
    have hsplit : l ++ (r ++ b :: junk) = (l ++ (r ++ [b])) ++ junk := by simp
    rw [hsplit]
    exact List.drop_left' (by simp; omega)
  rw [memmove, if_pos (by simp; omega), htake, hdrop, List.drop_left, List.take_left]
  simp

/-- Moving a part one place down closes the place in front of it. -/
theorem memmove_close (l : List α) (b : α) (r junk : List α) :
    ∃ c, memmove (l ++ (b :: r ++ junk)) l.length (l.length + 1) r.length =
      some (l ++ (r ++ c :: junk)) := by
  obtain ⟨s, c, hs⟩ : ∃ s c, b :: r = s ++ [c] :=
    ⟨_, _, (List.dropLast_append_getLast (List.cons_ne_nil b r)).symm⟩
  have hlen : s.length = r.length := by
    have h := congrArg List.length hs
    simpa using h.symm
  refine ⟨c, ?_⟩
  have hsrc : (l ++ (b :: r ++ junk)).drop (l.length + 1) = r ++ junk := by
    have hsplit : l ++ (b :: r ++ junk) = (l ++ [b]) ++ (r ++ junk) := by simp
    rw [hsplit]
    exact List.drop_left' (by simp)
  have hend : (l ++ (b :: r ++ junk)).drop (l.length + r.length) = c :: junk := by
    have hsplit : l ++ (b :: r ++ junk) = (l ++ s) ++ c :: junk := by rw [hs]; simp
    rw [hsplit]
    exact List.drop_left' (by simp [hlen])
  rw [memmove, if_pos (by simp; omega), hsrc, hend, List.take_left, List.take_left]

theorem In.right_eq_nil (h : z.In buf num eol) : z.right = [] ↔ num = eol := by
  rw [h.num_eq, h.eol_eq, ← List.length_eq_zero_iff]
  omega

theorem In.left_eq_nil (h : z.In buf num eol) : z.left = [] ↔ num = 0 := by
  rw [h.num_eq, List.length_eq_zero_iff]

theorem In.eol_le (h : z.In buf num eol) : eol ≤ buf.length := by
  obtain ⟨junk, hbuf⟩ := h.holds
  rw [h.eol_eq, hbuf]
  simp

/-- What is behind the cursor, in the array. -/
theorem In.drop_eq (h : z.In buf num eol) : (buf.drop num).take (eol - num) = z.right := by
  obtain ⟨junk, hbuf⟩ := h.holds
  have hlen : eol - num = z.right.length := by
    rw [h.num_eq, h.eol_eq]
    omega
  rw [hlen, hbuf, h.num_eq, List.drop_left' (by simp), List.take_left]

/-- Another cursor in the same array. -/
theorem In.move {w : Zipper α} (h : z.In buf num eol) (hlist : w.toList = z.toList) :
    w.In buf w.left.length eol := by
  obtain ⟨junk, hbuf⟩ := h.holds
  refine ⟨rfl, ?_, junk, ?_⟩
  · rw [h.eol_eq, ← length_toList, ← length_toList, hlist]
  · rw [hbuf, ← List.append_assoc, ← List.append_assoc]
    exact congrArg (· ++ junk) hlist.symm

theorem In.insert (h : z.In buf num eol) (hroom : eol < buf.length) (a : α) :
    ∃ buf1 buf2, memmove buf (num + 1) num (eol - num) = some buf1 ∧
      store buf1 num a = some buf2 ∧ buf2.length = buf.length ∧
      (z.insert a).In buf2 (num + 1) (eol + 1) := by
  obtain ⟨junk, rfl⟩ := h.holds
  obtain ⟨rfl, rfl, -⟩ := h
  obtain ⟨b, junk, rfl⟩ : ∃ b rest, junk = b :: rest := by
    cases junk with
    | nil => exact absurd hroom (by simp)
    | cons b rest => exact ⟨b, rest, rfl⟩
  obtain ⟨c, hopen⟩ := memmove_open z.left.reverse z.right b junk
  rw [List.length_reverse] at hopen
  have hstore := @store_append α a z.left.reverse c (z.right ++ junk)
  rw [List.length_reverse] at hstore
  refine ⟨_, _, by rw [Nat.add_sub_cancel_left]; exact hopen, hstore, by simp; omega, ?_⟩
  refine ⟨rfl, ?_, junk, ?_⟩
  · simp only [Zipper.insert, List.length_cons]
    omega
  · simp [Zipper.insert]

theorem In.overwrite (h : z.In buf num eol) (hroom : num < eol) (a : α) :
    ∃ buf1, store buf num a = some buf1 ∧ buf1.length = buf.length ∧
      (z.overwrite a).In buf1 (num + 1) eol := by
  obtain ⟨junk, rfl⟩ := h.holds
  obtain ⟨rfl, rfl, -⟩ := h
  obtain ⟨b, right, hright⟩ : ∃ b rest, z.right = b :: rest := by
    cases hr : z.right with
    | nil => exact absurd hroom (by simp [hr])
    | cons b rest => exact ⟨b, rest, rfl⟩
  have hstore := @store_append α a z.left.reverse b (right ++ junk)
  rw [List.length_reverse] at hstore
  refine ⟨_, by rw [hright]; exact hstore, by simp [hright], ?_⟩
  refine ⟨rfl, ?_, junk, ?_⟩
  · simp only [Zipper.overwrite, hright, List.length_cons, List.tail_cons]
    omega
  · simp [Zipper.overwrite, hright]

theorem In.delete (h : z.In buf num eol) (hroom : num < eol) :
    ∃ buf1, memmove buf num (num + 1) (eol - num - 1) = some buf1 ∧ buf1.length = buf.length ∧
      z.delete.In buf1 num (eol - 1) := by
  obtain ⟨junk, rfl⟩ := h.holds
  obtain ⟨rfl, rfl, -⟩ := h
  obtain ⟨b, right, hright⟩ : ∃ b rest, z.right = b :: rest := by
    cases hr : z.right with
    | nil => exact absurd hroom (by simp [hr])
    | cons b rest => exact ⟨b, rest, rfl⟩
  obtain ⟨c, hclose⟩ := memmove_close z.left.reverse b right junk
  rw [List.length_reverse] at hclose
  have hlen : z.left.length + z.right.length - z.left.length - 1 = right.length := by
    rw [hright, List.length_cons]
    omega
  refine ⟨_, by rw [hlen, hright]; exact hclose, by simp [hright]; omega, ?_⟩
  refine ⟨rfl, ?_, c :: junk, ?_⟩
  · simp only [Zipper.delete, hright, List.length_cons, List.tail_cons]
    omega
  · simp [Zipper.delete, hright]

theorem In.backspace (h : z.In buf num eol) (hroom : 0 < num) :
    ∃ buf1, memmove buf (num - 1) (num - 1 + 1) (eol - num) = some buf1 ∧
      buf1.length = buf.length ∧ z.backspace.In buf1 (num - 1) (eol - 1) := by
  obtain ⟨junk, rfl⟩ := h.holds
  obtain ⟨rfl, rfl, -⟩ := h
  obtain ⟨b, left, hleft⟩ : ∃ b rest, z.left = b :: rest := by
    cases hl : z.left with
    | nil => exact absurd hroom (by simp [hl])
    | cons b rest => exact ⟨b, rest, rfl⟩
  obtain ⟨c, hclose⟩ := memmove_close left.reverse b z.right junk
  rw [List.length_reverse] at hclose
  have hlen : z.left.length + z.right.length - z.left.length = z.right.length := by omega
  have hnum : z.left.length - 1 = left.length := by
    rw [hleft, List.length_cons]
    omega
  have hbuf : z.left.reverse ++ (z.right ++ junk) = left.reverse ++ (b :: z.right ++ junk) := by
    simp [hleft]
  refine ⟨_, by rw [hlen, hnum, hbuf]; exact hclose, by simp [hleft]; omega, ?_⟩
  refine ⟨?_, ?_, c :: junk, ?_⟩
  · simp only [Zipper.backspace, hleft, List.length_cons, List.tail_cons]
    omega
  · simp only [Zipper.backspace, hleft, List.length_cons, List.tail_cons]
    omega
  · simp [Zipper.backspace, hleft]

theorem In.kill (h : z.In buf num eol) : z.kill.In buf num num := by
  obtain ⟨junk, hbuf⟩ := h.holds
  exact ⟨h.num_eq, by simp [Zipper.kill, h.num_eq], z.right ++ junk, by simp [Zipper.kill, hbuf]⟩

end Arrays

/-! ## A row of a terminal -/

/-- A character on a terminal: a backspace moves the cursor, a bell is not shown, and any other
    character replaces the one under the cursor. -/
def putc (row : Zipper Byte) (c : Byte) : Zipper Byte :=
  if c = 8 then row.back else if c = 7 then row else row.overwrite c

/-- The row after some characters have been put out, one after the other. -/
def puts (row : Zipper Byte) (cs : List Byte) : Zipper Byte := cs.foldl putc row

section Rows

variable {row : Zipper Byte} {cs : List Byte}

@[simp] theorem puts_nil : row.puts [] = row := rfl

theorem puts_append (ds : List Byte) : row.puts (cs ++ ds) = (row.puts cs).puts ds :=
  List.foldl_append

theorem puts_text (h : ∀ c ∈ cs, 32 ≤ c) :
    row.puts cs = ⟨cs.reverse ++ row.left, row.right.drop cs.length⟩ := by
  induction cs generalizing row with
  | nil => rfl
  | cons c cs ih =>
    have hc : 32 ≤ c := h c List.mem_cons_self
    have h8 : c ≠ 8 := fun h8 => absurd (h8 ▸ hc) (by decide)
    have h7 : c ≠ 7 := fun h7 => absurd (h7 ▸ hc) (by decide)
    have hfirst : row.putc c = row.overwrite c := by rw [putc, if_neg h8, if_neg h7]
    show (row.putc c).puts cs = _
    rw [hfirst, ih (fun d hd => h d (List.mem_cons_of_mem _ hd))]
    simp [Zipper.overwrite]

theorem puts_back {n : ℕ} (h : n ≤ row.left.length) :
    row.puts (List.replicate n 8) = ⟨row.left.drop n, (row.left.take n).reverse ++ row.right⟩ := by
  induction n generalizing row with
  | zero => rfl
  | succ n ih =>
    obtain ⟨a, left, hleft⟩ : ∃ a rest, row.left = a :: rest := by
      cases hl : row.left with
      | nil => exact absurd h (by simp [hl])
      | cons a rest => exact ⟨a, rest, rfl⟩
    have hback : row.putc 8 = ⟨left, a :: row.right⟩ := by
      rw [putc, if_pos rfl, back, hleft]
    show (row.putc 8).puts (List.replicate n 8) = _
    rw [hback, ih (by rw [hleft, List.length_cons] at h; exact Nat.le_of_succ_le_succ h), hleft]
    simp

/-- Text and blanks written over what is behind the cursor, and the cursor moved back. -/
theorem puts_over (h : ∀ c ∈ cs, 32 ≤ c) (n : ℕ) :
    row.puts (cs ++ (List.replicate n 32 ++ List.replicate (cs.length + n) 8)) =
      ⟨row.left, cs ++ (List.replicate n 32 ++ row.right.drop (cs.length + n))⟩ := by
  have hall : ∀ c ∈ cs ++ List.replicate n 32, 32 ≤ c := by
    intro c hc
    rcases List.mem_append.mp hc with hc | hc
    · exact h c hc
    · rw [List.eq_of_mem_replicate hc]
      decide
  rw [← List.append_assoc, puts_append, puts_text hall, puts_back (by simp; omega)]
  have hlen : (cs ++ List.replicate n 32).reverse.length = cs.length + n := by simp [Nat.add_comm]
  rw [List.drop_left' hlen, List.take_left' hlen, List.reverse_reverse, List.append_assoc]
  simp

/-- A row shows a list behind `pre`, and blanks behind the list. -/
def Shows (row : Zipper Byte) (pre : List Byte) (z : Zipper Byte) : Prop :=
  row.left = z.left ++ pre ∧ ∃ n, row.right = z.right ++ List.replicate n 32

end Rows

end Zipper

end SmartQ.Lib
