import SmartQ.UBoot.LineEditor

/-!
# Lines with a cursor

What the line editor does, in its own terms: keys are decoded to actions, an action changes a
line with a cursor in it, and the lines that are entered can be recalled. A line of 256
characters cannot be entered.

* `HistIs.prev`, `HistIs.next`, `HistIs.add`: the history holds the last 19 lines.
* `creadControl_edits`: the variables of the editor change as the line does, and so does what
  the terminal shows.
-/

namespace SmartQ.UBoot

open SmartQ.Lib

/-! ## Actions on a line -/

/-- A change of the line that a key stands for, on the abstract line. -/
inductive Edit
  | char (c : Byte)
  | home
  | toEnd
  | forth
  | back
  | delete
  | backspace
  | kill
  | killAll
  | mode
  | older
  | newer
  deriving DecidableEq

/-- What a key does: it edits the line, enters it, or gives it up. -/
inductive Action
  | edit (e : Edit)
  | enter
  | interrupt
  deriving DecidableEq

/-- How much of an escape sequence has been typed. -/
inductive Esc
  | none
  | escape
  | bracket
  deriving DecidableEq

/-- The line being typed, the lines that can be recalled, the last one first, and which of them
    has been, counted from 1. -/
structure Line where
  text : Zipper Byte
  insert : Bool
  recent : List (List Byte)
  place : ℕ

/-- A key outside escape sequences. -/
def plainAction (key : Byte) : Action :=
  if key = 1 then .edit .home
  else if key = 3 then .interrupt
  else if key = 6 then .edit .forth
  else if key = 2 then .edit .back
  else if key = 4 then .edit .delete
  else if key = 11 then .edit .kill
  else if key = 5 then .edit .toEnd
  else if key = 15 then .edit .mode
  else if key = 24 then .edit .killAll
  else if key = 255 ∨ key = 127 ∨ key = 8 then .edit .backspace
  else if key = 16 then .edit .older
  else if key = 14 then .edit .newer
  else .edit (.char key)

/-- The last key of an escape sequence. -/
def arrowAction (key : Byte) : Option Edit :=
  if key = 68 then some .back
  else if key = 67 then some .forth
  else if key = 72 then some .home
  else if key = 65 then some .older
  else if key = 66 then some .newer
  else none

/-- What a key does, by the escape sequence before it. A sequence that is not known is typed
    into the line; behind a single escape the key itself is lost. -/
def decode (esc : Esc) (key : Byte) : Esc × List Action :=
  if key = 10 ∨ key = 13 then (.none, [.enter])
  else
    match esc with
    | .none => if key = 27 then (.escape, []) else (.none, [plainAction key])
    | .escape => if key = 91 then (.bracket, []) else (.none, [.edit (.char 27)])
    | .bracket =>
      match arrowAction key with
      | some e => (.none, [.edit e])
      | none => (.none, [.edit (.char 27), .edit (.char 91), .edit (.char key)])

/-- The line at a place of the history; at place 0 there is an empty one. -/
def Line.recalled (l : Line) (place : ℕ) : List Byte := ([] :: l.recent).getD place []

/-- A change of the line; a character that makes it longer than 256 is refused. -/
def Line.edit (l : Line) : Edit → Line
  | .char c =>
    if (l.insert ∨ l.text.right = []) ∧ maxCmdbufSize ≤ l.text.toList.length then l
    else if l.insert then { l with text := l.text.insert c }
    else { l with text := l.text.overwrite c }
  | .home => { l with text := .atStart l.text.toList }
  | .toEnd => { l with text := .atEnd l.text.toList }
  | .forth => { l with text := l.text.forth }
  | .back => { l with text := l.text.back }
  | .delete => { l with text := l.text.delete }
  | .backspace => { l with text := l.text.backspace }
  | .kill => { l with text := l.text.kill }
  | .killAll => { l with text := .atStart [] }
  | .mode => { l with insert := !l.insert }
  | .older =>
    if l.place < l.recent.length then
      { l with text := .atEnd (l.recalled (l.place + 1)), place := l.place + 1 }
    else l
  | .newer =>
    if l.place ≠ 0 then
      { l with text := .atEnd (l.recalled (l.place - 1)), place := l.place - 1 }
    else l

/-- The next line: it begins empty and in insert mode, with the history as it is. -/
def Line.fresh (l : Line) : Line := { l with text := .atStart [], insert := true }

/-- The lines that can be recalled behind `text`: at most 19, and none that is empty or starts
    with `!`. -/
def remember (recent : List (List Byte)) (text : List Byte) : List (List Byte) :=
  if text ≠ [] ∧ text.head? ≠ some 33 then (text :: recent).take (histMax - 1) else recent

/-- The lines typed, and what became of those before. -/
structure Session where
  line : Line
  esc : Esc
  replies : List Reply

/-- A session in front of its first key: an empty line, no escape sequence and no reply. -/
def Session.start : Session := ⟨⟨.atStart [], true, [], 0⟩, .none, []⟩

/-- An action; a line of 256 characters is too long to be entered. An interrupted line leaves
    the place in the history as it is. -/
def Session.act (s : Session) : Action → Option Session
  | .edit e => some { s with line := s.line.edit e }
  | .interrupt => some { s with line := s.line.fresh, replies := s.replies ++ [⟨-1, []⟩] }
  | .enter =>
    let text := s.line.text.toList
    if text.length < maxCmdbufSize then
      some { s with
        line := { s.line.fresh with recent := remember s.line.recent (cString text), place := 0 }
        replies := s.replies ++ [⟨text.length, cString text⟩] }
    else none

/-- A key that is typed: it may be part of an escape sequence, and stands for no or more edits.
    -/
def Session.key (s : Session) (key : Byte) : Option Session :=
  (decode s.esc key).2.foldlM Session.act { s with esc := (decode s.esc key).1 }

/-! ## The history -/

/-- The lines of the history as a ring of texts. -/
def Hist.ring (h : Hist) : RingBuffer (List Byte) := ⟨h.line, h.addIdx, h.max⟩

/-- The history holds the lines `recent`, and `hist_cur` is at `place`. -/
structure HistIs (h : Hist) (recent : List (List Byte)) (place : ℕ) : Prop where
  slots : h.lines.length = histMax
  slot : ∀ s ∈ h.lines, s.length = maxCmdbufSize
  ring : h.ring.Recent histMax recent
  short : ∀ t ∈ recent, t.length < maxCmdbufSize ∧ 0 ∉ t
  place_le : place ≤ recent.length
  cur : h.cur = h.ring.before place ∨ h.cur = -1 ∧ recent = []

section History

variable {h : Hist} {recent : List (List Byte)} {place : ℕ} {buf s : List Byte}

theorem histInit_is : HistIs histInit [] 0 where
  slots := List.length_replicate
  slot := fun s hs => by
    rw [List.eq_of_mem_replicate hs]
    exact List.length_replicate
  ring := RingBuffer.Recent.empty histInit.line (by decide)
  short := fun t ht => absurd ht List.not_mem_nil
  place_le := le_rfl
  cur := Or.inr ⟨rfl, rfl⟩

theorem Hist.before_zero (h : Hist) : h.ring.before 0 = h.addIdx := RingBuffer.before_zero

/-- A string copied to the start of a buffer. -/
theorem strcpy_eq (hlen : s.length < buf.length) :
    ∃ junk, strcpy buf s = some (s ++ 0 :: junk) ∧ (s ++ 0 :: junk).length = buf.length := by
  have hput : put buf 0 (s ++ [0]) = s ++ 0 :: buf.drop (s.length + 1) := by
    simp [put]
  refine ⟨buf.drop (s.length + 1), ?_, ?_⟩
  · rw [strcpy, if_pos (show s.length + 1 ≤ buf.length from hlen), hput]
  · simp only [List.length_append, List.length_cons, List.length_drop]
    omega

/-- The place `hist_cur` is at, once a line has been read. -/
theorem HistIs.cur_eq (hh : HistIs h recent place) (hne : recent ≠ []) :
    h.cur = h.ring.before place := by
  rcases hh.cur with hcur | ⟨-, hnil⟩
  · exact hcur
  · exact absurd hnil hne

/-- Another place is not the one that is stored to next. -/
theorem HistIs.before_ne (hh : HistIs h recent place) {i : ℕ} (hi : i + 1 ≤ recent.length) :
    ((h.ring.before (i + 1) : ℕ) : ℤ) ≠ h.addIdx := by
  intro heq
  have hmax : i + 1 ≤ h.ring.max := hh.ring.length_eq ▸ hi
  exact Nat.succ_ne_zero i ((RingBuffer.before_eq_idx hmax).mp (Int.ofNat.inj heq))

theorem HistIs.line_eq (hh : HistIs h recent place) {i : ℕ} (hi : i < recent.length) :
    h.line (h.ring.before (i + 1)) = ([] :: recent).getD (i + 1) [] := by
  have hread : h.line (h.ring.before (i + 1)) = recent[i] := hh.ring.read i hi
  rw [hread]
  simp [hi]

/-- `^P` goes to the line before. -/
theorem HistIs.prev (hh : HistIs h recent place) (hmore : place < recent.length) :
    ∃ h', HistIs h' recent (place + 1) ∧
      histPrev h = (h', some (([] :: recent).getD (place + 1) [])) := by
  have hmax : place < h.ring.max := hh.ring.length_eq ▸ hmore
  have hcur := hh.cur_eq (List.ne_nil_of_length_pos (Nat.zero_lt_of_lt hmore))
  have hnext : (if h.cur - 1 < 0 then (h.max : ℤ) else h.cur - 1) =
      h.ring.before (place + 1) := by
    rw [RingBuffer.before_succ hh.ring.idx_le hmax, hcur]
    show (if ((h.ring.before place : ℕ) : ℤ) - 1 < 0 then (h.ring.max : ℤ) else _) = _
    split_ifs <;> omega
  refine ⟨{ h with cur := h.ring.before (place + 1) }, ?_, ?_⟩
  · exact ⟨hh.slots, hh.slot, hh.ring, hh.short, hmore, Or.inl rfl⟩
  · rw [histPrev, if_neg (by omega)]
    dsimp only
    rw [hnext, if_neg (hh.before_ne hmore), Int.toNat_natCast, hh.line_eq hmore]

/-- There is none before the first. -/
theorem HistIs.prev_none (hh : HistIs h recent place) (hlast : ¬ place < recent.length) :
    histPrev h = (h, none) := by
  have hplace : place = h.ring.max := by
    have hmax := hh.ring.length_eq
    have hle := hh.place_le
    omega
  rcases hh.cur with hcur | ⟨hcur, -⟩
  · have hidx : (if h.cur - 1 < 0 then (h.max : ℤ) else h.cur - 1) = h.addIdx := by
      have hback := RingBuffer.before_max hh.ring.idx_le
      rw [hcur, hplace]
      show (if ((h.ring.before h.ring.max : ℕ) : ℤ) - 1 < 0 then (h.ring.max : ℤ) else _) =
        (h.ring.idx : ℤ)
      split_ifs at hback ⊢ <;> omega
    rw [histPrev, if_neg (by omega)]
    dsimp only
    rw [hidx, if_pos rfl]
  · rw [histPrev, if_pos (by omega)]

/-- `^N` goes to the line behind, or to an empty one. -/
theorem HistIs.next (hh : HistIs h recent (place + 1)) :
    ∃ h', HistIs h' recent place ∧ histNext h = (h', some (([] :: recent).getD place [])) := by
  have hle : place + 1 ≤ recent.length := hh.place_le
  have hmax : place < h.ring.max := hh.ring.length_eq ▸ hle
  have hcur := hh.cur_eq (List.ne_nil_of_length_pos (Nat.zero_lt_of_lt hle))
  have hnext : (if h.cur + 1 > h.max then 0 else h.cur + 1) = h.ring.before place := by
    rw [RingBuffer.before_pred hh.ring.idx_le hmax, hcur]
    show (if ((h.ring.before (place + 1) : ℕ) : ℤ) + 1 > (h.ring.max : ℤ) then (0 : ℤ) else _) = _
    split_ifs <;> omega
  refine ⟨{ h with cur := h.ring.before place }, ?_, ?_⟩
  · exact ⟨hh.slots, hh.slot, hh.ring, hh.short, Nat.le_of_succ_le hle, Or.inl rfl⟩
  · rw [histNext, if_neg (by omega), if_neg (hcur ▸ hh.before_ne hle)]
    dsimp only
    rw [hnext, Int.toNat_natCast]
    cases place with
    | zero =>
      have hzero : ((h.ring.before 0 : ℕ) : ℤ) = h.addIdx :=
        congrArg Nat.cast h.before_zero
      rw [if_pos hzero]
      rfl
    | succ place => rw [if_neg (hh.before_ne (Nat.le_of_succ_le hle)), hh.line_eq (by omega)]

theorem HistIs.next_none (hh : HistIs h recent 0) : histNext h = (h, none) := by
  rcases hh.cur with hcur | ⟨hcur, -⟩
  · have hidx : h.cur = h.addIdx := hcur.trans (congrArg Nat.cast h.before_zero)
    rw [histNext, if_neg (by omega), if_pos hidx]
  · rw [histNext, if_pos (by omega)]

/-- A line that is added is the last one, and none has been recalled then. -/
theorem HistIs.add (hh : HistIs h recent place) {text : List Byte} (h0 : 0 ∉ text)
    (hlen : text.length < maxCmdbufSize) :
    ∃ h', creadAddToHist h text = some h' ∧
      HistIs { h' with cur := h'.addIdx } ((text :: recent).take (histMax - 1)) 0 := by
  have hidx : h.addIdx < h.lines.length := by
    rw [hh.slots]
    exact Nat.lt_of_le_of_lt hh.ring.idx_le hh.ring.max_lt
  have hslot : (h.lines.getD h.addIdx []).length = maxCmdbufSize := by
    rw [List.getD_eq_getElem _ _ hidx]
    exact hh.slot _ (List.getElem_mem hidx)
  obtain ⟨junk, hcopy, hsize⟩ := strcpy_eq (hslot ▸ hlen)
  rw [hslot] at hsize
  have hnext : (if h.addIdx + 1 ≥ histMax then 0 else h.addIdx + 1) =
      RingBuffer.next histMax h.addIdx := by
    unfold RingBuffer.next
    split_ifs <;> omega
  have hpush := hh.ring.push text
  refine ⟨_, by rw [creadAddToHist, hcopy]; rfl, ?_⟩
  constructor
  · rw [List.length_set]
    exact hh.slots
  · intro s hs
    rcases List.mem_or_eq_of_mem_set hs with hs | rfl
    · exact hh.slot s hs
    · exact hsize
  · rw [hnext]
    have hring : ∀ cur, (Hist.mk (h.lines.set h.addIdx (text ++ 0 :: junk))
        (RingBuffer.next histMax h.addIdx)
        (if RingBuffer.next histMax h.addIdx > h.max then RingBuffer.next histMax h.addIdx
          else h.max) cur).ring = RingBuffer.push histMax h.ring text := by
      intro cur
      unfold Hist.ring RingBuffer.push
      congr 1
      funext i
      unfold Hist.line
      by_cases hi : i = h.addIdx
      · subst hi
        rw [if_pos rfl, List.getD_eq_getElem _ _ (by rw [List.length_set]; exact hidx),
          List.getElem_set_self, cString_append h0]
      · rw [if_neg hi, List.getD_eq_getElem?_getD, List.getElem?_set_ne (Ne.symm hi),
          ← List.getD_eq_getElem?_getD]
    rw [hring]
    exact hpush
  · intro t ht
    rcases List.mem_cons.mp (List.mem_of_mem_take ht) with rfl | ht
    · exact ⟨hlen, h0⟩
    · exact hh.short t ht
  · exact Nat.zero_le _
  · exact Or.inl (congrArg Nat.cast (Hist.before_zero _).symm)

/-- Behind a line none has been recalled. -/
theorem HistIs.reset (hh : HistIs h recent place) : HistIs { h with cur := h.addIdx } recent 0 :=
  ⟨hh.slots, hh.slot, hh.ring, hh.short, Nat.zero_le _,
    Or.inl (congrArg Nat.cast (Hist.before_zero _).symm)⟩

end History

/-! ## Edits -/

/-- The variables of `cread_line` stand for the line. -/
structure Refines (ed : Editor) (l : Line) : Prop where
  text : l.text.In ed.buf ed.num ed.eolNum
  size : ed.buf.length = maxCmdbufSize
  insert : ed.insert = l.insert
  hist : HistIs ed.hist l.recent l.place

/-- All characters of the line, and of those that can be recalled, are shown as they are. -/
def Line.Plain (l : Line) : Prop :=
  (∀ c ∈ l.text.toList, 32 ≤ c) ∧ ∀ t ∈ l.recent, ∀ c ∈ t, 32 ≤ c

/-- What has been put out shows the line behind `pre`, whose last character is the first one. -/
def Editor.Shows (ed : Editor) (pre : List Byte) (l : Line) : Prop :=
  ((Zipper.mk pre []).puts ed.out).Shows pre l.text

/-- A change of the variables is one of the line, and is shown. -/
structure Edits (pre : List Byte) (ed : Editor) (l : Line) (ed' : Editor) (l' : Line) : Prop where
  refines : Refines ed' l'
  escLen : ed'.escLen = ed.escLen
  escSave : ed'.escSave = ed.escSave
  shows : l.Plain → l'.Plain → ed.Shows pre l → ed'.Shows pre l'

section Edits

variable {pre : List Byte} {ed ed1 ed2 : Editor} {l l1 l2 : Line}

theorem Edits.trans (h1 : Edits pre ed l ed1 l1) (hplain : l.Plain → l1.Plain)
    (h2 : Edits pre ed1 l1 ed2 l2) : Edits pre ed l ed2 l2 where
  refines := h2.refines
  escLen := h2.escLen.trans h1.escLen
  escSave := h2.escSave.trans h1.escSave
  shows := fun hl hl2 hshow => h2.shows (hplain hl) hl2 (h1.shows hl (hplain hl) hshow)

theorem cString_of_plain {s : List Byte} (h : ∀ c ∈ s, 32 ≤ c) : cString s = s :=
  cString_of_not_mem fun h0 => absurd (h 0 h0) (by decide)

/-- The row of the terminal behind what else is put out. -/
theorem puts_putch (ed : Editor) (pre cs : List Byte) :
    (Zipper.mk pre []).puts (ed.putch cs).out = ((Zipper.mk pre []).puts ed.out).puts cs :=
  Zipper.puts_append cs

theorem Line.Plain.right (h : l.Plain) : ∀ c ∈ l.text.right, 32 ≤ c :=
  fun c hc => h.1 c (Zipper.mem_toList.mpr (Or.inr hc))

theorem Line.Plain.left (h : l.Plain) : ∀ c ∈ l.text.left, 32 ≤ c :=
  fun c hc => h.1 c (Zipper.mem_toList.mpr (Or.inl hc))

/-- What `putnstr` shows of the text behind the cursor. -/
theorem Refines.putnstr_eq (h : Refines ed l) :
    putnstr ed.buf ed.num (ed.eolNum - ed.num) = cString l.text.right := by
  unfold putnstr
  rw [h.text.drop_eq]

theorem Refines.right_length (h : Refines ed l) : ed.eolNum - ed.num = l.text.right.length := by
  rw [h.text.num_eq, h.text.eol_eq]
  omega

theorem Refines.length_eq (h : Refines ed l) : l.text.toList.length = ed.eolNum := by
  rw [Zipper.length_toList, h.text.eol_eq]

/-- The cursor at the end of the line. -/
theorem Refines.right_nil (h : Refines ed l) (hend : ¬ ed.num < ed.eolNum) :
    l.text.right = [] := by
  rw [← List.length_eq_zero_iff, ← h.right_length]
  omega

theorem Refines.right_cons (h : Refines ed l) (hend : ed.num < ed.eolNum) :
    ∃ c right, l.text.right = c :: right := by
  cases hr : l.text.right with
  | nil =>
    have hlen := h.right_length
    rw [hr, List.length_nil] at hlen
    omega
  | cons c right => exact ⟨c, right, rfl⟩

theorem Refines.left_cons (h : Refines ed l) (hnum : ed.num ≠ 0) :
    ∃ c left, l.text.left = c :: left := by
  cases hl : l.text.left with
  | nil => exact absurd (h.text.left_eq_nil.mp hl) hnum
  | cons c left => exact ⟨c, left, rfl⟩

theorem Refines.left_nil (h : Refines ed l) (hnum : ed.num = 0) : l.text.left = [] :=
  h.text.left_eq_nil.mpr hnum

/-- `^A`. -/
theorem beginningOfLine_edits (h : Refines ed l) :
    Edits pre ed l (beginningOfLine ed) (l.edit .home) where
  refines := ⟨h.text.move (Zipper.toList_atStart _), h.size, h.insert, h.hist⟩
  escLen := rfl
  escSave := rfl
  shows := by
    rintro - - ⟨hleft, n, hright⟩
    refine ⟨?_, n, ?_⟩
    · show ((Zipper.mk pre []).puts (ed.putch _).out).left = _
      rw [puts_putch, Zipper.puts_back (by rw [hleft, h.text.num_eq]; simp), hleft, h.text.num_eq]
      simp [Line.edit, Zipper.atStart]
    · show ((Zipper.mk pre []).puts (ed.putch _).out).right = _
      rw [puts_putch, Zipper.puts_back (by rw [hleft, h.text.num_eq]; simp), hleft, hright,
        h.text.num_eq, List.take_left]
      simp [Line.edit, Zipper.atStart, Zipper.toList]

/-- `^K`. -/
theorem eraseToEol_edits (h : Refines ed l) : Edits pre ed l (eraseToEol ed) (l.edit .kill) := by
  unfold eraseToEol
  by_cases hend : ed.num < ed.eolNum
  · rw [if_pos hend]
    refine ⟨⟨h.text.kill, h.size, h.insert, h.hist⟩, rfl, rfl, ?_⟩
    rintro - - ⟨hleft, n, hright⟩
    have hrow := @Zipper.puts_over ((Zipper.mk pre []).puts ed.out) []
      (fun c hc => absurd hc List.not_mem_nil) (ed.eolNum - ed.num)
    rw [List.nil_append, List.length_nil, Nat.zero_add, List.nil_append] at hrow
    refine ⟨?_, ed.eolNum - ed.num + n, ?_⟩
    · show ((Zipper.mk pre []).puts (ed.putch _).out).left = _
      rw [puts_putch, hrow, hleft]
      rfl
    · show ((Zipper.mk pre []).puts (ed.putch _).out).right = _
      rw [puts_putch, hrow, hright, h.right_length, List.drop_left, List.replicate_add]
      rfl
  · have hnil := h.right_nil hend
    have hsame : l.edit .kill = l := by
      have htext : l.text.kill = l.text := by
        rw [Zipper.kill, ← hnil]
      rw [Line.edit, htext]
    rw [if_neg hend, hsame]
    exact ⟨h, rfl, rfl, fun _ _ hshow => hshow⟩

/-- `^E`. -/
theorem refreshToEol_edits (h : Refines ed l) :
    Edits pre ed l (refreshToEol ed) (l.edit .toEnd) := by
  unfold refreshToEol
  have hmove := h.text.move (Zipper.toList_atEnd l.text.toList)
  have heol : (Zipper.atEnd l.text.toList).left.length = ed.eolNum := by
    rw [← h.length_eq]
    exact List.length_reverse
  rw [heol] at hmove
  by_cases hend : ed.num < ed.eolNum
  · rw [if_pos hend]
    refine ⟨⟨hmove, h.size, h.insert, h.hist⟩, rfl, rfl, ?_⟩
    rintro hplain - ⟨hleft, n, hright⟩
    refine ⟨?_, n, ?_⟩
    · show ((Zipper.mk pre []).puts (ed.putch _).out).left = _
      rw [puts_putch, h.putnstr_eq, cString_of_plain hplain.right, Zipper.puts_text hplain.right,
        hleft]
      simp [Line.edit, Zipper.atEnd, Zipper.toList]
    · show ((Zipper.mk pre []).puts (ed.putch _).out).right = _
      rw [puts_putch, h.putnstr_eq, cString_of_plain hplain.right, Zipper.puts_text hplain.right,
        hright, List.drop_left]
      rfl
  · have hnil := h.right_nil hend
    have hsame : l.edit .toEnd = l := by
      have htext : Zipper.atEnd l.text.toList = l.text := by
        rw [Zipper.atEnd, Zipper.toList, hnil, List.append_nil, List.reverse_reverse, ← hnil]
      rw [Line.edit, htext]
    rw [if_neg hend, hsame]
    exact ⟨h, rfl, rfl, fun _ _ hshow => hshow⟩

/-- `^F`. -/
theorem forth_edits (h : Refines ed l) :
    Edits pre ed l (if ed.num < ed.eolNum then
      { ed.putch [byteAt ed.buf ed.num] with num := ed.num + 1 } else ed) (l.edit .forth) := by
  by_cases hend : ed.num < ed.eolNum
  · obtain ⟨c, right, hright⟩ := h.right_cons hend
    have hforth : l.text.forth = ⟨c :: l.text.left, right⟩ := by rw [Zipper.forth, hright]
    have hmove := h.text.move (w := ⟨c :: l.text.left, right⟩) (by
      simp [Zipper.toList, hright])
    have hbyte : byteAt ed.buf ed.num = c := by
      obtain ⟨junk, hbuf⟩ := h.text.holds
      rw [hbuf, h.text.num_eq, hright, ← List.length_reverse, List.cons_append]
      exact byteAt_append_cons _ _ _
    rw [if_pos hend, hbyte, Line.edit, hforth]
    refine ⟨⟨?_, h.size, h.insert, h.hist⟩, rfl, rfl, ?_⟩
    · rw [List.length_cons, ← h.text.num_eq] at hmove
      exact hmove
    · rintro hplain - ⟨hleft, n, hrow⟩
      have hc : ∀ d ∈ [c], 32 ≤ d := by
        intro d hd
        rw [List.mem_singleton.mp hd]
        exact hplain.right c (hright ▸ List.mem_cons_self)
      refine ⟨?_, n, ?_⟩
      · show ((Zipper.mk pre []).puts (ed.putch _).out).left = _
        rw [puts_putch, Zipper.puts_text hc, hleft]
        rfl
      · show ((Zipper.mk pre []).puts (ed.putch _).out).right = _
        rw [puts_putch, Zipper.puts_text hc, hrow, hright]
        rfl
  · have hsame : l.edit .forth = l := by
      rw [Line.edit, Zipper.forth, h.right_nil hend]
    rw [if_neg hend, hsame]
    exact ⟨h, rfl, rfl, fun _ _ hshow => hshow⟩

/-- `^B`. -/
theorem back_edits (h : Refines ed l) :
    Edits pre ed l (if ed.num ≠ 0 then { ed.putch [8] with num := ed.num - 1 } else ed)
      (l.edit .back) := by
  by_cases hnum : ed.num ≠ 0
  · obtain ⟨c, left, hleft⟩ := h.left_cons hnum
    have hback : l.text.back = ⟨left, c :: l.text.right⟩ := by rw [Zipper.back, hleft]
    have hmove := h.text.move (w := ⟨left, c :: l.text.right⟩) (by
      simp [Zipper.toList, hleft])
    have hlen : left.length = ed.num - 1 := by
      rw [h.text.num_eq, hleft, List.length_cons]
      omega
    rw [if_pos hnum, Line.edit, hback]
    refine ⟨⟨?_, h.size, h.insert, h.hist⟩, rfl, rfl, ?_⟩
    · rw [hlen] at hmove
      exact hmove
    · rintro - - ⟨hrow, n, hright⟩
      have hlen1 : 1 ≤ ((Zipper.mk pre []).puts ed.out).left.length := by
        rw [hrow, hleft]
        simp
      have hputs := Zipper.puts_back hlen1
      rw [List.replicate_one] at hputs
      refine ⟨?_, n, ?_⟩
      · show ((Zipper.mk pre []).puts (ed.putch _).out).left = _
        rw [puts_putch, hputs, hrow, hleft]
        rfl
      · show ((Zipper.mk pre []).puts (ed.putch _).out).right = _
        rw [puts_putch, hputs, hrow, hleft, hright]
        rfl
  · have hsame : l.edit .back = l := by
      rw [Line.edit, Zipper.back, h.left_nil (not_not.mp hnum)]
    rw [if_neg hnum, hsame]
    exact ⟨h, rfl, rfl, fun _ _ hshow => hshow⟩

/-- `^D`. -/
theorem deleteChar_edits (h : Refines ed l) :
    ∃ ed', deleteChar ed = some ed' ∧ Edits pre ed l ed' (l.edit .delete) := by
  unfold deleteChar
  by_cases hend : ed.num < ed.eolNum
  · obtain ⟨c, right, hright⟩ := h.right_cons hend
    have hwlen : ed.eolNum - ed.num - 1 = right.length := by
      rw [h.right_length, hright, List.length_cons, Nat.add_sub_cancel]
    obtain ⟨buf, hmove, hsize, hin⟩ := h.text.delete hend
    have hrefines : ∀ out, Refines { ed with
        buf := buf, eolNum := ed.eolNum - 1, out := out } (l.edit .delete) :=
      fun out => ⟨hin, hsize.trans h.size, h.insert, h.hist⟩
    have htext : putnstr buf ed.num (ed.eolNum - ed.num - 1) = cString right := by
      unfold putnstr
      rw [Nat.sub_right_comm, hin.drop_eq, Zipper.delete, hright, List.tail_cons]
    have hle := h.text.eol_le
    have htext' : (if ed.eolNum - ed.num - 1 ≠ 0 then
        putnstr buf ed.num (ed.eolNum - ed.num - 1) else []) = cString right := by
      rw [htext, hwlen]
      cases right with
      | nil => rfl
      | cons d right => rw [if_pos (List.length_pos_of_mem List.mem_cons_self).ne']
    rw [if_pos hend]
    dsimp only
    rw [Zipper.memmove_if (by omega) (by omega), hmove]
    refine ⟨_, rfl, hrefines _, rfl, rfl, ?_⟩
    rintro hplain - ⟨hleft, n, hrow⟩
    have hrightp : ∀ d ∈ right, 32 ≤ d := fun d hd =>
      hplain.right d (hright ▸ List.mem_cons_of_mem c hd)
    have hover := @Zipper.puts_over ((Zipper.mk pre []).puts ed.out) right hrightp 1
    rw [List.replicate_one, List.singleton_append] at hover
    have hputs : (Zipper.mk pre []).puts (ed.out ++ ((if ed.eolNum - ed.num - 1 ≠ 0 then
        putnstr buf ed.num (ed.eolNum - ed.num - 1) else []) ++
          32 :: List.replicate (ed.eolNum - ed.num - 1 + 1) 8)) =
        ⟨l.text.left ++ pre, right ++ 32 :: List.replicate n 32⟩ := by
      rw [Zipper.puts_append, htext', hwlen, cString_of_plain hrightp, hover, hleft, hrow, hright]
      simp
    refine ⟨congrArg Zipper.left hputs, n + 1, (congrArg Zipper.right hputs).trans ?_⟩
    rw [Line.edit, Zipper.delete, hright]
    rfl
  · have hsame : l.edit .delete = l := by
      have htext : l.text.delete = l.text := by
        rw [Zipper.delete, h.right_nil hend, List.tail_nil, ← h.right_nil hend]
      rw [Line.edit, htext]
    rw [if_neg hend, hsame]
    exact ⟨ed, rfl, h, rfl, rfl, fun _ _ hshow => hshow⟩

/-- `^H` and the two `DEL`s. -/
theorem backspaceChar_edits (h : Refines ed l) :
    ∃ ed', backspaceChar ed = some ed' ∧ Edits pre ed l ed' (l.edit .backspace) := by
  unfold backspaceChar
  by_cases hnum : ed.num ≠ 0
  · obtain ⟨c, left, hleft⟩ := h.left_cons hnum
    obtain ⟨buf, hmove, hsize, hin⟩ := h.text.backspace (Nat.pos_of_ne_zero hnum)
    have hrest : ed.eolNum - 1 - (ed.num - 1) = ed.eolNum - ed.num := by omega
    have htext : putnstr buf (ed.num - 1) (ed.eolNum - ed.num) = cString l.text.right := by
      have hdrop := hin.drop_eq
      rw [hrest] at hdrop
      unfold putnstr
      rw [hdrop, Zipper.backspace]
    rw [if_pos hnum]
    dsimp only
    rw [hmove]
    refine ⟨_, rfl, ⟨hin, hsize.trans h.size, h.insert, h.hist⟩, rfl, rfl, ?_⟩
    rintro hplain - ⟨hrow, n, hright⟩
    have hlen1 : 1 ≤ ((Zipper.mk pre []).puts ed.out).left.length := by
      rw [hrow, hleft]
      simp
    have hback := Zipper.puts_back hlen1
    rw [List.replicate_one, hrow, hleft, hright] at hback
    have hover := @Zipper.puts_over ⟨left ++ pre, c :: (l.text.right ++ List.replicate n 32)⟩
      l.text.right hplain.right 1
    rw [List.replicate_one, List.singleton_append] at hover
    have hputs : (Zipper.mk pre []).puts (ed.out ++ (8 :: (putnstr buf (ed.num - 1)
        (ed.eolNum - ed.num) ++ 32 :: List.replicate (ed.eolNum - ed.num + 1) 8))) =
        ⟨left ++ pre, l.text.right ++ 32 :: List.replicate n 32⟩ := by
      rw [← List.singleton_append, Zipper.puts_append, Zipper.puts_append, hback, htext,
        h.right_length, cString_of_plain hplain.right]
      refine (hover.trans ?_)
      simp
    refine ⟨(congrArg Zipper.left hputs).trans ?_, n + 1, congrArg Zipper.right hputs⟩
    rw [Line.edit, Zipper.backspace, hleft]
    rfl
  · have hsame : l.edit .backspace = l := by
      have hnil := h.left_nil (not_not.mp hnum)
      have htext : l.text.backspace = l.text := by
        rw [Zipper.backspace, hnil, List.tail_nil, ← hnil]
      rw [Line.edit, htext]
    rw [if_neg hnum, hsame]
    exact ⟨ed, rfl, h, rfl, rfl, fun _ _ hshow => hshow⟩

/-- A character that is inserted. -/
theorem insertChar_edits (h : Refines ed l) (hroom : ed.eolNum < maxCmdbufSize) (c : Byte) :
    ∃ ed', insertChar ed (ed.eolNum + 1) c = some ed' ∧
      Edits pre ed l ed' { l with text := l.text.insert c } := by
  have hle : ed.num ≤ ed.eolNum := by
    rw [h.text.num_eq, h.text.eol_eq]
    omega
  have hwlen : ed.eolNum + 1 - ed.num = ed.eolNum - ed.num + 1 := by omega
  obtain ⟨buf1, buf, hmove, hstore, hsize, hin⟩ := h.text.insert (h.size ▸ hroom) c
  have hin' := hin.move (w := ⟨l.text.left, c :: l.text.right⟩) (by
    simp [Zipper.toList, Zipper.insert])
  have htext : putnstr buf ed.num (ed.eolNum + 1 - ed.num) = cString (c :: l.text.right) := by
    unfold putnstr
    rw [show ed.num = l.text.left.length from h.text.num_eq, hin'.drop_eq]
  have hopen : (if ed.eolNum + 1 - ed.num > 1 then
      Zipper.memmove ed.buf (ed.num + 1) ed.num (ed.eolNum + 1 - ed.num - 1) else some ed.buf) =
      some buf1 := by
    rw [hwlen, Nat.add_sub_cancel, ← hmove, ← Zipper.memmove_if (by rw [h.size]; omega)
      (by rw [h.size]; omega)]
    split_ifs <;> first | rfl | omega
  unfold insertChar
  dsimp only
  rw [hopen]
  show ∃ ed', (do
    let buf ← Zipper.store buf1 ed.num c
    some _) = some ed' ∧ _
  rw [hstore]
  refine ⟨_, rfl, ⟨hin, hsize.trans h.size, h.insert, h.hist⟩, rfl, rfl, ?_⟩
  rintro - hplain ⟨hleft, n, hright⟩
  have hcright : ∀ d ∈ c :: l.text.right, 32 ≤ d := by
    intro d hd
    rcases List.mem_cons.mp hd with rfl | hd
    · exact hplain.left d List.mem_cons_self
    · exact hplain.right d hd
  have hputs : (Zipper.mk pre []).puts (ed.out ++ (putnstr buf ed.num (ed.eolNum + 1 - ed.num) ++
      List.replicate (ed.eolNum + 1 - ed.num - 1) 8)) =
      ⟨c :: l.text.left ++ pre, l.text.right ++ List.replicate (n - 1) 32⟩ := by
    rw [Zipper.puts_append, htext, cString_of_plain hcright, Zipper.puts_append,
      Zipper.puts_text hcright, hwlen, Nat.add_sub_cancel, h.right_length, hleft, hright,
      Zipper.puts_back (by simp)]
    simp
  exact ⟨congrArg Zipper.left hputs, n - 1, congrArg Zipper.right hputs⟩

/-- A character that replaces another one, or is put behind the line. -/
theorem replaceChar_edits (h : Refines ed l)
    (hroom : l.text.right = [] → ed.eolNum < maxCmdbufSize) (c : Byte) :
    ∃ ed', replaceChar ed (if ed.num = ed.eolNum then ed.eolNum + 1 else ed.eolNum) c = some ed' ∧
      Edits pre ed l ed' { l with text := l.text.overwrite c } := by
  -- the array, with or without a character under the cursor
  obtain ⟨buf, hstore, hsize, hin⟩ : ∃ buf, Zipper.store ed.buf ed.num c = some buf ∧
      buf.length = ed.buf.length ∧ (l.text.overwrite c).In buf (ed.num + 1)
        (if ed.num = ed.eolNum then ed.eolNum + 1 else ed.eolNum) := by
    by_cases hend : ed.num = ed.eolNum
    · have hnil := h.text.right_eq_nil.mpr hend
      obtain ⟨buf1, buf, hmove, hstore, hsize, hin⟩ := h.text.insert (h.size ▸ hroom hnil) c
      have hsame : buf1 = ed.buf := by
        have hle := hroom hnil
        rw [← Zipper.memmove_if (by rw [h.size]; omega) (by rw [h.size]; omega), hend,
          Nat.sub_self, if_neg (fun hne => hne rfl)] at hmove
        exact (Option.some.inj hmove).symm
      rw [hsame] at hstore
      refine ⟨buf, hstore, hsize, ?_⟩
      rw [if_pos hend]
      rw [Zipper.insert] at hin
      rwa [Zipper.overwrite, hnil, List.tail_nil, ← hnil]
    · rw [if_neg hend]
      have hlt : ed.num < ed.eolNum := by
        have hlen := h.right_length
        have hpos : l.text.right.length ≠ 0 := fun h0 =>
          hend (h.text.right_eq_nil.mp (List.length_eq_zero_iff.mp h0))
        omega
      exact h.text.overwrite hlt c
  unfold replaceChar
  rw [hstore]
  refine ⟨_, rfl, ⟨hin, hsize.trans h.size, h.insert, h.hist⟩, rfl, rfl, ?_⟩
  rintro - hplain ⟨hleft, n, hright⟩
  have hc : ∀ d ∈ [c], 32 ≤ d := by
    intro d hd
    rw [List.mem_singleton.mp hd]
    exact hplain.left c List.mem_cons_self
  have htext : putnstr buf ed.num 1 = [c] := by
    obtain ⟨junk, hbuf⟩ := hin.holds
    have hdrop : (buf.drop ed.num).take 1 = [c] := by
      rw [hbuf, h.text.num_eq, Zipper.overwrite, List.reverse_cons, List.append_assoc,
        List.drop_left' List.length_reverse]
      rfl
    unfold putnstr
    rw [hdrop, cString_of_plain hc]
  have hputs : (Zipper.mk pre []).puts (ed.out ++ putnstr buf ed.num 1) =
      ⟨c :: (l.text.left ++ pre), (l.text.right ++ List.replicate n 32).tail⟩ := by
    rw [Zipper.puts_append, htext, Zipper.puts_text hc, hleft, hright]
    simp
  have htail : ∃ k, (l.text.right ++ List.replicate n 32).tail =
      l.text.right.tail ++ List.replicate k 32 := by
    cases l.text.right with
    | nil => exact ⟨n - 1, List.tail_replicate⟩
    | cons d right => exact ⟨n, rfl⟩
  obtain ⟨k, hk⟩ := htail
  exact ⟨congrArg Zipper.left hputs, k, (congrArg Zipper.right hputs).trans hk⟩

/-- `^X`. -/
theorem killLine_edits (h : Refines ed l) :
    Edits pre ed l (eraseToEol (beginningOfLine ed)) (l.edit .killAll) := by
  have hhome : Edits pre ed l _ _ := beginningOfLine_edits h
  exact hhome.trans (fun hplain => hplain) (eraseToEol_edits hhome.refines)

/-- A line of the history in place of the line. -/
theorem recallLine_edits (h : Refines ed l) {hist : Hist} {place : ℕ}
    (hist_is : HistIs hist l.recent place) {hline : List Byte} (hshort : hline.length < maxCmdbufSize)
    (hline0 : 0 ∉ hline) (hplain : l.Plain → ∀ c ∈ hline, 32 ≤ c) :
    ∃ ed', recallLine ed (hist, some hline) = some ed' ∧
      Edits pre ed l ed' { l with text := .atEnd hline, place := place } := by
  have hkill := @killLine_edits pre ed l h
  obtain ⟨junk, hcopy, hsize⟩ := @strcpy_eq (eraseToEol (beginningOfLine ed)).buf hline
    (by rw [hkill.refines.size]; exact hshort)
  have hnum : (eraseToEol (beginningOfLine ed)).num = 0 := hkill.refines.text.num_eq
  have hin : (Zipper.atEnd hline).In (hline ++ 0 :: junk) hline.length hline.length :=
    ⟨by simp [Zipper.atEnd], by simp [Zipper.atEnd], 0 :: junk, by simp [Zipper.atEnd]⟩
  have htext : putnstr (hline ++ 0 :: junk) 0 hline.length = hline := by
    rw [putnstr, List.drop_zero, List.take_left, cString_of_not_mem hline0]
  refine ⟨refreshToEol { eraseToEol (beginningOfLine ed) with
    hist := hist, buf := hline ++ 0 :: junk, eolNum := hline.length }, ?_, ?_⟩
  · unfold recallLine
    dsimp only
    rw [hcopy]
    show some (refreshToEol { eraseToEol (beginningOfLine ed) with
      hist := hist, buf := hline ++ 0 :: junk, eolNum := (cString (hline ++ 0 :: junk)).length }) = _
    rw [cString_append hline0]
  · unfold refreshToEol
    dsimp only
    rw [hnum]
    by_cases hpos : 0 < hline.length
    · rw [if_pos hpos, Nat.sub_zero, htext]
      refine ⟨⟨hin, hsize.trans hkill.refines.size, hkill.refines.insert, hist_is⟩,
        hkill.escLen, hkill.escSave, ?_⟩
      rintro hl - hshow
      obtain ⟨hleft, n, hright⟩ := hkill.shows hl ⟨fun c hc => absurd hc List.not_mem_nil, hl.2⟩ hshow
      refine ⟨?_, n - hline.length, ?_⟩
      · show ((Zipper.mk pre []).puts (_ ++ hline)).left = _
        rw [Zipper.puts_append, Zipper.puts_text (hplain hl), hleft]
        rfl
      · show ((Zipper.mk pre []).puts (_ ++ hline)).right = _
        rw [Zipper.puts_append, Zipper.puts_text (hplain hl), hright]
        simp [Line.edit, Zipper.atStart, Zipper.atEnd]
    · rw [if_neg hpos]
      have hnil : hline = [] := List.eq_nil_of_length_eq_zero (Nat.eq_zero_of_not_pos hpos)
      subst hnil
      refine ⟨⟨hin, hsize.trans hkill.refines.size, hkill.refines.insert, hist_is⟩,
        hkill.escLen, hkill.escSave, ?_⟩
      rintro hl - hshow
      exact hkill.shows hl ⟨fun c hc => absurd hc List.not_mem_nil, hl.2⟩ hshow

theorem Line.recalled_mem (l : Line) (place : ℕ) :
    l.recalled place = [] ∨ l.recalled place ∈ l.recent := by
  unfold Line.recalled
  cases place with
  | zero => exact Or.inl rfl
  | succ place =>
    rw [List.getD_cons_succ]
    by_cases hlt : place < l.recent.length
    · rw [List.getD_eq_getElem _ _ hlt]
      exact Or.inr (List.getElem_mem hlt)
    · rw [List.getD_eq_default _ _ (not_lt.mp hlt)]
      exact Or.inl rfl

/-- The lines that can be recalled are strings that fit. -/
theorem HistIs.recalled (hh : HistIs ed.hist l.recent l.place) (place : ℕ) :
    (l.recalled place).length < maxCmdbufSize ∧ 0 ∉ l.recalled place ∧
      (l.Plain → ∀ c ∈ l.recalled place, 32 ≤ c) := by
  rcases l.recalled_mem place with hnil | hmem
  · rw [hnil]
    exact ⟨by decide, List.not_mem_nil, fun _ c hc => absurd hc List.not_mem_nil⟩
  · exact ⟨(hh.short _ hmem).1, (hh.short _ hmem).2, fun hplain => hplain.2 _ hmem⟩

/-- `^P`. -/
theorem older_edits (h : Refines ed l) :
    ∃ ed', recallLine ed (histPrev ed.hist) = some ed' ∧ Edits pre ed l ed' (l.edit .older) := by
  unfold Line.edit
  dsimp only
  by_cases hmore : l.place < l.recent.length
  · obtain ⟨hist, hist_is, hprev⟩ := h.hist.prev hmore
    obtain ⟨hshort, h0, hplain⟩ := h.hist.recalled (l.place + 1)
    rw [hprev, if_pos hmore]
    exact recallLine_edits h hist_is hshort h0 hplain
  · rw [h.hist.prev_none hmore, if_neg hmore]
    refine ⟨_, rfl, ⟨h.text, h.size, h.insert, h.hist⟩, rfl, rfl, ?_⟩
    rintro - - hshow
    show ((Zipper.mk pre []).puts (ed.putch [7]).out).Shows pre l.text
    rw [puts_putch]
    exact hshow

/-- `^N`. -/
theorem newer_edits (h : Refines ed l) :
    ∃ ed', recallLine ed (histNext ed.hist) = some ed' ∧ Edits pre ed l ed' (l.edit .newer) := by
  unfold Line.edit
  dsimp only
  cases hplace : l.place with
  | zero =>
    have hnone := h.hist
    rw [hplace] at hnone
    rw [hnone.next_none, if_neg (fun hne => hne rfl)]
    refine ⟨_, rfl, ⟨h.text, h.size, h.insert, h.hist⟩, rfl, rfl, ?_⟩
    rintro - - hshow
    show ((Zipper.mk pre []).puts (ed.putch [7]).out).Shows pre l.text
    rw [puts_putch]
    exact hshow
  | succ place =>
    have hmore := h.hist
    rw [hplace] at hmore
    obtain ⟨hist, hist_is, hnext⟩ := hmore.next
    obtain ⟨hshort, h0, hplain⟩ := h.hist.recalled place
    rw [hnext, if_pos (Nat.succ_ne_zero place), Nat.add_sub_cancel]
    exact recallLine_edits h hist_is hshort h0 hplain

/-- `cread_add_char`. -/
theorem creadAddChar_edits (h : Refines ed l) (c : Byte) :
    ∃ ed', creadAddChar maxCmdbufSize ed c = some ed' ∧ Edits pre ed l ed' (l.edit (.char c)) := by
  have hmore : (ed.insert || ed.num == ed.eolNum) = true ↔ l.insert ∨ l.text.right = [] := by
    rw [Bool.or_eq_true, beq_iff_eq, h.insert, h.text.right_eq_nil]
  have hfull : ed.eolNum > maxCmdbufSize - 1 ↔ maxCmdbufSize ≤ l.text.toList.length := by
    rw [h.length_eq]
    unfold maxCmdbufSize
    omega
  unfold creadAddChar Line.edit
  dsimp only
  by_cases hbell : (l.insert ∨ l.text.right = []) ∧ maxCmdbufSize ≤ l.text.toList.length
  · rw [if_pos ⟨hmore.mpr hbell.1, hfull.mpr hbell.2⟩, if_pos hbell]
    refine ⟨_, rfl, ⟨h.text, h.size, h.insert, h.hist⟩, rfl, rfl, ?_⟩
    rintro - - hshow
    unfold Editor.Shows
    rw [puts_putch]
    exact hshow
  rw [if_neg (fun hyes => hbell ⟨hmore.mp hyes.1, hfull.mp hyes.2⟩), if_neg hbell]
  have hroom : l.insert ∨ l.text.right = [] → ed.eolNum < maxCmdbufSize := by
    intro hyes
    rw [← h.length_eq]
    exact not_le.mp fun hlen => hbell ⟨hyes, hlen⟩
  by_cases hins : l.insert = true
  · have hed : ed.insert = true := h.insert.trans hins
    rw [hed, Bool.true_or, if_pos rfl, if_pos rfl, if_pos hins]
    exact insertChar_edits h (hroom (Or.inl hins)) c
  · have hed : ¬ ed.insert = true := h.insert ▸ hins
    have hmore' : (ed.insert || ed.num == ed.eolNum) = true ↔ ed.num = ed.eolNum := by
      simp [hed]
    rw [if_neg hed, if_neg hins]
    simp only [hmore']
    exact replaceChar_edits h (fun hnil => hroom (Or.inr hnil)) c

/-- The switch over a key does what the key is decoded to. -/
theorem creadControl_edits (h : Refines ed l) (hesc : ed.escLen = 0) {key : Byte} (hkey : key ≠ 27)
    {e : Edit} (he : plainAction key = .edit e) :
    ∃ ed', creadControl maxCmdbufSize ed key = some (ed', none) ∧ Edits pre ed l ed' (l.edit e) := by
  have hed : { ed with escLen := 0 } = ed := by rw [← hesc]
  have hmap : ∀ {x : Option Editor}, (∃ ed', x = some ed' ∧ Edits pre ed l ed' (l.edit e)) →
      ∃ ed', (fun ed : Editor => (ed, (none : Option ℤ))) <$> x = some (ed', none) ∧
        Edits pre ed l ed' (l.edit e) := by
    rintro x ⟨ed', rfl, hedits⟩
    exact ⟨ed', rfl, hedits⟩
  unfold plainAction at he
  unfold creadControl
  rw [if_neg hkey]
  dsimp only
  rw [hed]
  by_cases hhome : key = 1
  · rw [if_pos hhome] at he ⊢
    cases he
    exact ⟨_, rfl, beginningOfLine_edits h⟩
  rw [if_neg hhome] at he ⊢
  by_cases hctrlc : key = 3
  · rw [if_pos hctrlc] at he
    cases he
  rw [if_neg hctrlc] at he ⊢
  by_cases hforth : key = 6
  · rw [if_pos hforth] at he ⊢
    cases he
    exact ⟨_, rfl, forth_edits h⟩
  rw [if_neg hforth] at he ⊢
  by_cases hback : key = 2
  · rw [if_pos hback] at he ⊢
    cases he
    exact ⟨_, rfl, back_edits h⟩
  rw [if_neg hback] at he ⊢
  by_cases hdel : key = 4
  · rw [if_pos hdel] at he ⊢
    cases he
    exact hmap (deleteChar_edits h)
  rw [if_neg hdel] at he ⊢
  by_cases hkill : key = 11
  · rw [if_pos hkill] at he ⊢
    cases he
    exact ⟨_, rfl, eraseToEol_edits h⟩
  rw [if_neg hkill] at he ⊢
  by_cases hend : key = 5
  · rw [if_pos hend] at he ⊢
    cases he
    exact ⟨_, rfl, refreshToEol_edits h⟩
  rw [if_neg hend] at he ⊢
  by_cases hmode : key = 15
  · rw [if_pos hmode] at he ⊢
    cases he
    exact ⟨_, rfl, ⟨h.text, h.size, congrArg not h.insert, h.hist⟩, rfl, rfl,
      fun _ _ hshow => hshow⟩
  rw [if_neg hmode] at he ⊢
  by_cases hline : key = 24
  · rw [if_pos hline] at he ⊢
    cases he
    exact ⟨_, rfl, killLine_edits h⟩
  rw [if_neg hline] at he ⊢
  by_cases hbs : key = 255 ∨ key = 127 ∨ key = 8
  · rw [if_pos hbs] at he ⊢
    cases he
    exact hmap (backspaceChar_edits h)
  rw [if_neg hbs] at he ⊢
  by_cases hup : key = 16
  · rw [if_pos hup] at he ⊢
    cases he
    exact hmap (older_edits h)
  rw [if_neg hup] at he ⊢
  by_cases hdown : key = 14
  · rw [if_pos hdown] at he ⊢
    cases he
    exact hmap (newer_edits h)
  rw [if_neg hdown] at he ⊢
  cases he
  exact hmap (creadAddChar_edits h key)

theorem creadAddStr_refines (h : Refines ed l) (str : List Byte) :
    ∃ ed', creadAddStr maxCmdbufSize ed str = some ed' ∧
      Refines ed' (str.foldl (fun l c => l.edit (.char c)) l) ∧ ed'.escSave = ed.escSave := by
  unfold creadAddStr
  induction str generalizing ed l with
  | nil => exact ⟨ed, rfl, h, rfl⟩
  | cons c str ih =>
    obtain ⟨ed1, hadd, hedits⟩ := @creadAddChar_edits [] ed l h c
    obtain ⟨ed2, hrest, hrefines, hsave⟩ := ih hedits.refines
    refine ⟨ed2, ?_, hrefines, hsave.trans hedits.escSave⟩
    rw [List.foldlM_cons, hadd]
    exact hrest

/-- Where the characters of a line come from. -/
theorem Line.mem_edit {e : Edit} {c : Byte} (hc : c ∈ (l.edit e).text.toList) :
    c ∈ l.text.toList ∨ e = .char c ∨ ∃ t ∈ l.recent, c ∈ t := by
  have hrecalled : ∀ place, c ∈ l.recalled place → ∃ t ∈ l.recent, c ∈ t := by
    intro place hmem
    rcases l.recalled_mem place with hnil | hin
    · rw [hnil] at hmem
      exact absurd hmem List.not_mem_nil
    · exact ⟨_, hin, hmem⟩
  cases e with
  | char d =>
    unfold Line.edit at hc
    dsimp only at hc
    split_ifs at hc
    · exact Or.inl hc
    · rcases Zipper.mem_toList.mp hc with hc | hc
      · rcases List.mem_cons.mp hc with rfl | hc
        · exact Or.inr (Or.inl rfl)
        · exact Or.inl (Zipper.mem_toList.mpr (Or.inl hc))
      · exact Or.inl (Zipper.mem_toList.mpr (Or.inr hc))
    · rcases Zipper.mem_toList.mp hc with hc | hc
      · rcases List.mem_cons.mp hc with rfl | hc
        · exact Or.inr (Or.inl rfl)
        · exact Or.inl (Zipper.mem_toList.mpr (Or.inl hc))
      · exact Or.inl (Zipper.mem_toList.mpr (Or.inr (List.mem_of_mem_tail hc)))
  | home => exact Or.inl hc
  | toEnd => exact Or.inl ((Zipper.toList_atEnd l.text.toList) ▸ hc)
  | forth => exact Or.inl ((Zipper.toList_forth l.text) ▸ hc)
  | back => exact Or.inl ((Zipper.toList_back l.text) ▸ hc)
  | delete =>
    rcases Zipper.mem_toList.mp hc with hc | hc
    · exact Or.inl (Zipper.mem_toList.mpr (Or.inl hc))
    · exact Or.inl (Zipper.mem_toList.mpr (Or.inr (List.mem_of_mem_tail hc)))
  | backspace =>
    rcases Zipper.mem_toList.mp hc with hc | hc
    · exact Or.inl (Zipper.mem_toList.mpr (Or.inl (List.mem_of_mem_tail hc)))
    · exact Or.inl (Zipper.mem_toList.mpr (Or.inr hc))
  | kill =>
    rcases Zipper.mem_toList.mp hc with hc | hc
    · exact Or.inl (Zipper.mem_toList.mpr (Or.inl hc))
    · exact absurd hc List.not_mem_nil
  | killAll => exact absurd hc List.not_mem_nil
  | mode => exact Or.inl hc
  | older =>
    unfold Line.edit at hc
    dsimp only at hc
    split_ifs at hc
    · rw [Zipper.toList_atEnd] at hc
      exact Or.inr (Or.inr (hrecalled _ hc))
    · exact Or.inl hc
  | newer =>
    unfold Line.edit at hc
    dsimp only at hc
    split_ifs at hc
    · rw [Zipper.toList_atEnd] at hc
      exact Or.inr (Or.inr (hrecalled _ hc))
    · exact Or.inl hc

theorem Line.recent_edit (l : Line) (e : Edit) : (l.edit e).recent = l.recent := by
  cases e <;> unfold Line.edit <;> dsimp only <;> split_ifs <;> rfl

/-- A line whose characters are shown as they are stays so when such a one is typed. -/
theorem Line.Plain.edit (h : l.Plain) {e : Edit} (he : ∀ c, e = .char c → 32 ≤ c) :
    (l.edit e).Plain := by
  constructor
  · intro c hc
    rcases l.mem_edit hc with hc | hc | ⟨t, ht, hc⟩
    · exact h.1 c hc
    · exact he c hc
    · exact h.2 t ht c hc
  · rw [l.recent_edit]
    exact h.2

end Edits

end SmartQ.UBoot
