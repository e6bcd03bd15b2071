import SmartQ.Lib.RingBuffer
import SmartQ.Lib.Runs
import SmartQ.Lib.StringBlock
import SmartQ.Lib.Zipper

/-!
# The line editor

Model of `cread_line`, its history and `readline` in `u-boot/common/main.c`, built with
`CONFIG_CMDLINE_EDITING` and without a boot retry time. A store outside the line or outside a
line of the history ends the run.
-/

namespace SmartQ.UBoot

open SmartQ.Lib

/-- `MAX_CMDBUF_SIZE`, which is `CFG_CBSIZE` and `HIST_SIZE` too. -/
def maxCmdbufSize : ℕ := 256

/-- `HIST_MAX`: the lines that the history keeps before it overwrites the oldest. -/
def histMax : ℕ := 20

/-! ## The history -/

/-- `hist_lines`, `hist_add_idx`, `hist_max` and `hist_cur`: the ring of lines and the places in
    it. -/
structure Hist where
  lines : List (List Byte)
  addIdx : ℕ
  max : ℕ
  cur : ℤ

/-- `hist_init`: no line has been entered, and none is being looked at. -/
def histInit : Hist := ⟨List.replicate histMax (List.replicate maxCmdbufSize 0), 0, 0, -1⟩

/-- The string `hist_list[i]`, up to the zero that ends it. -/
def Hist.line (h : Hist) (i : ℕ) : List Byte := cString (h.lines.getD i [])

/-- `strcpy` to the start of a buffer. -/
def strcpy (buf s : List Byte) : Option (List Byte) :=
  if s.length + 1 ≤ buf.length then some (put buf 0 (s ++ [0])) else none

/-- `cread_add_to_hist`: the line is copied to the next slot of the ring, if it fits. -/
def creadAddToHist (h : Hist) (line : List Byte) : Option Hist := do
  let slot ← strcpy (h.lines.getD h.addIdx []) line
  let addIdx := if h.addIdx + 1 ≥ histMax then 0 else h.addIdx + 1
  some { h with
    lines := h.lines.set h.addIdx slot
    addIdx := addIdx
    max := if addIdx > h.max then addIdx else h.max }

/-- `hist_prev`: one line back in the ring, or nothing at the oldest one. -/
def histPrev (h : Hist) : Hist × Option (List Byte) :=
  if h.cur < 0 then (h, none)
  else
    let cur := if h.cur - 1 < 0 then (h.max : ℤ) else h.cur - 1
    if cur = h.addIdx then (h, none)
    else ({ h with cur := cur }, some (h.line cur.toNat))

/-- `hist_next`: one line forth in the ring, and an empty one behind the newest. -/
def histNext (h : Hist) : Hist × Option (List Byte) :=
  if h.cur < 0 then (h, none)
  else if h.cur = h.addIdx then (h, none)
  else
    let cur := if h.cur + 1 > h.max then 0 else h.cur + 1
    ({ h with cur := cur }, some (if cur = h.addIdx then [] else h.line cur.toNat))

/-! ## The line -/

/-- The variables of `cread_line`, `console_buffer` with them, the history, and what has been
    put out since the prompt. -/
structure Editor where
  buf : List Byte
  num : ℕ
  eolNum : ℕ
  insert : Bool
  escLen : ℕ
  escSave : List Byte
  hist : Hist
  out : List Byte

/-- `cread_line` before the first key. -/
def Editor.start (buf : List Byte) (hist : Hist) : Editor where
  buf := buf
  num := 0
  eolNum := 0
  insert := true
  escLen := 0
  escSave := List.replicate 8 0
  hist := hist
  out := []

/-- `putch` and `putnstr`: the characters are appended to what has been put out. -/
def Editor.putch (ed : Editor) (cs : List Byte) : Editor := { ed with out := ed.out ++ cs }

/-- What `putnstr (buf + num, n)` puts out. -/
def putnstr (buf : List Byte) (num n : ℕ) : List Byte := cString ((buf.drop num).take n)

/-- `BEGINNING_OF_LINE`: the cursor goes back to the first character, by backspaces. -/
def beginningOfLine (ed : Editor) : Editor :=
  { ed.putch (List.replicate ed.num 8) with num := 0 }

/-- `ERASE_TO_EOL`: what stands behind the cursor is blanked and dropped. -/
def eraseToEol (ed : Editor) : Editor :=
  if ed.num < ed.eolNum then
    let n := ed.eolNum - ed.num
    { ed.putch (List.replicate n 32 ++ List.replicate n 8) with eolNum := ed.num }
  else ed

/-- `REFRESH_TO_EOL`: what stands behind the cursor is written again, and the cursor goes there.
    -/
def refreshToEol (ed : Editor) : Editor :=
  if ed.num < ed.eolNum then
    { ed.putch (putnstr ed.buf ed.num (ed.eolNum - ed.num)) with num := ed.eolNum }
  else ed

/-- The branch of `cread_add_char` that inserts the character (lines 680–692). -/
def insertChar (ed : Editor) (eolNum : ℕ) (ichar : Byte) : Option Editor := do
  let wlen := eolNum - ed.num
  let buf ← (if wlen > 1 then Zipper.memmove ed.buf (ed.num + 1) ed.num (wlen - 1)
    else some ed.buf)
  let buf ← Zipper.store buf ed.num ichar
  some { ed.putch (putnstr buf ed.num wlen ++ List.replicate (wlen - 1) 8) with
    buf := buf, eolNum := eolNum, num := ed.num + 1 }

/-- The branch that replaces the one under the cursor (lines 693–698). -/
def replaceChar (ed : Editor) (eolNum : ℕ) (ichar : Byte) : Option Editor := do
  let buf ← Zipper.store ed.buf ed.num ichar
  some { ed.putch (putnstr buf ed.num 1) with buf := buf, eolNum := eolNum, num := ed.num + 1 }

/-- `cread_add_char`: a character goes in at the cursor or over the one there; a full line rings
    the bell. -/
def creadAddChar (len : ℕ) (ed : Editor) (ichar : Byte) : Option Editor :=
  let more := ed.insert || ed.num == ed.eolNum
  if more ∧ ed.eolNum > len - 1 then some (ed.putch [7])
  else
    let eolNum := if more then ed.eolNum + 1 else ed.eolNum
    if ed.insert then insertChar ed eolNum ichar else replaceChar ed eolNum ichar

/-- `cread_add_str`: the characters of a string, one after the other. -/
def creadAddStr (len : ℕ) (ed : Editor) (str : List Byte) : Option Editor :=
  str.foldlM (creadAddChar len) ed

/-- `^D`: the character under the cursor is taken out, and the rest of the line moves up. -/
def deleteChar (ed : Editor) : Option Editor :=
  if ed.num < ed.eolNum then do
    let wlen := ed.eolNum - ed.num - 1
    let buf ← (if wlen ≠ 0 then Zipper.memmove ed.buf ed.num (ed.num + 1) wlen else some ed.buf)
    let text := if wlen ≠ 0 then putnstr buf ed.num wlen else []
    some { ed.putch (text ++ 32 :: List.replicate (wlen + 1) 8) with
      buf := buf, eolNum := ed.eolNum - 1 }
  else some ed

/-- `^H` and the two `DEL`s. -/
def backspaceChar (ed : Editor) : Option Editor :=
  if ed.num ≠ 0 then do
    let wlen := ed.eolNum - ed.num
    let num := ed.num - 1
    let buf ← Zipper.memmove ed.buf num (num + 1) wlen
    some { ed.putch (8 :: (putnstr buf num wlen ++ 32 :: List.replicate (wlen + 1) 8)) with
      buf := buf, num := num, eolNum := ed.eolNum - 1 }
  else some ed

/-- A line of the history in place of the line. -/
def recallLine (ed : Editor) : Hist × Option (List Byte) → Option Editor
  | (hist, none) => some { ed.putch [7] with hist := hist }
  | (hist, some hline) => do
    let ed := eraseToEol (beginningOfLine ed)
    let buf ← strcpy ed.buf hline
    some (refreshToEol { ed with hist := hist, buf := buf, eolNum := (cString buf).length })

/-- The switch over a key (lines 784–896); `^C` ends the line. -/
def creadControl (len : ℕ) (ed : Editor) (ichar : Byte) : Option (Editor × Option ℤ) :=
  let more := fun ed : Editor => (ed, (none : Option ℤ))
  if ichar = 0x1b then
    if ed.escLen = 0 then
      some (more { ed with escSave := ed.escSave.set ed.escLen ichar, escLen := 1 })
    else some (more { ed.putch (ascii "impossible condition #876\n") with escLen := 0 })
  else if ichar = 1 then some (more (beginningOfLine ed))
  else if ichar = 3 then do
    let buf ← Zipper.store ed.buf 0 0
    some ({ ed with buf := buf }, some (-1))
  else if ichar = 6 then
    some (more (if ed.num < ed.eolNum then
      { ed.putch [byteAt ed.buf ed.num] with num := ed.num + 1 } else ed))
  else if ichar = 2 then
    some (more (if ed.num ≠ 0 then { ed.putch [8] with num := ed.num - 1 } else ed))
  else if ichar = 4 then more <$> deleteChar ed
  else if ichar = 11 then some (more (eraseToEol ed))
  else if ichar = 5 then some (more (refreshToEol ed))
  else if ichar = 15 then some (more { ed with insert := !ed.insert })
  else if ichar = 24 then some (more (eraseToEol (beginningOfLine ed)))
  else if ichar = 255 ∨ ichar = 127 ∨ ichar = 8 then more <$> backspaceChar ed
  else if ichar = 16 then more <$> recallLine { ed with escLen := 0 } (histPrev ed.hist)
  else if ichar = 14 then more <$> recallLine { ed with escLen := 0 } (histNext ed.hist)
  else more <$> creadAddChar len ed ichar

/-- The key that the last character of an escape sequence stands for. -/
def escKey (ichar : Byte) : Option Byte :=
  if ichar = 68 then some 2
  else if ichar = 67 then some 6
  else if ichar = 72 then some 1
  else if ichar = 65 then some 16
  else if ichar = 66 then some 14
  else none

/-- The end of a line (lines 898–906). -/
def creadEnd (ed : Editor) : Option (Editor × Option ℤ) := do
  let buf ← Zipper.store ed.buf ed.eolNum 0
  let hist ← (if byteAt buf 0 ≠ 0 ∧ byteAt buf 0 ≠ 33 then creadAddToHist ed.hist (cString buf)
    else some ed.hist)
  some ({ ed with buf := buf, hist := { hist with cur := hist.addIdx } }, some 0)

/-- A turn of the loop of `cread_line` (lines 733–896): the state, and the value if the
    function returns. -/
def creadKey (len : ℕ) (ed : Editor) (ichar : Byte) : Option (Editor × Option ℤ) :=
  let more := fun ed : Editor => ({ ed with escLen := 0 }, (none : Option ℤ))
  if ichar = 10 ∨ ichar = 13 then creadEnd (ed.putch [10])
  else if ed.escLen = 1 then
    if ichar = 91 then
      some ({ ed with escSave := ed.escSave.set ed.escLen ichar, escLen := 2 }, none)
    else more <$> creadAddStr len ed (ed.escSave.take ed.escLen)
  else if ed.escLen ≠ 0 then
    match escKey ichar with
    | some ichar => creadControl len { ed with escLen := 0 } ichar
    | none =>
      let escSave := ed.escSave.set ed.escLen ichar
      more <$> creadAddStr len { ed with escSave := escSave } (escSave.take (ed.escLen + 1))
  else creadControl len ed ichar

/-! ## Line after line -/

/-- What a call of `readline` returns, and the string in `console_buffer` then. -/
structure Reply where
  ret : ℤ
  text : List Byte
  deriving DecidableEq

/-- `readline` called again and again: the line it is in, and the replies so far. -/
structure Console where
  ed : Editor
  replies : List Reply

/-- The first call of `readline`, with an empty history and a buffer of zeros. -/
def Console.start : Console :=
  ⟨Editor.start (List.replicate maxCmdbufSize 0) histInit, []⟩

/-- A key that is typed: it edits the line, or ends it and begins the next one. -/
def Console.key (c : Console) (ichar : Byte) : Option Console :=
  (creadKey maxCmdbufSize c.ed ichar).map fun r =>
    match r.2 with
    | none => { c with ed := r.1 }
    | some rc =>
      { ed := Editor.start r.1.buf r.1.hist
        replies := c.replies ++ [⟨if rc < 0 then rc else r.1.eolNum, cString r.1.buf⟩] }

end SmartQ.UBoot
