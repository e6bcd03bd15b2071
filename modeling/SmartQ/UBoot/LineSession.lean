import SmartQ.UBoot.LineEdits

/-!
# Lines typed at the console

The line editor over whole sessions: keys one after the other, with escape sequences, lines
entered and lines interrupted.

* `key_refines`: a key does to the buffers what it does to the line.
* `session_refines`: so do any keys; the store behind the buffer is reached exactly by the
  entry of a line of 256 characters.
* `session_shows`: the terminal shows the line and its cursor.
-/

namespace SmartQ.UBoot

open SmartQ.Lib

/-! ## Keys -/

/-- The escape sequence so far. -/
def EscIs (ed : Editor) : Esc → Prop
  | .none => ed.escLen = 0
  | .escape => ed.escLen = 1 ∧ ed.escSave.take 1 = [27]
  | .bracket => ed.escLen = 2 ∧ ed.escSave.take 2 = [27, 91]

/-- The console is in the session. -/
structure ConsoleIs (c : Console) (s : Session) : Prop where
  line : Refines c.ed s.line
  size : c.ed.escSave.length = 8
  esc : EscIs c.ed s.esc
  replies : c.replies = s.replies

/-- The characters a key types into the line are shown as they are. -/
def Esc.Plain (esc : Esc) (key : Byte) : Prop :=
  ∀ c, Action.edit (.char c) ∈ (decode esc key).2 → 32 ≤ c

section Keys

variable {pre : List Byte} {ed : Editor} {l : Line} {c : Console} {s : Session}

/-- The line that follows. -/
theorem start_refines {buf : List Byte} {hist : Hist} (hsize : buf.length = maxCmdbufSize)
    (hhist : HistIs hist l.recent l.place) : Refines (Editor.start buf hist) l.fresh :=
  ⟨⟨rfl, rfl, buf, rfl⟩, hsize, rfl, hhist⟩

theorem start_shows (pre buf : List Byte) (hist : Hist) (l : Line) :
    (Editor.start buf hist).Shows pre l.fresh := ⟨rfl, 0, rfl⟩

/-- The end of a line: with 256 characters its terminator is behind the buffer. -/
theorem creadEnd_refines (h : Refines ed l) :
    if l.text.toList.length < maxCmdbufSize then
      ∃ ed', creadEnd ed = some (ed', some 0) ∧ ed'.buf.length = maxCmdbufSize ∧
        ed'.eolNum = l.text.toList.length ∧ cString ed'.buf = cString l.text.toList ∧
        HistIs ed'.hist (remember l.recent (cString l.text.toList)) 0
    else creadEnd ed = none := by
  obtain ⟨junk, hbuf⟩ := h.text.holds
  rw [← List.append_assoc] at hbuf
  change ed.buf = l.text.toList ++ junk at hbuf
  unfold creadEnd
  rw [← h.length_eq]
  by_cases hroom : l.text.toList.length < maxCmdbufSize
  · rw [if_pos hroom]
    obtain ⟨b, junk, rfl⟩ : ∃ b rest, junk = b :: rest := by
      cases junk with
      | nil =>
        rw [← h.size, hbuf, List.append_nil] at hroom
        exact absurd hroom (lt_irrefl _)
      | cons b rest => exact ⟨b, rest, rfl⟩
    have hsize : (l.text.toList ++ 0 :: junk).length = maxCmdbufSize := by
      rw [← h.size, hbuf]
      simp
    have hkept : (byteAt (l.text.toList ++ 0 :: junk) 0 ≠ 0 ∧
        byteAt (l.text.toList ++ 0 :: junk) 0 ≠ 33) ↔
        cString l.text.toList ≠ [] ∧ (cString l.text.toList).head? ≠ some 33 := by
      cases l.text.toList with
      | nil => exact ⟨fun hne => absurd rfl hne.1, fun hne => absurd rfl hne.1⟩
      | cons c text =>
        show (c ≠ 0 ∧ c ≠ 33) ↔ _
        by_cases hc : c = 0
        · rw [hc]
          exact ⟨fun hne => absurd rfl hne.1, fun hne => absurd rfl hne.1⟩
        · simp [cString, hc]
    rw [hbuf, Zipper.store_append]
    show ∃ ed', (do
      let hist ← (if byteAt (l.text.toList ++ 0 :: junk) 0 ≠ 0 ∧
        byteAt (l.text.toList ++ 0 :: junk) 0 ≠ 33 then
          creadAddToHist ed.hist (cString (l.text.toList ++ 0 :: junk)) else some ed.hist)
      some _) = some (ed', some 0) ∧ _
    rw [cString_append_zero]
    unfold remember
    by_cases hkeep : cString l.text.toList ≠ [] ∧ (cString l.text.toList).head? ≠ some 33
    · have hshort : (cString l.text.toList).length < maxCmdbufSize :=
        (List.takeWhile_prefix _).length_le.trans_lt hroom
      obtain ⟨hist, hadd, hist_is⟩ := h.hist.add (not_mem_cString _) hshort
      rw [if_pos (hkept.mpr hkeep), if_pos hkeep, hadd]
      exact ⟨_, rfl, hsize, rfl, cString_append_zero _ _, hist_is⟩
    · rw [if_neg (fun hne => hkeep (hkept.mp hne)), if_neg hkeep]
      exact ⟨_, rfl, hsize, rfl, cString_append_zero _ _, h.hist.reset⟩
  · have hfull : ¬ l.text.toList.length < ed.buf.length := h.size.symm ▸ hroom
    rw [if_neg hroom, Zipper.store, if_neg hfull]
    rfl

/-- A key does to the console what it does to the session, and the terminal shows it. -/
def KeyRefines (pre : List Byte) (c : Console) (s : Session) (key : Byte) : Prop :=
  match s.key key with
  | none => c.key key = none
  | some s' => ∃ c', c.key key = some c' ∧ ConsoleIs c' s' ∧
      (s.line.Plain → s.esc.Plain key → c.ed.Shows pre s.line → c'.ed.Shows pre s'.line)

/-- A key after which the line goes on. -/
theorem keyRefines_more (hc : ConsoleIs c s) {key : Byte} {ed' : Editor} {l' : Line} {esc : Esc}
    (hrun : creadKey maxCmdbufSize c.ed key = some (ed', none))
    (hkey : s.key key = some { s with line := l', esc := esc }) (hline : Refines ed' l')
    (hsize : ed'.escSave.length = 8) (hesc : EscIs ed' esc)
    (hshow : s.line.Plain → s.esc.Plain key → c.ed.Shows pre s.line → ed'.Shows pre l') :
    KeyRefines pre c s key := by
  have hstep : c.key key = some { c with ed := ed' } := by
    rw [Console.key, hrun]
    rfl
  rw [KeyRefines, hkey]
  exact ⟨_, hstep, ⟨hline, hsize, hesc, hc.replies⟩, hshow⟩

/-- A key that ends the line. -/
theorem keyRefines_done (hc : ConsoleIs c s) {key : Byte} {ed' : Editor} {l' : Line} {rc : ℤ}
    {r : Reply} (hrun : creadKey maxCmdbufSize c.ed key = some (ed', some rc))
    (hkey : s.key key = some ⟨l'.fresh, .none, s.replies ++ [r]⟩)
    (hsize : ed'.buf.length = maxCmdbufSize) (hhist : HistIs ed'.hist l'.recent l'.place)
    (hreply : Reply.mk (if rc < 0 then rc else ed'.eolNum) (cString ed'.buf) = r) :
    KeyRefines pre c s key := by
  have hstep : c.key key = some ⟨Editor.start ed'.buf ed'.hist, c.replies ++ [r]⟩ := by
    rw [Console.key, hrun, ← hreply]
    rfl
  rw [KeyRefines, hkey]
  refine ⟨_, hstep, ⟨start_refines hsize hhist, List.length_replicate, rfl, ?_⟩, fun _ _ _ => ?_⟩
  · rw [hc.replies]
  · exact start_shows pre ed'.buf ed'.hist l'

/-- A key that is decoded to one action. -/
theorem Session.key_one (s : Session) {key : Byte} {esc : Esc} {a : Action}
    (h : decode s.esc key = (esc, [a])) : s.key key = Session.act { s with esc := esc } a := by
  rw [Session.key, h, List.foldlM_cons]
  exact bind_pure _

/-- The entry of a line. -/
theorem keyRefines_enter (hc : ConsoleIs c s) {key : Byte} (hkey : key = 10 ∨ key = 13) :
    KeyRefines pre c s key := by
  have hline : Refines (c.ed.putch [10]) s.line :=
    ⟨hc.line.text, hc.line.size, hc.line.insert, hc.line.hist⟩
  have hend := creadEnd_refines hline
  have hrun : creadKey maxCmdbufSize c.ed key = creadEnd (c.ed.putch [10]) := by
    rw [creadKey]
    exact if_pos hkey
  have hact : s.key key = Session.act { s with esc := .none } .enter :=
    s.key_one (by unfold decode; rw [if_pos hkey])
  by_cases hroom : s.line.text.toList.length < maxCmdbufSize
  · rw [if_pos hroom] at hend
    obtain ⟨ed', hread, hsize, heol, htext, hhist⟩ := hend
    refine @keyRefines_done pre c s hc key ed' { s.line with
      recent := remember s.line.recent (cString s.line.text.toList), place := 0 } 0
      ⟨s.line.text.toList.length, cString s.line.text.toList⟩ (hrun.trans hread) ?_ hsize hhist ?_
    · rw [hact, Session.act, if_pos hroom]
      rfl
    · rw [htext, heol]
      rfl
  · rw [if_neg hroom] at hend
    rw [KeyRefines, hact, Session.act, if_neg hroom, Console.key, hrun, hend]
    rfl

theorem exists_edit_ite {p : Prop} [Decidable p] {e : Edit} {a : Action}
    (h : ∃ e', a = .edit e') : ∃ e', (if p then Action.edit e else a) = .edit e' := by
  split_ifs
  · exact ⟨e, rfl⟩
  · exact h

/-- Of the keys outside escape sequences only `^C` does not change the line. -/
theorem plainAction_cases (key : Byte) :
    key = 3 ∧ plainAction key = .interrupt ∨ ∃ e, plainAction key = .edit e := by
  by_cases h3 : key = 3
  · exact Or.inl ⟨h3, h3 ▸ rfl⟩
  · right
    unfold plainAction
    apply exists_edit_ite
    rw [if_neg h3]
    repeat' apply exists_edit_ite
    exact ⟨_, rfl⟩

/-- An edit in a line that goes on. -/
theorem keyRefines_edit (hc : ConsoleIs c s) {key : Byte} {e : Edit} {ed' : Editor}
    (hdecode : decode s.esc key = (.none, [.edit e]))
    (hrun : creadKey maxCmdbufSize c.ed key = some (ed', none))
    (hedits : Edits pre { c.ed with escLen := 0 } s.line ed' (s.line.edit e)) :
    KeyRefines pre c s key := by
  refine keyRefines_more hc hrun (s.key_one hdecode) hedits.refines
    ((congrArg List.length hedits.escSave).trans hc.size) hedits.escLen ?_
  intro hplain hkey hshow
  have hchar : ∀ d, e = .char d → 32 ≤ d := by
    rintro d rfl
    apply hkey d
    rw [hdecode]
    exact List.mem_cons_self
  exact hedits.shows hplain (hplain.edit hchar) hshow

/-- The line without the escape sequence. -/
theorem ConsoleIs.noEsc (hc : ConsoleIs c s) : Refines { c.ed with escLen := 0 } s.line :=
  ⟨hc.line.text, hc.line.size, hc.line.insert, hc.line.hist⟩

/-- `^C`. -/
theorem keyRefines_interrupt (hc : ConsoleIs c s) (hesc : s.esc = .none) (hlen : c.ed.escLen = 0) :
    KeyRefines pre c s 3 := by
  have hsize : (c.ed.buf.set 0 0).length = maxCmdbufSize := by
    rw [List.length_set, hc.line.size]
  have hstore : Zipper.store c.ed.buf 0 0 = some (c.ed.buf.set 0 0) := by
    rw [Zipper.store, hc.line.size, if_pos (by decide)]
  have hrun : creadKey maxCmdbufSize c.ed 3 = some ({ c.ed with buf := c.ed.buf.set 0 0 },
      some (-1)) := by
    rw [creadKey, if_neg (by decide), hlen, if_neg (by decide), if_neg (by decide)]
    show (do
      let buf ← Zipper.store c.ed.buf 0 0
      some _) = _
    rw [hstore]
    rfl
  have htext : cString (c.ed.buf.set 0 0) = [] := by
    cases hbuf : c.ed.buf with
    | nil => rfl
    | cons b buf => rfl
  have hdecode : decode s.esc 3 = (.none, [.interrupt]) := by
    rw [hesc]
    rfl
  refine @keyRefines_done pre c s hc 3 _ s.line (-1) ⟨-1, []⟩ hrun (s.key_one hdecode) hsize
    hc.line.hist ?_
  rw [htext]
  rfl

/-- A key outside escape sequences. -/
theorem keyRefines_plain (hc : ConsoleIs c s) {key : Byte} (hnl : ¬ (key = 10 ∨ key = 13))
    (hesc : s.esc = .none) : KeyRefines pre c s key := by
  have hlen : c.ed.escLen = 0 := by
    have h := hc.esc
    rwa [hesc] at h
  have hed : { c.ed with escLen := 0 } = c.ed := by rw [← hlen]
  have hrun : creadKey maxCmdbufSize c.ed key = creadControl maxCmdbufSize c.ed key := by
    rw [creadKey, if_neg hnl, hlen, if_neg (by decide), if_neg (by decide)]
  by_cases hkey : key = 27
  · subst hkey
    have hsave : (c.ed.escSave.set 0 27).take 1 = [27] := by
      cases hs : c.ed.escSave with
      | nil =>
        have hsize := hc.size
        rw [hs] at hsize
        cases hsize
      | cons b rest => rfl
    have hread : creadKey maxCmdbufSize c.ed 27 =
        some ({ c.ed with escSave := c.ed.escSave.set 0 27, escLen := 1 }, none) := by
      rw [hrun, creadControl, if_pos rfl, if_pos hlen, hlen]
    have hact : s.key 27 = some { s with line := s.line, esc := .escape } := by
      rw [Session.key, hesc]
      rfl
    exact keyRefines_more hc hread hact
      ⟨hc.line.text, hc.line.size, hc.line.insert, hc.line.hist⟩
      (List.length_set.trans hc.size) ⟨rfl, hsave⟩ (fun _ _ hshow => hshow)
  have hdecode : decode s.esc key = (.none, [plainAction key]) := by
    unfold decode
    rw [if_neg hnl, hesc]
    exact if_neg hkey
  rcases plainAction_cases key with ⟨rfl, -⟩ | ⟨e, he⟩
  · exact keyRefines_interrupt hc hesc hlen
  · obtain ⟨ed', hcontrol, hedits⟩ := @creadControl_edits pre c.ed s.line hc.line hlen key hkey e he
    rw [← hed] at hedits
    exact keyRefines_edit hc (he ▸ hdecode) (hrun.trans hcontrol) hedits

/-- A text that is typed into the line because it is no escape sequence. -/
theorem keyRefines_typed (hc : ConsoleIs c s) {key : Byte} (str : List Byte)
    {escSave : List Byte} {ed' : Editor} (hsave : escSave.length = 8)
    (hadd : creadAddStr maxCmdbufSize { c.ed with escSave := escSave } (27 :: str) = some ed')
    (hrun : creadKey maxCmdbufSize c.ed key = some ({ ed' with escLen := 0 }, none))
    (hdecode : decode s.esc key = (.none, (27 :: str).map fun d => .edit (.char d))) :
    KeyRefines pre c s key := by
  have hline : Refines { c.ed with escSave := escSave } s.line :=
    ⟨hc.line.text, hc.line.size, hc.line.insert, hc.line.hist⟩
  obtain ⟨ed1, hadd1, hrefines, hsize⟩ := creadAddStr_refines hline (27 :: str)
  obtain rfl : ed1 = ed' := Option.some.inj (hadd1.symm.trans hadd)
  have hacts : ∀ (cs : List Byte) (s : Session),
      (cs.map fun d => Action.edit (.char d)).foldlM Session.act s =
        some { s with line := cs.foldl (fun l d => l.edit (.char d)) s.line } := by
    intro cs
    induction cs with
    | nil => exact fun s => rfl
    | cons d cs ih =>
      intro s
      rw [List.map_cons, List.foldlM_cons]
      exact ih _
  have hact : s.key key = some { s with
      line := (27 :: str).foldl (fun l d => l.edit (.char d)) s.line, esc := .none } := by
    rw [Session.key, hdecode]
    exact hacts _ _
  refine keyRefines_more hc hrun hact
    ⟨hrefines.text, hrefines.size, hrefines.insert, hrefines.hist⟩
    ((congrArg List.length hsize).trans hsave) rfl ?_
  intro _ hkey
  have h27 := hkey 27 (by
    rw [hdecode]
    exact List.mem_cons_self)
  exact absurd h27 (by decide)

/-- A key behind a single escape. -/
theorem keyRefines_escape (hc : ConsoleIs c s) {key : Byte} (hnl : ¬ (key = 10 ∨ key = 13))
    (hesc : s.esc = .escape) : KeyRefines pre c s key := by
  obtain ⟨hlen, hsave⟩ : c.ed.escLen = 1 ∧ c.ed.escSave.take 1 = [27] := by
    have h := hc.esc
    rwa [hesc] at h
  by_cases hkey : key = 91
  · subst hkey
    have hsave' : (c.ed.escSave.set 1 91).take 2 = [27, 91] := by
      have hsize := hc.size
      cases hs : c.ed.escSave with
      | nil =>
        rw [hs] at hsize
        cases hsize
      | cons b rest =>
        rw [hs] at hsave hsize
        cases rest with
        | nil => cases hsize
        | cons b' rest =>
          obtain rfl : b = 27 := (List.cons.inj hsave).1
          rfl
    have hread : creadKey maxCmdbufSize c.ed 91 =
        some ({ c.ed with escSave := c.ed.escSave.set 1 91, escLen := 2 }, none) := by
      rw [creadKey, if_neg hnl, if_pos hlen, if_pos rfl, hlen]
    have hact : s.key 91 = some { s with line := s.line, esc := .bracket } := by
      rw [Session.key, hesc]
      rfl
    exact keyRefines_more hc hread hact
      ⟨hc.line.text, hc.line.size, hc.line.insert, hc.line.hist⟩
      (List.length_set.trans hc.size) ⟨rfl, hsave'⟩ (fun _ _ hshow => hshow)
  · have hline : Refines c.ed s.line := hc.line
    obtain ⟨ed', hadd, -, -⟩ := creadAddStr_refines hline [27]
    refine keyRefines_typed hc [] hc.size hadd ?_ ?_
    · rw [creadKey, if_neg hnl, if_pos hlen, if_neg hkey, hlen, hsave, hadd]
      rfl
    · unfold decode
      rw [if_neg hnl, hesc]
      exact if_neg hkey

/-- The arrow keys are those of the editor. -/
theorem escKey_arrow (key : Byte) :
    (escKey key = none ∧ arrowAction key = none) ∨ ∃ k e, escKey key = some k ∧
      arrowAction key = some e ∧ k ≠ 27 ∧ plainAction k = .edit e := by
  unfold escKey arrowAction
  by_cases h68 : key = 68
  · exact Or.inr ⟨2, .back, if_pos h68, if_pos h68, by decide, rfl⟩
  rw [if_neg h68, if_neg h68]
  by_cases h67 : key = 67
  · exact Or.inr ⟨6, .forth, if_pos h67, if_pos h67, by decide, rfl⟩
  rw [if_neg h67, if_neg h67]
  by_cases h72 : key = 72
  · exact Or.inr ⟨1, .home, if_pos h72, if_pos h72, by decide, rfl⟩
  rw [if_neg h72, if_neg h72]
  by_cases h65 : key = 65
  · exact Or.inr ⟨16, .older, if_pos h65, if_pos h65, by decide, rfl⟩
  rw [if_neg h65, if_neg h65]
  by_cases h66 : key = 66
  · exact Or.inr ⟨14, .newer, if_pos h66, if_pos h66, by decide, rfl⟩
  exact Or.inl ⟨if_neg h66, if_neg h66⟩

/-- The last key of an escape sequence. -/
theorem keyRefines_bracket (hc : ConsoleIs c s) {key : Byte} (hnl : ¬ (key = 10 ∨ key = 13))
    (hesc : s.esc = .bracket) : KeyRefines pre c s key := by
  obtain ⟨hlen, hsave⟩ : c.ed.escLen = 2 ∧ c.ed.escSave.take 2 = [27, 91] := by
    have h := hc.esc
    rwa [hesc] at h
  rcases escKey_arrow key with ⟨hkey, harrow⟩ | ⟨k, e, hkey, harrow, hk, he⟩
  · have hset : (c.ed.escSave.set c.ed.escLen key).take (c.ed.escLen + 1) = [27, 91, key] := by
      have hsize : 2 < (c.ed.escSave.set 2 key).length := by
        rw [List.length_set, hc.size]
        decide
      rw [hlen, List.take_add_one, List.take_set_of_le le_rfl, hsave,
        List.getElem?_eq_getElem hsize, List.getElem_set_self]
      rfl
    have hline : Refines { c.ed with escSave := c.ed.escSave.set c.ed.escLen key } s.line :=
      ⟨hc.line.text, hc.line.size, hc.line.insert, hc.line.hist⟩
    obtain ⟨ed', hadd, -, -⟩ := creadAddStr_refines hline [27, 91, key]
    refine keyRefines_typed hc [91, key] (List.length_set.trans hc.size) hadd ?_ ?_
    · rw [creadKey, if_neg hnl, if_neg (by omega), if_pos (by omega), hkey]
      dsimp only
      rw [hset, hadd]
      rfl
    · unfold decode
      rw [if_neg hnl, hesc]
      dsimp only
      rw [harrow]
      rfl
  · obtain ⟨ed', hcontrol, hedits⟩ := @creadControl_edits pre { c.ed with escLen := 0 } s.line
      hc.noEsc rfl k hk e he
    refine keyRefines_edit hc ?_ ?_ hedits
    · unfold decode
      rw [if_neg hnl, hesc]
      dsimp only
      rw [harrow]
    · rw [creadKey, if_neg hnl, if_neg (by omega), if_pos (by omega), hkey]
      exact hcontrol

/-- A key does to the buffers what it does to the line, and the terminal shows it. -/
theorem key_refines (hc : ConsoleIs c s) (key : Byte) : KeyRefines pre c s key := by
  by_cases hnl : key = 10 ∨ key = 13
  · exact keyRefines_enter hc hnl
  · cases hesc : s.esc with
    | none => exact keyRefines_plain hc hnl hesc
    | escape => exact keyRefines_escape hc hnl hesc
    | bracket => exact keyRefines_bracket hc hnl hesc

theorem start_is : ConsoleIs Console.start Session.start where
  line := start_refines (l := Session.start.line) List.length_replicate histInit_is
  size := List.length_replicate
  esc := rfl
  replies := rfl

end Keys

/-! ## Sessions -/

theorem console_refines {c : Console} {s : Session} (hc : ConsoleIs c s) (keys : List Byte) :
    Option.Rel ConsoleIs (keys.foldlM Console.key c) (keys.foldlM Session.key s) := by
  apply foldlM_rel _ hc
  intro c s key hc
  have hkey := @key_refines [] c s hc key
  unfold KeyRefines at hkey
  cases hs : s.key key with
  | none =>
    rw [hs] at hkey
    rw [hkey]
    exact .none
  | some s' =>
    rw [hs] at hkey
    obtain ⟨c', hrun, hc', -⟩ := hkey
    rw [hrun]
    exact .some hc'

/-- Any keys do to the buffers what they do to the line, with the same replies. The store
    behind the buffer is reached exactly when a line of 256 characters is entered, which is
    where the session ends. -/
theorem session_refines (keys : List Byte) :
    Option.Rel ConsoleIs (keys.foldlM Console.key Console.start)
      (keys.foldlM Session.key Session.start) :=
  console_refines start_is keys

/-- Actions that type characters shown as they are leave such lines. -/
theorem Session.act_plain {s s' : Session} {a : Action} (h : s.line.Plain)
    (ha : ∀ c, a = .edit (.char c) → 32 ≤ c) (hrun : s.act a = some s') : s'.line.Plain := by
  cases a with
  | edit e =>
    cases hrun
    exact h.edit fun c hc => ha c (congrArg Action.edit hc)
  | interrupt =>
    cases hrun
    exact ⟨fun c hc => absurd hc List.not_mem_nil, h.2⟩
  | enter =>
    unfold Session.act at hrun
    dsimp only at hrun
    split_ifs at hrun
    cases hrun
    refine ⟨fun c hc => absurd hc List.not_mem_nil, ?_⟩
    intro t ht
    unfold remember at ht
    split_ifs at ht
    · rcases List.mem_cons.mp (List.mem_of_mem_take ht) with rfl | ht
      · exact fun c hc => h.1 c ((List.takeWhile_prefix _).subset hc)
      · exact h.2 t ht
    · exact h.2 t ht

theorem Session.key_plain {s s' : Session} {key : Byte} (h : s.line.Plain)
    (hkey : s.esc.Plain key) (hrun : s.key key = some s') : s'.line.Plain := by
  have hacts : ∀ (acts : List Action) (s : Session), s.line.Plain →
      (∀ c, Action.edit (.char c) ∈ acts → 32 ≤ c) → acts.foldlM Session.act s = some s' →
      s'.line.Plain := by
    intro acts
    induction acts with
    | nil =>
      intro s hs _ hrun
      cases hrun
      exact hs
    | cons a acts ih =>
      intro s hs hacts hrun
      rw [List.foldlM_cons] at hrun
      obtain ⟨t, ht, hrun⟩ := Option.bind_eq_some_iff.mp hrun
      refine ih t (Session.act_plain hs (fun c hc => ?_) ht)
        (fun c hc => hacts c (List.mem_cons_of_mem _ hc)) hrun
      exact hacts c (hc ▸ List.mem_cons_self)
  exact hacts _ { s with esc := (decode s.esc key).1 } h hkey hrun

/-- The terminal shows the line behind the prompt, with its cursor and blanks behind it, after
    any keys whose characters are shown as they are. -/
theorem session_shows (prompt : List Byte) {keys : List Byte}
    (hkeys : Throughout Session.key (fun s key => s.esc.Plain key) Session.start keys)
    {c : Console} (hrun : keys.foldlM Console.key Console.start = some c) :
    ∃ s, keys.foldlM Session.key Session.start = some s ∧
      ((Zipper.atEnd prompt).puts c.ed.out).Shows prompt.reverse s.line.text := by
  have hgen : ∀ (keys : List Byte) (c0 : Console) (s0 : Session), ConsoleIs c0 s0 →
      s0.line.Plain → c0.ed.Shows prompt.reverse s0.line →
      Throughout Session.key (fun s key => s.esc.Plain key) s0 keys →
      keys.foldlM Console.key c0 = some c →
      ∃ s, keys.foldlM Session.key s0 = some s ∧ c.ed.Shows prompt.reverse s.line := by
    intro keys
    induction keys with
    | nil =>
      intro c0 s0 _ _ hshow _ hrun
      cases hrun
      exact ⟨s0, rfl, hshow⟩
    | cons key keys ih =>
      intro c0 s0 hc hplain hshow hkeys hrun
      obtain ⟨hkey, hrest⟩ := throughout_cons.mp hkeys
      rw [List.foldlM_cons] at hrun
      obtain ⟨c1, hc1, hrun⟩ := Option.bind_eq_some_iff.mp hrun
      have hstep := @key_refines prompt.reverse c0 s0 hc key
      unfold KeyRefines at hstep
      cases hs1 : s0.key key with
      | none =>
        rw [hs1, hc1] at hstep
        cases hstep
      | some s1 =>
        rw [hs1] at hstep
        obtain ⟨c1', hc1', his, hshow1⟩ := hstep
        obtain rfl : c1' = c1 := Option.some.inj (hc1'.symm.trans hc1)
        obtain ⟨s, hsrun, hs⟩ := ih c1' s1 his (Session.key_plain hplain hkey hs1)
          (hshow1 hplain hkey hshow) (hrest s1 hs1) hrun
        refine ⟨s, ?_, hs⟩
        rw [List.foldlM_cons, hs1]
        exact hsrun
  have hplain : Session.start.line.Plain :=
    ⟨fun c hc => absurd hc List.not_mem_nil, fun t ht => absurd ht List.not_mem_nil⟩
  exact hgen keys _ _ start_is hplain
    (start_shows prompt.reverse (List.replicate maxCmdbufSize 0) histInit Session.start.line)
    hkeys hrun

/-- Two characters, one place back, and one more. -/
def typedKeys : List Byte := [97, 98, 2, 99]

theorem session_shows_typed : ∃ c s, typedKeys.foldlM Console.key Console.start = some c ∧
    typedKeys.foldlM Session.key Session.start = some s ∧
    ((Zipper.atEnd (ascii "# ")).puts c.ed.out).Shows (ascii "# ").reverse s.line.text ∧
    s.line.text = ⟨[99, 97], [98]⟩ := by
  have hkeys : Throughout Session.key (fun s key => s.esc.Plain key) Session.start typedKeys := by
    have hstep : ∀ {s s' : Session} {key : Byte} {keys : List Byte}, s.key key = some s' →
        (∀ c, Action.edit (.char c) ∈ (decode s.esc key).2 → 32 ≤ c) →
        Throughout Session.key (fun s key => s.esc.Plain key) s' keys →
        Throughout Session.key (fun s key => s.esc.Plain key) s (key :: keys) := by
      intro s s' key keys hs hkey hrest
      refine throughout_cons.mpr ⟨hkey, fun t ht => ?_⟩
      obtain rfl : t = s' := Option.some.inj (ht.symm.trans hs)
      exact hrest
    refine hstep rfl ?_ (hstep rfl ?_ (hstep rfl ?_ (hstep rfl ?_ throughout_nil))) <;>
      intro c hc <;> cases List.mem_singleton.mp hc <;> decide
  obtain ⟨c, hrun⟩ : ∃ c, typedKeys.foldlM Console.key Console.start = some c :=
    Option.isSome_iff_exists.mp (by decide +kernel)
  obtain ⟨s, hs, hshow⟩ := session_shows (ascii "# ") hkeys hrun
  refine ⟨c, s, hrun, hs, hshow, ?_⟩
  obtain rfl : _ = s := Option.some.inj hs
  rfl

end SmartQ.UBoot
