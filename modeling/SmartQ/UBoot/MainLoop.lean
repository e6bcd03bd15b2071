import SmartQ.UBoot.CommandLine
import SmartQ.UBoot.LineSession

/-!
# The main loop

Model of the loop of `main_loop` in `u-boot/common/main.c` behind the automatic boot: lines
are read and executed, and an empty line repeats the last one.

* `monitor_typed`: lines of quoted commands that are typed are executed as they are.
-/

namespace SmartQ.UBoot

open SmartQ.Lib

/-! ## Model -/

/-- `CMD_FLAG_REPEAT`: set for a call that an empty line has repeated. -/
def cmdFlagRepeat : ℕ := 1

/-- `lastcommand` and `rc` of `main_loop`, and the machine. -/
structure Monitor (σ : Type) where
  lastcommand : List Byte
  rc : ℤ
  machine : σ

section Model

variable {σ : Type} (sh : Shell σ)

/-- A turn of the loop, with what `readline` returned. -/
def mainStep (m : Monitor σ) (r : Reply) : Option (Monitor σ) :=
  let lastcommand := if r.ret > 0 then r.text else m.lastcommand
  let flag := if r.ret = 0 then cmdFlagRepeat else 0
  let run := if r.ret = -1 then some (m.rc, m.machine)
    else runCommand sh flag lastcommand m.machine
  run.map fun (rc, machine) => ⟨if rc ≤ 0 then [] else lastcommand, rc, machine⟩

/-- The console and the loop: keys typed one after the other, on a machine that starts in
    `s`. -/
def monitor (keys : List Byte) (s : σ) : Option (Console × Monitor σ) := do
  let c ← keys.foldlM Console.key Console.start
  let m ← c.replies.foldlM (mainStep sh) ⟨[], 1, s⟩
  pure (c, m)

end Model

/-! ## Typed lines -/

/-- A character that is typed as it is. -/
def IsTyped (c : Byte) : Prop := 32 ≤ c ∧ c ≠ 127 ∧ c ≠ 255

instance (c : Byte) : Decidable (IsTyped c) := inferInstanceAs (Decidable (_ ∧ _))

section Typed

variable {c : Byte} {text left : List Byte} {recent : List (List Byte)} {place : ℕ}
  {replies : List Reply}

theorem plainAction_typed (hc : IsTyped c) : plainAction c = .edit (.char c) := by
  obtain ⟨h32, h127, h255⟩ := hc
  have hne : ∀ d : Byte, ¬ 32 ≤ d → c ≠ d := fun d hd hcd => hd (hcd ▸ h32)
  unfold plainAction
  rw [if_neg (hne 1 (by decide)), if_neg (hne 3 (by decide)), if_neg (hne 6 (by decide)),
    if_neg (hne 2 (by decide)), if_neg (hne 4 (by decide)), if_neg (hne 11 (by decide)),
    if_neg (hne 5 (by decide)), if_neg (hne 15 (by decide)), if_neg (hne 24 (by decide)),
    if_neg (fun h => h.elim h255 fun h => h.elim h127 (hne 8 (by decide))),
    if_neg (hne 16 (by decide)), if_neg (hne 14 (by decide))]

/-- Characters typed behind a line. -/
theorem keys_typed (htext : ∀ c ∈ text, IsTyped c)
    (hroom : left.length + text.length ≤ maxCmdbufSize) :
    text.foldlM Session.key ⟨⟨⟨left, []⟩, true, recent, place⟩, .none, replies⟩ =
      some ⟨⟨⟨text.reverse ++ left, []⟩, true, recent, place⟩, .none, replies⟩ := by
  induction text generalizing left with
  | nil => rfl
  | cons c text ih =>
    rw [List.length_cons] at hroom
    have hc := htext c List.mem_cons_self
    have hne : ∀ d : Byte, ¬ 32 ≤ d → c ≠ d := fun d hd hcd => hd (hcd ▸ hc.1)
    have hdecode : decode .none c = (.none, [.edit (.char c)]) := by
      unfold decode
      rw [if_neg (fun h => h.elim (hne 10 (by decide)) (hne 13 (by decide)))]
      dsimp only
      rw [if_neg (hne 27 (by decide)), plainAction_typed hc]
    have hlen : (Zipper.mk left ([] : List Byte)).toList.length = left.length := by
      simp [Zipper.toList]
    have hedit : (Line.mk ⟨left, []⟩ true recent place).edit (.char c) =
        ⟨⟨c :: left, []⟩, true, recent, place⟩ := by
      unfold Line.edit
      dsimp only
      rw [if_neg (fun h => by omega), if_pos rfl]
      rfl
    have hkey : Session.key ⟨⟨⟨left, []⟩, true, recent, place⟩, .none, replies⟩ c =
        some ⟨⟨⟨c :: left, []⟩, true, recent, place⟩, .none, replies⟩ := by
      rw [Session.key_one _ hdecode, Session.act, hedit]
    rw [List.foldlM_cons, hkey]
    show text.foldlM Session.key _ = _
    rw [ih (fun d hd => htext d (List.mem_cons_of_mem _ hd)) (by rw [List.length_cons]; omega)]
    simp

/-- A line that is typed and entered. -/
theorem line_typed (htext : ∀ c ∈ text, IsTyped c) (hroom : text.length < maxCmdbufSize) :
    (text ++ [13]).foldlM Session.key ⟨⟨⟨[], []⟩, true, recent, place⟩, .none, replies⟩ =
      some ⟨⟨⟨[], []⟩, true, remember recent text, 0⟩, .none,
        replies ++ [⟨text.length, text⟩]⟩ := by
  have h0 : 0 ∉ text := fun h0 => absurd (htext 0 h0).1 (by decide)
  have htyped := @keys_typed text [] recent place replies htext (by rw [List.length_nil]; omega)
  rw [List.foldlM_append, htyped, List.append_nil]
  have hkey : Session.key ⟨⟨⟨text.reverse, []⟩, true, recent, place⟩, .none, replies⟩ 13 =
      some ⟨⟨⟨[], []⟩, true, remember recent text, 0⟩, .none,
        replies ++ [⟨text.length, text⟩]⟩ := by
    have hlist : (Zipper.mk text.reverse []).toList = text := by simp [Zipper.toList]
    rw [Session.key_one _ (show decode .none 13 = (.none, [.enter]) from rfl), Session.act]
    dsimp only
    rw [hlist, if_pos hroom, cString_of_not_mem h0]
    rfl
  show List.foldlM Session.key _ [13] = _
  rw [List.foldlM_cons, hkey]
  rfl

/-- Lines that are typed and entered. -/
theorem lines_typed {texts : List (List Byte)}
    (htexts : ∀ text ∈ texts, (∀ c ∈ text, IsTyped c) ∧ text.length < maxCmdbufSize) :
    ∃ s, (texts.flatMap (· ++ [13])).foldlM Session.key
        ⟨⟨⟨[], []⟩, true, recent, place⟩, .none, replies⟩ = some s ∧
      s.replies = replies ++ texts.map fun text => ⟨text.length, text⟩ := by
  induction texts generalizing recent place replies with
  | nil => exact ⟨_, rfl, (List.append_nil _).symm⟩
  | cons text texts ih =>
    obtain ⟨htext, hroom⟩ := htexts text List.mem_cons_self
    obtain ⟨s, hrun, hreplies⟩ := @ih (remember recent text) 0
      (replies ++ [⟨text.length, text⟩]) fun t ht => htexts t (List.mem_cons_of_mem _ ht)
    refine ⟨s, ?_, ?_⟩
    · rw [List.flatMap_cons, List.foldlM_append, line_typed htext hroom]
      exact hrun
    · rw [hreplies, List.append_assoc]
      rfl

end Typed

/-! ## Lines of commands -/

section Lines

variable {σ : Type} (sh : Shell σ)

/-- What a line does: its commands, or those of the last line again if they were done without
    error and may be repeated. -/
def Shell.line (w : Option (List (List (List Byte))) × σ) (cmds : List (List (List Byte))) :
    Option (List (List (List Byte))) × σ :=
  let todo := if cmds = [] then w.1 else some cmds
  let flag := if cmds = [] then cmdFlagRepeat else 0
  match todo with
  | none => (none, sh.clearCtrlc w.2)
  | some cmds =>
    let (rc, s) := sh.commands flag cmds (sh.clearCtrlc w.2) 0 true
    (if rc ≤ 0 then none else some cmds, s)

/-- Commands whose characters are typed as they are. -/
def IsTypedLine (cmds : List (List (List Byte))) : Prop :=
  (∀ args ∈ cmds, IsCommand args ∧ ∀ arg ∈ args, ∀ c ∈ arg, IsTyped c) ∧
    (renderLine cmds).length < cbSize

instance (cmds : List (List (List Byte))) : Decidable (IsTypedLine cmds) :=
  inferInstanceAs (Decidable (_ ∧ _))

theorem IsTypedLine.chars {cmds : List (List (List Byte))} (h : IsTypedLine cmds) :
    ∀ c ∈ renderLine cmds, IsTyped c := by
  intro c hc
  rcases mem_joinWith hc with rfl | ⟨text, htext, hc⟩
  · exact ⟨by decide, by decide, by decide⟩
  obtain ⟨args, hargs, rfl⟩ := List.mem_map.mp htext
  obtain ⟨d, hd, hc⟩ := List.mem_flatMap.mp hc
  have hdtyped : IsTyped d := by
    rcases mem_joinWith hd with rfl | ⟨arg, harg, hd⟩
    · exact ⟨by decide, by decide, by decide⟩
    · exact (h.1 args hargs).2 arg harg d hd
  unfold quoteChar at hc
  split_ifs at hc
  · rcases List.mem_cons.mp hc with rfl | hc
    · exact ⟨by decide, by decide, by decide⟩
    · rwa [List.mem_singleton.mp hc]
  · rwa [List.mem_singleton.mp hc]

/-- The loop is where the lines are. -/
structure MonitorIs (m : Monitor σ) (w : Option (List (List (List Byte))) × σ) : Prop where
  machine : m.machine = w.2
  last : match w.1 with
    | none => m.lastcommand = []
    | some cmds => m.lastcommand = renderLine cmds ∧ cmds ≠ [] ∧ IsTypedLine cmds

/-- A turn of the loop does what the line does. -/
theorem mainStep_line {cmds : List (List (List Byte))} (h : IsTypedLine cmds) {m : Monitor σ}
    {w : Option (List (List (List Byte))) × σ} (hm : MonitorIs m w) :
    ∃ m', mainStep sh m ⟨(renderLine cmds).length, renderLine cmds⟩ = some m' ∧
      MonitorIs m' (sh.line w cmds) := by
  obtain ⟨hmachine, hlast⟩ := hm
  unfold mainStep Shell.line
  dsimp only
  rw [if_neg (show ((renderLine cmds).length : ℤ) ≠ -1 by omega), hmachine]
  by_cases hnil : cmds = []
  · subst hnil
    have hrep : ((renderLine []).length : ℤ) = 0 := rfl
    rw [if_neg (by rw [hrep]; decide), if_pos hrep, if_pos rfl, if_pos rfl]
    cases hw : w.1 with
    | none =>
      rw [hw] at hlast
      have hempty : m.lastcommand = [] := hlast
      have hrun : runCommand sh cmdFlagRepeat [] w.2 = some (-1, sh.clearCtrlc w.2) := by
        rw [runCommand, if_pos (Or.inl rfl)]
      rw [hempty, hrun]
      exact ⟨_, rfl, rfl, rfl⟩
    | some last =>
      rw [hw] at hlast
      obtain ⟨htext, hne, htyped⟩ := hlast
      have hrun := runCommand_render sh cmdFlagRepeat hne (fun args hargs => (htyped.1 args hargs).1)
        htyped.2 w.2
      rw [htext, hrun]
      dsimp only
      generalize sh.commands cmdFlagRepeat last (sh.clearCtrlc w.2) 0 true = r
      refine ⟨_, rfl, rfl, ?_⟩
      dsimp only
      split_ifs
      · rfl
      · exact ⟨rfl, hne, htyped⟩
  · have hcmds : ∀ args ∈ cmds, IsCommand args := fun args hargs => (h.1 args hargs).1
    have hpos : 0 < (renderLine cmds).length :=
      List.length_pos_of_ne_nil (renderLine_ne_nil hnil hcmds)
    rw [if_pos (by omega), if_neg (show ((renderLine cmds).length : ℤ) ≠ 0 by omega),
      if_neg hnil, if_neg hnil, runCommand_render sh 0 hnil hcmds h.2]
    dsimp only
    generalize sh.commands 0 cmds (sh.clearCtrlc w.2) 0 true = r
    refine ⟨_, rfl, rfl, ?_⟩
    dsimp only
    split_ifs
    · rfl
    · exact ⟨rfl, hnil, h⟩

/-- Lines of quoted commands, typed one after the other and entered, are executed as they are;
    an empty line repeats the last one. -/
theorem monitor_typed {lines : List (List (List (List Byte)))}
    (h : ∀ cmds ∈ lines, IsTypedLine cmds) (s : σ) :
    ∃ c m, monitor sh (lines.flatMap fun cmds => renderLine cmds ++ [13]) s = some (c, m) ∧
      m.machine = (lines.foldl sh.line (none, s)).2 := by
  have htexts : ∀ text ∈ lines.map renderLine,
      (∀ c ∈ text, IsTyped c) ∧ text.length < maxCmdbufSize := by
    intro text htext
    obtain ⟨cmds, hcmds, rfl⟩ := List.mem_map.mp htext
    exact ⟨(h cmds hcmds).chars, (h cmds hcmds).2⟩
  obtain ⟨t, htyped, hreplies⟩ := @lines_typed [] 0 [] (lines.map renderLine) htexts
  rw [List.flatMap_map] at htyped
  have hrel := console_refines start_is (lines.flatMap fun cmds => renderLine cmds ++ [13])
  rw [show (lines.flatMap fun cmds => renderLine cmds ++ [13]).foldlM Session.key Session.start =
    some t from htyped] at hrel
  obtain ⟨c, hrun, hc⟩ : ∃ c, (lines.flatMap fun cmds => renderLine cmds ++ [13]).foldlM
      Console.key Console.start = some c ∧ ConsoleIs c t := by
    cases hrun : (lines.flatMap fun cmds => renderLine cmds ++ [13]).foldlM Console.key
        Console.start with
    | none =>
      rw [hrun] at hrel
      cases hrel
    | some c =>
      rw [hrun] at hrel
      cases hrel with
      | some hc => exact ⟨c, rfl, hc⟩
  have hloop : ∀ (lines : List (List (List (List Byte)))) (m : Monitor σ)
      (w : Option (List (List (List Byte))) × σ), (∀ cmds ∈ lines, IsTypedLine cmds) →
      MonitorIs m w →
      ∃ m', (lines.map fun cmds => Reply.mk (renderLine cmds).length (renderLine cmds)).foldlM
          (mainStep sh) m = some m' ∧ MonitorIs m' (lines.foldl sh.line w) := by
    intro lines
    induction lines with
    | nil => exact fun m w _ hm => ⟨m, rfl, hm⟩
    | cons cmds lines ih =>
      intro m w h hm
      obtain ⟨m1, hstep, hm1⟩ := mainStep_line sh (h cmds List.mem_cons_self) hm
      obtain ⟨m2, hrest, hm2⟩ := ih m1 _ (fun a ha => h a (List.mem_cons_of_mem _ ha)) hm1
      refine ⟨m2, ?_, hm2⟩
      rw [List.map_cons, List.foldlM_cons, hstep]
      exact hrest
  obtain ⟨m, hmain, hm⟩ := hloop lines ⟨[], 1, s⟩ (none, s) h ⟨rfl, rfl⟩
  refine ⟨c, m, ?_, hm.machine⟩
  have hreplies' : c.replies =
      lines.map fun cmds => Reply.mk (renderLine cmds).length (renderLine cmds) := by
    rw [hc.replies, hreplies, List.nil_append, List.map_map]
    rfl
  rw [monitor, hrun]
  show (do
    let m ← c.replies.foldlM (mainStep sh) ⟨[], 1, s⟩
    pure (c, m)) = _
  rw [hreplies', hmain]
  rfl

end Lines

/-- A machine with one command, which keeps the arguments it is called with. -/
def echoShell : Shell (List (List (List Byte))) where
  table := [⟨ascii "echo", 16, true⟩]
  getenv := fun _ _ => none
  exec := fun _ _ argv s => (0, s ++ [argv])
  clearCtrlc := id
  hadCtrlc := fun _ => false
  below := 0

/-- A command, and an empty line. -/
def echoLines : List (List (List (List Byte))) := [[[ascii "ec", ascii "$a;"]], []]

theorem monitor_typed_echo : ∃ c m,
    monitor echoShell (echoLines.flatMap fun cmds => renderLine cmds ++ [13]) [] = some (c, m) ∧
      m.machine = [[ascii "ec", ascii "$a;"], [ascii "ec", ascii "$a;"]] := by
  have htyped : ∀ cmds ∈ echoLines, IsTypedLine cmds := by decide +kernel
  obtain ⟨c, m, hrun, hmachine⟩ := monitor_typed echoShell htyped []
  exact ⟨c, m, hrun, hmachine⟩

end SmartQ.UBoot
