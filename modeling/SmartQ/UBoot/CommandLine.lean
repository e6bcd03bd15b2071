import SmartQ.UBoot.Environment

/-!
# Command lines

Model of `parse_line`, `process_macros` and `run_command` in `u-boot/common/main.c` and of
`find_cmd` in `u-boot/common/command.c`, built without `bootd`. What the commands do is a
parameter.

* `processMacros_take`: the text that is stored is the start of the expanded text, and the name
  of a variable fits its buffer.
* `findCmd_eq`: the command that is found.
* `runCommand_render`: commands whose special characters are quoted are executed as they are,
  one after the other.
-/

namespace SmartQ.UBoot

open SmartQ.Lib

/-- `CFG_CBSIZE`: the bytes of the console's line buffer. -/
def cbSize : ℕ := 256

/-- `CFG_MAXARGS`: the arguments a command may have, its name included. -/
def maxArgs : ℕ := 16

/-! ## Model -/

/-- A blank or a tab. -/
def isBlank (c : Byte) : Bool := c = 32 || c = 9

/-- `parse_line` with room for `n` more arguments. -/
def parseLine : ℕ → List Byte → List (List Byte)
  | 0, _ => []
  | n + 1, line =>
    match line.dropWhile isBlank with
    | [] => []
    | c :: line =>
      let arg := (c :: line).takeWhile (!isBlank ·)
      match (c :: line).dropWhile (!isBlank ·) with
      | [] => [arg]
      | _ :: line => arg :: parseLine n line

/-- `state` of `process_macros`: in plain text, behind a `$`, or in the name of a variable. -/
inductive MacroState
  | text
  | dollar
  | name
  | quote
  deriving DecidableEq

/-- `state`, `prev`, and the characters from `varname_start` on. -/
structure Macro where
  state : MacroState
  prev : Byte
  varname : List Byte

/-- The switch of `process_macros`: the next state and the characters put out. -/
def Macro.step (getenv : List Byte → Option (List Byte)) (m : Macro) (c : Byte) :
    Macro × List Byte :=
  match m.state with
  | .text =>
    if c = 39 ∧ m.prev ≠ 92 then (⟨.quote, c, m.varname⟩, [])
    else if c = 36 ∧ m.prev ≠ 92 then (⟨.dollar, c, m.varname⟩, [])
    else (⟨.text, c, m.varname⟩, [c])
  | .dollar =>
    if c = 40 ∨ c = 123 then (⟨.name, c, []⟩, [])
    else (⟨.text, c, m.varname⟩, [36, c])
  | .name =>
    if c = 41 ∨ c = 125 then (⟨.text, c, m.varname⟩, (getenv m.varname).getD [])
    else (⟨.name, c, m.varname ++ [c]⟩, [])
  | .quote =>
    if c = 39 ∧ m.prev ≠ 92 then (⟨.text, c, m.varname⟩, []) else (⟨.quote, c, m.varname⟩, [c])

/-- A backslash that takes the special meaning from the character behind it. -/
def Macro.escapes (m : Macro) (c : Byte) : Prop := m.state ≠ .quote ∧ c = 92 ∧ m.prev ≠ 92

instance (m : Macro) (c : Byte) : Decidable (m.escapes c) := by
  unfold Macro.escapes
  infer_instance

/-- Behind such a backslash. -/
def Macro.escape (m : Macro) : Macro := { m with prev := 92, varname := m.varname ++ [92] }

/-- The loop of `process_macros`, with what is in `output` so far; none if the name of a
    variable does not fit `envname`. -/
def macroLoop (getenv : List Byte → Option (List Byte)) :
    List Byte → Macro → List Byte → Option (List Byte)
  | [], _, out => some out
  | c :: input, m, out =>
    if out.length < cbSize then
      if m.escapes c then macroLoop getenv input m.escape out
      else if m.state = .name ∧ (c = 41 ∨ c = 125) ∧ cbSize ≤ m.varname.length then none
      else
        let (m, text) := m.step getenv c
        macroLoop getenv input m ((out ++ text).take cbSize)
    else some out

/-- The state in front of the first character: plain text, and no name begun. -/
def Macro.start : Macro := ⟨.text, 0, []⟩

/-- `process_macros`: what is stored in `output`. With 256 characters there is no terminator
    behind them. -/
def processMacros (getenv : List Byte → Option (List Byte)) (input : List Byte) :
    Option (List Byte) := macroLoop getenv input .start []

/-- A `cmd_tbl_t` as far as `run_command` looks at it. -/
structure Cmd where
  name : List Byte
  maxargs : ℕ
  repeatable : Bool

/-- The loop of `find_cmd`, with `cmdtp_temp` and `n_found`. -/
def findLoop (cmd : List Byte) : List Cmd → Option Cmd → ℕ → Option Cmd
  | [], cmdtpTemp, nFound => if nFound = 1 then cmdtpTemp else none
  | cmdtp :: table, cmdtpTemp, nFound =>
    if cmd.isPrefixOf cmdtp.name then
      if cmd.length = cmdtp.name.length then some cmdtp
      else findLoop cmd table (some cmdtp) (nFound + 1)
    else findLoop cmd table cmdtpTemp nFound

/-- `find_cmd`: only the part up to the first dot counts. -/
def findCmd (table : List Cmd) (cmd : List Byte) : Option Cmd :=
  findLoop (cmd.takeWhile (· ≠ 46)) table none 0

/-- What `run_command` depends on, over a state `σ` of the machine. -/
structure Shell (σ : Type) where
  table : List Cmd
  getenv : σ → List Byte → Option (List Byte)
  /-- `cmdtp->cmd (cmdtp, flag, argc, argv)`. -/
  exec : Cmd → ℕ → List (List Byte) → σ → ℤ × σ
  clearCtrlc : σ → σ
  hadCtrlc : σ → Bool
  /-- The byte in front of `cmdbuf`, which is read when a command begins with a quote. -/
  below : Byte

/-- The commands of a line as the loop over `sep` splits them; `prev` is the character before,
    `start` the start of a command. -/
def tokens : List Byte → (prev : Byte) → (inquotes start : Bool) → List (List Byte)
  | [], _, _, _ => [[]]
  | c :: str, prev, inquotes, start =>
    let inquotes := if c = 39 ∧ prev ≠ 92 then !inquotes else inquotes
    if ¬ inquotes ∧ c = 59 ∧ ¬ start ∧ prev ≠ 92 then
      [] :: (if str = [] then [] else tokens str 0 false true)
    else
      match tokens str c inquotes false with
      | token :: rest => (c :: token) :: rest
      | [] => [[c]]

section Run

variable {σ : Type} (sh : Shell σ) (flag : ℕ)

/-- A command with its arguments (lines 1373–1413): none if it is not executed. -/
def Shell.command (argv : List (List Byte)) (s : σ) : Option (Cmd × ℤ × σ) :=
  match argv with
  | [] => none
  | arg0 :: _ =>
    match findCmd sh.table arg0 with
    | none => none
    | some cmdtp =>
      if argv.length > cmdtp.maxargs then none
      else some (cmdtp, sh.exec cmdtp flag argv s)

/-- The loop of `run_command`, with `rc` and `repeatable`; none if `finaltoken` has no
    terminator. -/
def runTokens : List (List Byte) → σ → ℤ → Bool → Option (ℤ × σ)
  | [], s, rc, repeatable => some (if rc ≠ 0 then rc else repeatable.toNat, s)
  | token :: rest, s, rc, repeatable =>
    match processMacros (sh.getenv s) token with
    | none => none
    | some finaltoken =>
      if cbSize ≤ finaltoken.length then none
      else
        match sh.command flag (parseLine maxArgs finaltoken) s with
        | none => runTokens rest s (-1) repeatable
        | some (cmdtp, ret, s) =>
          if sh.hadCtrlc s then some (0, s)
          else runTokens rest s (if ret ≠ 0 then -1 else rc) (repeatable && cmdtp.repeatable)

/-- `run_command`: a line is split at its semicolons, and each part is run as a command. -/
def runCommand (cmd : List Byte) (s : σ) : Option (ℤ × σ) :=
  let s := sh.clearCtrlc s
  if cmd = [] ∨ cbSize ≤ cmd.length then some (-1, s)
  else runTokens sh flag (tokens cmd sh.below false true) s 0 true

end Run

/-! ## Macros -/

section Macros

variable {getenv : List Byte → Option (List Byte)} {m : Macro} {input out : List Byte}

/-- The text with its macros expanded, of any length. -/
def expand (getenv : List Byte → Option (List Byte)) : List Byte → Macro → List Byte
  | [], _ => []
  | c :: input, m =>
    if m.escapes c then expand getenv input m.escape
    else (m.step getenv c).2 ++ expand getenv input (m.step getenv c).1

/-- The name of a variable is part of the text before. -/
theorem Macro.varname_step (m : Macro) (c : Byte) :
    (m.step getenv c).1.varname.length ≤ m.varname.length + 1 := by
  unfold Macro.step
  cases m.state <;> dsimp only <;> split_ifs <;> simp

theorem macroLoop_eq (hroom : m.varname.length + input.length < cbSize + 1) :
    macroLoop getenv input m (out.take cbSize) =
      some ((out ++ expand getenv input m).take cbSize) := by
  induction input generalizing m out with
  | nil => rw [macroLoop, expand, List.append_nil]
  | cons c input ih =>
    rw [List.length_cons] at hroom
    rw [macroLoop, expand]
    by_cases hfull : (out.take cbSize).length < cbSize
    · have hout : out.take cbSize = out := by
        apply List.take_of_length_le
        rw [List.length_take] at hfull
        omega
      rw [if_pos hfull]
      by_cases hesc : m.escapes c
      · rw [if_pos hesc, if_pos hesc]
        apply ih
        rw [Macro.escape, List.length_append, List.length_singleton]
        omega
      · rw [if_neg hesc, if_neg hesc, if_neg (fun h => by omega), hout]
        dsimp only
        rw [ih, List.append_assoc]
        have hstep : (m.step getenv c).1.varname.length ≤ _ := m.varname_step c
        omega
    · have hlen : cbSize ≤ out.length := by
        rw [List.length_take] at hfull
        omega
      rw [if_neg hfull, List.take_append_of_le_length hlen]

/-- Any command leaves the start of its expansion: with fewer than 256 characters all of it,
    and a terminator; and every name of a variable fits its buffer. -/
theorem processMacros_take (hinput : input.length < cbSize) :
    processMacros getenv input = some ((expand getenv input .start).take cbSize) := by
  have hroom : Macro.start.varname.length + input.length < cbSize + 1 := by
    show 0 + input.length < cbSize + 1
    omega
  exact @macroLoop_eq getenv .start input [] hroom

end Macros

/-! ## The command that is found -/

section Find

variable {key : List Byte} {table : List Cmd}

/-- The commands that an abbreviation can stand for. -/
def candidates (table : List Cmd) (key : List Byte) : List Cmd :=
  table.filter fun c => key.isPrefixOf c.name

theorem findLoop_eq (cmdtpTemp : Option Cmd) (n : ℕ) :
    findLoop key table cmdtpTemp n =
      (table.find? fun c => key = c.name).or
        (if n + (candidates table key).length = 1 then
          (candidates table key).getLast?.or cmdtpTemp else none) := by
  induction table generalizing cmdtpTemp n with
  | nil => rfl
  | cons c table ih =>
    rw [findLoop, List.find?_cons]
    by_cases hhead : key.isPrefixOf c.name
    · have hsplit : candidates (c :: table) key = c :: candidates table key :=
        List.filter_cons_of_pos hhead
      rw [if_pos hhead]
      by_cases hfull : key = c.name
      · rw [if_pos (congrArg List.length hfull), decide_eq_true hfull]
        rfl
      · have hlen : ¬ key.length = c.name.length := fun hlen =>
          hfull ((List.isPrefixOf_iff_prefix.mp hhead).eq_of_length hlen)
        rw [if_neg hlen, decide_eq_false hfull, ih, hsplit, List.length_cons, List.getLast?_cons,
          Nat.add_assoc, Nat.add_comm 1]
        cases (candidates table key).getLast? <;> rfl
    · have hfull : ¬ key = c.name := fun hfull =>
        hhead (List.isPrefixOf_iff_prefix.mpr (hfull ▸ List.prefix_rfl))
      have hsplit : candidates (c :: table) key = candidates table key :=
        List.filter_cons_of_neg hhead
      rw [if_neg hhead, decide_eq_false hfull, ih, hsplit]

/-- A command is found by its name, or else by the start of it if there is only one such
    command. -/
theorem findCmd_eq (table : List Cmd) (cmd : List Byte) :
    findCmd table cmd =
      (table.find? fun c => cmd.takeWhile (· ≠ 46) = c.name).or
        (if (candidates table (cmd.takeWhile (· ≠ 46))).length = 1 then
          (candidates table (cmd.takeWhile (· ≠ 46))).getLast? else none) := by
  rw [findCmd, findLoop_eq, Nat.zero_add, Option.or_none]

end Find

/-! ## Quoted commands -/

/-- A character that has a meaning of its own in a command. -/
def isSpecial (c : Byte) : Bool := c = 36 || c = 39 || c = 59

/-- A character with a backslash in front of it if it is special. -/
def quoteChar (c : Byte) : List Byte := if isSpecial c then [92, c] else [c]

/-- A text whose special characters are quoted. -/
def quoteText (text : List Byte) : List Byte := text.flatMap quoteChar

/-- Texts with a character between them. -/
def joinWith (sep : Byte) : List (List Byte) → List Byte
  | [] => []
  | [text] => text
  | text :: texts => text ++ sep :: joinWith sep texts

/-- Arguments with blanks between them, and their special characters quoted. -/
def renderArgs (args : List (List Byte)) : List Byte := quoteText (joinWith 32 args)

/-- Commands with semicolons between them. -/
def renderLine (cmds : List (List (List Byte))) : List Byte := joinWith 59 (cmds.map renderArgs)

/-- What an argument can be: it is not empty, and has no blank and no backslash in it. -/
def IsArg (arg : List Byte) : Prop := arg ≠ [] ∧ ∀ c ∈ arg, isBlank c = false ∧ c ≠ 92

instance (arg : List Byte) : Decidable (IsArg arg) := inferInstanceAs (Decidable (_ ∧ _))

/-- What a command can be: one to sixteen such arguments. -/
def IsCommand (args : List (List Byte)) : Prop :=
  args ≠ [] ∧ args.length ≤ maxArgs ∧ ∀ arg ∈ args, IsArg arg

instance (args : List (List Byte)) : Decidable (IsCommand args) :=
  inferInstanceAs (Decidable (_ ∧ _))

/-- Commands executed one after the other until one is interrupted: what `run_command` does
    without its text. -/
def Shell.commands {σ : Type} (sh : Shell σ) (flag : ℕ) :
    List (List (List Byte)) → σ → ℤ → Bool → ℤ × σ
  | [], s, rc, repeatable => (if rc ≠ 0 then rc else repeatable.toNat, s)
  | args :: cmds, s, rc, repeatable =>
    match sh.command flag args s with
    | none => sh.commands flag cmds s (-1) repeatable
    | some (cmdtp, ret, s) =>
      if sh.hadCtrlc s then (0, s)
      else sh.commands flag cmds s (if ret ≠ 0 then -1 else rc) (repeatable && cmdtp.repeatable)

section Quote

variable {text rest : List Byte} {args : List (List Byte)} {cmds : List (List (List Byte))}

theorem quoteText_cons (c : Byte) (text : List Byte) :
    quoteText (c :: text) = quoteChar c ++ quoteText text := List.flatMap_cons ..

theorem quoteText_ne_nil (h : text ≠ []) : quoteText text ≠ [] := by
  obtain ⟨c, text, rfl⟩ := List.exists_cons_of_ne_nil h
  rw [quoteText_cons]
  unfold quoteChar
  split_ifs
  · exact List.cons_ne_nil _ _
  · exact List.cons_ne_nil _ _

theorem joinWith_ne_nil {sep : Byte} (h : text ≠ []) {texts : List (List Byte)} :
    joinWith sep (text :: texts) ≠ [] := by
  cases texts with
  | nil => exact h
  | cons t texts => exact List.append_ne_nil_of_left_ne_nil h _

/-- A quoted text is expanded to itself. -/
theorem expand_quoteText (getenv : List Byte → Option (List Byte)) (h : 92 ∉ text) {m : Macro}
    (hstate : m.state = .text) (hprev : m.prev ≠ 92) :
    expand getenv (quoteText text) m = text := by
  induction text generalizing m with
  | nil => rfl
  | cons c text ih =>
    have hc : c ≠ 92 := fun hc => h (hc ▸ List.mem_cons_self)
    have htext : 92 ∉ text := fun hmem => h (List.mem_cons_of_mem _ hmem)
    rw [quoteText_cons]
    unfold quoteChar
    by_cases hspecial : isSpecial c
    · have hesc : m.escapes 92 := ⟨by rw [hstate]; decide, rfl, hprev⟩
      have hnesc : ¬ m.escape.escapes c := fun hno => hno.2.2 rfl
      have hstep : m.escape.step getenv c = (⟨.text, c, m.varname ++ [92]⟩, [c]) := by
        rw [Macro.step, Macro.escape, hstate]
        dsimp only
        rw [if_neg (fun hno => hno.2 rfl), if_neg (fun hno => hno.2 rfl)]
      rw [if_pos hspecial, List.cons_append, List.singleton_append, expand, if_pos hesc, expand,
        if_neg hnesc, hstep, ih htext rfl hc]
      rfl
    · have hnesc : ¬ m.escapes c := fun hno => hc hno.2.1
      have hstep : m.step getenv c = (⟨.text, c, m.varname⟩, [c]) := by
        unfold isSpecial at hspecial
        rw [Macro.step, hstate]
        dsimp only
        rw [if_neg (fun hno => hspecial (by rw [hno.1]; decide)),
          if_neg (fun hno => hspecial (by rw [hno.1]; decide))]
      rw [if_neg hspecial, List.singleton_append, expand, if_neg hnesc, hstep, ih htext rfl hc]
      rfl

/-- A text in front of the first command. -/
def glue (text : List Byte) : List (List Byte) → List (List Byte)
  | [] => [text]
  | token :: rest => (text ++ token) :: rest

theorem glue_glue (t u : List Byte) (l : List (List Byte)) : glue t (glue u l) = glue (t ++ u) l := by
  cases l with
  | nil => rfl
  | cons token rest => simp [glue]

/-- A character that does not end a command. -/
theorem tokens_cons {c : Byte} {prev : Byte} {inquotes start : Bool}
    (hc : ¬ (¬ (if c = 39 ∧ prev ≠ 92 then !inquotes else inquotes) = true ∧
      c = 59 ∧ ¬ start ∧ prev ≠ 92)) (str : List Byte) :
    tokens (c :: str) prev inquotes start =
      glue [c] (tokens str c (if c = 39 ∧ prev ≠ 92 then !inquotes else inquotes) false) := by
  rw [tokens]
  refine (if_neg hc).trans ?_
  unfold glue
  split
  · rename_i h
    rw [h]
    rfl
  · rename_i h
    rw [h]

theorem tokens_quoteChar (c : Byte) (str : List Byte) (prev : Byte) (start : Bool) :
    tokens (quoteChar c ++ str) prev false start = glue (quoteChar c) (tokens str c false false) := by
  by_cases hspecial : isSpecial c
  · -- the backslash is no separator, and what follows it is none either
    have hquote : ¬ (c = 39 ∧ (92 : Byte) ≠ 92) := fun hno => hno.2 rfl
    rw [quoteChar, if_pos hspecial, List.cons_append, List.singleton_append,
      tokens_cons (fun hno => absurd hno.2.1 (by decide)),
      if_neg (fun hno => absurd hno.1 (by decide)),
      tokens_cons (fun hno => hno.2.2.2 rfl), if_neg hquote, glue_glue]
    rfl
  · have hquote : ¬ (c = 39 ∧ prev ≠ 92) := fun hno => hspecial (by rw [hno.1]; decide)
    rw [quoteChar, if_neg hspecial, List.singleton_append,
      tokens_cons (fun hno => hspecial (by rw [hno.2.1]; decide)), if_neg hquote]

/-- A quoted text is not split. -/
theorem tokens_quoteText (h : 92 ∉ text) (hne : text ≠ []) (rest : List Byte) (prev : Byte)
    (start : Bool) :
    ∃ prev', prev' ≠ 92 ∧ tokens (quoteText text ++ rest) prev false start =
      glue (quoteText text) (tokens rest prev' false false) := by
  induction text generalizing prev start with
  | nil => exact absurd rfl hne
  | cons c text ih =>
    have hc : c ≠ 92 := fun hc => h (hc ▸ List.mem_cons_self)
    rw [quoteText_cons, List.append_assoc, tokens_quoteChar]
    by_cases hnil : text = []
    · refine ⟨c, hc, ?_⟩
      rw [hnil]
      simp [quoteText]
    · obtain ⟨prev', hprev, htokens⟩ :=
        ih (fun hmem => h (List.mem_cons_of_mem _ hmem)) hnil c false
      exact ⟨prev', hprev, by rw [htokens, glue_glue]⟩

/-- The commands of a line. -/
theorem tokens_render {texts : List (List Byte)} (hne : texts ≠ [])
    (htexts : ∀ text ∈ texts, text ≠ [] ∧ 92 ∉ text) (prev : Byte) :
    tokens (joinWith 59 (texts.map quoteText)) prev false true = texts.map quoteText := by
  induction texts generalizing prev with
  | nil => exact absurd rfl hne
  | cons text texts ih =>
    obtain ⟨htext, h92⟩ := htexts text List.mem_cons_self
    cases texts with
    | nil =>
      obtain ⟨prev', -, htokens⟩ := tokens_quoteText h92 htext [] prev true
      rw [List.append_nil] at htokens
      show tokens (quoteText text) prev false true = [quoteText text]
      rw [htokens, tokens]
      simp [glue]
    | cons text2 texts =>
      have hrest := ih (List.cons_ne_nil _ _)
        (fun t ht => htexts t (List.mem_cons_of_mem _ ht)) 0
      obtain ⟨prev', hprev, htokens⟩ := tokens_quoteText h92 htext
        (59 :: joinWith 59 ((text2 :: texts).map quoteText)) prev true
      have hmore : joinWith 59 ((text2 :: texts).map quoteText) ≠ [] :=
        joinWith_ne_nil (quoteText_ne_nil (htexts text2 (by simp)).1)
      show tokens (quoteText text ++ 59 :: joinWith 59 ((text2 :: texts).map quoteText)) prev
        false true = quoteText text :: (text2 :: texts).map quoteText
      have hsep : tokens (59 :: joinWith 59 ((text2 :: texts).map quoteText)) prev' false false =
          [] :: (text2 :: texts).map quoteText := by
        rw [tokens]
        have hquote : ¬ ((59 : Byte) = 39 ∧ prev' ≠ 92) := fun hno => absurd hno.1 (by decide)
        refine (if_pos ⟨by rw [if_neg hquote]; decide, rfl, by decide, hprev⟩).trans ?_
        rw [if_neg hmore, hrest]
      rw [htokens, hsep]
      simp [glue]

/-- Arguments are found where they are. -/
theorem parseLine_joinWith {n : ℕ} (hn : args.length ≤ n) (hargs : ∀ arg ∈ args, IsArg arg) :
    parseLine n (joinWith 32 args) = args := by
  induction args generalizing n with
  | nil =>
    cases n with
    | zero => rfl
    | succ n => rfl
  | cons arg args ih =>
    obtain ⟨n, rfl⟩ : ∃ m, n = m + 1 := ⟨n - 1, by rw [List.length_cons] at hn; omega⟩
    obtain ⟨harg, hchars⟩ := hargs arg List.mem_cons_self
    obtain ⟨c, w, rfl⟩ := List.exists_cons_of_ne_nil harg
    have hc : isBlank c = false := (hchars c List.mem_cons_self).1
    have hword : ∀ d ∈ c :: w, (!isBlank d) = true := fun d hd => by rw [(hchars d hd).1]; rfl
    have hstart : ∀ rest, (c :: w ++ rest).dropWhile isBlank = c :: w ++ rest := by
      intro rest
      rw [List.cons_append, List.dropWhile_cons, hc]
      rfl
    cases args with
    | nil =>
      have hline : joinWith 32 [c :: w] = c :: w ++ [] := (List.append_nil _).symm
      rw [hline, parseLine, hstart, List.append_nil]
      dsimp only
      have hend : (c :: w).dropWhile (!isBlank ·) = [] := List.dropWhile_eq_nil_iff.mpr hword
      rw [hend, List.takeWhile_eq_self_iff.mpr hword]
    | cons arg2 args =>
      have hline : joinWith 32 ((c :: w) :: arg2 :: args) =
          c :: w ++ 32 :: joinWith 32 (arg2 :: args) := rfl
      have htake : (c :: (w ++ 32 :: joinWith 32 (arg2 :: args))).takeWhile (!isBlank ·) = c :: w := by
        rw [← List.cons_append, List.takeWhile_append_of_pos hword]
        simp [isBlank]
      have hdrop : (c :: (w ++ 32 :: joinWith 32 (arg2 :: args))).dropWhile (!isBlank ·) =
          32 :: joinWith 32 (arg2 :: args) := by
        rw [← List.cons_append, List.dropWhile_append_of_pos hword]
        rfl
      rw [hline, parseLine, hstart, List.cons_append]
      dsimp only
      rw [hdrop, htake]
      dsimp only
      rw [ih (by simpa using hn) (fun a ha => hargs a (List.mem_cons_of_mem _ ha))]

theorem length_quoteText (text : List Byte) : text.length ≤ (quoteText text).length := by
  induction text with
  | nil => exact Nat.zero_le _
  | cons c text ih =>
    have hchar : 1 ≤ (quoteChar c).length := by
      unfold quoteChar
      split_ifs <;> simp
    rw [quoteText_cons, List.length_append, List.length_cons]
    omega

theorem length_joinWith {sep : Byte} {texts : List (List Byte)} (h : text ∈ texts) :
    text.length ≤ (joinWith sep texts).length := by
  induction texts with
  | nil => exact absurd h List.not_mem_nil
  | cons t texts ih =>
    cases texts with
    | nil =>
      rw [List.mem_singleton.mp h]
      exact le_rfl
    | cons u texts =>
      show text.length ≤ (t ++ sep :: joinWith sep (u :: texts)).length
      rw [List.length_append, List.length_cons]
      rcases List.mem_cons.mp h with rfl | h
      · omega
      · have hle := ih h
        omega

theorem mem_joinWith {sep c : Byte} {texts : List (List Byte)} (h : c ∈ joinWith sep texts) :
    c = sep ∨ ∃ t ∈ texts, c ∈ t := by
  induction texts with
  | nil => exact absurd h List.not_mem_nil
  | cons t texts ih =>
    cases texts with
    | nil => exact Or.inr ⟨t, List.mem_cons_self, h⟩
    | cons u texts =>
      change c ∈ t ++ sep :: joinWith sep (u :: texts) at h
      rcases List.mem_append.mp h with h | h
      · exact Or.inr ⟨t, List.mem_cons_self, h⟩
      · rcases List.mem_cons.mp h with h | h
        · exact Or.inl h
        · rcases ih h with h | ⟨v, hv, h⟩
          · exact Or.inl h
          · exact Or.inr ⟨v, List.mem_cons_of_mem _ hv, h⟩

/-- The text of a command is not empty and has no backslash. -/
theorem IsCommand.joined (h : IsCommand args) : joinWith 32 args ≠ [] ∧ 92 ∉ joinWith 32 args := by
  obtain ⟨hne, -, hargs⟩ := h
  obtain ⟨arg, args, rfl⟩ := List.exists_cons_of_ne_nil hne
  refine ⟨joinWith_ne_nil (hargs arg List.mem_cons_self).1, fun hmem => ?_⟩
  rcases mem_joinWith hmem with h92 | ⟨a, ha, h92⟩
  · exact absurd h92 (by decide)
  · exact ((hargs a ha).2 92 h92).2 rfl

theorem renderLine_ne_nil (hne : cmds ≠ []) (hcmds : ∀ args ∈ cmds, IsCommand args) :
    renderLine cmds ≠ [] := by
  obtain ⟨args, cmds, rfl⟩ := List.exists_cons_of_ne_nil hne
  exact joinWith_ne_nil (quoteText_ne_nil (hcmds args List.mem_cons_self).joined.1)

variable {σ : Type} (sh : Shell σ) (flag : ℕ)

/-- Quoted commands are executed as they are. -/
theorem runTokens_render (hcmds : ∀ args ∈ cmds, IsCommand args ∧ (renderArgs args).length < cbSize)
    (s : σ) (rc : ℤ) (repeatable : Bool) :
    runTokens sh flag (cmds.map renderArgs) s rc repeatable =
      some (sh.commands flag cmds s rc repeatable) := by
  induction cmds generalizing s rc repeatable with
  | nil => rfl
  | cons args cmds ih =>
    obtain ⟨hargs, hlen⟩ := hcmds args List.mem_cons_self
    have hrest := ih fun a ha => hcmds a (List.mem_cons_of_mem _ ha)
    have hshort : (joinWith 32 args).length < cbSize := (length_quoteText _).trans_lt hlen
    have hmacros : processMacros (sh.getenv s) (renderArgs args) = some (joinWith 32 args) := by
      rw [processMacros_take hlen, renderArgs, expand_quoteText _ hargs.joined.2 rfl (by decide),
        List.take_of_length_le hshort.le]
    rw [List.map_cons, runTokens, hmacros]
    dsimp only
    rw [if_neg (not_le.mpr hshort), parseLine_joinWith hargs.2.1 hargs.2.2, Shell.commands]
    cases sh.command flag args s with
    | none => exact hrest s (-1) repeatable
    | some r =>
      obtain ⟨cmdtp, ret, s'⟩ := r
      dsimp only
      by_cases hctrlc : sh.hadCtrlc s'
      · rw [if_pos hctrlc, if_pos hctrlc]
      · rw [if_neg hctrlc, if_neg hctrlc]
        exact hrest s' _ _

/-- Commands whose special characters are quoted are executed as they are, one after the
    other, whatever is in the environment. -/
theorem runCommand_render (hne : cmds ≠ []) (hcmds : ∀ args ∈ cmds, IsCommand args)
    (hlen : (renderLine cmds).length < cbSize) (s : σ) :
    runCommand sh flag (renderLine cmds) s =
      some (sh.commands flag cmds (sh.clearCtrlc s) 0 true) := by
  have hmap : cmds.map renderArgs = (cmds.map (joinWith 32)).map quoteText := by
    rw [List.map_map]
    rfl
  have htokens : tokens (renderLine cmds) sh.below false true = cmds.map renderArgs := by
    rw [renderLine, hmap]
    apply tokens_render
    · exact fun hnil => hne (List.map_eq_nil_iff.mp hnil)
    · intro text htext
      obtain ⟨args, hargs, rfl⟩ := List.mem_map.mp htext
      exact (hcmds args hargs).joined
  unfold runCommand
  dsimp only
  rw [if_neg (fun h => h.elim (renderLine_ne_nil hne hcmds) (not_le.mpr hlen)), htokens]
  exact runTokens_render sh flag (fun args hargs => ⟨hcmds args hargs,
    (length_joinWith (List.mem_map_of_mem hargs)).trans_lt hlen⟩) _ _ _

end Quote

end SmartQ.UBoot
