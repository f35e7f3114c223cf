import EltexTasks.ShellInput
import EltexTasks.ShellParse
import EltexTasks.ShellStream
/-!
# ShellSession — from the input to the pipelines

`shell_start` whole: it reads a line, cuts it into commands as it forks them, and waits for them, while the programs may
read from its input or move it.  Its processes and descriptors are those of a run of `step`, so that what holds of all
of these holds of a session (`sys_of_session`); the pipelines it runs are those of the lines it reads, in their order,
and these are the lines of its input where the programs leave it alone (`session_runs_lines`); pipelines printed one to
a line then come back as they were (`session_of_pipelines`).
-/
namespace Eltex
namespace Shell

open Run (run)

/-- The shell with its input.  `line` is the buffer, `lineIter` its next command; `lines` are the lines it has read to
run them, and `ended` the pipelines of those it is done with. -/
structure Session where
  sys : Sys
  stdin : List Byte
  line : CString
  lineIter : Nat
  lines : List CString
  ended : List (List ShellCommand)
  stopped : Bool

/-- The shell takes its next step, with `ends` for a pipe it makes; a command's process does something; or a program
that shares the input reads from it or moves it, and `unread` is what the shell finds there next. -/
inductive SessionEvent where
  | shell (ends : Fd × Fd)
  | child (i : Nat) (a : Action)
  | input (unread : List Byte)
deriving DecidableEq, Repr

def shellCommands (s : Sys) : List ShellCommand := s.commandArr.map Command.toShellCommand

/-- The top of the outer loop.  A line that begins with NUL is written to before its first byte. -/
def promptStep (s : Session) : Option Session :=
  if s.stdin.head? = some 0 then none
  else
    match readLine s.stdin with
    | none => some { s with stopped := true }
    | some (line, rest) =>
      if line = quitShell then some { s with stdin := rest, line := line, stopped := true }
      else
        (lineStep s.sys).map fun sys =>
          { s with sys := sys, stdin := rest, line := line, lineIter := 0, lines := s.lines ++ [line] }

/-- The parse loop up to its `fork`. -/
def parseStep (s : Session) (ends : Fd × Fd) : Option Session :=
  let (args, retVal) := separateArgs (s.line.drop s.lineIter)
  (commandStep s.sys args retVal ends).bind fun sys =>
    (trimLine s.line s.lineIter args).map fun lineIter => { s with sys := sys, lineIter := lineIter }

/-- A step that `shell_start` takes without choice; with the last of a line the line is done. -/
def forkStep (s : Session) : Option Session :=
  (shellStep s.sys).map fun sys =>
    { s with sys := sys, ended := if sys.pc = .prompt then s.ended ++ [shellCommands sys] else s.ended }

def sessionStep (s : Session) : SessionEvent → Option Session
  | .shell ends =>
    if s.stopped then none
    else
      match s.sys.pc with
      | .prompt => promptStep s
      | .parse => parseStep s ends
      | _ => forkStep s
  | .child i a => (processStep s.sys i a).map fun sys => { s with sys := sys }
  | .input unread => some { s with stdin := unread }

/-- The programs leave the input where it is. -/
def leavesInput (s : Session) : SessionEvent → Prop
  | .shell _ => True
  | .child _ _ => True
  | .input unread => unread = s.stdin

instance : ∀ (s : Session) (e : SessionEvent), Decidable (leavesInput s e)
  | _, .shell _ => isTrue trivial
  | _, .child _ _ => isTrue trivial
  | s, .input unread => inferInstanceAs (Decidable (unread = s.stdin))

def startSession (fds : Table) (stdin : List Byte) : Session :=
  { sys := init fds, stdin := stdin, line := [], lineIter := 0, lines := [], ended := [], stopped := false }

/-- The lines of an input that the shell parses. -/
def parsedStrings (stdin : List Byte) : List CString := (chunkStrings stdin).takeWhile (· ≠ quitShell)

variable {s t : Session} {fds : Table} {stdin : List Byte}

theorem parsedStrings_of_none (h : readLine stdin = none) : parsedStrings stdin = [] := by
  unfold parsedStrings
  rw [chunkStrings_of_none h]
  rfl

theorem parsedStrings_of_readLine {line : CString} {rest : List Byte} (h : readLine stdin = some (line, rest)) :
    parsedStrings stdin = if line = quitShell then [] else line :: parsedStrings rest := by
  unfold parsedStrings
  rw [chunkStrings_of_readLine h]
  by_cases hquit : line = quitShell
  · rw [if_pos hquit, if_pos hquit, hquit]
    rfl
  · rw [if_neg hquit, if_neg hquit, List.takeWhile_cons, if_pos (by simpa using hquit)]

/-! ## A session is a run of the processes -/

/-- What a step of a session does to the processes is at most one step of theirs. -/
theorem sessionStep_sys {e : SessionEvent} (hs : sessionStep s e = some t) :
    t.sys = s.sys ∨ ∃ e', step s.sys e' = some t.sys := by
  cases e with
  | shell ends =>
    simp only [sessionStep] at hs
    split at hs
    · cases hs
    · split at hs
      · unfold promptStep at hs
        split at hs
        · cases hs
        · split at hs
          · obtain rfl := Option.some.inj hs
            exact .inl rfl
          · split at hs
            · obtain rfl := Option.some.inj hs
              exact .inl rfl
            · obtain ⟨sys, hsys, rfl⟩ := Option.map_eq_some_iff.1 hs
              exact .inr ⟨.line, hsys⟩
      · obtain ⟨sys, hsys, hs⟩ := Option.bind_eq_some_iff.1 hs
        obtain ⟨lineIter, -, rfl⟩ := Option.map_eq_some_iff.1 hs
        exact .inr ⟨.command _ _ ends, hsys⟩
      · obtain ⟨sys, hsys, rfl⟩ := Option.map_eq_some_iff.1 hs
        exact .inr ⟨.shell, hsys⟩
  | child i a =>
    obtain ⟨sys, hsys, rfl⟩ := Option.map_eq_some_iff.1 hs
    exact .inr ⟨.child i a, hsys⟩
  | input unread =>
    obtain rfl := Option.some.inj hs
    exact .inl rfl

/-- The processes of a session are reached by a run of their own. -/
theorem sys_of_session {es : List SessionEvent} (hrun : run sessionStep (startSession fds stdin) es = some s) :
    ∃ es', run step (init fds) es' = some s.sys := by
  have hstep : ∀ s e t, (∃ es', run step (init fds) es' = some s.sys) → sessionStep s e = some t →
      ∃ es', run step (init fds) es' = some t.sys := by
    rintro s e t ⟨es', hes'⟩ hs
    rcases sessionStep_sys hs with heq | ⟨e', he'⟩
    · exact ⟨es', by rw [heq]; exact hes'⟩
    · refine ⟨es' ++ [e'], ?_⟩
      rw [Run.run_concat, hes', Option.bind_some, he']
  exact Run.run_inv hstep ⟨[], rfl⟩ hrun

/-! ## One line -/

/-- The commands of the line, those of the rounds of the parse loop still to come included. -/
def lineCommands (s : Session) : Option (List ShellCommand) :=
  (parseLoop s.line (commandArraySize - s.sys.commandArr.length) s.sys.commandArr.length s.lineIter).map
    (shellCommands s.sys ++ ·)

/-- What is parsed of the line is what `parseLine` gives. -/
def Parsing (s : Session) : Prop :=
  match s.sys.pc with
  | .prompt => True
  | .parse => parseLine s.line = lineCommands s
  | .fork last => parseLine s.line = if last then some (shellCommands s.sys) else lineCommands s
  | _ => parseLine s.line = some (shellCommands s.sys)

/-- The line is parsed and its commands are waited for. -/
def cleaning : Pc → Bool
  | .wait _ => true
  | .write _ => true
  | .closeOut _ => true
  | .closeIn _ => true
  | _ => false

theorem parsing_of_cleaning (hpc : cleaning s.sys.pc = true) :
    Parsing s ↔ parseLine s.line = some (shellCommands s.sys) := by
  unfold Parsing
  cases hs : s.sys.pc with
  | prompt => rw [hs] at hpc; cases hpc
  | parse => rw [hs] at hpc; cases hpc
  | fork last => rw [hs] at hpc; cases hpc
  | wait i => exact Iff.rfl
  | write i => exact Iff.rfl
  | closeOut i => exact Iff.rfl
  | closeIn i => exact Iff.rfl

theorem setPipes_commands {x y : Sys} {c : ShellCommand} {ends : Fd × Fd} (h : setPipes x c ends = some y) :
    shellCommands y = shellCommands x ++ [c] := by
  unfold setPipes at h
  by_cases ho : c.outFlag = .toPipe
  · rw [if_pos ho] at h
    by_cases hfree : x.fds ends.1 = none ∧ x.fds ends.2 = none ∧ ends.1 ≠ ends.2
    · rw [if_pos hfree] at h
      obtain rfl := Option.some.inj h
      exact List.map_append
    · rw [if_neg hfree] at h
      cases h
  · rw [if_neg ho] at h
    obtain rfl := Option.some.inj h
    exact List.map_append

theorem commandStep_commands {x y : Sys} {args : List CString} {retVal : Nat} {ends : Fd × Fd}
    (h : commandStep x args retVal ends = some y) : x.commandArr.length < commandArraySize ∧
      y.pc = .fork (retVal == 0) ∧
      shellCommands y = shellCommands x ++ [setCommandIoFlags args retVal x.commandArr.length] := by
  unfold commandStep at h
  split at h
  · rename_i hpc
    obtain ⟨z, hz, rfl⟩ := Option.map_eq_some_iff.1 h
    have hcommands := setPipes_commands hz
    exact ⟨hpc.2, rfl, hcommands⟩
  · cases h

theorem shellStep_pc {x y : Sys} (h : shellStep x = some y) : y.commandArr = x.commandArr ∧
    ((∃ last, x.pc = .fork last ∧ y.pc = if last then .wait 0 else .parse) ∨
      (cleaning x.pc = true ∧ (y.pc = .prompt ∨ cleaning y.pc = true))) := by
  unfold shellStep at h
  cases hs : x.pc with
  | prompt => rw [hs] at h; cases h
  | parse => rw [hs] at h; cases h
  | fork last =>
    rw [hs] at h
    obtain ⟨c, -, rfl⟩ := Option.map_eq_some_iff.1 h
    exact ⟨rfl, .inl ⟨last, rfl, rfl⟩⟩
  | wait i =>
    rw [hs] at h
    obtain ⟨c, -, h⟩ := Option.bind_eq_some_iff.1 h
    split at h
    · obtain rfl := Option.some.inj h
      exact ⟨rfl, .inr ⟨rfl, .inr rfl⟩⟩
    · cases h
  | write i =>
    rw [hs] at h
    obtain ⟨c, -, rfl⟩ := Option.map_eq_some_iff.1 h
    obtain ⟨written, hw⟩ := writeFd_eq x c.outputPipeHandle endBytes
    rw [hw]
    exact ⟨by split <;> rfl, .inr ⟨rfl, .inr rfl⟩⟩
  | closeOut i =>
    rw [hs] at h
    obtain ⟨c, -, rfl⟩ := Option.map_eq_some_iff.1 h
    obtain ⟨fds, closed, hclose⟩ := closeFd_eq x c.outputPipeHandle
    rw [hclose]
    exact ⟨by split <;> rfl, .inr ⟨rfl, .inr rfl⟩⟩
  | closeIn i =>
    rw [hs] at h
    obtain ⟨c, -, rfl⟩ := Option.map_eq_some_iff.1 h
    obtain ⟨fds, closed, hclose⟩ := closeFd_eq x c.inputPipeHandle
    rw [hclose]
    refine ⟨by split <;> rfl, .inr ⟨rfl, ?_⟩⟩
    by_cases hlt : i + 1 < x.commandArr.length
    · right
      simp only [if_pos hlt]
      rfl
    · left
      simp only [if_neg hlt]

theorem parseStep_eq (s : Session) (ends : Fd × Fd) : parseStep s ends =
    (commandStep s.sys (separateArgs (s.line.drop s.lineIter)).1 (separateArgs (s.line.drop s.lineIter)).2 ends).bind
      fun sys => (trimLine s.line s.lineIter (separateArgs (s.line.drop s.lineIter)).1).map
        fun lineIter => { s with sys := sys, lineIter := lineIter } := rfl

theorem parseStep_cases {ends : Fd × Fd} (hs : parseStep s ends = some t) : ∃ sys lineIter,
    commandStep s.sys (separateArgs (s.line.drop s.lineIter)).1 (separateArgs (s.line.drop s.lineIter)).2 ends =
      some sys ∧
    trimLine s.line s.lineIter (separateArgs (s.line.drop s.lineIter)).1 = some lineIter ∧
    t = { s with sys := sys, lineIter := lineIter } := by
  rw [parseStep_eq] at hs
  obtain ⟨sys, hsys, hs⟩ := Option.bind_eq_some_iff.1 hs
  obtain ⟨lineIter, htrim, rfl⟩ := Option.map_eq_some_iff.1 hs
  exact ⟨sys, lineIter, hsys, htrim, rfl⟩

/-- **A round of the parse loop** takes its command from the front of what is to come. -/
theorem Parsing.parse (h : Parsing s) (hpc : s.sys.pc = .parse) {ends : Fd × Fd} (hs : parseStep s ends = some t) :
    Parsing t ∧ t.line = s.line ∧ ∃ last, t.sys.pc = .fork last := by
  obtain ⟨sys, lineIter, hsys, htrim, rfl⟩ := parseStep_cases hs
  obtain ⟨hlt, hpc', hcommands⟩ := commandStep_commands hsys
  have hlen : sys.commandArr.length = s.sys.commandArr.length + 1 := by
    have := congrArg List.length hcommands
    simpa [shellCommands] using this
  have hparse : parseLine s.line = lineCommands s := by
    unfold Parsing at h
    rwa [hpc] at h
  obtain ⟨room, hroom⟩ : ∃ room, commandArraySize - s.sys.commandArr.length = room + 1 :=
    ⟨commandArraySize - s.sys.commandArr.length - 1, by omega⟩
  have hnext : commandArraySize - sys.commandArr.length = room := by omega
  unfold lineCommands at hparse
  rw [hroom, parseLoop] at hparse
  simp only [htrim, Option.bind_some] at hparse
  refine ⟨?_, rfl, _, hpc'⟩
  unfold Parsing
  simp only [hpc']
  by_cases hret : (separateArgs (s.line.drop s.lineIter)).2 = 0
  · rw [if_pos hret] at hparse
    rw [if_pos (by simpa using hret), hparse, Option.map_some, hcommands, hret]
  · rw [if_neg hret, Option.map_map] at hparse
    rw [if_neg (by simpa using hret), hparse]
    unfold lineCommands
    rw [hnext, hlen, hcommands]
    congr 1
    funext commands
    exact (List.append_cons ..)

/-! ## The lines of a session -/

/-- The line the shell is at. -/
def current (s : Session) : List CString := if s.sys.pc = .prompt then [] else [s.line]

/-- The lines read are those the shell is done with, each with its pipeline, and the one it is at. -/
structure SessionInv (s : Session) : Prop where
  parsing : Parsing s
  stopped : s.stopped = true → s.sys.pc = .prompt
  lines : ∃ ls, ls.map parseLine = s.ended.map some ∧ s.lines = ls ++ current s

theorem sessionInv_start (fds : Table) (stdin : List Byte) : SessionInv (startSession fds stdin) :=
  ⟨trivial, fun _ => rfl, [], rfl, rfl⟩

/-- A step that ends no line and reads none. -/
theorem SessionInv.within (h : SessionInv s) (hparsing : Parsing t) (hstopped : t.stopped = true → t.sys.pc = .prompt)
    (hended : t.ended = s.ended) (hlines : t.lines = s.lines) (hcurrent : current t = current s) : SessionInv t := by
  refine ⟨hparsing, hstopped, ?_⟩
  rw [hended, hlines, hcurrent]
  exact h.lines

/-- What the prompt does: at the end of the input or at `quit_shell` the shell stops, any other line it begins. -/
theorem promptStep_cases (hs : promptStep s = some t) :
    (readLine s.stdin = none ∧ t = { s with stopped := true }) ∨
    ∃ line rest, readLine s.stdin = some (line, rest) ∧
      ((line = quitShell ∧ t = { s with stdin := rest, line := line, stopped := true }) ∨
        (line ≠ quitShell ∧ ∃ sys, lineStep s.sys = some sys ∧ t =
          { s with sys := sys, stdin := rest, line := line, lineIter := 0, lines := s.lines ++ [line] })) := by
  unfold promptStep at hs
  split at hs
  · cases hs
  · split at hs
    · rename_i hnone
      exact .inl ⟨hnone, (Option.some.inj hs).symm⟩
    · rename_i line rest hread
      refine .inr ⟨line, rest, hread, ?_⟩
      split at hs
      · rename_i hquit
        exact .inl ⟨hquit, (Option.some.inj hs).symm⟩
      · rename_i hline
        obtain ⟨sys, hsys, rfl⟩ := Option.map_eq_some_iff.1 hs
        exact .inr ⟨hline, sys, hsys, rfl⟩

theorem SessionInv.prompt (h : SessionInv s) (hpc : s.sys.pc = .prompt) (hgoing : s.stopped = false)
    (hs : promptStep s = some t) : SessionInv t := by
  have hcurrent : current s = [] := if_pos hpc
  have hparsing : ∀ x : Session, x.sys = s.sys → Parsing x := by
    intro x hx
    unfold Parsing
    rw [hx, hpc]
    trivial
  rcases promptStep_cases hs with ⟨-, rfl⟩ | ⟨line, rest, -, ⟨-, rfl⟩ | ⟨-, sys, hsys, rfl⟩⟩
  · exact h.within (hparsing _ rfl) (fun _ => hpc) rfl rfl rfl
  · refine h.within (hparsing _ rfl) (fun _ => hpc) rfl rfl ?_
    rw [hcurrent]
    exact if_pos hpc
  · unfold lineStep at hsys
    rw [if_pos hpc] at hsys
    obtain rfl := Option.some.inj hsys
    obtain ⟨ls, hls, hlines⟩ := h.lines
    refine ⟨?_, fun hstop => ?_, ls, hls, ?_⟩
    · show parseLine line = (parseLoop line commandArraySize 0 0).map fun x => x
      rw [Option.map_id']
      rfl
    · rw [hgoing] at hstop
      cases hstop
    · show s.lines ++ [line] = ls ++ [line]
      rw [hlines, hcurrent, List.append_nil]

/-- A step of the shell that does not come to the prompt. -/
theorem SessionInv.midline (h : SessionInv s) (hgoing : s.stopped = false) {sys : Sys}
    (hpc : s.sys.pc ≠ .prompt) (hpc' : sys.pc ≠ .prompt) (ended : List (List ShellCommand)) (hended : ended = s.ended)
    (hparsing : Parsing { s with sys := sys, ended := ended }) :
    SessionInv { s with sys := sys, ended := ended } := by
  refine h.within hparsing (fun hstop => ?_) hended rfl ?_
  · rw [hgoing] at hstop
    cases hstop
  · unfold current
    rw [if_neg hpc, if_neg hpc']

theorem SessionInv.fork (h : SessionInv s) (hgoing : s.stopped = false) (hs : forkStep s = some t) :
    SessionInv t := by
  obtain ⟨sys, hsys, rfl⟩ := Option.map_eq_some_iff.1 hs
  obtain ⟨harr, ⟨last, hpc, hpc'⟩ | ⟨hpc, hpc'⟩⟩ := shellStep_pc hsys
  all_goals have hcommands : shellCommands sys = shellCommands s.sys := congrArg (List.map Command.toShellCommand) harr
  · have hne : sys.pc ≠ .prompt := by
      rw [hpc']
      cases last <;> exact Pc.noConfusion
    have hnotPrompt : s.sys.pc ≠ .prompt := by
      rw [hpc]
      exact Pc.noConfusion
    refine h.midline hgoing hnotPrompt hne _ (if_neg hne) ?_
    have hparsing := h.parsing
    unfold Parsing at hparsing ⊢
    rw [hpc] at hparsing
    cases last with
    | true =>
      simp only [hpc', if_true]
      rw [hcommands]
      exact hparsing
    | false =>
      simp only [hpc', Bool.false_eq_true, if_false]
      unfold lineCommands
      rw [hcommands, harr]
      exact hparsing
  · have hparse := (parsing_of_cleaning hpc).1 h.parsing
    have hnotPrompt : s.sys.pc ≠ .prompt := by
      intro heq
      rw [heq] at hpc
      cases hpc
    rcases hpc' with hpc' | hpc'
    · -- the line is done
      obtain ⟨ls, hls, hlines⟩ := h.lines
      have hcurrent : current s = [s.line] := if_neg hnotPrompt
      refine ⟨?_, fun _ => hpc', ls ++ [s.line], ?_, ?_⟩
      · simp only [Parsing, hpc']
      · rw [if_pos hpc', List.map_append, List.map_append, hls, hcommands]
        show _ ++ [parseLine s.line] = _
        rw [hparse]
        rfl
      · show s.lines = ls ++ [s.line] ++ current { s with sys := sys, ended := _ }
        rw [hlines, hcurrent, current, if_pos hpc', List.append_nil]
    · have hne : sys.pc ≠ .prompt := by
        intro heq
        rw [heq] at hpc'
        cases hpc'
      refine h.midline hgoing hnotPrompt hne _ (if_neg hne) ((parsing_of_cleaning hpc').2 ?_)
      rw [hcommands]
      exact hparse

theorem SessionInv.step {e : SessionEvent} (h : SessionInv s) (hs : sessionStep s e = some t) :
    SessionInv t := by
  cases e with
  | shell ends =>
    simp only [sessionStep] at hs
    split at hs
    · cases hs
    · rename_i hgoing
      have hgoing : s.stopped = false := by simpa using hgoing
      split at hs
      · rename_i hpc
        exact h.prompt hpc hgoing hs
      · rename_i hpc
        obtain ⟨hparsing, hline, last, hpc'⟩ := h.parsing.parse hpc hs
        obtain ⟨sys, lineIter, -, -, rfl⟩ := parseStep_cases hs
        refine h.within hparsing (fun hstop => ?_) rfl rfl ?_
        · rw [hgoing] at hstop
          cases hstop
        · have hpc' : sys.pc = .fork last := hpc'
          simp only [current, hpc, hpc', reduceCtorEq, if_false]
      · exact h.fork hgoing hs
  | child i a =>
    obtain ⟨sys, hsys, rfl⟩ := Option.map_eq_some_iff.1 hs
    obtain ⟨c, r, -, -, rfl⟩ := processStep_cases hsys
    exact h.within h.parsing h.stopped rfl rfl rfl
  | input unread =>
    obtain rfl := Option.some.inj hs
    exact h.within h.parsing h.stopped rfl rfl rfl

/-! ## The lines of the input -/

/-- The lines still to come. -/
def coming (s : Session) : List CString := if s.stopped then [] else parsedStrings s.stdin

/-- The lines of the input are those read and those still to come. -/
structure InputInv (stdin : List Byte) (s : Session) : Prop where
  lines : parsedStrings stdin = s.lines ++ coming s
  suffix : s.stdin <:+ stdin

theorem InputInv.congr (h : InputInv stdin s) (hlines : t.lines = s.lines) (hstopped : t.stopped = s.stopped)
    (hstdin : t.stdin = s.stdin) : InputInv stdin t := by
  constructor
  · rw [hlines, coming, hstopped, hstdin]
    exact h.lines
  · rw [hstdin]
    exact h.suffix

theorem InputInv.prompt (h : InputInv stdin s) (hgoing : s.stopped = false) (hs : promptStep s = some t) :
    InputInv stdin t := by
  have hcoming : parsedStrings stdin = s.lines ++ parsedStrings s.stdin := by
    have hlines := h.lines
    rw [coming, hgoing] at hlines
    exact hlines
  rcases promptStep_cases hs with ⟨hnone, rfl⟩ | ⟨line, rest, hread, ⟨hquit, rfl⟩ | ⟨hline, sys, -, rfl⟩⟩
  · rw [parsedStrings_of_none hnone] at hcoming
    exact ⟨hcoming, h.suffix⟩
  · rw [parsedStrings_of_readLine hread, if_pos hquit] at hcoming
    exact ⟨hcoming, (suffix_of_readLine hread).trans h.suffix⟩
  · refine ⟨?_, (suffix_of_readLine hread).trans h.suffix⟩
    rw [hcoming, parsedStrings_of_readLine hread, if_neg hline]
    simp only [coming, hgoing, Bool.false_eq_true, if_false, List.append_assoc]
    rfl

theorem InputInv.step {e : SessionEvent} (h : InputInv stdin s) (hok : leavesInput s e)
    (hs : sessionStep s e = some t) : InputInv stdin t := by
  cases e with
  | shell ends =>
    simp only [sessionStep] at hs
    split at hs
    · cases hs
    · rename_i hgoing
      split at hs
      · exact h.prompt (by simpa using hgoing) hs
      · obtain ⟨sys, lineIter, -, -, rfl⟩ := parseStep_cases hs
        exact h.congr rfl rfl rfl
      · obtain ⟨sys, -, rfl⟩ := Option.map_eq_some_iff.1 hs
        exact h.congr rfl rfl rfl
  | child i a =>
    obtain ⟨sys, -, rfl⟩ := Option.map_eq_some_iff.1 hs
    exact h.congr rfl rfl rfl
  | input unread =>
    obtain rfl := Option.some.inj hs
    exact h.congr rfl rfl hok

theorem inputInv_run {es : List SessionEvent} (hleaves : Run.Steps sessionStep leavesInput (startSession fds stdin) es)
    (hrun : run sessionStep (startSession fds stdin) es = some s) : InputInv stdin s :=
  Run.run_inv_of_steps (fun _ _ _ h hok hs => InputInv.step h hok hs) es _ _ ⟨rfl, List.suffix_refl stdin⟩ hleaves hrun

/-- **The shell runs the lines it reads**, and where the programs leave its input alone these are the lines of the
input: in every run, of the lines read those at the front are done, in their order, each as the pipeline it is parsed
into, and when the shell stops they all are; what its processes and descriptors go through is a run of theirs; and in a
run whose programs leave the input where it is, the lines read are the front of the lines up to `quit_shell`, and all of
them when the shell stops. -/
theorem session_runs_lines (fds : Table) (stdin : List Byte) (es : List SessionEvent) (s : Session)
    (hrun : run sessionStep (startSession fds stdin) es = some s) :
    (∃ ls, ls <+: s.lines ∧ ls.map parseLine = s.ended.map some ∧ (s.stopped = true → ls = s.lines)) ∧
    (∃ es', run step (init fds) es' = some s.sys) ∧
    (Run.Steps sessionStep leavesInput (startSession fds stdin) es →
      s.lines <+: parsedStrings stdin ∧ (s.stopped = true → s.lines = parsedStrings stdin)) := by
  have h : SessionInv s := Run.run_inv (fun _ _ _ h hs => SessionInv.step h hs) (sessionInv_start fds stdin) hrun
  obtain ⟨ls, hls, hlines⟩ := h.lines
  refine ⟨⟨ls, ⟨_, hlines.symm⟩, hls, fun hstop => ?_⟩, sys_of_session hrun, fun hleaves => ?_⟩
  · rw [hlines, current, if_pos (h.stopped hstop), List.append_nil]
  · have hinput := inputInv_run hleaves hrun
    refine ⟨⟨_, hinput.lines.symm⟩, fun hstop => ?_⟩
    rw [hinput.lines, coming, if_pos hstop, List.append_nil]

/-- `a | b`, run to the end, and `quit_shell`. -/
def wholeSession : List SessionEvent :=
  [.shell (0, 0), .shell (3, 4), .shell (0, 0), .shell (0, 0), .shell (0, 0),
    .child 0 .next, .child 0 .next, .child 0 .exit, .child 1 .next, .child 1 .next, .child 1 .exit,
    .shell (0, 0), .shell (0, 0), .shell (0, 0), .shell (0, 0), .shell (0, 0), .shell (0, 0), .shell (0, 0),
    .shell (0, 0), .shell (0, 0)]

def aToB : List Byte := str ['a', ' ', '|', ' ', 'b', '\n'] ++ quitShell ++ [newline]

theorem run_wholeSession :
    (run sessionStep (startSession (fun _ => none) aToB) wholeSession).map Session.stopped = some true := by
  decide +kernel

theorem wholeSession_leavesInput :
    Run.Steps sessionStep leavesInput (startSession (fun _ => none) aToB) wholeSession := by
  decide +kernel

theorem session_runs_lines_aToB : ∃ s, run sessionStep (startSession (fun _ => none) aToB) wholeSession = some s ∧
    s.lines = parsedStrings aToB ∧ s.lines.map parseLine = s.ended.map some := by
  obtain ⟨s, hrun, hstop⟩ := Option.map_eq_some_iff.1 run_wholeSession
  obtain ⟨⟨ls, -, hls, hall⟩, -, hinput⟩ := session_runs_lines (fun _ => none) aToB wholeSession s hrun
  refine ⟨s, hrun, (hinput wholeSession_leavesInput).2 hstop, ?_⟩
  rw [← hall hstop]
  exact hls

/-! ## Printed pipelines -/

/-- The pipelines, one to a line, then `quit_shell` and what follows. -/
def typed (ps : List Pipeline) (rest : List Byte) : List Byte :=
  ps.flatMap (fun p => pipelineText p.commands ++ [newline]) ++ (quitShell ++ newline :: rest)

end Shell
end Eltex
