import Mathlib.Logic.Function.Basic
import EltexTasks.Run
import EltexTasks.Shell
/-!
# ShellProcesses — the shell, the commands of its lines and their descriptors

`set_pipes`, `execute_command` and `shell_start` of fork_task/source/shell.c.  Every process is its table of
descriptors: `fork` copies it, `pipe`, `dup2` and `close` act on it, `exit` empties it.  `pipe` finds two free
descriptors and `fork` succeeds; a program does with its descriptors what it likes.
-/
namespace Eltex
namespace Shell

/-- What a descriptor stands for: an end of a pipe, the pipes numbered in the order they are made, or another file. -/
inductive File where
  | readEnd (p : Nat)
  | writeEnd (p : Nat)
  | other (n : Nat)
deriving DecidableEq, Repr

abbrev Fd := Int

/-- The open descriptors of a process. -/
abbrev Table := Fd → Option File

def close (t : Table) (h : Fd) : Table := Function.update t h none

/-- `dup2(a, b)` from a descriptor that may be unset or closed, in which case nothing happens. -/
def dup2 (t : Table) (a : Option Fd) (b : Fd) : Table :=
  match a.bind t with
  | none => t
  | some f => Function.update t b (some f)

def stdinFileno : Fd := 0

def stdoutFileno : Fd := 1

/-- A `shell_command_t` with its pipe handles, `none` until they are set. -/
structure Command extends ShellCommand where
  inputPipeHandle : Option Fd
  outputPipeHandle : Option Fd
deriving DecidableEq, Repr

/-! ## The commands' processes -/

/-- Where `execute_command` stands: before its first `dup2`, before its second, in the program, after `exit`. -/
inductive ChildPc where
  | dupIn
  | dupOut
  | running
  | exited
deriving DecidableEq, Repr

/-- A command's process.  `stdin` is the file its `input_pipe_handle` stood for when it was forked, kept for the
statements about the pipe it reads. -/
structure Child where
  command : Command
  pc : ChildPc
  fds : Table
  stdin : Option File

/-- What a command's process does: the next step of `execute_command`, or a call of its program. -/
inductive Action where
  | next
  | write (h : Fd) (bytes : List Byte)
  | close (h : Fd)
  | dup2 (a b : Fd)
  | openFile (h : Fd) (n : Nat)
  | exit
deriving DecidableEq, Repr

def forkCommand (t : Table) (c : Command) : Child :=
  { command := c, pc := .dupIn, fds := t, stdin := c.inputPipeHandle.bind t }

/-- A step of a command's process, and the pipe it writes to with what it writes, if it does. -/
def childStep (c : Child) : Action → Option (Child × Option (Nat × List Byte))
  | .next =>
    match c.pc with
    | .dupIn =>
      some ({ c with
        pc := .dupOut
        fds := if c.command.inFlag = .prevPipe then dup2 c.fds c.command.inputPipeHandle stdinFileno else c.fds }, none)
    | .dupOut =>
      some ({ c with
        pc := .running
        fds := if c.command.outFlag = .toPipe then dup2 c.fds c.command.outputPipeHandle stdoutFileno else c.fds }, none)
    | .running => none
    | .exited => none
  | .write h bytes =>
    if c.pc = .running then
      match c.fds h with
      | some (.writeEnd p) => some (c, some (p, bytes))
      | _ => some (c, none)
    else none
  | .close h => if c.pc = .running then some ({ c with fds := Shell.close c.fds h }, none) else none
  | .dup2 a b => if c.pc = .running then some ({ c with fds := Shell.dup2 c.fds (some a) b }, none) else none
  | .openFile h n =>
    if c.pc = .running ∧ c.fds h = none then
      some ({ c with fds := Function.update c.fds h (some (.other n)) }, none)
    else none
  | .exit => if c.pc = .running then some ({ c with pc := .exited, fds := fun _ => none }, none) else none

/-! ## The shell -/

/-- Where `shell_start` stands: at the prompt, at the head of the parse loop, before a `fork` (of the last command or
not), at the steps of the cleanup loop for command `i`. -/
inductive Pc where
  | prompt
  | parse
  | fork (last : Bool)
  | wait (i : Nat)
  | write (i : Nat)
  | closeOut (i : Nat)
  | closeIn (i : Nat)
deriving DecidableEq, Repr

inductive Writer where
  | shell
  | command (i : Nat)
deriving DecidableEq, Repr

/-- A write into a pipe. -/
structure Write where
  writer : Writer
  pipe : Nat
  bytes : List Byte
deriving DecidableEq, Repr

/-- The shell with the commands of the current line.  `firstPipe`, `made` and `closed` are kept for the statements: the
number of the line's first pipe, what its `pipe` calls gave, and what its `close` calls closed; `written` is every
write into a pipe. -/
structure Sys where
  pc : Pc
  commandArr : List Command
  children : List Child
  fds : Table
  pipefd : Fd × Fd
  prevPipefd : Fd × Fd
  pipes : Nat
  firstPipe : Nat
  made : List (Fd × Fd)
  closed : List (Option File)
  written : List Write

/-- `shell_start` at its first prompt. -/
def init (fds : Table) : Sys :=
  { pc := .prompt, commandArr := [], children := [], fds := fds, pipefd := (-1, -1), prevPipefd := (-1, -1),
    pipes := 0, firstPipe := 0, made := [], closed := [], written := [] }

/-- `set_pipes` for the command `c`, which goes into `command_arr`; `ends` is what `pipe` gives. -/
def setPipes (s : Sys) (c : ShellCommand) (ends : Fd × Fd) : Option Sys :=
  let input := if c.inFlag = .prevPipe then some s.prevPipefd.1 else none
  if c.outFlag = .toPipe then
    if s.fds ends.1 = none ∧ s.fds ends.2 = none ∧ ends.1 ≠ ends.2 then
      some { s with
        commandArr := s.commandArr ++ [{ c with inputPipeHandle := input, outputPipeHandle := some ends.2 }]
        fds := Function.update (Function.update s.fds ends.1 (some (.readEnd s.pipes))) ends.2 (some (.writeEnd s.pipes))
        pipefd := ends
        prevPipefd := ends
        pipes := s.pipes + 1
        made := s.made ++ [ends] }
    else none
  else
    some { s with
      commandArr := s.commandArr ++ [{ c with inputPipeHandle := input, outputPipeHandle := none }] }

/-- A round of the parse loop up to its `fork`; `none` past the end of `command_arr`. -/
def commandStep (s : Sys) (args : List CString) (retVal : Nat) (ends : Fd × Fd) : Option Sys :=
  if s.pc = .parse ∧ s.commandArr.length < commandArraySize then
    (setPipes s (setCommandIoFlags args retVal s.commandArr.length) ends).map fun t =>
      { t with pc := .fork (retVal == 0) }
  else none

/-- The bytes the shell writes into a pipe once the command before it has ended. -/
def endBytes : List Byte := [4, 10, 0, 0x17, 0x19, 0x1b]

/-- `write` on a descriptor of the shell. -/
def writeFd (s : Sys) (h : Option Fd) (bytes : List Byte) : Sys :=
  match h.bind s.fds with
  | some (.writeEnd p) => { s with written := s.written ++ [⟨.shell, p, bytes⟩] }
  | _ => s

/-- `close` on a descriptor of the shell. -/
def closeFd (s : Sys) : Option Fd → Sys
  | none => s
  | some h => { s with fds := close s.fds h, closed := s.closed ++ [s.fds h] }

/-- The next step of `shell_start` where it has no choice. -/
def shellStep (s : Sys) : Option Sys :=
  match s.pc with
  | .prompt => none
  | .parse => none
  | .fork last =>
    s.commandArr.getLast?.map fun c =>
      { s with children := s.children ++ [forkCommand s.fds c], pc := if last then .wait 0 else .parse }
  | .wait i => s.children[i]?.bind fun c => if c.pc = .exited then some { s with pc := .write i } else none
  | .write i =>
    s.commandArr[i]?.map fun c =>
      { (if c.outFlag = .toPipe then writeFd s c.outputPipeHandle endBytes else s) with pc := .closeOut i }
  | .closeOut i =>
    s.commandArr[i]?.map fun c =>
      { (if c.outFlag = .toPipe then closeFd s c.outputPipeHandle else s) with pc := .closeIn i }
  | .closeIn i =>
    s.commandArr[i]?.map fun c =>
      { (if c.inFlag = .prevPipe then closeFd s c.inputPipeHandle else s) with
        pc := if i + 1 < s.commandArr.length then .wait (i + 1) else .prompt }

/-- A line is read; the next command of the line is parsed, `ends` what `pipe` gives if it is called; the shell takes
its next step; the process of command `i` does something. -/
inductive Event where
  | line
  | command (args : List CString) (retVal : Nat) (ends : Fd × Fd)
  | shell
  | child (i : Nat) (a : Action)
deriving DecidableEq, Repr

def lineStep (s : Sys) : Option Sys :=
  if s.pc = .prompt then
    some { s with pc := .parse, commandArr := [], children := [], firstPipe := s.pipes, made := [], closed := [] }
  else none

def processStep (s : Sys) (i : Nat) (a : Action) : Option Sys :=
  s.children[i]?.bind fun c => (childStep c a).map fun r =>
    { s with
      children := s.children.set i r.1
      written := s.written ++ r.2.toList.map fun w => ⟨.command i, w.1, w.2⟩ }

def step (s : Sys) : Event → Option Sys
  | .line => lineStep s
  | .command args retVal ends => commandStep s args retVal ends
  | .shell => shellStep s
  | .child i a => processStep s i a

end Shell
end Eltex
