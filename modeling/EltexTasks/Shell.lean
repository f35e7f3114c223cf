import EltexTasks.CString
/-!
# Shell — how the shell cuts its line into commands

fork_task/source/shell.c: `separate_args`, `trim_line`, `set_command_io_flags` and the loop of `shell_start` that
repeats them.  A pointer into the line is its offset from the beginning of the line.
-/
namespace Eltex
namespace Shell

inductive InputFlag where
  | stIn
  | prevPipe
deriving DecidableEq, Repr

inductive OutputFlag where
  | stOut
  | toPipe
deriving DecidableEq, Repr

/-- The parsed part of a `shell_command_t`. -/
structure ShellCommand where
  args : List CString
  inFlag : InputFlag
  outFlag : OutputFlag
deriving DecidableEq, Repr

def space : Byte := chr ' '

def bar : CString := str ['|']

/-- The loop of `separate_args` at `line_pos`, the words in `args` before it.  Its condition reads
`line[line_pos != '\0']`: the first byte of the line in the first round, the second byte in every other. -/
def separateArgsLoop (line : CString) (linePos : Nat) (args : List CString) : List CString × Nat :=
  match (line)[if linePos ≠ 0 then 1 else 0]? with
  | none => (args, 0)
  | some _ =>
    match _h : strchr (line.drop linePos) space with
    | none =>
      let length := (line.drop linePos).length
      if strncmpEq bar (line.drop linePos) length then (args, 1)
      else (args ++ [(line.drop linePos).take length], 0)
    | some length =>
      if strncmpEq bar (line.drop linePos) length then (args, 1)
      else separateArgsLoop line (linePos + length + 1) (args ++ [(line.drop linePos).take length])
termination_by line.length - linePos
decreasing_by
  have := lt_of_strchr _h
  rw [List.length_drop] at this
  omega

/-- `separate_args`: the words up to the first NULL of `args`, and the value returned. -/
def separateArgs (line : CString) : List CString × Nat := separateArgsLoop line 0 []

/-- `trim_line` at the offset `pos` of `line`; `none` where it reads outside the line. -/
def trimLine (line : CString) (pos : Nat) (args : List CString) : Option Nat :=
  let start : Int := pos + (args.map List.length).sum + args.length - 1
  if start < 0 ∨ line.length < start then none
  else some (start.toNat + ((line.drop start.toNat).takeWhile (fun b => !isalnum b)).length)

/-- `set_command_io_flags` -/
def setCommandIoFlags (args : List CString) (separateArgVal commandIdx : Nat) : ShellCommand :=
  { args := args
    inFlag := if commandIdx = 0 then .stIn else .prevPipe
    outFlag := if separateArgVal = 0 then .stOut else .toPipe }

/-- `command_array_init_size` -/
def commandArraySize : Nat := 10

/-- The parse loop of `shell_start`, with `room` unused places left in `command_arr`; `none` where a command is stored
past its end or `trim_line` leaves the line. -/
def parseLoop (line : CString) : Nat → Nat → Nat → Option (List ShellCommand)
  | 0, _, _ => none
  | room + 1, commandCount, pos =>
    let (args, retVal) := separateArgs (line.drop pos)
    let command := setCommandIoFlags args retVal commandCount
    (trimLine line pos args).bind fun pos =>
      if retVal = 0 then some [command] else (parseLoop line room (commandCount + 1) pos).map (command :: ·)

def lineMax : Nat := 1000 + 1

/-- What `shell_start` reads before it parses: the line with its last byte removed, and the rest of stdin. -/
def readLine (stdin : List Byte) : Option (CString × List Byte) :=
  (fgets lineMax stdin).map fun (bytes, rest) => ((cstr bytes).dropLast, rest)

/-- The commands `shell_start` parses a line into. -/
def parseLine (line : CString) : Option (List ShellCommand) := parseLoop line commandArraySize 0 0

/-- A line that fits is read whole. -/
theorem readLine_line {line : List Byte} (h0 : 0 ∉ line) (hnl : newline ∉ line) (hlen : line.length ≤ 999)
    (rest : List Byte) : readLine (line ++ newline :: rest) = some (line, rest) := by
  have hcstr : cstr (line ++ [newline]) = line ++ [newline] := by
    apply cstr_eq_self
    rw [List.mem_append, not_or]
    exact ⟨h0, by decide⟩
  rw [readLine, fgets_line hnl (Nat.succ_le_succ hlen), Option.map_some]
  simp only [hcstr, List.dropLast_concat]

end Shell
end Eltex
