import EltexTasks.ShellStream
/-!
# ShellExec — what a command's program starts with

`execute_command` gives a program the ends of its two pipes for its standard input and output and closes nothing: it
starts with both ends of every pipe made so far as well (`exec_fds`).  So it holds a write end of the pipe it reads: a
command after the first that reads to the end of its input never ends, and the shell never comes back to its prompt
(`filter_never_ends`).
-/
namespace Eltex
namespace Shell

open Run (run)

variable {fds₀ : Table} {s t : Sys} {i : Nat} {c : Child}

/-- `h` is an end of one of the first `n` pipes of the line, the file `f`. -/
def PipeEnd (s : Sys) (n : Nat) (h : Fd) (f : File) : Prop :=
  ∃ j ends, j < n ∧ s.made[j]? = some ends ∧
    ((h = ends.1 ∧ f = .readEnd (s.firstPipe + j)) ∨ (h = ends.2 ∧ f = .writeEnd (s.firstPipe + j)))

/-- The table command `i` is forked with. -/
def ForkTable (fds₀ : Table) (s : Sys) (i : Nat) (fds : Table) : Prop := Extends fds₀ fds (PipeEnd s (i + 1))

/-- `fds` after the first `dup2` of command `i`. -/
def redirectIn (first i : Nat) (fds : Table) : Table :=
  if 0 < i then Function.update fds stdinFileno (some (.readEnd (first + (i - 1)))) else fds

/-- The table of command `i` while `execute_command` has not come to its program. -/
def Starting (fds₀ : Table) (s : Sys) (i : Nat) (c : Child) : Prop :=
  match c.pc with
  | .dupIn => ForkTable fds₀ s i c.fds
  | .dupOut => ∃ fds, ForkTable fds₀ s i fds ∧ c.fds = redirectIn s.firstPipe i fds
  | .running => True
  | .exited => True

structure ExecInv (fds₀ : Table) (s : Sys) : Prop where
  stream : StreamInv fds₀ s
  command : ∀ (i : Nat) (c : Child), s.children[i]? = some c → s.commandArr[i]? = some c.command
  starting : ∀ (i : Nat) (c : Child), s.children[i]? = some c → Starting fds₀ s i c

theorem PipeEnd.congr {n : Nat} (hfirst : t.firstPipe = s.firstPipe) (hmade : ∀ j < n, t.made[j]? = s.made[j]?) (h : Fd)
    (f : File) : PipeEnd s n h f ↔ PipeEnd t n h f := by
  unfold PipeEnd
  rw [hfirst]
  refine exists_congr fun j => exists_congr fun ends => and_congr_right fun hj => ?_
  rw [hmade j hj]

/-- A child's table says what it said while the pipes made for it stay. -/
theorem Starting.congr (h : Starting fds₀ s i c) (hfirst : t.firstPipe = s.firstPipe)
    (hmade : ∀ j < i + 1, t.made[j]? = s.made[j]?) : Starting fds₀ t i c := by
  have htable : ∀ fds, ForkTable fds₀ s i fds → ForkTable fds₀ t i fds := fun fds hfds =>
    hfds.congr (PipeEnd.congr hfirst hmade)
  unfold Starting at h ⊢
  cases hpc : c.pc with
  | dupIn =>
    rw [hpc] at h
    exact htable c.fds h
  | dupOut =>
    rw [hpc] at h
    obtain ⟨fds, hfds, hredirect⟩ := h
    exact ⟨fds, htable fds hfds, by rw [hfirst]; exact hredirect⟩
  | running => trivial
  | exited => trivial

/-- A step that forks nothing and moves no child. -/
theorem ExecInv.quiet (h : ExecInv fds₀ s) (hstream : StreamInv fds₀ t) (hchildren : t.children = s.children)
    (harr : ∀ (i : Nat) (c : Command), s.commandArr[i]? = some c → t.commandArr[i]? = some c)
    (hfirst : t.firstPipe = s.firstPipe)
    (hmade : ∀ j < s.children.length, t.made[j]? = s.made[j]?) : ExecInv fds₀ t := by
  refine ⟨hstream, fun i c hc => ?_, fun i c hc => ?_⟩
  · rw [hchildren] at hc
    exact harr i c.command (h.command i c hc)
  · rw [hchildren] at hc
    have hi := (List.getElem?_eq_some_iff.1 hc).1
    exact (h.starting i c hc).congr hfirst fun j hj => hmade j (by omega)

/-- While the line is parsed the shell holds exactly the ends of its pipes. -/
theorem LineInv.forkTable (h : LineInv fds₀ s) {last : Bool} (hpc : s.pc = .fork last) (hlen : s.made.length ≤ i + 1) :
    ForkTable fds₀ s i s.fds := by
  refine h.table.congr fun a f => ?_
  unfold Held PipeEnd
  rw [hpc]
  refine exists_congr fun j => exists_congr fun ends => ?_
  constructor
  · rintro ⟨hj, hcase⟩
    have hlt := (List.getElem?_eq_some_iff.1 hj).1
    refine ⟨by omega, hj, ?_⟩
    rcases hcase with ⟨ha, hf, -⟩ | ⟨ha, hf, -⟩
    · exact .inl ⟨ha, hf⟩
    · exact .inr ⟨ha, hf⟩
  · rintro ⟨-, hj, hcase⟩
    refine ⟨hj, ?_⟩
    rcases hcase with ⟨ha, hf⟩ | ⟨ha, hf⟩
    · exact .inl ⟨ha, hf, Nat.zero_le _⟩
    · exact .inr ⟨ha, hf, Nat.zero_le _⟩

/-- There is a pipe between two commands of the line. -/
theorem LineInv.exists_made (h : LineInv fds₀ s) (hi : i + 1 < s.commandArr.length) :
    ∃ ends, s.made[i]? = some ends := by
  have hlt : i < s.made.length := by
    have hcount := h.count
    cases hpc : s.pc with
    | prompt => rw [hpc] at hcount; simp only [counted] at hcount; omega
    | parse => rw [hpc] at hcount; simp only [counted] at hcount; omega
    | fork last =>
      rw [hpc] at hcount
      simp only [counted] at hcount
      split at hcount <;> omega
    | wait j => rw [hpc] at hcount; have := hcount.1; omega
    | write j => rw [hpc] at hcount; have := hcount.1; omega
    | closeOut j => rw [hpc] at hcount; have := hcount.1; omega
    | closeIn j => rw [hpc] at hcount; have := hcount.1; omega
  exact ⟨_, List.getElem?_eq_getElem hlt⟩

/-! ## The two redirections -/

theorem dup2_of_open {fds : Table} {h b : Fd} {f : File} (hf : fds h = some f) :
    dup2 fds (some h) b = Function.update fds b (some f) := by
  unfold dup2
  rw [Option.bind_some, hf]

/-- The first `dup2`: the read end of the pipe before the command, if there is one. -/
theorem ExecInv.dupIn (h : ExecInv fds₀ s) (hc : s.children[i]? = some c) (hfork : ForkTable fds₀ s i c.fds) :
    (if c.command.inFlag = .prevPipe then dup2 c.fds c.command.inputPipeHandle stdinFileno else c.fds) =
      redirectIn s.firstPipe i c.fds := by
  have hcommand := h.command i c hc
  have hflag := h.stream.line.flagIn i c.command hcommand
  unfold redirectIn
  by_cases hi : 0 < i
  · rw [if_pos (hflag.2 hi), if_pos hi]
    obtain ⟨j, rfl⟩ : ∃ j, i = j + 1 := ⟨i - 1, by omega⟩
    obtain ⟨ends, hends⟩ := h.stream.line.exists_made (List.getElem?_eq_some_iff.1 hcommand).1
    have hopen : c.fds ends.1 = some (.readEnd (s.firstPipe + j)) :=
      (hfork.entry ⟨j, ends, by omega, hends, .inl ⟨rfl, rfl⟩⟩).1
    rw [h.stream.line.handleIn j c.command hcommand, hends]
    exact dup2_of_open hopen
  · rw [if_neg fun hf => hi (hflag.1 hf), if_neg hi]

/-- The second: the write end of the pipe after it, if there is one. -/
theorem ExecInv.dupOut (h : ExecInv fds₀ s) (hin : (fds₀ stdinFileno).isSome) (hc : s.children[i]? = some c)
    {fds : Table} (hfork : ForkTable fds₀ s i fds) (hfds : c.fds = redirectIn s.firstPipe i fds) :
    (if c.command.outFlag = .toPipe then dup2 c.fds c.command.outputPipeHandle stdoutFileno else c.fds) =
      if c.command.outFlag = .toPipe then
        Function.update (redirectIn s.firstPipe i fds) stdoutFileno (some (.writeEnd (s.firstPipe + i)))
      else redirectIn s.firstPipe i fds := by
  have hcommand := h.command i c hc
  rw [hfds]
  by_cases ho : c.command.outFlag = .toPipe
  · rw [if_pos ho, if_pos ho]
    have hlt := (h.stream.line.flagOut i c.command hcommand).1 ho
    have hends : s.made[i]? = some s.made[i] := List.getElem?_eq_getElem hlt
    obtain ⟨hopen, hfree⟩ := hfork.entry ⟨i, _, by omega, hends, .inr ⟨rfl, rfl⟩⟩
    -- the end is not the standard input, which was open from the beginning
    have hne : s.made[i].2 ≠ stdinFileno := by
      intro heq
      rw [← heq, hfree] at hin
      cases hin
    have hstill : redirectIn s.firstPipe i fds s.made[i].2 = some (.writeEnd (s.firstPipe + i)) := by
      unfold redirectIn
      split
      · rw [Function.update_of_ne hne]
        exact hopen
      · exact hopen
    rw [h.stream.line.handleOut i c.command hcommand, hends]
    exact dup2_of_open hstill
  · rw [if_neg ho, if_neg ho]

/-! ## The invariant -/

theorem execInv_init (fds₀ : Table) : ExecInv fds₀ (init fds₀) where
  stream := streamInv_init fds₀
  command := nofun
  starting := nofun

theorem ExecInv.newLine (h : ExecInv fds₀ s) (ht : lineStep s = some t) : ExecInv fds₀ t := by
  have hstream := h.stream.newLine ht
  unfold lineStep at ht
  split at ht
  · obtain rfl := Option.some.inj ht
    exact ⟨hstream, nofun, nofun⟩
  · cases ht

theorem ExecInv.parse (h : ExecInv fds₀ s) {args : List CString} {retVal : Nat} {ends : Fd × Fd}
    (ht : commandStep s args retVal ends = some t) : ExecInv fds₀ t := by
  have hstream := h.stream.command ht
  obtain ⟨hpc, c, -, -, -, hcases⟩ := commandStep_cases ht
  have hforked := h.stream.forked
  have hcount := h.stream.line.count
  rw [hpc] at hforked hcount
  simp only [unforked, counted, Nat.add_zero] at hforked hcount
  rcases hcases with ⟨-, -, -, -, -, rfl⟩ | ⟨-, -, rfl⟩
  · refine h.quiet hstream rfl (fun i d hd => getElem?_concat_of_some hd) rfl fun j hj => ?_
    exact List.getElem?_append_left (by omega)
  · exact h.quiet hstream rfl (fun i d hd => getElem?_concat_of_some hd) rfl fun j hj => rfl

theorem ExecInv.fork (h : ExecInv fds₀ s) {last : Bool} {c : Command} (hpc : s.pc = .fork last)
    (hc : s.commandArr.getLast? = some c) (pc : Pc)
    (hstream : StreamInv fds₀ { s with children := s.children ++ [forkCommand s.fds c], pc := pc }) :
    ExecInv fds₀ { s with children := s.children ++ [forkCommand s.fds c], pc := pc } := by
  have hforked := h.stream.forked
  have hcount := h.stream.line.count
  rw [hpc] at hforked hcount
  have hlen : s.commandArr.length = s.children.length + 1 := hforked.symm
  have hmade : s.made.length ≤ s.children.length + 1 := by
    simp only [counted] at hcount
    split at hcount <;> omega
  refine ⟨hstream, fun i d hd => ?_, fun i d hd => ?_⟩
  · rcases getElem?_concat_cases hd with hd | ⟨rfl, rfl⟩
    · exact h.command i d hd
    · rw [List.getLast?_eq_getElem?, hlen] at hc
      exact hc
  · rcases getElem?_concat_cases hd with hd | ⟨rfl, rfl⟩
    · exact (h.starting i d hd).congr rfl fun _ _ => rfl
    · exact (h.stream.line.forkTable hpc hmade).congr (PipeEnd.congr rfl fun _ _ => rfl)

/-- But for a fork the shell keeps the commands, their processes and the pipes made. -/
theorem shellStep_keeps (ht : shellStep s = some t) (hpc : ∀ last, s.pc ≠ .fork last) :
    t.children = s.children ∧ t.commandArr = s.commandArr ∧ t.made = s.made ∧ t.firstPipe = s.firstPipe := by
  unfold shellStep at ht
  cases hs : s.pc with
  | prompt => rw [hs] at ht; cases ht
  | parse => rw [hs] at ht; cases ht
  | fork last => exact absurd hs (hpc last)
  | wait i =>
    rw [hs] at ht
    obtain ⟨c, -, ht⟩ := Option.bind_eq_some_iff.1 ht
    split at ht
    · obtain rfl := Option.some.inj ht
      exact ⟨rfl, rfl, rfl, rfl⟩
    · cases ht
  | write i =>
    rw [hs] at ht
    obtain ⟨c, -, rfl⟩ := Option.map_eq_some_iff.1 ht
    obtain ⟨written, hw⟩ := writeFd_eq s c.outputPipeHandle endBytes
    rw [hw]
    split <;> exact ⟨rfl, rfl, rfl, rfl⟩
  | closeOut i =>
    rw [hs] at ht
    obtain ⟨c, -, rfl⟩ := Option.map_eq_some_iff.1 ht
    obtain ⟨fds, closed, hclose⟩ := closeFd_eq s c.outputPipeHandle
    rw [hclose]
    split <;> exact ⟨rfl, rfl, rfl, rfl⟩
  | closeIn i =>
    rw [hs] at ht
    obtain ⟨c, -, rfl⟩ := Option.map_eq_some_iff.1 ht
    obtain ⟨fds, closed, hclose⟩ := closeFd_eq s c.inputPipeHandle
    rw [hclose]
    split <;> exact ⟨rfl, rfl, rfl, rfl⟩

theorem ExecInv.shell (h : ExecInv fds₀ s) (ht : shellStep s = some t) : ExecInv fds₀ t := by
  have hstream := h.stream.shell ht
  by_cases hfork : ∃ last, s.pc = .fork last
  · obtain ⟨last, hpc⟩ := hfork
    unfold shellStep at ht
    rw [hpc] at ht
    obtain ⟨c, hc, rfl⟩ := Option.map_eq_some_iff.1 ht
    exact h.fork hpc hc _ hstream
  · obtain ⟨hchildren, harr, hmade, hfirst⟩ := shellStep_keeps ht fun last hpc => hfork ⟨last, hpc⟩
    refine h.quiet hstream hchildren (fun i c hc => ?_) hfirst fun j _ => ?_
    · rw [harr]
      exact hc
    · rw [hmade]

/-- What a process does keeps its command; but for the two steps of `execute_command` it is in its program. -/
theorem childStep_cases {a : Action} {r : Child × Option (Nat × List Byte)} (h : childStep c a = some r) :
    r.1.command = c.command ∧
    ((a = .next ∧ c.pc = .dupIn ∧ r.1.pc = .dupOut ∧
        r.1.fds = if c.command.inFlag = .prevPipe then dup2 c.fds c.command.inputPipeHandle stdinFileno else c.fds) ∨
      (a = .next ∧ c.pc = .dupOut ∧ r.1.pc = .running ∧
        r.1.fds = if c.command.outFlag = .toPipe then dup2 c.fds c.command.outputPipeHandle stdoutFileno else c.fds) ∨
      (a ≠ .next ∧ c.pc = .running ∧ (r.1.pc = .running ∨ a = .exit ∧ r.1.pc = .exited))) := by
  cases a with
  | next =>
    simp only [childStep] at h
    split at h
    · rename_i hpc
      obtain rfl := Option.some.inj h
      exact ⟨rfl, .inl ⟨rfl, hpc, rfl, rfl⟩⟩
    · rename_i hpc
      obtain rfl := Option.some.inj h
      exact ⟨rfl, .inr (.inl ⟨rfl, hpc, rfl, rfl⟩)⟩
    · cases h
    · cases h
  | write x bytes =>
    have hne : Action.write x bytes ≠ .next := Action.noConfusion
    simp only [childStep] at h
    split at h
    · rename_i hpc
      split at h
      · obtain rfl := Option.some.inj h
        exact ⟨rfl, .inr (.inr ⟨hne, hpc, .inl hpc⟩)⟩
      · obtain rfl := Option.some.inj h
        exact ⟨rfl, .inr (.inr ⟨hne, hpc, .inl hpc⟩)⟩
    · cases h
  | close x =>
    have hne : Action.close x ≠ .next := Action.noConfusion
    simp only [childStep] at h
    split at h
    · rename_i hpc
      obtain rfl := Option.some.inj h
      exact ⟨rfl, .inr (.inr ⟨hne, hpc, .inl hpc⟩)⟩
    · cases h
  | dup2 x y =>
    have hne : Action.dup2 x y ≠ .next := Action.noConfusion
    simp only [childStep] at h
    split at h
    · rename_i hpc
      obtain rfl := Option.some.inj h
      exact ⟨rfl, .inr (.inr ⟨hne, hpc, .inl hpc⟩)⟩
    · cases h
  | openFile x n =>
    have hne : Action.openFile x n ≠ .next := Action.noConfusion
    simp only [childStep] at h
    split at h
    · rename_i hpc
      obtain rfl := Option.some.inj h
      exact ⟨rfl, .inr (.inr ⟨hne, hpc.1, .inl hpc.1⟩)⟩
    · cases h
  | exit =>
    have hne : Action.exit ≠ .next := Action.noConfusion
    simp only [childStep] at h
    split at h
    · rename_i hpc
      obtain rfl := Option.some.inj h
      exact ⟨rfl, .inr (.inr ⟨hne, hpc, .inr ⟨rfl, rfl⟩⟩)⟩
    · cases h

theorem ExecInv.process (h : ExecInv fds₀ s) {a : Action} (ht : processStep s i a = some t) : ExecInv fds₀ t := by
  have hstream := h.stream.process ht
  obtain ⟨c, r, hc, hr, rfl⟩ := processStep_cases ht
  obtain ⟨hcommand, hcases⟩ := childStep_cases hr
  have hstart := h.starting i c hc
  refine ⟨hstream, fun j d hd => ?_, fun j d hd => ?_⟩
  · rcases getElem?_set_cases hd with ⟨rfl, rfl⟩ | ⟨-, hd⟩
    · rw [hcommand]
      exact h.command j c hc
    · exact h.command j d hd
  · rcases getElem?_set_cases hd with ⟨rfl, rfl⟩ | ⟨-, hd⟩
    · unfold Starting at hstart ⊢
      rcases hcases with ⟨-, hpc, hpc', hfds⟩ | ⟨-, hpc, hpc', hfds⟩ | ⟨-, hpc, hpc' | ⟨-, hpc'⟩⟩
      · rw [hpc] at hstart
        rw [hpc', hfds, h.dupIn hc hstart]
        exact ⟨c.fds, hstart.congr (PipeEnd.congr rfl fun _ _ => rfl), rfl⟩
      · rw [hpc']
        trivial
      · rw [hpc']
        trivial
      · rw [hpc']
        trivial
    · exact (h.starting j d hd).congr rfl fun _ _ => rfl

theorem execInv_step (s : Sys) (e : Event) (t : Sys) (h : ExecInv fds₀ s) (ht : step s e = some t) :
    ExecInv fds₀ t := by
  cases e with
  | line => exact h.newLine ht
  | command args retVal ends => exact h.parse ht
  | shell => exact h.shell ht
  | child i a => exact h.process ht

theorem execInv_run {es : List Event} (hrun : run step (init fds₀) es = some s) : ExecInv fds₀ s :=
  Run.run_inv execInv_step (execInv_init fds₀) hrun

/-- No end of a pipe takes a descriptor the shell was started with. -/
theorem ForkTable.end_ne {fds : Table} {h b : Fd} {f : File} (hfork : ForkTable fds₀ s i fds) (hb : (fds₀ b).isSome)
    (hend : PipeEnd s (i + 1) h f) : h ≠ b := by
  rintro rfl
  rw [(hfork.entry hend).2] at hb
  cases hb

theorem not_pipeEnd {fds : Table} {b : Fd} (hfork : ForkTable fds₀ s i fds) (hb : (fds₀ b).isSome) (f : File) :
    ¬ PipeEnd s (i + 1) b f :=
  fun hend => hfork.end_ne hb hend rfl

/-- **What a program starts with**: in every run, where the shell was started with a standard input and output, the
step that ends `execute_command` for command `i` leads to a table with the read end of the pipe before it as the
standard input (the shell's own for the first command), the write end of the pipe after it as the standard output (the
shell's own for the last), and everywhere else the shell's first table and both ends of every pipe made so far. -/
theorem exec_fds (fds₀ : Table) (hin : (fds₀ stdinFileno).isSome) (hout : (fds₀ stdoutFileno).isSome)
    (es : List Event) (s t : Sys) (hrun : run step (init fds₀) es = some s) (i : Nat) (c d : Child)
    (hc : s.children[i]? = some c) (hpc : c.pc = .dupOut) (ht : step s (.child i .next) = some t)
    (hd : t.children[i]? = some d) :
    d.pc = .running ∧
    d.fds stdinFileno = (if 0 < i then some (.readEnd (s.firstPipe + (i - 1))) else fds₀ stdinFileno) ∧
    d.fds stdoutFileno =
      (if c.command.outFlag = .toPipe then some (.writeEnd (s.firstPipe + i)) else fds₀ stdoutFileno) ∧
    (∀ h f, PipeEnd s (i + 1) h f → d.fds h = some f) ∧
    (∀ h, h ≠ stdinFileno → h ≠ stdoutFileno → (∀ f, ¬ PipeEnd s (i + 1) h f) → d.fds h = fds₀ h) := by
  have h := execInv_run hrun
  obtain ⟨c', r, hc', hr, rfl⟩ := processStep_cases ht
  obtain rfl := Option.some.inj (hc.symm.trans hc')
  obtain rfl : d = r.1 := by
    rcases getElem?_set_cases hd with ⟨-, hdr⟩ | ⟨hne, -⟩
    · exact hdr
    · exact absurd rfl hne
  obtain ⟨-, ⟨-, hpc', -⟩ | ⟨-, -, hrunning, hfds⟩ | ⟨-, hpc', -⟩⟩ := childStep_cases hr
  · cases hpc.symm.trans hpc'
  · obtain ⟨fds, hfork, hredirect⟩ : ∃ fds, ForkTable fds₀ s i fds ∧ c.fds = redirectIn s.firstPipe i fds := by
      have hstart := h.starting i c hc
      unfold Starting at hstart
      rwa [hpc] at hstart
    rw [h.dupOut hin hc hfork hredirect] at hfds
    have hne : stdinFileno ≠ stdoutFileno := by decide
    -- away from the two standard descriptors the table is that of the fork
    have hrest : ∀ x, x ≠ stdinFileno → x ≠ stdoutFileno → r.1.fds x = fds x := by
      intro x hx0 hx1
      rw [hfds]
      unfold redirectIn
      split <;> split <;> simp only [Function.update_of_ne, ne_eq, hx0, hx1, not_false_eq_true]
    refine ⟨hrunning, ?_, ?_, fun x f hend => ?_, fun x hx0 hx1 hnone => ?_⟩
    · have hstdin : fds stdinFileno = fds₀ stdinFileno := hfork.rest (not_pipeEnd hfork hin)
      rw [hfds]
      unfold redirectIn
      split <;> split <;> simp only [Function.update_of_ne hne, Function.update_self, hstdin]
    · have hstdout : fds stdoutFileno = fds₀ stdoutFileno := hfork.rest (not_pipeEnd hfork hout)
      rw [hfds]
      unfold redirectIn
      split <;> split <;> simp only [Function.update_of_ne hne.symm, Function.update_self, hstdout]
    · rw [hrest x (hfork.end_ne hin hend) (hfork.end_ne hout hend)]
      exact (hfork.entry hend).1
    · rw [hrest x hx0 hx1]
      exact hfork.rest hnone
  · cases hpc.symm.trans hpc'

/-- A terminal as standard input and output. -/
def terminal : Table := fun h => if h = stdinFileno ∨ h = stdoutFileno then some (.other 0) else none

/-- A line of two commands; the first has ended, and the second is in its program. -/
def secondReads : List Event :=
  [.line, .command [str ['a']] 1 (3, 4), .shell, .command [str ['b']] 0 (0, 0), .shell,
    .child 0 .next, .child 0 .next, .child 0 (.write 1 (str ['h', 'i'])), .child 0 .exit,
    .shell, .shell, .shell, .shell, .child 1 .next, .child 1 .next]

theorem exec_fds_secondReads : ∃ s d, run step (init terminal) secondReads = some s ∧ s.children[1]? = some d ∧
    d.fds stdinFileno = some (.readEnd 0) ∧ d.fds 4 = some (.writeEnd 0) := by
  obtain ⟨s, c, t, d, hrun, hc, hpc, ht, hd, hfirst, hmade, hrun'⟩ : ∃ s c t d,
    run step (init terminal) (secondReads.take 14) = some s ∧ s.children[1]? = some c ∧ c.pc = .dupOut ∧
    step s (.child 1 .next) = some t ∧ t.children[1]? = some d ∧ s.firstPipe = 0 ∧ s.made = [(3, 4)] ∧
    run step (init terminal) secondReads = some t := ⟨_, _, _, _, rfl, rfl, rfl, rfl, rfl, rfl, rfl, rfl⟩
  obtain ⟨-, hin, -, hends, -⟩ := exec_fds terminal rfl rfl (secondReads.take 14) s t hrun 1 c d hc hpc ht hd
  rw [hfirst] at hin
  refine ⟨t, d, hrun', hd, hin, hends 4 (.writeEnd 0) ⟨0, (3, 4), by decide, ?_, .inr ⟨rfl, ?_⟩⟩⟩
  · rw [hmade]
    rfl
  · rw [hfirst]

/-! ## A program that reads to the end of its input -/

/-- A read of the process finds the end of its pipe, once the pipe is empty. -/
def EndOfFile (s : Sys) (c : Child) : Prop :=
  ∃ p, c.stdin = some (.readEnd p) ∧ ¬ HoldsWriteEnd s.fds p ∧ ∀ d ∈ s.children, ¬ HoldsWriteEnd d.fds p

/-- Command `i` is a filter: it exits at the end of its input only, and closes and replaces no descriptor. -/
def filterAt (i : Nat) (s : Sys) : Event → Prop
  | .child k (.close _) => k ≠ i
  | .child k (.dup2 _ _) => k ≠ i
  | .child k .exit => k = i → ∀ c, s.children[i]? = some c → EndOfFile s c
  | _ => True

/-- The commands of a line of `n` that have been waited for. -/
def waited (n : Nat) : Pc → Nat
  | .prompt => n
  | .parse => 0
  | .fork _ => 0
  | .wait i => i
  | .write i => i + 1
  | .closeOut i => i + 1
  | .closeIn i => i + 1

/-- The shell goes past a command only when it has exited. -/
theorem shellStep_waited (ht : shellStep s = some t) : t.commandArr = s.commandArr ∧
    (waited s.commandArr.length t.pc ≤ waited s.commandArr.length s.pc ∨
      ∃ j c, s.pc = .wait j ∧ s.children[j]? = some c ∧ c.pc = .exited ∧ t.pc = .write j) := by
  unfold shellStep at ht
  cases hs : s.pc with
  | prompt => rw [hs] at ht; cases ht
  | parse => rw [hs] at ht; cases ht
  | fork last =>
    rw [hs] at ht
    obtain ⟨c, -, rfl⟩ := Option.map_eq_some_iff.1 ht
    refine ⟨rfl, .inl ?_⟩
    cases last <;> exact Nat.le_refl 0
  | wait i =>
    rw [hs] at ht
    obtain ⟨c, hc, ht⟩ := Option.bind_eq_some_iff.1 ht
    split at ht
    · rename_i hexited
      obtain rfl := Option.some.inj ht
      exact ⟨rfl, .inr ⟨i, c, rfl, hc, hexited, rfl⟩⟩
    · cases ht
  | write i =>
    rw [hs] at ht
    obtain ⟨c, -, rfl⟩ := Option.map_eq_some_iff.1 ht
    obtain ⟨written, hw⟩ := writeFd_eq s c.outputPipeHandle endBytes
    rw [hw]
    exact ⟨by split <;> rfl, .inl (Nat.le_refl _)⟩
  | closeOut i =>
    rw [hs] at ht
    obtain ⟨c, -, rfl⟩ := Option.map_eq_some_iff.1 ht
    obtain ⟨fds, closed, hclose⟩ := closeFd_eq s c.outputPipeHandle
    rw [hclose]
    exact ⟨by split <;> rfl, .inl (Nat.le_refl _)⟩
  | closeIn i =>
    rw [hs] at ht
    obtain ⟨c, -, rfl⟩ := Option.map_eq_some_iff.1 ht
    obtain ⟨fds, closed, hclose⟩ := closeFd_eq s c.inputPipeHandle
    rw [hclose]
    refine ⟨by split <;> rfl, .inl ?_⟩
    show waited _ (if i + 1 < s.commandArr.length then Pc.wait (i + 1) else .prompt) ≤ i + 1
    split
    · exact Nat.le_refl _
    · rename_i hlast
      exact Nat.le_of_not_lt hlast

/-- The process has a write end of the pipe of the command before, where `execute_command` puts nothing else. -/
def KeepsOpen (s : Sys) (i : Nat) (c : Child) : Prop :=
  c.pc ≠ .exited ∧ ∃ h, h ≠ stdinFileno ∧ h ≠ stdoutFileno ∧ c.fds h = some (.writeEnd (s.firstPipe + i))

/-- Command `i + 1` keeps its pipe open, and the shell has not come past it. -/
structure FilterInv (fds₀ : Table) (i : Nat) (s : Sys) : Prop where
  exec : ExecInv fds₀ s
  keeps : ∀ c, s.children[i + 1]? = some c → KeepsOpen s i c
  waits : s.commandArr.length ≤ i + 1 ∨ waited s.commandArr.length s.pc ≤ i + 1

theorem dup2_of_ne {fds : Table} {a : Option Fd} {b h : Fd} (hne : h ≠ b) : dup2 fds a b h = fds h := by
  unfold dup2
  cases a.bind fds with
  | none => rfl
  | some f => exact Function.update_of_ne hne ..

/-- **A filter keeps its pipe open**: for it to exit, all write ends must be closed, its own among them. -/
theorem KeepsOpen.child {a : Action} {r : Child × Option (Nat × List Byte)} (h : KeepsOpen s i c)
    (hmem : c ∈ s.children) (hstdin : c.stdin = some (.readEnd (s.firstPipe + i))) (hc : s.children[i + 1]? = some c)
    (hok : filterAt (i + 1) s (.child (i + 1) a)) (hr : childStep c a = some r) : KeepsOpen s i r.1 := by
  obtain ⟨hpc, x, hx0, hx1, hx⟩ := h
  cases a with
  | next =>
    obtain ⟨-, ⟨-, -, hpc', hfds⟩ | ⟨-, -, hpc', hfds⟩ | ⟨hne, -⟩⟩ := childStep_cases hr
    · refine ⟨by rw [hpc']; decide, x, hx0, hx1, ?_⟩
      rw [hfds]
      split
      · rw [dup2_of_ne hx0]
        exact hx
      · exact hx
    · refine ⟨by rw [hpc']; decide, x, hx0, hx1, ?_⟩
      rw [hfds]
      split
      · rw [dup2_of_ne hx1]
        exact hx
      · exact hx
    · exact absurd rfl hne
  | write y bytes =>
    simp only [childStep] at hr
    split at hr
    · split at hr <;> (obtain rfl := Option.some.inj hr; exact ⟨hpc, x, hx0, hx1, hx⟩)
    · cases hr
  | close y => exact absurd rfl hok
  | dup2 y z => exact absurd rfl hok
  | openFile y n =>
    simp only [childStep] at hr
    split at hr
    · rename_i hopen
      obtain rfl := Option.some.inj hr
      have hne : x ≠ y := by
        rintro rfl
        cases hx.symm.trans hopen.2
      exact ⟨hpc, x, hx0, hx1, (Function.update_of_ne hne ..).trans hx⟩
    · cases hr
  | exit =>
    obtain ⟨p, hp, -, hclosed⟩ := hok rfl c hc
    obtain rfl := File.readEnd.inj (Option.some.inj (hstdin.symm.trans hp))
    exact absurd ⟨x, hx⟩ (hclosed c hmem)

theorem FilterInv.process (h : FilterInv fds₀ i s) {k : Nat} {a : Action} (hok : filterAt (i + 1) s (.child k a))
    (ht : processStep s k a = some t) : FilterInv fds₀ i t := by
  have hexec := h.exec.process ht
  obtain ⟨c, r, hc, hr, rfl⟩ := processStep_cases ht
  refine ⟨hexec, fun d hd => ?_, h.waits⟩
  rcases getElem?_set_cases hd with ⟨rfl, rfl⟩ | ⟨-, hd⟩
  · exact (h.keeps c hc).child (List.mem_of_getElem? hc) (h.exec.stream.stdins i c hc) hc hok hr
  · exact h.keeps d hd

theorem FilterInv.fork (h : FilterInv fds₀ i s) (hin : (fds₀ stdinFileno).isSome) (hout : (fds₀ stdoutFileno).isSome)
    {last : Bool} {c : Command} (hpc : s.pc = .fork last) (hi : s.children.length = i + 1) :
    KeepsOpen s i (forkCommand s.fds c) := by
  have hforked := h.exec.stream.forked
  have hcount := h.exec.stream.line.count
  rw [hpc] at hforked hcount
  have hmade : s.made.length ≤ i + 2 := by
    simp only [counted, unforked] at hcount hforked
    split at hcount <;> omega
  obtain ⟨ends, hends⟩ := h.exec.stream.line.exists_made (i := i) (by simp only [unforked] at hforked; omega)
  have hfork : ForkTable fds₀ s (i + 1) s.fds := h.exec.stream.line.forkTable hpc hmade
  have hend : PipeEnd s (i + 2) ends.2 (.writeEnd (s.firstPipe + i)) := ⟨i, ends, by omega, hends, .inr ⟨rfl, rfl⟩⟩
  have hpc' : (forkCommand s.fds c).pc ≠ .exited := ChildPc.noConfusion
  exact ⟨hpc', ends.2, hfork.end_ne hin hend, hfork.end_ne hout hend, (hfork.entry hend).1⟩

theorem FilterInv.shell (h : FilterInv fds₀ i s) (hin : (fds₀ stdinFileno).isSome)
    (hout : (fds₀ stdoutFileno).isSome) (ht : shellStep s = some t) : FilterInv fds₀ i t := by
  have hexec := h.exec.shell ht
  obtain ⟨harr, hpast⟩ := shellStep_waited ht
  refine ⟨hexec, fun d hd => ?_, ?_⟩
  · by_cases hfork : ∃ last, s.pc = .fork last
    · obtain ⟨last, hpc⟩ := hfork
      unfold shellStep at ht
      rw [hpc] at ht
      obtain ⟨c, hc, rfl⟩ := Option.map_eq_some_iff.1 ht
      rcases getElem?_concat_cases hd with hd | ⟨hi, rfl⟩
      · exact h.keeps d hd
      · exact h.fork hin hout hpc hi.symm
    · obtain ⟨hchildren, -, -, hfirst⟩ := shellStep_keeps ht fun last hpc => hfork ⟨last, hpc⟩
      rw [hchildren] at hd
      unfold KeepsOpen
      rw [hfirst]
      exact h.keeps d hd
  · rw [harr]
    rcases h.waits with hshort | hwaited
    · exact .inl hshort
    · right
      rcases hpast with hle | ⟨j, c, hpc, hc, hexited, hpc'⟩
      · exact Nat.le_trans hle hwaited
      · rw [hpc] at hwaited
        rw [hpc']
        have hne : j ≠ i + 1 := by
          rintro rfl
          exact (h.keeps c hc).1 hexited
        exact Nat.lt_of_le_of_ne hwaited hne

theorem FilterInv.step (h : FilterInv fds₀ i s) (hin : (fds₀ stdinFileno).isSome) (hout : (fds₀ stdoutFileno).isSome)
    {e : Event} (hok : filterAt (i + 1) s e) (ht : step s e = some t) : FilterInv fds₀ i t := by
  cases e with
  | line =>
    have hexec := h.exec.newLine ht
    simp only [Shell.step, lineStep] at ht
    split at ht
    · obtain rfl := Option.some.inj ht
      exact ⟨hexec, nofun, .inl (Nat.zero_le _)⟩
    · cases ht
  | command args retVal ends =>
    have hexec := h.exec.parse ht
    obtain ⟨-, c, -, -, -, ⟨-, -, -, -, -, rfl⟩ | ⟨-, -, rfl⟩⟩ := commandStep_cases ht
    · exact ⟨hexec, h.keeps, .inr (Nat.zero_le _)⟩
    · exact ⟨hexec, h.keeps, .inr (Nat.zero_le _)⟩
  | shell => exact h.shell hin hout ht
  | child k a => exact h.process hok ht

/-- **A filter behind a pipe never ends**: in every run in which the program of command `i + 1` reads to the end of its
input and closes nothing, whatever the others do, that command never exits, and the shell, waiting for it, never comes
back to its prompt from a line that has it. -/
theorem filter_never_ends (fds₀ : Table) (hin : (fds₀ stdinFileno).isSome) (hout : (fds₀ stdoutFileno).isSome)
    (i : Nat) (es : List Event) (s : Sys) (hfilter : Run.Steps step (filterAt (i + 1)) (init fds₀) es)
    (hrun : run step (init fds₀) es = some s) :
    (∀ c, s.children[i + 1]? = some c → c.pc ≠ .exited) ∧ (s.pc = .prompt → s.commandArr.length ≤ i + 1) := by
  have h0 : FilterInv fds₀ i (init fds₀) := ⟨execInv_init fds₀, nofun, .inl (Nat.zero_le _)⟩
  have h : FilterInv fds₀ i s :=
    Run.run_inv_of_steps (fun _ _ _ h hok ht => FilterInv.step h hin hout hok ht) es _ _ h0 hfilter hrun
  refine ⟨fun c hc => (h.keeps c hc).1, fun hpc => ?_⟩
  rcases h.waits with hshort | hwaited
  · exact hshort
  · rwa [hpc] at hwaited

theorem filter_never_ends_secondReads : ∃ s, run step (init terminal) secondReads = some s ∧ s.pc = .wait 1 ∧
    ∀ c, s.children[1]? = some c → c.pc ≠ .exited := by
  obtain ⟨s, hrun, hpc⟩ : ∃ s, run step (init terminal) secondReads = some s ∧ s.pc = .wait 1 := ⟨_, rfl, rfl⟩
  have hfilter : Run.Steps step (filterAt 1) (init terminal) secondReads := by
    intro pre e t hpre _
    have hmem : e ∈ secondReads := hpre.subset (List.mem_append_right pre (List.mem_singleton_self e))
    simp only [secondReads, List.mem_cons, List.not_mem_nil, or_false] at hmem
    rcases hmem with rfl | rfl | rfl | rfl | rfl | rfl | rfl | rfl | rfl | rfl | rfl | rfl | rfl | rfl | rfl
    any_goals trivial
    exact fun h => absurd h (by decide)
  exact ⟨s, hrun, hpc, (filter_never_ends terminal rfl rfl 0 secondReads s hfilter hrun).1⟩

end Shell
end Eltex
