import EltexTasks.ShellPipes
/-!
# ShellStream — what goes through a pipe of the shell

The shell itself writes six bytes into every pipe of a line before it closes its end, and every command after the
writing one is forked with a copy of that end.
-/
namespace Eltex
namespace Shell

open Run (run)

/-- The bytes written into pipe `p`. -/
def bytesInto (ws : List Write) (p : Nat) : List Byte := (ws.filter (fun w => w.pipe == p)).flatMap Write.bytes

/-- The bytes `writer` has written into pipe `p`. -/
def bytesBy (ws : List Write) (writer : Writer) (p : Nat) : List Byte :=
  (ws.filter (fun w => w.pipe == p && w.writer == writer)).flatMap Write.bytes

def HoldsWriteEnd (t : Table) (p : Nat) : Prop := ∃ h, t h = some (.writeEnd p)

/-- **The pipe after command `i` carries its bytes and ends**: what has been written into the pipe that the next command
reads is what command `i` has written, and no process has a write end of it open. -/
def Carries (s : Sys) (i : Nat) : Prop :=
  ∃ c p, s.children[i + 1]? = some c ∧ c.stdin = some (.readEnd p) ∧
    bytesInto s.written p = bytesBy s.written (.command i) p ∧
    ¬ HoldsWriteEnd s.fds p ∧ ∀ d ∈ s.children, ¬ HoldsWriteEnd d.fds p

theorem bytesInto_cons (w : Write) (ws : List Write) (p : Nat) :
    bytesInto (w :: ws) p = (if w.pipe = p then w.bytes else []) ++ bytesInto ws p := by
  unfold bytesInto
  by_cases hp : w.pipe = p <;> simp [hp]

theorem bytesBy_cons (w : Write) (ws : List Write) (writer : Writer) (p : Nat) :
    bytesBy (w :: ws) writer p = (if w.pipe = p ∧ w.writer = writer then w.bytes else []) ++ bytesBy ws writer p := by
  unfold bytesBy
  by_cases hp : w.pipe = p <;> by_cases hw : w.writer = writer <;> simp [hp, hw]

theorem length_bytesBy_le (ws : List Write) (writer : Writer) (p : Nat) :
    (bytesBy ws writer p).length ≤ (bytesInto ws p).length := by
  induction ws with
  | nil => exact Nat.le_refl _
  | cons w ws ih =>
    rw [bytesBy_cons, bytesInto_cons, List.length_append, List.length_append]
    by_cases hp : w.pipe = p
    · by_cases hw : w.writer = writer
      · simp [hp, hw, ih]
      · simp [hp, hw]; omega
    · simp [hp, ih]

/-- Another writer's bytes come on top. -/
theorem length_add_le_bytesInto {ws : List Write} {w : Write} {writer : Writer} {p : Nat} (hmem : w ∈ ws)
    (hp : w.pipe = p) (hw : w.writer ≠ writer) :
    (bytesBy ws writer p).length + w.bytes.length ≤ (bytesInto ws p).length := by
  induction ws with
  | nil => cases hmem
  | cons x ws ih =>
    rw [bytesBy_cons, bytesInto_cons, List.length_append, List.length_append]
    rcases List.mem_cons.1 hmem with rfl | hmem
    · have := length_bytesBy_le ws writer p
      simp [hp, hw]; omega
    · have := ih hmem
      by_cases hxp : x.pipe = p
      · by_cases hxw : x.writer = writer
        · simp [hxp, hxw]; omega
        · simp [hxp, hxw]; omega
      · simp [hxp]; omega

/-! ## The invariant -/

/-- The commands after whose end the shell has made its own write, of a line of `n`. -/
def writesDone (n : Nat) : Pc → Nat
  | .prompt => n
  | .parse => 0
  | .fork _ => 0
  | .wait i => i
  | .write i => i
  | .closeOut i => i + 1
  | .closeIn i => i + 1

/-- The command that is parsed and not yet forked. -/
def unforked : Pc → Nat
  | .fork _ => 1
  | _ => 0

/-- **The commands of the line**: each but the first reads the pipe of the one before it, and the shell has written
into the pipe of each it has dealt with. -/
structure StreamInv (fds₀ : Table) (s : Sys) : Prop where
  line : LineInv fds₀ s
  forked : s.children.length + unforked s.pc = s.commandArr.length
  stdins : ∀ (i : Nat) (c : Child), s.children[i + 1]? = some c → c.stdin = some (.readEnd (s.firstPipe + i))
  wrote : ∀ i < writesDone s.commandArr.length s.pc, i < s.made.length →
    ⟨.shell, s.firstPipe + i, endBytes⟩ ∈ s.written

/-- While nothing of the line is closed the shell holds both ends of its pipes. -/
theorem LineInv.fds_readEnd {fds₀ : Table} {s : Sys} (h : LineInv fds₀ s) {i : Nat} {ends : Fd × Fd}
    (hi : s.made[i]? = some ends) (hpc : inClosed s.commandArr.length s.pc ≤ i + 1) :
    s.fds ends.1 = some (.readEnd (s.firstPipe + i)) :=
  (h.table.entry ⟨i, ends, hi, .inl ⟨rfl, rfl, hpc⟩⟩).1

theorem LineInv.fds_writeEnd {fds₀ : Table} {s : Sys} (h : LineInv fds₀ s) {i : Nat} {ends : Fd × Fd}
    (hi : s.made[i]? = some ends) (hpc : outClosed s.commandArr.length s.pc ≤ i) :
    s.fds ends.2 = some (.writeEnd (s.firstPipe + i)) :=
  (h.table.entry ⟨i, ends, hi, .inr ⟨rfl, rfl, hpc⟩⟩).1

/-- **A command is forked with a write end of every pipe made so far**, that of the pipe it reads included. -/
theorem LineInv.forked_holds {fds₀ : Table} {s : Sys} (h : LineInv fds₀ s) {last : Bool} (hpc : s.pc = .fork last)
    (c : Command) {i : Nat} (hi : i < s.made.length) : HoldsWriteEnd (forkCommand s.fds c).fds (s.firstPipe + i) :=
  ⟨s.made[i].2, h.fds_writeEnd (List.getElem?_eq_getElem hi) (by rw [hpc]; exact Nat.zero_le i)⟩

theorem childStep_stdin {c : Child} {a : Action} {r : Child × Option (Nat × List Byte)} (h : childStep c a = some r) :
    r.1.stdin = c.stdin := by
  cases a with
  | next =>
    simp only [childStep] at h
    cases hpc : c.pc with
    | dupIn => rw [hpc] at h; rw [← Option.some.inj h]
    | dupOut => rw [hpc] at h; rw [← Option.some.inj h]
    | running => rw [hpc] at h; cases h
    | exited => rw [hpc] at h; cases h
  | write x bytes =>
    simp only [childStep] at h
    split at h
    · split at h
      · rw [← Option.some.inj h]
      · rw [← Option.some.inj h]
    · cases h
  | close x => simp only [childStep] at h; split at h <;> [rw [← Option.some.inj h]; cases h]
  | dup2 x y => simp only [childStep] at h; split at h <;> [rw [← Option.some.inj h]; cases h]
  | openFile x n => simp only [childStep] at h; split at h <;> [rw [← Option.some.inj h]; cases h]
  | exit => simp only [childStep] at h; split at h <;> [rw [← Option.some.inj h]; cases h]

theorem streamInv_init (fds₀ : Table) : StreamInv fds₀ (init fds₀) where
  line := lineInv_init fds₀
  forked := rfl
  stdins := nofun
  wrote := nofun

/-- A step of the shell that forks nothing and writes nothing. -/
theorem StreamInv.quiet {fds₀ : Table} {s t : Sys} (h : StreamInv fds₀ s) (hline : LineInv fds₀ t)
    (hchildren : t.children = s.children) (harr : t.commandArr = s.commandArr) (hfirst : t.firstPipe = s.firstPipe)
    (hmade : t.made = s.made) (hwritten : t.written = s.written) (hforked : unforked t.pc = unforked s.pc)
    (hdone : writesDone s.commandArr.length t.pc = writesDone s.commandArr.length s.pc) : StreamInv fds₀ t where
  line := hline
  forked := by rw [hforked, hchildren, harr]; exact h.forked
  stdins := by rw [hchildren, hfirst]; exact h.stdins
  wrote := by rw [harr, hdone, hmade, hfirst, hwritten]; exact h.wrote

theorem StreamInv.newLine {fds₀ : Table} {s t : Sys} (h : StreamInv fds₀ s) (ht : lineStep s = some t) :
    StreamInv fds₀ t := by
  have hline := h.line.line ht
  unfold lineStep at ht
  split at ht
  · obtain rfl := Option.some.inj ht
    exact ⟨hline, rfl, nofun, nofun⟩
  · cases ht

theorem StreamInv.command {fds₀ : Table} {s t : Sys} {args : List CString} {retVal : Nat} {ends : Fd × Fd}
    (h : StreamInv fds₀ s) (ht : commandStep s args retVal ends = some t) : StreamInv fds₀ t := by
  have hline := h.line.command ht
  obtain ⟨hpc, c, -, -, -, hcases⟩ := commandStep_cases ht
  have hforked := h.forked
  rw [hpc] at hforked
  rcases hcases with ⟨-, -, -, -, -, rfl⟩ | ⟨-, -, rfl⟩
  · exact ⟨hline, by rw [List.length_append, ← hforked]; rfl, h.stdins, nofun⟩
  · exact ⟨hline, by rw [List.length_append, ← hforked]; rfl, h.stdins, nofun⟩

/-- The last command of `command_arr` is forked with the pipe before it for its input. -/
theorem StreamInv.fork {fds₀ : Table} {s : Sys} {last : Bool} {c : Command} (h : StreamInv fds₀ s)
    (hpc : s.pc = .fork last) (hc : s.commandArr.getLast? = some c) {i : Nat} (hi : s.children.length = i + 1) :
    (forkCommand s.fds c).stdin = some (.readEnd (s.firstPipe + i)) := by
  have hforked := h.forked
  have hcount := h.line.count
  rw [hpc] at hforked hcount
  have hlen : s.commandArr.length = i + 2 := by rw [← hforked, hi]; rfl
  have hlast : s.commandArr[i + 1]? = some c := by rw [List.getLast?_eq_getElem?, hlen] at hc; exact hc
  have hlt : i < s.made.length := by
    simp only [counted] at hcount
    split at hcount <;> omega
  have hends : s.made[i]? = some s.made[i] := List.getElem?_eq_getElem hlt
  have hhandle : c.inputPipeHandle = some s.made[i].1 := by rw [h.line.handleIn i c hlast, hends]; rfl
  show c.inputPipeHandle.bind s.fds = _
  rw [hhandle]
  exact h.line.fds_readEnd hends (by rw [hpc]; exact Nat.zero_le _)

/-- The shell writes into the pipe of a command that has ended. -/
theorem StreamInv.write {fds₀ : Table} {s : Sys} {i : Nat} {c : Command} (h : StreamInv fds₀ s) (hpc : s.pc = .write i)
    (hc : s.commandArr[i]? = some c) (hi : i < s.made.length) :
    writeFd s c.outputPipeHandle endBytes =
      { s with written := s.written ++ [⟨.shell, s.firstPipe + i, endBytes⟩] } := by
  have hends : s.made[i]? = some s.made[i] := List.getElem?_eq_getElem hi
  have hhandle : c.outputPipeHandle = some s.made[i].2 := by rw [h.line.handleOut i c hc, hends]; rfl
  have hfds := h.line.fds_writeEnd hends (by rw [hpc]; exact Nat.le_refl _)
  unfold writeFd
  rw [hhandle, Option.bind_some, hfds]

theorem StreamInv.shell {fds₀ : Table} {s t : Sys} (h : StreamInv fds₀ s) (ht : shellStep s = some t) :
    StreamInv fds₀ t := by
  have hline := h.line.shell ht
  have hforked := h.forked
  unfold shellStep at ht
  cases hpc : s.pc with
  | prompt => rw [hpc] at ht; cases ht
  | parse => rw [hpc] at ht; cases ht
  | fork last =>
    rw [hpc] at ht hforked
    obtain ⟨c, hc, rfl⟩ := Option.map_eq_some_iff.1 ht
    refine ⟨hline, ?_, fun i d hd => ?_, ?_⟩
    · rw [List.length_append, ← hforked]
      cases last <;> rfl
    · rcases getElem?_concat_cases hd with hd | ⟨hi, rfl⟩
      · exact h.stdins i d hd
      · exact h.fork hpc hc hi.symm
    · cases last <;> exact nofun
  | wait i =>
    rw [hpc] at ht
    obtain ⟨c, hc, ht⟩ := Option.bind_eq_some_iff.1 ht
    split at ht
    · obtain rfl := Option.some.inj ht
      exact h.quiet hline rfl rfl rfl rfl rfl (by rw [hpc]; rfl) (by rw [hpc]; rfl)
    · cases ht
  | write i =>
    rw [hpc] at ht hforked
    obtain ⟨c, hc, rfl⟩ := Option.map_eq_some_iff.1 ht
    have hwrote := h.wrote
    rw [hpc] at hwrote
    by_cases ho : c.outFlag = .toPipe
    · have hi : i < s.made.length := (h.line.flagOut i c hc).1 ho
      rw [if_pos ho, h.write hpc hc hi] at hline ⊢
      refine ⟨hline, hforked, h.stdins, fun j hj hk => ?_⟩
      rcases Nat.lt_succ_iff_lt_or_eq.1 hj with hj | rfl
      · exact List.mem_append_left _ (hwrote j hj hk)
      · exact List.mem_append_right _ (List.mem_singleton.2 rfl)
    · have hi : ¬ i < s.made.length := fun hlt => ho ((h.line.flagOut i c hc).2 hlt)
      rw [if_neg ho] at hline ⊢
      refine ⟨hline, hforked, h.stdins, fun j hj hk => ?_⟩
      rcases Nat.lt_succ_iff_lt_or_eq.1 hj with hj | rfl
      · exact hwrote j hj hk
      · exact absurd hk hi
  | closeOut i =>
    rw [hpc] at ht
    obtain ⟨c, hc, rfl⟩ := Option.map_eq_some_iff.1 ht
    by_cases ho : c.outFlag = .toPipe
    · obtain ⟨fds, closed, hclose⟩ := closeFd_eq s c.outputPipeHandle
      rw [if_pos ho, hclose] at hline ⊢
      exact h.quiet hline rfl rfl rfl rfl rfl (by rw [hpc]; rfl) (by rw [hpc]; rfl)
    · rw [if_neg ho] at hline ⊢
      exact h.quiet hline rfl rfl rfl rfl rfl (by rw [hpc]; rfl) (by rw [hpc]; rfl)
  | closeIn i =>
    rw [hpc] at ht
    obtain ⟨c, hc, rfl⟩ := Option.map_eq_some_iff.1 ht
    have hcount := h.line.count
    rw [hpc] at hcount
    have hnext : unforked (if i + 1 < s.commandArr.length then .wait (i + 1) else .prompt) = unforked s.pc ∧
        writesDone s.commandArr.length (if i + 1 < s.commandArr.length then .wait (i + 1) else .prompt) =
          writesDone s.commandArr.length s.pc := by
      rw [hpc]
      by_cases hlt : i + 1 < s.commandArr.length
      · rw [if_pos hlt]; exact ⟨rfl, rfl⟩
      · rw [if_neg hlt]
        have := hcount.2
        exact ⟨rfl, by simp only [writesDone]; omega⟩
    by_cases hf : c.inFlag = .prevPipe
    · obtain ⟨fds, closed, hclose⟩ := closeFd_eq s c.inputPipeHandle
      rw [if_pos hf, hclose] at hline ⊢
      exact h.quiet hline rfl rfl rfl rfl rfl hnext.1 hnext.2
    · rw [if_neg hf] at hline ⊢
      exact h.quiet hline rfl rfl rfl rfl rfl hnext.1 hnext.2

theorem StreamInv.process {fds₀ : Table} {s t : Sys} {i : Nat} {a : Action} (h : StreamInv fds₀ s)
    (ht : processStep s i a = some t) : StreamInv fds₀ t := by
  obtain ⟨c, r, hc, hr, rfl⟩ := processStep_cases ht
  refine ⟨h.line.move _ _ h.line.count rfl rfl, ?_, fun j d hd => ?_, fun j hj hk => ?_⟩
  · rw [List.length_set]; exact h.forked
  · rcases getElem?_set_cases hd with ⟨rfl, rfl⟩ | ⟨-, hd⟩
    · rw [childStep_stdin hr]; exact h.stdins j c hc
    · exact h.stdins j d hd
  · exact List.mem_append_left _ (h.wrote j hj hk)

theorem streamInv_step {fds₀ : Table} (s : Sys) (e : Event) (t : Sys) (h : StreamInv fds₀ s) (ht : step s e = some t) :
    StreamInv fds₀ t := by
  cases e with
  | line => exact h.newLine ht
  | command args retVal ends => exact h.command ht
  | shell => exact h.shell ht
  | child i a => exact h.process ht

/-- The pipe after a command the shell has written for is not the command's alone. -/
theorem StreamInv.not_carries {fds₀ : Table} {s : Sys} (h : StreamInv fds₀ s) {i : Nat}
    (hdone : i < writesDone s.commandArr.length s.pc) (hi : i < s.made.length) : ¬ Carries s i := by
  rintro ⟨c, p, hc, hp, hbytes, -, -⟩
  obtain rfl : p = s.firstPipe + i := by
    have := hp.symm.trans (h.stdins i c hc)
    injection this with this
    injection this
  have hle : (bytesBy s.written (.command i) (s.firstPipe + i)).length + endBytes.length ≤
      (bytesInto s.written (s.firstPipe + i)).length := length_add_le_bytesInto (h.wrote i hdone hi) rfl nofun
  have hpos : 0 < endBytes.length := by decide
  rw [hbytes] at hle
  omega

/-- **No pipe of the shell carries its command's bytes alone**: whatever the commands do, once the cleanup loop has
dealt with a command that another one reads from, the shell's own six bytes are in the pipe between them. -/
theorem never_carries (fds₀ : Table) (es : List Event) (s : Sys) (hrun : run step (init fds₀) es = some s) (i : Nat)
    (hi : i + 1 < s.commandArr.length) (hdone : i < inClosed s.commandArr.length s.pc) : ¬ Carries s i := by
  have h : StreamInv fds₀ s := Run.run_inv streamInv_step (streamInv_init fds₀) hrun
  have hcount := h.line.count
  have hwrites : inClosed s.commandArr.length s.pc ≤ writesDone s.commandArr.length s.pc := by
    cases s.pc <;> simp [inClosed, writesDone]
  have hmade : i < s.made.length := by
    cases hpc : s.pc with
    | parse => rw [hpc] at hdone; cases hdone
    | fork last => rw [hpc] at hdone; cases hdone
    | prompt => rw [hpc] at hcount; simp only [counted] at hcount; omega
    | wait j => rw [hpc] at hcount; have := hcount.1; omega
    | write j => rw [hpc] at hcount; have := hcount.1; omega
    | closeOut j => rw [hpc] at hcount; have := hcount.1; omega
    | closeIn j => rw [hpc] at hcount; have := hcount.1; omega
  exact h.not_carries (by omega) hmade

/-- The line of `twoCommands` once the shell has dealt with its first command. -/
theorem never_carries_twoCommands :
    ∃ s, run step (init fun _ => none) (twoCommands.take 15) = some s ∧ ¬ Carries s 0 :=
  ⟨_, rfl, never_carries (fun _ => none) (twoCommands.take 15) _ rfl 0 (by decide) (by decide)⟩

/-- There the pipe holds six bytes more than "hi", and the second command a write end of the pipe it reads. -/
theorem stray_bytes :
    ∃ s, run step (init fun _ => none) (twoCommands.take 15) = some s ∧
      bytesInto s.written 0 = str ['h', 'i'] ++ endBytes ∧ (∃ d ∈ s.children[1]?, HoldsWriteEnd d.fds 0) ∧
      ¬ Carries s 0 := by
  refine ⟨_, rfl, by decide, ⟨_, rfl, 4, by decide⟩, ?_⟩
  rintro ⟨c, p, hc, hp, hbytes, -, -⟩
  obtain rfl := Option.some.inj hc
  obtain rfl : 0 = p := File.readEnd.inj (Option.some.inj hp)
  exact absurd hbytes (by decide)

end Shell
end Eltex
