import Mathlib.Data.List.Nodup
import EltexTasks.ShellProcesses
import EltexTasks.Update
/-!
# ShellPipes — the pipes of a line and the shell's own descriptors

Along every run the shell makes one pipe between two commands of a line and none else, joins the two commands to it,
and closes both its ends once; at a prompt its table is the one it had at the first.
-/
namespace Eltex
namespace Shell

open Run (run)

/-- The commands whose output handles the cleanup loop has dealt with, of a line of `n`. -/
def outClosed (n : Nat) : Pc → Nat
  | .prompt => n
  | .parse => 0
  | .fork _ => 0
  | .wait i => i
  | .write i => i
  | .closeOut i => i
  | .closeIn i => i + 1

/-- The commands whose input handles the cleanup loop has dealt with, of a line of `n`. -/
def inClosed (n : Nat) : Pc → Nat
  | .prompt => n
  | .parse => 0
  | .fork _ => 0
  | .wait i => i
  | .write i => i
  | .closeOut i => i
  | .closeIn i => i

/-- The parse loop is over and at least one command is left to clean up, or the line is done; `k` pipes join `n`
commands. -/
def counted (n k : Nat) : Pc → Prop
  | .prompt => k = n - 1
  | .parse => k = n
  | .fork last => k + (if last then 1 else 0) = n
  | .wait i => k + 1 = n ∧ i < n
  | .write i => k + 1 = n ∧ i < n
  | .closeOut i => k + 1 = n ∧ i < n
  | .closeIn i => k + 1 = n ∧ i < n

/-- The end of a pipe of this line that the shell has open as `h`. -/
def Held (s : Sys) (h : Fd) (f : File) : Prop :=
  ∃ j ends, s.made[j]? = some ends ∧
    ((h = ends.1 ∧ f = .readEnd (s.firstPipe + j) ∧ inClosed s.commandArr.length s.pc ≤ j + 1) ∨
     (h = ends.2 ∧ f = .writeEnd (s.firstPipe + j) ∧ outClosed s.commandArr.length s.pc ≤ j))

/-- What the cleanup loop closes for command `i` of a line with `k` pipes from number `first` on. -/
def closesOf (first k i : Nat) : List (Option File) :=
  (if i < k then [some (.writeEnd (first + i))] else []) ++ if 0 < i then [some (.readEnd (first + (i - 1)))] else []

/-- What has been closed of a line of `n` commands with `k` pipes from number `first` on. -/
def closedBy (first n k : Nat) (pc : Pc) : List (Option File) :=
  (List.range (inClosed n pc)).flatMap (closesOf first k) ++
    if inClosed n pc < outClosed n pc ∧ inClosed n pc < k then [some (.writeEnd (first + inClosed n pc))] else []

/-- **The line so far**, from the table `fds₀` the shell had at the prompt. -/
structure LineInv (fds₀ : Table) (s : Sys) : Prop where
  pipes : s.pipes = s.firstPipe + s.made.length
  count : counted s.commandArr.length s.made.length s.pc
  flagIn : ∀ (i : Nat) (c : Command), s.commandArr[i]? = some c → (c.inFlag = .prevPipe ↔ 0 < i)
  flagOut : ∀ (i : Nat) (c : Command), s.commandArr[i]? = some c → (c.outFlag = .toPipe ↔ i < s.made.length)
  handleOut : ∀ (i : Nat) (c : Command), s.commandArr[i]? = some c → c.outputPipeHandle = s.made[i]?.map Prod.snd
  handleIn : ∀ (i : Nat) (c : Command), s.commandArr[i + 1]? = some c → c.inputPipeHandle = s.made[i]?.map Prod.fst
  prev : ∀ ends, s.made[s.made.length - 1]? = some ends → s.prevPipefd = ends
  table : Extends fds₀ s.fds (Held s)
  closed : s.closed = closedBy s.firstPipe s.commandArr.length s.made.length s.pc

theorem lineInv_init (fds₀ : Table) : LineInv fds₀ (init fds₀) where
  pipes := rfl
  count := rfl
  flagIn := nofun
  flagOut := nofun
  handleOut := nofun
  handleIn := nofun
  prev := nofun
  table := Extends.refl fds₀ fun _ _ ⟨_, _, h, _⟩ => nomatch h
  closed := rfl

/-- At a prompt nothing is left of the line. -/
theorem LineInv.fds_prompt {fds₀ : Table} {s : Sys} (h : LineInv fds₀ s) (hpc : s.pc = .prompt) : s.fds = fds₀ := by
  refine h.table.eq_of_empty ?_
  rintro a b ⟨j, ends, hj, hcase⟩
  have hk := h.count
  have hlt := (List.getElem?_eq_some_iff.1 hj).1
  rw [hpc] at hk hcase
  simp only [counted, inClosed, outClosed] at hk hcase
  omega

theorem LineInv.line {fds₀ : Table} {s t : Sys} (h : LineInv fds₀ s) (ht : lineStep s = some t) : LineInv fds₀ t := by
  unfold lineStep at ht
  by_cases hpc : s.pc = .prompt
  · rw [if_pos hpc] at ht
    obtain rfl := Option.some.inj ht
    exact {
      pipes := rfl
      count := rfl
      flagIn := nofun
      flagOut := nofun
      handleOut := nofun
      handleIn := nofun
      prev := nofun
      table := by
        show Extends fds₀ s.fds _
        rw [h.fds_prompt hpc]
        exact Extends.refl fds₀ fun _ _ ⟨_, _, h, _⟩ => nomatch h
      closed := rfl }
  · rw [if_neg hpc] at ht; cases ht

/-! ## The parse loop -/

theorem setCommandIoFlags_inFlag (args : List CString) (retVal idx : Nat) :
    (setCommandIoFlags args retVal idx).inFlag = .prevPipe ↔ 0 < idx := by
  unfold setCommandIoFlags
  by_cases h : idx = 0
  · simp [h]
  · simp [h, Nat.pos_of_ne_zero h]

theorem setCommandIoFlags_outFlag (args : List CString) (retVal idx : Nat) :
    (setCommandIoFlags args retVal idx).outFlag = .toPipe ↔ retVal ≠ 0 := by
  unfold setCommandIoFlags
  by_cases h : retVal = 0
  · simp [h]
  · simp [h]

/-- **A round of the parse loop**: the command is stored; if another is to follow, a pipe is made for the two. -/
theorem commandStep_cases {s t : Sys} {args : List CString} {retVal : Nat} {ends : Fd × Fd}
    (h : commandStep s args retVal ends = some t) :
    s.pc = .parse ∧ ∃ c : Command, (c.inFlag = .prevPipe ↔ 0 < s.commandArr.length) ∧
      (c.outFlag = .toPipe ↔ retVal ≠ 0) ∧ (0 < s.commandArr.length → c.inputPipeHandle = some s.prevPipefd.1) ∧
      ((retVal ≠ 0 ∧ s.fds ends.1 = none ∧ s.fds ends.2 = none ∧ ends.1 ≠ ends.2 ∧ c.outputPipeHandle = some ends.2 ∧
        t = { s with
          pc := .fork false
          commandArr := s.commandArr ++ [c]
          fds := Function.update (Function.update s.fds ends.1 (some (.readEnd s.pipes))) ends.2
            (some (.writeEnd s.pipes))
          pipefd := ends
          prevPipefd := ends
          pipes := s.pipes + 1
          made := s.made ++ [ends] }) ∨
       (retVal = 0 ∧ c.outputPipeHandle = none ∧ t = { s with pc := .fork true, commandArr := s.commandArr ++ [c] })) := by
  unfold commandStep at h
  split at h
  case isFalse => cases h
  case isTrue hpc =>
  obtain ⟨t', ht', rfl⟩ := Option.map_eq_some_iff.1 h
  have hin := setCommandIoFlags_inFlag args retVal s.commandArr.length
  have hout := setCommandIoFlags_outFlag args retVal s.commandArr.length
  generalize setCommandIoFlags args retVal s.commandArr.length = c at ht' hin hout
  refine ⟨hpc.1, ?_⟩
  let stored (output : Option Fd) : Command :=
    { c with
      inputPipeHandle := if c.inFlag = .prevPipe then some s.prevPipefd.1 else none
      outputPipeHandle := output }
  unfold setPipes at ht'
  by_cases hr : retVal = 0
  · rw [if_neg fun he => hout.1 he hr] at ht'
    obtain rfl := Option.some.inj ht'
    subst hr
    exact ⟨stored none, hin, hout, fun hpos => if_pos (hin.2 hpos), .inr ⟨rfl, rfl, rfl⟩⟩
  · rw [if_pos (hout.2 hr)] at ht'
    split at ht'
    · rename_i hfree
      obtain rfl := Option.some.inj ht'
      refine ⟨stored (some ends.2), hin, hout, fun hpos => if_pos (hin.2 hpos),
        .inl ⟨hr, hfree.1, hfree.2.1, hfree.2.2, rfl, ?_⟩⟩
      simp [hr, stored]
    · cases ht'

theorem getElem?_map_concat {made : List (Fd × Fd)} {ends : Fd × Fd} {i : Nat} {β : Type} (f : Fd × Fd → β)
    (hi : i < made.length) : (made ++ [ends])[i]?.map f = made[i]?.map f := by
  rw [List.getElem?_append_left hi]

/-- The handle a command takes from `prev_pipefd` is the read end of the pipe made last. -/
theorem LineInv.inputHandle {fds₀ : Table} {s : Sys} {c : Command} {i : Nat} (h : LineInv fds₀ s) (hpc : s.pc = .parse)
    (hprev : 0 < s.commandArr.length → c.inputPipeHandle = some s.prevPipefd.1) (hi : i + 1 = s.commandArr.length) :
    c.inputPipeHandle = s.made[i]?.map Prod.fst := by
  have hk : s.made.length = s.commandArr.length := by have hcount := h.count; rw [hpc] at hcount; exact hcount
  have hlt : i < s.made.length := by omega
  have hlast : s.prevPipefd = s.made[i] := by
    apply h.prev
    rw [show s.made.length - 1 = i by omega]
    exact List.getElem?_eq_getElem hlt
  rw [hprev (by omega), hlast, List.getElem?_eq_getElem hlt]
  rfl

/-- A new pipe's two ends are held beside the earlier ones. -/
theorem held_newPipe {s t : Sys} {ends : Fd × Fd} (hpipes : s.pipes = s.firstPipe + s.made.length) (hpc : s.pc = .parse)
    (hpc' : t.pc = .fork false) (hmade : t.made = s.made ++ [ends]) (hfirst : t.firstPipe = s.firstPipe) (a : Fd)
    (f : File) :
    ((Held s a f ∨ a = ends.1 ∧ f = .readEnd s.pipes) ∨ a = ends.2 ∧ f = .writeEnd s.pipes) ↔ Held t a f := by
  unfold Held
  rw [hpc, hpc', hmade, hfirst]
  constructor
  · rintro ((⟨j, x, hx, hcase⟩ | ⟨rfl, rfl⟩) | ⟨rfl, rfl⟩)
    · refine ⟨j, x, getElem?_concat_of_some hx, ?_⟩
      rcases hcase with ⟨ha, hf, -⟩ | ⟨ha, hf, -⟩
      · exact .inl ⟨ha, hf, Nat.zero_le _⟩
      · exact .inr ⟨ha, hf, Nat.zero_le _⟩
    · exact ⟨s.made.length, ends, List.getElem?_concat_length, .inl ⟨rfl, by rw [hpipes], Nat.zero_le _⟩⟩
    · exact ⟨s.made.length, ends, List.getElem?_concat_length, .inr ⟨rfl, by rw [hpipes], Nat.zero_le _⟩⟩
  · rintro ⟨j, x, hx, hcase⟩
    rcases getElem?_concat_cases hx with hx | ⟨rfl, rfl⟩
    · refine .inl (.inl ⟨j, x, hx, ?_⟩)
      rcases hcase with ⟨ha, hf, -⟩ | ⟨ha, hf, -⟩
      · exact .inl ⟨ha, hf, Nat.zero_le _⟩
      · exact .inr ⟨ha, hf, Nat.zero_le _⟩
    · rcases hcase with ⟨ha, hf, -⟩ | ⟨ha, hf, -⟩
      · exact .inl (.inr ⟨ha, by rw [hf, hpipes]⟩)
      · exact .inr ⟨ha, by rw [hf, hpipes]⟩

theorem LineInv.command {fds₀ : Table} {s t : Sys} {args : List CString} {retVal : Nat} {ends : Fd × Fd}
    (h : LineInv fds₀ s) (ht : commandStep s args retVal ends = some t) : LineInv fds₀ t := by
  obtain ⟨hpc, c, hin, hout, hprev, hcases⟩ := commandStep_cases ht
  have hk : s.made.length = s.commandArr.length := by have := h.count; rw [hpc] at this; exact this
  have hclosed : s.closed = [] := by have := h.closed; rw [hpc] at this; exact this
  have htable : Extends fds₀ s.fds (Held s) := h.table
  have hinput : ∀ i, i + 1 = s.commandArr.length → c.inputPipeHandle = s.made[i]?.map Prod.fst :=
    fun i hi => h.inputHandle hpc hprev hi
  rcases hcases with ⟨hr, hfree₁, hfree₂, hne, hhandle, rfl⟩ | ⟨hr, hhandle, rfl⟩
  · exact {
      pipes := by simp only [List.length_append, List.length_singleton]; have := h.pipes; omega
      count := by simp only [counted, List.length_append, List.length_singleton]; simp [hk]
      flagIn := by
        intro i d hd
        rcases getElem?_concat_cases hd with hd | ⟨rfl, rfl⟩
        · exact h.flagIn i d hd
        · exact hin
      flagOut := by
        intro i d hd
        rw [List.length_append, List.length_singleton]
        rcases getElem?_concat_cases hd with hd | ⟨rfl, rfl⟩
        · rw [h.flagOut i d hd]
          have := (List.getElem?_eq_some_iff.1 hd).1
          omega
        · rw [hout]
          exact ⟨fun _ => by omega, fun _ => hr⟩
      handleOut := by
        intro i d hd
        rcases getElem?_concat_cases hd with hd | ⟨rfl, rfl⟩
        · have hlt := (List.getElem?_eq_some_iff.1 hd).1
          rw [getElem?_map_concat Prod.snd (by omega)]
          exact h.handleOut i d hd
        · rw [hhandle, ← hk, List.getElem?_concat_length]; rfl
      handleIn := by
        intro i d hd
        rcases getElem?_concat_cases hd with hd | ⟨hi, rfl⟩
        · have hlt := (List.getElem?_eq_some_iff.1 hd).1
          rw [getElem?_map_concat Prod.fst (by omega)]
          exact h.handleIn i d hd
        · rw [getElem?_map_concat Prod.fst (by omega)]
          exact hinput i hi
      prev := by
        intro x hx
        rw [List.length_append, List.length_singleton, Nat.add_sub_cancel, List.getElem?_concat_length] at hx
        exact Option.some.inj hx
      table := by
        have hadd := (htable.add (.readEnd s.pipes) hfree₁).add (.writeEnd s.pipes) (a := ends.2)
          (by rw [Function.update_of_ne (Ne.symm hne)]; exact hfree₂)
        exact hadd.congr (held_newPipe h.pipes hpc rfl rfl rfl)
      closed := hclosed }
  · exact {
      pipes := h.pipes
      count := by simp only [counted, List.length_append, List.length_singleton]; simp [hk]
      flagIn := by
        intro i d hd
        rcases getElem?_concat_cases hd with hd | ⟨rfl, rfl⟩
        · exact h.flagIn i d hd
        · exact hin
      flagOut := by
        intro i d hd
        rcases getElem?_concat_cases hd with hd | ⟨rfl, rfl⟩
        · exact h.flagOut i d hd
        · rw [hout]
          exact ⟨fun hne => absurd hr hne, fun hlt => absurd hk (Nat.ne_of_gt hlt)⟩
      handleOut := by
        intro i d hd
        rcases getElem?_concat_cases hd with hd | ⟨rfl, rfl⟩
        · exact h.handleOut i d hd
        · rw [hhandle, ← hk, List.getElem?_eq_none (Nat.le_refl _)]; rfl
      handleIn := by
        intro i d hd
        rcases getElem?_concat_cases hd with hd | ⟨hi, rfl⟩
        · exact h.handleIn i d hd
        · exact hinput i hi
      prev := h.prev
      table := by
        refine htable.congr fun a f => ?_
        unfold Held
        rw [hpc]
        rfl
      closed := hclosed }

/-! ## The cleanup loop -/

/-- A step that closes nothing keeps the line. -/
theorem LineInv.move {fds₀ : Table} {s : Sys} (h : LineInv fds₀ s) {pc : Pc} (children : List Child)
    (written : List Write) (hcount : counted s.commandArr.length s.made.length pc)
    (hout : outClosed s.commandArr.length pc = outClosed s.commandArr.length s.pc)
    (hin : inClosed s.commandArr.length pc = inClosed s.commandArr.length s.pc) :
    LineInv fds₀ { s with pc := pc, children := children, written := written } :=
  { h with
    count := hcount
    table := by
      refine h.table.congr fun a f => ?_
      unfold Held
      rw [hout, hin]
    closed := by unfold closedBy; rw [hout, hin]; exact h.closed }

theorem writeFd_eq (s : Sys) (h : Option Fd) (bytes : List Byte) :
    ∃ written, writeFd s h bytes = { s with written := written } := by
  unfold writeFd
  split
  · exact ⟨_, rfl⟩
  · exact ⟨s.written, rfl⟩

theorem closeFd_eq (s : Sys) (h : Option Fd) :
    ∃ fds closed, closeFd s h = { s with fds := fds, closed := closed } := by
  cases h with
  | none => exact ⟨s.fds, s.closed, rfl⟩
  | some a => exact ⟨_, _, rfl⟩

theorem Held.unique {s : Sys} {a b : Fd} {f : File} (ha : Held s a f) (hb : Held s b f) : b = a := by
  obtain ⟨i, ends, hi, ha⟩ := ha
  obtain ⟨j, ends', hj, hb⟩ := hb
  rcases ha with ⟨rfl, rfl, -⟩ | ⟨rfl, rfl, -⟩ <;> rcases hb with ⟨rfl, hf, -⟩ | ⟨rfl, hf, -⟩
  · obtain rfl : i = j := by injection hf; omega
    rw [Option.some.inj (hi.symm.trans hj)]
  · cases hf
  · cases hf
  · obtain rfl : i = j := by injection hf; omega
    rw [Option.some.inj (hi.symm.trans hj)]

/-- A step that closes the end `f` keeps the line. -/
theorem LineInv.closeEnd {fds₀ : Table} {s : Sys} (h : LineInv fds₀ s) {pc : Pc} {a : Fd} {f : File} (hheld : Held s a f)
    (hcount : counted s.commandArr.length s.made.length pc)
    (hleft : ∀ x g, Held s x g ∧ g ≠ f ↔ Held { s with pc := pc } x g)
    (hclosed : s.closed ++ [some f] = closedBy s.firstPipe s.commandArr.length s.made.length pc) :
    LineInv fds₀ { closeFd s (some a) with pc := pc } where
  pipes := h.pipes
  count := hcount
  flagIn := h.flagIn
  flagOut := h.flagOut
  handleOut := h.handleOut
  handleIn := h.handleIn
  prev := h.prev
  table := (h.table.remove hheld fun _ hx => hheld.unique hx).congr hleft
  closed := by
    show s.closed ++ [s.fds a] = _
    rw [(h.table.entry hheld).1, hclosed]; rfl

/-- **The write end goes first**: the command has ended, and the shell closes what the command wrote into. -/
theorem LineInv.closeOut {fds₀ : Table} {s : Sys} (h : LineInv fds₀ s) {i : Nat} {c : Command} (hpc : s.pc = .closeOut i)
    (hc : s.commandArr[i]? = some c) :
    LineInv fds₀ { (if c.outFlag = .toPipe then closeFd s c.outputPipeHandle else s) with pc := .closeIn i } := by
  have hcount := h.count
  rw [hpc] at hcount
  have hclosed : s.closed = (List.range i).flatMap (closesOf s.firstPipe s.made.length) := by
    have := h.closed; rw [hpc] at this; simpa [closedBy, inClosed, outClosed] using this
  by_cases ho : c.outFlag = .toPipe
  · have hi : i < s.made.length := (h.flagOut i c hc).1 ho
    have hends : s.made[i]? = some s.made[i] := List.getElem?_eq_getElem hi
    have hheld : Held s s.made[i].2 (.writeEnd (s.firstPipe + i)) :=
      ⟨i, _, hends, .inr ⟨rfl, rfl, by rw [hpc]; exact Nat.le_refl _⟩⟩
    rw [if_pos ho, h.handleOut i c hc, hends]
    refine h.closeEnd hheld hcount (fun x g => ?_) (by simp [closedBy, inClosed, outClosed, hclosed, hi])
    constructor
    · rintro ⟨⟨j, ends, hj, hcase⟩, hne⟩
      rw [hpc] at hcase
      refine ⟨j, ends, hj, ?_⟩
      rcases hcase with hcase | ⟨ha, hf, hle⟩
      · exact .inl hcase
      · have hij : i ≠ j := fun he => hne (by rw [hf, he])
        exact .inr ⟨ha, hf, Nat.lt_of_le_of_ne hle hij⟩
    · rintro ⟨j, ends, hj, hcase⟩
      refine ⟨⟨j, ends, hj, ?_⟩, ?_⟩
      · rw [hpc]
        rcases hcase with hcase | ⟨ha, hf, hle⟩
        · exact .inl hcase
        · exact .inr ⟨ha, hf, Nat.le_of_succ_le hle⟩
      · rintro rfl
        rcases hcase with ⟨-, hf, -⟩ | ⟨-, hf, hle⟩
        · cases hf
        · have hf : s.firstPipe + i = s.firstPipe + j := by injection hf
          have hle : i + 1 ≤ j := hle
          omega
  · have hi : ¬ i < s.made.length := fun hlt => ho ((h.flagOut i c hc).2 hlt)
    rw [if_neg ho]
    exact { h with
      count := hcount
      table := by
        refine h.table.congr fun a f => ?_
        unfold Held
        rw [hpc]
        refine exists_congr fun j => exists_congr fun ends => and_congr_right fun hj => or_congr Iff.rfl ?_
        have hlt := (List.getElem?_eq_some_iff.1 hj).1
        refine and_congr_right fun _ => and_congr_right fun _ => ?_
        simp only [outClosed]
        omega
      closed := by simp [closedBy, inClosed, outClosed, hclosed, hi] }

theorem closeIn_next {n k i : Nat} (hk : k + 1 = n) (hi : i < n) :
    let pc := if i + 1 < n then Pc.wait (i + 1) else .prompt
    outClosed n pc = i + 1 ∧ inClosed n pc = i + 1 ∧ counted n k pc := by
  by_cases hlt : i + 1 < n
  · simp [hlt, outClosed, inClosed, counted, hk]
  · simp only [if_neg hlt, outClosed, inClosed, counted]
    omega

/-- **Then the read end**, of the pipe from the command before. -/
theorem LineInv.closeIn {fds₀ : Table} {s : Sys} (h : LineInv fds₀ s) {i : Nat} {c : Command} (hpc : s.pc = .closeIn i)
    (hc : s.commandArr[i]? = some c) :
    LineInv fds₀ { (if c.inFlag = .prevPipe then closeFd s c.inputPipeHandle else s) with
      pc := if i + 1 < s.commandArr.length then .wait (i + 1) else .prompt } := by
  have hcount := h.count
  rw [hpc] at hcount
  obtain ⟨hout, hin, hcounted⟩ := closeIn_next hcount.1 hcount.2
  generalize (if i + 1 < s.commandArr.length then Pc.wait (i + 1) else .prompt) = pc at hout hin hcounted ⊢
  have hclosed : s.closed = (List.range i).flatMap (closesOf s.firstPipe s.made.length) ++
      if i < s.made.length then [some (.writeEnd (s.firstPipe + i))] else [] := by
    have := h.closed; rw [hpc] at this; simpa [closedBy, inClosed, outClosed] using this
  by_cases hf : c.inFlag = .prevPipe
  · have hpos : 0 < i := (h.flagIn i c hc).1 hf
    obtain ⟨j, rfl⟩ : ∃ j, i = j + 1 := ⟨i - 1, by omega⟩
    have hj : j < s.made.length := by have := hcount.1; have := hcount.2; omega
    have hends : s.made[j]? = some s.made[j] := List.getElem?_eq_getElem hj
    have hheld : Held s s.made[j].1 (.readEnd (s.firstPipe + j)) :=
      ⟨j, _, hends, .inl ⟨rfl, rfl, by rw [hpc]; exact Nat.le_refl _⟩⟩
    rw [if_pos hf, h.handleIn j c hc, hends]
    refine h.closeEnd hheld hcounted (fun x g => ?_) ?_
    · unfold Held
      rw [hpc, hout, hin]
      constructor
      · rintro ⟨⟨l, ends, hl, hcase⟩, hne⟩
        refine ⟨l, ends, hl, ?_⟩
        rcases hcase with ⟨ha, hf, hle⟩ | hcase
        · have hjl : j ≠ l := fun he => hne (by rw [hf, he])
          have hle : j + 1 ≤ l + 1 := hle
          exact .inl ⟨ha, hf, by omega⟩
        · exact .inr hcase
      · rintro ⟨l, ends, hl, hcase⟩
        refine ⟨⟨l, ends, hl, ?_⟩, ?_⟩
        · rcases hcase with ⟨ha, hf, hle⟩ | hcase
          · exact .inl ⟨ha, hf, Nat.le_of_succ_le hle⟩
          · exact .inr hcase
        · rintro rfl
          rcases hcase with ⟨-, hf, hle⟩ | ⟨-, hf, -⟩
          · have hf : s.firstPipe + j = s.firstPipe + l := by injection hf
            omega
          · cases hf
    · unfold closedBy
      rw [hin, hout, hclosed, List.range_succ (n := j + 1), List.flatMap_append]
      simp [closesOf]
  · have hpos : i = 0 := by
      have : ¬ 0 < i := fun hlt => hf ((h.flagIn i c hc).2 hlt)
      omega
    subst hpos
    rw [if_neg hf]
    exact { h with
      count := hcounted
      table := by
        refine h.table.congr fun a f => ?_
        unfold Held
        rw [hpc, hout, hin]
        refine exists_congr fun j => exists_congr fun ends => and_congr_right fun hj => or_congr ?_ Iff.rfl
        refine and_congr_right fun _ => and_congr_right fun _ => ?_
        simp only [inClosed]
        omega
      closed := by
        unfold closedBy
        rw [hin, hout, hclosed]
        simp [closesOf] }

theorem LineInv.shell {fds₀ : Table} {s t : Sys} (h : LineInv fds₀ s) (ht : shellStep s = some t) : LineInv fds₀ t := by
  have hcount := h.count
  unfold shellStep at ht
  cases hpc : s.pc with
  | prompt => rw [hpc] at ht; cases ht
  | parse => rw [hpc] at ht; cases ht
  | fork last =>
    rw [hpc] at ht hcount
    obtain ⟨c, hc, rfl⟩ := Option.map_eq_some_iff.1 ht
    have hpos : 0 < s.commandArr.length := List.length_pos_iff.2 fun hn => by rw [hn] at hc; cases hc
    cases last with
    | true => exact h.move _ _ ⟨hcount, hpos⟩ (by rw [hpc]; rfl) (by rw [hpc]; rfl)
    | false => exact h.move _ _ hcount (by rw [hpc]; rfl) (by rw [hpc]; rfl)
  | wait i =>
    rw [hpc] at ht hcount
    obtain ⟨c, hc, ht⟩ := Option.bind_eq_some_iff.1 ht
    split at ht
    · obtain rfl := Option.some.inj ht
      exact h.move _ _ hcount (by rw [hpc]; rfl) (by rw [hpc]; rfl)
    · cases ht
  | write i =>
    rw [hpc] at ht hcount
    obtain ⟨c, hc, rfl⟩ := Option.map_eq_some_iff.1 ht
    obtain ⟨written, hw⟩ := writeFd_eq s c.outputPipeHandle endBytes
    rw [hw]
    split
    · exact h.move _ _ hcount (by rw [hpc]; rfl) (by rw [hpc]; rfl)
    · exact h.move _ _ hcount (by rw [hpc]; rfl) (by rw [hpc]; rfl)
  | closeOut i =>
    rw [hpc] at ht
    obtain ⟨c, hc, rfl⟩ := Option.map_eq_some_iff.1 ht
    exact h.closeOut hpc hc
  | closeIn i =>
    rw [hpc] at ht
    obtain ⟨c, hc, rfl⟩ := Option.map_eq_some_iff.1 ht
    exact h.closeIn hpc hc

theorem processStep_cases {s t : Sys} {i : Nat} {a : Action} (h : processStep s i a = some t) :
    ∃ c r, s.children[i]? = some c ∧ childStep c a = some r ∧
      t = { s with
        children := s.children.set i r.1
        written := s.written ++ r.2.toList.map fun w => ⟨.command i, w.1, w.2⟩ } := by
  unfold processStep at h
  obtain ⟨c, hc, h⟩ := Option.bind_eq_some_iff.1 h
  obtain ⟨r, hr, rfl⟩ := Option.map_eq_some_iff.1 h
  exact ⟨c, r, hc, hr, rfl⟩

theorem lineInv_step {fds₀ : Table} (s : Sys) (e : Event) (t : Sys) (h : LineInv fds₀ s) (ht : step s e = some t) :
    LineInv fds₀ t := by
  cases e with
  | line => exact h.line ht
  | command args retVal ends => exact h.command ht
  | shell => exact h.shell ht
  | child i a =>
    obtain ⟨c, r, -, -, rfl⟩ := processStep_cases ht
    exact h.move _ _ h.count rfl rfl

theorem lineInv_run {fds₀ : Table} {es : List Event} {s : Sys} (h : run step (init fds₀) es = some s) :
    LineInv fds₀ s :=
  Run.run_inv lineInv_step (lineInv_init fds₀) h

/-! ## What a line does with its pipes -/

/-- The parse loop of the line is over. -/
def parsed : Pc → Bool
  | .parse => false
  | .fork _ => false
  | _ => true

theorem LineInv.made_length {fds₀ : Table} {s : Sys} (h : LineInv fds₀ s) (hpc : parsed s.pc = true) :
    s.made.length = s.commandArr.length - 1 := by
  have hcount := h.count
  cases hp : s.pc with
  | prompt => rw [hp] at hcount; exact hcount
  | parse => rw [hp] at hpc; cases hpc
  | fork last => rw [hp] at hpc; cases hpc
  | wait i => rw [hp] at hcount; have := hcount.1; omega
  | write i => rw [hp] at hcount; have := hcount.1; omega
  | closeOut i => rw [hp] at hcount; have := hcount.1; omega
  | closeIn i => rw [hp] at hcount; have := hcount.1; omega

/-- Two commands next to each other hold the ends of one pipe. -/
theorem LineInv.joined {fds₀ : Table} {s : Sys} (h : LineInv fds₀ s) {i : Nat} {c d : Command}
    (hi : i < s.made.length) (hc : s.commandArr[i]? = some c) (hd : s.commandArr[i + 1]? = some d) :
    ∃ ends, s.made[i]? = some ends ∧ c.outputPipeHandle = some ends.2 ∧ d.inputPipeHandle = some ends.1 := by
  have hends : s.made[i]? = some s.made[i] := List.getElem?_eq_getElem hi
  refine ⟨s.made[i], hends, ?_, ?_⟩
  · rw [h.handleOut i c hc, hends]; rfl
  · rw [h.handleIn i d hd, hends]; rfl

theorem mem_closesOf {first k i : Nat} {f : Option File} :
    f ∈ closesOf first k i ↔ (i < k ∧ f = some (.writeEnd (first + i))) ∨
      (0 < i ∧ f = some (.readEnd (first + (i - 1)))) := by
  unfold closesOf
  rw [List.mem_append]
  by_cases hk : i < k <;> by_cases hpos : 0 < i <;> simp [hk, hpos]

theorem nodup_closesOf (first k i : Nat) : (closesOf first k i).Nodup := by
  unfold closesOf
  by_cases hk : i < k <;> by_cases hpos : 0 < i <;> simp [hk, hpos]

/-- **The closes of a whole line**: each end of each of its pipes, once. -/
theorem LineInv.closed_prompt {fds₀ : Table} {s : Sys} (h : LineInv fds₀ s) (hpc : s.pc = .prompt) :
    s.closed.Nodup ∧ ∀ f, f ∈ s.closed ↔ ∃ i, i + 1 < s.commandArr.length ∧
      (f = some (.readEnd (s.firstPipe + i)) ∨ f = some (.writeEnd (s.firstPipe + i))) := by
  have hk : s.made.length = s.commandArr.length - 1 := h.made_length (by rw [hpc]; rfl)
  have hclosed : s.closed = (List.range s.commandArr.length).flatMap (closesOf s.firstPipe s.made.length) := by
    have := h.closed; rw [hpc] at this; simpa [closedBy, inClosed, outClosed] using this
  rw [hclosed]
  constructor
  · rw [List.nodup_flatMap]
    refine ⟨fun i _ => nodup_closesOf _ _ i, ?_⟩
    refine List.Pairwise.imp_of_mem ?_ List.pairwise_lt_range
    intro i j _ _ hij f hfi hfj
    rcases mem_closesOf.1 hfi with ⟨-, rfl⟩ | ⟨hpos, rfl⟩ <;> rcases mem_closesOf.1 hfj with ⟨-, hf⟩ | ⟨-, hf⟩
    · injection hf with hf; injection hf; omega
    · cases hf
    · cases hf
    · injection hf with hf; injection hf; omega
  · intro f
    rw [List.mem_flatMap]
    constructor
    · rintro ⟨i, hi, hf⟩
      have hi := List.mem_range.1 hi
      rcases mem_closesOf.1 hf with ⟨hlt, rfl⟩ | ⟨hpos, rfl⟩
      · exact ⟨i, by omega, .inr rfl⟩
      · exact ⟨i - 1, by omega, .inl rfl⟩
    · rintro ⟨i, hi, rfl | rfl⟩
      · exact ⟨i + 1, List.mem_range.2 hi, mem_closesOf.2 (.inr ⟨Nat.succ_pos i, rfl⟩)⟩
      · exact ⟨i, List.mem_range.2 (by omega), mem_closesOf.2 (.inl ⟨by omega, rfl⟩)⟩

/-- **The pipes of every line.**  Along every run, once a line of `n` commands is parsed the shell has called `pipe`
`n - 1` times, the `i`-th call giving the output handle of command `i` and the input handle of the next.  At the prompt
after it the shell has closed both ends of each of these pipes once and nothing else, and its table is the one it had
at the first prompt. -/
theorem pipes_balanced (fds₀ : Table) (es : List Event) (s : Sys) (hrun : run step (init fds₀) es = some s) :
    (parsed s.pc = true → s.made.length = s.commandArr.length - 1 ∧
      ∀ i c d, s.commandArr[i]? = some c → s.commandArr[i + 1]? = some d →
        ∃ ends, s.made[i]? = some ends ∧ c.outputPipeHandle = some ends.2 ∧ d.inputPipeHandle = some ends.1) ∧
    (s.pc = .prompt → s.fds = fds₀ ∧ s.closed.Nodup ∧ ∀ f, f ∈ s.closed ↔ ∃ i, i + 1 < s.commandArr.length ∧
      (f = some (.readEnd (s.firstPipe + i)) ∨ f = some (.writeEnd (s.firstPipe + i)))) := by
  have h := lineInv_run hrun
  refine ⟨fun hpc => ?_, fun hpc => ⟨h.fds_prompt hpc, h.closed_prompt hpc⟩⟩
  have hk := h.made_length hpc
  refine ⟨hk, fun i c d hc hd => ?_⟩
  have hlt := (List.getElem?_eq_some_iff.1 hd).1
  exact h.joined (by omega) hc hd

/-- A line of two commands, the first of which writes "hi". -/
def twoCommands : List Event :=
  [.line, .command [str ['a']] 1 (3, 4), .shell, .command [str ['b']] 0 (0, 0), .shell,
    .child 0 .next, .child 0 .next, .child 0 (.write 1 (str ['h', 'i'])), .child 0 .exit,
    .child 1 .next, .child 1 .next,
    .shell, .shell, .shell, .shell, .child 1 .exit, .shell, .shell, .shell, .shell]

theorem pipes_twoCommands :
    ∃ s, run step (init fun _ => none) twoCommands = some s ∧
      (parsed s.pc = true → s.made.length = s.commandArr.length - 1 ∧
        ∀ i c d, s.commandArr[i]? = some c → s.commandArr[i + 1]? = some d →
          ∃ ends, s.made[i]? = some ends ∧ c.outputPipeHandle = some ends.2 ∧ d.inputPipeHandle = some ends.1) ∧
      (s.pc = .prompt → s.fds = (fun _ => none) ∧ s.closed.Nodup ∧
        ∀ f, f ∈ s.closed ↔ ∃ i, i + 1 < s.commandArr.length ∧
          (f = some (.readEnd (s.firstPipe + i)) ∨ f = some (.writeEnd (s.firstPipe + i)))) :=
  ⟨_, rfl, pipes_balanced (fun _ => none) twoCommands _ rfl⟩

end Shell
end Eltex
