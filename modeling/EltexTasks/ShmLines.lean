import EltexTasks.ShmSteps
/-!
# ShmLines — the hand-over of a typed line in the shared-memory chat

The processes of the shared-memory chat with both threads of a client: its input thread step by step, its main loop
and the server section by section.  A line is completed when `input_routine` sets `flag` to 0; it is lost when the main
loop sets `flag` back to 1 without having copied it.
-/
namespace Eltex
namespace ShmLines

open MsgQueue (InputRoutineArg InputPc inputStep inputStep_cases)
open Shm (ShmChat Client messageMax serverSection clientJoin clientSection clientWrites clientWrite clientRead)

/-- The main thread of a client: before its join section, in its loop, out of it. -/
inductive MainPc where
  | joining
  | looping
  | over
deriving DecidableEq, Repr

/-- A client process.  The lines its input thread has completed and the lines its main loop has copied into `msg_buf`
are kept beside the state for the statements about them. -/
structure Proc where
  main : MainPc
  clientId : Nat
  arg : InputRoutineArg
  input : InputPc
  completed : List CString
  copied : List CString
deriving DecidableEq, Repr

/-- A client that has started its input thread; `raw` is the string in the memory `malloc` gave it. -/
def startProc (raw : CString) : Proc :=
  { main := .joining, clientId := 0, arg := ⟨raw, none, messageMax, true⟩, input := .lock,
    completed := [], copied := [] }

/-- What a section reads of the process. -/
def Proc.client (p : Proc) : Client :=
  { clientId := p.clientId, flag := p.arg.flag, inputBuf := p.arg.inputBuf, running := true }

structure Sys where
  shm : ShmChat
  server : Bool
  procs : List Proc
deriving DecidableEq, Repr

def init : Sys := { shm := Shm.shmInit, server := true, procs := [] }

/-- A section of the server; a client is started; its join section; a section of its loop; a step of its input thread,
with `stdin` what there is to read. -/
inductive Event where
  | server
  | start (raw : CString)
  | join (i : Nat)
  | loop (i : Nat)
  | input (i : Nat) (stdin : List Byte)
deriving DecidableEq, Repr

def serverStep (s : Sys) : Option Sys :=
  if s.server then
    some { s with shm := (serverSection s.shm).1, server := (serverSection s.shm).2 == .post }
  else none

def joinSection (m : ShmChat) (p : Proc) : Option (ShmChat × Proc) :=
  if p.main = .joining ∧ p.input ≠ .crashed then
    some ((clientJoin m).1, { p with main := .looping, clientId := (clientJoin m).2 })
  else none

def loopSection (m : ShmChat) (p : Proc) : Option (ShmChat × Proc) :=
  if p.main = .looping ∧ p.input ≠ .crashed then
    match clientSection m p.client with
    | none => none
    | some (m', c, _, after) =>
      some (m', { p with
        main := if after = .post then .looping else .over
        arg := { p.arg with flag := c.flag }
        copied := if clientWrites m p.client then p.copied ++ [p.arg.inputBuf] else p.copied })
  else none

/-- The input thread touches no shared memory.  It goes on until the process ends, also once the main thread is out of
its loop. -/
def inputMove (stdin : List Byte) (m : ShmChat) (p : Proc) : Option (ShmChat × Proc) :=
  match inputStep p.arg stdin p.input with
  | none => none
  | some (pc, arg) =>
    some (m, { p with
      input := pc
      arg := arg
      completed := if p.input = .clear then p.completed ++ [p.arg.inputBuf] else p.completed })

/-- Client `i` does `f`. -/
def onProc (s : Sys) (i : Nat) (f : ShmChat → Proc → Option (ShmChat × Proc)) : Option Sys :=
  match s.procs[i]? with
  | none => none
  | some p => (f s.shm p).map fun r => { s with shm := r.1, procs := s.procs.set i r.2 }

def step (s : Sys) : Event → Option Sys
  | .server => serverStep s
  | .start raw => some { s with procs := s.procs ++ [startProc raw] }
  | .join i => onProc s i joinSection
  | .loop i => onProc s i loopSection
  | .input i stdin => onProc s i (inputMove stdin)

theorem onProc_cases {s t : Sys} {i : Nat} {f : ShmChat → Proc → Option (ShmChat × Proc)}
    (h : onProc s i f = some t) :
    ∃ p m p', s.procs[i]? = some p ∧ f s.shm p = some (m, p') ∧
      t = { s with shm := m, procs := s.procs.set i p' } := by
  unfold onProc at h
  cases hp : s.procs[i]? with
  | none => rw [hp] at h; cases h
  | some p =>
    rw [hp] at h
    obtain ⟨⟨m, p'⟩, hf, rfl⟩ := Option.map_eq_some_iff.1 h
    exact ⟨p, m, p', rfl, hf, rfl⟩

/-! ## What a section of the loop does to the hand-over -/

/-- The completed lines have been copied once each, in order, but for the one that waits while `flag` is 0. -/
def Proc.Kept (p : Proc) : Prop :=
  p.completed = p.copied ++ if p.arg.flag then [] else [p.arg.inputBuf]

/-- **No line is lost**: once `flag` is back at 1 all completed lines have been copied. -/
def LinesKept (s : Sys) : Prop := ∀ p ∈ s.procs, p.Kept

/-- The line client `i` hands over, if this section finds one, does not meet a pending message. -/
def HandOverFree (s : Sys) : Event → Prop
  | .loop i => ∀ p ∈ s.procs[i]?, p.arg.flag = false → s.shm.messageNew = false
  | _ => True

instance (p : Proc) : Decidable p.Kept := inferInstanceAs (Decidable (_ = _))

instance (s : Sys) : Decidable (LinesKept s) := inferInstanceAs (Decidable (∀ p ∈ s.procs, p.Kept))

instance (s : Sys) : ∀ e : Event, Decidable (HandOverFree s e)
  | .loop i => inferInstanceAs (Decidable (∀ p ∈ s.procs[i]?, p.arg.flag = false → s.shm.messageNew = false))
  | .server => isTrue trivial
  | .start _ => isTrue trivial
  | .join _ => isTrue trivial
  | .input _ _ => isTrue trivial

/-- `flag` is 1 from the moment the input thread leaves its poll until it completes the next line. -/
structure Proc.Inv (p : Proc) : Prop where
  kept : p.Kept
  early : p.input = .lock ∨ p.input = .fgets ∨ p.input = .strchr ∨ p.input = .clear → p.arg.flag = true

theorem clientWrite_flag (m : ShmChat) (c : Client) : (clientWrite m c).2.flag = true := by
  unfold clientWrite
  cases hf : c.flag with
  | true => exact hf
  | false => cases m.messageNew <;> rfl

/-- **After a section `flag` is 1**, whether or not the line it found has been copied. -/
theorem loopSection_cases {m m' : ShmChat} {p p' : Proc} (h : loopSection m p = some (m', p')) :
    p'.arg = { p.arg with flag := true } ∧ p'.input = p.input ∧ p'.completed = p.completed ∧
      p'.copied = if clientWrites m p.client then p.copied ++ [p.arg.inputBuf] else p.copied := by
  unfold loopSection at h
  split at h
  case isFalse => cases h
  case isTrue =>
  cases hs : clientSection m p.client with
  | none => rw [hs] at h; cases h
  | some r =>
    obtain ⟨n, c, took, after⟩ := r
    have hc : c = (clientWrite m p.client).2 := by
      unfold clientSection at hs
      simp only at hs
      cases hr : clientRead (clientWrite m p.client).1 (clientWrite m p.client).2.clientId with
      | none => rw [hr] at hs; cases hs
      | some q =>
        obtain ⟨n', took'⟩ := q
        rw [hr] at hs
        cases took' with
        | none => cases hs; rfl
        | some text => cases hs; rfl
    rw [hs] at h
    simp only [Option.some.injEq, Prod.mk.injEq] at h
    obtain ⟨-, rfl⟩ := h
    exact ⟨by rw [hc, clientWrite_flag], rfl, rfl, rfl⟩

theorem clientWrites_client (m : ShmChat) (p : Proc) :
    clientWrites m p.client = true ↔ p.arg.flag = false ∧ m.messageNew = false := by
  simp [clientWrites, Proc.client]

theorem Proc.Inv.loopSection {m m' : ShmChat} {p p' : Proc} (hp : p.Inv)
    (hfree : p.arg.flag = false → m.messageNew = false) (h : loopSection m p = some (m', p')) : p'.Inv := by
  obtain ⟨harg, hinput, hcompleted, hcopied⟩ := loopSection_cases h
  refine ⟨?_, fun _ => by rw [harg]⟩
  have hkept := hp.kept
  unfold Proc.Kept at hkept ⊢
  rw [harg, hcompleted, hcopied, hkept]
  cases hf : p.arg.flag with
  | true =>
    have hno : ¬ clientWrites m p.client = true := fun hw => by
      rw [clientWrites_client, hf] at hw; exact absurd hw.1 (by decide)
    rw [if_neg hno]
  | false =>
    rw [if_pos ((clientWrites_client m p).2 ⟨hf, hfree hf⟩)]
    simp

/-- **A line that meets a pending message is lost.** -/
theorem not_kept_of_pending {m m' : ShmChat} {p p' : Proc} (hp : p.Inv) (hf : p.arg.flag = false)
    (hnew : m.messageNew ≠ false) (h : loopSection m p = some (m', p')) : ¬ p'.Kept := by
  obtain ⟨harg, -, hcompleted, hcopied⟩ := loopSection_cases h
  have hno : ¬ clientWrites m p.client = true := fun hw => hnew ((clientWrites_client m p).1 hw).2
  have hkept := hp.kept
  unfold Proc.Kept at hkept ⊢
  rw [harg, hcompleted, hcopied, if_neg hno, hkept, hf]
  simp

theorem Proc.Inv.inputMove {m m' : ShmChat} {p p' : Proc} {stdin : List Byte} (hp : p.Inv)
    (h : inputMove stdin m p = some (m', p')) : p'.Inv := by
  obtain ⟨hkept, hearly⟩ := hp
  unfold ShmLines.inputMove at h
  cases hs : inputStep p.arg stdin p.input with
  | none => rw [hs] at h; cases h
  | some r =>
    obtain ⟨pc, arg⟩ := r
    rw [hs] at h
    cases h
    unfold Proc.Kept at hkept
    rcases inputStep_cases hs with ⟨hpc, -, rfl, rfl⟩ | ⟨hpc, rfl, rfl⟩ | ⟨hpc, -, rfl, rfl⟩ | ⟨hpc, n, -, rfl, rfl⟩ |
      ⟨hpc, rfl, rfl⟩ | ⟨hpc, rfl, rfl⟩ | ⟨hpc, hf, rfl, rfl⟩ | ⟨hpc, hf, rfl, rfl⟩
    · have hf := hearly (.inl hpc)
      exact ⟨by simpa [Proc.Kept, hpc, hf] using hkept, fun _ => hf⟩
    · have hf := hearly (.inr (.inl hpc))
      exact ⟨by simpa [Proc.Kept, hpc, hf] using hkept, fun _ => hf⟩
    · have hf := hearly (.inr (.inr (.inl hpc)))
      exact ⟨by simpa [Proc.Kept, hpc, hf] using hkept, fun _ => hf⟩
    · have hf := hearly (.inr (.inr (.inl hpc)))
      exact ⟨by simpa [Proc.Kept, hpc, hf] using hkept, fun _ => hf⟩
    · -- the line is completed: it is the one that waits
      have hf := hearly (.inr (.inr (.inr hpc)))
      exact ⟨by simp [Proc.Kept, hpc, hkept, hf], fun h => by simp at h⟩
    · exact ⟨by simpa [Proc.Kept, hpc] using hkept, fun h => by simp at h⟩
    · exact ⟨by simpa [Proc.Kept, hpc] using hkept, fun _ => hf⟩
    · exact ⟨by simpa [Proc.Kept, hpc] using hkept, fun h => by simp at h⟩

/-! ## Runs -/

def Inv (s : Sys) : Prop := ∀ p ∈ s.procs, p.Inv

theorem Inv.set {s : Sys} {m : ShmChat} {i : Nat} {p : Proc} (hs : Inv s) (hp : p.Inv) :
    Inv { s with shm := m, procs := s.procs.set i p } := by
  intro q hq
  rcases List.mem_or_eq_of_mem_set hq with h | rfl
  · exact hs q h
  · exact hp

theorem inv_step (s : Sys) (e : Event) (t : Sys) (hs : Inv s) (hok : HandOverFree s e) (h : step s e = some t) :
    Inv t := by
  cases e with
  | server =>
    simp only [step, serverStep] at h
    split at h
    · cases h; exact hs
    · cases h
  | start raw =>
    obtain rfl := Option.some.inj h
    intro p hp
    rcases List.mem_append.1 hp with hp | hp
    · exact hs p hp
    · obtain rfl := List.mem_singleton.1 hp
      exact ⟨rfl, fun _ => rfl⟩
  | join i =>
    obtain ⟨p, m, p', hp, hf, rfl⟩ := onProc_cases h
    have hpi := hs p (List.mem_of_getElem? hp)
    unfold joinSection at hf
    split at hf
    · cases hf
      exact hs.set ⟨hpi.kept, hpi.early⟩
    · cases hf
  | loop i =>
    obtain ⟨p, m, p', hp, hf, rfl⟩ := onProc_cases h
    exact hs.set ((hs p (List.mem_of_getElem? hp)).loopSection (hok p hp) hf)
  | input i stdin =>
    obtain ⟨p, m, p', hp, hf, rfl⟩ := onProc_cases h
    exact hs.set ((hs p (List.mem_of_getElem? hp)).inputMove hf)

theorem not_linesKept_step (s : Sys) (e : Event) (t : Sys) (hs : Inv s) (hok : ¬ HandOverFree s e)
    (h : step s e = some t) : ¬ LinesKept t := by
  cases e with
  | loop i =>
    obtain ⟨p, m, p', hp, hf, rfl⟩ := onProc_cases h
    have hpend : p.arg.flag = false ∧ s.shm.messageNew ≠ false := by
      refine Classical.byContradiction fun hn => hok fun q hq hflag => Classical.byContradiction fun hnew => ?_
      obtain rfl : p = q := Option.some.inj (hp.symm.trans hq)
      exact hn ⟨hflag, hnew⟩
    intro hkept
    refine not_kept_of_pending (hs p (List.mem_of_getElem? hp)) hpend.1 hpend.2 hf (hkept p' ?_)
    exact List.mem_set (List.getElem?_eq_some_iff.1 hp).1 p'
  | server => exact absurd trivial hok
  | start raw => exact absurd trivial hok
  | join i => exact absurd trivial hok
  | input i stdin => exact absurd trivial hok

/-- **Exactly when no typed line is lost**: along a run every line is kept if and only if no section of a client's loop
finds a completed line while a message is pending. -/
theorem linesKept_iff {es : List Event} {u : Sys} (hrun : Run.run step init es = some u) :
    Run.Always step LinesKept init es ↔ Run.Steps step HandOverFree init es :=
  Run.always_iff_steps Inv inv_step (fun _ hs p hp => (hs p hp).kept) not_linesKept_step
    (fun _ hp => absurd hp List.not_mem_nil) hrun

/-- A user types a line: a whole turn of the input thread of client `i`. -/
def typing (i : Nat) (line : CString) : List Event := List.replicate 5 (.input i (line ++ [newline]))

/-- Everybody has read the join request before the line is typed. -/
theorem linesKept_quiet :
    Run.Always step LinesKept init
      ([.start [], .join 0, .server, .loop 0, .server] ++ typing 0 (str ['h', 'i']) ++ [.loop 0]) :=
  (linesKept_iff rfl).2 (by decide)

/-- The line is typed while the client's own join request is pending: its section sets `flag` and copies nothing. -/
theorem line_lost :
    ∃ u, Run.run step init ([.start [], .join 0] ++ typing 0 (str ['h', 'i']) ++ [.loop 0]) = some u ∧
      ¬ Run.Always step LinesKept init ([.start [], .join 0] ++ typing 0 (str ['h', 'i']) ++ [.loop 0]) := by
  refine ⟨_, rfl, fun hall => ?_⟩
  have hkept := hall _ _ (List.prefix_refl _) rfl
  exact absurd hkept (by decide)

end ShmLines
end Eltex
