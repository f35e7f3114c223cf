import EltexTasks.CString
import EltexTasks.Run
/-!
# ChatClient — the input thread of the chat clients

`input_routine` of msg_queue/source/chat_client.c, which the client of the message queue chat and the client of the
shared-memory chat both start: a whole turn of it, and the thread one call or one access at a time.
-/
namespace Eltex
namespace MsgQueue

/-- One turn of `input_routine`: the line `fgets` finds in `stdin`, its newline overwritten with a NUL.  `none` is the
crash of the store through the NULL that `strchr` returns when the buffer holds no newline before its first NUL (a
line longer than the buffer, a typed NUL) or `fgets` has met the end of the input. -/
def inputRoutine (bufSize : Nat) (stdin : List Byte) : Option CString :=
  match fgets bufSize stdin with
  | none => none
  | some (inputBuf, _) =>
    match strchr (cstr inputBuf) newline with
    | none => none
    | some n => some ((cstr inputBuf).take n)

/-- The string at `buf` once `input_buf`, which begins behind the name and its colon, holds `text`. -/
def frame (name text : CString) : CString := name ++ chr ':' :: text

/-! ## The thread, one step at a time -/

/-- The threads of a client. -/
inductive Thread where
  | input
  | main
deriving DecidableEq, Repr

/-- `input_routine_arg_t`: the string at `input_buf`, who holds the mutex at `p_mutex`, and `flag`, which is `false`
for 0. -/
structure InputRoutineArg where
  inputBuf : CString
  mutex : Option Thread
  bufSize : Nat
  flag : Bool
deriving DecidableEq, Repr

/-- What `input_routine` does next; `crashed` is after the store through NULL, which ends the process. -/
inductive InputPc where
  | lock
  | fgets
  | strchr
  | clear
  | unlock
  | poll
  | crashed
deriving DecidableEq, Repr

/-- The buffer after `fgets`, which leaves it as it is at the end of the input. -/
def fgetsBuf (arg : InputRoutineArg) (stdin : List Byte) : CString :=
  match fgets arg.bufSize stdin with
  | none => arg.inputBuf
  | some (bs, _) => cstr bs

/-- A step of `input_routine`, with `stdin` what there is to read; `none` while the thread waits for the mutex. -/
def inputStep (arg : InputRoutineArg) (stdin : List Byte) : InputPc → Option (InputPc × InputRoutineArg)
  | .lock => if arg.mutex = none then some (.fgets, { arg with mutex := some .input }) else none
  | .fgets => some (.strchr, { arg with inputBuf := fgetsBuf arg stdin })
  | .strchr =>
    match strchr arg.inputBuf newline with
    | none => some (.crashed, arg)
    | some n => some (.clear, { arg with inputBuf := arg.inputBuf.take n })
  | .clear => some (.unlock, { arg with flag := false })
  | .unlock => some (.poll, { arg with mutex := none })
  | .poll => some (if arg.flag then .lock else .poll, arg)
  | .crashed => none

/-- **What a step of the input thread does**, guard and outcome. -/
theorem inputStep_cases {arg arg' : InputRoutineArg} {stdin : List Byte} {pc pc' : InputPc}
    (h : inputStep arg stdin pc = some (pc', arg')) :
    (pc = .lock ∧ arg.mutex = none ∧ pc' = .fgets ∧ arg' = { arg with mutex := some .input }) ∨
    (pc = .fgets ∧ pc' = .strchr ∧ arg' = { arg with inputBuf := fgetsBuf arg stdin }) ∨
    (pc = .strchr ∧ strchr arg.inputBuf newline = none ∧ pc' = .crashed ∧ arg' = arg) ∨
    (pc = .strchr ∧ ∃ n, strchr arg.inputBuf newline = some n ∧ pc' = .clear ∧
      arg' = { arg with inputBuf := arg.inputBuf.take n }) ∨
    (pc = .clear ∧ pc' = .unlock ∧ arg' = { arg with flag := false }) ∨
    (pc = .unlock ∧ pc' = .poll ∧ arg' = { arg with mutex := none }) ∨
    (pc = .poll ∧ arg.flag = true ∧ pc' = .lock ∧ arg' = arg) ∨
    (pc = .poll ∧ arg.flag = false ∧ pc' = .poll ∧ arg' = arg) := by
  cases pc with
  | lock =>
    simp only [inputStep] at h
    split at h
    · rename_i hm; cases h; exact .inl ⟨rfl, hm, rfl, rfl⟩
    · cases h
  | fgets => cases h; exact .inr (.inl ⟨rfl, rfl, rfl⟩)
  | strchr =>
    simp only [inputStep] at h
    split at h
    · rename_i hn; cases h; exact .inr (.inr (.inl ⟨rfl, hn, rfl, rfl⟩))
    · rename_i n hn; cases h; exact .inr (.inr (.inr (.inl ⟨rfl, n, hn, rfl, rfl⟩)))
  | clear => cases h; exact .inr (.inr (.inr (.inr (.inl ⟨rfl, rfl, rfl⟩))))
  | unlock => cases h; exact .inr (.inr (.inr (.inr (.inr (.inl ⟨rfl, rfl, rfl⟩)))))
  | poll =>
    cases h
    cases hf : arg.flag with
    | true => exact .inr (.inr (.inr (.inr (.inr (.inr (.inl ⟨rfl, rfl, rfl, rfl⟩))))))
    | false => exact .inr (.inr (.inr (.inr (.inr (.inr (.inr ⟨rfl, rfl, rfl, rfl⟩))))))
  | crashed => cases h

/-- **A turn is what five uninterrupted steps do**, from a buffer that holds no newline. -/
theorem run_inputStep (arg : InputRoutineArg) (stdin : List Byte) (hm : arg.mutex = none)
    (hnl : newline ∉ arg.inputBuf) :
    Run.run (fun (s : InputPc × InputRoutineArg) keys => inputStep s.2 keys s.1) (.lock, arg)
        (List.replicate 5 stdin) =
      (inputRoutine arg.bufSize stdin).map fun line => (.poll, { arg with inputBuf := line, flag := false }) := by
  have hnone : strchr arg.inputBuf newline = none := strchr_eq_none hnl
  simp only [List.replicate, Run.run_cons, Run.run_nil, inputStep, hm, if_true, Option.bind_some]
  unfold inputRoutine fgetsBuf
  cases hf : fgets arg.bufSize stdin with
  | none => simp only [hnone]; rfl
  | some r =>
    simp only
    cases hs : strchr (cstr r.1) newline with
    | none => rfl
    | some n => rfl

end MsgQueue
end Eltex
