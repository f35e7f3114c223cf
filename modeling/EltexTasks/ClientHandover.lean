import EltexTasks.ChatClient
/-!
# ClientHandover — the two threads of the queue chat client

The main loop of `chat_client` (msg_queue/source/chat_client.c) beside its input thread.  Every lock, trylock and
unlock, every access to `flag`, the `fgets` and each `mq_send` is a step, and the two threads take steps in any order.
-/
namespace Eltex
namespace Handover

open MsgQueue (frame InputRoutineArg InputPc Thread inputStep inputStep_cases fgetsBuf)

/-- What the main loop does next; `left` is behind the loop, `exited` after `exit(1)`. -/
inductive MainPc where
  | test
  | trylock
  | check
  | sendClose
  | sendText
  | setFlag
  | unlock
  | receive
  | left
  | exited
deriving DecidableEq, Repr

/-- A client past its `pthread_create`.  `stdin` is what the user has typed and `fgets` has not taken, `sent` the
messages handed to `mq_send` by the loop, each with its priority. -/
structure Client where
  name : CString
  arg : InputRoutineArg
  main : MainPc
  input : InputPc
  stdin : List Byte
  sent : List (Nat × CString)
deriving DecidableEq, Repr

/-- `raw` is the string in the memory at `input_buf` before anything is typed. -/
def start (name : CString) (bufSize : Nat) (raw : CString) (stdin : List Byte) : Client :=
  { name := name, arg := ⟨raw, none, bufSize, true⟩, main := .test, input := .lock, stdin := stdin, sent := [] }

/-- A step of the main loop.  `sendOk` is the result of the text's `mq_send`, `closed` whether the receive loop meets
a close; the result of the close request's `mq_send` is not looked at. -/
def mainStep (c : Client) (sendOk closed : Bool) : Option Client :=
  match c.main with
  | .test => some { c with main := if c.arg.flag then .receive else .trylock }
  | .trylock =>
    if c.arg.mutex = none then some { c with arg := { c.arg with mutex := some .main }, main := .check }
    else some { c with main := .receive }
  | .check => some { c with main := if c.arg.inputBuf.head? = some (chr '/') then .sendClose else .sendText }
  | .sendClose => some { c with sent := c.sent ++ [(3, [])], main := .setFlag }
  | .sendText =>
    some { c with
      sent := c.sent ++ [(1, frame c.name c.arg.inputBuf)]
      main := if sendOk then .setFlag else .exited }
  | .setFlag => some { c with arg := { c.arg with flag := true }, main := .unlock }
  | .unlock => some { c with arg := { c.arg with mutex := none }, main := .receive }
  | .receive => some { c with main := if closed then .left else .test }
  | .left => none
  | .exited => none

/-- What `fgets` leaves unread. -/
def unread (size : Nat) (stdin : List Byte) : List Byte :=
  match fgets size stdin with
  | none => stdin
  | some (_, rest) => rest

/-- A step of the input thread; `fgets` waits until something is typed. -/
def inputMove (c : Client) : Option Client :=
  if c.input = .fgets ∧ c.stdin = [] then none
  else
    (inputStep c.arg c.stdin c.input).map fun r =>
      { c with
        input := r.1
        arg := r.2
        stdin := if c.input = .fgets then unread c.arg.bufSize c.stdin else c.stdin }

inductive Event where
  | input
  | main (sendOk closed : Bool)
deriving DecidableEq, Repr

/-- A step of one of the threads; after a crash or an `exit` there is none. -/
def step (c : Client) (e : Event) : Option Client :=
  if c.input = .crashed ∨ c.main = .exited then none
  else
    match e with
    | .input => inputMove c
    | .main sendOk closed => mainStep c sendOk closed

/-! ## What is typed and what is asked of the server -/

/-- A typed line that fits in the buffer, its newline and the NUL included. -/
def Fits (bufSize : Nat) (line : List Byte) : Prop := newline ∉ line ∧ line.length + 2 ≤ bufSize

instance (bufSize : Nat) (line : List Byte) : Decidable (Fits bufSize line) := inferInstanceAs (Decidable (_ ∧ _))

/-- The bytes of the typed lines. -/
def keys (lines : List (List Byte)) : List Byte := lines.flatMap (· ++ [newline])

/-- What a line becomes: a close request if it begins with '/', else a text under the client's name. -/
def request (name line : CString) : Nat × CString :=
  if line.head? = some (chr '/') then (3, []) else (1, frame name line)

theorem fgets_keys {size : Nat} {line : List Byte} {rest : List (List Byte)} (h : Fits size line) :
    fgets size (keys (line :: rest)) = some (line ++ [newline], keys rest) := by
  obtain ⟨hnl, hlen⟩ := h
  have hk : keys (line :: rest) = line ++ newline :: keys rest := by
    unfold keys; rw [List.flatMap_cons, List.append_assoc]; rfl
  rw [hk]
  exact fgets_line hnl (by omega)

theorem keys_eq_nil {lines : List (List Byte)} (h : keys lines ≠ []) : ∃ line rest, lines = line :: rest := by
  cases lines with
  | nil => exact absurd rfl h
  | cons line rest => exact ⟨line, rest, rfl⟩

/-- The newline of a typed line is found, and the line is what stands before it; a line with a NUL in it ends there. -/
theorem strchr_line {line : List Byte} {n : Nat} (hnl : newline ∉ line)
    (h : strchr (cstr (line ++ [newline])) newline = some n) : (cstr (line ++ [newline])).take n = line := by
  by_cases h0 : 0 ∈ line
  · have hcut : cstr (line ++ [newline]) = cstr line := by
      obtain ⟨a, b, rfl⟩ := List.append_of_mem h0
      unfold cstr
      rw [List.append_assoc, List.cons_append, List.takeWhile_append, List.takeWhile_append]
      rfl
    have hno : newline ∉ cstr line := fun hm => hnl ((List.takeWhile_sublist _).subset hm)
    rw [hcut, strchr_eq_none hno] at h
    cases h
  · have hself : cstr (line ++ [newline]) = line ++ [newline] := by
      refine cstr_eq_self fun hm => ?_
      rcases List.mem_append.1 hm with hm | hm
      · exact h0 hm
      · exact absurd (List.mem_singleton.1 hm) (by decide)
    rw [hself, strchr_append hnl] at h
    rw [hself, ← Option.some.inj h, List.take_left]

/-! ## The invariant -/

/-- The input thread is between its lock and its unlock. -/
def inputHolds : InputPc → Bool
  | .fgets | .strchr | .clear | .unlock | .crashed => true
  | .lock | .poll => false

/-- The main loop is between a trylock that succeeded and its unlock. -/
def mainHolds : MainPc → Bool
  | .check | .sendClose | .sendText | .setFlag | .unlock | .exited => true
  | .test | .trylock | .receive | .left => false

/-- The main loop has seen `flag` at 0 and not yet set it. -/
def mainSees : MainPc → Bool
  | .trylock | .check | .sendClose | .sendText | .setFlag => true
  | .test | .unlock | .receive | .left | .exited => false

/-- The line in the buffer, if there was one, is in the server's queue. -/
def Client.handed (c : Client) : Bool := c.arg.flag || c.main == .setFlag || c.main == .exited

/-- `waiting` is the line that has been typed and not handed over. -/
def Client.Buffers (c : Client) (waiting : Option (List Byte)) : Prop :=
  match c.input with
  | .lock => waiting = none
  | .fgets => waiting = none
  | .strchr => ∃ line, waiting = some line ∧ c.arg.inputBuf = cstr (line ++ [newline])
  | .clear => waiting = some c.arg.inputBuf
  | .unlock => waiting = if c.handed then none else some c.arg.inputBuf
  | .poll => waiting = if c.handed then none else some c.arg.inputBuf
  | .crashed => True

/-- **The hand-over**: `lines` are the lines handed to the server, the one that waits, and those still to be read. -/
structure Inv (name : CString) (bufSize : Nat) (lines done : List (List Byte)) (waiting : Option (List Byte))
    (rest : List (List Byte)) (c : Client) : Prop where
  nameEq : c.name = name
  sizeEq : c.arg.bufSize = bufSize
  lines : lines = done ++ waiting.toList ++ rest
  stdin : c.stdin = keys rest
  sent : c.sent = done.map (request name)
  holder : c.arg.mutex = if inputHolds c.input then some .input else if mainHolds c.main then some .main else none
  apart : inputHolds c.input = true → mainHolds c.main = false
  early : c.input = .lock ∨ c.input = .fgets ∨ c.input = .strchr ∨ c.input = .clear → c.arg.flag = true
  sees : mainSees c.main = true → c.arg.flag = false
  buffers : c.Buffers waiting
  branch : (c.main = .sendClose → c.arg.inputBuf.head? = some (chr '/')) ∧
    (c.main = .sendText → c.arg.inputBuf.head? ≠ some (chr '/'))

/-! ## The steps -/

variable {name : CString} {bufSize : Nat} {lines done rest : List (List Byte)} {waiting : Option (List Byte)}
  {c c' : Client}

/-- Some line waits, or none, and every line is where the invariant says. -/
def Reached (name : CString) (bufSize : Nat) (lines : List (List Byte)) (c : Client) : Prop :=
  ∃ done waiting rest, Inv name bufSize lines done waiting rest c

theorem Inv.not_mainHolds (h : Inv name bufSize lines done waiting rest c) (hm : c.arg.mutex = none) :
    mainHolds c.main = false ∧ inputHolds c.input = false := by
  have hh := h.holder
  rw [hm] at hh
  cases hi : inputHolds c.input with
  | true => rw [hi] at hh; cases hh
  | false =>
    cases hg : mainHolds c.main with
    | true => rw [hi, hg] at hh; cases hh
    | false => exact ⟨rfl, rfl⟩

/-- While the main loop holds the mutex with `flag` at 0, the input thread is at its poll. -/
theorem Inv.polls (h : Inv name bufSize lines done waiting rest c) (hm : mainHolds c.main = true)
    (hf : c.arg.flag = false) : c.input = .poll := by
  have hi : inputHolds c.input = false := by
    cases hi : inputHolds c.input with
    | false => rfl
    | true => rw [h.apart hi] at hm; cases hm
  cases hpc : c.input with
  | poll => rfl
  | lock => rw [h.early (.inl hpc)] at hf; cases hf
  | fgets => rw [hpc] at hi; cases hi
  | strchr => rw [hpc] at hi; cases hi
  | clear => rw [hpc] at hi; cases hi
  | unlock => rw [hpc] at hi; cases hi
  | crashed => rw [hpc] at hi; cases hi

theorem branch_of_not_holds {main : MainPc} (h : mainHolds main = false) (buf : CString) :
    (main = .sendClose → buf.head? = some (chr '/')) ∧ (main = .sendText → buf.head? ≠ some (chr '/')) :=
  ⟨fun he => absurd h (by rw [he]; decide), fun he => absurd h (by rw [he]; decide)⟩

/-- The input thread goes on inside its section: it keeps the mutex, and the main loop is outside its own. -/
theorem Inv.inside {input' : InputPc} {arg' : InputRoutineArg} {stdin' : List Byte} {waiting' : Option (List Byte)}
    {rest' : List (List Byte)} (h : Inv name bufSize lines done waiting rest c) (hin : inputHolds c.input = true)
    (hin' : inputHolds input' = true) (hmutex : arg'.mutex = c.arg.mutex) (hsize : arg'.bufSize = c.arg.bufSize)
    (hlines : lines = done ++ waiting'.toList ++ rest') (hstdin : stdin' = keys rest')
    (hearly : input' = .lock ∨ input' = .fgets ∨ input' = .strchr ∨ input' = .clear → arg'.flag = true)
    (hsees : mainSees c.main = true → arg'.flag = false)
    (hbuffers : Client.Buffers { c with input := input', arg := arg', stdin := stdin' } waiting') :
    Inv name bufSize lines done waiting' rest' { c with input := input', arg := arg', stdin := stdin' } where
  nameEq := h.nameEq
  sizeEq := hsize.trans h.sizeEq
  lines := hlines
  stdin := hstdin
  sent := h.sent
  holder := by rw [hmutex, h.holder, if_pos hin, if_pos hin']
  apart := fun _ => h.apart hin
  early := hearly
  sees := hsees
  buffers := hbuffers
  branch := branch_of_not_holds (h.apart hin) _

theorem Inv.inputMove (hfit : ∀ line ∈ lines, Fits bufSize line) (h : Inv name bufSize lines done waiting rest c)
    (hs : inputMove c = some c') (hmain : c.main ≠ .exited) : Reached name bufSize lines c' := by
  unfold Handover.inputMove at hs
  split at hs
  · cases hs
  rename_i hwait
  obtain ⟨⟨pc, arg⟩, hr, rfl⟩ := Option.map_eq_some_iff.1 hs
  have hb := h.buffers
  unfold Client.Buffers at hb
  rcases inputStep_cases hr with ⟨hpc, hm, rfl, rfl⟩ | ⟨hpc, rfl, rfl⟩ | ⟨hpc, hn, rfl, rfl⟩ | ⟨hpc, n, hn, rfl, rfl⟩ |
    ⟨hpc, rfl, rfl⟩ | ⟨hpc, rfl, rfl⟩ | ⟨hpc, hf, rfl, rfl⟩ | ⟨hpc, hf, rfl, rfl⟩
  · rw [hpc] at hb
    obtain ⟨hnot, -⟩ := h.not_mainHolds hm
    exact ⟨done, waiting, rest, { h with
      stdin := by simpa [hpc] using h.stdin
      holder := rfl, apart := fun _ => hnot, early := fun _ => h.early (.inl hpc), buffers := hb }⟩
  · -- the next line is read
    rw [hpc] at hb
    have hkeys : keys rest ≠ [] := fun he => hwait ⟨hpc, h.stdin.trans he⟩
    obtain ⟨line, rest, rfl⟩ := keys_eq_nil hkeys
    have hline : Fits c.arg.bufSize line := by
      rw [h.sizeEq]; refine hfit line ?_; rw [h.lines]; simp
    have hf : fgets c.arg.bufSize c.stdin = some (line ++ [newline], keys rest) := by
      rw [h.stdin]; exact fgets_keys hline
    refine ⟨done, some line, rest, h.inside (by rw [hpc]; rfl) rfl rfl rfl ?_ ?_ ?_ h.sees ?_⟩
    · rw [h.lines, hb]; simp
    · simp [hpc, unread, hf]
    · exact fun _ => h.early (.inr (.inl hpc))
    · exact ⟨line, rfl, by simp [fgetsBuf, hf]⟩
  · refine ⟨done, waiting, rest, h.inside (by rw [hpc]; rfl) rfl rfl rfl h.lines ?_ ?_ h.sees trivial⟩
    · simpa [hpc] using h.stdin
    · intro he
      simp at he
  · rw [hpc] at hb
    obtain ⟨line, rfl, hbuf⟩ := hb
    have hline : newline ∉ line := (hfit line (by rw [h.lines]; simp)).1
    rw [hbuf] at hn
    refine ⟨done, some line, rest, h.inside (by rw [hpc]; rfl) rfl rfl rfl h.lines ?_ ?_ h.sees ?_⟩
    · simpa [hpc] using h.stdin
    · exact fun _ => h.early (.inr (.inr (.inl hpc)))
    · simp [Client.Buffers, hbuf, strchr_line hline hn]
  · have hset : c.main ≠ .setFlag := by
      intro he
      have hnot := h.apart (by rw [hpc]; rfl)
      rw [he] at hnot
      cases hnot
    rw [hpc] at hb
    refine ⟨done, waiting, rest, h.inside (by rw [hpc]; rfl) rfl rfl rfl h.lines ?_ ?_ (fun _ => rfl) ?_⟩
    · simpa [hpc] using h.stdin
    · intro he
      simp at he
    · simp [Client.Buffers, Client.handed, hb, hset, hmain]
  · have hnot := h.apart (by rw [hpc]; rfl)
    rw [hpc] at hb
    exact ⟨done, waiting, rest, { h with
      stdin := by simpa [hpc] using h.stdin
      holder := by simp [inputHolds, hnot]
      apart := fun he => by cases he
      early := fun he => by simp at he
      buffers := hb }⟩
  · rw [hpc] at hb
    have hholds := h.holder
    rw [hpc] at hholds
    exact ⟨done, waiting, rest, { h with
      stdin := by simpa [hpc] using h.stdin
      holder := hholds
      apart := fun he => by cases he
      early := fun _ => hf
      buffers := by simpa [Client.Buffers, Client.handed, hf] using hb }⟩
  · exact ⟨done, waiting, rest, { h with
      stdin := by simpa [hpc] using h.stdin
      holder := by rw [← hpc]; exact h.holder
      apart := fun he => by cases he
      early := fun he => by simp at he
      buffers := by simpa [Client.Buffers, hpc, Client.handed] using hb }⟩

/-- The main loop goes on to `main'`, its hold on the mutex and on the line unchanged. -/
theorem Inv.goto {main' : MainPc} (h : Inv name bufSize lines done waiting rest c)
    (hholds : mainHolds main' = mainHolds c.main)
    (hdone : (main' == .setFlag || main' == .exited) = (c.main == .setFlag || c.main == .exited))
    (hsees : mainSees main' = true → c.arg.flag = false)
    (hbranch : (main' = .sendClose → c.arg.inputBuf.head? = some (chr '/')) ∧
      (main' = .sendText → c.arg.inputBuf.head? ≠ some (chr '/'))) :
    Inv name bufSize lines done waiting rest { c with main := main' } := by
  have hhanded : ({ c with main := main' } : Client).handed = c.handed := by
    unfold Client.handed; rw [Bool.or_assoc, hdone, Bool.or_assoc]
  exact { h with
    holder := by rw [h.holder, hholds]
    apart := fun hi => hholds.trans (h.apart hi)
    sees := hsees
    buffers := by have hb := h.buffers; unfold Client.Buffers at hb ⊢; rw [hhanded]; exact hb
    branch := hbranch }

/-- **The line that waits is handed to the server.** -/
theorem Inv.hand {main' : MainPc} (h : Inv name bufSize lines done waiting rest c) (hholds : mainHolds c.main = true)
    (hsees : mainSees c.main = true) (hmain : c.main ≠ .setFlag) (hmain' : main' = .setFlag ∨ main' = .exited) :
    Inv name bufSize lines (done ++ [c.arg.inputBuf]) none rest
      { c with sent := c.sent ++ [request name c.arg.inputBuf], main := main' } := by
  have hf := h.sees hsees
  have hpoll := h.polls hholds hf
  have hexit : c.main ≠ .exited := fun he => by rw [he] at hsees; cases hsees
  have hwaiting : waiting = some c.arg.inputBuf := by
    have hb := h.buffers
    unfold Client.Buffers Client.handed at hb
    rw [hpoll] at hb
    simpa [hf, hmain, hexit] using hb
  have hholds' : mainHolds main' = true := by rcases hmain' with rfl | rfl <;> rfl
  exact { h with
    lines := by rw [h.lines, hwaiting]; simp
    sent := by rw [List.map_append, h.sent]; rfl
    holder := by rw [h.holder, hholds, hholds']
    apart := fun hi => by rw [hpoll] at hi; cases hi
    sees := fun _ => hf
    buffers := by
      unfold Client.Buffers Client.handed
      rw [hpoll]
      rcases hmain' with rfl | rfl <;> simp
    branch := by rcases hmain' with rfl | rfl <;> exact ⟨nofun, nofun⟩ }

theorem Inv.mainStep {sendOk closed : Bool} (h : Inv name bufSize lines done waiting rest c)
    (hs : mainStep c sendOk closed = some c') : Reached name bufSize lines c' := by
  unfold Handover.mainStep at hs
  cases hm : c.main with
  | test =>
    rw [hm] at hs
    obtain rfl := Option.some.inj hs
    refine ⟨done, waiting, rest, ?_⟩
    cases hf : c.arg.flag with
    | true => exact h.goto (by rw [hm]; rfl) (by rw [hm]; rfl) (fun he => by cases he) (branch_of_not_holds rfl _)
    | false => exact h.goto (by rw [hm]; rfl) (by rw [hm]; rfl) (fun _ => hf) (branch_of_not_holds rfl _)
  | trylock =>
    rw [hm] at hs
    simp only at hs
    split at hs
    · rename_i hfree
      obtain rfl := Option.some.inj hs
      obtain ⟨-, hi⟩ := h.not_mainHolds hfree
      exact ⟨done, waiting, rest, { h with
        holder := by simp [hi, mainHolds]
        apart := fun he => by rw [hi] at he; cases he
        sees := fun _ => h.sees (by rw [hm]; rfl)
        buffers := by simpa [Client.Buffers, Client.handed, hm] using h.buffers
        branch := ⟨nofun, nofun⟩ }⟩
    · obtain rfl := Option.some.inj hs
      exact ⟨done, waiting, rest,
        h.goto (by rw [hm]; rfl) (by rw [hm]; rfl) (fun he => by cases he) (branch_of_not_holds rfl _)⟩
  | check =>
    rw [hm] at hs
    obtain rfl := Option.some.inj hs
    have hf := h.sees (by rw [hm]; rfl)
    refine ⟨done, waiting, rest, ?_⟩
    by_cases hslash : c.arg.inputBuf.head? = some (chr '/')
    · rw [if_pos hslash]
      exact h.goto (by rw [hm]; rfl) (by rw [hm]; rfl) (fun _ => hf) ⟨fun _ => hslash, nofun⟩
    · rw [if_neg hslash]
      exact h.goto (by rw [hm]; rfl) (by rw [hm]; rfl) (fun _ => hf) ⟨nofun, fun _ => hslash⟩
  | sendClose =>
    rw [hm] at hs
    obtain rfl := Option.some.inj hs
    have hreq : request name c.arg.inputBuf = (3, []) := if_pos (h.branch.1 hm)
    have hhand := h.hand (by rw [hm]; rfl) (by rw [hm]; rfl) (by rw [hm]; decide) (.inl (Eq.refl MainPc.setFlag))
    rw [hreq] at hhand
    exact ⟨_, none, rest, hhand⟩
  | sendText =>
    rw [hm] at hs
    obtain rfl := Option.some.inj hs
    have hreq : request name c.arg.inputBuf = (1, frame c.name c.arg.inputBuf) := by
      rw [h.nameEq]; exact if_neg (h.branch.2 hm)
    rw [← hreq]
    refine ⟨_, none, rest, h.hand (by rw [hm]; rfl) (by rw [hm]; rfl) (by rw [hm]; decide) ?_⟩
    cases sendOk with
    | true => exact .inl rfl
    | false => exact .inr rfl
  | setFlag =>
    rw [hm] at hs
    obtain rfl := Option.some.inj hs
    have hf := h.sees (by rw [hm]; rfl)
    have hpoll := h.polls (by rw [hm]; rfl) hf
    have hb := h.buffers
    unfold Client.Buffers Client.handed at hb
    rw [hpoll] at hb
    exact ⟨done, waiting, rest, { h with
      holder := by rw [h.holder, hm]; rfl
      apart := fun hi => by rw [hpoll] at hi; cases hi
      early := fun _ => rfl
      sees := fun he => by cases he
      buffers := by simpa [Client.Buffers, Client.handed, hpoll, hm] using hb
      branch := ⟨nofun, nofun⟩ }⟩
  | unlock =>
    rw [hm] at hs
    obtain rfl := Option.some.inj hs
    have hi : inputHolds c.input = false := by
      cases hi : inputHolds c.input with
      | false => rfl
      | true => have := h.apart hi; rw [hm] at this; cases this
    exact ⟨done, waiting, rest, { h with
      holder := by simp [hi, mainHolds]
      apart := fun _ => rfl
      sees := fun he => by cases he
      buffers := by simpa [Client.Buffers, Client.handed, hm] using h.buffers
      branch := branch_of_not_holds rfl _ }⟩
  | receive =>
    rw [hm] at hs
    obtain rfl := Option.some.inj hs
    refine ⟨done, waiting, rest, ?_⟩
    cases closed with
    | true => exact h.goto (by rw [hm]; rfl) (by rw [hm]; rfl) (fun he => by cases he) (branch_of_not_holds rfl _)
    | false => exact h.goto (by rw [hm]; rfl) (by rw [hm]; rfl) (fun he => by cases he) (branch_of_not_holds rfl _)
  | left => rw [hm] at hs; cases hs
  | exited => rw [hm] at hs; cases hs

/-! ## Runs -/

theorem Reached.step {e : Event} (hfit : ∀ line ∈ lines, Fits bufSize line) (h : Reached name bufSize lines c)
    (hs : step c e = some c') : Reached name bufSize lines c' := by
  obtain ⟨done, waiting, rest, hinv⟩ := h
  unfold Handover.step at hs
  split at hs
  · cases hs
  rename_i halive
  cases e with
  | input => exact hinv.inputMove hfit hs fun he => halive (.inr he)
  | main sendOk closed => exact hinv.mainStep hs

theorem inv_start (name : CString) (bufSize : Nat) (raw : CString) (lines : List (List Byte)) :
    Inv name bufSize lines [] none lines (start name bufSize raw (keys lines)) where
  nameEq := rfl
  sizeEq := rfl
  lines := rfl
  stdin := rfl
  sent := rfl
  holder := rfl
  apart := fun _ => rfl
  early := fun _ => rfl
  sees := fun he => by cases he
  buffers := rfl
  branch := branch_of_not_holds rfl _

/-- One of the threads may store in the buffer in its next step. -/
def Client.Writes (c : Client) : Prop := c.input = .fgets ∨ c.input = .strchr

/-- The main loop reads the buffer in its next step. -/
def Client.Reads (c : Client) : Prop := c.main = .check ∨ c.main = .sendText ∨ c.main = .sendClose

/-- **Every typed line is handed over once, in order.**  Whatever the two threads do, the messages given to `mq_send`
are the requests of the first of the typed lines; of the lines `fgets` has taken at most one is still to be handed
over; and the buffer is never read while it is written. -/
theorem handover (name : CString) (bufSize : Nat) (raw : CString) (lines : List (List Byte)) (es : List Event)
    (hfit : ∀ line ∈ lines, Fits bufSize line) {c : Client}
    (h : Run.run step (start name bufSize raw (keys lines)) es = some c) :
    ∃ (done : List (List Byte)) (waiting : Option (List Byte)) (rest : List (List Byte)),
      lines = done ++ waiting.toList ++ rest ∧ c.stdin = keys rest ∧ c.sent = done.map (request name) ∧
      ¬ (c.Writes ∧ c.Reads) := by
  obtain ⟨done, waiting, rest, hinv⟩ : Reached name bufSize lines c :=
    Run.run_inv (fun _ _ _ hs he => hs.step hfit he) ⟨[], none, lines, inv_start name bufSize raw lines⟩ h
  refine ⟨done, waiting, rest, hinv.lines, hinv.stdin, hinv.sent, ?_⟩
  rintro ⟨hw, hr⟩
  have hi : inputHolds c.input = true := by rcases hw with hw | hw <;> rw [hw] <;> rfl
  have hm := hinv.apart hi
  rcases hr with hr | hr | hr <;> rw [hr] at hm <;> cases hm

/-- A line is typed and sent, another one is typed. -/
def exchange : List Event :=
  List.replicate 5 .input ++ List.replicate 8 (.main true false) ++ List.replicate 6 .input

/-- Two lines, the second a close request still to be handed over. -/
theorem handover_two_lines :
    ∃ c, Run.run step (start (str ['b', 'o', 'b']) 16 [] (keys [str ['h', 'i'], str ['/']])) exchange = some c ∧
      ∃ (done : List (List Byte)) (waiting : Option (List Byte)) (rest : List (List Byte)),
        [str ['h', 'i'], str ['/']] = done ++ waiting.toList ++ rest ∧ c.stdin = keys rest ∧
        c.sent = done.map (request (str ['b', 'o', 'b'])) ∧ ¬ (c.Writes ∧ c.Reads) :=
  ⟨_, rfl, handover _ 16 [] _ exchange (by decide) rfl⟩

end Handover
end Eltex
