import EltexTasks.CString
import EltexTasks.PriorityQueue
import EltexTasks.Run
/-!
# MsgTask — two processes and two queues that outlive them

`msg_task_1` of msg_queue/source/msg_task1.c: a sender and a receiver, with a POSIX queue under a name, which the sender
creates where there is none and the receiver unlinks, and a System V queue.  Messages that nobody has received stay in
both, so a run may find some there.  The receiver's `mq_open` is tried until it succeeds; the other calls succeed, and
`ftok` finds its path.  In every order of the calls both processes come to their end, and what is printed and left does
not depend on it but for the fate of a text that an older one has displaced (`msg_task_1`).
-/
namespace Eltex
namespace MsgTask

open Run (run)
open PriorityQueue (pop)

def posixMessage : CString := str "message sent through posix queue".toList

def sysvMessage : CString := str "message sent through System V queue".toList

/-- The messages of a POSIX queue, each with its priority. -/
abbrev Queue := List (Nat × CString)

/-- The next call of `sender`; `q` is the queue it has opened. -/
inductive SenderPc where
  | mqOpen
  | mqSend (q : Nat)
  | msgsnd
  | done
deriving DecidableEq, Repr

/-- The next call of `receiver`. -/
inductive ReceiverPc where
  | mqOpen
  | mqReceive (q : Nat)
  | mqUnlink
  | msgrcv
  | done
deriving DecidableEq, Repr

/-- `queues` are the POSIX queues there have been, `name` the one under the name; `sysv` is the System V queue. -/
structure State where
  queues : List Queue
  name : Option Nat
  sysv : List CString
  sender : SenderPc
  receiver : ReceiverPc
  printed : List CString
deriving DecidableEq, Repr

/-- After the `fork`, with the queues as earlier runs have left them. -/
def start (old : Option Queue) (left : List CString) : State where
  queues := old.toList
  name := old.map fun _ => 0
  sysv := left
  sender := .mqOpen
  receiver := .mqOpen
  printed := []

inductive Event where
  | sender
  | receiver
deriving DecidableEq, Repr

/-- The next call of `sender`; a send waits while its queue is full. -/
def senderStep (maxmsg room : Nat) (s : State) : Option State :=
  match s.sender with
  | .mqOpen =>
    match s.name with
    | some q => some { s with sender := .mqSend q }
    | none => some { s with
        queues := s.queues ++ [[]]
        name := some s.queues.length
        sender := .mqSend s.queues.length }
  | .mqSend q =>
    (s.queues[q]?).bind fun msgs =>
      if msgs.length < maxmsg then
        some { s with queues := s.queues.set q (msgs ++ [(0, posixMessage)]), sender := .msgsnd }
      else none
  | .msgsnd => if s.sysv.length < room then some { s with sysv := s.sysv ++ [sysvMessage], sender := .done } else none
  | .done => none

/-- The next call of `receiver`, with the print behind it; it opens again until there is a queue, and it waits while the
queue it has opened is empty. -/
def receiverStep (s : State) : Option State :=
  match s.receiver with
  | .mqOpen =>
    match s.name with
    | some q => some { s with receiver := .mqReceive q }
    | none => some s
  | .mqReceive q =>
    (s.queues[q]?).bind fun msgs => (pop Prod.fst msgs).map fun p =>
      { s with queues := s.queues.set q p.2, receiver := .mqUnlink, printed := s.printed ++ [p.1.2] }
  | .mqUnlink => some { s with name := none, receiver := .msgrcv }
  | .msgrcv =>
    match s.sysv with
    | [] => none
    | text :: rest => some { s with sysv := rest, receiver := .done, printed := s.printed ++ [text] }
  | .done => none

def step (maxmsg room : Nat) (s : State) : Event → Option State
  | .sender => senderStep maxmsg room s
  | .receiver => receiverStep s

def Finished (s : State) : Prop := s.sender = .done ∧ s.receiver = .done

/-- The calls the two processes have yet to make. -/
def callsLeft (s : State) : Nat :=
  (match s.sender with
    | .mqOpen => 3
    | .mqSend _ => 2
    | .msgsnd => 1
    | .done => 0) +
  match s.receiver with
    | .mqOpen => 4
    | .mqReceive _ => 3
    | .mqUnlink => 2
    | .msgrcv => 1
    | .done => 0

/-- What is left under the name. -/
def leftUnderName (s : State) : Option Queue := s.name.bind (s.queues[·]?)

/-! ## The calls -/

variable {maxmsg room : Nat} {s t : State} {base : Queue} {left firsts : List CString}

theorem senderStep_cases (h : senderStep maxmsg room s = some t) :
    (∃ q, s.sender = .mqOpen ∧ s.name = some q ∧ t = { s with sender := .mqSend q }) ∨
    (s.sender = .mqOpen ∧ s.name = none ∧ t = { s with
      queues := s.queues ++ [[]], name := some s.queues.length, sender := .mqSend s.queues.length }) ∨
    (∃ q msgs, s.sender = .mqSend q ∧ s.queues[q]? = some msgs ∧ t = { s with
      queues := s.queues.set q (msgs ++ [(0, posixMessage)]), sender := .msgsnd }) ∨
    (s.sender = .msgsnd ∧ t = { s with sysv := s.sysv ++ [sysvMessage], sender := .done }) := by
  unfold senderStep at h
  cases hpc : s.sender with
  | mqOpen =>
    rw [hpc] at h
    simp only at h
    cases hname : s.name with
    | some q =>
      rw [hname] at h
      exact .inl ⟨q, rfl, rfl, (Option.some.inj h).symm⟩
    | none =>
      rw [hname] at h
      exact .inr (.inl ⟨rfl, rfl, (Option.some.inj h).symm⟩)
  | mqSend q =>
    rw [hpc] at h
    obtain ⟨msgs, hq, hroom⟩ := Option.bind_eq_some_iff.1 h
    split at hroom
    · exact .inr (.inr (.inl ⟨q, msgs, rfl, hq, (Option.some.inj hroom).symm⟩))
    · cases hroom
  | msgsnd =>
    rw [hpc] at h
    simp only at h
    split at h
    · exact .inr (.inr (.inr ⟨rfl, (Option.some.inj h).symm⟩))
    · cases h
  | done =>
    rw [hpc] at h
    cases h

theorem receiverStep_cases (h : receiverStep s = some t) :
    (∃ q, s.receiver = .mqOpen ∧ s.name = some q ∧ t = { s with receiver := .mqReceive q }) ∨
    (s.receiver = .mqOpen ∧ s.name = none ∧ t = s) ∨
    (∃ q msgs m rest, s.receiver = .mqReceive q ∧ s.queues[q]? = some msgs ∧ pop Prod.fst msgs = some (m, rest) ∧
      t = { s with queues := s.queues.set q rest, receiver := .mqUnlink, printed := s.printed ++ [m.2] }) ∨
    (s.receiver = .mqUnlink ∧ t = { s with name := none, receiver := .msgrcv }) ∨
    (∃ text rest, s.receiver = .msgrcv ∧ s.sysv = text :: rest ∧
      t = { s with sysv := rest, receiver := .done, printed := s.printed ++ [text] }) := by
  unfold receiverStep at h
  cases hpc : s.receiver with
  | mqOpen =>
    rw [hpc] at h
    simp only at h
    cases hname : s.name with
    | some q =>
      rw [hname] at h
      exact .inl ⟨q, rfl, rfl, (Option.some.inj h).symm⟩
    | none =>
      rw [hname] at h
      exact .inr (.inl ⟨rfl, rfl, (Option.some.inj h).symm⟩)
  | mqReceive q =>
    rw [hpc] at h
    obtain ⟨msgs, hq, hmap⟩ := Option.bind_eq_some_iff.1 h
    obtain ⟨⟨m, rest⟩, hpop, rfl⟩ := Option.map_eq_some_iff.1 hmap
    exact .inr (.inr (.inl ⟨q, msgs, m, rest, rfl, hq, hpop, rfl⟩))
  | mqUnlink =>
    rw [hpc] at h
    exact .inr (.inr (.inr (.inl ⟨rfl, (Option.some.inj h).symm⟩)))
  | msgrcv =>
    rw [hpc] at h
    simp only at h
    cases hsysv : s.sysv with
    | nil =>
      rw [hsysv] at h
      cases h
    | cons text rest =>
      rw [hsysv] at h
      exact .inr (.inr (.inr (.inr ⟨text, rest, rfl, rfl, (Option.some.inj h).symm⟩)))
  | done =>
    rw [hpc] at h
    cases h

theorem callsLeft_sender (h : senderStep maxmsg room s = some t) : callsLeft t < callsLeft s := by
  obtain ⟨q, hpc, -, rfl⟩ | ⟨hpc, -, rfl⟩ | ⟨q, msgs, hpc, -, rfl⟩ | ⟨hpc, rfl⟩ := senderStep_cases h <;>
    simp [callsLeft, hpc]

theorem callsLeft_receiver (h : receiverStep s = some t) :
    (s.receiver = .mqOpen ∧ s.name = none ∧ t = s) ∨ callsLeft t < callsLeft s := by
  obtain ⟨q, hpc, -, rfl⟩ | hretry | ⟨q, msgs, m, rest, hpc, -, -, rfl⟩ | ⟨hpc, rfl⟩ | ⟨text, rest, hpc, -, rfl⟩ :=
    receiverStep_cases h
  · exact .inr (by simp [callsLeft, hpc])
  · exact .inl hretry
  · exact .inr (by simp [callsLeft, hpc])
  · exact .inr (by simp [callsLeft, hpc])
  · exact .inr (by simp [callsLeft, hpc])

/-! ## Where the messages are -/

/-- What the sender has put into a POSIX queue. -/
def sent (s : State) : Queue :=
  match s.sender with
  | .mqOpen | .mqSend _ => []
  | .msgsnd | .done => [(0, posixMessage)]

/-- What the sender has put into the System V queue. -/
def sysvSent (s : State) : List CString := if s.sender = .done then [sysvMessage] else []

/-- The sender has not opened a queue, or the one it has opened is `q`. -/
def Opens (s : State) (q : Nat) : Prop := ∀ q', s.sender = .mqSend q' → q' = q

/-- The receiver has received from a POSIX queue. -/
def Received (s : State) : Prop := s.receiver = .mqUnlink ∨ s.receiver = .msgrcv ∨ s.receiver = .done

/-- **The POSIX queues**, first the one there was with `base` in it; `firsts` are the texts received from one. -/
inductive Posix (base : Queue) (s : State) (firsts : List CString) : Prop where
  | unopened (base_eq : base = []) (queues : s.queues = []) (name : s.name = none) (sender : s.sender = .mqOpen)
      (receiver : s.receiver = .mqOpen) (none : firsts = [])
  | shared (queues : s.queues = [base ++ sent s]) (name : s.name = some 0) (opens : Opens s 0)
      (receiver : s.receiver = .mqOpen ∨ s.receiver = .mqReceive 0) (none : firsts = [])
  | own (base_eq : base = []) (name : s.name = if s.receiver = .mqUnlink then some 0 else none)
      (sender : s.sender = .msgsnd ∨ s.sender = .done) (receiver : Received s) (own : firsts = [posixMessage])
  | displaced (m : Nat × CString) (rest : Queue) (old : pop Prod.fst base = some (m, rest))
      (queues : s.queues = [rest ++ sent s]) (name : s.name = if s.receiver = .mqUnlink then some 0 else none)
      (opens : Opens s 0) (receiver : Received s) (first : firsts = [m.2])
  | renewed (m : Nat × CString) (rest : Queue) (old : pop Prod.fst base = some (m, rest))
      (queues : s.queues = [rest, sent s]) (name : s.name = some 1) (sender : s.sender ≠ .mqOpen) (opens : Opens s 1)
      (receiver : s.receiver = .msgrcv ∨ s.receiver = .done) (first : firsts = [m.2])

/-- **The System V queue**, with `left` in it at the beginning. -/
def SysV (left : List CString) (s : State) (firsts : List CString) : Prop :=
  if s.receiver = .done then ∃ text, left ++ sysvSent s = text :: s.sysv ∧ s.printed = firsts ++ [text]
  else s.sysv = left ++ sysvSent s ∧ s.printed = firsts

def Inv (base : Queue) (left : List CString) (s : State) : Prop := ∃ firsts, Posix base s firsts ∧ SysV left s firsts

theorem sent_of_open (h : s.sender = .mqOpen) : sent s = [] := by
  unfold sent
  rw [h]

theorem sent_of_send {q : Nat} (h : s.sender = .mqSend q) : sent s = [] := by
  unfold sent
  rw [h]

theorem sent_of_after (h : s.sender = .msgsnd ∨ s.sender = .done) : sent s = [(0, posixMessage)] := by
  unfold sent
  rcases h with h | h <;> rw [h]

theorem opens_of_after (h : s.sender = .msgsnd ∨ s.sender = .done) (q : Nat) : Opens s q := by
  intro q' hq
  rcases h with h | h <;> rw [h] at hq <;> cases hq

theorem Received.ne_mqOpen (h : Received s) : s.receiver ≠ .mqOpen := by
  rcases h with h | h | h <;> rw [h] <;> decide

/-- The name stands for the first queue until it is unlinked. -/
theorem name_cases {q : Option Nat} (h : q = if s.receiver = .mqUnlink then some 0 else none) :
    (q = some 0 ∧ s.receiver = .mqUnlink) ∨ (q = none ∧ s.receiver ≠ .mqUnlink) := by
  by_cases hpc : s.receiver = .mqUnlink
  · rw [if_pos hpc] at h
    exact .inl ⟨h, hpc⟩
  · rw [if_neg hpc] at h
    exact .inr ⟨h, hpc⟩

/-- The sender opens the queue under the name. -/
theorem Posix.opens {q : Nat} (h : Posix base s firsts) (hpc : s.sender = .mqOpen) (hname : s.name = some q) :
    Posix base { s with sender := .mqSend q } firsts := by
  have hsent : sent { s with sender := .mqSend q } = sent s := (sent_of_send rfl).trans (sent_of_open hpc).symm
  have hopens : ∀ k, q = k → Opens { s with sender := .mqSend q } k := by
    intro k hk q' hq'
    exact (SenderPc.mqSend.inj hq').symm.trans hk
  cases h with
  | unopened hbase hqueues hnone hsender hreceiver hfirsts =>
    rw [hnone] at hname
    cases hname
  | shared hqueues hzero _ hreceiver hfirsts =>
    have hq : q = 0 := Option.some.inj (hname.symm.trans hzero)
    exact .shared (by rw [hsent]; exact hqueues) hzero (hopens 0 hq) hreceiver hfirsts
  | own _ _ hsender _ _ => rcases hsender with hs | hs <;> rw [hpc] at hs <;> cases hs
  | displaced m rest hpop hqueues hlinked _ hreceiver hfirst =>
    rcases name_cases hlinked with ⟨hzero, -⟩ | ⟨hnone, -⟩
    · have hq : q = 0 := Option.some.inj (hname.symm.trans hzero)
      exact .displaced m rest hpop (by rw [hsent]; exact hqueues) hlinked (hopens 0 hq) hreceiver hfirst
    · rw [hnone] at hname
      cases hname
  | renewed m rest _ _ _ hsender _ _ _ => exact absurd hpc hsender

/-- The sender creates a queue: the first one, or one beside the one that has been unlinked. -/
theorem Posix.creates (h : Posix base s firsts) (hpc : s.sender = .mqOpen) (hname : s.name = none) :
    Posix base { s with
      queues := s.queues ++ [[]], name := some s.queues.length, sender := .mqSend s.queues.length } firsts := by
  have hsent : sent { s with
      queues := s.queues ++ [[]], name := some s.queues.length, sender := .mqSend s.queues.length } = [] :=
    sent_of_send rfl
  have hopens : ∀ k, s.queues.length = k → Opens { s with
      queues := s.queues ++ [[]], name := some s.queues.length, sender := .mqSend s.queues.length } k := by
    intro k hk q' hq'
    exact (SenderPc.mqSend.inj hq').symm.trans hk
  cases h with
  | unopened hbase hqueues _ _ hreceiver hfirsts =>
    have hlen : s.queues.length = 0 := by rw [hqueues]; rfl
    refine .shared ?_ (congrArg some hlen) (hopens 0 hlen) (.inl hreceiver) hfirsts
    show s.queues ++ [[]] = [base ++ sent _]
    rw [hsent, hqueues, hbase]
    rfl
  | shared _ hzero _ _ _ =>
    rw [hzero] at hname
    cases hname
  | own _ _ hsender _ _ => rcases hsender with hs | hs <;> rw [hpc] at hs <;> cases hs
  | displaced m rest hpop hqueues hlinked _ hreceiver hfirst =>
    rcases name_cases hlinked with ⟨hzero, -⟩ | ⟨-, hunlinked⟩
    · rw [hzero] at hname
      cases hname
    · have hlen : s.queues.length = 1 := by rw [hqueues]; rfl
      refine .renewed m rest hpop ?_ (congrArg some hlen) SenderPc.noConfusion (hopens 1 hlen)
        (hreceiver.resolve_left hunlinked) hfirst
      show s.queues ++ [[]] = [rest, sent _]
      rw [hsent, hqueues, sent_of_open hpc, List.append_nil]
      rfl
  | renewed m rest _ _ _ hsender _ _ _ => exact absurd hpc hsender

/-- The text goes to the end of the queue the sender has opened. -/
theorem Posix.sends {q : Nat} {msgs : Queue} (h : Posix base s firsts) (hpc : s.sender = .mqSend q)
    (hq : s.queues[q]? = some msgs) :
    Posix base { s with queues := s.queues.set q (msgs ++ [(0, posixMessage)]), sender := .msgsnd } firsts := by
  have hsent : sent { s with queues := s.queues.set q (msgs ++ [(0, posixMessage)]), sender := .msgsnd } =
      [(0, posixMessage)] := rfl
  have hnil := sent_of_send hpc
  have hopens : ∀ k, Opens { s with queues := s.queues.set q (msgs ++ [(0, posixMessage)]), sender := .msgsnd } k :=
    fun k => opens_of_after (.inl rfl) k
  cases h with
  | unopened _ _ _ hsender _ _ =>
    rw [hpc] at hsender
    cases hsender
  | shared hqueues hzero hopen hreceiver hfirsts =>
    obtain rfl := hopen q hpc
    rw [hqueues, hnil, List.append_nil] at hq
    obtain rfl : base = msgs := Option.some.inj hq
    exact .shared (by rw [hsent, hqueues]; rfl) hzero (hopens 0) hreceiver hfirsts
  | own _ _ hsender _ _ => rcases hsender with hs | hs <;> rw [hpc] at hs <;> cases hs
  | displaced m rest hpop hqueues hlinked hopen hreceiver hfirst =>
    obtain rfl := hopen q hpc
    rw [hqueues, hnil, List.append_nil] at hq
    obtain rfl : rest = msgs := Option.some.inj hq
    exact .displaced m rest hpop (by rw [hsent, hqueues]; rfl) hlinked (hopens 0) hreceiver hfirst
  | renewed m rest hpop hqueues hone _ hopen hreceiver hfirst =>
    obtain rfl := hopen q hpc
    rw [hqueues, hnil] at hq
    obtain rfl : [] = msgs := Option.some.inj hq
    exact .renewed m rest hpop (by rw [hsent, hqueues]; rfl) hone SenderPc.noConfusion (hopens 1) hreceiver hfirst

theorem Posix.finishes {sysv : List CString} (h : Posix base s firsts) (hpc : s.sender = .msgsnd) :
    Posix base { s with sysv := sysv, sender := .done } firsts := by
  have hsent : sent { s with sysv := sysv, sender := .done } = sent s := (sent_of_after (.inl hpc)).symm
  have hopens : ∀ k, Opens { s with sysv := sysv, sender := .done } k := fun k => opens_of_after (.inr rfl) k
  cases h with
  | unopened _ _ _ hsender _ _ =>
    rw [hpc] at hsender
    cases hsender
  | shared hqueues hzero _ hreceiver hfirsts =>
    exact .shared (by rw [hsent]; exact hqueues) hzero (hopens 0) hreceiver hfirsts
  | own hbase hlinked _ hreceiver hfirst => exact .own hbase hlinked (.inr rfl) hreceiver hfirst
  | displaced m rest hpop hqueues hlinked _ hreceiver hfirst =>
    exact .displaced m rest hpop (by rw [hsent]; exact hqueues) hlinked (hopens 0) hreceiver hfirst
  | renewed m rest hpop hqueues hone _ _ hreceiver hfirst =>
    exact .renewed m rest hpop (by rw [hsent]; exact hqueues) hone SenderPc.noConfusion (hopens 1) hreceiver hfirst

/-- The receiver opens the queue there is. -/
theorem Posix.receiverOpens {q : Nat} (h : Posix base s firsts) (hpc : s.receiver = .mqOpen) (hname : s.name = some q) :
    Posix base { s with receiver := .mqReceive q } firsts := by
  cases h with
  | unopened _ _ hnone _ _ _ =>
    rw [hnone] at hname
    cases hname
  | shared hqueues hzero hopen _ hfirsts =>
    obtain rfl := Option.some.inj (hname.symm.trans hzero)
    exact .shared hqueues hzero hopen (.inr rfl) hfirsts
  | own _ _ _ hreceiver _ => exact absurd hpc hreceiver.ne_mqOpen
  | displaced m rest _ _ _ _ hreceiver _ => exact absurd hpc hreceiver.ne_mqOpen
  | renewed m rest _ _ _ _ _ hreceiver _ => rcases hreceiver with hr | hr <;> rw [hpc] at hr <;> cases hr

/-- **The oldest of the texts of the highest priority is received**: the sender's own where there was none. -/
theorem Posix.receives {q : Nat} {msgs rest : Queue} {m : Nat × CString} (h : Posix base s firsts)
    (hpc : s.receiver = .mqReceive q) (hq : s.queues[q]? = some msgs) (hpop : pop Prod.fst msgs = some (m, rest)) :
    firsts = [] ∧ Posix base
      { s with queues := s.queues.set q rest, receiver := .mqUnlink, printed := s.printed ++ [m.2] } [m.2] := by
  have hother : Received s → False := by
    intro hr
    rcases hr with hr | hr | hr <;> rw [hpc] at hr <;> cases hr
  cases h with
  | unopened _ _ _ _ hreceiver _ =>
    rw [hpc] at hreceiver
    cases hreceiver
  | own _ _ _ hreceiver _ => exact (hother hreceiver).elim
  | displaced _ _ _ _ _ _ hreceiver _ => exact (hother hreceiver).elim
  | renewed _ _ _ _ _ _ _ hreceiver _ => exact (hother (.inr hreceiver)).elim
  | shared hqueues hzero hopen hreceiver hfirsts =>
    refine ⟨hfirsts, ?_⟩
    obtain rfl : q = 0 := by
      rcases hreceiver with hr | hr
      · rw [hpc] at hr
        cases hr
      · exact ReceiverPc.mqReceive.inj (hpc.symm.trans hr)
    rw [hqueues] at hq
    obtain rfl : base ++ sent s = msgs := Option.some.inj hq
    cases hbase : pop Prod.fst base with
    | none =>
      obtain rfl := PriorityQueue.pop_eq_none hbase
      -- there is nothing but the sender's own text
      have hsender : s.sender = .msgsnd ∨ s.sender = .done := by
        unfold sent at hpop
        cases hs : s.sender with
        | mqOpen => rw [hs] at hpop; cases hpop
        | mqSend q => rw [hs] at hpop; cases hpop
        | msgsnd => exact .inl rfl
        | done => exact .inr rfl
      rw [sent_of_after hsender] at hpop
      obtain rfl : (0, posixMessage) = m := (Prod.mk.inj (Option.some.inj hpop)).1
      exact .own rfl hzero hsender (.inl rfl) rfl
    | some p =>
      obtain ⟨m', rest'⟩ := p
      -- an older text is received before the sender's
      have hfirst : pop Prod.fst (base ++ sent s) = some (m', rest' ++ sent s) := by
        cases hs : s.sender with
        | mqOpen => rw [sent_of_open hs, List.append_nil, List.append_nil, hbase]
        | mqSend q => rw [sent_of_send hs, List.append_nil, List.append_nil, hbase]
        | msgsnd => rw [sent_of_after (.inl hs)]; exact PriorityQueue.pop_concat hbase (Nat.zero_le _)
        | done => rw [sent_of_after (.inr hs)]; exact PriorityQueue.pop_concat hbase (Nat.zero_le _)
      obtain ⟨rfl, rfl⟩ := Prod.mk.inj (Option.some.inj (hfirst.symm.trans hpop))
      exact .displaced m' rest' hbase (by rw [hqueues]; rfl) hzero hopen (.inl rfl) rfl

theorem Posix.unlinks (h : Posix base s firsts) (hpc : s.receiver = .mqUnlink) :
    Posix base { s with name := none, receiver := .msgrcv } firsts := by
  cases h with
  | unopened _ _ _ _ hreceiver _ =>
    rw [hpc] at hreceiver
    cases hreceiver
  | shared _ _ _ hreceiver _ => rcases hreceiver with hr | hr <;> rw [hpc] at hr <;> cases hr
  | own hbase _ hsender _ hfirst => exact .own hbase rfl hsender (.inr (.inl rfl)) hfirst
  | displaced m rest hpop hqueues _ hopen _ hfirst =>
    exact .displaced m rest hpop hqueues rfl hopen (.inr (.inl rfl)) hfirst
  | renewed _ _ _ _ _ _ _ hreceiver _ => rcases hreceiver with hr | hr <;> rw [hpc] at hr <;> cases hr

theorem Posix.receiverFinishes {sysv printed : List CString} (h : Posix base s firsts) (hpc : s.receiver = .msgrcv) :
    Posix base { s with sysv := sysv, receiver := .done, printed := printed } firsts := by
  cases h with
  | unopened _ _ _ _ hreceiver _ =>
    rw [hpc] at hreceiver
    cases hreceiver
  | shared _ _ _ hreceiver _ => rcases hreceiver with hr | hr <;> rw [hpc] at hr <;> cases hr
  | own hbase hlinked hsender _ hfirst =>
    have hnone : s.name = none := by rw [hlinked, hpc]; rfl
    exact .own hbase hnone hsender (.inr (.inr rfl)) hfirst
  | displaced m rest hpop hqueues hlinked hopen _ hfirst =>
    have hnone : s.name = none := by rw [hlinked, hpc]; rfl
    exact .displaced m rest hpop hqueues hnone hopen (.inr (.inr rfl)) hfirst
  | renewed m rest hpop hqueues hone hsender hopen _ hfirst =>
    exact .renewed m rest hpop hqueues hone hsender hopen (.inr rfl) hfirst

/-! ## Runs -/

theorem sysvSent_of_ne (h : s.sender ≠ .done) : sysvSent s = [] := if_neg h

/-- Where the receiver is not behind its `msgrcv`, nothing has been taken. -/
theorem SysV.before (h : SysV left s firsts) (hpc : s.receiver ≠ .done) :
    s.sysv = left ++ sysvSent s ∧ s.printed = firsts := by
  unfold SysV at h
  rwa [if_neg hpc] at h

theorem sysV_before (hpc : s.receiver ≠ .done) (hsysv : s.sysv = left ++ sysvSent s) (hprinted : s.printed = firsts) :
    SysV left s firsts := by
  unfold SysV
  rw [if_neg hpc]
  exact ⟨hsysv, hprinted⟩

/-- The sender's calls but the last leave the System V queue alone. -/
theorem SysV.congr (h : SysV left s firsts) (hreceiver : t.receiver = s.receiver) (hsysv : t.sysv = s.sysv)
    (hprinted : t.printed = s.printed) (hs : s.sender ≠ .done) (ht : t.sender ≠ .done) : SysV left t firsts := by
  unfold SysV at h ⊢
  rw [hreceiver, hsysv, hprinted, sysvSent_of_ne ht]
  rwa [sysvSent_of_ne hs] at h

theorem SysV.finishes (h : SysV left s firsts) (hpc : s.sender = .msgsnd) :
    SysV left { s with sysv := s.sysv ++ [sysvMessage], sender := .done } firsts := by
  have hnone : sysvSent s = [] := sysvSent_of_ne (by rw [hpc]; decide)
  have hsent : sysvSent { s with sysv := s.sysv ++ [sysvMessage], sender := .done } = [sysvMessage] := if_pos rfl
  unfold SysV at h ⊢
  rw [hsent]
  rw [hnone, List.append_nil] at h
  split at h
  · rename_i hdone
    obtain ⟨text, hleft, hprinted⟩ := h
    rw [if_pos hdone]
    exact ⟨text, by rw [hleft]; rfl, hprinted⟩
  · rename_i hdone
    rw [if_neg hdone]
    exact ⟨congrArg (· ++ [sysvMessage]) h.1, h.2⟩

theorem Inv.step {e : Event} (h : Inv base left s) (hs : step maxmsg room s e = some t) : Inv base left t := by
  obtain ⟨firsts, hposix, hsysv⟩ := h
  cases e with
  | sender =>
    obtain ⟨q, hpc, hname, rfl⟩ | ⟨hpc, hname, rfl⟩ | ⟨q, msgs, hpc, hq, rfl⟩ | ⟨hpc, rfl⟩ := senderStep_cases hs
    · exact ⟨firsts, hposix.opens hpc hname, hsysv.congr rfl rfl rfl (by rw [hpc]; decide) SenderPc.noConfusion⟩
    · exact ⟨firsts, hposix.creates hpc hname, hsysv.congr rfl rfl rfl (by rw [hpc]; decide) SenderPc.noConfusion⟩
    · exact ⟨firsts, hposix.sends hpc hq,
        hsysv.congr rfl rfl rfl (by rw [hpc]; exact SenderPc.noConfusion) SenderPc.noConfusion⟩
    · exact ⟨firsts, hposix.finishes hpc, hsysv.finishes hpc⟩
  | receiver =>
    obtain ⟨q, hpc, hname, rfl⟩ | ⟨-, -, rfl⟩ | ⟨q, msgs, m, rest, hpc, hq, hpop, rfl⟩ | ⟨hpc, rfl⟩ |
      ⟨text, rest, hpc, htext, rfl⟩ := receiverStep_cases hs
    · obtain ⟨hqueue, hprinted⟩ := hsysv.before (by rw [hpc]; decide)
      exact ⟨firsts, hposix.receiverOpens hpc hname, sysV_before ReceiverPc.noConfusion hqueue hprinted⟩
    · exact ⟨firsts, hposix, hsysv⟩
    · obtain ⟨hqueue, hprinted⟩ := hsysv.before (by rw [hpc]; exact ReceiverPc.noConfusion)
      obtain ⟨hnone, hposix'⟩ := hposix.receives hpc hq hpop
      refine ⟨[m.2], hposix', sysV_before ReceiverPc.noConfusion hqueue ?_⟩
      rw [hprinted, hnone]
      rfl
    · obtain ⟨hqueue, hprinted⟩ := hsysv.before (by rw [hpc]; decide)
      exact ⟨firsts, hposix.unlinks hpc, sysV_before ReceiverPc.noConfusion hqueue hprinted⟩
    · obtain ⟨hqueue, hprinted⟩ := hsysv.before (by rw [hpc]; decide)
      refine ⟨firsts, hposix.receiverFinishes hpc, ?_⟩
      unfold SysV
      rw [if_pos rfl]
      exact ⟨text, hqueue.symm.trans htext, congrArg (· ++ [text]) hprinted⟩

theorem inv_start (old : Option Queue) (left : List CString) : Inv (old.getD []) left (start old left) := by
  refine ⟨[], ?_, sysV_before ReceiverPc.noConfusion (List.append_nil left).symm rfl⟩
  cases old with
  | none => exact .unopened rfl rfl rfl rfl rfl rfl
  | some queue =>
    exact .shared (by rw [sent_of_open rfl, List.append_nil]; rfl) rfl (fun _ h => by cases h) (.inl rfl) rfl

/-- There is room in the System V queue for the sender, or something in it for the receiver. -/
theorem SysV.progress (h : SysV left s firsts) (hleft : left.length ≤ room) (hroom : 0 < room)
    (hsender : s.sender = .msgsnd ∨ s.sender = .done) (hreceiver : s.receiver = .msgrcv ∨ s.receiver = .done)
    (hgo : ¬ Finished s) : (∃ t, senderStep maxmsg room s = some t) ∨ (s.receiver = .msgrcv ∧ s.sysv ≠ []) := by
  have hsends : s.sender = .msgsnd → s.sysv.length < room → ∃ t, senderStep maxmsg room s = some t := by
    intro hpc hlt
    exact ⟨{ s with sysv := s.sysv ++ [sysvMessage], sender := .done }, by rw [senderStep, hpc]; exact if_pos hlt⟩
  rcases hreceiver with hr | hr
  · by_cases hnil : s.sysv = []
    · obtain ⟨hqueue, -⟩ := h.before (by rw [hr]; decide)
      refine .inl (hsends (hsender.resolve_right fun hdone => ?_) (by rw [hnil]; exact hroom))
      rw [hnil, sysvSent, if_pos hdone] at hqueue
      exact List.append_ne_nil_of_right_ne_nil left (List.cons_ne_nil _ _) hqueue.symm
    · exact .inr ⟨hr, hnil⟩
  · have hpc : s.sender = .msgsnd := hsender.resolve_right fun hdone => hgo ⟨hdone, hr⟩
    unfold SysV at h
    rw [if_pos hr] at h
    obtain ⟨text, hqueue, -⟩ := h
    rw [sysvSent_of_ne (by rw [hpc]; decide), List.append_nil] at hqueue
    refine .inl (hsends hpc ?_)
    rw [hqueue, List.length_cons] at hleft
    exact hleft

/-- The sender waits for a full queue only. -/
theorem sender_progress {q : Nat} {msgs : Queue} (hsender : s.sender = .mqOpen ∨ s.sender = .mqSend q)
    (hq : s.queues[q]? = some msgs) (hlt : msgs.length < maxmsg) : ∃ t, senderStep maxmsg room s = some t := by
  unfold senderStep
  rcases hsender with hs | hs
  · rw [hs]
    cases s.name with
    | some q => exact ⟨_, rfl⟩
    | none => exact ⟨_, rfl⟩
  · rw [hs]
    simp only [hq, Option.bind_some]
    rw [if_pos hlt]
    exact ⟨_, rfl⟩

theorem sender_cases {q : Nat} (h : Opens s q) :
    (s.sender = .mqOpen ∨ s.sender = .mqSend q) ∨ s.sender = .msgsnd ∨ s.sender = .done := by
  cases hs : s.sender with
  | mqOpen => exact .inl (.inl rfl)
  | mqSend q' => exact .inl (.inr (congrArg _ (h q' hs)))
  | msgsnd => exact .inr (.inl rfl)
  | done => exact .inr (.inr rfl)

/-- The receiver can make its next call, and not only try again. -/
def Receives (s : State) : Prop :=
  (s.receiver = .mqOpen ∧ s.name ≠ none) ∨
  (∃ q msgs p, s.receiver = .mqReceive q ∧ s.queues[q]? = some msgs ∧ pop Prod.fst msgs = some p) ∨
  s.receiver = .mqUnlink ∨ (s.receiver = .msgrcv ∧ s.sysv ≠ [])

theorem Receives.step (h : Receives s) : ∃ t, receiverStep s = some t ∧ callsLeft t < callsLeft s := by
  have hstep : (∃ t, receiverStep s = some t) ∧ ¬ (s.receiver = .mqOpen ∧ s.name = none) := by
    unfold receiverStep
    rcases h with ⟨hpc, hname⟩ | ⟨q, msgs, p, hpc, hq, hpop⟩ | hpc | ⟨hpc, hsysv⟩
    · obtain ⟨q, hq⟩ := Option.ne_none_iff_exists'.1 hname
      rw [hpc, hq]
      exact ⟨⟨_, rfl⟩, fun hn => hname (hq.trans hn.2)⟩
    · simp only [hpc, hq, Option.bind_some, hpop, Option.map_some]
      exact ⟨⟨_, rfl⟩, fun hn => ReceiverPc.noConfusion hn.1⟩
    · rw [hpc]
      exact ⟨⟨_, rfl⟩, fun hn => ReceiverPc.noConfusion hn.1⟩
    · obtain ⟨text, rest, htext⟩ := List.exists_cons_of_ne_nil hsysv
      rw [hpc, htext]
      exact ⟨⟨_, rfl⟩, fun hn => ReceiverPc.noConfusion hn.1⟩
  obtain ⟨⟨t, ht⟩, hgo⟩ := hstep
  refine ⟨t, ht, (callsLeft_receiver ht).resolve_left fun hretry => hgo ⟨hretry.1, hretry.2.1⟩⟩

/-- **One of the two can go on.** -/
theorem Inv.progress (h : Inv base left s) (hbase : base.length ≤ maxmsg) (hmax : 0 < maxmsg)
    (hleft : left.length ≤ room) (hroom : 0 < room) (hgo : ¬ Finished s) :
    (∃ t, senderStep maxmsg room s = some t) ∨ Receives s := by
  obtain ⟨firsts, hposix, hsysv⟩ := h
  have hafter : (s.sender = .msgsnd ∨ s.sender = .done) → Received s →
      (∃ t, senderStep maxmsg room s = some t) ∨ Receives s := by
    intro hsender hreceiver
    rcases hreceiver with hr | hr
    · exact .inr (.inr (.inr (.inl hr)))
    · exact (hsysv.progress hleft hroom hsender hr hgo).imp_right fun h => .inr (.inr (.inr h))
  cases hposix with
  | unopened _ _ hname hsender _ _ =>
    left
    unfold senderStep
    rw [hsender, hname]
    exact ⟨_, rfl⟩
  | own _ _ hsender hreceiver _ => exact hafter hsender hreceiver
  | shared hqueues hname hopen hreceiver _ =>
    rcases hreceiver with hr | hr
    · exact .inr (.inl ⟨hr, by rw [hname]; exact Option.some_ne_none 0⟩)
    · have hqueue : s.queues[0]? = some (base ++ sent s) := by rw [hqueues]; rfl
      cases hpop : pop Prod.fst (base ++ sent s) with
      | some p => exact .inr (.inr (.inl ⟨0, _, p, hr, hqueue, hpop⟩))
      | none =>
        -- the queue is empty: the sender has not sent
        have hnil := PriorityQueue.pop_eq_none hpop
        rcases sender_cases hopen with hs | hs
        · exact .inl (sender_progress hs hqueue (by rw [hnil]; exact hmax))
        · rw [sent_of_after hs] at hnil
          exact absurd hnil (List.append_ne_nil_of_right_ne_nil base (List.cons_ne_nil _ _))
  | displaced m rest hpop hqueues _ hopen hreceiver _ =>
    rcases sender_cases hopen with hs | hs
    · have hqueue : s.queues[0]? = some rest := by
        rw [hqueues, show sent s = [] from hs.elim sent_of_open sent_of_send, List.append_nil]
        rfl
      have hlen : rest.length + 1 = base.length := (PriorityQueue.pop_perm hpop).length_eq.symm
      exact .inl (sender_progress hs hqueue (by omega))
    · exact hafter hs hreceiver
  | renewed m rest hpop hqueues _ hsender hopen hreceiver _ =>
    rcases sender_cases hopen with hs | hs
    · have hqueue : s.queues[1]? = some [] := by
        rw [hqueues, show sent s = [] from hs.elim sent_of_open sent_of_send]
        rfl
      exact .inl (sender_progress hs hqueue hmax)
    · exact hafter hs (.inr hreceiver)

/-- What is printed and left at the end. -/
theorem Inv.finished (h : Inv base left s) (hend : Finished s) : ∃ first rest second,
    pop Prod.fst (base ++ [(0, posixMessage)]) = some (first, rest) ∧ left ++ [sysvMessage] = second :: s.sysv ∧
    s.printed = [first.2, second] ∧
    (leftUnderName s = none ∨ (base ≠ [] ∧ leftUnderName s = some [(0, posixMessage)])) := by
  obtain ⟨firsts, hposix, hsysv⟩ := h
  obtain ⟨hsender, hreceiver⟩ := hend
  have hsent := sent_of_after (.inr hsender)
  have hlinked : ∀ q : Option Nat, q = (if s.receiver = .mqUnlink then some 0 else none) → q = none := fun q hq => by
    rwa [hreceiver] at hq
  unfold SysV at hsysv
  rw [if_pos hreceiver] at hsysv
  obtain ⟨second, hqueue, hprinted⟩ := hsysv
  rw [sysvSent, if_pos hsender] at hqueue
  cases hposix with
  | unopened _ _ _ hopen _ _ =>
    rw [hsender] at hopen
    cases hopen
  | shared _ _ _ hr _ => rcases hr with hr | hr <;> rw [hreceiver] at hr <;> cases hr
  | own hbase hname _ _ hfirst =>
    refine ⟨(0, posixMessage), [], second, by rw [hbase]; rfl, hqueue, by rw [hprinted, hfirst]; rfl, .inl ?_⟩
    rw [leftUnderName, hlinked _ hname]
    rfl
  | displaced m rest hpop hqueues hname _ _ hfirst =>
    refine ⟨m, _, second, PriorityQueue.pop_concat hpop (Nat.zero_le _), hqueue, by rw [hprinted, hfirst]; rfl, .inl ?_⟩
    rw [leftUnderName, hlinked _ hname]
    rfl
  | renewed m rest hpop hqueues hname _ _ _ hfirst =>
    refine ⟨m, _, second, PriorityQueue.pop_concat hpop (Nat.zero_le _), hqueue, by rw [hprinted, hfirst]; rfl,
      .inr ⟨?_, ?_⟩⟩
    · intro hnil
      rw [hnil] at hpop
      cases hpop
    · rw [leftUnderName, hname, Option.bind_some, hqueues, hsent]
      rfl

/-- **Both processes come to their end**, whatever earlier runs have left and in every order of the calls: until then
one of them can make its next call, and every step makes one or tries again to open a queue that is not there.  Then
the text that came first out of each queue has been printed and the others are left in the System V queue; the POSIX
queue has no name, or, where an older text was received, the sender's text may be left in a new one. -/
theorem msg_task_1 (maxmsg room : Nat) (hmax : 0 < maxmsg) (hroom : 0 < room) (old : Option Queue) (left : List CString)
    (hold : (old.getD []).length ≤ maxmsg) (hleft : left.length ≤ room) (es : List Event) (s : State)
    (hrun : run (step maxmsg room) (start old left) es = some s) :
    (¬ Finished s → ∃ e t, step maxmsg room s e = some t ∧ callsLeft t < callsLeft s) ∧
    (∀ e t, step maxmsg room s e = some t → t = s ∨ callsLeft t < callsLeft s) ∧
    (Finished s → ∃ first rest second, pop Prod.fst (old.getD [] ++ [(0, posixMessage)]) = some (first, rest) ∧
      left ++ [sysvMessage] = second :: s.sysv ∧ s.printed = [first.2, second] ∧
      (leftUnderName s = none ∨ (old.getD [] ≠ [] ∧ leftUnderName s = some [(0, posixMessage)]))) := by
  have hinv : Inv (old.getD []) left s := Run.run_inv (fun _ _ _ h hs => h.step hs) (inv_start old left) hrun
  refine ⟨fun hgo => ?_, fun e t ht => ?_, hinv.finished⟩
  · rcases hinv.progress hold hmax hleft hroom hgo with ⟨t, ht⟩ | hreceives
    · exact ⟨.sender, t, ht, callsLeft_sender ht⟩
    · obtain ⟨t, ht, hlt⟩ := hreceives.step
      exact ⟨.receiver, t, ht, hlt⟩
  · cases e with
    | sender => exact .inr (callsLeft_sender ht)
    | receiver => exact (callsLeft_receiver ht).imp_left fun hretry => hretry.2.2

/-- An older text is received, and the sender comes when its queue has been unlinked. -/
def senderLate : List Event := [.receiver, .receiver, .receiver, .sender, .sender, .sender, .receiver]

/-- The next run prints this run's text. -/
theorem msg_task_1_senderLate :
    ∃ s, run (step 10 100) (start (some [(0, str ['o', 'l', 'd'])]) []) senderLate = some s ∧
      s.printed = [str ['o', 'l', 'd'], sysvMessage] ∧ leftUnderName s = some [(0, posixMessage)] ∧
      ∃ first rest second, pop Prod.fst ([(0, str ['o', 'l', 'd'])] ++ [(0, posixMessage)]) = some (first, rest) ∧
        [] ++ [sysvMessage] = second :: s.sysv ∧ s.printed = [first.2, second] ∧
        (leftUnderName s = none ∨ ([(0, str ['o', 'l', 'd'])] ≠ [] ∧ leftUnderName s = some [(0, posixMessage)])) :=
  ⟨_, rfl, rfl, rfl,
    (msg_task_1 10 100 (by decide) (by decide) (some [(0, str ['o', 'l', 'd'])]) [] (by decide) (by decide) senderLate _
      rfl).2.2 ⟨rfl, rfl⟩⟩

end MsgTask
end Eltex
