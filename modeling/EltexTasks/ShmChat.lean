import EltexTasks.ChatClient
import EltexTasks.Run
/-!
# ShmChat — the shared block of the shared-memory chat and the sections that touch it

shared_mem/source/shm_chat_server.c and shm_chat_client.c: what the server and a client do to the `shm_chat_t` between
a `sem_wait` and the `sem_post` after it, and the chat whose steps are these sections, each taken at once.
-/
namespace Eltex
namespace Shm

open MsgQueue (inputRoutine)

/-- `MESSAGE_MAX` -/
def messageMax : Nat := 4192

/-- `CLIENT_MAX` -/
def clientMax : Nat := 10

/-- `shm_chat_t`; `message_new` and the bytes of `client_status`, which only ever hold 0 and 1, are booleans. -/
structure ShmChat where
  sem : Nat
  messageNew : Bool
  clientCount : Nat
  msgRecvdClients : Nat
  clientStatus : List Bool
  msgBuf : CString
deriving DecidableEq, Repr

/-- The block as `shm_chat_server` leaves it after its `sem_init`. -/
def shmInit : ShmChat :=
  { sem := 1, messageNew := false, clientCount := 1, msgRecvdClients := 0,
    clientStatus := List.replicate clientMax false, msgBuf := [] }

/-- `"/new"`, the text of a join request. -/
def newText : CString := str ['/', 'n', 'e', 'w']

/-- How a section ends: with its `sem_post`, with a `break` out of the loop, or with `exit(1)`. -/
inductive After where
  | post
  | leave
  | exit
deriving DecidableEq, Repr

/-- The server reads a message it has not read: its status byte is 0 and `message_new` is set. -/
def serverTakes (m : ShmChat) : Bool := m.clientStatus[0]? == some false && m.messageNew

/-- A message that closes the chat: it begins with '/' and does not go on with "new". -/
def closes (text : CString) : Bool := text.head? == some (chr '/') && text.tail != str ['n', 'e', 'w']

/-- `client_status[id] = 1; ++msg_recvd_clients;` -/
def markRead (m : ShmChat) (id : Nat) : ShmChat :=
  { m with clientStatus := m.clientStatus.set id true, msgRecvdClients := m.msgRecvdClients + 1 }

/-- The server's first test: the unread message is read, a join request counted. -/
def serverTake (m : ShmChat) : ShmChat × After :=
  if serverTakes m then
    if m.msgBuf.head? == some (chr '/') then
      if m.msgBuf.tail == str ['n', 'e', 'w'] then
        let m := { m with clientCount := m.clientCount + 1 }
        if m.clientCount > clientMax then (m, .exit) else (markRead m 0, .post)
      else (m, .leave)
    else (markRead m 0, .post)
  else (m, .post)

/-- `memset(client_status, 0, n)` -/
def clearStatus (st : List Bool) (n : Nat) : List Bool := List.replicate (min n st.length) false ++ st.drop n

/-- The server's second test: when everybody has read the message the block is ready for the next one. -/
def serverReset (m : ShmChat) : ShmChat :=
  if m.msgRecvdClients = m.clientCount then
    { m with messageNew := false, clientStatus := clearStatus m.clientStatus m.clientCount, msgRecvdClients := 0 }
  else m

/-- The server's section. -/
def serverSection (m : ShmChat) : ShmChat × After :=
  match serverTake m with
  | (m, .post) => (serverReset m, .post)
  | (m, a) => (m, a)

/-- The client's join section: the block after it and the `client_id` the client goes on with. -/
def clientJoin (m : ShmChat) : ShmChat × Nat :=
  if m.messageNew = false then ({ m with messageNew := true, msgBuf := newText }, m.clientCount) else (m, 0)

/-- A client that has passed its join section: its `client_id` and its `input_routine_arg` (`flag` is `false` while a
typed line waits); `running` until it leaves its loop or crashes. -/
structure Client where
  clientId : Nat
  flag : Bool
  inputBuf : CString
  running : Bool
deriving DecidableEq, Repr

/-- The typed line goes into the block: `flag` is 0 and no message is pending. -/
def clientWrites (m : ShmChat) (c : Client) : Bool := !c.flag && !m.messageNew

/-- The write path of a client's section. -/
def clientWrite (m : ShmChat) (c : Client) : ShmChat × Client :=
  if c.flag = false then
    if m.messageNew = false then
      ({ m with msgBuf := c.inputBuf, messageNew := true }, { c with flag := true })
    else (m, { c with flag := true })
  else (m, c)

/-- The read path of a client's section: the block and the text it has read.  `none` is the access outside
`client_status`, whose outcome C does not define. -/
def clientRead (m : ShmChat) (id : Nat) : Option (ShmChat × Option CString) :=
  match m.clientStatus[id]? with
  | none => none
  | some true => some (m, none)
  | some false => if m.messageNew then some (markRead m id, some m.msgBuf) else some (m, none)

/-- A section of the client's loop: the block, the client, the text it has read and how the section ends. -/
def clientSection (m : ShmChat) (c : Client) : Option (ShmChat × Client × Option CString × After) :=
  let (m, c) := clientWrite m c
  match clientRead m c.clientId with
  | none => none
  | some (m, none) => some (m, c, none, .post)
  | some (m, some text) => some (m, c, some text, if closes text then .leave else .post)

/-- The input thread of a client completes a line, or crashes and takes the process with it. -/
def clientTypes (c : Client) (stdin : List Byte) : Client :=
  match inputRoutine messageMax stdin with
  | none => { c with running := false }
  | some line => { c with inputBuf := line, flag := false }

/-! ## The chat, section by section -/

inductive Participant where
  | server
  | client (i : Nat)
deriving DecidableEq, Repr

/-- Where the text in `msg_buf` comes from: the join section of a client, or a line its user typed. -/
inductive Origin where
  | join (i : Nat)
  | line (i : Nat)
deriving DecidableEq, Repr

/-- A message put into `msg_buf`; the clients below `readers` had joined by then. -/
structure Written where
  origin : Origin
  text : CString
  readers : Nat
deriving DecidableEq, Repr

/-- What has happened, kept beside the state for the statements about it; no function of the program reads it.
`taken` is who has read what since `written` was written, `joinsDone` the clients whose join request the server has
read. -/
structure History where
  written : Option Written
  taken : List (Participant × CString)
  joinsDone : List Nat
deriving DecidableEq, Repr

def History.write (h : History) (w : Written) : History := { h with written := some w, taken := [] }

def History.take (h : History) (p : Participant) (text : CString) : History :=
  { h with taken := h.taken ++ [(p, text)] }

/-- The texts a participant has read since the last write. -/
def History.takenBy (h : History) (p : Participant) : List CString :=
  (h.taken.filter (fun t => t.1 == p)).map Prod.snd

/-- The client whose join request the block holds, if it holds one. -/
def History.joiner (h : History) : Option Nat :=
  match h.written with
  | some ⟨.join i, _, _⟩ => some i
  | _ => none

def History.serverTake (h : History) (text : CString) : History :=
  { h.take .server text with joinsDone := h.joinsDone ++ h.joiner.toList }

/-- The server and the clients that have joined, in the order of their join sections. -/
structure Chat where
  shm : ShmChat
  server : Bool
  clients : List Client
  hist : History
deriving DecidableEq, Repr

def init : Chat := { shm := shmInit, server := true, clients := [], hist := ⟨none, [], []⟩ }

/-- A section of the server; a client's join section, where `stdin` is what the user has typed by then, if anything; a
section of client `i`'s loop; a turn of its input thread. -/
inductive Event where
  | server
  | join (stdin : Option (List Byte))
  | client (i : Nat)
  | typed (i : Nat) (stdin : List Byte)
deriving DecidableEq, Repr

def serverStep (s : Chat) : Option Chat :=
  if s.server then
    some { s with
      shm := (serverSection s.shm).1
      server := (serverSection s.shm).2 == .post
      hist := if serverTakes s.shm then s.hist.serverTake s.shm.msgBuf else s.hist }
  else none

/-- A client before its join section, its input thread already running. -/
def startClient (stdin : Option (List Byte)) : Client :=
  let c : Client := { clientId := 0, flag := true, inputBuf := [], running := true }
  match stdin with
  | none => c
  | some keys => clientTypes c keys

def joinStep (s : Chat) (stdin : Option (List Byte)) : Option Chat :=
  let c := startClient stdin
  if c.running then
    some { s with
      shm := (clientJoin s.shm).1
      clients := s.clients ++ [{ c with clientId := (clientJoin s.shm).2 }]
      hist := if s.shm.messageNew then s.hist
        else s.hist.write ⟨.join s.clients.length, newText, s.clients.length + 1⟩ }
  else none

/-- The history after a section of client `i`: its line is written, its read is noted. -/
def clientHist (s : Chat) (i : Nat) (c : Client) (took : Option CString) : History :=
  let h := if clientWrites s.shm c then s.hist.write ⟨.line i, c.inputBuf, s.clients.length⟩ else s.hist
  match took with
  | none => h
  | some text => h.take (.client i) text

def clientStep (s : Chat) (i : Nat) : Option Chat :=
  match s.clients[i]? with
  | none => none
  | some c =>
    if c.running then
      match clientSection s.shm c with
      | none => none
      | some (m, c', took, a) =>
        some { s with
          shm := m
          clients := s.clients.set i { c' with running := a == .post }
          hist := clientHist s i c took }
    else none

/-- The input thread reads on once `flag` is no longer 0. -/
def typedStep (s : Chat) (i : Nat) (stdin : List Byte) : Option Chat :=
  match s.clients[i]? with
  | none => none
  | some c =>
    if c.running && c.flag then some { s with clients := s.clients.set i (clientTypes c stdin) } else none

def step (s : Chat) : Event → Option Chat
  | .server => serverStep s
  | .join stdin => joinStep s stdin
  | .client i => clientStep s i
  | .typed i stdin => typedStep s i stdin

end Shm
end Eltex
