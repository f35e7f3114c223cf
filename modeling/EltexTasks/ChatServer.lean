import EltexTasks.CString
import EltexTasks.Run
/-!
# ChatServer — the server of the message queue chat

msg_queue/source/chat_server.c.  A `size_t` is a natural number reduced modulo 2^64 where the code can leave the range,
a `long` an integer; the conversions between the two are written out.  `mq_open` and `mq_send` succeed.
-/
namespace Eltex
namespace MsgQueue

/-- One more than the largest `size_t`. -/
def sizeRange : Nat := 2 ^ 64

/-- `(long)n` -/
def toLong (n : Nat) : Int := Int.bmod n sizeRange

/-- `(size_t)l` -/
def toSize (l : Int) : Nat := (l % sizeRange).toNat

/-- `client_t` -/
structure ClientRec where
  id : Nat
  username : CString
  toClientMq : CString
deriving DecidableEq, Repr

/-- `message_t`; a NULL `text` is `none`. -/
structure Message where
  text : Option CString
  clientId : Nat
  id : Nat
deriving DecidableEq, Repr

/-- A zeroed `message_t`. -/
def zeroMessage : Message := { text := none, clientId := 0, id := 0 }

/-- `sizeof(message_t)` -/
def messageSize : Nat := 24

/-- `calloc(n, sizeof(message_t))`, which gives NULL when the product leaves the range of `size_t`. -/
def callocMessages (n : Nat) : Option (List Message) :=
  if n * messageSize < sizeRange then some (List.replicate n zeroMessage) else none

def slot (buf : List Message) (i : Nat) : Message := buf[i]?.getD zeroMessage

/-- `*iter = ++(*iter) % buf_size` stores the incremented value reduced. -/
def addMessage (iter bufSize : Nat) (buf : List Message) (text : CString) (client : ClientRec) (messageId : Nat) :
    List Message × Nat :=
  (buf.set iter { text := some text, clientId := client.id, id := messageId }, (iter + 1) % bufSize)

/-- `strcmp` reads `name` as the string that begins there. -/
def findUserByName (name : CString) (clients : List ClientRec) : Option ClientRec :=
  clients.find? (fun c => c.username == name)

/-- `buf_update_start_ptr`: a free slot at `message_buf_iter` means the buffer has not filled yet, otherwise the slot
after the last update is searched for, from `message_buf_iter` to the end and then from the beginning. -/
def updateStart (buf : List Message) (bufSize iter : Nat) (last : Int) : Int :=
  if (slot buf iter).text = none then last + 1
  else
    match (List.range' iter (bufSize - iter)).find? (fun i => (slot buf i).id == toSize last) with
    | some i => toLong ((i + 1) % bufSize)
    | none =>
      match (List.range iter).find? (fun i => toLong (slot buf i).id == last) with
      | some i => toLong ((i + 1) % bufSize)
      | none => 0

/-- `messages_to_send_count` -/
def toSendCount (bufSize iter : Nat) (start : Int) : Nat :=
  if start < toLong iter then (iter + sizeRange - toSize start) % sizeRange
  else if iter < toSize start then (bufSize + sizeRange - toSize start + iter) % sizeRange
  else bufSize

/-- The writes of the copy loops: the index in `messages_to_send` and the message stored there. -/
def copies (buf : List Message) (bufSize iter : Nat) (start : Int) : List (Nat × Message) :=
  if start < toLong iter then
    (List.range (iter - toSize start)).map fun i => (i, slot buf (toSize start + i))
  else if iter ≤ toSize start then
    (List.range (bufSize - toSize start)).map (fun i => (i, slot buf (toSize start + i))) ++
      (List.range iter).map fun i => (i + bufSize - toSize start, slot buf i)
  else []

/-- `messages_to_send` after the loops, an element that no write has reached is `none`.  The code asks `malloc` for
`count` bytes; what the loops store is read back as it was stored. -/
def messagesToSend (count : Nat) (writes : List (Nat × Message)) : List (Option Message) :=
  writes.foldl (fun a w => a.set w.1 (some w.2)) (List.replicate count none)

/-- The new `last_update_message_id` and the texts sent, with the client each goes to; `none` where an element that was
never written, or a NULL text, would be read. -/
def sendUpdates (clientCount : Nat) (last : Int) (buf : List Message) (bufSize iter : Nat) :
    Option (Int × List (Nat × CString)) :=
  let start := updateStart buf bufSize iter last
  let count := toSendCount bufSize iter start
  let toSend := messagesToSend count (copies buf bufSize iter start)
  toSend.getLast?.join.bind fun lastMessage =>
    ((List.range clientCount).mapM fun i =>
      toSend.mapM fun (m : Option Message) => (m.bind Message.text).map fun text => (i, text)).map fun sends =>
        (toLong lastMessage.id, sends.flatten)

/-! ## The loop over the connection queue -/

/-- A message taken from the connection queue.  `tail` is the string in memory behind the bytes the server copies the
sender's name to: the copy has no NUL of its own, and a comparison runs on into it. -/
structure Received where
  prio : Nat
  buf : CString
  tail : CString
deriving DecidableEq, Repr

/-- The server's loop state; `sent` is every text sent so far, with the index of the client. -/
structure Server where
  clients : List ClientRec
  messageBuf : List Message
  messageBufSize : Nat
  messageBufIter : Nat
  messageCount : Nat
  lastUpdateMessageId : Int
  running : Bool
  sent : List (Nat × CString)
deriving DecidableEq, Repr

/-- `clients_allocated` -/
def clientsAllocated : Nat := 10

/-- The server before its loop, with a buffer of `n` messages (10 in the code); `none` where `calloc` fails. -/
def chatServer (n : Nat) : Option Server :=
  (callocMessages n).map fun buf =>
    { clients := [], messageBuf := buf, messageBufSize := n, messageBufIter := 0, messageCount := 0,
      lastUpdateMessageId := -1, running := true, sent := [] }

/-- Priority 2; a client past `clients_allocated` is written outside the array. -/
def connect (s : Server) (buf : CString) : Option Server :=
  if s.clients.length < clientsAllocated then
    let username := buf.take 99
    some { s with clients := s.clients ++ [⟨s.clients.length, username, chr '/' :: username⟩] }
  else none

/-- The client a text is attributed to; `none` is a failed search for the colon or for the name. -/
def senderOf (s : Server) (m : Received) : Option ClientRec :=
  (strchr m.buf (chr ':')).bind fun nameLength => findUserByName (m.buf.take nameLength ++ m.tail) s.clients

/-- Priority 1. -/
def handleText (s : Server) (m : Received) : Option Server :=
  (senderOf s m).bind fun client =>
    let (buf, iter) := addMessage s.messageBufIter s.messageBufSize s.messageBuf m.buf client s.messageCount
    (sendUpdates s.clients.length s.lastUpdateMessageId buf s.messageBufSize iter).map fun (last, sends) =>
      { s with
        messageBuf := buf
        messageBufIter := iter
        messageCount := (s.messageCount + 1) % sizeRange
        lastUpdateMessageId := last
        sent := s.sent ++ sends }

/-- One message of the connection queue. -/
def receive (s : Server) (m : Received) : Option Server :=
  if s.running = false then none
  else if m.prio = 2 then connect s m.buf
  else if m.prio = 3 then some { s with running := false }
  else if m.prio = 1 then handleText s m
  else some s

/-- The texts sent to client `i`, in order. -/
def Server.sentTo (s : Server) (i : Nat) : List CString := (s.sent.filter (fun t => t.1 == i)).map Prod.snd

/-- **What a message makes the server do.** -/
theorem receive_cases {s t : Server} {m : Received} (h : receive s m = some t) : s.running = true ∧
    ((m.prio = 2 ∧ s.clients.length < clientsAllocated ∧
        t = { s with
          clients := s.clients ++ [⟨s.clients.length, m.buf.take 99, chr '/' :: m.buf.take 99⟩] }) ∨
      (m.prio = 3 ∧ t = { s with running := false }) ∨
      (m.prio = 1 ∧ (senderOf s m).isSome = true ∧ handleText s m = some t) ∨
      (m.prio ≠ 1 ∧ m.prio ≠ 2 ∧ m.prio ≠ 3 ∧ t = s)) := by
  unfold receive at h
  split at h
  case isTrue => cases h
  rename_i hrun
  refine ⟨by simpa using hrun, ?_⟩
  split at h
  · rename_i h2
    unfold connect at h
    split at h
    · rename_i hroom
      exact .inl ⟨h2, hroom, (Option.some.inj h).symm⟩
    · cases h
  rename_i h2
  split at h
  · rename_i h3
    exact .inr (.inl ⟨h3, (Option.some.inj h).symm⟩)
  rename_i h3
  split at h
  · rename_i h1
    have hsender : (senderOf s m).isSome = true := by
      unfold handleText at h
      obtain ⟨client, hc, -⟩ := Option.bind_eq_some_iff.1 h
      rw [hc]; rfl
    exact .inr (.inr (.inl ⟨h1, hsender, h⟩))
  · rename_i h1
    exact .inr (.inr (.inr ⟨h1, h2, h3, (Option.some.inj h).symm⟩))

end MsgQueue
end Eltex
