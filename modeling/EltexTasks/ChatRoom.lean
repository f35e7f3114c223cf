import EltexTasks.ChatOrder
import EltexTasks.ClientHandover
/-!
# ChatRoom — from the keyboards to the screens

The whole queue chat: the clients, of two threads each (`Handover`), with the queues and the server between them
(`MsgQueue.Net`).  What a client prints of what is typed at another one, in lines that fit its buffer, is a piece of it,
in the order it was typed, and where nothing is under way and the reader was there first it is all of it
(`typed_to_printed`).
-/
namespace Eltex
namespace ChatRoom

open Run (run)
open PriorityQueue (pop)
open MsgQueue (Received Letter Reader Net NetEvent Server Delivering PutOrder NetInv Due frame putStep recvStep netStep
  connections chatServer)
open Handover (Client Fits Reached keys request)

/-- A client's process; `lines` is what is typed once it has connected. -/
structure Member where
  name : CString
  bufSize : Nat
  lines : List (List Byte)
  client : Client
deriving DecidableEq, Repr

/-- Client `j` is the one at `j` in `members`, and its queue the one at `j` in `readers`; `senders` says which client
has put each message into the connection queue. -/
structure Room where
  net : Net
  members : List Member
  senders : List Nat
deriving DecidableEq, Repr

def init (s : Server) : Room := { net := .init s, members := [], senders := [] }

/-- A client connects; a step of a client's input thread, of its main loop, or of the receive loop in it; the server
takes a message, or makes its next send.  `raw` and `tail` are what is in memory where nothing has been stored. -/
inductive Event where
  | connect (name : CString) (lines : List (List Byte)) (raw : CString)
  | input (j : Nat)
  | main (j : Nat) (sendOk : Bool) (tail : CString)
  | recv (j : Nat)
  | take
  | send
deriving DecidableEq, Repr

/-- Client `j` puts a message into the connection queue. -/
def Room.put (s : Room) (j : Nat) (m : Received) : Room :=
  { s with net := putStep s.net m, senders := s.senders ++ [j] }

def Room.setClient (s : Room) (j : Nat) (m : Member) (c : Client) : Room :=
  { s with members := s.members.set j { m with client := c } }

/-- `O_EXCL` refuses a name whose queue is there; `mq_unlink` comes behind the loop. -/
def connect (msgsize : Nat) (s : Room) (name : CString) (lines : List (List Byte)) (raw : CString) : Option Room :=
  if ∀ m ∈ s.members, m.name = name → m.client.main = .left then
    let bufSize := msgsize - name.length - 1
    let m : Member := ⟨name, bufSize, lines, Handover.start name bufSize raw (keys lines)⟩
    some (Room.put { s with members := s.members ++ [m] } s.members.length ⟨2, name, []⟩)
  else none

/-- What the next step of a main loop puts into the connection queue. -/
def puts (c : Client) (sendOk : Bool) (tail : CString) : Option Received :=
  if sendOk then
    match c.main with
    | .sendClose => some ⟨3, [], []⟩
    | .sendText => some ⟨1, frame c.name c.arg.inputBuf, tail⟩
    | _ => none
  else none

/-- A step of a main loop; it leaves the receive loop when there is nothing to receive. -/
def mainMove (s : Room) (j : Nat) (sendOk : Bool) (tail : CString) : Option Room :=
  match s.members[j]?, s.net.readers[j]? with
  | some m, some r =>
    if m.client.main = .receive ∧ r.inbox ≠ [] then none
    else
      (Handover.step m.client (.main sendOk false)).map fun c =>
        match puts m.client sendOk tail with
        | none => s.setClient j m c
        | some msg => (s.setClient j m c).put j msg
  | _, _ => none

/-- A message is received; a close ends both loops. -/
def recvMove (s : Room) (j : Nat) : Option Room :=
  (s.members[j]?).bind fun m =>
    if m.client.main = .receive ∧ m.client.input ≠ .crashed then
      (recvStep s.net j).bind fun net =>
        if (net.readers[j]?).any Reader.left then
          (Handover.step m.client (.main true true)).map fun c => Room.setClient { s with net := net } j m c
        else some { s with net := net }
    else none

def step (msgsize : Nat) (s : Room) : Event → Option Room
  | .connect name lines raw => connect msgsize s name lines raw
  | .input j => (s.members[j]?).bind fun m => (Handover.step m.client .input).map fun c => s.setClient j m c
  | .main j sendOk tail => mainMove s j sendOk tail
  | .recv j => recvMove s j
  | .take => (netStep s.net .take).map fun net => { s with net := net }
  | .send => (netStep s.net .send).map fun net => { s with net := net }

/-! ## What is typed and what is read -/

/-- What the others are to read of the lines typed. -/
def Member.texts (m : Member) : List CString :=
  (m.lines.filter fun line => line.head? ≠ some (chr '/')).map (frame m.name)

/-- The texts that come from client `j`. -/
def textsFrom (senders : List Nat) (j : Nat) (ls : List Letter) : List CString :=
  (ls.filter fun l => senders[l.number]? == some j).map Letter.text

/-- All of the lines have been handed over and the input thread waits for the next one; no send has failed, and no
message is under way to `r`. -/
structure Settled (s : Room) (r : Reader) (m : Member) : Prop where
  typed : m.client.stdin = []
  waits : m.client.input = .lock ∨ m.client.input = .fgets
  alive : m.client.main ≠ .exited
  queue : s.net.queue = []
  outbox : s.net.outbox = []
  inbox : r.inbox = []

/-- The texts a main loop has handed to `mq_send`. -/
def sentTexts (c : Client) : List CString := (c.sent.filter fun p => p.1 == 1).map Prod.snd

/-- Message `k` as a letter, if it is a text. -/
def textOf (k : Nat) (m : Received) : Option Letter := if m.prio = 1 then some ⟨1, k, m.buf⟩ else none

/-- The texts put into the connection queue. -/
def textsPut (put : List Received) : List Letter := put.zipIdx.filterMap fun p => textOf p.2 p.1

/-- The texts that wait in the connection queue. -/
def queuedTexts (queue : List (Nat × Received)) : List Letter := queue.filterMap fun q => textOf q.1 q.2

theorem textsPut_append (put : List Received) (m : Received) :
    textsPut (put ++ [m]) = textsPut put ++ (textOf put.length m).toList := by
  unfold textsPut
  rw [List.zipIdx_append, List.filterMap_append, Nat.zero_add, List.zipIdx_singleton, List.filterMap_cons]
  cases textOf put.length m with
  | none => rfl
  | some l => rfl

theorem mem_textsPut {put : List Received} {l : Letter} (h : l ∈ textsPut put) :
    ∃ m, put[l.number]? = some m ∧ m.prio = 1 ∧ l.text = m.buf := by
  obtain ⟨⟨m, k⟩, hmem, htext⟩ := List.mem_filterMap.1 h
  have hk := List.mem_zipIdx_iff_getElem?.1 hmem
  unfold textOf at htext
  split at htext
  · rename_i h1
    obtain rfl := Option.some.inj htext
    exact ⟨m, hk, h1, rfl⟩
  · cases htext

theorem textsFrom_append (senders : List Nat) (j : Nat) (ls ms : List Letter) :
    textsFrom senders j (ls ++ ms) = textsFrom senders j ls ++ textsFrom senders j ms := by
  unfold textsFrom
  rw [List.filter_append, List.map_append]

/-- Who has put the messages there are does not change. -/
theorem textsFrom_senders {senders : List Nat} {ls : List Letter} (h : ∀ l ∈ ls, l.number < senders.length)
    (k j : Nat) : textsFrom (senders ++ [k]) j ls = textsFrom senders j ls := by
  unfold textsFrom
  congr 1
  refine List.filter_congr fun l hl => ?_
  rw [List.getElem?_append_left (h l hl)]

/-- The lines handed over are the texts handed over. -/
theorem texts_request (name : CString) (lines : List (List Byte)) :
    ((lines.map (request name)).filter fun p => p.1 == 1).map Prod.snd =
      (lines.filter fun line => line.head? ≠ some (chr '/')).map (frame name) := by
  induction lines with
  | nil => rfl
  | cons line lines ih =>
    rw [List.map_cons]
    by_cases h : line.head? = some (chr '/')
    · have hreq : request name line = (3, []) := if_pos h
      rw [hreq, List.filter_cons_of_neg (by decide), List.filter_cons_of_neg (by simpa using h), ih]
    · have hreq : request name line = (1, frame name line) := if_neg h
      rw [hreq, List.filter_cons_of_pos rfl, List.filter_cons_of_pos (by simpa using h), List.map_cons, List.map_cons,
        ih]

/-! ## The queues and the server -/

/-- The log of the feed and what waits are the texts there are; as long as nobody closes, none is lost. -/
structure Conversing (s : Net) : Prop where
  feed : ∃ f, (Delivering s f ∧ PutOrder s f.log) ∧ f.log ++ queuedTexts s.queue = textsPut s.put
  opened : (∀ c ∈ s.put, c.prio ≠ 3) → NetInv s

variable {s t : Net}

theorem conversing_init {n : Nat} (hn : 1 ≤ n) {s₀ : Server} (h₀ : chatServer n = some s₀) : Conversing (.init s₀) where
  feed := ⟨.empty, ⟨MsgQueue.delivering_init hn h₀, MsgQueue.putOrder_init s₀⟩, rfl⟩
  opened _ := MsgQueue.netInv_init hn h₀

theorem queuedTexts_append (queue queue' : List (Nat × Received)) :
    queuedTexts (queue ++ queue') = queuedTexts queue ++ queuedTexts queue' :=
  List.filterMap_append

theorem queuedTexts_cons (k : Nat) (m : Received) (queue : List (Nat × Received)) :
    queuedTexts ((k, m) :: queue) = (textOf k m).toList ++ queuedTexts queue := by
  unfold queuedTexts
  rw [List.filterMap_cons]
  cases textOf k m with
  | none => rfl
  | some l => rfl

theorem queuedTexts_eq_nil {queue : List (Nat × Received)} (h : ∀ q ∈ queue, q.2.prio < 1) :
    queuedTexts queue = [] := by
  refine List.filterMap_eq_nil_iff.2 fun q hq => ?_
  have hlt := h q hq
  exact if_neg (by omega)

theorem published_seen_take {k : Nat} {m : Received} {rest : List (Nat × Received)}
    (hpop : pop (fun q : Nat × Received => q.2.prio) s.queue = some ((k, m), rest)) :
    Feed.published (MsgQueue.seen s .take) = (textOf k m).toList := by
  rw [MsgQueue.seen_take hpop]
  unfold textOf
  by_cases h2 : m.prio = 2
  · rw [if_pos h2, if_neg (by omega)]
    rfl
  · rw [if_neg h2]
    split
    · rfl
    · rfl

/-- **No text leaves the connection queue but for the log.** -/
theorem logged_step {log : List Letter} {e : NetEvent} (h : log ++ queuedTexts s.queue = textsPut s.put)
    (ht : netStep s e = some t) :
    log ++ Feed.published (MsgQueue.seen s e) ++ queuedTexts t.queue = textsPut t.put := by
  cases e with
  | put m =>
    obtain rfl := Option.some.inj ht
    show log ++ [] ++ queuedTexts (s.queue ++ [(s.put.length, m)]) = textsPut (s.put ++ [m])
    rw [List.append_nil, queuedTexts_append, ← List.append_assoc, h, textsPut_append, queuedTexts_cons]
    exact congrArg _ (List.append_nil _)
  | send =>
    obtain ⟨i, l, rest, r, -, -, rfl⟩ := MsgQueue.sendStep_cases ht
    show log ++ [] ++ queuedTexts s.queue = textsPut s.put
    rw [List.append_nil, h]
  | recv i =>
    obtain ⟨r, r', -, -, rfl⟩ := MsgQueue.recvStep_cases ht
    rw [MsgQueue.published_recv, List.append_nil]
    exact h
  | take =>
    obtain ⟨-, k, m, rest, u, hpop, -, rfl⟩ := MsgQueue.takeStep_cases ht
    rw [published_seen_take hpop]
    obtain ⟨before, after, hqueue, rfl, hbefore, -⟩ := PriorityQueue.pop_eq_some hpop
    rw [hqueue, queuedTexts_append, queuedTexts_cons] at h
    show log ++ (textOf k m).toList ++ queuedTexts (before ++ after) = textsPut s.put
    rw [queuedTexts_append, ← h]
    by_cases h1 : m.prio = 1
    · -- no text is older than one that is taken
      have hnil : queuedTexts before = [] := queuedTexts_eq_nil fun q hq => by
        have hlt := hbefore q hq
        simp only at hlt
        omega
      rw [hnil, List.nil_append, List.nil_append, List.append_assoc]
    · have hnone : (textOf k m).toList = [] := by
        unfold textOf
        rw [if_neg h1]
        rfl
      rw [hnone, List.append_nil, List.nil_append]

/-- A client that has received no close has not left: while nobody closes, no close is received. -/
theorem closesLast_of_opened (h : NetInv s) (hopen : ∀ c ∈ s.put, c.prio ≠ 3) (e : NetEvent) :
    MsgQueue.ClosesLast s e := by
  cases e with
  | put m => trivial
  | take => trivial
  | send => trivial
  | recv i =>
    intro r hr h3
    have hrun : s.server.running = true := by
      by_contra hstop
      obtain ⟨-, m, hm, hclose⟩ := h.closed (by simpa using hstop)
      exact hopen m hm hclose
    obtain ⟨⟨l, rest⟩, hpop, hl⟩ := Option.map_eq_some_iff.1 h3
    have hmem : l ∈ r.inbox := (PriorityQueue.pop_perm hpop).symm.subset List.mem_cons_self
    have h1 := ((h.opened hrun).2 r (List.mem_of_getElem? hr)).2 l hmem
    simp only at hl
    omega

theorem put_of_netStep {e : NetEvent} (ht : netStep s e = some t) : s.put <+: t.put := by
  cases e with
  | put m =>
    obtain rfl := Option.some.inj ht
    exact List.prefix_append _ _
  | take =>
    obtain ⟨-, k, m, rest, u, -, -, rfl⟩ := MsgQueue.takeStep_cases ht
    exact List.prefix_rfl
  | send =>
    obtain ⟨i, l, rest, r, -, -, rfl⟩ := MsgQueue.sendStep_cases ht
    exact List.prefix_rfl
  | recv i =>
    obtain ⟨r, r', -, -, rfl⟩ := MsgQueue.recvStep_cases ht
    exact List.prefix_rfl

theorem Conversing.step {e : NetEvent} (h : Conversing s) (ht : netStep s e = some t) : Conversing t where
  feed := by
    obtain ⟨f, hf, hlog⟩ := h.feed
    obtain ⟨g, hg, hg'⟩ := MsgQueue.net_simulation hf ht
    refine ⟨g, hg', ?_⟩
    rw [Feed.log_of_run hg]
    exact logged_step hlog ht
  opened hopen := by
    have hopen' : ∀ c ∈ s.put, c.prio ≠ 3 := fun c hc => hopen c ((put_of_netStep ht).subset hc)
    have hinv := h.opened hopen'
    exact MsgQueue.netInv_step s e t hinv (closesLast_of_opened hinv hopen' e) ht

/-- **What is printed is a piece of the texts put**, in their order. -/
theorem Conversing.printed (h : Conversing s) {i : Nat} {r : Reader} (hr : s.readers[i]? = some r) :
    r.printed <:+: textsPut s.put := by
  obtain ⟨f, ⟨hd, -⟩, hlog⟩ := h.feed
  obtain ⟨hprinted, -⟩ := MsgQueue.of_reader hr
  rw [← hprinted]
  cases hsub : f.subscribers[i]? with
  | none =>
    rw [(hd.others i (List.getElem?_eq_none_iff.1 hsub)).1]
    exact List.nil_infix
  | some sub =>
    obtain ⟨-, hgiven, hscreen⟩ := hd.screens i sub hsub
    rw [← hgiven, ← hlog]
    have hpiece : sub.given <+: f.log.drop sub.start := ⟨_, hscreen⟩
    exact (hpiece.isInfix.trans (List.drop_suffix _ _).isInfix).trans (List.prefix_append _ _).isInfix

/-- Where nothing is under way to a client, it has printed the texts put from some time on. -/
theorem Conversing.drop (h : Conversing s) {i : Nat} {r : Reader} (hr : s.readers[i]? = some r) (hqueue : s.queue = [])
    (houtbox : s.outbox = []) (hinbox : r.inbox = []) :
    ((textsPut s.put).map Letter.number).Pairwise (· < ·) ∧ ∃ n, r.printed = (textsPut s.put).drop n := by
  obtain ⟨f, ⟨hd, ho⟩, hlog⟩ := h.feed
  obtain ⟨hprinted, hinboxOf⟩ := MsgQueue.of_reader hr
  have hall : f.log = textsPut s.put := by
    rw [← hlog, hqueue]
    exact (List.append_nil _).symm
  rw [← hall]
  refine ⟨ho.increasing, ?_⟩
  rw [← hprinted]
  cases hsub : f.subscribers[i]? with
  | none =>
    rw [(hd.others i (List.getElem?_eq_none_iff.1 hsub)).1]
    exact ⟨f.log.length, List.drop_length.symm⟩
  | some sub =>
    obtain ⟨-, hgiven, hscreen⟩ := hd.screens i sub hsub
    rw [hinboxOf, hinbox, houtbox] at hscreen
    rw [← hgiven]
    exact ⟨sub.start, (List.append_nil _).symm.trans hscreen⟩

/-- **Nothing is missed** while nobody closes: the texts put after a client has connected have all been printed by it
when nothing is under way to it. -/
theorem Conversing.printed_all (h : Conversing s) (hopen : ∀ c ∈ s.put, c.prio ≠ 3) {i : Nat} {r : Reader}
    (hr : s.readers[i]? = some r) (hqueue : s.queue = []) (houtbox : s.outbox = []) (hinbox : r.inbox = [])
    {p : Letter → Bool} (hlate : ∀ l ∈ textsPut s.put, p l = true → i < connections (s.put.take l.number)) :
    r.printed.filter p = (textsPut s.put).filter p := by
  obtain ⟨hincreasing, n, hn⟩ := h.drop hr hqueue houtbox hinbox
  have hprinted : ∀ l ∈ textsPut s.put, p l = true → l.number ∈ r.printed.map Letter.number := by
    intro l hl hp
    obtain ⟨m, hm, h1, -⟩ := mem_textsPut hl
    have hdue : Due s.put i l.number m := ⟨hm, h1, fun c hc => hopen c (List.mem_of_mem_take hc), hlate l hl hp⟩
    have hway := (h.opened hopen).kept i r l.number m hr hdue
    unfold MsgQueue.onWay at hway
    rw [hqueue, houtbox, hinbox] at hway
    simpa [MsgQueue.outboxOf, List.count_pos_iff] using hway
  have hearly : ((textsPut s.put).take n).filter p = [] := by
    refine List.filter_eq_nil_iff.2 fun l hl hp => ?_
    have hlater := hprinted l (List.mem_of_mem_take hl) hp
    rw [hn] at hlater
    rw [← List.take_append_drop n (textsPut s.put), List.map_append, List.pairwise_append] at hincreasing
    exact Nat.lt_irrefl _ (hincreasing.2.2 l.number (List.mem_map_of_mem hl) l.number hlater)
  rw [hn]
  conv_rhs => rw [← List.take_append_drop n (textsPut s.put), List.filter_append, hearly, List.nil_append]

/-! ## The clients -/

/-- Every text a client has handed over has been put into the connection queue by it, but for one whose send failed. -/
def Handed (senders : List Nat) (put : List Received) (j : Nat) (c : Client) : Prop :=
  ∃ lost, sentTexts c = textsFrom senders j (textsPut put) ++ lost ∧ (c.main ≠ .exited → lost = [])

structure Inv (s : Room) : Prop where
  conversing : Conversing s.net
  reached : ∀ m ∈ s.members, (∀ line ∈ m.lines, Fits m.bufSize line) → Reached m.name m.bufSize m.lines m.client
  members : s.members.length = connections s.net.put
  senders : s.senders.length = s.net.put.length
  known : ∀ j ∈ s.senders, j < s.members.length
  handed : ∀ j m, s.members[j]? = some m → Handed s.senders s.net.put j m.client
  late : ∀ l ∈ textsPut s.net.put, ∀ j, s.senders[l.number]? = some j → j < connections (s.net.put.take l.number)

theorem inv_init {n : Nat} (hn : 1 ≤ n) {s₀ : Server} (h₀ : chatServer n = some s₀) : Inv (init s₀) where
  conversing := conversing_init hn h₀
  reached _ h := absurd h List.not_mem_nil
  members := rfl
  senders := rfl
  known _ h := absurd h List.not_mem_nil
  handed j m h := by cases h
  late _ h := absurd h List.not_mem_nil

/-- The texts of a message. -/
def textIn (m : Received) : List CString := if m.prio = 1 then [m.buf] else []

theorem map_textOf (k : Nat) (m : Received) : (textOf k m).toList.map Letter.text = textIn m := by
  unfold textOf textIn
  split
  · rfl
  · rfl

theorem number_lt {put : List Received} {l : Letter} (h : l ∈ textsPut put) : l.number < put.length := by
  obtain ⟨m, hm, -⟩ := mem_textsPut h
  exact (List.getElem?_eq_some_iff.1 hm).1

/-- A message that is put is its sender's. -/
theorem textsFrom_put {senders : List Nat} {put : List Received} (h : senders.length = put.length) (m : Received)
    (k j : Nat) : textsFrom (senders ++ [k]) j (textsPut (put ++ [m])) =
      textsFrom senders j (textsPut put) ++ if k = j then textIn m else [] := by
  have hlt : ∀ l ∈ textsPut put, l.number < senders.length := fun l hl => by
    rw [h]
    exact number_lt hl
  rw [textsPut_append, textsFrom_append, textsFrom_senders hlt, ← map_textOf put.length]
  congr 1
  have hlast : (senders ++ [k])[put.length]? = some k := by
    rw [← h]
    exact List.getElem?_concat_length
  unfold textOf
  split
  · by_cases hkj : k = j
    · subst hkj
      rw [if_pos rfl]
      exact congrArg (List.map Letter.text) (List.filter_cons_of_pos (by simpa using hlast))
    · rw [if_neg hkj]
      exact congrArg (List.map Letter.text) (List.filter_cons_of_neg (by simpa [hlast] using hkj))
  · exact (ite_self []).symm

theorem late_put {senders : List Nat} {put : List Received} (h : senders.length = put.length)
    (hlate : ∀ l ∈ textsPut put, ∀ j, senders[l.number]? = some j → j < connections (put.take l.number)) (m : Received)
    (k : Nat) (hk : m.prio = 1 → k < connections put) :
    ∀ l ∈ textsPut (put ++ [m]), ∀ j, (senders ++ [k])[l.number]? = some j →
      j < connections ((put ++ [m]).take l.number) := by
  intro l hl j hj
  rw [textsPut_append] at hl
  rcases List.mem_append.1 hl with hl | hl
  · have hlt := number_lt hl
    rw [List.getElem?_append_left (by omega)] at hj
    rw [List.take_append_of_le_length (Nat.le_of_lt hlt)]
    exact hlate l hl j hj
  · unfold textOf at hl
    split at hl
    · rename_i h1
      obtain rfl := List.mem_singleton.1 hl
      simp only [← h] at hj
      obtain rfl : k = j := Option.some.inj ((List.getElem?_concat_length).symm.trans hj)
      simp only [List.take_left]
      exact hk h1
    · cases hl

variable {r u : Room} {j : Nat} {m : Member} {c : Client}

theorem Inv.net {e : NetEvent} {t : Net} (h : Inv r) (ht : netStep r.net e = some t) (hput : t.put = r.net.put) :
    Inv { r with net := t } where
  conversing := h.conversing.step ht
  reached := h.reached
  members := by rw [hput, h.members]
  senders := by rw [hput, h.senders]
  known := h.known
  handed j m hm := by
    rw [hput]
    exact h.handed j m hm
  late := by
    rw [hput]
    exact h.late

theorem Inv.reached_set {e : Handover.Event} (h : Inv r) (hm : r.members[j]? = some m)
    (hs : Handover.step m.client e = some c) : ∀ m' ∈ r.members.set j { m with client := c },
      (∀ line ∈ m'.lines, Fits m'.bufSize line) → Reached m'.name m'.bufSize m'.lines m'.client := by
  intro m' hmem hfit
  rcases List.mem_or_eq_of_mem_set hmem with hmem | rfl
  · exact h.reached m' hmem hfit
  · exact Reached.step hfit (h.reached m (List.mem_of_getElem? hm) hfit) hs

/-- A client's step that puts nothing. -/
theorem Inv.move {e : Handover.Event} (h : Inv r) (hm : r.members[j]? = some m)
    (hs : Handover.step m.client e = some c) (halive : m.client.main ≠ .exited) {lost : List CString}
    (hsent : sentTexts c = sentTexts m.client ++ lost) (hlost : c.main ≠ .exited → lost = []) :
    Inv (r.setClient j m c) where
  conversing := h.conversing
  reached := h.reached_set hm hs
  members := by rw [Room.setClient, List.length_set, h.members]
  senders := h.senders
  known k hk := by
    rw [Room.setClient, List.length_set]
    exact h.known k hk
  handed k m' hm' := by
    rcases getElem?_set_cases hm' with ⟨rfl, rfl⟩ | ⟨-, hold⟩
    · obtain ⟨old, hold, hnone⟩ := h.handed k m hm
      rw [hnone halive, List.append_nil] at hold
      exact ⟨lost, hsent.trans (congrArg (· ++ lost) hold), hlost⟩
    · exact h.handed k m' hold
  late := h.late

/-- A client's step that puts a message. -/
theorem Inv.put {e : Handover.Event} {msg : Received} (h : Inv r) (hm : r.members[j]? = some m)
    (hs : Handover.step m.client e = some c) (halive : m.client.main ≠ .exited) (hprio : msg.prio ≠ 2)
    (hsent : sentTexts c = sentTexts m.client ++ textIn msg) : Inv ((r.setClient j m c).put j msg) where
  conversing := h.conversing.step (e := .put msg) rfl
  reached := h.reached_set hm hs
  members := by
    show (r.members.set j _).length = connections (r.net.put ++ [msg])
    rw [List.length_set, h.members, MsgQueue.connections_append, if_neg hprio, Nat.add_zero]
  senders := by
    show (r.senders ++ [j]).length = (r.net.put ++ [msg]).length
    rw [List.length_append, List.length_append, h.senders]
    rfl
  known k hk := by
    show k < (r.members.set j _).length
    rw [List.length_set]
    rcases List.mem_append.1 hk with hk | hk
    · exact h.known k hk
    · rw [List.mem_singleton.1 hk]
      exact (List.getElem?_eq_some_iff.1 hm).1
  handed k m' hm' := by
    show Handed (r.senders ++ [j]) (r.net.put ++ [msg]) k m'.client
    unfold Handed
    rw [textsFrom_put h.senders]
    rcases getElem?_set_cases hm' with ⟨rfl, rfl⟩ | ⟨hne, hold⟩
    · obtain ⟨old, hold, hnone⟩ := h.handed k m hm
      rw [hnone halive, List.append_nil] at hold
      refine ⟨[], ?_, fun _ => rfl⟩
      rw [if_pos rfl, ← hold, List.append_nil]
      exact hsent
    · rw [if_neg (Ne.symm hne), List.append_nil]
      exact h.handed k m' hold
  late := by
    refine late_put h.senders h.late msg j fun _ => ?_
    rw [← h.members]
    exact (List.getElem?_eq_some_iff.1 hm).1

theorem textsFrom_eq_nil {senders : List Nat} {j : Nat} (h : ∀ k ∈ senders, k < j) (ls : List Letter) :
    textsFrom senders j ls = [] := by
  have hnone : ls.filter (fun l => senders[l.number]? == some j) = [] := by
    refine List.filter_eq_nil_iff.2 fun l _ hl => ?_
    exact Nat.lt_irrefl j (h j (List.mem_of_getElem? (eq_of_beq hl)))
  exact congrArg (List.map Letter.text) hnone

theorem Inv.connect {msgsize : Nat} {name raw : CString} {lines : List (List Byte)} (h : Inv r)
    (hs : connect msgsize r name lines raw = some u) : Inv u := by
  unfold ChatRoom.connect at hs
  split at hs
  case isFalse => cases hs
  obtain rfl := Option.some.inj hs
  constructor
  case conversing => exact h.conversing.step (e := .put ⟨2, name, []⟩) rfl
  case reached =>
    intro m hm hfit
    rcases List.mem_append.1 hm with hm | hm
    · exact h.reached m hm hfit
    · rw [List.mem_singleton.1 hm]
      exact ⟨[], none, lines, Handover.inv_start name _ raw lines⟩
  case members =>
    show (r.members ++ [_]).length = connections (r.net.put ++ [⟨2, name, []⟩])
    rw [List.length_append, h.members, MsgQueue.connections_append]
    rfl
  case senders =>
    show (r.senders ++ [_]).length = (r.net.put ++ [_]).length
    rw [List.length_append, List.length_append, h.senders]
    rfl
  case known =>
    intro k hk
    show k < (r.members ++ [_]).length
    rw [List.length_append, List.length_singleton]
    rcases List.mem_append.1 hk with hk | hk
    · exact Nat.lt_succ_of_lt (h.known k hk)
    · rw [List.mem_singleton.1 hk]
      exact Nat.lt_succ_self _
  case handed =>
    intro k m hm
    show Handed (r.senders ++ [r.members.length]) (r.net.put ++ [⟨2, name, []⟩]) k m.client
    have htext : textIn ⟨2, name, []⟩ = [] := rfl
    unfold Handed
    rw [textsFrom_put h.senders, htext, ite_self, List.append_nil]
    rcases getElem?_concat_cases hm with hold | ⟨rfl, rfl⟩
    · exact h.handed k m hold
    · rw [textsFrom_eq_nil h.known]
      exact ⟨[], rfl, fun _ => rfl⟩
  case late => exact late_put h.senders h.late _ _ fun h1 => absurd h1 (by decide : ¬ (2 : Nat) = 1)

/-! ### What a step of a client sends -/

theorem sentTexts_append {c c' : Client} {prio : Nat} {text : CString} (h : c'.sent = c.sent ++ [(prio, text)]) :
    sentTexts c' = sentTexts c ++ if prio = 1 then [text] else [] := by
  unfold sentTexts
  rw [h, List.filter_append, List.map_append]
  congr 1
  by_cases h1 : prio = 1
  · rw [if_pos h1, List.filter_cons_of_pos (by simpa using h1)]
    rfl
  · rw [if_neg h1, List.filter_cons_of_neg (by simpa using h1)]
    rfl

theorem sentTexts_congr {c c' : Client} (h : c'.sent = c.sent) : sentTexts c' = sentTexts c := by
  unfold sentTexts
  rw [h]

theorem input_sends {c' : Client} (hs : Handover.step c .input = some c') : sentTexts c' = sentTexts c := by
  unfold Handover.step at hs
  split at hs
  · cases hs
  simp only [Handover.inputMove] at hs
  split at hs
  · cases hs
  · obtain ⟨p, -, rfl⟩ := Option.map_eq_some_iff.1 hs
    rfl

/-- What a step of the main loop hands to `mq_send`. -/
theorem mainStep_sent {c' : Client} {sendOk closed : Bool} (hs : Handover.mainStep c sendOk closed = some c') :
    (c.main = .sendClose ∧ c'.sent = c.sent ++ [(3, [])]) ∨
    (c.main = .sendText ∧ c'.sent = c.sent ++ [(1, frame c.name c.arg.inputBuf)] ∧
      (sendOk = false → c'.main = .exited)) ∨
    (c.main ≠ .sendClose ∧ c.main ≠ .sendText ∧ c'.sent = c.sent) := by
  unfold Handover.mainStep at hs
  split at hs
  case h_4 hm =>
    obtain rfl := Option.some.inj hs
    exact .inl ⟨hm, rfl⟩
  case h_5 hm =>
    obtain rfl := Option.some.inj hs
    exact .inr (.inl ⟨hm, rfl, fun he => by rw [he]; rfl⟩)
  case h_9 => cases hs
  case h_10 => cases hs
  case h_2 hm =>
    rw [hm]
    split at hs
    · obtain rfl := Option.some.inj hs
      exact .inr (.inr ⟨by decide, by decide, rfl⟩)
    · obtain rfl := Option.some.inj hs
      exact .inr (.inr ⟨by decide, by decide, rfl⟩)
  all_goals
    rename_i hm
    obtain rfl := Option.some.inj hs
    rw [hm]
    exact .inr (.inr ⟨by decide, by decide, rfl⟩)

theorem alive_of_step {e : Handover.Event} {c' : Client} (hs : Handover.step c e = some c') : c.main ≠ .exited := by
  intro he
  unfold Handover.step at hs
  rw [if_pos (.inr he)] at hs
  cases hs

theorem mainStep_of_step {c' : Client} {sendOk closed : Bool} (hs : Handover.step c (.main sendOk closed) = some c') :
    Handover.mainStep c sendOk closed = some c' := by
  unfold Handover.step at hs
  split at hs
  · cases hs
  · exact hs

/-- What is put is what is sent. -/
theorem sends_of_puts {c' : Client} {sendOk closed : Bool} {tail : CString} {msg : Received}
    (hs : Handover.step c (.main sendOk closed) = some c') (hputs : puts c sendOk tail = some msg) :
    msg.prio ≠ 2 ∧ sentTexts c' = sentTexts c ++ textIn msg := by
  unfold puts at hputs
  split at hputs
  case isFalse => cases hputs
  rcases mainStep_sent (mainStep_of_step hs) with ⟨hm, hsent⟩ | ⟨hm, hsent, -⟩ | ⟨hclose, htext, -⟩
  · rw [hm] at hputs
    obtain rfl := Option.some.inj hputs
    exact ⟨by decide, sentTexts_append hsent⟩
  · rw [hm] at hputs
    obtain rfl := Option.some.inj hputs
    exact ⟨(by decide : (1 : Nat) ≠ 2), sentTexts_append hsent⟩
  · split at hputs
    · exact absurd ‹_› hclose
    · exact absurd ‹_› htext
    · cases hputs

/-- Where nothing is put, a text is sent only by a send that fails. -/
theorem lost_of_puts {c' : Client} {sendOk closed : Bool} {tail : CString}
    (hs : Handover.step c (.main sendOk closed) = some c') (hputs : puts c sendOk tail = none) :
    ∃ lost, sentTexts c' = sentTexts c ++ lost ∧ (c'.main ≠ .exited → lost = []) := by
  unfold puts at hputs
  rcases mainStep_sent (mainStep_of_step hs) with ⟨hm, hsent⟩ | ⟨hm, hsent, hfail⟩ | ⟨-, -, hsent⟩
  · exact ⟨[], sentTexts_append hsent, fun _ => rfl⟩
  · refine ⟨_, sentTexts_append hsent, fun halive => absurd (hfail ?_) halive⟩
    rw [hm] at hputs
    cases sendOk with
    | true => cases hputs
    | false => rfl
  · exact ⟨[], (sentTexts_congr hsent).trans (List.append_nil _).symm, fun _ => rfl⟩

theorem Inv.step {msgsize : Nat} {e : Event} (h : Inv r) (hs : step msgsize r e = some u) : Inv u := by
  cases e with
  | connect name lines raw => exact h.connect hs
  | input j =>
    obtain ⟨m, hm, hmap⟩ := Option.bind_eq_some_iff.1 hs
    obtain ⟨c, hc, rfl⟩ := Option.map_eq_some_iff.1 hmap
    exact h.move hm hc (alive_of_step hc) ((input_sends hc).trans (List.append_nil _).symm) fun _ => rfl
  | main j sendOk tail =>
    simp only [ChatRoom.step, mainMove] at hs
    split at hs
    case h_2 => cases hs
    rename_i m reader hm hreader
    split at hs
    case isTrue => cases hs
    obtain ⟨c, hc, rfl⟩ := Option.map_eq_some_iff.1 hs
    cases hputs : puts m.client sendOk tail with
    | none =>
      obtain ⟨lost, hsent, hlost⟩ := lost_of_puts hc hputs
      exact h.move hm hc (alive_of_step hc) hsent hlost
    | some msg =>
      obtain ⟨hprio, hsent⟩ := sends_of_puts hc hputs
      exact h.put hm hc (alive_of_step hc) hprio hsent
  | recv j =>
    obtain ⟨m, hm, hrecv⟩ := Option.bind_eq_some_iff.1 hs
    split at hrecv
    case isFalse => cases hrecv
    rename_i hreceive
    obtain ⟨net, hnet, hend⟩ := Option.bind_eq_some_iff.1 hrecv
    have hput : net.put = r.net.put := by
      obtain ⟨-, -, -, -, rfl⟩ := MsgQueue.recvStep_cases hnet
      rfl
    have hinv := h.net (e := .recv j) hnet hput
    split at hend
    · obtain ⟨c, hc, rfl⟩ := Option.map_eq_some_iff.1 hend
      have hputs : puts m.client true [] = none := by
        unfold puts
        rw [hreceive.1]
        rfl
      obtain ⟨lost, hsent, hlost⟩ := lost_of_puts hc hputs
      exact hinv.move hm hc (alive_of_step hc) hsent hlost
    · obtain rfl := Option.some.inj hend
      exact hinv
  | take =>
    obtain ⟨net, hnet, rfl⟩ := Option.map_eq_some_iff.1 hs
    refine h.net hnet ?_
    obtain ⟨-, k, m, rest, v, -, -, rfl⟩ := MsgQueue.takeStep_cases hnet
    rfl
  | send =>
    obtain ⟨net, hnet, rfl⟩ := Option.map_eq_some_iff.1 hs
    refine h.net hnet ?_
    obtain ⟨i, l, rest, v, -, -, rfl⟩ := MsgQueue.sendStep_cases hnet
    rfl

/-! ## Runs -/

theorem sentTexts_of_inv {name : CString} {bufSize : Nat} {lines done rest : List (List Byte)}
    {waiting : Option (List Byte)} (h : Handover.Inv name bufSize lines done waiting rest c) :
    sentTexts c = (done.filter fun line => line.head? ≠ some (chr '/')).map (frame name) := by
  unfold sentTexts
  rw [h.sent]
  exact texts_request name done

/-- The texts sent are the first of those typed. -/
theorem sentTexts_begins (h : Reached m.name m.bufSize m.lines m.client) : sentTexts m.client <+: m.texts := by
  obtain ⟨done, waiting, rest, hinv⟩ := h
  rw [sentTexts_of_inv hinv, Member.texts, hinv.lines, List.append_assoc]
  exact ((List.prefix_append _ _).filter _).map _

theorem sentTexts_settled {i : Reader} (h : Reached m.name m.bufSize m.lines m.client) (hsettled : Settled r i m) :
    sentTexts m.client = m.texts := by
  obtain ⟨done, waiting, rest, hinv⟩ := h
  have hwaiting : waiting = none := by
    have hbuffers := hinv.buffers
    unfold Client.Buffers at hbuffers
    rcases hsettled.waits with hpc | hpc
    · rw [hpc] at hbuffers
      exact hbuffers
    · rw [hpc] at hbuffers
      exact hbuffers
  have hrest : rest = [] := by
    have hstdin := hinv.stdin
    rw [hsettled.typed] at hstdin
    cases rest with
    | nil => rfl
    | cons line rest => simp [keys] at hstdin
  have hlines : m.lines = done := by
    rw [hinv.lines, hwaiting, hrest, List.append_nil]
    exact List.append_nil done
  rw [sentTexts_of_inv hinv, Member.texts, hlines]

/-- **From the keyboards to the screens**: whatever the threads of the clients and the server do, what client `i` has
printed of client `j`'s is a piece of what is typed there, each line once, in its order and under `j`'s name; if nobody
has closed, `i` connected no later than `j`, and nothing is under way, it is all of it. -/
theorem typed_to_printed (msgsize n : Nat) (hn : 1 ≤ n) (s₀ : Server) (h₀ : chatServer n = some s₀) (es : List Event)
    (s : Room) (hrun : run (step msgsize) (init s₀) es = some s) (i j : Nat) (r : Reader) (m : Member)
    (hr : s.net.readers[i]? = some r) (hm : s.members[j]? = some m) (hfit : ∀ line ∈ m.lines, Fits m.bufSize line) :
    textsFrom s.senders j r.printed <:+: m.texts ∧
    ((∀ c ∈ s.net.put, c.prio ≠ 3) → i ≤ j → Settled s r m → textsFrom s.senders j r.printed = m.texts) := by
  have hinv : Inv s := Run.run_inv (fun _ _ _ h hs => h.step hs) (inv_init hn h₀) hrun
  have hreached := hinv.reached m (List.mem_of_getElem? hm) hfit
  obtain ⟨lost, hsent, hlost⟩ := hinv.handed j m hm
  constructor
  · have hpiece : textsFrom s.senders j r.printed <:+: textsFrom s.senders j (textsPut s.net.put) :=
      ((hinv.conversing.printed hr).filter _).map _
    have hput : textsFrom s.senders j (textsPut s.net.put) <+: sentTexts m.client := ⟨lost, hsent.symm⟩
    exact hpiece.trans (hput.trans (sentTexts_begins hreached)).isInfix
  · intro hopen hij hsettled
    rw [hlost hsettled.alive, List.append_nil] at hsent
    rw [← sentTexts_settled hreached hsettled, hsent]
    refine congrArg (List.map Letter.text) (hinv.conversing.printed_all hopen hr hsettled.queue hsettled.outbox
      hsettled.inbox fun l hl hfrom => ?_)
    exact Nat.lt_of_le_of_lt hij (hinv.late l hl j (eq_of_beq hfrom))

/-- Two clients; a line is typed at the second one, and the first one prints it. -/
def oneLine : List Event :=
  [.connect (str ['a']) [] [], .connect (str ['b']) [str ['h', 'i']] [], .take, .take] ++ List.replicate 5 (.input 1) ++
    List.replicate 7 (.main 1 true []) ++ [.input 1, .take, .send, .send, .main 0 true [], .recv 0]

theorem typed_to_printed_oneLine : ∃ s r m, run (step 8192) (init ((chatServer 10).get rfl)) oneLine = some s ∧
    s.net.readers[0]? = some r ∧ s.members[1]? = some m ∧ textsFrom s.senders 1 r.printed = m.texts := by
  refine ⟨_, _, _, rfl, rfl, rfl, ?_⟩
  exact (typed_to_printed 8192 10 (by decide) _ rfl oneLine _ rfl 0 1 _ _ rfl rfl (by decide)).2 (by decide) (by decide)
    ⟨rfl, .inl rfl, by decide, rfl, rfl, rfl⟩

end ChatRoom
end Eltex
