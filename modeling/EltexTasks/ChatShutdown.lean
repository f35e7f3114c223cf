import EltexTasks.ChatBroadcast
import EltexTasks.PriorityQueue
import EltexTasks.Update
/-!
# ChatShutdown — what a close does to the texts under way

The queue chat with its queues: the connection queue, the queue of each client, and the sends the server has yet to
make.  A close has a higher priority than a text in both kinds of queue, and both receivers stop at the first one.
-/
namespace Eltex
namespace MsgQueue

open Run (run Always Steps)
open PriorityQueue (pop)

/-- A message to a client; `number` is that of the message in the connection queue it has come from. -/
structure Letter where
  prio : Nat
  number : Nat
  text : CString
deriving DecidableEq, Repr

/-- A client's queue, what it has printed, and whether it has left its receive loop. -/
structure Reader where
  inbox : List Letter
  printed : List Letter
  left : Bool
deriving DecidableEq, Repr

/-- `queue` is the connection queue, each message with its number; `outbox` the sends the server has yet to make, each
with the client it is for; `put` every message ever put into the connection queue. -/
structure Net where
  server : Server
  queue : List (Nat × Received)
  outbox : List (Nat × Letter)
  readers : List Reader
  put : List Received
deriving DecidableEq, Repr

def Net.init (s : Server) : Net := { server := s, queue := [], outbox := [], readers := [], put := [] }

/-- A client puts a message into the connection queue; the server takes the next one; the server makes its next send;
client `i` receives the next letter. -/
inductive NetEvent where
  | put (m : Received)
  | take
  | send
  | recv (i : Nat)
deriving DecidableEq, Repr

/-- A client that connects has created its queue.  Connections are taken in the order they are put, so the `i`-th one
is the server's client `i`. -/
def putStep (s : Net) (m : Received) : Net :=
  { s with
    queue := s.queue ++ [(s.put.length, m)]
    readers := if m.prio = 2 then s.readers ++ [⟨[], [], false⟩] else s.readers
    put := s.put ++ [m] }

/-- The sends a message makes the server do: a close to every client, or the updates. -/
def lettersOf (s t : Server) (number : Nat) (m : Received) : List (Nat × Letter) :=
  if m.prio = 3 then (List.range s.clients.length).map fun i => (i, ⟨3, number, []⟩)
  else (t.sent.drop s.sent.length).map fun r => (r.1, ⟨1, number, r.2⟩)

def takeStep (s : Net) : Option Net :=
  if s.outbox = [] then
    match pop (fun q : Nat × Received => q.2.prio) s.queue with
    | none => none
    | some ((number, m), rest) =>
      (receive s.server m).map fun t => { s with server := t, queue := rest, outbox := lettersOf s.server t number m }
  else none

def sendStep (s : Net) : Option Net :=
  match s.outbox with
  | [] => none
  | (i, l) :: rest =>
    match s.readers[i]? with
    | none => none
    | some r => some { s with outbox := rest, readers := s.readers.set i { r with inbox := r.inbox ++ [l] } }

/-- A client prints what it receives until it receives a close. -/
def Reader.recv (r : Reader) : Option Reader :=
  if r.left then none
  else
    match pop Letter.prio r.inbox with
    | none => none
    | some (l, rest) =>
      if l.prio = 3 then some { r with inbox := rest, left := true }
      else some { r with inbox := rest, printed := r.printed ++ [l] }

def recvStep (s : Net) (i : Nat) : Option Net :=
  match s.readers[i]? with
  | none => none
  | some r => r.recv.map fun r' => { s with readers := s.readers.set i r' }

def netStep (s : Net) : NetEvent → Option Net
  | .put m => some (putStep s m)
  | .take => takeStep s
  | .send => sendStep s
  | .recv i => recvStep s i

/-! ## The texts a client has to print -/

/-- Message `k` is a text put before any close and after the connection of client `i`. -/
def Due (put : List Received) (i k : Nat) (m : Received) : Prop :=
  put[k]? = some m ∧ m.prio = 1 ∧ (∀ c ∈ put.take k, c.prio ≠ 3) ∧ i < connections (put.take k)

instance (put : List Received) (i k : Nat) (m : Received) : Decidable (Due put i k m) :=
  inferInstanceAs (Decidable (_ ∧ _))

/-- **No text is lost at shutdown**: a client that has left has printed every text it had to. -/
def Delivered (s : Net) : Prop :=
  ∀ i r, s.readers[i]? = some r → r.left = true → ∀ k m, Due s.put i k m → ⟨1, k, m.buf⟩ ∈ r.printed

/-- No text for client `i` is in the connection queue or in its own. -/
def NoneWaits (s : Net) (i : Nat) (r : Reader) : Prop :=
  (∀ q ∈ s.queue, ¬ Due s.put i q.1 q.2) ∧ ∀ l ∈ r.inbox, ∀ m ∈ s.put[l.number]?, ¬ Due s.put i l.number m

/-- A client that receives a close has no text waiting. -/
def ClosesLast (s : Net) : NetEvent → Prop
  | .recv i => ∀ r ∈ s.readers[i]?, (pop Letter.prio r.inbox).map (fun p => p.1.prio) = some 3 → NoneWaits s i r
  | _ => True

instance (s : Net) (i : Nat) (r : Reader) : Decidable (NoneWaits s i r) := inferInstanceAs (Decidable (_ ∧ _))

instance (s : Net) : ∀ e : NetEvent, Decidable (ClosesLast s e)
  | .recv i => inferInstanceAs (Decidable (∀ r ∈ s.readers[i]?,
      (pop Letter.prio r.inbox).map (fun p => p.1.prio) = some 3 → NoneWaits s i r))
  | .put _ => isTrue trivial
  | .take => isTrue trivial
  | .send => isTrue trivial

/-! ## The invariant -/

/-- The numbers of the letters to client `i` the server has yet to send. -/
def outboxOf (outbox : List (Nat × Letter)) (i : Nat) : List Nat :=
  (outbox.filter (fun p => p.1 == i)).map (fun p => p.2.number)

/-- How often message `k` is on its way to client `i`, or has reached it. -/
def onWay (s : Net) (i : Nat) (r : Reader) (k : Nat) : Nat :=
  (s.queue.map Prod.fst).count k + (outboxOf s.outbox i).count k + (r.inbox.map Letter.number).count k +
    (r.printed.map Letter.number).count k

/-- The letter comes from a text or a close in the connection queue. -/
def Genuine (put : List Received) (l : Letter) : Prop :=
  ∃ m, put[l.number]? = some m ∧ l.prio = m.prio ∧ ((m.prio = 1 ∧ l.text = m.buf) ∨ m.prio = 3)

structure NetInv (s : Net) : Prop where
  broadcast : s.server.running = true → ∃ ms xs, Broadcast ms s.server xs
  queued : ∀ q ∈ s.queue, s.put[q.1]? = some q.2
  queuedOnce : ∀ k, (s.queue.map Prod.fst).count k ≤ 1
  readersLength : s.readers.length = connections s.put
  registered : s.server.running = true →
    s.server.clients.length + s.queue.countP (fun q => q.2.prio == 2) = s.readers.length
  addressed : ∀ p ∈ s.outbox, p.1 < s.readers.length
  sends : ∀ p ∈ s.outbox, Genuine s.put p.2
  letters : ∀ r ∈ s.readers, ∀ l, l ∈ r.inbox ∨ l ∈ r.printed → Genuine s.put l
  once : ∀ i r k, s.readers[i]? = some r → onWay s i r k ≤ 1
  kept : ∀ i r k m, s.readers[i]? = some r → Due s.put i k m → 1 ≤ onWay s i r k
  opened : s.server.running = true →
    (∀ p ∈ s.outbox, p.2.prio = 1) ∧ ∀ r ∈ s.readers, r.left = false ∧ ∀ l ∈ r.inbox, l.prio = 1
  closed : s.server.running = false → (∀ p ∈ s.outbox, p.2.prio = 3) ∧ ∃ m ∈ s.put, m.prio = 3
  delivered : Delivered s

theorem Due.append {put : List Received} {i k : Nat} {m m' : Received} (h : Due (put ++ [m]) i k m') :
    Due put i k m' ∨ (k = put.length ∧ (∀ c ∈ put, c.prio ≠ 3) ∧ i < connections put) := by
  obtain ⟨hk, h1, hopen, hconn⟩ := h
  rcases Nat.lt_or_ge k put.length with hlt | hge
  · rw [List.getElem?_append_left hlt] at hk
    rw [List.take_append_of_le_length (Nat.le_of_lt hlt)] at hopen hconn
    exact .inl ⟨hk, h1, hopen, hconn⟩
  · obtain ⟨hlt, -⟩ := List.getElem?_eq_some_iff.1 hk
    rw [List.length_append, List.length_singleton] at hlt
    obtain rfl : k = put.length := by omega
    rw [List.take_left] at hopen hconn
    exact .inr ⟨rfl, hopen, hconn⟩

theorem Genuine.append {put : List Received} {l : Letter} (h : Genuine put l) (m : Received) :
    Genuine (put ++ [m]) l := by
  obtain ⟨c, hc, h⟩ := h
  exact ⟨c, getElem?_concat_of_some hc, h⟩

theorem Genuine.lt {put : List Received} {l : Letter} (h : Genuine put l) : l.number < put.length := by
  obtain ⟨c, hc, -⟩ := h
  exact (List.getElem?_eq_some_iff.1 hc).1

/-- A letter under the number of a due text is that text. -/
theorem Genuine.eq_of_due {put : List Received} {l : Letter} {i : Nat} {m : Received} (h : Genuine put l)
    (hd : Due put i l.number m) : l = ⟨1, l.number, m.buf⟩ := by
  obtain ⟨c, hc, hprio, htext⟩ := h
  obtain ⟨hm, h1, -⟩ := hd
  obtain rfl : c = m := Option.some.inj (hc.symm.trans hm)
  rcases htext with ⟨-, ht⟩ | h3
  · rw [← ht, ← h1, ← hprio]
  · rw [h1] at h3; cases h3

theorem count_of_lt {xs : List Nat} {n : Nat} (h : ∀ x ∈ xs, x < n) : xs.count n = 0 :=
  List.count_eq_zero.2 fun hm => absurd (h n hm) (Nat.lt_irrefl n)

/-! ## The steps -/

/-- The readers after a put: those there were, and the client that has connected. -/
theorem readers_putStep {s : Net} {m : Received} {i : Nat} {r : Reader} (hr : (putStep s m).readers[i]? = some r) :
    s.readers[i]? = some r ∨ (m.prio = 2 ∧ i = s.readers.length ∧ r = ⟨[], [], false⟩) := by
  unfold putStep at hr
  simp only at hr
  split at hr
  · rename_i h2
    rcases getElem?_concat_cases hr with hr | ⟨hi, hr⟩
    · exact .inl hr
    · exact .inr ⟨h2, hi, hr⟩
  · exact .inl hr

theorem length_readers_putStep (s : Net) (m : Received) :
    (putStep s m).readers.length = s.readers.length + if m.prio = 2 then 1 else 0 := by
  unfold putStep
  simp only
  split
  · rw [List.length_append]; rfl
  · rfl

theorem connections_append (ms : List Received) (m : Received) :
    connections (ms ++ [m]) = connections ms + if m.prio = 2 then 1 else 0 := by
  unfold connections
  rw [List.countP_append, List.countP_singleton]
  by_cases h : m.prio = 2
  · simp [h]
  · simp [h]

theorem outboxOf_eq_nil {outbox : List (Nat × Letter)} {i : Nat} (h : ∀ p ∈ outbox, p.1 < i) :
    outboxOf outbox i = [] := by
  unfold outboxOf
  rw [List.map_eq_nil_iff, List.filter_eq_nil_iff]
  intro p hp he
  have := h p hp
  have := eq_of_beq he
  omega

theorem lt_of_mem_outboxOf {s : Net} (h : NetInv s) {i k : Nat} (hk : k ∈ outboxOf s.outbox i) : k < s.put.length := by
  obtain ⟨p, hp, rfl⟩ := List.mem_map.1 hk
  exact (h.sends p (List.mem_filter.1 hp).1).lt

/-- A put adds the message's number to what is on the way to everybody. -/
theorem onWay_putStep (s : Net) (m : Received) (i : Nat) (r : Reader) (k : Nat) :
    onWay (putStep s m) i r k = onWay s i r k + if s.put.length = k then 1 else 0 := by
  unfold onWay putStep
  simp only [List.map_append, List.map_cons, List.map_nil, List.count_append, List.count_singleton, beq_iff_eq]
  omega

/-- The number of the next message is nowhere in the connection queue. -/
theorem NetInv.queue_fresh {s : Net} (h : NetInv s) : (s.queue.map Prod.fst).count s.put.length = 0 := by
  apply count_of_lt
  intro x hx
  obtain ⟨q, hq, rfl⟩ := List.mem_map.1 hx
  exact (List.getElem?_eq_some_iff.1 (h.queued q hq)).1

theorem NetInv.queuedOnce_put {s : Net} (h : NetInv s) (k : Nat) :
    (s.queue.map Prod.fst).count k + (if s.put.length = k then 1 else 0) ≤ 1 := by
  have hold := h.queuedOnce k
  split
  · rename_i he
    rw [← he, h.queue_fresh]
  · omega

theorem NetInv.onWay_fresh {s : Net} (h : NetInv s) {i : Nat} {r : Reader} (hr : r ∈ s.readers) :
    onWay s i r s.put.length = 0 := by
  unfold onWay
  rw [h.queue_fresh, count_of_lt fun x hx => lt_of_mem_outboxOf h hx, count_of_lt fun x hx => ?_,
    count_of_lt fun x hx => ?_]
  · obtain ⟨l, hl, rfl⟩ := List.mem_map.1 hx
    exact (h.letters r hr l (.inr hl)).lt
  · obtain ⟨l, hl, rfl⟩ := List.mem_map.1 hx
    exact (h.letters r hr l (.inl hl)).lt

theorem NetInv.put {s : Net} (h : NetInv s) (m : Received) : NetInv (putStep s m) where
  broadcast := h.broadcast
  queued := by
    intro q hq
    rcases List.mem_append.1 hq with hq | hq
    · exact getElem?_concat_of_some (h.queued q hq)
    · obtain rfl := List.mem_singleton.1 hq
      exact List.getElem?_concat_length
  queuedOnce := by
    intro k
    simp only [putStep, List.map_append, List.map_cons, List.map_nil, List.count_append, List.count_singleton,
      beq_iff_eq]
    exact h.queuedOnce_put k
  readersLength := by
    rw [length_readers_putStep, h.readersLength]
    exact (connections_append s.put m).symm
  registered := by
    intro hrun
    rw [length_readers_putStep, ← h.registered hrun]
    simp only [putStep, List.countP_append, List.countP_singleton, beq_iff_eq]
    omega
  addressed := by
    intro p hp
    have := h.addressed p hp
    rw [length_readers_putStep]
    omega
  sends := fun p hp => (h.sends p hp).append m
  letters := by
    intro r hr l hl
    obtain ⟨i, hi⟩ := List.getElem?_of_mem hr
    rcases readers_putStep hi with hi | ⟨-, -, rfl⟩
    · exact (h.letters r (List.mem_of_getElem? hi) l hl).append m
    · rcases hl with hl | hl <;> cases hl
  once := by
    intro i r k hi
    rw [onWay_putStep]
    rcases readers_putStep hi with hi | ⟨-, rfl, rfl⟩
    · split
      · rename_i he; rw [← he, h.onWay_fresh (List.mem_of_getElem? hi)]
      · exact h.once i r k hi
    · -- the client that has just connected: only the queue holds anything for it
      unfold onWay
      rw [outboxOf_eq_nil h.addressed]
      simp only [List.count_nil, List.map_nil, Nat.add_zero]
      exact h.queuedOnce_put k
  kept := by
    intro i r k c hi hd
    rw [onWay_putStep]
    rcases Due.append hd with hd | ⟨rfl, -, hconn⟩
    · rcases readers_putStep hi with hi | ⟨-, rfl, -⟩
      · exact Nat.le_add_right_of_le (h.kept i r k c hi hd)
      · have hle : connections (s.put.take k) ≤ connections s.put := List.Sublist.countP_le (List.take_sublist k _)
        have := hd.2.2.2
        have := h.readersLength
        omega
    · rw [if_pos rfl]; exact Nat.le_add_left 1 _
  opened := by
    intro hrun
    obtain ⟨hout, hreaders⟩ := h.opened hrun
    refine ⟨hout, fun r hr => ?_⟩
    obtain ⟨i, hi⟩ := List.getElem?_of_mem hr
    rcases readers_putStep hi with hi | ⟨-, -, rfl⟩
    · exact hreaders r (List.mem_of_getElem? hi)
    · exact ⟨rfl, nofun⟩
  closed := by
    intro hrun
    obtain ⟨hout, c, hc, h3⟩ := h.closed hrun
    exact ⟨hout, c, List.mem_append_left _ hc, h3⟩
  delivered := by
    intro i r hi hleft k c hd
    rcases readers_putStep hi with hi | ⟨-, -, rfl⟩
    · rcases Due.append hd with hd | ⟨-, hopen, -⟩
      · exact h.delivered i r hi hleft k c hd
      · -- the client has left, so a close was put before
        have hrun : s.server.running = false := by
          cases hrun : s.server.running with
          | false => rfl
          | true =>
            rw [((h.opened hrun).2 r (List.mem_of_getElem? hi)).1] at hleft
            cases hleft
        obtain ⟨-, c', hc', h3⟩ := h.closed hrun
        exact absurd h3 (hopen c' hc')
    · cases hleft

theorem outboxOf_cons (i : Nat) (l : Letter) (rest : List (Nat × Letter)) (j : Nat) :
    outboxOf ((i, l) :: rest) j = if i = j then l.number :: outboxOf rest j else outboxOf rest j := by
  unfold outboxOf
  rw [List.filter_cons]
  by_cases hij : i = j
  · simp [hij]
  · simp [hij]

theorem NetInv.send {s t : Net} (h : NetInv s) (ht : sendStep s = some t) : NetInv t := by
  unfold sendStep at ht
  cases ho : s.outbox with
  | nil => rw [ho] at ht; cases ht
  | cons p rest =>
    obtain ⟨i, l⟩ := p
    rw [ho] at ht
    simp only at ht
    cases hr : s.readers[i]? with
    | none => rw [hr] at ht; cases ht
    | some r =>
      rw [hr] at ht
      obtain rfl := Option.some.inj ht
      have hr' : r ∈ s.readers := List.mem_of_getElem? hr
      have hp : (i, l) ∈ s.outbox := by rw [ho]; exact List.mem_cons_self
      have hrest : ∀ p ∈ rest, p ∈ s.outbox := fun p hp => by rw [ho]; exact List.mem_cons_of_mem _ hp
      -- a reader of the new state is one of the old with as much on its way
      have hway : ∀ j r', (s.readers.set i { r with inbox := r.inbox ++ [l] })[j]? = some r' →
          ∃ r₀, s.readers[j]? = some r₀ ∧ r'.printed = r₀.printed ∧ r'.left = r₀.left ∧
            ∀ k, onWay { s with outbox := rest, readers := s.readers.set i { r with inbox := r.inbox ++ [l] } } j r' k =
              onWay s j r₀ k := by
        intro j r' hj
        rcases getElem?_set_cases hj with ⟨rfl, rfl⟩ | ⟨hne, hj⟩
        · refine ⟨r, hr, rfl, rfl, fun k => ?_⟩
          unfold onWay
          simp only [ho, outboxOf_cons, if_true, List.map_append, List.map_cons, List.map_nil, List.count_append,
            List.count_cons, List.count_nil]
          omega
        · refine ⟨r', hj, rfl, rfl, fun k => ?_⟩
          unfold onWay
          simp only [ho, outboxOf_cons, if_neg (Ne.symm hne)]
      exact { h with
        readersLength := by rw [List.length_set]; exact h.readersLength
        registered := by rw [List.length_set]; exact h.registered
        addressed := fun p hp => by rw [List.length_set]; exact h.addressed p (hrest p hp)
        sends := fun p hp => h.sends p (hrest p hp)
        letters := by
          intro r' hmem l' hl'
          rcases List.mem_or_eq_of_mem_set hmem with hmem | rfl
          · exact h.letters r' hmem l' hl'
          · rcases hl' with hl' | hl'
            · rcases List.mem_append.1 hl' with hl' | hl'
              · exact h.letters r hr' l' (.inl hl')
              · rw [List.mem_singleton.1 hl']; exact h.sends _ hp
            · exact h.letters r hr' l' (.inr hl')
        once := by
          intro j r' k hj
          obtain ⟨r₀, hr₀, -, -, he⟩ := hway j r' hj
          rw [he]; exact h.once j r₀ k hr₀
        kept := by
          intro j r' k m hj hd
          obtain ⟨r₀, hr₀, -, -, he⟩ := hway j r' hj
          rw [he]; exact h.kept j r₀ k m hr₀ hd
        opened := by
          intro hrun
          obtain ⟨hout, hreaders⟩ := h.opened hrun
          refine ⟨fun p hp => hout p (hrest p hp), fun r' hmem => ?_⟩
          rcases List.mem_or_eq_of_mem_set hmem with hmem | rfl
          · exact hreaders r' hmem
          · refine ⟨(hreaders r hr').1, fun l' hl' => ?_⟩
            rcases List.mem_append.1 hl' with hl' | hl'
            · exact (hreaders r hr').2 l' hl'
            · rw [List.mem_singleton.1 hl']; exact hout _ hp
        closed := fun hrun => ⟨fun p hp => (h.closed hrun).1 p (hrest p hp), (h.closed hrun).2⟩
        delivered := by
          intro j r' hj hleft k m hd
          obtain ⟨r₀, hr₀, hprinted, hleft₀, -⟩ := hway j r' hj
          rw [hprinted]
          exact h.delivered j r₀ hr₀ (hleft₀.symm.trans hleft) k m hd }

/-- **What a receive does**: the client leaves at a close, and prints anything else. -/
theorem Reader.recv_cases {r r' : Reader} (h : r.recv = some r') :
    r.left = false ∧ ∃ l rest, pop Letter.prio r.inbox = some (l, rest) ∧
      ((l.prio = 3 ∧ r' = { r with inbox := rest, left := true }) ∨
       (l.prio ≠ 3 ∧ r' = { r with inbox := rest, printed := r.printed ++ [l] })) := by
  unfold Reader.recv at h
  by_cases hleft : r.left = true
  · rw [if_pos hleft] at h; cases h
  · rw [if_neg hleft] at h
    refine ⟨by simpa using hleft, ?_⟩
    cases hp : pop Letter.prio r.inbox with
    | none => rw [hp] at h; cases h
    | some p =>
      obtain ⟨l, rest⟩ := p
      rw [hp] at h
      simp only at h
      refine ⟨l, rest, rfl, ?_⟩
      by_cases h3 : l.prio = 3
      · rw [if_pos h3] at h; exact .inl ⟨h3, (Option.some.inj h).symm⟩
      · rw [if_neg h3] at h; exact .inr ⟨h3, (Option.some.inj h).symm⟩

theorem recvStep_cases {s t : Net} {i : Nat} (h : recvStep s i = some t) :
    ∃ r r', s.readers[i]? = some r ∧ r.recv = some r' ∧ t = { s with readers := s.readers.set i r' } := by
  unfold recvStep at h
  cases hr : s.readers[i]? with
  | none => rw [hr] at h; cases h
  | some r =>
    rw [hr] at h
    obtain ⟨r', hr', rfl⟩ := Option.map_eq_some_iff.1 h
    exact ⟨r, r', rfl, hr', rfl⟩

theorem count_of_pop {inbox rest : List Letter} {l : Letter} (h : pop Letter.prio inbox = some (l, rest)) (k : Nat) :
    (inbox.map Letter.number).count k = (rest.map Letter.number).count k + if l.number = k then 1 else 0 := by
  rw [((PriorityQueue.pop_perm h).map Letter.number).count_eq k, List.map_cons, List.count_cons]
  simp only [beq_iff_eq]

theorem mem_of_pop {inbox rest : List Letter} {l : Letter} (h : pop Letter.prio inbox = some (l, rest)) :
    l ∈ inbox ∧ ∀ x ∈ rest, x ∈ inbox := by
  have hp := PriorityQueue.pop_perm h
  exact ⟨hp.mem_iff.2 List.mem_cons_self, fun x hx => hp.mem_iff.2 (List.mem_cons_of_mem _ hx)⟩

theorem NetInv.not_running {s : Net} (h : NetInv s) {r : Reader} (hr : r ∈ s.readers) {l : Letter} (hl : l ∈ r.inbox)
    (h3 : l.prio = 3) : s.server.running = false := by
  cases hrun : s.server.running with
  | false => rfl
  | true =>
    have := ((h.opened hrun).2 r hr).2 l hl
    rw [h3] at this; cases this

/-- A due text that is nowhere on its way has been printed. -/
theorem NetInv.printed {s : Net} (h : NetInv s) {i k : Nat} {r : Reader} {m : Received} (hr : s.readers[i]? = some r)
    (hd : Due s.put i k m) (hwait : NoneWaits s i r) (hrun : s.server.running = false) : ⟨1, k, m.buf⟩ ∈ r.printed := by
  have hr' : r ∈ s.readers := List.mem_of_getElem? hr
  have hqueue : (s.queue.map Prod.fst).count k = 0 := List.count_eq_zero.2 fun hk => by
    obtain ⟨q, hq, rfl⟩ := List.mem_map.1 hk
    obtain rfl : q.2 = m := Option.some.inj ((h.queued q hq).symm.trans hd.1)
    exact hwait.1 q hq hd
  have hout : (outboxOf s.outbox i).count k = 0 := List.count_eq_zero.2 fun hk => by
    obtain ⟨p, hp, rfl⟩ := List.mem_map.1 hk
    have hp := (List.mem_filter.1 hp).1
    have h1 := congrArg Letter.prio ((h.sends p hp).eq_of_due hd)
    have h3 := (h.closed hrun).1 p hp
    rw [h3] at h1; cases h1
  have hinbox : (r.inbox.map Letter.number).count k = 0 := List.count_eq_zero.2 fun hk => by
    obtain ⟨l, hl, rfl⟩ := List.mem_map.1 hk
    exact hwait.2 l hl m hd.1 hd
  have hkept := h.kept i r k m hr hd
  unfold onWay at hkept
  rw [hqueue, hout, hinbox] at hkept
  obtain ⟨l, hl, rfl⟩ := List.mem_map.1 (List.count_pos_iff.1 (by omega : 0 < (r.printed.map Letter.number).count k))
  rw [← (h.letters r hr' l (.inr hl)).eq_of_due hd]
  exact hl

theorem NetInv.recv {s t : Net} {i : Nat} (h : NetInv s) (hok : ClosesLast s (.recv i)) (ht : recvStep s i = some t) :
    NetInv t := by
  obtain ⟨r, r', hr, hrecv, rfl⟩ := recvStep_cases ht
  obtain ⟨hleft, l, rest, hpop, hcases⟩ := Reader.recv_cases hrecv
  have hr' : r ∈ s.readers := List.mem_of_getElem? hr
  obtain ⟨hl, hrest⟩ := mem_of_pop hpop
  have hgen := h.letters r hr' l (.inl hl)
  have hway : ∀ k, onWay s i r' k + (if l.prio = 3 ∧ l.number = k then 1 else 0) = onWay s i r k := by
    intro k
    unfold onWay
    rw [count_of_pop hpop k]
    rcases hcases with ⟨h3, rfl⟩ | ⟨h3, rfl⟩
    · simp only [h3, true_and]
      omega
    · simp only [h3, false_and, if_false, List.map_append, List.map_cons, List.map_nil, List.count_append,
        List.count_singleton, beq_iff_eq]
      omega
  exact { h with
    readersLength := by rw [List.length_set]; exact h.readersLength
    registered := by rw [List.length_set]; exact h.registered
    addressed := fun p hp => by rw [List.length_set]; exact h.addressed p hp
    letters := by
      intro r₁ hmem l₁ hl₁
      rcases List.mem_or_eq_of_mem_set hmem with hmem | rfl
      · exact h.letters r₁ hmem l₁ hl₁
      · rcases hcases with ⟨-, rfl⟩ | ⟨-, rfl⟩
        · rcases hl₁ with hl₁ | hl₁
          · exact h.letters r hr' l₁ (.inl (hrest l₁ hl₁))
          · exact h.letters r hr' l₁ (.inr hl₁)
        · rcases hl₁ with hl₁ | hl₁
          · exact h.letters r hr' l₁ (.inl (hrest l₁ hl₁))
          · rcases List.mem_append.1 hl₁ with hl₁ | hl₁
            · exact h.letters r hr' l₁ (.inr hl₁)
            · rw [List.mem_singleton.1 hl₁]; exact hgen
    once := by
      intro j r₁ k hj
      rcases getElem?_set_cases hj with ⟨rfl, rfl⟩ | ⟨-, hj⟩
      · have := h.once j r k hr
        have := hway k
        exact Nat.le_trans (Nat.le_add_right _ _) (by omega : onWay s j r₁ k + 0 ≤ 1)
      · exact h.once j r₁ k hj
    kept := by
      intro j r₁ k m hj hd
      rcases getElem?_set_cases hj with ⟨rfl, rfl⟩ | ⟨-, hj⟩
      · have hk := h.kept j r k m hr hd
        have hne : ¬ (l.prio = 3 ∧ l.number = k) := by
          rintro ⟨h3, rfl⟩
          have h1 := congrArg Letter.prio (hgen.eq_of_due hd)
          rw [h3] at h1; cases h1
        have hw := hway k
        rw [if_neg hne] at hw
        exact Nat.le_trans hk (Nat.le_of_eq hw.symm)
      · exact h.kept j r₁ k m hj hd
    opened := by
      intro hrun
      obtain ⟨hout, hreaders⟩ := h.opened hrun
      refine ⟨hout, fun r₁ hmem => ?_⟩
      rcases List.mem_or_eq_of_mem_set hmem with hmem | rfl
      · exact hreaders r₁ hmem
      · have hall := (hreaders r hr').2
        rcases hcases with ⟨h3, -⟩ | ⟨-, rfl⟩
        · have := hall l hl
          rw [h3] at this; cases this
        · exact ⟨hleft, fun l₁ hl₁ => hall l₁ (hrest l₁ hl₁)⟩
    delivered := by
      intro j r₁ hj hleft₁ k m hd
      rcases getElem?_set_cases hj with ⟨rfl, rfl⟩ | ⟨-, hj⟩
      · rcases hcases with ⟨h3, rfl⟩ | ⟨-, rfl⟩
        · have hp : ⟨1, k, m.buf⟩ ∈ r.printed :=
            h.printed hr hd (hok r hr (by rw [hpop, ← h3]; rfl)) (h.not_running hr' hl h3)
          exact hp
        · rw [hleft] at hleft₁; cases hleft₁
      · exact h.delivered j r₁ hj hleft₁ k m hd }

/-- **A close that overtakes a text loses it.** -/
theorem not_delivered_recv {s t : Net} {i : Nat} (h : NetInv s) (hok : ¬ ClosesLast s (.recv i))
    (ht : recvStep s i = some t) : ¬ Delivered t := by
  obtain ⟨r, r', hr, hrecv, rfl⟩ := recvStep_cases ht
  obtain ⟨-, l, rest, hpop, hcases⟩ := Reader.recv_cases hrecv
  have hnot : l.prio = 3 ∧ ¬ NoneWaits s i r := by
    refine Classical.byContradiction fun hn => hok fun r₁ hr₁ h3 => Classical.byContradiction fun hw => ?_
    obtain rfl : r = r₁ := Option.some.inj (hr.symm.trans hr₁)
    rw [hpop] at h3
    exact hn ⟨Option.some.inj h3, hw⟩
  obtain ⟨h3, hwait⟩ := hnot
  have hr'' : r' = { r with inbox := rest, left := true } := by
    rcases hcases with ⟨-, he⟩ | ⟨hne, -⟩
    · exact he
    · exact absurd h3 hne
  subst hr''
  -- a text that waits has not been printed: it is on its way once
  have hlost : ∃ k m, Due s.put i k m ∧
      0 < (s.queue.map Prod.fst).count k + (r.inbox.map Letter.number).count k := by
    refine Classical.byContradiction fun hn => hwait ⟨fun q hq hd => hn ⟨q.1, q.2, hd, ?_⟩,
      fun l₁ hl₁ m _ hd => hn ⟨l₁.number, m, hd, ?_⟩⟩
    · exact Nat.add_pos_left (List.count_pos_iff.2 (List.mem_map_of_mem hq)) _
    · exact Nat.add_pos_right _ (List.count_pos_iff.2 (List.mem_map_of_mem hl₁))
  obtain ⟨k, m, hd, hpos⟩ := hlost
  intro hall
  have hlt : i < s.readers.length := (List.getElem?_eq_some_iff.1 hr).1
  have hmem := hall i _ (List.getElem?_set_self hlt) rfl k m hd
  have hcount : 0 < (r.printed.map Letter.number).count k :=
    List.count_pos_iff.2 (List.mem_map_of_mem (f := Letter.number) hmem)
  have hone := h.once i r k hr
  unfold onWay at hone
  omega

theorem outboxOf_range (n : Nat) (l : Letter) (i : Nat) :
    outboxOf ((List.range n).map fun j => (j, l)) i = if i < n then [l.number] else [] := by
  unfold outboxOf
  exact map_filter_addressed n i l fun p => p.2.number

/-- **What a message makes the server do**: a text or a close goes to every client there is, anything else to nobody;
a connection is registered; a close stops the server. -/
theorem receive_net {s t : Server} {ms : List Received} {xs : List Message} {m : Received} (hb : Broadcast ms s xs)
    (ht : receive s m = some t) (k : Nat) :
    (lettersOf s t k m = if m.prio = 1 ∨ m.prio = 3 then
        (List.range s.clients.length).map fun i => (i, ⟨m.prio, k, if m.prio = 1 then m.buf else []⟩) else []) ∧
    ((m.prio = 3 ∧ t.running = false) ∨
      (m.prio ≠ 3 ∧ t.running = true ∧ t.clients.length = s.clients.length + (if m.prio = 2 then 1 else 0) ∧
        ∃ ms xs, Broadcast ms t xs)) := by
  unfold lettersOf
  obtain ⟨-, ⟨h2, hroom, he⟩ | ⟨h3, rfl⟩ | ⟨h1, hsender, -⟩ | ⟨h1, h2, h3, rfl⟩⟩ := receive_cases ht
  · obtain ⟨t', ht', hbt⟩ := hb.connect h2 hroom
    obtain rfl := Option.some.inj (ht.symm.trans ht')
    have hsent : t.sent = s.sent := by rw [he]
    refine ⟨?_, .inr ⟨by omega, hbt.running, ?_, _, _, hbt⟩⟩
    · rw [hsent, List.drop_length, if_neg (by omega), if_neg (by omega)]; rfl
    · rw [hbt.clients, hb.clients, if_pos h2]
      simp [connections, h2]
  · refine ⟨?_, .inl ⟨h3, rfl⟩⟩
    rw [if_pos h3, if_pos (.inr h3), h3]; rfl
  · obtain ⟨t', x, ht', hsent, hbt⟩ := hb.text h1 hsender
    obtain rfl := Option.some.inj (ht.symm.trans ht')
    have h2 : m.prio ≠ 2 := by omega
    have h3 : m.prio ≠ 3 := by omega
    refine ⟨?_, .inr ⟨h3, hbt.running, ?_, _, _, hbt⟩⟩
    · rw [if_neg h3, if_pos (.inl h1), if_pos h1, hsent, List.drop_left, List.map_map, h1]; rfl
    · rw [hbt.clients, hb.clients, if_neg h2]
      simp [connections, h2]
  · refine ⟨?_, .inr ⟨h3, hb.running, ?_, _, _, hb⟩⟩
    · rw [if_neg h3, if_neg (fun h => h.elim h1 h3), List.drop_length]; rfl
    · rw [if_neg h2]; rfl

theorem takeStep_cases {s t : Net} (h : takeStep s = some t) :
    s.outbox = [] ∧ ∃ k m rest u, pop (fun q : Nat × Received => q.2.prio) s.queue = some ((k, m), rest) ∧
      receive s.server m = some u ∧ t = { s with server := u, queue := rest, outbox := lettersOf s.server u k m } := by
  unfold takeStep at h
  by_cases ho : s.outbox = []
  · rw [if_pos ho] at h
    refine ⟨ho, ?_⟩
    cases hp : pop (fun q : Nat × Received => q.2.prio) s.queue with
    | none => rw [hp] at h; cases h
    | some r =>
      obtain ⟨⟨k, m⟩, rest⟩ := r
      rw [hp] at h
      obtain ⟨u, hu, rfl⟩ := Option.map_eq_some_iff.1 h
      exact ⟨k, m, rest, u, rfl, hu, rfl⟩
  · rw [if_neg ho] at h; cases h

/-- The letters a message makes the server send are its own, to clients there are. -/
theorem mem_lettersOf {s t : Server} {put ms : List Received} {xs : List Message} {m : Received} {k : Nat}
    (hb : Broadcast ms s xs) (ht : receive s m = some t) (hkm : put[k]? = some m) {p : Nat × Letter}
    (hp : p ∈ lettersOf s t k m) : p.1 < s.clients.length ∧ p.2.prio = m.prio ∧ Genuine put p.2 := by
  rw [(receive_net hb ht k).1] at hp
  split at hp
  · rename_i h13
    obtain ⟨i, hi, rfl⟩ := List.mem_map.1 hp
    refine ⟨List.mem_range.1 hi, rfl, m, hkm, rfl, ?_⟩
    rcases h13 with h1 | h3
    · exact .inl ⟨h1, if_pos h1⟩
    · exact .inr h3
  · cases hp

theorem outboxOf_lettersOf {s t : Server} {ms : List Received} {xs : List Message} {m : Received} (hb : Broadcast ms s xs)
    (ht : receive s m = some t) (k i : Nat) : outboxOf (lettersOf s t k m) i =
      if (m.prio = 1 ∨ m.prio = 3) ∧ i < s.clients.length then [k] else [] := by
  rw [(receive_net hb ht k).1]
  by_cases h13 : m.prio = 1 ∨ m.prio = 3
  · rw [if_pos h13, outboxOf_range]
    simp [h13]
  · rw [if_neg h13, if_neg (fun hn => h13 hn.1)]; rfl

/-- When a text is taken, nothing of a higher priority is left in the queue: every client it is due to is registered. -/
theorem NetInv.registered_of_due {s : Net} (h : NetInv s) (hrun : s.server.running = true) {k i : Nat} {m : Received}
    {rest : List (Nat × Received)} (hpop : pop (fun q : Nat × Received => q.2.prio) s.queue = some ((k, m), rest))
    (hd : Due s.put i k m) : i < s.server.clients.length := by
  have hnone : s.queue.countP (fun q => q.2.prio == 2) = 0 := by
    apply List.countP_eq_zero.2
    intro q hq h2
    have hmax := PriorityQueue.pop_max hpop hq
    rw [hd.2.1, eq_of_beq h2] at hmax
    omega
  have hconn : connections (s.put.take k) ≤ connections s.put := List.Sublist.countP_le (List.take_sublist k _)
  have hi : i < connections (s.put.take k) := hd.2.2.2
  have hreg := h.registered hrun
  have hlen := h.readersLength
  omega

theorem NetInv.take {s t : Net} (h : NetInv s) (ht : takeStep s = some t) : NetInv t := by
  obtain ⟨ho, k, m, rest, u, hpop, hu, rfl⟩ := takeStep_cases ht
  have hrun := (receive_cases hu).1
  obtain ⟨ms, xs, hb⟩ := h.broadcast hrun
  obtain ⟨-, hafter⟩ := receive_net hb hu k
  have hperm := PriorityQueue.pop_perm hpop
  have hkm : s.put[k]? = some m := h.queued (k, m) (hperm.mem_iff.2 List.mem_cons_self)
  have hrest : ∀ q ∈ rest, q ∈ s.queue := fun q hq => hperm.mem_iff.2 (List.mem_cons_of_mem _ hq)
  have hcount : ∀ j, (s.queue.map Prod.fst).count j = (rest.map Prod.fst).count j + if k = j then 1 else 0 := by
    intro j
    rw [(hperm.map Prod.fst).count_eq j, List.map_cons, List.count_cons]
    simp only [beq_iff_eq]
  have hconns : s.queue.countP (fun q => q.2.prio == 2) =
      rest.countP (fun q => q.2.prio == 2) + if m.prio = 2 then 1 else 0 := by
    rw [hperm.countP_eq, List.countP_cons]
    simp only [beq_iff_eq]
  have hreg := h.registered hrun
  have hmem : ∀ p ∈ lettersOf s.server u k m, p.1 < s.server.clients.length ∧ p.2.prio = m.prio ∧ Genuine s.put p.2 :=
    fun p hp => mem_lettersOf hb hu hkm hp
  have hout := outboxOf_lettersOf hb hu k
  have hempty : ∀ i j, (outboxOf s.outbox i).count j = 0 := by
    intro i j; rw [ho]; rfl
  exact { h with
    broadcast := by
      intro hrun'
      rcases hafter with ⟨-, hstop⟩ | ⟨-, -, -, hb'⟩
      · rw [hstop] at hrun'; cases hrun'
      · exact hb'
    queued := fun q hq => h.queued q (hrest q hq)
    queuedOnce := by
      intro j
      have := h.queuedOnce j
      have := hcount j
      show (rest.map Prod.fst).count j ≤ 1
      omega
    registered := by
      intro hrun'
      rcases hafter with ⟨-, hstop⟩ | ⟨-, -, hlen, -⟩
      · rw [hstop] at hrun'; cases hrun'
      · show u.clients.length + rest.countP (fun q => q.2.prio == 2) = s.readers.length
        omega
    addressed := by
      intro p hp
      have := (hmem p hp).1
      show p.1 < s.readers.length
      omega
    sends := fun p hp => (hmem p hp).2.2
    once := by
      intro i r j hr
      have hone := h.once i r j hr
      unfold onWay at hone ⊢
      rw [hcount, hempty] at hone
      simp only [hout]
      by_cases hi : (m.prio = 1 ∨ m.prio = 3) ∧ i < s.server.clients.length
      · rw [if_pos hi, List.count_singleton]
        simp only [beq_iff_eq]
        omega
      · rw [if_neg hi, List.count_nil]
        omega
    kept := by
      intro i r j c hr hd
      have hk := h.kept i r j c hr hd
      unfold onWay at hk ⊢
      rw [hcount, hempty] at hk
      simp only [hout]
      by_cases hj : k = j
      · -- the due text is the one taken: its client is registered, and the letter is written
        subst hj
        obtain rfl : m = c := Option.some.inj (hkm.symm.trans hd.1)
        rw [if_pos ⟨.inl hd.2.1, h.registered_of_due hrun hpop hd⟩, List.count_singleton_self]
        omega
      · rw [if_neg hj] at hk
        omega
    opened := by
      intro hrun'
      rcases hafter with ⟨-, hstop⟩ | ⟨h3, -, -, -⟩
      · rw [hstop] at hrun'; cases hrun'
      · refine ⟨fun p hp => ?_, (h.opened hrun).2⟩
        obtain ⟨-, hprio, c, hc, hcp, hcase⟩ := hmem p hp
        rcases hcase with ⟨h1, -⟩ | hc3
        · rw [hcp, h1]
        · exact absurd (hprio.symm.trans (hcp.trans hc3)) h3
    closed := by
      intro hstop
      rcases hafter with ⟨h3, -⟩ | ⟨-, hrun', -, -⟩
      · exact ⟨fun p hp => (hmem p hp).2.1.trans h3, m, List.mem_of_getElem? hkm, h3⟩
      · rw [hrun'] at hstop; cases hstop
    delivered := h.delivered }

/-! ## Runs -/

theorem netInv_step (s : Net) (e : NetEvent) (t : Net) (h : NetInv s) (hok : ClosesLast s e)
    (ht : netStep s e = some t) : NetInv t := by
  cases e with
  | put m =>
    obtain rfl := Option.some.inj ht
    exact h.put m
  | take => exact h.take ht
  | send => exact h.send ht
  | recv i => exact h.recv hok ht

theorem not_delivered_step (s : Net) (e : NetEvent) (t : Net) (h : NetInv s) (hok : ¬ ClosesLast s e)
    (ht : netStep s e = some t) : ¬ Delivered t := by
  cases e with
  | recv i => exact not_delivered_recv h hok ht
  | put m => exact absurd trivial hok
  | take => exact absurd trivial hok
  | send => exact absurd trivial hok

theorem netInv_init {n : Nat} (hn : 1 ≤ n) {s₀ : Server} (h₀ : chatServer n = some s₀) : NetInv (.init s₀) where
  broadcast := fun _ => ⟨[], [], broadcast_init hn h₀⟩
  queued := nofun
  queuedOnce := fun _ => Nat.zero_le _
  readersLength := rfl
  registered := fun _ => (broadcast_init hn h₀).clients
  addressed := nofun
  sends := nofun
  letters := nofun
  once := nofun
  kept := nofun
  opened := fun _ => ⟨nofun, nofun⟩
  closed := fun h => absurd ((broadcast_init hn h₀).running.symm.trans h) (by decide)
  delivered := nofun

/-- **Exactly when no text is lost at shutdown**: along a run every client that has left has printed the texts it had
to, if and only if no client receives a close while a text for it waits in the connection queue or in its own. -/
theorem delivered_iff (n : Nat) (hn : 1 ≤ n) (s₀ : Server) (h₀ : chatServer n = some s₀) (es : List NetEvent) (u : Net)
    (hrun : run netStep (.init s₀) es = some u) :
    Always netStep Delivered (.init s₀) es ↔ Steps netStep ClosesLast (.init s₀) es :=
  Run.always_iff_steps NetInv netInv_step (fun _ h => h.delivered) not_delivered_step (netInv_init hn h₀) hrun

/-- One client, its text and its close, each put when the queues are empty. -/
def quietClose : List NetEvent :=
  [.put ⟨2, str ['a'], []⟩, .take, .put ⟨1, str ['a', ':', 'x'], []⟩, .take, .send, .recv 0, .put ⟨3, [], []⟩, .take,
    .send, .recv 0]

theorem delivered_quietClose : Always netStep Delivered (.init ((chatServer 10).get rfl)) quietClose := by
  have hrun : (run netStep (.init ((chatServer 10).get rfl)) quietClose).isSome = true := by decide +kernel
  exact (delivered_iff 10 (by decide) _ (Option.some_get rfl).symm quietClose _ (Option.some_get hrun).symm).2
    (by decide +kernel)

/-- The close is put while the text is still in the connection queue: the server takes the close first. -/
def overtakingClose : List NetEvent :=
  [.put ⟨2, str ['a'], []⟩, .take, .put ⟨1, str ['a', ':', 'x'], []⟩, .put ⟨3, [], []⟩, .take, .send, .recv 0]

theorem text_lost :
    ∃ u, run netStep (.init ((chatServer 10).get rfl)) overtakingClose = some u ∧
      ¬ Always netStep Delivered (.init ((chatServer 10).get rfl)) overtakingClose := by
  refine ⟨_, rfl, fun hall => ?_⟩
  have hmem := hall _ _ (List.prefix_refl _) rfl 0 _ rfl rfl 1 ⟨1, str ['a', ':', 'x'], []⟩ (by decide)
  exact absurd hmem (by decide)

end MsgQueue
end Eltex
