import EltexTasks.ChatShutdown
import EltexTasks.Feed
/-!
# ChatOrder — every client of the queue chat prints the same conversation

Whatever the clients put into the connection queue and whenever anybody gets to run, the closes included: what can be
seen of the chat is what can be seen of a `Feed`, whose log is the texts in the order in which the server takes them,
and that is the order in which they were put (`net_is_feed`).
-/
namespace Eltex
namespace MsgQueue

open Run (run trace)
open PriorityQueue (pop)

/-- What can be seen of an event: the server registers a client or takes a text, a client prints what it receives. -/
def seen (s : Net) : NetEvent → List (Feed.Event Letter)
  | .put _ => []
  | .take =>
    match pop (fun q : Nat × Received => q.2.prio) s.queue with
    | none => []
    | some ((number, m), _) =>
      if m.prio = 2 then [.subscribe] else if m.prio = 1 then [.publish ⟨1, number, m.buf⟩] else []
  | .send => []
  | .recv i =>
    match (s.readers[i]?).bind fun r => pop Letter.prio r.inbox with
    | none => []
    | some (l, _) => if l.prio = 3 then [] else [.give i l]

def printedBy (s : Net) (i : Nat) : List Letter := ((s.readers[i]?).map Reader.printed).getD []

def inboxOf (s : Net) (i : Nat) : List Letter := ((s.readers[i]?).map Reader.inbox).getD []

/-- The letters to client `i` the server has yet to send. -/
def sendsTo (outbox : List (Nat × Letter)) (i : Nat) : List Letter := (outbox.filter (fun p => p.1 == i)).map Prod.snd

def textLetters (ls : List Letter) : List Letter := ls.filter (fun l => l.prio == 1)

/-- A letter is a text or a close. -/
def Letter.Proper (l : Letter) : Prop := l.prio = 1 ∨ l.prio = 3

/-- **What a client has printed, with the texts on their way to it, is the log from its registration on.** -/
structure Delivering (s : Net) (f : Feed Letter) : Prop where
  broadcast : s.server.running = true → ∃ ms xs, Broadcast ms s.server xs
  proper : (∀ p ∈ s.outbox, p.2.Proper) ∧ ∀ i, ∀ l ∈ inboxOf s i, l.Proper
  registered : s.server.running = true → f.subscribers.length = s.server.clients.length
  screens : ∀ i sub, f.subscribers[i]? = some sub → sub.start ≤ f.log.length ∧ sub.given = printedBy s i ∧
    sub.given ++ textLetters (inboxOf s i ++ sendsTo s.outbox i) = f.log.drop sub.start
  others : ∀ i, f.subscribers.length ≤ i → printedBy s i = [] ∧ inboxOf s i = [] ∧ sendsTo s.outbox i = []

variable {s t : Net} {f : Feed Letter} {i : Nat}

@[simp] theorem textLetters_append (ls ms : List Letter) : textLetters (ls ++ ms) = textLetters ls ++ textLetters ms :=
  List.filter_append ..

theorem sendsTo_cons (j : Nat) (l : Letter) (rest : List (Nat × Letter)) (i : Nat) :
    sendsTo ((j, l) :: rest) i = (if j = i then [l] else []) ++ sendsTo rest i := by
  unfold sendsTo
  by_cases h : j = i
  · simp [h]
  · simp [h]

theorem sendsTo_range (n : Nat) (l : Letter) (i : Nat) :
    sendsTo ((List.range n).map fun j => (j, l)) i = if i < n then [l] else [] :=
  map_filter_addressed n i l Prod.snd

theorem printedBy_set {r : Reader} (hr : s.readers[i]? = some r) (outbox : List (Nat × Letter)) (r' : Reader)
    (j : Nat) : printedBy { s with outbox := outbox, readers := s.readers.set i r' } j =
      if j = i then r'.printed else printedBy s j := by
  unfold printedBy
  by_cases h : j = i
  · subst h
    rw [if_pos rfl, List.getElem?_set_self (List.getElem?_eq_some_iff.1 hr).1]
    rfl
  · rw [if_neg h, List.getElem?_set_ne (Ne.symm h)]

theorem inboxOf_set {r : Reader} (hr : s.readers[i]? = some r) (outbox : List (Nat × Letter)) (r' : Reader)
    (j : Nat) : inboxOf { s with outbox := outbox, readers := s.readers.set i r' } j =
      if j = i then r'.inbox else inboxOf s j := by
  unfold inboxOf
  by_cases h : j = i
  · subst h
    rw [if_pos rfl, List.getElem?_set_self (List.getElem?_eq_some_iff.1 hr).1]
    rfl
  · rw [if_neg h, List.getElem?_set_ne (Ne.symm h)]

theorem of_reader {r : Reader} (hr : s.readers[i]? = some r) : printedBy s i = r.printed ∧ inboxOf s i = r.inbox := by
  rw [printedBy, inboxOf, hr]
  exact ⟨rfl, rfl⟩

/-! ## The steps -/

theorem Delivering.put (h : Delivering s f) (m : Received) : Delivering (putStep s m) f := by
  have hreaders : ∀ j, printedBy (putStep s m) j = printedBy s j ∧ inboxOf (putStep s m) j = inboxOf s j := by
    intro j
    unfold printedBy inboxOf
    cases hr : (putStep s m).readers[j]? with
    | none =>
      have hold : s.readers[j]? = none := by
        rw [List.getElem?_eq_none_iff] at hr ⊢
        rw [length_readers_putStep] at hr
        omega
      rw [hold]
      exact ⟨rfl, rfl⟩
    | some r =>
      rcases readers_putStep hr with hold | ⟨-, hj, rfl⟩
      · rw [hold]
        exact ⟨rfl, rfl⟩
      · have hold : s.readers[j]? = none := List.getElem?_eq_none_iff.2 (Nat.le_of_eq hj.symm)
        rw [hold]
        exact ⟨rfl, rfl⟩
  refine ⟨h.broadcast, ⟨h.proper.1, fun j => ?_⟩, h.registered, fun j sub hj => ?_, fun j hj => ?_⟩
  · rw [(hreaders j).2]
    exact h.proper.2 j
  · rw [(hreaders j).1, (hreaders j).2]
    exact h.screens j sub hj
  · rw [(hreaders j).1, (hreaders j).2]
    exact h.others j hj

theorem sendStep_cases (ht : sendStep s = some t) : ∃ i l rest r, s.outbox = (i, l) :: rest ∧ s.readers[i]? = some r ∧
    t = { s with outbox := rest, readers := s.readers.set i { r with inbox := r.inbox ++ [l] } } := by
  unfold sendStep at ht
  cases hout : s.outbox with
  | nil => rw [hout] at ht; cases ht
  | cons p rest =>
    obtain ⟨i, l⟩ := p
    rw [hout] at ht
    simp only at ht
    cases hr : s.readers[i]? with
    | none => rw [hr] at ht; cases ht
    | some r =>
      rw [hr] at ht
      exact ⟨i, l, rest, r, rfl, hr, (Option.some.inj ht).symm⟩

theorem Delivering.send (h : Delivering s f) (ht : sendStep s = some t) : Delivering t f := by
  obtain ⟨i, l, rest, r, hout, hr, rfl⟩ := sendStep_cases ht
  -- the letter goes from the outbox to the end of the inbox
  have hprinted : ∀ j, (if j = i then r.printed else printedBy s j) = printedBy s j := by
    intro j
    split
    · rename_i hji; rw [hji, (of_reader hr).1]
    · rfl
  have hinbox : ∀ j, (if j = i then r.inbox ++ [l] else inboxOf s j) = inboxOf s j ++ if i = j then [l] else [] := by
    intro j
    by_cases hji : j = i
    · rw [if_pos hji, if_pos hji.symm, hji, (of_reader hr).2]
    · rw [if_neg hji, if_neg (Ne.symm hji), List.append_nil]
  have hsends : ∀ j, sendsTo s.outbox j = (if i = j then [l] else []) ++ sendsTo rest j := by
    intro j
    rw [hout, sendsTo_cons]
  refine ⟨h.broadcast, ⟨fun p hp => ?_, fun j x hx => ?_⟩, h.registered, fun j sub hj => ?_, fun j hj => ?_⟩
  · exact h.proper.1 p (by rw [hout]; exact List.mem_cons_of_mem _ hp)
  · rw [inboxOf_set hr, hinbox] at hx
    rcases List.mem_append.1 hx with hx | hx
    · exact h.proper.2 j x hx
    · split at hx
      · rw [List.mem_singleton.1 hx]
        exact h.proper.1 (i, l) (by rw [hout]; exact List.mem_cons_self)
      · cases hx
  · obtain ⟨hstart, hgiven, hscreen⟩ := h.screens j sub hj
    rw [printedBy_set hr, inboxOf_set hr, hprinted, hinbox, List.append_assoc, ← hsends]
    exact ⟨hstart, hgiven, hscreen⟩
  · obtain ⟨hp, hi, hs⟩ := h.others j hj
    rw [hsends, List.append_eq_nil_iff] at hs
    rw [printedBy_set hr, inboxOf_set hr, hprinted, hinbox, hi, hs.1]
    exact ⟨hp, rfl, hs.2⟩

/-- A text that is received is the oldest letter of the inbox. -/
theorem inbox_of_pop {inbox rest : List Letter} {l : Letter} (hproper : ∀ x ∈ inbox, x.Proper)
    (hpop : pop Letter.prio inbox = some (l, rest)) (h3 : l.prio ≠ 3) : inbox = l :: rest ∧ l.prio = 1 := by
  obtain ⟨before, after, rfl, rfl, hbefore, -⟩ := PriorityQueue.pop_eq_some hpop
  have h1 : l.prio = 1 := (hproper l (by simp)).resolve_right h3
  have hnil : before = [] := by
    refine List.eq_nil_iff_forall_not_mem.2 fun x hx => ?_
    have hlt := hbefore x hx
    rcases hproper x (List.mem_append_left _ hx) with h | h
    · omega
    · omega
  rw [hnil]
  exact ⟨rfl, h1⟩

/-- A close that is received leaves the texts where they are. -/
theorem textLetters_of_pop {inbox rest : List Letter} {l : Letter} (hpop : pop Letter.prio inbox = some (l, rest))
    (h3 : l.prio = 3) : textLetters rest = textLetters inbox := by
  obtain ⟨before, after, rfl, rfl, -, -⟩ := PriorityQueue.pop_eq_some hpop
  have hl : textLetters (l :: after) = textLetters after := List.filter_cons_of_neg (by simp [h3])
  rw [textLetters_append, textLetters_append, hl]

theorem Delivering.recv (h : Delivering s f) (ht : recvStep s i = some t) :
    ∃ g, run Feed.step f (seen s (.recv i)) = some g ∧ Delivering t g := by
  obtain ⟨r, r', hr, hrecv, rfl⟩ := recvStep_cases ht
  obtain ⟨-, l, rest, hpop, hcase⟩ := Reader.recv_cases hrecv
  obtain ⟨hprinted, hinbox⟩ := of_reader hr
  have hproper : ∀ x ∈ r.inbox, x.Proper := by
    rw [← hinbox]; exact h.proper.2 i
  have hmem : ∀ x ∈ rest, x ∈ r.inbox := fun x hx =>
    (PriorityQueue.pop_perm hpop).symm.subset (List.mem_cons_of_mem _ hx)
  have hlt : i < f.subscribers.length := by
    by_contra hge
    have hnil := (h.others i (Nat.le_of_not_lt hge)).2.1
    rw [hinbox] at hnil
    rw [hnil] at hpop
    cases hpop
  have hseen : seen s (.recv i) = if l.prio = 3 then [] else [.give i l] := by
    simp only [seen, hr, Option.bind_some, hpop]
  rw [hseen]
  have hpropers : ∀ inbox', (∀ x ∈ inbox', x ∈ r.inbox) →
      ∀ j, ∀ x ∈ if j = i then inbox' else inboxOf s j, x.Proper := by
    intro inbox' hsub j x hx
    split at hx
    · exact hproper x (hsub x hx)
    · exact h.proper.2 j x hx
  rcases hcase with ⟨h3, rfl⟩ | ⟨h3, rfl⟩
  · rw [if_pos h3]
    refine ⟨f, rfl, h.broadcast, ⟨h.proper.1, fun j => ?_⟩, h.registered, fun j sub hj => ?_, fun j hj => ?_⟩
    · rw [inboxOf_set hr]
      exact hpropers rest hmem j
    · obtain ⟨hstart, hgiven, hscreen⟩ := h.screens j sub hj
      rw [printedBy_set hr, inboxOf_set hr]
      by_cases hji : j = i
      · subst hji
        rw [if_pos rfl, if_pos rfl, textLetters_append, textLetters_of_pop hpop h3, ← hinbox, ← textLetters_append]
        exact ⟨hstart, hgiven.trans hprinted, hscreen⟩
      · rw [if_neg hji, if_neg hji]
        exact ⟨hstart, hgiven, hscreen⟩
    · have hji : j ≠ i := by omega
      rw [printedBy_set hr, inboxOf_set hr, if_neg hji, if_neg hji]
      exact h.others j hj
  · rw [if_neg h3]
    obtain ⟨hhead, h1⟩ := inbox_of_pop hproper hpop h3
    obtain ⟨sub, hsub⟩ : ∃ sub, f.subscribers[i]? = some sub := ⟨_, List.getElem?_eq_getElem hlt⟩
    obtain ⟨hstart, hgiven, hscreen⟩ := h.screens i sub hsub
    have htexts : textLetters (l :: rest) = l :: textLetters rest := List.filter_cons_of_pos (by simp [h1])
    rw [hinbox, hhead, textLetters_append, htexts] at hscreen
    have hnext : f.next sub = some l := by
      rw [Feed.next, ← List.getElem?_drop, ← hscreen, List.getElem?_append_right (Nat.le_refl _), Nat.sub_self]
      rfl
    have hg : Feed.step f (.give i l) =
        some { f with subscribers := f.subscribers.set i { sub with given := sub.given ++ [l] } } := by
      simp only [Feed.step, hsub]
      exact if_pos hnext
    refine ⟨_, by rw [Run.run_cons, hg]; rfl, h.broadcast, ⟨h.proper.1, fun j => ?_⟩, fun hrun => ?_,
      fun j sub' hj => ?_, fun j hj => ?_⟩
    · rw [inboxOf_set hr]
      exact hpropers rest hmem j
    · rw [List.length_set]
      exact h.registered hrun
    · rw [printedBy_set hr, inboxOf_set hr]
      rcases getElem?_set_cases hj with ⟨rfl, rfl⟩ | ⟨hne, hold⟩
      · rw [if_pos rfl, if_pos rfl]
        refine ⟨hstart, ?_, ?_⟩
        · show sub.given ++ [l] = r.printed ++ [l]
          rw [hgiven, hprinted]
        · show sub.given ++ [l] ++ textLetters (rest ++ sendsTo s.outbox j) = f.log.drop sub.start
          rw [textLetters_append, ← hscreen, List.append_assoc]
          rfl
      · rw [if_neg hne, if_neg hne]
        exact h.screens j sub' hold
    · rw [List.length_set] at hj
      have hji : j ≠ i := by omega
      rw [printedBy_set hr, inboxOf_set hr, if_neg hji, if_neg hji]
      exact h.others j hj

/-- What a message taken puts on the way to client `j`. -/
theorem sendsTo_lettersOf {s u : Server} {ms : List Received} {xs : List Message} {m : Received}
    (hb : Broadcast ms s xs) (hu : receive s m = some u) (k j : Nat) : sendsTo (lettersOf s u k m) j =
      if (m.prio = 1 ∨ m.prio = 3) ∧ j < s.clients.length then [⟨m.prio, k, if m.prio = 1 then m.buf else []⟩]
      else [] := by
  rw [(receive_net hb hu k).1]
  by_cases h13 : m.prio = 1 ∨ m.prio = 3
  · rw [if_pos h13, sendsTo_range]
    simp [h13]
  · rw [if_neg h13, if_neg (fun hn => h13 hn.1)]; rfl

theorem seen_take {k : Nat} {m : Received} {rest : List (Nat × Received)}
    (hpop : pop (fun q : Nat × Received => q.2.prio) s.queue = some ((k, m), rest)) : seen s .take =
      if m.prio = 2 then [.subscribe] else if m.prio = 1 then [.publish ⟨1, k, m.buf⟩] else [] := by
  simp only [seen, hpop]

theorem Delivering.take (h : Delivering s f) (ht : takeStep s = some t) :
    ∃ g, run Feed.step f (seen s .take) = some g ∧ Delivering t g := by
  obtain ⟨hempty, k, m, rest, u, hpop, hu, rfl⟩ := takeStep_cases ht
  have hrun := (receive_cases hu).1
  obtain ⟨ms, xs, hb⟩ := h.broadcast hrun
  have hafter := (receive_net hb hu k).2
  have hsends := sendsTo_lettersOf hb hu k
  have hregistered := h.registered hrun
  have hbroadcast : u.running = true → ∃ ms xs, Broadcast ms u xs := by
    intro hrun'
    rcases hafter with ⟨-, hstop⟩ | ⟨-, -, -, hb'⟩
    · rw [hstop] at hrun'; cases hrun'
    · exact hb'
  have hproper : (∀ p ∈ lettersOf s.server u k m, p.2.Proper) ∧ ∀ i, ∀ l ∈ inboxOf s i, l.Proper := by
    refine ⟨fun p hp => ?_, h.proper.2⟩
    rw [(receive_net hb hu k).1] at hp
    split at hp
    · rename_i h13
      obtain ⟨j, -, rfl⟩ := List.mem_map.1 hp
      exact h13
    · cases hp
  have hscreens : ∀ j sub, f.subscribers[j]? = some sub → sub.start ≤ f.log.length ∧ sub.given = printedBy s j ∧
      sub.given ++ textLetters (inboxOf s j) = f.log.drop sub.start := by
    intro j sub hj
    have hscreen := h.screens j sub hj
    rw [hempty] at hscreen
    simpa [sendsTo] using hscreen
  have hothers : ∀ j, f.subscribers.length ≤ j →
      printedBy s j = [] ∧ inboxOf s j = [] ∧ sendsTo (lettersOf s.server u k m) j = [] := by
    intro j hj
    obtain ⟨hp, hi, -⟩ := h.others j hj
    refine ⟨hp, hi, ?_⟩
    rw [hsends, if_neg (fun hn => by omega)]
  rw [seen_take hpop]
  by_cases h2 : m.prio = 2
  · -- a connection: the client is registered, and nothing is sent
    rw [if_pos h2]
    have hnone : ∀ j, sendsTo (lettersOf s.server u k m) j = [] := fun j => by
      rw [hsends, if_neg (fun hn => by omega)]
    refine ⟨{ f with subscribers := f.subscribers ++ [⟨f.log.length, []⟩] }, rfl, hbroadcast, hproper, fun hrun' => ?_,
      fun j sub hj => ?_, fun j hj => ?_⟩
    · rcases hafter with ⟨-, hstop⟩ | ⟨-, -, hclients, -⟩
      · rw [hstop] at hrun'; cases hrun'
      · rw [hclients, if_pos h2, ← hregistered, List.length_append]
        rfl
    · show sub.start ≤ f.log.length ∧ sub.given = printedBy s j ∧
        sub.given ++ textLetters (inboxOf s j ++ sendsTo (lettersOf s.server u k m) j) = f.log.drop sub.start
      rw [hnone, List.append_nil]
      rcases getElem?_concat_cases hj with hold | ⟨hlast, rfl⟩
      · exact hscreens j sub hold
      · obtain ⟨hp, hi, -⟩ := h.others j (Nat.le_of_eq hlast.symm)
        rw [hp, hi]
        exact ⟨Nat.le_refl _, rfl, List.drop_length.symm⟩
    · rw [List.length_append, List.length_singleton] at hj
      exact hothers j (by omega)
  rw [if_neg h2]
  have hlength : u.running = true → f.subscribers.length = u.clients.length := by
    intro hrun'
    rcases hafter with ⟨-, hstop⟩ | ⟨-, -, hclients, -⟩
    · rw [hstop] at hrun'; cases hrun'
    · rw [hclients, if_neg h2, Nat.add_zero, hregistered]
  by_cases h1 : m.prio = 1
  · -- a text: it is sent to every client registered
    rw [if_pos h1]
    refine ⟨{ f with log := f.log ++ [⟨1, k, m.buf⟩] }, rfl, hbroadcast, hproper, hlength, fun j sub hj => ?_, hothers⟩
    obtain ⟨hstart, hgiven, hscreen⟩ := hscreens j sub hj
    have hj' : j < s.server.clients.length := by
      rw [← hregistered]
      exact (List.getElem?_eq_some_iff.1 hj).1
    have hsend : sendsTo (lettersOf s.server u k m) j = [⟨1, k, m.buf⟩] := by
      rw [hsends, if_pos ⟨.inl h1, hj'⟩, if_pos h1, h1]
    refine ⟨?_, hgiven, ?_⟩
    · rw [List.length_append]
      exact Nat.le_add_right_of_le hstart
    · show sub.given ++ textLetters (inboxOf s j ++ sendsTo (lettersOf s.server u k m) j) = _
      rw [hsend, textLetters_append, ← List.append_assoc, hscreen, List.drop_append_of_le_length hstart]
      rfl
  · -- a close, or a message of no priority the server knows: no text is sent
    rw [if_neg h1]
    refine ⟨f, rfl, hbroadcast, hproper, hlength, fun j sub hj => ?_, hothers⟩
    obtain ⟨hstart, hgiven, hscreen⟩ := hscreens j sub hj
    have hsend : textLetters (sendsTo (lettersOf s.server u k m) j) = [] := by
      rw [hsends]
      split
      · exact List.filter_cons_of_neg (by simpa using h1)
      · rfl
    refine ⟨hstart, hgiven, ?_⟩
    show sub.given ++ textLetters (inboxOf s j ++ sendsTo (lettersOf s.server u k m) j) = _
    rw [textLetters_append, hsend, List.append_nil, hscreen]

/-! ## The order of the log -/

/-- **The log is in the order in which the texts were put**, and what is still in the connection queue comes later. -/
structure PutOrder (s : Net) (log : List Letter) : Prop where
  queued : ∀ q ∈ s.queue, s.put[q.1]? = some q.2
  sorted : (s.queue.map Prod.fst).Pairwise (· < ·)
  texts : ∀ l ∈ log, ∃ m, s.put[l.number]? = some m ∧ m.prio = 1 ∧ l.text = m.buf
  increasing : (log.map Letter.number).Pairwise (· < ·)
  earlier : ∀ l ∈ log, ∀ q ∈ s.queue, q.2.prio = 1 → l.number < q.1

variable {log : List Letter}

theorem PutOrder.put (h : PutOrder s log) (m : Received) : PutOrder (putStep s m) log := by
  have hlt : ∀ q ∈ s.queue, q.1 < s.put.length := fun q hq => (List.getElem?_eq_some_iff.1 (h.queued q hq)).1
  refine ⟨fun q hq => ?_, ?_, fun l hl => ?_, h.increasing, fun l hl q hq h1 => ?_⟩
  · rcases List.mem_append.1 hq with hq | hq
    · exact getElem?_concat_of_some (h.queued q hq)
    · rw [List.mem_singleton.1 hq]
      exact List.getElem?_concat_length
  · show ((s.queue ++ [(s.put.length, m)]).map Prod.fst).Pairwise (· < ·)
    rw [List.map_append, List.pairwise_append]
    refine ⟨h.sorted, List.pairwise_singleton .., fun x hx y hy => ?_⟩
    obtain ⟨q, hq, rfl⟩ := List.mem_map.1 hx
    rw [List.mem_singleton.1 hy]
    exact hlt q hq
  · obtain ⟨m', hm', h1, htext⟩ := h.texts l hl
    exact ⟨m', getElem?_concat_of_some hm', h1, htext⟩
  · rcases List.mem_append.1 hq with hq | hq
    · exact h.earlier l hl q hq h1
    · obtain ⟨m', hm', -⟩ := h.texts l hl
      rw [List.mem_singleton.1 hq]
      exact (List.getElem?_eq_some_iff.1 hm').1

theorem PutOrder.take (h : PutOrder s log) {k : Nat} {m : Received} {rest : List (Nat × Received)}
    (hpop : pop (fun q : Nat × Received => q.2.prio) s.queue = some ((k, m), rest)) (u : Server)
    (outbox : List (Nat × Letter)) :
    PutOrder { s with server := u, queue := rest, outbox := outbox }
      (if m.prio = 1 then log ++ [⟨1, k, m.buf⟩] else log) := by
  obtain ⟨before, after, hqueue, rfl, hbefore, -⟩ := PriorityQueue.pop_eq_some hpop
  have hsub : ∀ q ∈ before ++ after, q ∈ s.queue := fun q hq =>
    (PriorityQueue.pop_perm hpop).symm.subset (List.mem_cons_of_mem _ hq)
  have hmem : (k, m) ∈ s.queue := by rw [hqueue]; simp
  have hsorted := h.sorted
  rw [hqueue, List.map_append, List.map_cons, List.pairwise_append, List.pairwise_cons] at hsorted
  obtain ⟨hbefores, ⟨hk, hafters⟩, hcross⟩ := hsorted
  have hrest : ((before ++ after).map Prod.fst).Pairwise (· < ·) := by
    rw [List.map_append, List.pairwise_append]
    exact ⟨hbefores, hafters, fun x hx y hy => hcross x hx y (List.mem_cons_of_mem _ hy)⟩
  by_cases h1 : m.prio = 1
  · rw [if_pos h1]
    refine ⟨fun q hq => h.queued q (hsub q hq), hrest, fun l hl => ?_, ?_, fun l hl q hq hq1 => ?_⟩
    · rcases List.mem_append.1 hl with hl | hl
      · exact h.texts l hl
      · rw [List.mem_singleton.1 hl]
        exact ⟨m, h.queued _ hmem, h1, rfl⟩
    · rw [List.map_append, List.pairwise_append]
      refine ⟨h.increasing, List.pairwise_singleton .., fun x hx y hy => ?_⟩
      obtain ⟨l, hl, rfl⟩ := List.mem_map.1 hx
      rw [List.mem_singleton.1 hy]
      exact h.earlier l hl (k, m) hmem h1
    · rcases List.mem_append.1 hl with hl | hl
      · exact h.earlier l hl q (hsub q hq) hq1
      · -- what was older than the text and is left has a lower priority
        rw [List.mem_singleton.1 hl]
        rcases List.mem_append.1 hq with hq | hq
        · have hlt := hbefore q hq
          simp only [hq1, h1] at hlt
          exact absurd hlt (Nat.lt_irrefl 1)
        · exact hk q.1 (List.mem_map_of_mem hq)
  · rw [if_neg h1]
    exact ⟨fun q hq => h.queued q (hsub q hq), hrest, h.texts, h.increasing,
      fun l hl q hq hq1 => h.earlier l hl q (hsub q hq) hq1⟩

theorem putOrder_recv (h : PutOrder s log) (ht : recvStep s i = some t) : PutOrder t log := by
  obtain ⟨r, r', -, -, rfl⟩ := recvStep_cases ht
  exact ⟨h.queued, h.sorted, h.texts, h.increasing, h.earlier⟩

theorem putOrder_send (h : PutOrder s log) (ht : sendStep s = some t) : PutOrder t log := by
  obtain ⟨i, l, rest, r, -, -, rfl⟩ := sendStep_cases ht
  exact ⟨h.queued, h.sorted, h.texts, h.increasing, h.earlier⟩

theorem published_recv (s : Net) (i : Nat) : Feed.published (seen s (.recv i)) = [] := by
  unfold seen
  simp only
  split
  · rfl
  · split <;> rfl

/-! ## Runs -/

/-- What a step of the chat shows is a step of the feed, or nothing. -/
theorem net_simulation {e : NetEvent} (h : Delivering s f ∧ PutOrder s f.log) (ht : netStep s e = some t) :
    ∃ g, run Feed.step f (seen s e) = some g ∧ Delivering t g ∧ PutOrder t g.log := by
  obtain ⟨hd, ho⟩ := h
  cases e with
  | put m =>
    obtain rfl := Option.some.inj ht
    exact ⟨f, rfl, hd.put m, ho.put m⟩
  | send => exact ⟨f, rfl, hd.send ht, putOrder_send ho ht⟩
  | recv i =>
    obtain ⟨g, hg, hdg⟩ := hd.recv ht
    refine ⟨g, hg, hdg, ?_⟩
    rw [Feed.log_of_run hg, published_recv, List.append_nil]
    exact putOrder_recv ho ht
  | take =>
    obtain ⟨g, hg, hdg⟩ := hd.take ht
    refine ⟨g, hg, hdg, ?_⟩
    obtain ⟨-, k, m, rest, u, hpop, -, rfl⟩ := takeStep_cases ht
    have hlog : g.log = if m.prio = 1 then f.log ++ [⟨1, k, m.buf⟩] else f.log := by
      rw [Feed.log_of_run hg, seen_take hpop]
      by_cases h2 : m.prio = 2
      · rw [if_pos h2, if_neg (by omega)]
        exact List.append_nil _
      · rw [if_neg h2]
        split
        · rfl
        · exact List.append_nil _
    rw [hlog]
    exact ho.take hpop u _

theorem delivering_init {n : Nat} (hn : 1 ≤ n) {s₀ : Server} (h₀ : chatServer n = some s₀) :
    Delivering (.init s₀) .empty where
  broadcast := fun _ => ⟨[], [], broadcast_init hn h₀⟩
  proper := ⟨nofun, nofun⟩
  registered := fun _ => ((broadcast_init hn h₀).clients).symm
  screens := nofun
  others := fun _ _ => ⟨rfl, rfl, rfl⟩

theorem putOrder_init (s₀ : Server) : PutOrder (.init s₀) [] :=
  ⟨nofun, List.Pairwise.nil, nofun, List.Pairwise.nil, nofun⟩

/-- **One conversation**: along every run, whatever is put into the connection queue and whenever it is closed, what is
seen of the chat is what can be seen of a feed.  Its log is texts in the order they were put; what a client has printed
is the log from the client's registration on, as far as it goes, and any two clients agree. -/
theorem net_is_feed (n : Nat) (hn : 1 ≤ n) (s₀ : Server) (h₀ : chatServer n = some s₀) (es : List NetEvent) (u : Net)
    (hrun : run netStep (.init s₀) es = some u) :
    ∃ f : Feed Letter, run Feed.step .empty (trace netStep seen (.init s₀) es) = some f ∧
      (f.log.map Letter.number).Pairwise (· < ·) ∧
      (∀ l ∈ f.log, ∃ m, u.put[l.number]? = some m ∧ m.prio = 1 ∧ l.text = m.buf) ∧
      (∀ (i : Nat) (r : Reader), u.readers[i]? = some r → r.printed = [] ∨
        ∃ sub : Subscriber Letter, f.subscribers[i]? = some sub ∧ r.printed = sub.given ∧
          sub.given <+: f.log.drop sub.start) ∧
      ∀ a ∈ f.subscribers, ∀ b ∈ f.subscribers, a.start ≤ b.start →
        a.given.drop (b.start - a.start) <+: b.given ∨ b.given <+: a.given.drop (b.start - a.start) := by
  have hsim : ∀ s f e t, Delivering s f ∧ PutOrder s f.log → True → netStep s e = some t →
      ∃ g, run Feed.step f (seen s e) = some g ∧ Delivering t g ∧ PutOrder t g.log :=
    fun _ _ _ _ h _ ht => net_simulation h ht
  obtain ⟨f, hf, hd, ho⟩ := Run.run_trace hsim es (.init s₀) u .empty ⟨delivering_init hn h₀, putOrder_init s₀⟩
    (fun _ _ _ _ _ => trivial) hrun
  have hpieces := Feed.pieces_of_run hf
  refine ⟨f, hf, ho.increasing, ho.texts, fun i r hr => ?_, fun a ha b hb hab => hpieces.agree ha hb hab⟩
  obtain ⟨hprinted, -⟩ := of_reader hr
  cases hsub : f.subscribers[i]? with
  | none =>
    left
    rw [← hprinted]
    exact (hd.others i (List.getElem?_eq_none_iff.1 hsub)).1
  | some sub =>
    right
    exact ⟨sub, rfl, hprinted.symm.trans (hd.screens i sub hsub).2.1.symm, (hpieces sub (List.mem_of_getElem? hsub)).2⟩

/-- Two clients; the second one connects when a text has been sent. -/
def lateClient : List NetEvent :=
  let text (c : Char) : Received := ⟨1, str ['a', ':', c], []⟩
  [.put ⟨2, str ['a'], []⟩, .take, .put (text 'x'), .take, .send, .put ⟨2, str ['b'], []⟩, .take, .put (text 'y'),
    .take, .send, .send, .recv 1, .recv 0, .recv 0]

theorem net_is_feed_lateClient :
    ∃ f : Feed Letter, run Feed.step .empty (trace netStep seen (.init ((chatServer 10).get rfl)) lateClient) = some f ∧
      (f.log.map Letter.number).Pairwise (· < ·) := by
  have hrun : (run netStep (.init ((chatServer 10).get rfl)) lateClient).isSome = true := by decide +kernel
  obtain ⟨f, hf, hincreasing, -⟩ := net_is_feed 10 (by decide) _ (Option.some_get rfl).symm lateClient _
    (Option.some_get hrun).symm
  exact ⟨f, hf, hincreasing⟩

end MsgQueue
end Eltex
