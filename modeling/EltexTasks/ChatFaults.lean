import EltexTasks.ChatBroadcast
import EltexTasks.ChatSender
/-!
# ChatFaults — the messages the queue chat's server cannot take

Anybody can write to the connection queue.  A message makes the server store outside `clients`, count a text's start
from a failed search, or follow a NULL client, exactly as the messages before it say (`tolerated`).
-/
namespace Eltex
namespace MsgQueue

open Run (run Steps)

/-- The partial operations of a step: a store outside `clients`, a search for ':' that fails, a NULL client given to
`add_message`. -/
inductive Fault where
  | outsideClients
  | failedSearch
  | nullClient
deriving DecidableEq, Repr

/-- What goes wrong in the step that takes `m`, if anything does. -/
def fault (s : Server) (m : Received) : Option Fault :=
  if s.running = false then none
  else if m.prio = 2 then if s.clients.length < clientsAllocated then none else some .outsideClients
  else if m.prio = 1 then
    match strchr m.buf (chr ':') with
    | none => some .failedSearch
    | some nameLength =>
      match findUserByName (m.buf.take nameLength ++ m.tail) s.clients with
      | none => some .nullClient
      | some _ => none
  else none

/-- A message and whether the calls made for it succeed: `mq_open` for a connection, each `mq_send` for a text. -/
structure Delivery where
  msg : Received
  ok : Bool
deriving DecidableEq, Repr

/-- A failing call ends the server with `exit(1)`; the results of the sends at a close are not looked at. -/
def receiveIo (s : Server) (d : Delivery) : Option Server :=
  (receive s d.msg).map fun t =>
    if d.ok = false ∧ (d.msg.prio = 2 ∨ d.msg.prio = 1) then { t with running := false } else t

def noFault (s : Server) (d : Delivery) : Prop := fault s d.msg = none

instance (s : Server) (d : Delivery) : Decidable (noFault s d) := inferInstanceAs (Decidable (_ = _))

/-- The deliveries that do no harm, after connections under `names`: up to the first close or failing call, there is
room for every connection, and every text has a colon and begins with one of the names. -/
def tolerated : List CString → List Delivery → Prop
  | _, [] => True
  | names, d :: ds =>
    if d.msg.prio = 2 then
      names.length < clientsAllocated ∧ (d.ok = true → tolerated (names ++ [d.msg.buf.take 99]) ds)
    else if d.msg.prio = 3 then True
    else if d.msg.prio = 1 then
      (∃ name ∈ senderName d.msg, name ∈ names) ∧ (d.ok = true → tolerated names ds)
    else tolerated names ds

theorem findUserByName_eq_none {name : CString} {clients : List ClientRec} :
    findUserByName name clients = none ↔ name ∉ clients.map ClientRec.username := by
  unfold findUserByName
  rw [List.find?_eq_none, List.mem_map]
  constructor
  · rintro h ⟨c, hc, rfl⟩
    exact h c hc (beq_self_eq_true _)
  · intro h c hc he
    exact h ⟨c, hc, eq_of_beq he⟩

/-- A text is harmless exactly when its sender is found. -/
theorem fault_text {s : Server} {m : Received} (hrun : s.running = true) (hm : m.prio = 1) :
    fault s m = none ↔ ∃ name ∈ senderName m, name ∈ s.clients.map ClientRec.username := by
  unfold fault senderName
  rw [if_neg (by rw [hrun]; decide), if_neg (by rw [hm]; decide), if_pos hm]
  cases hs : strchr m.buf (chr ':') with
  | none => simp
  | some n =>
    simp only [Option.map_some, Option.mem_def, Option.some.injEq, exists_eq_left']
    cases hf : findUserByName (m.buf.take n ++ m.tail) s.clients with
    | none => simpa using findUserByName_eq_none.1 hf
    | some c =>
      simp only [true_iff]
      refine Classical.byContradiction fun hn => ?_
      rw [findUserByName_eq_none.2 hn] at hf
      cases hf

theorem senderOf_isSome {s : Server} {m : Received} :
    (senderOf s m).isSome = true ↔ ∃ name ∈ senderName m, name ∈ s.clients.map ClientRec.username := by
  rw [senderOf_eq]
  cases senderName m with
  | none => simp
  | some name =>
    rw [Option.bind_some, Option.isSome_iff_ne_none, Ne, findUserByName_eq_none]
    simp

/-- A message of no priority the server knows is dropped. -/
theorem Broadcast.other {ms : List Received} {s : Server} {xs : List Message} (h : Broadcast ms s xs) {m : Received}
    (h1 : m.prio ≠ 1) (h2 : m.prio ≠ 2) (h3 : m.prio ≠ 3) : receive s m = some s ∧ Broadcast (ms ++ [m]) s xs := by
  refine ⟨?_, { h with clients := ?_, sent := fun i => ?_ }⟩
  · unfold receive
    rw [if_neg (by rw [h.running]; decide), if_neg h2, if_neg h3, if_neg h1]
  · simpa [connections, h2] using h.clients
  · rw [textsSince_concat, if_neg (fun hm => h1 hm.2), List.append_nil]
    exact h.sent i

theorem steps_stopped {s : Server} (h : s.running = false) (ds : List Delivery) : Steps receiveIo noFault s ds := by
  intro pre d t hpre hrun
  have hnone : ∀ x, receiveIo s x = none := fun x => by unfold receiveIo receive; rw [if_pos h]; rfl
  cases pre with
  | nil =>
    obtain rfl : s = t := by simpa using hrun
    unfold noFault fault; rw [if_pos h]
  | cons x pre => rw [Run.run_cons, hnone] at hrun; cases hrun

theorem receiveIo_of_receive {s t : Server} {d : Delivery} (ht : receive s d.msg = some t) :
    receiveIo s d = some (if d.ok = false ∧ (d.msg.prio = 2 ∨ d.msg.prio = 1) then { t with running := false } else t) := by
  unfold receiveIo; rw [ht]; rfl

/-- After a connection or a text the server goes on if the calls made for it succeed. -/
theorem steps_receiveIo {s t : Server} {d : Delivery} (hp : d.msg.prio = 2 ∨ d.msg.prio = 1)
    (ht : receive s d.msg = some t) (ds : List Delivery) :
    (∀ m ∈ receiveIo s d, Steps receiveIo noFault m ds) ↔ (d.ok = true → Steps receiveIo noFault t ds) := by
  rw [receiveIo_of_receive ht]
  by_cases hok : d.ok = true
  · rw [if_neg (fun h => by rw [hok] at h; cases h.1)]
    simp [hok]
  · rw [if_pos ⟨by simpa using hok, hp⟩]
    simp [hok, steps_stopped]

theorem connect_usernames {s t : Server} {buf : CString} (h : connect s buf = some t) :
    t.clients.map ClientRec.username = s.clients.map ClientRec.username ++ [buf.take 99] := by
  unfold connect at h
  split at h
  · obtain rfl := Option.some.inj h
    rw [List.map_append]; rfl
  · cases h

theorem handleText_clients {s t : Server} {m : Received} (h : handleText s m = some t) : t.clients = s.clients := by
  unfold handleText at h
  obtain ⟨client, -, h⟩ := Option.bind_eq_some_iff.1 h
  obtain ⟨r, -, rfl⟩ := Option.map_eq_some_iff.1 h
  rfl

theorem receive_of_running {s : Server} {m : Received} (hrun : s.running = true) :
    (m.prio = 2 → receive s m = connect s m.buf) ∧ (m.prio = 3 → receive s m = some { s with running := false }) ∧
      (m.prio = 1 → receive s m = handleText s m) := by
  unfold receive
  rw [if_neg (by rw [hrun]; decide)]
  refine ⟨fun h => if_pos h, fun h => ?_, fun h => ?_⟩
  · rw [if_neg (by rw [h]; decide), if_pos h]
  · rw [if_neg (by rw [h]; decide), if_neg (by rw [h]; decide), if_pos h]

/-- **Exactly when the server survives**: from a server that has registered `names`, no delivery does harm if and only
if they are tolerated. -/
theorem steps_iff_tolerated : ∀ (ds : List Delivery) {ms : List Received} {s : Server} {xs : List Message},
    Broadcast ms s xs → (Steps receiveIo noFault s ds ↔ tolerated (s.clients.map ClientRec.username) ds)
  | [], _, _, _, _ => ⟨fun _ => trivial, fun _ => Run.steps_nil⟩
  | d :: ds, ms, s, xs, h => by
    rw [Run.steps_cons]
    unfold tolerated
    have hrun := h.running
    obtain ⟨hconnect, hclose, htext⟩ := receive_of_running (m := d.msg) hrun
    by_cases h2 : d.msg.prio = 2
    · rw [if_pos h2, List.length_map]
      have hfault : noFault s d ↔ s.clients.length < clientsAllocated := by
        unfold noFault fault
        rw [if_neg (by rw [hrun]; decide), if_pos h2]
        by_cases hroom : s.clients.length < clientsAllocated
        · simp [hroom]
        · simp [hroom]
      rw [hfault]
      refine and_congr_right fun hroom => ?_
      obtain ⟨t, ht, hbt⟩ := h.connect h2 hroom
      rw [steps_receiveIo (.inl h2) ht, steps_iff_tolerated ds hbt, connect_usernames ((hconnect h2).symm.trans ht)]
    · rw [if_neg h2]
      by_cases h3 : d.msg.prio = 3
      · rw [if_pos h3, iff_true]
        refine ⟨?_, fun m hm => ?_⟩
        · unfold noFault fault
          rw [if_neg (by rw [hrun]; decide), if_neg h2, if_neg (by rw [h3]; decide)]
        · have h1 : d.msg.prio ≠ 1 := by rw [h3]; decide
          rw [receiveIo_of_receive (hclose h3), if_neg (fun hn => hn.2.elim h2 h1)] at hm
          obtain rfl := Option.some.inj hm
          exact steps_stopped rfl ds
      · rw [if_neg h3]
        by_cases h1 : d.msg.prio = 1
        · rw [if_pos h1]
          have hfault : noFault s d ↔ _ := fault_text hrun h1
          rw [hfault]
          refine and_congr_right fun hname => ?_
          obtain ⟨t, x, ht, -, hbt⟩ := h.text h1 (senderOf_isSome.2 hname)
          rw [steps_receiveIo (.inr h1) ht, steps_iff_tolerated ds hbt,
            handleText_clients ((htext h1).symm.trans ht)]
        · rw [if_neg h1]
          obtain ⟨ht, hbt⟩ := h.other h1 h2 h3
          have hfault : noFault s d := by
            unfold noFault fault
            rw [if_neg (by rw [hrun]; decide), if_neg h2, if_neg h1]
          have hio : receiveIo s d = some s := by
            rw [receiveIo_of_receive ht, if_neg (fun hn => hn.2.elim h2 h1)]
          rw [hio, ← steps_iff_tolerated ds hbt]
          simp [hfault]

/-- **Exactly when `chat_server` survives**, whatever is written to the connection queue. -/
theorem chatServer_survives_iff (n : Nat) (hn : 1 ≤ n) (s₀ : Server) (h₀ : chatServer n = some s₀)
    (ds : List Delivery) : Steps receiveIo noFault s₀ ds ↔ tolerated [] ds := by
  have hclients : s₀.clients = [] := by
    unfold chatServer at h₀
    obtain ⟨buf, -, rfl⟩ := Option.map_eq_some_iff.1 h₀
    rfl
  have := steps_iff_tolerated ds (broadcast_init hn h₀)
  rwa [hclients] at this

/-- A connection, a text under its name, a close and a text nobody takes. -/
theorem survives_close :
    Steps receiveIo noFault ((chatServer 10).get rfl)
      [⟨⟨2, str ['a'], []⟩, true⟩, ⟨⟨1, str ['a', ':', 'x'], []⟩, true⟩, ⟨⟨3, [], []⟩, true⟩,
        ⟨⟨1, str ['x'], []⟩, true⟩] :=
  (chatServer_survives_iff 10 (by decide) _ (Option.some_get rfl).symm _).2
    ⟨by decide, fun _ => ⟨⟨str ['a'], by decide, by decide⟩, fun _ => trivial⟩⟩

/-- A text without a colon, a text under a name nobody has, an eleventh connection. -/
theorem chatServer_faults :
    ¬ Steps receiveIo noFault ((chatServer 10).get rfl) [⟨⟨1, str ['h', 'i'], []⟩, true⟩] ∧
    ¬ Steps receiveIo noFault ((chatServer 10).get rfl) [⟨⟨1, str ['a', ':', 'x'], []⟩, true⟩] ∧
    ¬ Steps receiveIo noFault ((chatServer 10).get rfl) (List.replicate 11 ⟨⟨2, str ['a'], []⟩, true⟩) := by
  decide

end MsgQueue
end Eltex
