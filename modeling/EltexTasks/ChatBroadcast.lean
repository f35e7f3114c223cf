import Mathlib.Data.List.Nodup
import EltexTasks.ChatUpdates
import EltexTasks.Update
/-!
# ChatBroadcast — the order in which the clients of the queue chat get the texts

Along every run in which the messages are connections and texts whose sender the server finds, each text is sent once,
when it is received, to every client connected by then, whatever the size of the circular buffer and however often it
has wrapped (`broadcast_order`).
-/
namespace Eltex
namespace MsgQueue

open Run (run Steps)

/-- The texts among the messages received. -/
def texts (ms : List Received) : List CString := (ms.filter (fun m => m.prio == 1)).map Received.buf

/-- The texts received after the `i`-th connection, counted from 0. -/
def textsSince : Nat → List Received → List CString
  | _, [] => []
  | i, m :: ms =>
    if m.prio = 2 then
      match i with
      | 0 => texts ms
      | i + 1 => textsSince i ms
    else textsSince i ms

def connections (ms : List Received) : Nat := ms.countP (fun m => m.prio == 2)

theorem texts_append (ms : List Received) (m : Received) :
    texts (ms ++ [m]) = texts ms ++ if m.prio = 1 then [m.buf] else [] := by
  unfold texts
  rw [List.filter_append, List.map_append]
  congr 1
  by_cases h : m.prio = 1
  · simp [h]
  · simp [h]

theorem textsSince_concat (m : Received) : ∀ (i : Nat) (ms : List Received),
    textsSince i (ms ++ [m]) = textsSince i ms ++ if i < connections ms ∧ m.prio = 1 then [m.buf] else []
  | i, [] => by
    have hnil : textsSince i [m] = [] := by
      unfold textsSince
      split
      · cases i <;> rfl
      · rfl
    simp [hnil, textsSince, connections]
  | i, m₀ :: ms => by
    rw [List.cons_append]
    by_cases h2 : m₀.prio = 2
    · have hconn : connections (m₀ :: ms) = connections ms + 1 := by simp [connections, h2]
      cases i with
      | zero =>
        simp only [textsSince, h2, if_true, texts_append, hconn]
        simp
      | succ i =>
        simp only [textsSince, h2, if_true, textsSince_concat m i ms, hconn, Nat.add_lt_add_iff_right]
    · have hconn : connections (m₀ :: ms) = connections ms := by simp [connections, h2]
      simp only [textsSince, h2, if_false, textsSince_concat m i ms, hconn]

theorem textsSince_eq_nil : ∀ (i : Nat) (ms : List Received), connections ms ≤ i → textsSince i ms = []
  | _, [], _ => rfl
  | i, m :: ms, h => by
    by_cases h2 : m.prio = 2
    · have hconn : connections (m :: ms) = connections ms + 1 := by simp [connections, h2]
      cases i with
      | zero => omega
      | succ i =>
        simp only [textsSince, h2, if_true]
        exact textsSince_eq_nil i ms (by omega)
    · have hconn : connections (m :: ms) = connections ms := by simp [connections, h2]
      simp only [textsSince, h2, if_false]
      exact textsSince_eq_nil i ms (by omega)

theorem textsSince_suffix_texts : ∀ (i : Nat) (ms : List Received), textsSince i ms <:+ texts ms
  | _, [] => List.suffix_refl _
  | i, m :: ms => by
    have htexts : texts ms <:+ texts (m :: ms) := by
      unfold texts
      rw [List.filter_cons]
      split
      · exact List.suffix_cons _ _
      · exact List.suffix_refl _
    by_cases h2 : m.prio = 2
    · cases i with
      | zero => simpa only [textsSince, h2, if_true] using htexts
      | succ i =>
        simp only [textsSince, h2, if_true]
        exact (textsSince_suffix_texts i ms).trans htexts
    · simp only [textsSince, h2, if_false]
      exact (textsSince_suffix_texts i ms).trans htexts

/-- What a later client has been sent is a suffix of what an earlier one has. -/
theorem textsSince_suffix : ∀ (i j : Nat) (ms : List Received), i ≤ j → textsSince j ms <:+ textsSince i ms
  | _, _, [], _ => List.suffix_refl _
  | i, j, m :: ms, hij => by
    by_cases h2 : m.prio = 2
    · cases j with
      | zero =>
        obtain rfl : i = 0 := Nat.le_zero.1 hij
        exact List.suffix_refl _
      | succ j =>
        cases i with
        | zero =>
          simp only [textsSince, h2, if_true]
          exact textsSince_suffix_texts j ms
        | succ i =>
          simp only [textsSince, h2, if_true]
          exact textsSince_suffix i j ms (by omega)
    · simp only [textsSince, h2, if_false]
      exact textsSince_suffix i j ms hij

/-! ## The server along a run -/

/-- A connection for which there is room, or a text whose sender is found. -/
def admissible (s : Server) (m : Received) : Prop :=
  (m.prio = 2 ∧ s.clients.length < clientsAllocated) ∨ (m.prio = 1 ∧ (senderOf s m).isSome = true)

instance (s : Server) (m : Received) : Decidable (admissible s m) := inferInstanceAs (Decidable (_ ∨ _))

/-- The server after the messages `ms`: `xs` is what it has stored, all of it sent. -/
structure Broadcast (ms : List Received) (s : Server) (xs : List Message) : Prop where
  stored : Stored s.messageBuf xs s.messageBufSize
  iter : s.messageBufIter = xs.length % s.messageBufSize
  count : s.messageCount = xs.length % sizeRange
  last : s.lastUpdateMessageId = toLong (xs.length + (sizeRange - 1))
  running : s.running = true
  clients : s.clients.length = connections ms
  sent : ∀ i, s.sentTo i = textsSince i ms

theorem sentTo_broadcast {s t : Server} (text : CString)
    (hsent : t.sent = s.sent ++ (List.range s.clients.length).map fun i => (i, text)) (i : Nat) :
    t.sentTo i = s.sentTo i ++ if i < s.clients.length then [text] else [] := by
  unfold Server.sentTo
  rw [hsent, List.filter_append, List.map_append, map_filter_addressed]

theorem Broadcast.connect {ms : List Received} {s : Server} {xs : List Message} (h : Broadcast ms s xs) {m : Received}
    (hm : m.prio = 2) (hroom : s.clients.length < clientsAllocated) :
    ∃ t, receive s m = some t ∧ Broadcast (ms ++ [m]) t xs := by
  unfold receive
  rw [if_neg (by rw [h.running]; decide), if_pos hm, MsgQueue.connect, if_pos hroom]
  refine ⟨_, rfl, h.stored, h.iter, h.count, h.last, h.running, ?_, fun i => ?_⟩
  · simp [connections, hm, h.clients]
  · rw [textsSince_concat, if_neg (by rw [hm]; simp), List.append_nil]
    exact h.sent i

theorem Broadcast.buffered {ms : List Received} {s : Server} {xs : List Message} (h : Broadcast ms s xs) :
    Buffered s xs :=
  ⟨h.stored, h.iter, h.count, h.last⟩

/-- **A text is stored and sent at once** to every client, and nothing else is. -/
theorem Broadcast.text {ms : List Received} {s : Server} {xs : List Message} (h : Broadcast ms s xs) {m : Received}
    (hm : m.prio = 1) (hsender : (senderOf s m).isSome = true) :
    ∃ t x, receive s m = some t ∧ t.sent = s.sent ++ ((List.range s.clients.length).map fun i => (i, m.buf)) ∧
      Broadcast (ms ++ [m]) t (xs ++ [x]) := by
  obtain ⟨t, x, ht, hsent, hclients, hrunning, hb⟩ := h.buffered.text hsender
  have hreceive : receive s m = some t := by
    unfold receive
    rw [if_neg (by rw [h.running]; decide), if_neg (by rw [hm]; decide), if_neg (by rw [hm]; decide), if_pos hm, ht]
  refine ⟨t, x, hreceive, hsent, hb.stored, hb.iter, hb.count, hb.last, hrunning.trans h.running, ?_, fun i => ?_⟩
  · simp [connections, hm, hclients, h.clients]
  · rw [textsSince_concat, sentTo_broadcast m.buf hsent i, h.sent i, h.clients]
    simp [hm]

theorem broadcast_init {n : Nat} (hn : 1 ≤ n) {s₀ : Server} (h₀ : chatServer n = some s₀) : Broadcast [] s₀ [] := by
  have hb := buffered_init hn h₀
  unfold chatServer at h₀
  obtain ⟨buf, -, rfl⟩ := Option.map_eq_some_iff.1 h₀
  refine ⟨hb.stored, hb.iter, hb.count, hb.last, rfl, rfl, fun i => ?_⟩
  rw [textsSince_eq_nil i [] (Nat.zero_le i)]
  rfl

/-- Admissible messages never stop the server. -/
theorem exists_broadcast {n : Nat} (hn : 1 ≤ n) {s₀ : Server} (h₀ : chatServer n = some s₀) (ms : List Received)
    (hms : Steps receive admissible s₀ ms) : ∃ s xs, run receive s₀ ms = some s ∧ Broadcast ms s xs := by
  induction ms using List.reverseRecOn with
  | nil => exact ⟨s₀, [], rfl, broadcast_init hn h₀⟩
  | append_singleton ms m ih =>
    obtain ⟨s, xs, hrun, hb⟩ := ih (hms.of_prefix (List.prefix_append ms [m]))
    have hstep : ∀ t, receive s m = some t → run receive s₀ (ms ++ [m]) = some t := fun t ht => by
      rw [Run.run_concat, hrun]; exact ht
    rcases hms ms m s (List.prefix_refl _) hrun with ⟨hm, hroom⟩ | ⟨hm, hsender⟩
    · obtain ⟨t, ht, hbt⟩ := hb.connect hm hroom
      exact ⟨t, xs, hstep t ht, hbt⟩
    · obtain ⟨t, x, ht, -, hbt⟩ := hb.text hm hsender
      exact ⟨t, xs ++ [x], hstep t ht, hbt⟩

/-- **The order of the broadcast.**  After every prefix of the messages each client has been sent exactly the texts
received since its connection, in the order of their receipt; so of two clients the later one's list is a suffix of the
earlier one's.  Each text is sent when it is received, to every client, and nothing is sent with it. -/
theorem broadcast_order (n : Nat) (hn : 1 ≤ n) (s₀ : Server) (h₀ : chatServer n = some s₀) (ms : List Received)
    (hms : Steps receive admissible s₀ ms) (pre : List Received) (hpre : pre <+: ms) :
    ∃ s, run receive s₀ pre = some s ∧
      (∀ i < s.clients.length, s.sentTo i = textsSince i pre) ∧
      (∀ i j, i ≤ j → j < s.clients.length → s.sentTo j <:+ s.sentTo i) ∧
      ∀ m, pre ++ [m] <+: ms → m.prio = 1 → ∃ t, receive s m = some t ∧
        t.sent = s.sent ++ (List.range s.clients.length).map fun i => (i, m.buf) := by
  obtain ⟨s, xs, hrun, hb⟩ := exists_broadcast hn h₀ pre (hms.of_prefix hpre)
  refine ⟨s, hrun, fun i _ => hb.sent i, fun i j hij _ => ?_, fun m hm hprio => ?_⟩
  · rw [hb.sent i, hb.sent j]
    exact textsSince_suffix i j pre hij
  · rcases hms pre m s hm hrun with ⟨h2, -⟩ | ⟨-, hsender⟩
    · rw [hprio] at h2; cases h2
    · obtain ⟨t, x, ht, hsent, -⟩ := hb.text hprio hsender
      exact ⟨t, ht, hsent⟩

/-- Two clients and a buffer of two messages that wraps. -/
def twoClients : List Received :=
  let connection (c : Char) : Received := ⟨2, str [c], []⟩
  let text (c d : Char) : Received := ⟨1, str [c, ':', d], []⟩
  [connection 'a', text 'a' 'x', connection 'b', text 'b' 'y', text 'a' 'z', text 'b' 'w']

theorem broadcast_order_twoClients :
    ∃ s, run receive ((chatServer 2).get rfl) twoClients = some s ∧
      (∀ i < s.clients.length, s.sentTo i = textsSince i twoClients) ∧
      (∀ i j, i ≤ j → j < s.clients.length → s.sentTo j <:+ s.sentTo i) ∧
      ∀ m, twoClients ++ [m] <+: twoClients → m.prio = 1 → ∃ t, receive s m = some t ∧
        t.sent = s.sent ++ (List.range s.clients.length).map fun i => (i, m.buf) :=
  broadcast_order 2 (by decide) _ (Option.some_get rfl).symm twoClients (by decide) twoClients (List.prefix_refl _)

end MsgQueue
end Eltex
