import EltexTasks.Feed
import EltexTasks.ShmReaders
import EltexTasks.Update
/-!
# ShmLog — the shared-memory chat is a broadcast

What can be seen of the chat is what can be seen of a `Feed`: the messages written into the block make up one log, and a
client prints the log from its own join request on, message by message, at most the pending one missing
(`chat_is_feed`).  The price is that everybody waits for everybody: once a client is gone, at most one more message is
written (`silent_without_client`).  Everything here is about runs whose sections between `sem_wait` and `sem_post` are
executed one at a time, as the steps of `Shm.step` are, and whose join sections found no message pending.
-/
namespace Eltex
namespace Shm

open Run (run Steps trace)

/-- What can be seen of an event: a client joins, a message is written, a client prints what it reads. -/
def seen (s : Chat) : Event → List (Feed.Event CString)
  | .server => []
  | .join _ => .subscribe :: if s.shm.messageNew then [] else [.publish newText]
  | .client i =>
    match s.clients[i]? with
    | none => []
    | some c =>
      (if clientWrites s.shm c then [.publish c.inputBuf] else []) ++
        match clientSection s.shm c with
        | some (_, _, some text, _) => [.give i text]
        | _ => []
  | .typed _ _ => []

/-- The pending message, if client `i` has not read it. -/
def unread (m : ShmChat) (i : Nat) : List CString :=
  if m.messageNew = true ∧ m.clientStatus[i + 1]? ≠ some true then [m.msgBuf] else []

/-- **What a client has printed, with the pending message if it has not read it, is the log from its join on.** -/
structure Follows (s : Chat) (f : Feed CString) : Prop where
  inv : ReadInv s
  length : f.subscribers.length = s.clients.length
  screens : ∀ i sub, f.subscribers[i]? = some sub →
    sub.start ≤ f.log.length ∧ sub.given ++ unread s.shm i = f.log.drop sub.start

variable {s t : Chat} {f : Feed CString} {i : Nat}

theorem unread_idle {m : ShmChat} (h : m.messageNew = false) (i : Nat) : unread m i = [] :=
  if_neg fun hm => by rw [h] at hm; cases hm.1

theorem unread_read {m : ShmChat} (h : m.clientStatus[i + 1]? = some true) : unread m i = [] :=
  if_neg fun hm => hm.2 h

/-- The counts meet only when everybody has read the message. -/
theorem ReadInv.all_read (h : ReadInv s) (hm : s.shm.messageNew = true) (hs : s.server = true)
    (h0 : s.shm.clientStatus[0]? = some true) (heq : s.shm.msgRecvdClients = s.shm.clientCount) :
    ∀ k < s.clients.length + 1, s.shm.clientStatus[k]? = some true := by
  have hcounted := (h.busy hm hs).counted h0
  have hrecvd := h.recvd
  exact all_set_of_count h.only (by omega)

/-- The reset takes a message away that everybody has read. -/
theorem ReadInv.unread_reset (h : ReadInv s) (hs : s.server = true)
    (hread : s.shm.messageNew = true → s.shm.clientStatus[0]? = some true) (hi : i < s.clients.length) :
    unread (serverReset s.shm) i = unread s.shm i := by
  rcases serverReset_cases s.shm with ⟨-, e⟩ | ⟨heq, e⟩
  · rw [e]
  · rw [e, unread_idle rfl]
    cases hm : s.shm.messageNew with
    | false => exact (unread_idle hm i).symm
    | true => exact (unread_read (h.all_read hm hs (hread hm) heq (i + 1) (Nat.succ_lt_succ hi))).symm

/-- The server's own status byte is no client's. -/
theorem unread_markRead (m : ShmChat) (count i : Nat) :
    unread (markRead { m with clientCount := count } 0) i = unread m i := by
  unfold unread markRead
  simp

/-- The server knows of everybody but the client whose join request it is about to read. -/
theorem Pending.counts (hp : Pending s) (h0 : s.shm.clientStatus[0]? = some false) :
    s.clients.length ≤ s.shm.clientCount ∧ (s.shm.msgBuf ≠ newText → s.clients.length + 1 ≤ s.shm.clientCount) := by
  obtain ⟨hcount, hnew⟩ := hp.uncounted h0
  cases hj : s.hist.joiner with
  | none =>
    rw [hj] at hcount
    exact ⟨by simp at hcount; omega, fun _ => Nat.le_of_eq hcount.symm⟩
  | some j =>
    rw [hj] at hcount
    exact ⟨by simp at hcount; omega, fun hn => absurd (hnew (by rw [hj]; nofun)) hn⟩

theorem ReadInv.unread_take (h : ReadInv s) (hrun : s.server = true) (ht : serverTakes s.shm = true) {count : Nat}
    (hcount : Pending s → s.clients.length + 1 ≤ count) (hi : i < s.clients.length) :
    unread (serverReset (markRead { s.shm with clientCount := count } 0)) i = unread s.shm i := by
  obtain ⟨hf, hm⟩ := (serverTakes_iff s.shm).1 ht
  have hmark := h.mark (p := .server) (Nat.succ_pos _) hf hm count s.hist.joinsDone (fun _ hp _ => hcount hp)
    (fun hne => absurd rfl hne)
  rw [← unread_markRead s.shm count i]
  exact hmark.unread_reset hrun (fun _ => status_markRead (m := { s.shm with clientCount := count }) hf) hi

theorem clients_server (hs : serverStep s = some t) : t.clients = s.clients := by
  obtain ⟨-, ⟨-, rfl⟩ | ⟨-, -, rfl⟩ | ⟨-, -, -, rfl⟩ | ⟨-, -, -, rfl⟩ | ⟨-, -, -, rfl⟩⟩ := serverStep_cases hs <;> rfl

/-- **The server takes no message from a client** that has not read it. -/
theorem ReadInv.unread_server (h : ReadInv s) (hs : serverStep s = some t) (hi : i < s.clients.length) :
    unread t.shm i = unread s.shm i := by
  obtain ⟨hrun, ⟨ht, rfl⟩ | ⟨ht, -, rfl⟩ | ⟨ht, -, -, rfl⟩ | ⟨ht, hn, -, rfl⟩ | ⟨ht, hn, -, rfl⟩⟩ := serverStep_cases hs
  · refine h.unread_reset hrun (fun hm => (status_zero h).resolve_right fun hf => ?_) hi
    rw [(serverTakes_iff s.shm).2 ⟨hf, hm⟩] at ht; cases ht
  · rfl
  · rfl
  · exact h.unread_take hrun ht (fun hp => Nat.succ_le_succ (hp.counts ((serverTakes_iff s.shm).1 ht).1).1) hi
  · exact h.unread_take hrun ht (fun hp => (hp.counts ((serverTakes_iff s.shm).1 ht).1).2 hn) hi

theorem Follows.server (h : Follows s f) (hs : serverStep s = some t) : Follows t f := by
  refine ⟨h.inv.server hs, by rw [clients_server hs]; exact h.length, fun i sub hi => ?_⟩
  have hlt := (List.getElem?_eq_some_iff.1 hi).1
  rw [h.length] at hlt
  rw [h.inv.unread_server hs hlt]
  exact h.screens i sub hi

/-! ## Writing and reading -/

theorem unread_markRead_ne (m : ShmChat) {j : Nat} (h : j ≠ i) : unread (markRead m (j + 1)) i = unread m i := by
  have hne : j + 1 ≠ i + 1 := fun heq => h (Nat.succ.inj heq)
  rw [unread, unread, markRead, List.getElem?_set_ne hne]

theorem Follows.complete (h : Follows s f) (hfree : s.shm.messageNew = false) {sub : Subscriber CString}
    (hsub : sub ∈ f.subscribers) : Feed.Complete f.log sub := by
  obtain ⟨i, hi⟩ := List.mem_iff_getElem?.1 hsub
  obtain ⟨hstart, hscreen⟩ := h.screens i sub hi
  rw [unread_idle hfree, List.append_nil] at hscreen
  exact ⟨hstart, hscreen⟩

/-- A message is written where everybody has printed the log: nobody has read it. -/
theorem follows_written {log : List CString} {subs : List (Subscriber CString)} {text : CString} {u : Chat}
    (hinv : ReadInv s) (hfree : s.shm.messageNew = false)
    (hcomplete : ∀ sub ∈ subs, Feed.Complete log sub)
    (hu : ReadInv u) (hshm : u.shm = { s.shm with msgBuf := text, messageNew := true })
    (hlen : subs.length = u.clients.length) : Follows u ⟨log ++ [text], subs⟩ := by
  obtain ⟨hno, -, -⟩ := hinv.idle hfree
  refine ⟨hu, hlen, fun i sub hi => ?_⟩
  obtain ⟨hstart, hscreen⟩ := hcomplete sub (List.mem_of_getElem? hi)
  have hunread : unread u.shm i = [text] := by
    rw [hshm]
    exact if_pos ⟨rfl, fun hk => hno (List.mem_iff_getElem?.2 ⟨i + 1, hk⟩)⟩
  refine ⟨?_, ?_⟩
  · rw [List.length_append]
    exact Nat.le_add_right_of_le hstart
  · rw [hunread, hscreen, List.drop_append_of_le_length hstart]

/-- Client `i` reads the pending message, which is the next one of the log for it. -/
theorem Follows.read (h : Follows s f) {u : Chat} (hi : i < s.clients.length) (hm : s.shm.messageNew = true)
    (hf : s.shm.clientStatus[i + 1]? = some false) (hu : ReadInv u) (hshm : u.shm = markRead s.shm (i + 1))
    (hlen : u.clients.length = s.clients.length) :
    ∃ g, Feed.step f (.give i s.shm.msgBuf) = some g ∧ Follows u g := by
  obtain ⟨sub, hsub⟩ : ∃ sub, f.subscribers[i]? = some sub :=
    ⟨_, List.getElem?_eq_getElem (by rw [h.length]; exact hi)⟩
  obtain ⟨hstart, hscreen⟩ := h.screens i sub hsub
  have hunread : unread s.shm i = [s.shm.msgBuf] := if_pos ⟨hm, by rw [hf]; nofun⟩
  rw [hunread] at hscreen
  have hnext : f.next sub = some s.shm.msgBuf := by
    rw [Feed.next, ← List.getElem?_drop, ← hscreen, List.getElem?_concat_length]
  refine ⟨_, by rw [Feed.step, hsub]; exact if_pos hnext, hu, ?_, fun j sub' hj => ?_⟩
  · rw [List.length_set, h.length, hlen]
  · obtain ⟨hlt, -⟩ := List.getElem?_eq_some_iff.1 hf
    rcases getElem?_set_cases hj with ⟨rfl, rfl⟩ | ⟨hne, hold⟩
    · have hread : unread u.shm j = [] := unread_read (by
        rw [hshm]; exact List.getElem?_set_self hlt)
      rw [hread, List.append_nil]
      exact ⟨hstart, hscreen⟩
    · rw [hshm, unread_markRead_ne s.shm (Ne.symm hne)]
      exact h.screens j sub' hold

/-- What is seen of a client's section: what it writes, and what it then reads. -/
theorem seen_client {c : Client} (hc : s.clients[i]? = some c) : seen s (.client i) =
    (if clientWrites s.shm c then [.publish c.inputBuf] else []) ++
      if (afterWrite s i c).shm.clientStatus[c.clientId]? = some false ∧ (afterWrite s i c).shm.messageNew = true
      then [.give i (afterWrite s i c).shm.msgBuf] else [] := by
  simp only [seen, hc]
  congr 1
  unfold clientSection clientRead
  simp only [← afterWrite_shm s i c, clientWrite_clientId]
  cases (afterWrite s i c).shm.clientStatus[c.clientId]? with
  | none => simp
  | some b =>
    cases b with
    | true => simp
    | false => cases (afterWrite s i c).shm.messageNew <;> simp

theorem Follows.client (h : Follows s f) (hs : clientStep s i = some t) :
    ∃ g, run Feed.step f (seen s (.client i)) = some g ∧ Follows t g := by
  have hinv := h.inv.client hs
  obtain ⟨c, c', hc, -, hid, ht⟩ := clientStep_cases hs
  have hci : c.clientId = i + 1 := h.inv.ids i c hc
  have hcl := ids_afterWrite s i c
  rw [seen_client hc, hci, Run.run_append]
  rw [hci] at ht
  -- the write path
  obtain ⟨g, hg, hw⟩ : ∃ g, run Feed.step f (if clientWrites s.shm c then [.publish c.inputBuf] else []) = some g ∧
      Follows (afterWrite s i c) g := by
    unfold afterWrite
    split
    case isFalse => exact ⟨f, rfl, h⟩
    case isTrue hwr =>
      have hfree := messageNew_of_clientWrites hwr
      refine ⟨⟨f.log ++ [c.inputBuf], f.subscribers⟩, rfl, ?_⟩
      refine follows_written h.inv hfree (fun sub hsub => h.complete hfree hsub) ?_ rfl h.length
      exact h.inv.written hfree _ _ _ h.inv.ids (Nat.zero_add _) (fun hj => absurd rfl hj)
  rw [hg, Option.bind_some]
  -- the read path
  rcases ht with ⟨⟨b, hb, hidle⟩, rfl⟩ | ⟨hf, hnew, rfl⟩
  · have hnot : ¬ ((afterWrite s i c).shm.clientStatus[i + 1]? = some false ∧
        (afterWrite s i c).shm.messageNew = true) := by
      rintro ⟨hf, hn⟩
      rcases hidle with rfl | hidle
      · rw [hf] at hb; cases hb
      · rw [hn] at hidle; cases hidle
    rw [if_neg hnot]
    exact ⟨g, rfl, hinv, by rw [hw.length, hcl, List.length_set], hw.screens⟩
  · rw [if_pos ⟨hf, hnew⟩]
    have hi : i < (afterWrite s i c).clients.length := by
      rw [hcl]; exact (List.getElem?_eq_some_iff.1 hc).1
    obtain ⟨g', hg', hread⟩ := hw.read hi hnew hf hinv rfl (by rw [List.length_set, hcl])
    exact ⟨g', by rw [Run.run_cons, hg']; rfl, hread⟩

theorem Follows.join {stdin : Option (List Byte)} (h : Follows s f) (hok : joinFree s (.join stdin))
    (hs : joinStep s stdin = some t) : ∃ g, run Feed.step f (seen s (.join stdin)) = some g ∧ Follows t g := by
  have hinv := h.inv.step hok (e := .join stdin) hs
  have hfree : s.shm.messageNew = false := hok
  obtain ⟨c, -, ⟨-, rfl⟩ | ⟨hnew, -⟩⟩ := joinStep_cases hs
  case inr => rw [hfree] at hnew; cases hnew
  refine ⟨⟨f.log ++ [newText], f.subscribers ++ [⟨f.log.length, []⟩]⟩, ?_, ?_⟩
  · simp only [seen, hfree]
    rfl
  · refine follows_written h.inv hfree (fun sub hsub => ?_) hinv rfl (by simp [h.length])
    rcases List.mem_append.1 hsub with hold | hnew
    · exact h.complete hfree hold
    · rw [List.mem_singleton.1 hnew]
      exact ⟨Nat.le_refl _, List.drop_length.symm⟩

theorem Follows.step {e : Event} (h : Follows s f) (hok : joinFree s e) (hs : step s e = some t) :
    ∃ g, run Feed.step f (seen s e) = some g ∧ Follows t g := by
  cases e with
  | server => exact ⟨f, rfl, h.server hs⟩
  | join stdin => exact h.join hok hs
  | client i => exact h.client hs
  | typed i stdin =>
    have hinv := h.inv.step hok hs
    obtain ⟨c, c', hc, hid, rfl⟩ := typedStep_cases hs
    exact ⟨f, rfl, hinv, by rw [h.length, List.length_set], h.screens⟩

theorem follows_init : Follows init .empty := ⟨readInv_init, rfl, nofun⟩

/-- **The chat is a broadcast**, in every run whose join sections found no message pending: what is seen of the run is
what can be seen of a feed with the clients for subscribers, and a client has printed the log from its own join request
on, but for the pending message where it has not read it. -/
theorem chat_is_feed (es : List Event) (s : Chat) (hrun : run step init es = some s)
    (hjoin : Steps step joinFree init es) :
    ∃ f, run Feed.step .empty (trace step seen init es) = some f ∧ f.subscribers.length = s.clients.length ∧
      (∀ i sub, f.subscribers[i]? = some sub → sub.given ++ unread s.shm i = f.log.drop sub.start) ∧
      ∀ a ∈ f.subscribers, ∀ b ∈ f.subscribers, a.start ≤ b.start →
        a.given.drop (b.start - a.start) <+: b.given ∨ b.given <+: a.given.drop (b.start - a.start) := by
  obtain ⟨f, hf, h⟩ := Run.run_trace (fun s f e t (h : Follows s f) hok hs => h.step hok hs) es init s .empty
    follows_init hjoin hrun
  exact ⟨f, hf, h.length, fun i sub hi => (h.screens i sub hi).2,
    fun a ha b hb hab => (Feed.pieces_of_run hf).agree ha hb hab⟩

/-- A second client joins after the first join is read by all, and the first client writes a line that both read. -/
def twoClients : List Event :=
  [.join none, .server, .client 0, .server, .join none, .server, .client 0, .client 1, .server,
    .typed 0 (str ['h', 'i', '\n']), .client 0, .client 1, .server]

/-- What the two have printed. -/
def screens : List (Subscriber CString) := [⟨0, [newText, newText, str ['h', 'i']]⟩, ⟨1, [newText, str ['h', 'i']]⟩]

theorem screens_twoClients :
    (run Feed.step .empty (trace step seen init twoClients)).map Feed.subscribers = some screens := by
  decide +kernel

theorem idle_twoClients : (run step init twoClients).map (fun s => s.shm.messageNew) = some false := by
  decide +kernel

theorem chat_is_feed_twoClients : ∃ f, run Feed.step .empty (trace step seen init twoClients) = some f ∧
    f.subscribers = screens ∧ f.log = [newText, newText, str ['h', 'i']] ∧
    ∀ a ∈ screens, ∀ b ∈ screens, a.start ≤ b.start →
      a.given.drop (b.start - a.start) <+: b.given ∨ b.given <+: a.given.drop (b.start - a.start) := by
  obtain ⟨s, hrun, hidle⟩ := Option.map_eq_some_iff.1 idle_twoClients
  obtain ⟨f, hf, -, hscreens, hagree⟩ := chat_is_feed twoClients s hrun (by decide +kernel)
  have hsubs : f.subscribers = screens := by
    have hview := screens_twoClients
    rw [hf, Option.map_some] at hview
    exact Option.some.inj hview
  rw [hsubs] at hscreens hagree
  refine ⟨f, hf, hsubs, ?_, hagree⟩
  have hfirst := hscreens 0 ⟨0, [newText, newText, str ['h', 'i']]⟩ rfl
  rw [unread_idle hidle, List.append_nil] at hfirst
  exact hfirst.symm

/-! ## A client that is gone -/

/-- Client `i` is gone, and `n` messages can still be written: none while one is pending that it has not read. -/
structure Gone (i : Nat) (s : Chat) (n : Nat) : Prop where
  inv : ReadInv s
  client : ∃ c, s.clients[i]? = some c ∧ c.running = false
  left : n = 1 ∨ n = 0 ∧ unread s.shm i ≠ []

variable {n : Nat}

theorem Gone.lt (h : Gone i s n) : i < s.clients.length := by
  obtain ⟨c, hc, -⟩ := h.client
  exact (List.getElem?_eq_some_iff.1 hc).1

/-- A message is written: it is the last. -/
theorem Gone.written (h : Gone i s n) (hfree : s.shm.messageNew = false) (text : CString) {m : ShmChat}
    (hm : m = { s.shm with msgBuf := text, messageNew := true }) :
    Feed.spend n (.publish text) = some 0 ∧ unread m i = [text] := by
  obtain ⟨hno, -, -⟩ := h.inv.idle hfree
  refine ⟨?_, ?_⟩
  · rcases h.left with rfl | ⟨-, hne⟩
    · rfl
    · exact absurd (unread_idle hfree i) hne
  · rw [hm]
    exact if_pos ⟨rfl, fun hk => hno (List.mem_iff_getElem?.2 ⟨i + 1, hk⟩)⟩

theorem running_of_typedStep {stdin : List Byte} (hs : typedStep s i stdin = some t) :
    ∃ c, s.clients[i]? = some c ∧ c.running = true := by
  unfold typedStep at hs
  cases hc : s.clients[i]? with
  | none => rw [hc] at hs; cases hs
  | some c =>
    rw [hc] at hs
    simp only at hs
    split at hs
    case isFalse => cases hs
    case isTrue hrun => exact ⟨c, rfl, (Bool.and_eq_true_iff.1 hrun).1⟩

theorem Gone.step {e : Event} (h : Gone i s n) (hok : joinFree s e) (hs : step s e = some t) :
    ∃ m, run Feed.spend n (seen s e) = some m ∧ Gone i t m := by
  have hinv := h.inv.step hok hs
  obtain ⟨d, hd, hgone⟩ := h.client
  cases e with
  | server =>
    refine ⟨n, rfl, hinv, ?_, ?_⟩
    · rw [clients_server hs]; exact h.client
    · rw [h.inv.unread_server hs h.lt]; exact h.left
  | join stdin =>
    have hfree : s.shm.messageNew = false := hok
    obtain ⟨c, -, ⟨-, rfl⟩ | ⟨hnew, -⟩⟩ := joinStep_cases hs
    case inr => rw [hfree] at hnew; cases hnew
    obtain ⟨hspend, hunread⟩ := h.written hfree newText rfl
    refine ⟨0, ?_, hinv, ⟨d, getElem?_concat_of_some hd, hgone⟩, .inr ⟨rfl, ?_⟩⟩
    · show run Feed.spend n (.subscribe :: if s.shm.messageNew then [] else [.publish newText]) = some 0
      rw [hfree, Run.run_cons, Feed.spend_subscribe, Option.bind_some, if_neg Bool.false_ne_true, Run.run_cons, hspend]
      rfl
    · rw [hunread]; nofun
  | typed j stdin =>
    obtain ⟨c, hc, hrunning⟩ := running_of_typedStep hs
    obtain ⟨c', d', -, -, rfl⟩ := typedStep_cases hs
    have hne : j ≠ i := by
      rintro rfl
      rw [Option.some.inj (hc.symm.trans hd), hgone] at hrunning
      cases hrunning
    exact ⟨n, rfl, hinv, ⟨d, by rw [List.getElem?_set_ne hne]; exact hd, hgone⟩, h.left⟩
  | client j =>
    obtain ⟨c, c', hc, hrunning, hid, ht⟩ := clientStep_cases hs
    have hne : j ≠ i := by
      rintro rfl
      rw [Option.some.inj (hc.symm.trans hd), hgone] at hrunning
      cases hrunning
    have hcj : c.clientId = j + 1 := h.inv.ids j c hc
    rw [seen_client hc, Run.run_append]
    rw [hcj] at ht
    obtain ⟨m, hm, hleft⟩ :
        ∃ m, run Feed.spend n (if clientWrites s.shm c then [.publish c.inputBuf] else []) = some m ∧
        (m = 1 ∨ m = 0 ∧ unread (afterWrite s j c).shm i ≠ []) := by
      unfold afterWrite
      split
      case isFalse => exact ⟨n, rfl, h.left⟩
      case isTrue hwr =>
        obtain ⟨hspend, hunread⟩ := h.written (messageNew_of_clientWrites hwr) c.inputBuf rfl
        exact ⟨0, by rw [Run.run_cons, hspend]; rfl, .inr ⟨rfl, by rw [hunread]; nofun⟩⟩
    have hclient : ∃ d', (s.clients.set j c')[i]? = some d' ∧ d'.running = false :=
      ⟨d, by rw [List.getElem?_set_ne hne]; exact hd, hgone⟩
    rw [hm, Option.bind_some]
    have hread : run Feed.spend m (if (afterWrite s j c).shm.clientStatus[c.clientId]? = some false ∧
        (afterWrite s j c).shm.messageNew = true then [.give j (afterWrite s j c).shm.msgBuf] else []) = some m := by
      split <;> rfl
    rw [hread]
    rcases ht with ⟨-, rfl⟩ | ⟨-, -, rfl⟩
    · exact ⟨m, rfl, hinv, hclient, hleft⟩
    · refine ⟨m, rfl, hinv, hclient, ?_⟩
      rw [unread_markRead_ne _ hne]
      exact hleft

/-- **Everybody waits for everybody**: after a client has left its loop or crashed, at most one more message is written,
however the run goes on. -/
theorem silent_without_client (es es' : List Event) (s u : Chat) (hrun : run step init es = some s)
    (hjoin : Steps step joinFree init es) (i : Nat) (c : Client) (hc : s.clients[i]? = some c)
    (hgone : c.running = false) (hrun' : run step s es' = some u) (hjoin' : Steps step joinFree s es') :
    (Feed.published (trace step seen s es')).length ≤ 1 := by
  have hinv : ReadInv s := Run.run_inv_of_steps (fun _ _ _ h hok hs => h.step hok hs) es init s readInv_init hjoin hrun
  obtain ⟨m, hm, -⟩ := Run.run_trace (fun s n e t (h : Gone i s n) hok hs => h.step hok hs) es' s u 1
    ⟨hinv, ⟨c, hc, hgone⟩, .inl rfl⟩ hjoin' hrun'
  have hlength := Feed.length_published hm
  calc (Feed.published (trace step seen s es')).length
      ≤ (Feed.published (trace step seen s es')).length + m := Nat.le_add_right _ m
    _ = 1 := hlength

/-- The only client reads end of file, when it has read one line of its own. -/
def lostClient : List Event := oneLineRead ++ [.client 0, .server, .typed 0 []]

theorem silent_without_lostClient :
    (Feed.published (trace step seen ((run step init lostClient).get rfl) [.server])).length ≤ 1 := by
  have hrun : run step init lostClient = some ((run step init lostClient).get rfl) := (Option.some_get rfl).symm
  exact silent_without_client lostClient [.server] _ _ hrun (by decide) 0
    (((run step init lostClient).get rfl).clients.get ⟨0, by decide⟩) (by decide) (by decide)
    (Option.some_get rfl).symm (by decide)

end Shm
end Eltex
